import ShiftReduce.Grammar.Derivation
import ShiftReduce.Proofs.Automaton.Items

/-!
Contract: what has been read is the beginning of a sentential form.

Owns: the fact that the right side of the accepting rule derives a form which begins with the string
for which an item is valid, and goes on with what the item still has to read. All that stands behind
the string occurs on right sides.
-/

namespace ShiftReduce

namespace Grammar

variable {T N : Type} [DecidableEq N] {grammar : Grammar T N} {access : List (Symbol T N)}
  {item : Item}

/-- The item begins a form. -/
private theorem Valid.exists_context (valid : grammar.Valid access item) :
    ∃ behind, grammar.Derives grammar.acceptingRule.rhs
        (access ++ (grammar.rule item.rule).rhs.drop item.marker ++ behind) ∧
      ∀ symbol ∈ behind, ∃ rule ∈ grammar.rules, symbol ∈ rule.rhs := by
  induction valid with
  | start =>
      refine ⟨[], ?_, by simp⟩
      rw [List.nil_append, List.append_nil]
      exact .refl _
  | @implied access source new _ implied inductionHypothesis =>
      obtain ⟨behind, derives, occur⟩ := inductionHypothesis
      obtain ⟨isRule, front, unread⟩ := drop_of_implied implied
      refine ⟨source.suffix grammar ++ behind, ?_, ?_⟩
      · have expanded := (derives_rhs isRule).in_context access (source.suffix grammar ++ behind)
        rw [front] at derives
        rw [unread]
        apply derives.trans
        simpa using expanded
      · intro symbol member
        rcases List.mem_append.mp member with inSuffix | inBehind
        · have isSourceRule := rule_mem_of_next? (expects_of_drop front).1
          exact ⟨_, isSourceRule, List.mem_of_mem_drop inSuffix⟩
        · exact occur symbol inBehind
  | @advance access source symbol _ expects inductionHypothesis =>
      obtain ⟨behind, derives, occur⟩ := inductionHypothesis
      refine ⟨behind, ?_, occur⟩
      rw [drop_of_next? expects] at derives
      show grammar.Derives _ (access ++ [symbol] ++ source.suffix grammar ++ behind)
      simpa using derives

/-- A string for which an item is valid begins a form that the accepting rule derives. -/
theorem Valid.exists_form [DecidableEq T] (valid : grammar.Valid access item) :
    ∃ behind, grammar.Derives grammar.acceptingRule.rhs (access ++ behind) ∧
      ∀ symbol ∈ behind, ∃ rule ∈ grammar.rules, symbol ∈ rule.rhs := by
  obtain ⟨behind, derives, occur⟩ := valid.exists_context
  obtain ⟨state, _, member⟩ := valid.exists_walk
  have bound := (mem_allItems.mp (items_subset_allItems member)).1
  refine ⟨(grammar.rule item.rule).rhs.drop item.marker ++ behind, ?_, ?_⟩
  · rwa [← List.append_assoc]
  · intro symbol member
    rcases List.mem_append.mp member with unread | inBehind
    · exact ⟨_, rule_mem bound, List.mem_of_mem_drop unread⟩
    · exact occur symbol inBehind

end Grammar

end ShiftReduce
