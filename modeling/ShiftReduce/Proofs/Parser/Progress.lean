import ShiftReduce.Proofs.Lookahead.Continuations
import ShiftReduce.Proofs.Parser.Falling

/-!
Contract: what can come next is reached.

Owns: the fact that what vanishes or begins behind a string can come next after it, so that where
every nonterminal is productive something can always come next; and the theorem that a parser
without clashes stops or reads its lookahead, if that can come next after the stack.

The way to the lookahead is by induction on how it may follow the rule on top of the stack. A rule
whose rest vanishes is completed and reduced, and the rule above it goes on from its left side.
-/

namespace ShiftReduce

namespace Grammar

variable {T N : Type} [DecidableEq N] {grammar : Grammar T N} {access : List (Symbol T N)}
  {item : Item} {terminal : T}

/-! ## What can come next -/

/-- Where the rest of an item vanishes, what may follow the item can come next. The induction is on
how the rest vanishes, by the rule of its first symbol. -/
theorem MayFollow.continues {rest : List (Symbol T N)}
    (follows : grammar.MayFollow access item terminal) (vanishes : grammar.Vanishes rest)
    (spelled : (grammar.rule item.rule).rhs.drop item.marker = rest) :
    grammar.Continues access terminal := by
  induction vanishes generalizing item with
  | nil =>
      have within := (mem_allItems.mp follows.valid.fits).2
      have whole : item.marker = (grammar.rule item.rule).rhs.length :=
        Nat.le_antisymm within (List.drop_eq_nil_iff.mp spelled)
      have completed : grammar.MayFollow access
          ⟨item.rule, (grammar.rule item.rule).rhs.length⟩ terminal := whole ▸ follows
      exact .completes completed
  | cons isRule _ behind inductionHypothesis _ =>
      obtain ⟨id, bound, rfl⟩ := exists_id_of_mem isRule
      obtain ⟨expects, suffix⟩ := expects_of_drop spelled
      have inherited : grammar.MayFollow access ⟨id, 0⟩ terminal :=
        .inherits follows (implied_of_next? bound expects) (suffix ▸ behind.derives)
      exact inductionHypothesis inherited List.drop_zero

/-- Where the rest of a valid item begins with a terminal, that can come next. -/
theorem Valid.continues {rest : List (Symbol T N)} (valid : grammar.Valid access item)
    (begins : grammar.Begins terminal rest)
    (spelled : (grammar.rule item.rule).rhs.drop item.marker = rest) :
    grammar.Continues access terminal := by
  induction begins generalizing item with
  | here => exact .reads valid (expects_of_drop spelled).1
  | inside isRule _ _ inductionHypothesis =>
      obtain ⟨id, bound, rfl⟩ := exists_id_of_mem isRule
      obtain ⟨expects, _⟩ := expects_of_drop spelled
      exact inductionHypothesis (valid.implied (implied_of_next? bound expects)) List.drop_zero
  | behind vanishes begins _ =>
      cases vanishes with
      | cons isRule inside _ =>
          obtain ⟨id, bound, rfl⟩ := exists_id_of_mem isRule
          obtain ⟨expects, suffix⟩ := expects_of_drop spelled
          have opened : grammar.MayFollow access ⟨id, 0⟩ terminal :=
            .opens valid (implied_of_next? bound expects) (suffix ▸ begins.canBegin)
          exact opened.continues inside List.drop_zero

/-- Where every nonterminal is productive, something can come next wherever an item is valid. -/
theorem IsProductive.exists_continues (productive : grammar.IsProductive)
    (valid : grammar.Valid access item) : ∃ terminal, grammar.Continues access terminal := by
  have bound := (mem_allItems.mp valid.fits).1
  obtain ⟨word, derives⟩ := @IsProductive.exists_word T N grammar productive
    ((grammar.rule item.rule).rhs.drop item.marker) fun symbol occurs =>
      ⟨_, rule_mem bound, List.mem_of_mem_drop occurs⟩
  cases word with
  | nil =>
      obtain ⟨lookahead, follows⟩ := productive.exists_canonicallyFollows valid
      exact ⟨lookahead, follows.mayFollow.continues (vanishes_iff.mpr derives) rfl⟩
  | cons terminal others =>
      have canBegin : grammar.CanBegin ((grammar.rule item.rule).rhs.drop item.marker) terminal :=
        ⟨_, derives⟩
      exact ⟨terminal, valid.continues canBegin.begins rfl⟩

/-! ## The way to it -/

variable [DecidableEq T] {method : Method} {frames : List (Frame T N)} {tokens : List (Token T)}

/-- The rest of an item vanishes: unless the parser concludes, it pushes the rest. -/
private theorem concludes_or_pushes (usable : grammar.IsUsable method) {id : RuleId}
    (follows : grammar.MayFollow access ⟨id, 0⟩ (grammar.ahead tokens))
    (linked : grammar.Linked frames) {read rest : List (Symbol T N)}
    (spelled : symbols frames = access ++ read) (whole : (grammar.rule id).rhs = read ++ rest)
    (vanishes : grammar.Vanishes rest) :
    grammar.Concludes method frames tokens ∨ ∃ upper, grammar.Linked (upper ++ frames) ∧
      grammar.Drives method frames tokens (upper ++ frames) tokens ∧
      symbols (upper ++ frames) = access ++ (grammar.rule id).rhs := by
  have unread : (grammar.rule id).rhs.drop 0 = read ++ rest := whole
  have moved := follows.advance_along unread
  have remaining : (grammar.rule id).rhs.drop (0 + read.length) = rest ++ [] := by
    rw [whole, Nat.zero_add, List.drop_left, List.append_nil]
  have walked := linked.walk
  rw [spelled] at walked
  rcases concludes_or_vanishes usable vanishes linked walked moved.valid remaining
    (.inr ⟨.refl [], moved⟩) with concludes | ⟨upper, upperLinked, drives, pushed⟩
  · exact .inl concludes
  · refine .inr ⟨upper, upperLinked, drives, ?_⟩
    rw [symbols_append, spelled, pushed, whole, List.append_assoc]

/-- A rule whose rest vanishes is reduced, unless the parser concludes before. -/
private theorem concludes_or_closes (usable : grammar.IsUsable method) {id : RuleId}
    (follows : grammar.MayFollow access ⟨id, 0⟩ (grammar.ahead tokens))
    (ordinary : id ≠ grammar.accepting) (linked : grammar.Linked frames)
    {read rest : List (Symbol T N)} (spelled : symbols frames = access ++ read)
    (whole : (grammar.rule id).rhs = read ++ rest) (vanishes : grammar.Vanishes rest) :
    grammar.Concludes method frames tokens ∨ ∃ after, grammar.Linked after ∧
      grammar.Drives method frames tokens after tokens ∧
      symbols after = access ++ [.nonterminal (grammar.rule id).lhs] := by
  rcases concludes_or_pushes usable follows linked spelled whole vanishes with
    concludes | ⟨upper, upperLinked, drives, pushed⟩
  · exact .inl concludes
  have unread : (grammar.rule id).rhs.drop 0 = (grammar.rule id).rhs ++ [] := by simp
  have completed := follows.advance_along unread
  rw [Nat.zero_add] at completed
  have walked := upperLinked.walk
  rw [pushed] at walked
  obtain ⟨popped, below, stacked, poppedRead, initial⟩ :=
    upperLinked.exists_popped_of_completed (completed.valid.mem_completed walked)
  rw [stacked] at upperLinked drives walked pushed
  rw [symbols_append] at pushed
  have belowRead : symbols below = access :=
    (List.append_inj' pushed (congrArg List.length poppedRead)).1
  have length : popped.length = (grammar.rule id).rhs.length := by
    rw [← length_symbols, poppedRead]
  obtain ⟨target, edge⟩ := exists_goto?_of_initial initial ordinary
  rcases concludes_or_reduces usable upperLinked walked completed ordinary length edge with
    concludes | reduces
  · exact .inl (concludes.of_drives drives)
  · have afterLinked : grammar.Linked (⟨target, .node (grammar.rule id).lhs
        (popped.map Frame.tree).reverse⟩ :: below) := ⟨edge, upperLinked.of_append⟩
    refine .inr ⟨_, afterLinked, drives.trans reduces.drives, ?_⟩
    rw [symbols_cons, belowRead]
    rfl

/-- From a stack on which an item has been read up to a rest that vanishes, a terminal that may
follow the item is reached. The induction is on how it may follow. -/
private theorem concludes_of_mayFollow (usable : grammar.IsUsable method)
    (follows : grammar.MayFollow access item (grammar.ahead tokens))
    (linked : grammar.Linked frames) {read rest : List (Symbol T N)}
    (spelled : symbols frames = access ++ read)
    (unread : (grammar.rule item.rule).rhs.drop item.marker = read ++ rest)
    (vanishes : grammar.Vanishes rest) : grammar.Concludes method frames tokens := by
  generalize front : grammar.ahead tokens = terminal at follows
  induction follows generalizing frames read rest with
  | start =>
      have starts : grammar.MayFollow [] ⟨grammar.accepting, 0⟩ (grammar.ahead tokens) :=
        front ▸ .start
      rcases concludes_or_pushes usable starts linked spelled unread vanishes with
        concludes | ⟨upper, upperLinked, drives, pushed⟩
      · exact concludes
      have walked := upperLinked.walk
      rw [pushed] at walked
      have whole : (grammar.rule grammar.accepting).rhs.drop 0 =
          (grammar.rule grammar.accepting).rhs ++ [] := by simp
      have completed := starts.advance_along whole
      rw [Nat.zero_add] at completed
      have accepted := halts_of_accept (completed.action?_eq_accept method walked)
      exact (Concludes.halts accepted).of_drives drives
  | @opens access host new terminal valid implied begins =>
      obtain ⟨nonterminal, expects, initial⟩ := mem_implied.mp implied
      obtain ⟨marker, _, rfl⟩ := mem_initialItems.mp initial
      have follows : grammar.MayFollow access ⟨new.rule, 0⟩ (grammar.ahead tokens) := by
        rw [front, ← marker]
        exact .opens valid implied begins
      rw [marker] at unread
      rcases concludes_or_closes usable follows (rule_ne_accepting_of_implied implied) linked
        spelled unread vanishes with concludes | ⟨after, afterLinked, drives, closed⟩
      · exact concludes
      have walked := afterLinked.walk
      rw [closed] at walked
      have member := (valid_iff_of_walk walked).mp (valid.advance expects)
      rw [← front] at begins
      exact (concludes_of_begins usable begins.begins afterLinked member rfl).of_drives drives
  | @inherits access host new terminal follows implied suffixVanishes inductionHypothesis =>
      obtain ⟨nonterminal, expects, initial⟩ := mem_implied.mp implied
      obtain ⟨marker, _, rfl⟩ := mem_initialItems.mp initial
      have follows : grammar.MayFollow access ⟨new.rule, 0⟩ (grammar.ahead tokens) := by
        rw [front, ← marker]
        exact .inherits follows implied suffixVanishes
      rw [marker] at unread
      rcases concludes_or_closes usable follows (rule_ne_accepting_of_implied implied) linked
        spelled unread vanishes with concludes | ⟨after, afterLinked, drives, closed⟩
      · exact concludes
      exact (inductionHypothesis afterLinked closed (drop_of_next? expects)
        (vanishes_iff.mpr suffixVanishes) front).of_drives drives
  | @advance access host terminal symbol follows expects inductionHypothesis =>
      rw [List.append_assoc] at spelled
      apply inductionHypothesis linked spelled _ vanishes front
      rw [drop_of_next? expects]
      exact congrArg (symbol :: ·) unread

/-- If the lookahead can come next, the parser stops or reads it. -/
theorem concludes_of_continues (usable : grammar.IsUsable method) (linked : grammar.Linked frames)
    (continues : grammar.Continues (symbols frames) (grammar.ahead tokens)) :
    grammar.Concludes method frames tokens := by
  cases continues with
  | reads valid expects =>
      obtain ⟨target, edge⟩ := exists_goto? ((valid_iff_of_walk linked.walk).mp valid) expects
      exact concludes_of_edge linked edge
  | completes follows =>
      exact concludes_of_mayFollow usable follows linked (List.append_nil _).symm List.drop_length
        .nil

end Grammar

end ShiftReduce
