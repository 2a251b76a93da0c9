import ShiftReduce.Proofs.Lookahead.MayFollow

/-!
Contract: which terminals can come next once a string has been read.

Owns: `Continues`, by which the terminal is read or a rule is completed on it; and the fact that
what comes next behind a nonterminal comes next behind each of its right sides. So a reduction never
makes a terminal possible that was not possible before.

Does not own: that what can come next leads to a sentence. Behind a nonterminal that derives no
string of terminals it does not.
-/

namespace ShiftReduce

namespace Grammar

variable {T N : Type} [DecidableEq N]

/-- A valid item reads the terminal, or the terminal may follow a rule that has been read. -/
inductive Continues (grammar : Grammar T N) (access : List (Symbol T N)) (terminal : T) : Prop where
  | reads {item : Item} (valid : grammar.Valid access item)
      (expects : item.next? grammar = some (.terminal terminal))
  | completes {id : RuleId}
      (follows : grammar.MayFollow access ⟨id, (grammar.rule id).rhs.length⟩ terminal)

/-- The terminal comes next once the item has read the symbol that it expects. -/
def ComesBehind (grammar : Grammar T N) (access : List (Symbol T N)) (item : Item) (terminal : T) :
    Prop :=
  grammar.CanBegin (item.suffix grammar) terminal ∨
    grammar.Derives (item.suffix grammar) [] ∧ grammar.MayFollow access item terminal

variable {grammar : Grammar T N} {access : List (Symbol T N)} {item : Item} {terminal : T}

/-- What comes behind a nonterminal may follow its rules. -/
theorem ComesBehind.mayFollow (behind : grammar.ComesBehind access item terminal)
    (valid : grammar.Valid access item) {new : Item} (implied : new ∈ grammar.implied item) :
    grammar.MayFollow access new terminal := by
  rcases behind with begins | ⟨vanishes, follows⟩
  · exact .opens valid implied begins
  · exact .inherits follows implied vanishes

/-- Where the rest of an item can begin with a terminal, the terminal comes behind the last symbol
that has been read. The induction is on the validity of the item, back to the item that has read the
symbol. -/
private theorem exists_comesBehind_of_canBegin {symbol : Symbol T N}
    (valid : grammar.Valid (access ++ [symbol]) item)
    (begins : grammar.CanBegin ((grammar.rule item.rule).rhs.drop item.marker) terminal) :
    ∃ source, grammar.Valid access source ∧ source.next? grammar = some symbol ∧
      grammar.ComesBehind access source terminal := by
  generalize whole : access ++ [symbol] = string at valid
  induction valid with
  | start => simp at whole
  | implied _ implied inductionHypothesis =>
      obtain ⟨isRule, front, unread⟩ := drop_of_implied implied
      rw [unread] at begins
      apply inductionHypothesis _ whole
      rw [front]
      exact canBegin_cons_iff.mpr (.inl (begins.of_derives (derives_rhs isRule)))
  | @advance _ source _ valid expects _ =>
      obtain ⟨rfl, same⟩ := List.append_inj' whole rfl
      cases same
      exact ⟨source, valid, expects, .inl begins⟩

/-- Where the rest of an item vanishes and a terminal may follow the item, the terminal comes behind
the last symbol that has been read. The induction is on how the terminal may follow. -/
private theorem exists_comesBehind_of_vanishes {symbol : Symbol T N}
    (follows : grammar.MayFollow (access ++ [symbol]) item terminal)
    (vanishes : grammar.Derives ((grammar.rule item.rule).rhs.drop item.marker) []) :
    ∃ source, grammar.Valid access source ∧ source.next? grammar = some symbol ∧
      grammar.ComesBehind access source terminal := by
  generalize whole : access ++ [symbol] = string at follows
  induction follows with
  | start => simp at whole
  | opens valid implied begins =>
      obtain ⟨isRule, front, unread⟩ := drop_of_implied implied
      rw [unread] at vanishes
      subst whole
      apply exists_comesBehind_of_canBegin valid
      rw [front]
      exact canBegin_cons_iff.mpr (.inr ⟨(derives_rhs isRule).trans vanishes, begins⟩)
  | inherits _ implied suffixVanishes inductionHypothesis =>
      obtain ⟨isRule, front, unread⟩ := drop_of_implied implied
      rw [unread] at vanishes
      apply inductionHypothesis _ whole
      rw [front]
      exact derives_cons_nil_iff.mpr ⟨(derives_rhs isRule).trans vanishes, suffixVanishes⟩
  | @advance _ source _ _ follows expects _ =>
      obtain ⟨rfl, same⟩ := List.append_inj' whole rfl
      cases same
      exact ⟨source, follows.valid, expects, .inr ⟨vanishes, follows⟩⟩

/-- What comes next behind a symbol comes behind it in an item that expects it. -/
theorem Continues.exists_comesBehind {symbol : Symbol T N}
    (continues : grammar.Continues (access ++ [symbol]) terminal) :
    ∃ source, grammar.Valid access source ∧ source.next? grammar = some symbol ∧
      grammar.ComesBehind access source terminal := by
  cases continues with
  | reads valid expects =>
      apply exists_comesBehind_of_canBegin valid
      rw [drop_of_next? expects]
      exact ⟨_, .refl _⟩
  | completes follows =>
      apply exists_comesBehind_of_vanishes follows
      rw [List.drop_length]
      exact .refl []

/-- What comes next behind the left side of a rule may follow the rule once it has been read. -/
theorem Continues.mayFollow_read {below : List (Symbol T N)} {id : RuleId}
    (bound : id < grammar.rules.size)
    (continues : grammar.Continues (below ++ [.nonterminal (grammar.rule id).lhs]) terminal) :
    grammar.MayFollow (below ++ (grammar.rule id).rhs) ⟨id, (grammar.rule id).rhs.length⟩
      terminal := by
  obtain ⟨source, valid, expects, behind⟩ := continues.exists_comesBehind
  have follows := behind.mayFollow valid (implied_of_next? bound expects)
  have spelled : (grammar.rule id).rhs.drop 0 = (grammar.rule id).rhs ++ [] := by simp
  have whole := follows.advance_along spelled
  rw [Nat.zero_add] at whole
  exact whole

/-- What comes next behind the left side of a rule comes next behind its right side. -/
theorem Continues.unreduced {below : List (Symbol T N)} {id : RuleId}
    (bound : id < grammar.rules.size)
    (continues : grammar.Continues (below ++ [.nonterminal (grammar.rule id).lhs]) terminal) :
    grammar.Continues (below ++ (grammar.rule id).rhs) terminal :=
  .completes (continues.mayFollow_read bound)

/-- Behind the right side of the accepting rule the input can end. -/
theorem continues_accepting :
    grammar.Continues grammar.acceptingRule.rhs grammar.vocabulary.endMarker := by
  have follows : grammar.MayFollow [] grammar.startItem grammar.vocabulary.endMarker := .start
  have spelled : grammar.acceptingRule.rhs.drop 0 = grammar.acceptingRule.rhs ++ [] := by simp
  have whole := follows.advance_along spelled
  rw [List.nil_append, Item.marker, startItem, Nat.zero_add] at whole
  exact .completes whole

end Grammar

end ShiftReduce
