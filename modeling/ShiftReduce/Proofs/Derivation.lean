import ShiftReduce.Grammar.Derivation

/-!
Contract: what a derivation from a string says of the parts of the string.

Owns: a derivation stays one where there are more rules; a derivation from two strings side by side
is two derivations side by side; terminals derive nothing but themselves; and where the first
expansion of a nonterminal leads.
-/

namespace ShiftReduce

namespace Grammar

variable {T N : Type} {grammar : Grammar T N}

/-- A derivation is one of every grammar that has the rules. -/
theorem Derives.of_rules {other : Grammar T N} (kept : ∀ rule ∈ grammar.rules, rule ∈ other.rules)
    {first second : List (Symbol T N)} (derives : grammar.Derives first second) :
    other.Derives first second := by
  induction derives with
  | refl => exact .refl _
  | head expands _ inductionHypothesis =>
      cases expands with
      | intro member before behind =>
          exact .head (.intro (kept _ member) before behind) inductionHypothesis

theorem Expands.split {left right target : List (Symbol T N)}
    (expands : grammar.Expands (left ++ right) target) :
    (∃ leftTarget, target = leftTarget ++ right ∧ grammar.Expands left leftTarget) ∨
      ∃ rightTarget, target = left ++ rightTarget ∧ grammar.Expands right rightTarget := by
  generalize whole : left ++ right = source at expands
  cases expands with
  | @intro rule member before behind =>
      rcases List.append_eq_append_iff.mp whole with ⟨between, rfl, rfl⟩ | ⟨between, rfl, split⟩
      · exact .inr ⟨_, by simp, .intro member between behind⟩
      · -- The expanded symbol stands in the left part unless that part ends right before it.
        cases between with
        | nil =>
            refine .inr ⟨rule.rhs ++ behind, by simp, ?_⟩
            rw [List.nil_append] at split
            rw [← split]
            exact .intro member [] behind
        | cons head tail =>
            obtain ⟨rfl, rfl⟩ := List.cons.inj split
            exact .inl ⟨_, by simp, .intro member before tail⟩

/-- What two strings side by side derive is what each derives by itself. -/
theorem Derives.split (left right : List (Symbol T N)) {target : List (Symbol T N)}
    (derives : grammar.Derives (left ++ right) target) :
    ∃ leftTarget rightTarget, target = leftTarget ++ rightTarget ∧
      grammar.Derives left leftTarget ∧ grammar.Derives right rightTarget := by
  generalize whole : left ++ right = source at derives
  induction derives generalizing left right with
  | refl form => exact ⟨left, right, whole.symm, .refl left, .refl right⟩
  | head expands _ inductionHypothesis =>
      subst whole
      rcases expands.split with ⟨middle, rfl, onLeft⟩ | ⟨middle, rfl, onRight⟩
      · obtain ⟨leftTarget, rightTarget, equal, fromMiddle, fromRight⟩ :=
          inductionHypothesis middle right rfl
        exact ⟨leftTarget, rightTarget, equal, .head onLeft fromMiddle, fromRight⟩
      · obtain ⟨leftTarget, rightTarget, equal, fromLeft, fromMiddle⟩ :=
          inductionHypothesis left middle rfl
        exact ⟨leftTarget, rightTarget, equal, fromLeft, .head onRight fromMiddle⟩

theorem not_expands_nil {target : List (Symbol T N)} : ¬grammar.Expands [] target := by
  intro expands
  generalize empty : ([] : List (Symbol T N)) = source at expands
  cases expands with
  | intro member before behind => simp at empty

theorem not_expands_terminal {terminal : T} {target : List (Symbol T N)} :
    ¬grammar.Expands [.terminal terminal] target := by
  intro expands
  generalize single : [Symbol.terminal terminal] = source at expands
  cases expands with
  | intro member before behind =>
      cases before with
      | nil => cases single
      | cons head tail => simp at single

theorem derives_nil_iff {target : List (Symbol T N)} : grammar.Derives [] target ↔ target = [] := by
  constructor
  · intro derives
    cases derives with
    | refl => rfl
    | head expands _ => exact absurd expands not_expands_nil
  · intro same
    subst same
    exact .refl []

theorem derives_terminal_iff {terminal : T} {target : List (Symbol T N)} :
    grammar.Derives [.terminal terminal] target ↔ target = [.terminal terminal] := by
  constructor
  · intro derives
    cases derives with
    | refl => rfl
    | head expands _ => exact absurd expands not_expands_terminal
  · intro same
    subst same
    exact .refl _

/-- A nonterminal derives itself and what its right sides derive. -/
theorem derives_nonterminal {nonterminal : N} {target : List (Symbol T N)}
    (derives : grammar.Derives [.nonterminal nonterminal] target) :
    target = [.nonterminal nonterminal] ∨
      ∃ rule ∈ grammar.rules, rule.lhs = nonterminal ∧ grammar.Derives rule.rhs target := by
  generalize single : [Symbol.nonterminal nonterminal] = source at derives
  cases derives with
  | refl => exact .inl rfl
  | head expands derives =>
      cases expands with
      | @intro rule member before behind =>
          cases before with
          | nil =>
              obtain ⟨same, rfl⟩ := List.cons.inj single
              rw [List.nil_append, List.append_nil] at derives
              exact .inr ⟨rule, member, (Symbol.nonterminal.inj same).symm, derives⟩
          | cons head tail => simp at single

/-- A string vanishes if each part of it does. -/
theorem derives_append_nil_iff {left right : List (Symbol T N)} :
    grammar.Derives (left ++ right) [] ↔ grammar.Derives left [] ∧ grammar.Derives right [] := by
  constructor
  · intro derives
    obtain ⟨leftTarget, rightTarget, equal, fromLeft, fromRight⟩ := derives.split left right
    obtain ⟨rfl, rfl⟩ := List.append_eq_nil_iff.mp equal.symm
    exact ⟨fromLeft, fromRight⟩
  · intro vanish
    rcases vanish with ⟨fromLeft, fromRight⟩
    simpa using fromLeft.append fromRight

theorem derives_cons_nil_iff {symbol : Symbol T N} {rest : List (Symbol T N)} :
    grammar.Derives (symbol :: rest) [] ↔ grammar.Derives [symbol] [] ∧ grammar.Derives rest [] :=
  @derives_append_nil_iff T N grammar [symbol] rest

/-- Terminals stay. -/
theorem Derives.terminal_mem {first second : List (Symbol T N)}
    (derives : grammar.Derives first second) {terminal : T} (occurs : .terminal terminal ∈ first) :
    .terminal terminal ∈ second := by
  induction derives with
  | refl => exact occurs
  | head expands _ inductionHypothesis =>
      apply inductionHypothesis
      cases expands with
      | intro _ before behind =>
          rcases List.mem_append.mp occurs with inBefore | other
          · simp [inBefore]
          · rcases List.mem_cons.mp other with impossible | inBehind
            · cases impossible
            · simp [inBehind]

end Grammar

end ShiftReduce
