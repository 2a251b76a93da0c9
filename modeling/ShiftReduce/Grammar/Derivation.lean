import ShiftReduce.Grammar.Basic

/-!
Contract: what a grammar derives.

Owns: one expansion in a sentential form and `Derives`, any number of them. The main facts are that
derivations follow one another, and that two of them can be carried out side by side.
-/

namespace ShiftReduce

namespace Grammar

variable {T N : Type}

/-- A left side somewhere in the form is replaced by its right side. -/
inductive Expands (grammar : Grammar T N) :
    List (Symbol T N) → List (Symbol T N) → Prop where
  | intro {rule : Rule T N} (member : rule ∈ grammar.rules) (before behind : List (Symbol T N)) :
      Expands grammar (before ++ .nonterminal rule.lhs :: behind) (before ++ rule.rhs ++ behind)

/-- The second form comes from the first by expansions. -/
inductive Derives (grammar : Grammar T N) :
    List (Symbol T N) → List (Symbol T N) → Prop where
  | refl (form : List (Symbol T N)) : Derives grammar form form
  | head {first second third : List (Symbol T N)} (expands : grammar.Expands first second)
      (derives : Derives grammar second third) : Derives grammar first third

variable {grammar : Grammar T N} {first second third : List (Symbol T N)}

theorem Expands.in_context (expands : grammar.Expands first second)
    (left right : List (Symbol T N)) :
    grammar.Expands (left ++ first ++ right) (left ++ second ++ right) := by
  cases expands with
  | intro member before behind =>
      have wider := Expands.intro member (left ++ before) (behind ++ right)
      simpa [List.append_assoc] using wider

theorem Derives.of_expands (expands : grammar.Expands first second) :
    grammar.Derives first second :=
  .head expands (.refl second)

theorem Derives.trans (earlier : grammar.Derives first second)
    (later : grammar.Derives second third) : grammar.Derives first third := by
  induction earlier with
  | refl => exact later
  | head expands _ inductionHypothesis => exact .head expands (inductionHypothesis later)

theorem Derives.in_context (derives : grammar.Derives first second)
    (left right : List (Symbol T N)) :
    grammar.Derives (left ++ first ++ right) (left ++ second ++ right) := by
  induction derives with
  | refl => exact .refl _
  | head expands _ inductionHypothesis =>
      exact .head (expands.in_context left right) inductionHypothesis

/-- Two derivations side by side. -/
theorem Derives.append {left right leftEnd rightEnd : List (Symbol T N)}
    (leftDerives : grammar.Derives left leftEnd) (rightDerives : grammar.Derives right rightEnd) :
    grammar.Derives (left ++ right) (leftEnd ++ rightEnd) := by
  have leftFirst := leftDerives.in_context [] right
  have rightThen := rightDerives.in_context leftEnd []
  rw [List.append_nil, List.append_nil] at rightThen
  exact leftFirst.trans rightThen

theorem derives_rhs {rule : Rule T N} (member : rule ∈ grammar.rules) :
    grammar.Derives [.nonterminal rule.lhs] rule.rhs := by
  have expands := Expands.intro member [] []
  rw [List.nil_append, List.nil_append, List.append_nil] at expands
  exact .of_expands expands

end Grammar

end ShiftReduce
