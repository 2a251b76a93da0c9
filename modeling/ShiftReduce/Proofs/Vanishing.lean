import ShiftReduce.Proofs.FirstFollow.First

/-!
Contract: how strings vanish and begin, symbol by symbol.

Owns: `Vanishes` and `Begins`, which take a derivation to the empty string, or to one with a terminal
in front, apart from the left; and their agreement with derivability. What follows a parser as it
works its way to a terminal is by induction on these.
-/

namespace ShiftReduce

namespace Grammar

variable {T N : Type}

/-- Each symbol is the left side of a rule of which the right side vanishes. -/
inductive Vanishes (grammar : Grammar T N) : List (Symbol T N) → Prop where
  | nil : Vanishes grammar []
  | cons {rule : Rule T N} {rest : List (Symbol T N)} (member : rule ∈ grammar.rules)
      (inside : Vanishes grammar rule.rhs) (behind : Vanishes grammar rest) :
      Vanishes grammar (.nonterminal rule.lhs :: rest)

/-- The terminal stands in front, or comes to the front by the rules of the first symbol or once the
first symbol has vanished. -/
inductive Begins (grammar : Grammar T N) (terminal : T) : List (Symbol T N) → Prop where
  | here (rest : List (Symbol T N)) : Begins grammar terminal (.terminal terminal :: rest)
  | inside {rule : Rule T N} (member : rule ∈ grammar.rules)
      (begins : Begins grammar terminal rule.rhs) (rest : List (Symbol T N)) :
      Begins grammar terminal (.nonterminal rule.lhs :: rest)
  | behind {symbol : Symbol T N} {rest : List (Symbol T N)} (vanishes : Vanishes grammar [symbol])
      (begins : Begins grammar terminal rest) : Begins grammar terminal (symbol :: rest)

variable {grammar : Grammar T N} {terminal : T}

theorem vanishes_append_iff {left right : List (Symbol T N)} :
    grammar.Vanishes (left ++ right) ↔ grammar.Vanishes left ∧ grammar.Vanishes right := by
  induction left with
  | nil => exact ⟨fun vanishes => ⟨.nil, vanishes⟩, And.right⟩
  | cons symbol rest inductionHypothesis =>
      constructor
      · intro vanishes
        cases vanishes with
        | cons member inside behind =>
            obtain ⟨restVanishes, rightVanishes⟩ := inductionHypothesis.mp behind
            exact ⟨.cons member inside restVanishes, rightVanishes⟩
      · intro bothVanish
        rcases bothVanish with ⟨leftVanishes, rightVanishes⟩
        cases leftVanishes with
        | cons member inside behind =>
            exact .cons member inside (inductionHypothesis.mpr ⟨behind, rightVanishes⟩)

theorem Vanishes.derives {symbols : List (Symbol T N)} (vanishes : grammar.Vanishes symbols) :
    grammar.Derives symbols [] := by
  induction vanishes with
  | nil => exact .refl []
  | cons member _ _ insideHypothesis behindHypothesis =>
      exact ((derives_rhs member).trans insideHypothesis).append behindHypothesis

/-- The induction is on the derivation: what vanishes after an expansion vanished before. -/
theorem vanishes_iff {symbols : List (Symbol T N)} :
    grammar.Vanishes symbols ↔ grammar.Derives symbols [] := by
  constructor
  · exact Vanishes.derives
  · intro derives
    generalize empty : ([] : List (Symbol T N)) = target at derives
    induction derives with
    | refl => exact empty ▸ .nil
    | head expands _ inductionHypothesis =>
        have vanishes := inductionHypothesis empty
        cases expands with
        | intro member before behind =>
            obtain ⟨frontVanishes, behindVanishes⟩ := vanishes_append_iff.mp vanishes
            obtain ⟨beforeVanishes, inside⟩ := vanishes_append_iff.mp frontVanishes
            exact vanishes_append_iff.mpr ⟨beforeVanishes, .cons member inside behindVanishes⟩

theorem begins_append_iff {left right : List (Symbol T N)} :
    grammar.Begins terminal (left ++ right) ↔
      grammar.Begins terminal left ∨ grammar.Vanishes left ∧ grammar.Begins terminal right := by
  induction left with
  | nil =>
      constructor
      · exact fun begins => .inr ⟨.nil, begins⟩
      · intro begins
        rcases begins with impossible | ⟨_, begins⟩
        · cases impossible
        · exact begins
  | cons symbol rest inductionHypothesis =>
      constructor
      · intro begins
        cases begins with
        | here => exact .inl (.here rest)
        | inside member begins => exact .inl (.inside member begins rest)
        | behind vanishes begins =>
            rcases inductionHypothesis.mp begins with inRest | ⟨restVanishes, inRight⟩
            · exact .inl (.behind vanishes inRest)
            · exact .inr ⟨(@vanishes_append_iff T N grammar [symbol] rest).mpr
                ⟨vanishes, restVanishes⟩, inRight⟩
      · intro begins
        rcases begins with begins | ⟨vanishes, begins⟩
        · cases begins with
          | here => exact .here _
          | inside member begins => exact .inside member begins _
          | behind vanishes begins => exact .behind vanishes (inductionHypothesis.mpr (.inl begins))
        · obtain ⟨symbolVanishes, restVanishes⟩ :=
            (@vanishes_append_iff T N grammar [symbol] rest).mp vanishes
          exact .behind symbolVanishes (inductionHypothesis.mpr (.inr ⟨restVanishes, begins⟩))

theorem Begins.canBegin {symbols : List (Symbol T N)} (begins : grammar.Begins terminal symbols) :
    grammar.CanBegin symbols terminal := by
  induction begins with
  | here => exact canBegin_terminal_cons.mpr rfl
  | inside member _ rest inductionHypothesis =>
      exact canBegin_cons_iff.mpr (.inl (inductionHypothesis.of_derives (derives_rhs member)))
  | behind vanishes _ inductionHypothesis =>
      exact canBegin_cons_iff.mpr (.inr ⟨vanishes.derives, inductionHypothesis⟩)

/-- What derives a string with the terminal in front begins with it. -/
theorem CanBegin.begins {symbols : List (Symbol T N)}
    (canBegin : grammar.CanBegin symbols terminal) : grammar.Begins terminal symbols := by
  rcases canBegin with ⟨others, derives⟩
  generalize shown : Symbol.terminal terminal :: others = target at derives
  induction derives with
  | refl => exact shown ▸ .here others
  | head expands _ inductionHypothesis =>
      have begins := inductionHypothesis shown
      cases expands with
      | @intro rule member before behind =>
          rw [List.append_assoc] at begins
          apply begins_append_iff.mpr
          rcases begins_append_iff.mp begins with inBefore | ⟨beforeVanishes, further⟩
          · exact .inl inBefore
          · have inExpanded : grammar.Begins terminal (.nonterminal rule.lhs :: behind) := by
              rcases begins_append_iff.mp further with inRule | ⟨ruleVanishes, inBehind⟩
              · exact .inside member inRule behind
              · exact .behind (.cons member ruleVanishes .nil) inBehind
            exact .inr ⟨beforeVanishes, inExpanded⟩

end Grammar

end ShiftReduce
