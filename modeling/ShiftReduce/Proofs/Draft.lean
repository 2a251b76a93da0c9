import ShiftReduce.Grammar.Draft

/-!
Contract: what a grammar takes over from the declarations it has been built from.

Owns: the rule that a declaration declares; a list of declarations drafts the rules of the list, in
its order; and a draft without fault is built into a grammar with its vocabulary, its start symbol
and its rules.

Does not own: which declarations make a draft without fault (`ShiftReduce.Proofs.Draft.WellFormed`).
-/

namespace ShiftReduce

variable {T N : Type}

/-- The rule that the step declares, if it declares one. -/
def Declaration.rule? : Declaration T N → Option (Rule T N)
  | .define _ => none
  | .rule lhs rhs => some ⟨lhs, rhs⟩
  | .accepting lhs rhs => some ⟨lhs, rhs⟩

namespace Draft

variable [DecidableEq N]

/-- Declaring a nonterminal changes nothing but the list of declared nonterminals. -/
theorem define_keeps (draft : Draft T N) (nonterminal : N) :
    (draft.define nonterminal).vocabulary = draft.vocabulary ∧
      (draft.define nonterminal).start = draft.start ∧
      (draft.define nonterminal).rules = draft.rules := by
  unfold define
  split
  · exact ⟨rfl, rfl, rfl⟩
  · exact ⟨rfl, rfl, rfl⟩

theorem addRule_keeps (draft : Draft T N) (lhs : N) (rhs : List (Symbol T N)) :
    (draft.addRule lhs rhs).vocabulary = draft.vocabulary ∧
      (draft.addRule lhs rhs).start = draft.start ∧
      (draft.addRule lhs rhs).rules.toList = draft.rules.toList ++ [⟨lhs, rhs⟩] := by
  obtain ⟨vocabulary, start, rules⟩ := draft.define_keeps lhs
  refine ⟨vocabulary, start, ?_⟩
  show ((draft.define lhs).rules.push ⟨lhs, rhs⟩).toList = _
  rw [Array.toList_push, rules]

theorem declare_keeps (draft : Draft T N) (declaration : Declaration T N) :
    (draft.declare declaration).vocabulary = draft.vocabulary ∧
      (draft.declare declaration).start = draft.start ∧
      (draft.declare declaration).rules.toList =
        draft.rules.toList ++ declaration.rule?.toList := by
  cases declaration with
  | define nonterminal =>
      obtain ⟨vocabulary, start, rules⟩ := draft.define_keeps nonterminal
      refine ⟨vocabulary, start, ?_⟩
      show (draft.define nonterminal).rules.toList = draft.rules.toList ++ []
      rw [rules, List.append_nil]
  | rule lhs rhs => exact draft.addRule_keeps lhs rhs
  | accepting lhs rhs => exact draft.addRule_keeps lhs rhs

private theorem foldl_declare_keeps (declarations : List (Declaration T N)) (draft : Draft T N) :
    (declarations.foldl declare draft).vocabulary = draft.vocabulary ∧
      (declarations.foldl declare draft).start = draft.start ∧
      (declarations.foldl declare draft).rules.toList =
        draft.rules.toList ++ declarations.filterMap Declaration.rule? := by
  induction declarations generalizing draft with
  | nil => simp
  | cons declaration rest inductionHypothesis =>
      obtain ⟨vocabulary, start, rules⟩ := draft.declare_keeps declaration
      obtain ⟨restVocabulary, restStart, restRules⟩ :=
        inductionHypothesis (draft.declare declaration)
      refine ⟨restVocabulary.trans vocabulary, restStart.trans start, ?_⟩
      rw [List.foldl_cons, restRules, rules, List.append_assoc]
      cases declared : declaration.rule? with
      | none => simp [declared]
      | some rule => simp [declared]

/-- A draft has the rules of its declarations, over the vocabulary that it was begun with. -/
theorem ofDeclarations_keeps (vocabulary : Vocabulary T N) (start : N)
    (declarations : List (Declaration T N)) :
    (ofDeclarations vocabulary start declarations).vocabulary = vocabulary ∧
      (ofDeclarations vocabulary start declarations).start = start ∧
      (ofDeclarations vocabulary start declarations).rules.toList =
        declarations.filterMap Declaration.rule? :=
  foldl_declare_keeps declarations { vocabulary := vocabulary, start := start }

variable [DecidableEq T] {draft : Draft T N}

theorem exists_build (faultless : draft.fault? = none) : ∃ grammar, draft.build = .ok grammar := by
  unfold build
  split
  · next fault found =>
      rw [faultless] at found
      cases found
  · exact ⟨_, rfl⟩

theorem build_keeps {grammar : Grammar T N} (built : draft.build = .ok grammar) :
    grammar.vocabulary = draft.vocabulary ∧ grammar.start = draft.start ∧
      grammar.rules = draft.rules := by
  unfold build at built
  split at built
  · cases built
  · cases built
    exact ⟨rfl, rfl, rfl⟩

end Draft

end ShiftReduce
