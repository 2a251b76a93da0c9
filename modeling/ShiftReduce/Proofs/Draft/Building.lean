import Mathlib.Data.List.Perm.Basic
import ShiftReduce.Proofs.Draft.WellFormed

/-!
Contract: declarations are frozen into the grammar that they declare.

Owns: the entries of a grammar; `Freezes`, by which a grammar has the declared rules, one of them
accepting, and for each declared nonterminal the rules that have been kept up for it; and the
theorem that building accepts the well-formed declarations, freezes them, and blames the first fault
of all others.
-/

namespace ShiftReduce

variable {T N : Type}

/-- Where a test holds at one place alone, it tells the place. -/
private theorem decide_eq_of_findIdxs {α : Type} {test : α → Bool} {members : List α}
    {index only : Nat} {member : α} (alone : members.findIdxs test = [only])
    (found : members[index]? = some member) : decide (index = only) = test member := by
  obtain ⟨bound, rfl⟩ := List.getElem?_eq_some_iff.mp found
  have holds : index = only ↔ test members[index] = true := by
    rw [← List.mem_findIdxs_iff_pos_getElem bound, alone, List.mem_singleton]
  rw [Bool.eq_iff_iff, decide_eq_true_iff]
  exact holds

namespace Grammar

/-- The rules in the order of their numbers, each with whether it is the accepting one. -/
def entries (grammar : Grammar T N) : List (Entry T N) :=
  grammar.rules.toList.zipIdx.map fun (rule, id) => ⟨rule, id = grammar.accepting⟩

theorem getElem?_entries (grammar : Grammar T N) (id : RuleId) :
    grammar.entries[id]? =
      (grammar.rules[id]?).map fun rule => ⟨rule, decide (id = grammar.accepting)⟩ := by
  rw [entries, List.getElem?_map, List.getElem?_zipIdx, Option.map_map, Array.getElem?_toList]
  simp [Function.comp_def]

/-- The accepting rule is the one entry that is marked. -/
theorem findIdxs_entries (grammar : Grammar T N) :
    grammar.entries.findIdxs Entry.accepting = [grammar.accepting] := by
  have isPlace : ∀ id, id ∈ grammar.entries.findIdxs Entry.accepting ↔
      id ∈ [grammar.accepting] := by
    intro id
    rw [List.mem_findIdxs_iff_exists_getElem_pos, List.mem_singleton]
    have found := grammar.getElem?_entries id
    constructor
    · rintro ⟨bound, marked⟩
      rw [List.getElem?_eq_getElem bound] at found
      obtain ⟨rule, _, made⟩ := Option.map_eq_some_iff.mp found.symm
      rw [← made] at marked
      exact of_decide_eq_true marked
    · rintro rfl
      rw [Array.getElem?_eq_getElem grammar.accepting_lt, Option.map_some] at found
      obtain ⟨bound, made⟩ := List.getElem?_eq_some_iff.mp found
      exact ⟨bound, by rw [made]; exact decide_eq_true rfl⟩
  apply List.perm_singleton.mp
  exact (List.perm_ext_iff_of_nodup List.nodup_findIdxs (List.pairwise_singleton _ _)).mpr isPlace

variable [DecidableEq N]

theorem rulesOf_eq_findIdxs (grammar : Grammar T N) (nonterminal : N) :
    grammar.rulesOf nonterminal =
      grammar.rules.toList.findIdxs fun rule => rule.lhs = nonterminal := by
  rw [← filter_range_eq_findIdxs, Array.length_toList]
  apply List.filter_congr
  intro id inRange
  have bound : id < grammar.rules.size := List.mem_range.mp inRange
  simp [rule, rule?, bound]

/-- A grammar's productions are its rules by left side. -/
theorem productions_eq_ofRules (grammar : Grammar T N) :
    grammar.productions = Registry.ofRules grammar.defined grammar.rules.toList := by
  simp only [productions, Registry.ofRules, rulesOf_eq_findIdxs]

/-- The grammar is what has been declared. -/
structure Freezes (vocabulary : Vocabulary T N) (start : N)
    (declarations : List (Declaration T N)) (grammar : Grammar T N) : Prop where
  sameVocabulary : grammar.vocabulary = vocabulary
  sameStart : grammar.start = start
  /-- The rules are the declared ones in their order. Where none of them was declared accepting, the
  one of the start symbol is made so, and nothing else is changed. -/
  entries : grammar.entries =
    if (Declaration.entries declarations).any Entry.accepting then Declaration.entries declarations
    else (Declaration.entries declarations).map fun entry =>
      { entry with accepting := entry.rule.lhs = start }
  /-- The accepting rule is the one that is marked, and there is no other. -/
  accepting : grammar.entries.findIdxs Entry.accepting = [grammar.accepting]
  acceptingRule : grammar.rule? grammar.accepting = some grammar.acceptingRule
  acceptingRule_lhs : grammar.acceptingRule.lhs = start
  /-- The rules of each nonterminal are the ones that have been kept up for it. -/
  productions : grammar.productions = (Registry.ofDeclarations declarations).1
  /-- Each declared nonterminal is listed once, in the order in which they were declared first. -/
  order : grammar.productions.map Prod.fst = (declarations.map Declaration.lhs).eraseDups
  /-- The numbers of a nonterminal's rules are the places of all rules with that left side. -/
  numbers : ∀ nonterminal ids, (nonterminal, ids) ∈ grammar.productions →
    ids = (Declaration.entries declarations).findIdxs fun entry => entry.rule.lhs = nonterminal

end Grammar

namespace Draft

variable [DecidableEq N] [DecidableEq T] {draft : Draft T N} {grammar : Grammar T N}
  {declarations : List (Declaration T N)}

theorem build_eq_error_iff {error : GrammarError} :
    draft.build = .error error ↔ draft.fault? = some error := by
  unfold build
  split
  · next fault found => simp [found]
  · next found => simp [found]

theorem fault?_of_build (built : draft.build = .ok grammar) : draft.fault? = none := by
  unfold build at built
  split at built
  · cases built
  · assumption

theorem acceptingRule?_of_build (built : draft.build = .ok grammar) :
    draft.acceptingRule? = some grammar.accepting ∧ grammar.defined = draft.defined := by
  unfold build at built
  split at built
  · cases built
  · cases built
    exact ⟨(Option.some_get _).symm, rfl⟩

/-- The marks of a grammar are the declared ones, or the start rule's where there are none. -/
theorem Takes.entries_of_build (takes : draft.Takes declarations)
    (built : draft.build = .ok grammar) :
    grammar.entries =
      if (Declaration.entries declarations).any Entry.accepting then
        Declaration.entries declarations
      else (Declaration.entries declarations).map fun entry =>
        { entry with accepting := entry.rule.lhs = draft.start } := by
  have marked := acceptingRule?_eq_some_iff.mp (acceptingRule?_of_build built).1
  rw [takes.flagged, takes.startRules] at marked
  have sameRules := (build_keeps built).2.2
  -- Both lists have the declared rules, so the marks decide, place by place.
  have byMarks : ∀ mark : Entry T N → Bool,
      (Declaration.entries declarations).findIdxs mark = [grammar.accepting] →
      grammar.entries = (Declaration.entries declarations).map fun entry =>
        { entry with accepting := mark entry } := by
    intro mark alone
    apply List.ext_getElem?
    intro id
    rw [grammar.getElem?_entries, sameRules, takes.rule?, List.getElem?_map, Option.map_map]
    cases found : (Declaration.entries declarations)[id]? with
    | none => rfl
    | some entry =>
        simp only [Option.map_some, Function.comp_apply, decide_eq_of_findIdxs alone found]
  rcases marked with alone | ⟨unmarked, alone⟩
  · have someMarked : (Declaration.entries declarations).any Entry.accepting = true := by
      by_contra noneMarked
      rw [List.findIdxs_eq_nil_iff.mpr (by simpa using noneMarked)] at alone
      cases alone
    rw [if_pos someMarked, byMarks Entry.accepting alone]
    exact List.map_id _
  · have noneMarked : (Declaration.entries declarations).any Entry.accepting ≠ true := by
      simpa using List.findIdxs_eq_nil_iff.mp unmarked
    rw [if_neg noneMarked, byMarks _ alone]

theorem freezes_of_build {vocabulary : Vocabulary T N} {start : N}
    (built : (ofDeclarations vocabulary start declarations).build = .ok grammar) :
    grammar.Freezes vocabulary start declarations := by
  have takes := takes_ofDeclarations vocabulary start declarations
  obtain ⟨draftVocabulary, draftStart, _⟩ := ofDeclarations_keeps vocabulary start declarations
  obtain ⟨sameVocabulary, sameStart, sameRules⟩ := build_keeps built
  have sameDefined := (acceptingRule?_of_build built).2
  have entries := takes.entries_of_build built
  rw [draftStart] at entries
  have kept : grammar.productions = Registry.ofRules (ofDeclarations vocabulary start
      declarations).defined (ofDeclarations vocabulary start declarations).rules.toList := by
    rw [grammar.productions_eq_ofRules, sameDefined, sameRules]
  refine {
    sameVocabulary := sameVocabulary.trans draftVocabulary
    sameStart := sameStart.trans draftStart
    entries := entries
    accepting := grammar.findIdxs_entries
    acceptingRule := Grammar.rule?_eq_some_iff.mpr ⟨grammar.accepting_lt, rfl⟩
    acceptingRule_lhs := grammar.acceptingRule_lhs.trans (sameStart.trans draftStart)
    productions := ?_
    order := ?_
    numbers := ?_ }
  · rw [kept, registry_ofDeclarations vocabulary start declarations]
  · rw [kept, Registry.map_fst_ofRules, takes.defined]
  · intro nonterminal ids member
    rw [kept] at member
    obtain ⟨_, _, made⟩ := List.mem_map.mp member
    obtain ⟨rfl, rfl⟩ := Prod.mk.inj made
    rw [takes.rules, List.findIdxs_map]
    rfl

/-- What becomes of declarations. -/
structure Settles (vocabulary : Vocabulary T N) (start : N)
    (declarations : List (Declaration T N)) : Prop where
  accepts : (∃ grammar, (ofDeclarations vocabulary start declarations).build = .ok grammar) ↔
    Declaration.WellFormed vocabulary start declarations
  freezes : ∀ grammar, (ofDeclarations vocabulary start declarations).build = .ok grammar →
    grammar.Freezes vocabulary start declarations
  blames : ∀ error, (ofDeclarations vocabulary start declarations).build = .error error ↔
    Declaration.Blames vocabulary start declarations error

/-- Well-formed declarations, and no others, make a grammar, and it is the one that they declare.
Of all others the first condition that fails is reported. -/
theorem settles_declarations (vocabulary : Vocabulary T N) (start : N)
    (declarations : List (Declaration T N)) : Settles vocabulary start declarations := by
  have takes := takes_ofDeclarations vocabulary start declarations
  obtain ⟨sameVocabulary, sameStart, _⟩ := ofDeclarations_keeps vocabulary start declarations
  have faultless := takes.fault?_eq_none_iff
  rw [sameVocabulary, sameStart] at faultless
  constructor
  · rw [Declaration.wellFormed_iff, ← faultless]
    constructor
    · rintro ⟨grammar, built⟩
      exact fault?_of_build built
    · exact exists_build
  · intro grammar built
    exact freezes_of_build built
  · intro error
    rw [build_eq_error_iff, takes.fault?_eq_some_iff, sameVocabulary, sameStart]

end Draft

end ShiftReduce
