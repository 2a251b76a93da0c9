import ShiftReduce.Proofs.Draft.Entries

/-!
Contract: which declarations make a grammar, and what is said of the others.

Owns: the five conditions that declarations are checked for and `WellFormed`, all of them together;
`Blames`, the error by which the first condition that fails is reported, with the first place at
which it does; and the agreement of both with the faults of a draft.

Does not own: the grammar that comes about (`ShiftReduce.Proofs.Draft.Building`).
-/

namespace ShiftReduce

variable {T N : Type}

/-! ## The first of its kind -/

/-- The member has the property, and none in front of it does. -/
def IsFirst {α : Type} (property : α → Prop) (members : List α) (member : α) : Prop :=
  ∃ before behind, members = before ++ member :: behind ∧ property member ∧
    ∀ other ∈ before, ¬property other

theorem find?_eq_some_iff_isFirst {α : Type} {property : α → Prop} [DecidablePred property]
    {members : List α} {member : α} :
    members.find? (fun member => decide (property member)) = some member ↔
      IsFirst property members member := by
  rw [List.find?_eq_some_iff_append]
  constructor
  · rintro ⟨holds, before, behind, split, fails⟩
    refine ⟨before, behind, split, of_decide_eq_true holds, ?_⟩
    intro other isBefore
    simpa using fails other isBefore
  · rintro ⟨before, behind, split, holds, fails⟩
    refine ⟨decide_eq_true holds, before, behind, split, ?_⟩
    intro other isBefore
    simpa using fails other isBefore

namespace Declaration

/-- The symbols on right sides, each with the number of its rule, rule by rule from left to
right. -/
def occurrences (declarations : List (Declaration T N)) : List (RuleId × Symbol T N) :=
  (entries declarations).zipIdx.flatMap fun (entry, id) => entry.rule.rhs.map fun symbol =>
    (id, symbol)

/-- Every symbol that a table would have a cell for, or that a rule is written with. -/
def mentioned (vocabulary : Vocabulary T N) (start : N) (declarations : List (Declaration T N)) :
    List (Symbol T N) :=
  vocabulary.terminals.all.map .terminal ++ vocabulary.nonterminals.all.map .nonterminal ++
    [.terminal vocabulary.endMarker, .nonterminal start] ++
    (entries declarations).flatMap fun entry => .nonterminal entry.rule.lhs :: entry.rule.rhs

variable [DecidableEq N]

/-- The rules that were declared accepting. -/
def accepted (declarations : List (Declaration T N)) : List (Entry T N) :=
  (entries declarations).filter Entry.accepting

/-- The rules of the start symbol. -/
def starting (start : N) (declarations : List (Declaration T N)) : List (Entry T N) :=
  (entries declarations).filter fun entry => entry.rule.lhs = start

/-! ## Conditions -/

/-- Why a symbol may not stand on the right side of the rule with the number. -/
inductive Misplaced (vocabulary : Vocabulary T N) (start : N)
    (declarations : List (Declaration T N)) (id : RuleId) : Symbol T N → GrammarError → Prop where
  | endMarker : Misplaced vocabulary start declarations id (.terminal vocabulary.endMarker)
      (.endInRule id)
  | start : Misplaced vocabulary start declarations id (.nonterminal start)
      (.recursiveStart id (vocabulary.nonterminals.name start))
  | undefined {nonterminal : N} (notStart : nonterminal ≠ start)
      (undeclared : nonterminal ∉ declarations.map lhs) :
      Misplaced vocabulary start declarations id (.nonterminal nonterminal)
        (.undefinedNonterminal id (vocabulary.nonterminals.name nonterminal))

variable (vocabulary : Vocabulary T N) (start : N) (declarations : List (Declaration T N))

/-- Each mentioned symbol has a cell of its own. -/
def Listed : Prop := ∀ symbol ∈ mentioned vocabulary start declarations, vocabulary.Lists symbol

/-- The start symbol has a rule. -/
def Started : Prop := ∃ entry ∈ entries declarations, entry.rule.lhs = start

/-- Each symbol may stand where it does. -/
def Placed : Prop :=
  ∀ place ∈ occurrences declarations, ∀ error,
    ¬Misplaced vocabulary start declarations place.1 place.2 error

/-- What was declared accepting is a rule of the start symbol. -/
def Inside : Prop :=
  ∀ entry ∈ entries declarations, entry.accepting = true → entry.rule.lhs = start

/-- One rule was declared accepting, or none was and the start symbol has but one. -/
def Single : Prop :=
  (∃ only, accepted declarations = [only]) ∨
    accepted declarations = [] ∧ ∃ only, starting start declarations = [only]

/-- What declarations have to be like to make a grammar. -/
structure WellFormed : Prop where
  terminals : ∀ terminal ∈ vocabulary.terminals.all, vocabulary.terminals.Lists terminal
  nonterminals : ∀ nonterminal ∈ vocabulary.nonterminals.all,
    vocabulary.nonterminals.Lists nonterminal
  endMarker : vocabulary.terminals.Lists vocabulary.endMarker
  startSymbol : vocabulary.nonterminals.Lists start
  leftSides : ∀ entry ∈ entries declarations, vocabulary.nonterminals.Lists entry.rule.lhs
  rightSides : ∀ entry ∈ entries declarations, ∀ symbol ∈ entry.rule.rhs, vocabulary.Lists symbol
  started : ∃ entry ∈ entries declarations, entry.rule.lhs = start
  endMarker_unused : ∀ entry ∈ entries declarations,
    .terminal vocabulary.endMarker ∉ entry.rule.rhs
  start_unused : ∀ entry ∈ entries declarations, .nonterminal start ∉ entry.rule.rhs
  /-- Each nonterminal of a right side was declared, be it before the rule or behind it. -/
  declared : ∀ entry ∈ entries declarations, ∀ nonterminal,
    .nonterminal nonterminal ∈ entry.rule.rhs → nonterminal ∈ declarations.map lhs
  accepting : (∃ only, accepted declarations = [only] ∧ only.rule.lhs = start) ∨
    accepted declarations = [] ∧ ∃ only, starting start declarations = [only]

/-- The error by which the first condition that fails is reported. -/
inductive Blames : GrammarError → Prop where
  | inconsistentIndex {symbol : Symbol T N}
      (first : IsFirst (fun symbol => ¬vocabulary.Lists symbol)
        (mentioned vocabulary start declarations) symbol) :
      Blames (.inconsistentIndex (vocabulary.name symbol) (vocabulary.index symbol)
        (vocabulary.cells symbol))
  | missingStartRule (listed : Listed vocabulary start declarations)
      (missing : ¬Started start declarations) :
      Blames (.missingStartRule (vocabulary.nonterminals.name start))
  | misplaced {id : RuleId} {symbol : Symbol T N} {error : GrammarError}
      (listed : Listed vocabulary start declarations) (started : Started start declarations)
      (first : IsFirst
        (fun place => ∃ error, Misplaced vocabulary start declarations place.1 place.2 error)
        (occurrences declarations) (id, symbol))
      (reason : Misplaced vocabulary start declarations id symbol error) : Blames error
  | acceptingOutsideStart {id : RuleId} (listed : Listed vocabulary start declarations)
      (started : Started start declarations) (placed : Placed vocabulary start declarations)
      (first : IsFirst
        (fun id => ((entries declarations)[id]?).map (fun entry => entry.rule.lhs) ≠ some start)
        ((entries declarations).findIdxs Entry.accepting) id) :
      Blames (.acceptingOutsideStart id (vocabulary.nonterminals.name start))
  | ambiguousStart (listed : Listed vocabulary start declarations)
      (started : Started start declarations) (placed : Placed vocabulary start declarations)
      (inside : Inside start declarations) (several : ¬Single start declarations) :
      Blames (.ambiguousStart (vocabulary.nonterminals.name start)
        (accepted declarations).length)

end Declaration

namespace Draft

open Declaration

variable [DecidableEq N] [DecidableEq T] {draft : Draft T N}
  {declarations : List (Declaration T N)}

/-! ## Checks -/

omit [DecidableEq T] in
theorem Takes.mentioned (takes : draft.Takes declarations) :
    draft.mentioned = Declaration.mentioned draft.vocabulary draft.start declarations := by
  rw [Draft.mentioned, Declaration.mentioned, takes.rules, List.flatMap_map]

theorem Takes.indexFault?_eq_none_iff (takes : draft.Takes declarations) :
    draft.indexFault? = none ↔ Listed draft.vocabulary draft.start declarations := by
  rw [indexFault?, Option.map_eq_none_iff, takes.mentioned, List.find?_eq_none]
  simp [Listed]

theorem Takes.indexFault?_eq_some_iff (takes : draft.Takes declarations) {error : GrammarError} :
    draft.indexFault? = some error ↔ ∃ symbol,
      IsFirst (fun symbol => ¬draft.vocabulary.Lists symbol)
        (Declaration.mentioned draft.vocabulary draft.start declarations) symbol ∧
      .inconsistentIndex (draft.vocabulary.name symbol) (draft.vocabulary.index symbol)
        (draft.vocabulary.cells symbol) = error := by
  rw [indexFault?, Option.map_eq_some_iff, takes.mentioned]
  simp only [find?_eq_some_iff_isFirst]

omit [DecidableEq T] in
theorem Takes.startRules_eq_nil_iff (takes : draft.Takes declarations) :
    draft.startRules = [] ↔ ¬Started draft.start declarations := by
  rw [takes.startRules, List.findIdxs_eq_nil_iff]
  simp [Started]

omit [DecidableEq T] in
theorem Takes.startFault?_eq_none_iff (takes : draft.Takes declarations) :
    draft.startFault? = none ↔ Started draft.start declarations := by
  rw [← not_iff_not, ← takes.startRules_eq_nil_iff]
  simp [startFault?]

omit [DecidableEq T] in
theorem Takes.startFault?_eq_some_iff (takes : draft.Takes declarations) {error : GrammarError} :
    draft.startFault? = some error ↔
      ¬Started draft.start declarations ∧ .missingStartRule draft.startName = error := by
  rw [← takes.startRules_eq_nil_iff]
  simp [startFault?]

theorem Takes.symbolFault?_eq_some_iff (takes : draft.Takes declarations) {id : RuleId}
    {symbol : Symbol T N} {error : GrammarError} :
    draft.symbolFault? id symbol = some error ↔
      Misplaced draft.vocabulary draft.start declarations id symbol error := by
  have defined : ∀ nonterminal, nonterminal ∈ draft.defined ↔
      nonterminal ∈ declarations.map lhs := by
    intro nonterminal
    rw [takes.defined, List.mem_eraseDups]
  constructor
  · intro fault
    cases symbol with
    | terminal terminal =>
        simp only [symbolFault?] at fault
        split at fault
        · next isEnd =>
            cases fault
            rw [isEnd]
            exact .endMarker
        · cases fault
    | nonterminal nonterminal =>
        simp only [symbolFault?] at fault
        split at fault
        · next isStart =>
            cases fault
            rw [isStart]
            exact .start
        · next notStart =>
            split at fault
            · cases fault
            · next unknown =>
                cases fault
                exact .undefined notStart (mt (defined nonterminal).mpr unknown)
  · intro misplaced
    cases misplaced with
    | endMarker => simp [symbolFault?]
    | start => simp [symbolFault?, startName]
    | undefined notStart undeclared =>
        simp only [symbolFault?, if_neg notStart, if_neg (mt (defined _).mp undeclared)]

theorem Takes.symbolFault?_eq_none_iff (takes : draft.Takes declarations) {id : RuleId}
    {symbol : Symbol T N} :
    draft.symbolFault? id symbol = none ↔
      ∀ error, ¬Misplaced draft.vocabulary draft.start declarations id symbol error := by
  simp only [Option.eq_none_iff_forall_ne_some, ne_eq, takes.symbolFault?_eq_some_iff]

private theorem findSome?_flatMap {α β γ : Type} (members : List α) (under : α → List β)
    (test : β → Option γ) :
    (members.flatMap under).findSome? test =
      members.findSome? fun member => (under member).findSome? test := by
  induction members with
  | nil => rfl
  | cons head tail inductionHypothesis =>
      rw [List.flatMap_cons, List.findSome?_append, List.findSome?_cons, inductionHypothesis]
      cases (under head).findSome? test with
      | none => rfl
      | some found => rfl

theorem Takes.rhsFault? (takes : draft.Takes declarations) :
    draft.rhsFault? =
      (occurrences declarations).findSome? fun place => draft.symbolFault? place.1 place.2 := by
  rw [Draft.rhsFault?, takes.rules, List.zipIdx_map, List.findSome?_map, occurrences,
    findSome?_flatMap]
  apply congrArg (fun test => List.findSome? test (entries declarations).zipIdx)
  funext place
  rw [List.findSome?_map]
  rfl

theorem Takes.rhsFault?_eq_none_iff (takes : draft.Takes declarations) :
    draft.rhsFault? = none ↔ Placed draft.vocabulary draft.start declarations := by
  rw [takes.rhsFault?, List.findSome?_eq_none_iff]
  simp only [takes.symbolFault?_eq_none_iff]
  rfl

theorem Takes.rhsFault?_eq_some_iff (takes : draft.Takes declarations) {error : GrammarError} :
    draft.rhsFault? = some error ↔ ∃ place,
      IsFirst (fun place => ∃ error,
        Misplaced draft.vocabulary draft.start declarations place.1 place.2 error)
        (occurrences declarations) place ∧
      Misplaced draft.vocabulary draft.start declarations place.1 place.2 error := by
  rw [takes.rhsFault?, List.findSome?_eq_some_iff]
  simp only [takes.symbolFault?_eq_some_iff, takes.symbolFault?_eq_none_iff]
  constructor
  · rintro ⟨before, place, behind, split, misplaced, innocent⟩
    refine ⟨place, ⟨before, behind, split, ⟨error, misplaced⟩, ?_⟩, misplaced⟩
    rintro other isBefore ⟨otherError, otherMisplaced⟩
    exact innocent other isBefore otherError otherMisplaced
  · rintro ⟨place, ⟨before, behind, split, _, innocent⟩, misplaced⟩
    refine ⟨before, place, behind, split, misplaced, ?_⟩
    intro other isBefore otherError otherMisplaced
    exact innocent other isBefore ⟨otherError, otherMisplaced⟩

omit [DecidableEq T] in
theorem Takes.lhs? (takes : draft.Takes declarations) (id : RuleId) :
    (draft.rules[id]?).map Rule.lhs =
      ((entries declarations)[id]?).map fun entry => entry.rule.lhs := by
  rw [takes.rule?, Option.map_map]
  rfl

omit [DecidableEq T] in
theorem Takes.outsideFault?_eq_none_iff (takes : draft.Takes declarations) :
    draft.outsideFault? = none ↔ Inside draft.start declarations := by
  rw [outsideFault?, Option.map_eq_none_iff, List.find?_eq_none, takes.flagged]
  simp only [takes.lhs?, List.mem_findIdxs_iff_exists_getElem_pos]
  constructor
  · intro inside entry member accepting
    obtain ⟨id, bound, rfl⟩ := List.mem_iff_getElem.mp member
    simpa [bound] using inside id ⟨bound, accepting⟩
  · rintro inside id ⟨bound, accepting⟩
    simpa [bound] using inside _ (List.getElem_mem bound) accepting

omit [DecidableEq T] in
theorem Takes.outsideFault?_eq_some_iff (takes : draft.Takes declarations)
    {error : GrammarError} :
    draft.outsideFault? = some error ↔ ∃ id,
      IsFirst
        (fun id => ((entries declarations)[id]?).map (fun entry => entry.rule.lhs) ≠
          some draft.start)
        ((entries declarations).findIdxs Entry.accepting) id ∧
      .acceptingOutsideStart id draft.startName = error := by
  rw [outsideFault?, Option.map_eq_some_iff, takes.flagged]
  simp only [takes.lhs?, find?_eq_some_iff_isFirst]

/-! ## The accepting rule -/

/-- Places and members of one kind are equally many. -/
private theorem length_findIdxs_eq {α : Type} (test : α → Bool) (members : List α) :
    (members.findIdxs test).length = (members.filter test).length := by
  rw [List.length_findIdxs, List.countP_eq_length_filter]

private theorem exists_findIdxs_eq_singleton {α : Type} {test : α → Bool} {members : List α} :
    (∃ index, members.findIdxs test = [index]) ↔ ∃ only, members.filter test = [only] := by
  rw [← List.length_eq_one_iff, ← List.length_eq_one_iff, length_findIdxs_eq]

private theorem findIdxs_eq_nil {α : Type} {test : α → Bool} {members : List α} :
    members.findIdxs test = [] ↔ members.filter test = [] := by
  rw [← List.length_eq_zero_iff, ← List.length_eq_zero_iff, length_findIdxs_eq]

omit [DecidableEq T] in
theorem acceptingRule?_eq_some_iff {id : RuleId} :
    draft.acceptingRule? = some id ↔
      draft.flagged = [id] ∨ draft.flagged = [] ∧ draft.startRules = [id] := by
  rw [acceptingRule?]
  split
  · next only flagged => simp [flagged]
  · next only flagged rules => simp [flagged, rules]
  · next notOne notNone =>
      simp only [reduceCtorEq, false_iff]
      rintro (flagged | ⟨flagged, rules⟩)
      · exact notOne _ flagged
      · exact notNone _ flagged rules

omit [DecidableEq T] in
theorem Takes.exists_acceptingRule? (takes : draft.Takes declarations) :
    (∃ id, draft.acceptingRule? = some id) ↔ Single draft.start declarations := by
  simp only [acceptingRule?_eq_some_iff, takes.flagged, takes.startRules, exists_or,
    exists_and_left, exists_findIdxs_eq_singleton, findIdxs_eq_nil]
  rfl

omit [DecidableEq T] in
theorem Takes.ambiguityFault?_eq_none_iff (takes : draft.Takes declarations) :
    draft.ambiguityFault? = none ↔ Single draft.start declarations := by
  rw [← takes.exists_acceptingRule?, ambiguityFault?]
  cases draft.acceptingRule? with
  | none => simp
  | some id => simp

omit [DecidableEq T] in
theorem Takes.ambiguityFault?_eq_some_iff (takes : draft.Takes declarations)
    {error : GrammarError} :
    draft.ambiguityFault? = some error ↔ ¬Single draft.start declarations ∧
      .ambiguousStart draft.startName (accepted declarations).length = error := by
  have count : draft.flagged.length = (accepted declarations).length := by
    rw [takes.flagged, length_findIdxs_eq]
    rfl
  rw [← takes.exists_acceptingRule?, ambiguityFault?, count]
  cases draft.acceptingRule? with
  | none => simp
  | some id => simp

/-! ## All checks -/

theorem Takes.fault?_eq_none_iff (takes : draft.Takes declarations) :
    draft.fault? = none ↔
      Listed draft.vocabulary draft.start declarations ∧ Started draft.start declarations ∧
        Placed draft.vocabulary draft.start declarations ∧ Inside draft.start declarations ∧
        Single draft.start declarations := by
  simp only [fault?, Option.or_eq_none_iff, takes.indexFault?_eq_none_iff,
    takes.startFault?_eq_none_iff, takes.rhsFault?_eq_none_iff, takes.outsideFault?_eq_none_iff,
    takes.ambiguityFault?_eq_none_iff]

/-- The checks are made one after the other, and the first that fails is reported. -/
theorem Takes.fault?_eq_some_iff (takes : draft.Takes declarations) {error : GrammarError} :
    draft.fault? = some error ↔ Blames draft.vocabulary draft.start declarations error := by
  simp only [fault?, Option.or_eq_some_iff, takes.indexFault?_eq_none_iff,
    takes.startFault?_eq_none_iff, takes.rhsFault?_eq_none_iff, takes.outsideFault?_eq_none_iff,
    takes.indexFault?_eq_some_iff, takes.startFault?_eq_some_iff, takes.rhsFault?_eq_some_iff,
    takes.outsideFault?_eq_some_iff, takes.ambiguityFault?_eq_some_iff]
  constructor
  · rintro (⟨symbol, first, rfl⟩ | ⟨listed, ⟨missing, rfl⟩ | ⟨started,
      ⟨⟨id, symbol⟩, first, reason⟩ | ⟨placed, ⟨id, first, rfl⟩ | ⟨inside, several, rfl⟩⟩⟩⟩)
    · exact .inconsistentIndex first
    · exact .missingStartRule listed missing
    · exact .misplaced listed started first reason
    · exact .acceptingOutsideStart listed started placed first
    · exact .ambiguousStart listed started placed inside several
  · intro blames
    cases blames with
    | inconsistentIndex first => exact .inl ⟨_, first, rfl⟩
    | missingStartRule listed missing => exact .inr ⟨listed, .inl ⟨missing, rfl⟩⟩
    | misplaced listed started first reason =>
        exact .inr ⟨listed, .inr ⟨started, .inl ⟨_, first, reason⟩⟩⟩
    | acceptingOutsideStart listed started placed first =>
        exact .inr ⟨listed, .inr ⟨started, .inr ⟨placed, .inl ⟨_, first, rfl⟩⟩⟩⟩
    | ambiguousStart listed started placed inside several =>
        exact .inr ⟨listed, .inr ⟨started, .inr ⟨placed, .inr ⟨inside, several, rfl⟩⟩⟩⟩

end Draft

namespace Declaration

variable {vocabulary : Vocabulary T N} {start : N} {declarations : List (Declaration T N)}

/-! ## Conditions together -/

theorem listed_iff :
    Listed vocabulary start declarations ↔
      (∀ terminal ∈ vocabulary.terminals.all, vocabulary.terminals.Lists terminal) ∧
      (∀ nonterminal ∈ vocabulary.nonterminals.all, vocabulary.nonterminals.Lists nonterminal) ∧
      vocabulary.terminals.Lists vocabulary.endMarker ∧ vocabulary.nonterminals.Lists start ∧
      ∀ entry ∈ entries declarations, vocabulary.nonterminals.Lists entry.rule.lhs ∧
        ∀ symbol ∈ entry.rule.rhs, vocabulary.Lists symbol := by
  simp only [Listed, mentioned, List.forall_mem_append, List.forall_mem_map, List.forall_mem_cons,
    List.forall_mem_flatMap, List.not_mem_nil, IsEmpty.forall_iff, implies_true, true_and,
    and_assoc]
  rfl

theorem mem_occurrences {id : RuleId} {symbol : Symbol T N} :
    (id, symbol) ∈ occurrences declarations ↔
      ∃ entry, (entries declarations)[id]? = some entry ∧ symbol ∈ entry.rule.rhs := by
  simp [occurrences, List.mk_mem_zipIdx_iff_getElem?]

theorem mem_accepted {entry : Entry T N} :
    entry ∈ accepted declarations ↔ entry ∈ entries declarations ∧ entry.accepting = true :=
  List.mem_filter

variable [DecidableEq N]

theorem placed_iff :
    Placed vocabulary start declarations ↔ ∀ entry ∈ entries declarations,
      .terminal vocabulary.endMarker ∉ entry.rule.rhs ∧ .nonterminal start ∉ entry.rule.rhs ∧
      ∀ nonterminal, .nonterminal nonterminal ∈ entry.rule.rhs →
        nonterminal ∈ declarations.map lhs := by
  constructor
  · intro placed entry member
    obtain ⟨id, found⟩ := List.mem_iff_getElem?.mp member
    have innocent : ∀ symbol ∈ entry.rule.rhs, ∀ error,
        ¬Misplaced vocabulary start declarations id symbol error :=
      fun symbol occurs => placed (id, symbol) (mem_occurrences.mpr ⟨entry, found, occurs⟩)
    refine ⟨fun occurs => innocent _ occurs _ .endMarker,
      fun occurs => innocent _ occurs _ .start, ?_⟩
    intro nonterminal occurs
    by_contra undeclared
    have notStart : nonterminal ≠ start := by
      rintro rfl
      exact innocent _ occurs _ .start
    exact innocent _ occurs _ (.undefined notStart undeclared)
  · rintro clean ⟨id, symbol⟩ occurs error misplaced
    obtain ⟨entry, found, inRule⟩ := mem_occurrences.mp occurs
    obtain ⟨noEnd, noStart, declared⟩ := clean entry (List.mem_of_getElem? found)
    cases misplaced with
    | endMarker => exact noEnd inRule
    | start => exact noStart inRule
    | undefined _ undeclared => exact undeclared (declared _ inRule)

/-- One rule of the start symbol is singled out, by its declaration or by being alone. -/
theorem inside_and_single_iff :
    Inside start declarations ∧ Single start declarations ↔
      (∃ only, accepted declarations = [only] ∧ only.rule.lhs = start) ∨
        accepted declarations = [] ∧ ∃ only, starting start declarations = [only] := by
  constructor
  · rintro ⟨inside, ⟨only, alone⟩ | unmarked⟩
    · obtain ⟨member, accepting⟩ := mem_accepted.mp (alone ▸ List.mem_cons_self)
      exact .inl ⟨only, alone, inside only member accepting⟩
    · exact .inr unmarked
  · rintro (⟨only, alone, lhs⟩ | ⟨none, only, alone⟩)
    · refine ⟨?_, .inl ⟨only, alone⟩⟩
      intro entry member accepting
      have isOnly := mem_accepted.mpr ⟨member, accepting⟩
      rw [alone] at isOnly
      rwa [List.mem_singleton.mp isOnly]
    · refine ⟨?_, .inr ⟨none, only, alone⟩⟩
      intro entry member accepting
      have impossible := mem_accepted.mpr ⟨member, accepting⟩
      rw [none] at impossible
      cases impossible

theorem wellFormed_iff :
    WellFormed vocabulary start declarations ↔
      Listed vocabulary start declarations ∧ Started start declarations ∧
        Placed vocabulary start declarations ∧ Inside start declarations ∧
        Single start declarations := by
  rw [listed_iff, placed_iff, inside_and_single_iff]
  constructor
  · intro wellFormed
    exact ⟨⟨wellFormed.terminals, wellFormed.nonterminals, wellFormed.endMarker,
        wellFormed.startSymbol, fun entry member =>
          ⟨wellFormed.leftSides entry member, wellFormed.rightSides entry member⟩⟩,
      wellFormed.started,
      fun entry member => ⟨wellFormed.endMarker_unused entry member,
        wellFormed.start_unused entry member, wellFormed.declared entry member⟩,
      wellFormed.accepting⟩
  · rintro ⟨⟨terminals, nonterminals, endMarker, startSymbol, sides⟩, started, clean, accepting⟩
    exact {
      terminals, nonterminals, endMarker, startSymbol, started, accepting
      leftSides := fun entry member => (sides entry member).1
      rightSides := fun entry member => (sides entry member).2
      endMarker_unused := fun entry member => (clean entry member).1
      start_unused := fun entry member => (clean entry member).2.1
      declared := fun entry member => (clean entry member).2.2 }

end Declaration

end ShiftReduce
