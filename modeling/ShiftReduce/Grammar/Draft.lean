import ShiftReduce.Grammar.Error

/-!
Contract: drafts, and which of them are grammars.

Owns: `Declaration` and `Draft`, the declarations made so far; the faults a draft can have, in the
order in which they are looked for; and `Draft.build`, which turns a draft without fault into a
grammar and reports the first fault of any other.

Declaring never fails. Every condition is checked when the draft is built.
-/

namespace ShiftReduce

/-- One step in the writing of a grammar. -/
inductive Declaration (T N : Type) where
  /-- Declares a nonterminal without giving it a rule. -/
  | define (nonterminal : N)
  /-- Declares a rule and, if need be, its left side. -/
  | rule (lhs : N) (rhs : List (Symbol T N))
  /-- Declares a rule and marks it as the accepting one. -/
  | accepting (lhs : N) (rhs : List (Symbol T N))
deriving DecidableEq, Repr

/-- A grammar in the making. -/
structure Draft (T N : Type) where
  vocabulary : Vocabulary T N
  start : N
  /-- The rules in the order of declaration. -/
  rules : Array (Rule T N) := #[]
  /-- The numbers of the rules that were declared accepting. -/
  flagged : List RuleId := []
  /-- The nonterminals in the order of their first declaration. -/
  defined : List N := []
  lhs_defined : ∀ rule ∈ rules, rule.lhs ∈ defined := by simp
  defined_nodup : defined.Nodup := by simp

namespace Draft

variable {T N : Type} [DecidableEq N]

/-! ## Declaring -/

/-- Declares a nonterminal; a second declaration changes nothing. -/
def define (draft : Draft T N) (nonterminal : N) : Draft T N :=
  if known : nonterminal ∈ draft.defined then draft
  else { draft with
    defined := draft.defined ++ [nonterminal]
    lhs_defined := fun rule member => List.mem_append_left _ (draft.lhs_defined rule member)
    defined_nodup := List.nodup_append.mpr ⟨draft.defined_nodup, by simp, by
      intro old oldMember new newMember equal
      rw [List.mem_singleton] at newMember
      exact known (newMember ▸ equal ▸ oldMember)⟩ }

theorem mem_defined_define (draft : Draft T N) (nonterminal : N) :
    nonterminal ∈ (draft.define nonterminal).defined := by
  unfold define
  split
  · assumption
  · simp

/-- The number that the next rule gets. -/
def nextId (draft : Draft T N) : RuleId := draft.rules.size

/-- Declares a rule. -/
def addRule (draft : Draft T N) (lhs : N) (rhs : List (Symbol T N)) : Draft T N :=
  { draft.define lhs with
    rules := (draft.define lhs).rules.push ⟨lhs, rhs⟩
    lhs_defined := by
      intro rule member
      rcases Array.mem_push.mp member with old | rfl
      · exact (draft.define lhs).lhs_defined rule old
      · exact mem_defined_define draft lhs }

/-- Marks a rule as accepting. -/
def flag (draft : Draft T N) (id : RuleId) : Draft T N :=
  { draft with flagged := draft.flagged ++ [id] }

/-- The draft after one more declaration. -/
def declare (draft : Draft T N) : Declaration T N → Draft T N
  | .define nonterminal => draft.define nonterminal
  | .rule lhs rhs => draft.addRule lhs rhs
  | .accepting lhs rhs => (draft.addRule lhs rhs).flag draft.nextId

/-- The draft that a list of declarations makes. -/
def ofDeclarations (vocabulary : Vocabulary T N) (start : N)
    (declarations : List (Declaration T N)) : Draft T N :=
  declarations.foldl declare { vocabulary := vocabulary, start := start }

/-! ## Faults -/

variable [DecidableEq T]

/-- The number of each rule of the start symbol, ascending. -/
def startRules (draft : Draft T N) : List RuleId :=
  (List.range draft.rules.size).filter fun id =>
    (draft.rules[id]?).map Rule.lhs = some draft.start

def startName (draft : Draft T N) : String := draft.vocabulary.nonterminals.name draft.start

/-- Every symbol that a table of the draft would have a cell for. -/
def mentioned (draft : Draft T N) : List (Symbol T N) :=
  draft.vocabulary.terminals.all.map .terminal ++
    draft.vocabulary.nonterminals.all.map .nonterminal ++
    [.terminal draft.vocabulary.endMarker, .nonterminal draft.start] ++
    draft.rules.toList.flatMap fun rule => .nonterminal rule.lhs :: rule.rhs

/-- The first mentioned symbol that its cell does not lead back to. -/
def indexFault? (draft : Draft T N) : Option GrammarError :=
  (draft.mentioned.find? fun symbol => ¬draft.vocabulary.Lists symbol).map fun symbol =>
    .inconsistentIndex (draft.vocabulary.name symbol) (draft.vocabulary.index symbol)
      (draft.vocabulary.cells symbol)

def startFault? (draft : Draft T N) : Option GrammarError :=
  if draft.startRules.isEmpty then some (.missingStartRule draft.startName) else none

/-- Why a symbol may not stand on the right side of a rule. -/
def symbolFault? (draft : Draft T N) (id : RuleId) : Symbol T N → Option GrammarError
  | .terminal terminal =>
      if terminal = draft.vocabulary.endMarker then some (.endInRule id) else none
  | .nonterminal nonterminal =>
      if nonterminal = draft.start then some (.recursiveStart id draft.startName)
      else if nonterminal ∈ draft.defined then none
      else some (.undefinedNonterminal id (draft.vocabulary.nonterminals.name nonterminal))

/-- The first symbol that may not stand where it does, rule by rule from left to right. -/
def rhsFault? (draft : Draft T N) : Option GrammarError :=
  draft.rules.toList.zipIdx.findSome? fun (rule, id) => rule.rhs.findSome? (draft.symbolFault? id)

/-- The first rule declared accepting that is no rule of the start symbol. -/
def outsideFault? (draft : Draft T N) : Option GrammarError :=
  (draft.flagged.find? fun id => (draft.rules[id]?).map Rule.lhs ≠ some draft.start).map fun id =>
    .acceptingOutsideStart id draft.startName

/-- The rule declared accepting, or the only start rule where none was. -/
def acceptingRule? (draft : Draft T N) : Option RuleId :=
  match draft.flagged, draft.startRules with
  | [only], _ => some only
  | [], [only] => some only
  | _, _ => none

def ambiguityFault? (draft : Draft T N) : Option GrammarError :=
  match draft.acceptingRule? with
  | some _ => none
  | none => some (.ambiguousStart draft.startName draft.flagged.length)

/-- The first fault of the draft, if it has one. -/
def fault? (draft : Draft T N) : Option GrammarError :=
  draft.indexFault?.or <| draft.startFault?.or <| draft.rhsFault?.or <|
    draft.outsideFault?.or draft.ambiguityFault?

/-! ## What the absence of faults means -/

private theorem faultless {draft : Draft T N} (none : draft.fault? = .none) :
    draft.indexFault? = .none ∧ draft.startFault? = .none ∧ draft.rhsFault? = .none ∧
      draft.outsideFault? = .none ∧ draft.ambiguityFault? = .none := by
  simpa [fault?, Option.or_eq_none_iff] using none

theorem listed_of_mentioned {draft : Draft T N} (none : draft.indexFault? = .none)
    {symbol : Symbol T N} (mentioned : symbol ∈ draft.mentioned) :
    draft.vocabulary.Lists symbol := by
  rw [indexFault?, Option.map_eq_none_iff, List.find?_eq_none] at none
  simpa using none symbol mentioned

theorem symbolFault?_eq_none {draft : Draft T N} (none : draft.rhsFault? = .none)
    {rule : Rule T N} (member : rule ∈ draft.rules) {symbol : Symbol T N}
    (occurs : symbol ∈ rule.rhs) : ∃ id, draft.symbolFault? id symbol = .none := by
  obtain ⟨id, bound, equal⟩ := Array.mem_iff_getElem.mp member
  refine ⟨id, ?_⟩
  rw [rhsFault?, List.findSome?_eq_none_iff] at none
  refine List.findSome?_eq_none_iff.mp (none (rule, id) ?_) symbol occurs
  rw [List.mk_mem_zipIdx_iff_getElem?]
  simp [← equal, bound]

theorem mem_defined_of_symbolFault? {draft : Draft T N} {id : RuleId} {nonterminal : N}
    (none : draft.symbolFault? id (.nonterminal nonterminal) = .none) :
    nonterminal ∈ draft.defined := by
  simp only [symbolFault?] at none
  split at none
  · cases none
  · split at none
    · assumption
    · cases none

omit [DecidableEq T] in
theorem acceptingRule?_lhs {draft : Draft T N} (noneOutside : draft.outsideFault? = none)
    {id : RuleId} (accepting : draft.acceptingRule? = some id) :
    (draft.rules[id]?).map Rule.lhs = some draft.start := by
  rw [outsideFault?, Option.map_eq_none_iff, List.find?_eq_none] at noneOutside
  have startRule : ∀ id ∈ draft.startRules,
      (draft.rules[id]?).map Rule.lhs = some draft.start := fun id member => by
    simpa [startRules] using (List.mem_filter.mp member).2
  unfold acceptingRule? at accepting
  split at accepting
  next only flagged =>
    cases accepting
    simpa using noneOutside id (by simp [flagged])
  next only flagged rules =>
    cases accepting
    exact startRule id (by simp [rules])
  next => cases accepting

/-! ## Building -/

/-- The grammar that the draft describes, or the first fault it has. -/
def build (draft : Draft T N) : Except GrammarError (Grammar T N) :=
  match found : draft.fault? with
  | some fault => .error fault
  | none =>
      have checks := faultless found
      have listed : ∀ symbol ∈ draft.mentioned, draft.vocabulary.Lists symbol :=
        fun _ => listed_of_mentioned checks.1
      have singled : draft.acceptingRule?.isSome := by
        have unambiguous := checks.2.2.2.2
        unfold ambiguityFault? at unambiguous
        split at unambiguous
        next known => rw [known]; rfl
        next => cases unambiguous
      .ok {
        vocabulary := draft.vocabulary
        start := draft.start
        rules := draft.rules
        accepting := draft.acceptingRule?.get singled
        defined := draft.defined
        terminals_listed := fun terminal member =>
          listed (.terminal terminal) (by simp [mentioned, member])
        nonterminals_listed := fun nonterminal member =>
          listed (.nonterminal nonterminal) (by simp [mentioned, member])
        endMarker_listed := listed (.terminal draft.vocabulary.endMarker) (by simp [mentioned])
        start_listed := listed (.nonterminal draft.start) (by simp [mentioned])
        lhs_listed := fun rule member => listed (.nonterminal rule.lhs) (by
          refine List.mem_append_right _ (List.mem_flatMap.mpr ⟨rule, by simpa using member, ?_⟩)
          simp)
        rhs_listed := fun rule member symbol occurs => listed symbol (by
          refine List.mem_append_right _ (List.mem_flatMap.mpr ⟨rule, by simpa using member, ?_⟩)
          simp [occurs])
        accepting_start := acceptingRule?_lhs checks.2.2.2.1 (Option.some_get singled).symm
        endMarker_unused := fun rule member occurs => by
          obtain ⟨_, fault⟩ := symbolFault?_eq_none checks.2.2.1 member occurs
          simp [symbolFault?] at fault
        start_unused := fun rule member occurs => by
          obtain ⟨_, fault⟩ := symbolFault?_eq_none checks.2.2.1 member occurs
          simp [symbolFault?] at fault
        lhs_defined := draft.lhs_defined
        rhs_defined := fun rule member nonterminal occurs => by
          obtain ⟨_, fault⟩ := symbolFault?_eq_none checks.2.2.1 member occurs
          exact mem_defined_of_symbolFault? fault
        defined_nodup := draft.defined_nodup }

end Draft

end ShiftReduce
