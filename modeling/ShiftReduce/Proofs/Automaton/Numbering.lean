import Mathlib.Data.List.Shortlex
import ShiftReduce.Proofs.Automaton.Chains

/-!
Contract: states are numbered by the strings that lead to them.

Owns: `Before`, by which a string comes before the longer ones and, among those of its length,
before the ones behind it in the dictionary; the transition by which a state is discovered; the
string that comes before all others that lead to a state or to one behind it; and `IsCanonical`, all
that tells states apart and fixes their numbers.

A scan meets the transitions ordered by the state that they leave and then by symbol. So the first
that enters a state leaves the first state from which it can be entered, and by induction the least
string to that state, with the symbol behind it, is the least one.
-/

namespace ShiftReduce

namespace Grammar

variable {T N : Type} {grammar : Grammar T N}

/-! ## The order of strings -/

/-- The string is shorter than the other, or as long and ahead of it at the first difference. -/
def Before (grammar : Grammar T N) : List (Symbol T N) → List (Symbol T N) → Prop :=
  List.Shortlex fun left right => grammar.vocabulary.order left right = .lt

variable {access other : List (Symbol T N)} {symbol otherSymbol : Symbol T N}

theorem Before.asymm (before : grammar.Before access other) : ¬grammar.Before other access := by
  have orderAsymm : Std.Asymm fun left right => grammar.vocabulary.order left right = .lt :=
    ⟨fun left right below above => by
      rw [Std.OrientedCmp.gt_of_lt below] at above
      cases above⟩
  exact List.Shortlex.asymm.asymm _ _ before

/-- What decides between two strings decides however they go on by one symbol. -/
theorem Before.concat (before : grammar.Before access other) :
    grammar.Before (access ++ [symbol]) (other ++ [otherSymbol]) := by
  rcases List.shortlex_def.mp before with shorter | ⟨sameLength, ahead⟩
  · apply List.Shortlex.of_length_lt
    simpa using shorter
  · apply List.Shortlex.of_lex (by simpa using sameLength)
    clear before
    induction ahead with
    | nil => cases sameLength
    | cons _ inductionHypothesis => exact .cons (inductionHypothesis (Nat.succ.inj sameLength))
    | rel below => exact .rel below

theorem before_concat_of_lt (below : grammar.vocabulary.order symbol otherSymbol = .lt) :
    grammar.Before (access ++ [symbol]) (access ++ [otherSymbol]) :=
  List.Shortlex.append_left ((List.shortlex_singleton_iff symbol otherSymbol).mpr below) access

theorem before_nil_concat : grammar.Before [] (access ++ [symbol]) := by
  apply List.Shortlex.of_length_lt
  simp

/-! ## Discovery -/

variable [DecidableEq T] [DecidableEq N] {state : Nat}

private theorem getElem?_itemSets (bound : state < grammar.automaton.stateCount) :
    grammar.itemSets[state]? = some (grammar.automaton.items state) := by
  rw [← state?_automaton, state?_of_lt bound]

/-- A set of items that is found before a state has a smaller number. -/
private theorem lt_of_items_mem_take {target : Nat} (bound : target < grammar.automaton.stateCount)
    (member : grammar.automaton.items target ∈ grammar.itemSets.take state) : target < state := by
  obtain ⟨position, inside, found⟩ := List.mem_take_iff_getElem.mp member
  have listed : position < grammar.itemSets.length := by omega
  have isPosition : position = target := by
    apply (List.getElem?_inj listed nodup_itemSets).mp
    rw [getElem?_itemSets bound, List.getElem?_eq_getElem listed, found]
  omega

/-- The items that a transition leads to are mentioned where the state that it leaves is visited. -/
private theorem items_mem_flatMap_of_goto? {source target count : Nat} {symbol : Symbol T N}
    (edge : grammar.automaton.goto? source symbol = some target) (sooner : source < count) :
    grammar.automaton.items target ∈ (grammar.itemSets.take count).flatMap
      fun items => (grammar.successors items).map Prod.snd := by
  obtain ⟨⟨item, member, expects⟩, _, made⟩ := goto?_eq_some_iff.mp edge
  refine List.mem_flatMap.mpr ⟨grammar.automaton.items source, ?_,
    mem_successors.mpr ⟨symbol, ⟨item, member, expects⟩, made⟩⟩
  apply List.mem_of_getElem?
  rw [List.getElem?_take_of_lt sooner, getElem?_itemSets (lt_stateCount_of_mem member)]

/-- What a state leads to is in the order of the symbols that lead there. -/
private theorem exists_symbol_of_leads {items target : ItemSet} {before behind : List ItemSet}
    (leads : (grammar.successors items).map Prod.snd = before ++ target :: behind) :
    ∃ smaller symbol larger, grammar.expectedSymbols items = smaller ++ symbol :: larger ∧
      smaller.map (grammar.goto items) = before ∧ grammar.goto items symbol = target := by
  rw [successors, List.map_map] at leads
  obtain ⟨smaller, rest, split, sameBefore, leadsRest⟩ := List.map_eq_append_iff.mp leads
  obtain ⟨symbol, larger, rfl, leadsHere, _⟩ := List.map_eq_cons_iff.mp leadsRest
  exact ⟨smaller, symbol, larger, split, sameBefore, leadsHere⟩

omit [DecidableEq T] [DecidableEq N] in
/-- Among the symbols that a state expects, those not in front of a symbol are behind it. -/
private theorem le_of_not_mem_smaller {items : ItemSet} {smaller larger : List (Symbol T N)}
    (split : grammar.expectedSymbols items = smaller ++ symbol :: larger)
    (listed : otherSymbol ∈ grammar.expectedSymbols items) (notSmaller : otherSymbol ∉ smaller) :
    symbol = otherSymbol ∨ grammar.vocabulary.order symbol otherSymbol = .lt := by
  have ascending : Ascending.IsAscending grammar.vocabulary.order
      (grammar.expectedSymbols items) :=
    Ascending.isAscending_ofList _
  rw [split] at listed ascending
  have behind := (List.pairwise_append.mp ascending).2.1
  rcases List.mem_cons.mp ((List.mem_append.mp listed).resolve_left notSmaller) with same | isLarger
  · exact .inl same.symm
  · exact .inr ((List.pairwise_cons.mp behind).1 otherSymbol isLarger)

/-- A state is discovered by a transition out of an earlier one, and no transition that enters this
state or a later one is met before. -/
theorem exists_discovery (bound : state < grammar.automaton.stateCount) (notStart : state ≠ 0) :
    ∃ source symbol, source < state ∧ grammar.automaton.goto? source symbol = some state ∧
      ∀ other otherSymbol target, grammar.automaton.goto? other otherSymbol = some target →
        state ≤ target → source < other ∨ source = other ∧
          (symbol = otherSymbol ∨ grammar.vocabulary.order symbol otherSymbol = .lt) := by
  have inSets := bound
  rw [stateCount_automaton] at inSets
  cases grammar.finishes_itemSets.discovered (Nat.pos_of_ne_zero notStart) inSets with
  | @intro source parent member before behind earlier parentAt memberAt leads known =>
  rw [getElem?_itemSets (Nat.lt_trans earlier bound)] at parentAt
  rw [getElem?_itemSets bound] at memberAt
  cases parentAt
  cases memberAt
  obtain ⟨smaller, symbol, larger, split, rfl, leadsHere⟩ := exists_symbol_of_leads leads
  have expected : symbol ∈ grammar.expectedSymbols (grammar.automaton.items source) := by
    rw [split]
    simp
  refine ⟨source, symbol, earlier,
    goto?_eq_some_iff.mpr ⟨mem_expectedSymbols.mp expected, bound, leadsHere.symm⟩, ?_⟩
  intro other otherSymbol target edge notBefore
  obtain ⟨otherExpected, targetBound, targetItems⟩ := goto?_eq_some_iff.mp edge
  -- What is mentioned before this discovery has a smaller number than the state.
  have unknown : grammar.automaton.items target ∉ grammar.itemSets.take state := fun isKnown =>
    absurd (lt_of_items_mem_take targetBound isKnown) (Nat.not_lt.mpr notBefore)
  rcases Nat.lt_trichotomy source other with later | rfl | sooner
  · exact .inl later
  · have notSmaller : otherSymbol ∉ smaller := by
      intro isSmaller
      apply unknown
      rw [targetItems]
      exact known _ (List.mem_append_right _ (List.mem_map_of_mem isSmaller))
    exact .inr ⟨rfl,
      le_of_not_mem_smaller split (mem_expectedSymbols.mpr otherExpected) notSmaller⟩
  · exact absurd (known _ (List.mem_append_left _ (items_mem_flatMap_of_goto? edge sooner))) unknown

/-! ## Least strings -/

/-- The string leads to the state, and before any other that does. -/
def IsLeastAccess (grammar : Grammar T N) (state : Nat) (access : List (Symbol T N)) : Prop :=
  grammar.automaton.walk 0 access = some state ∧
    ∀ other, grammar.automaton.walk 0 other = some state →
      other = access ∨ grammar.Before access other

/-- Some string leads to the state, and comes before every other that leads to this state or to a
later one. The induction is on the number of the state. -/
theorem exists_first_access (bound : state < grammar.automaton.stateCount) :
    ∃ access, grammar.automaton.walk 0 access = some state ∧
      ∀ target other, state ≤ target → grammar.automaton.walk 0 other = some target →
        (target = state ∧ other = access) ∨ grammar.Before access other := by
  induction state using Nat.strongRecOn with
  | ind state inductionHypothesis =>
  by_cases isStart : state = 0
  · refine ⟨[], by rw [isStart]; rfl, ?_⟩
    intro target other _ walked
    cases other using List.reverseRecOn with
    | nil =>
        cases walked
        exact .inl ⟨isStart.symm, rfl⟩
    | append_singleton before symbol => exact .inr before_nil_concat
  · obtain ⟨source, symbol, earlier, edge, first⟩ := exists_discovery bound isStart
    obtain ⟨access, walked, least⟩ :=
      inductionHypothesis source earlier (Nat.lt_trans earlier bound)
    refine ⟨access ++ [symbol], walk_concat_of_goto? walked edge, ?_⟩
    intro target other notBefore otherWalked
    cases other using List.reverseRecOn with
    | nil =>
        cases otherWalked
        exact absurd (Nat.le_zero.mp notBefore) isStart
    | append_singleton otherAccess otherSymbol =>
        rw [walk_concat] at otherWalked
        obtain ⟨otherSource, otherReached, otherEdge⟩ := Option.bind_eq_some_iff.mp otherWalked
        have met := first otherSource otherSymbol target otherEdge notBefore
        have notSooner : source ≤ otherSource := by omega
        rcases least otherSource otherAccess notSooner otherReached with ⟨rfl, rfl⟩ | before
        · obtain ⟨_, rfl | below⟩ := met.resolve_left (Nat.lt_irrefl _)
          · rw [edge] at otherEdge
            exact .inl ⟨(Option.some.inj otherEdge).symm, rfl⟩
          · exact .inr (before_concat_of_lt below)
        · exact .inr before.concat

/-- Least strings stand in the order of their states. -/
theorem IsLeastAccess.before {right : Nat} {access other : List (Symbol T N)}
    (least : grammar.IsLeastAccess state access) (otherLeast : grammar.IsLeastAccess right other)
    (smaller : state < right) : grammar.Before access other := by
  obtain ⟨first, walked, isFirst⟩ := exists_first_access (lt_stateCount_of_walk least.1)
  have isAccess : access = first := by
    rcases isFirst state access (Nat.le_refl _) least.1 with ⟨_, same⟩ | firstBefore
    · exact same
    · exact (least.2 first walked).elim Eq.symm fun before => absurd before firstBefore.asymm
  rcases isFirst right other (Nat.le_of_lt smaller) otherLeast.1 with ⟨same, _⟩ | before
  · omega
  · rwa [isAccess]

/-! ## The canonical collection -/

/-- What tells the states apart and fixes their numbers. -/
structure IsCanonical (grammar : Grammar T N) : Prop where
  distinct : grammar.automaton.states.toList.Nodup
  /-- A state stands where its number says. -/
  indexed : ∀ state items, grammar.automaton.state? state = some items →
    grammar.automaton.states.toList.idxOf items = state
  reachable : ∀ state < grammar.automaton.stateCount,
    ∃ access, grammar.automaton.walk 0 access = some state
  closed : ∀ state < grammar.automaton.stateCount,
    grammar.closure (grammar.automaton.kernel grammar state) = grammar.automaton.items state
  /-- The kernel determines the state. -/
  determined : ∀ left < grammar.automaton.stateCount, ∀ right < grammar.automaton.stateCount,
    grammar.automaton.kernel grammar left = grammar.automaton.kernel grammar right → left = right
  unentered : ∀ state symbol, grammar.automaton.goto? state symbol ≠ some 0
  started : ∀ state, grammar.startItem ∈ grammar.automaton.items state ↔ state = 0
  /-- A state has a transition on each symbol behind a marker, and on no other. -/
  expects : ∀ state symbol, (∃ target, grammar.automaton.goto? state symbol = some target) ↔
    ∃ item ∈ grammar.automaton.items state, item.next? grammar = some symbol
  /-- What a transition carries in is the kernel of the state that it enters. -/
  carries : ∀ state symbol target, grammar.automaton.goto? state symbol = some target →
    ∀ item, item ∈ grammar.automaton.kernel grammar target ↔
      ∃ source ∈ grammar.automaton.items state,
        source.next? grammar = some symbol ∧ source.advance = item
  least : ∀ state < grammar.automaton.stateCount, ∃ access, grammar.IsLeastAccess state access
  /-- States are numbered by their least strings. -/
  numbered : ∀ left right access other, left < right → grammar.IsLeastAccess left access →
    grammar.IsLeastAccess right other → grammar.Before access other

/-- The start item is in no state but the first: it is not carried in, and nothing implies it. -/
theorem startItem_mem_items_iff :
    grammar.startItem ∈ grammar.automaton.items state ↔ state = 0 := by
  constructor
  · intro member
    rcases exists_of_marker_zero member rfl with ⟨isStart, _⟩ | ⟨source, _, implied⟩
    · exact isStart
    · exact absurd rfl (rule_ne_accepting_of_implied implied)
  · intro isStart
    rw [isStart]
    exact (List.mem_filter.mp startItem_mem_kernel).1

theorem mem_kernel_target {target : Nat} {symbol : Symbol T N} {item : Item}
    (edge : grammar.automaton.goto? state symbol = some target) :
    item ∈ grammar.automaton.kernel grammar target ↔
      ∃ source ∈ grammar.automaton.items state,
        source.next? grammar = some symbol ∧ source.advance = item := by
  have made := (goto?_eq_some_iff.mp edge).2.2
  rw [← mem_carried, Automaton.kernel, List.mem_filter, made, goto_eq_closure_carried]
  constructor
  · intro member
    exact mem_of_isKernel_of_mem_closure member.1 member.2
  · intro isCarried
    exact ⟨closure_of_seed isCarried, isKernel_of_mem_carried isCarried⟩

/-- The states of every grammar are told apart by their kernels, are entered by what they carry
over, and are numbered by the least strings that lead to them. -/
theorem automaton_isCanonical (grammar : Grammar T N) : grammar.IsCanonical where
  distinct := by
    rw [states_automaton]
    exact nodup_itemSets
  indexed := by
    intro state items found
    rw [state?_automaton] at found
    obtain ⟨bound, rfl⟩ := List.getElem?_eq_some_iff.mp found
    rw [states_automaton]
    exact nodup_itemSets.idxOf_getElem state bound
  reachable := fun _ => exists_walk
  closed := fun _ => closure_kernel
  determined := by
    intro left leftBound right rightBound same
    apply items_injective leftBound rightBound
    rw [← closure_kernel leftBound, same, closure_kernel rightBound]
  unentered := fun _ _ => goto?_ne_zero
  started := fun _ => startItem_mem_items_iff
  expects := by
    intro state symbol
    constructor
    · rintro ⟨target, edge⟩
      exact (goto?_eq_some_iff.mp edge).1
    · rintro ⟨item, member, expects⟩
      exact exists_goto? member expects
  carries := fun _ _ _ edge _ => mem_kernel_target edge
  least := by
    intro state bound
    obtain ⟨access, walked, first⟩ := exists_first_access bound
    refine ⟨access, walked, ?_⟩
    intro other otherWalked
    exact (first state other (Nat.le_refl _) otherWalked).imp_left And.right
  numbered := fun _ _ _ _ smaller least otherLeast => least.before otherLeast smaller

end Grammar

end ShiftReduce
