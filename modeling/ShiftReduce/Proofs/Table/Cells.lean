import ShiftReduce.Proofs.Lookahead.Merged

/-!
Contract: what the cells of a table hold.

Owns: `Grammar.driver`, the parser that a method's table drives, and `Grammar.IsUsable`, by which
there is such a parser; and for each kind of action the condition under which a cell for a listed
terminal holds it.
-/

namespace ShiftReduce

namespace Grammar

variable {T N : Type} [DecidableEq T] [DecidableEq N]

/-- The parser under a method, whether or not items clash. -/
def driver (grammar : Grammar T N) (method : Method) : Parser T N where
  grammar := grammar
  table := grammar.table grammar.automaton method (grammar.study.reductionLookaheads method)

/-- No completed items clash under the method. -/
def IsUsable (grammar : Grammar T N) (method : Method) : Prop :=
  (grammar.study.compiled method).conflicts.clashes = []

instance (grammar : Grammar T N) (method : Method) : Decidable (grammar.IsUsable method) :=
  inferInstanceAs (Decidable (_ = _))

variable {grammar : Grammar T N} {method : Method}

theorem parser_eq_ok_iff {parser : Parser T N} :
    grammar.study.parser method = .ok parser ↔
      grammar.IsUsable method ∧ parser = grammar.driver method := by
  have driven : grammar.driver method =
      { grammar := grammar.study.grammar, table := (grammar.study.compiled method).table } := by
    rw [Study.compiled_study]
    rfl
  rw [driven, IsUsable, Study.parser, Compiled.usableTable, Conflicts.isCritical]
  cases (grammar.study.compiled method).conflicts.clashes with
  | nil => simp [Except.map, eq_comm]
  | cons clash others => simp [Except.map]

theorem IsUsable.parser_eq (usable : grammar.IsUsable method) :
    grammar.study.parser method = .ok (grammar.driver method) :=
  parser_eq_ok_iff.mpr ⟨usable, rfl⟩

/-! ## Gotos -/

omit [DecidableEq T] [DecidableEq N] in
/-- A cell of a row that is worked out for each state and each listed letter. -/
private theorem cell_eq {α β : Type} {alphabet : Alphabet α} {letter : α}
    (listed : alphabet.Lists letter) (value : Nat → α → Option β) {count state : Nat}
    (bound : state < count) :
    (((List.range count).map fun state =>
        (alphabet.all.map (value state)).toArray).toArray[state]?).bind
      (fun row => row.getD (alphabet.index letter) none) = value state letter := by
  rw [List.getElem?_toArray, List.getElem?_map, List.getElem?_range bound, Option.map_some,
    Option.bind_some, ← List.map_toArray]
  exact listed.getD_map (value state) none

omit [DecidableEq T] [DecidableEq N] in
private theorem cell_beyond {α β : Type} {rows : Nat → Array (Option β)} {count state : Nat}
    {letter : α} {index : α → Nat} (beyond : ¬state < count) :
    (((List.range count).map rows).toArray[state]?).bind
      (fun row => row.getD (index letter) none) = none := by
  have absent : ((List.range count).map rows).toArray[state]? = none := by
    rw [Array.getElem?_eq_none_iff]
    simpa using beyond
  rw [absent, Option.bind_none]

theorem goto?_eq_none_of_not_lt {state : Nat} (beyond : ¬state < grammar.automaton.stateCount)
    (symbol : Symbol T N) : grammar.automaton.goto? state symbol = none := by
  cases edge : grammar.automaton.goto? state symbol with
  | none => rfl
  | some target =>
      obtain ⟨item, member, _⟩ := (goto?_eq_some_iff.mp edge).1
      exact absurd (lt_stateCount_of_mem member) beyond

variable (method) in
theorem goto?_driver (state : Nat) {nonterminal : N}
    (listed : grammar.vocabulary.nonterminals.Lists nonterminal) :
    (grammar.driver method).table.goto? state nonterminal =
      grammar.automaton.goto? state (.nonterminal nonterminal) := by
  by_cases bound : state < grammar.automaton.stateCount
  · exact cell_eq listed (fun state nonterminal =>
      grammar.automaton.goto? state (.nonterminal nonterminal)) bound
  · rw [goto?_eq_none_of_not_lt bound]
    exact cell_beyond bound

/-! ## Actions -/

/-- The cell of a listed terminal; outside the automaton there is neither a transition nor a
completed item. -/
theorem action?_driver (state : Nat) {terminal : T}
    (listed : grammar.vocabulary.terminals.Lists terminal) :
    (grammar.driver method).table.action? state terminal =
      match grammar.automaton.goto? state (.terminal terminal) with
      | some target => some (.shift target)
      | none => grammar.completion? (grammar.study.reductionLookaheads method) state
          (grammar.automaton.completed grammar state) terminal := by
  by_cases bound : state < grammar.automaton.stateCount
  · exact cell_eq listed (fun state terminal =>
      match grammar.automaton.goto? state (.terminal terminal) with
      | some target => some (.shift target)
      | none => grammar.completion? (grammar.study.reductionLookaheads method) state
          (grammar.automaton.completed grammar state) terminal) bound
  · have noCompleted : grammar.automaton.completed grammar state = [] := by
      rw [Automaton.completed, items_eq_nil_of_not_lt bound, List.filter_nil]
    rw [goto?_eq_none_of_not_lt bound, noCompleted]
    simp only [completion?, List.any_nil, List.find?_nil, Bool.false_eq_true, and_false, if_false,
      Option.map_none]
    exact cell_beyond bound

variable (grammar method) in
/-- The actions of the table, cell by cell. -/
theorem actions_driver :
    (grammar.driver method).table.actions =
      ((List.range grammar.automaton.stateCount).map fun state =>
        (grammar.vocabulary.terminals.all.map
          ((grammar.driver method).table.action? state)).toArray).toArray := by
  have row : ∀ state, grammar.vocabulary.terminals.all.map
      ((grammar.driver method).table.action? state) =
        grammar.actionRow grammar.automaton (grammar.study.reductionLookaheads method) state := by
    intro state
    apply List.map_congr_left
    intro terminal member
    exact action?_driver state (grammar.terminals_listed terminal member)
  simp only [row]
  rfl

/-- A terminal is shifted wherever the automaton has a transition on it. -/
theorem action?_eq_shift_iff {state target : Nat} {terminal : T}
    (listed : grammar.vocabulary.terminals.Lists terminal) :
    (grammar.driver method).table.action? state terminal = some (.shift target) ↔
      grammar.automaton.goto? state (.terminal terminal) = some target := by
  rw [action?_driver state listed]
  cases grammar.automaton.goto? state (.terminal terminal) with
  | some other => simp
  | none =>
      simp only [completion?, reduceCtorEq, iff_false]
      split
      · simp
      · simp

/-- No transition is on the end marker. -/
theorem goto?_endMarker (state : Nat) :
    grammar.automaton.goto? state (.terminal grammar.vocabulary.endMarker) = none := by
  cases edge : grammar.automaton.goto? state (.terminal grammar.vocabulary.endMarker) with
  | none => rfl
  | some target =>
      obtain ⟨item, _, expects⟩ := (goto?_eq_some_iff.mp edge).1
      exact absurd expects next?_ne_endMarker

theorem mem_completed_iff {state : Nat} {item : Item} :
    item ∈ grammar.automaton.completed grammar state ↔
      item ∈ grammar.automaton.items state ∧ item.isComplete grammar = true :=
  List.mem_filter

/-- A rule that is valid as a whole after a string is completed in the state that the string leads
to. -/
theorem Valid.mem_completed {access : List (Symbol T N)} {state : Nat} {id : RuleId}
    (valid : grammar.Valid access ⟨id, (grammar.rule id).rhs.length⟩)
    (walked : grammar.automaton.walk 0 access = some state) :
    ⟨id, (grammar.rule id).rhs.length⟩ ∈ grammar.automaton.completed grammar state :=
  mem_completed_iff.mpr ⟨(valid_iff_of_walk walked).mp valid, decide_eq_true (Nat.le_refl _)⟩

/-- The input is accepted where the accepting rule has been read and the end marker follows. -/
theorem action?_eq_accept_iff {state : Nat} {terminal : T}
    (listed : grammar.vocabulary.terminals.Lists terminal) :
    (grammar.driver method).table.action? state terminal = some .accept ↔
      terminal = grammar.vocabulary.endMarker ∧
        ∃ item ∈ grammar.automaton.completed grammar state, item.isAccepting grammar = true := by
  rw [action?_driver state listed]
  constructor
  · intro accepts
    split at accepts
    · cases accepts
    · unfold completion? at accepts
      split at accepts
      · next ends => exact ⟨ends.1, List.any_eq_true.mp ends.2⟩
      · simp at accepts
  · intro ends
    rcases ends with ⟨rfl, accepting⟩
    simp [goto?_endMarker, completion?, List.any_eq_true.mpr accepting]

/-- Where the accepting rule has been read, only the end marker may follow, and the input is
accepted. -/
theorem MayFollow.action?_eq_accept (method : Method) {access : List (Symbol T N)} {state : Nat}
    {terminal : T}
    (follows : grammar.MayFollow access ⟨grammar.accepting, grammar.acceptingRule.rhs.length⟩
      terminal) (walked : grammar.automaton.walk 0 access = some state) :
    (grammar.driver method).table.action? state terminal = some .accept := by
  have ends := follows.eq_endMarker (decide_eq_true rfl)
  exact (action?_eq_accept_iff follows.listed).mpr
    ⟨ends, _, follows.valid.mem_completed walked, decide_eq_true rfl⟩

/-- What a reduction needs: there is no transition, and the rule has been read and has the terminal
among its lookaheads. -/
theorem exists_of_action?_eq_reduce {state : Nat} {terminal : T} {id : RuleId}
    (listed : grammar.vocabulary.terminals.Lists terminal)
    (reduces : (grammar.driver method).table.action? state terminal = some (.reduce id)) :
    ∃ item ∈ grammar.automaton.completed grammar state, item.rule = id ∧
      item.isAccepting grammar = false ∧
      terminal ∈ grammar.study.reductionLookaheads method state item := by
  rw [action?_driver state listed] at reduces
  split at reduces
  · cases reduces
  · unfold completion? at reduces
    split at reduces
    · cases reduces
    · obtain ⟨item, found, same⟩ := Option.map_eq_some_iff.mp reduces
      have fits := List.find?_some found
      simp only [Bool.and_eq_true, Bool.not_eq_true', decide_eq_true_eq] at fits
      exact ⟨item, List.mem_of_find?_eq_some found, Action.reduce.inj same, fits⟩

end Grammar

end ShiftReduce
