import Mathlib.Order.Bounds.Defs
import ShiftReduce.Proofs.Automaton.Chains
import ShiftReduce.Proofs.Table.Report

/-!
Contract: tables that are filled by one write after the other.

Owns: `Action.claim`, what a write leaves in a cell; the writes of a state, its transitions first and
then its completed items; `Grammar.filledTable`, the table that is left when all of them have been
made in cells told apart by the numbers of letters; and `Prioritizes`, by which a cell holds a
shift, or else acceptance, or else the reduction of the smallest rule.

Shifts and acceptance come out the same in whatever order is written. Only reductions depend on it,
and they are claimed in the order of their rules.
-/

namespace ShiftReduce

/-! ## Cells -/

/-- The cell after the action has been written to it: a shift takes any cell, acceptance any that
is not shifted, and a reduction only an empty one. -/
def Action.claim (action : Action) (cell : Option Action) : Option Action :=
  match action with
  | .shift target => some (.shift target)
  | .accept =>
      match cell with
      | some (.shift target) => some (.shift target)
      | _ => some .accept
  | .reduce rule => some (cell.getD (.reduce rule))

namespace Action

/-- The rule to be reduced, if there is one. -/
def rule? : Action → Option RuleId
  | .reduce rule => some rule
  | _ => none

theorem rule?_eq_some_iff {action : Action} {rule : RuleId} :
    action.rule? = some rule ↔ action = .reduce rule := by
  cases action with
  | shift target => simp [rule?]
  | accept => simp [rule?]
  | reduce other => simp [rule?]

/-- What an empty cell holds after some writes. -/
def settled (actions : List Action) : Option Action :=
  actions.foldl (fun cell action => action.claim cell) none

variable {actions : List Action}

/-- What is no shift leaves a shift alone. -/
theorem claim_of_shifted {action : Action} (unshifted : ∀ other, action ≠ .shift other)
    (target : Nat) : action.claim (some (.shift target)) = some (.shift target) := by
  cases action with
  | shift other => exact absurd rfl (unshifted other)
  | accept => rfl
  | reduce rule => rfl

/-- A shift stays, and replaces what was there before. -/
theorem settled_eq_shift {target : Nat} (claimed : .shift target ∈ actions)
    (single : ∀ other, .shift other ∈ actions → other = target) :
    settled actions = some (.shift target) := by
  have keeps : ∀ cell : Option Action, cell = some (.shift target) ∨ .shift target ∈ actions →
      actions.foldl (fun cell action => action.claim cell) cell = some (.shift target) := by
    clear claimed
    induction actions with
    | nil =>
        intro cell reason
        exact reason.resolve_right List.not_mem_nil
    | cons action rest inductionHypothesis =>
        intro cell reason
        apply inductionHypothesis fun other later => single other (List.mem_cons_of_mem _ later)
        by_cases shifts : ∃ other, action = .shift other
        · obtain ⟨other, rfl⟩ := shifts
          left
          rw [single other List.mem_cons_self]
          rfl
        · have unshifted : ∀ other, action ≠ .shift other := fun other same => shifts ⟨other, same⟩
          apply reason.imp
          · rintro rfl
            exact claim_of_shifted unshifted target
          · intro member
            exact (List.mem_cons.mp member).resolve_left (unshifted target).symm
  exact keeps none (.inr claimed)

/-- Without a shift, acceptance stays, and replaces what was there before. -/
theorem settled_eq_accept (claimed : .accept ∈ actions)
    (unshifted : ∀ target, .shift target ∉ actions) : settled actions = some .accept := by
  have keeps : ∀ cell : Option Action, (∀ target, cell ≠ some (.shift target)) →
      cell = some .accept ∨ .accept ∈ actions →
      actions.foldl (fun cell action => action.claim cell) cell = some .accept := by
    clear claimed
    induction actions with
    | nil =>
        intro cell _ reason
        exact reason.resolve_right List.not_mem_nil
    | cons action rest inductionHypothesis =>
        intro cell free reason
        have restUnshifted : ∀ target, .shift target ∉ rest := fun target later =>
          unshifted target (List.mem_cons_of_mem _ later)
        cases action with
        | shift target => exact absurd List.mem_cons_self (unshifted target)
        | accept =>
            have taken : Action.accept.claim cell = some .accept := by
              rcases cell with _ | ⟨⟨target⟩ | _ | _⟩
              · rfl
              · exact absurd rfl (free target)
              · rfl
              · rfl
            exact inductionHypothesis restUnshifted _ (by simp [taken]) (.inl taken)
        | reduce rule =>
            apply inductionHypothesis restUnshifted
            · intro target same
              cases cell with
              | none => cases same
              | some held => exact free target same
            · apply reason.imp
              · rintro rfl
                rfl
              · intro member
                exact (List.mem_cons.mp member).resolve_left nofun
  exact keeps none nofun (.inr claimed)

/-- Where only reductions are claimed, the first stays. -/
theorem settled_eq_reduce (reductions : ∀ action ∈ actions, ∃ rule, action = .reduce rule) :
    settled actions = (actions.filterMap rule?).head?.map .reduce := by
  have keeps : ∀ cell : Option Action,
      actions.foldl (fun cell action => action.claim cell) cell =
        cell.or ((actions.filterMap rule?).head?.map .reduce) := by
    induction actions with
    | nil =>
        intro cell
        cases cell with
        | none => rfl
        | some held => rfl
    | cons action rest inductionHypothesis =>
        intro cell
        obtain ⟨rule, rfl⟩ := reductions action List.mem_cons_self
        rw [List.foldl_cons, inductionHypothesis fun later isLater =>
          reductions later (List.mem_cons_of_mem _ isLater)]
        cases cell with
        | none => rfl
        | some held => rfl
  exact keeps none

end Action

/-! ## Writes -/

/-- Rows of empty cells, to which is written row by row. A write has the number of its cell and what
becomes of what is there. -/
def fillCells {α : Type} (rows columns : Nat) (writes : Nat → List (Nat × (Option α → Option α))) :
    Array (Array (Option α)) :=
  (List.range rows).foldl
    (fun cells row => cells.modify row fun cells =>
      (writes row).foldl (fun cells write => cells.modify write.1 write.2) cells)
    (Array.replicate rows (Array.replicate columns none))

/-- A place sees the writes that are meant for it, and no others. -/
private theorem getElem?_foldl_modify {α β : Type} (place : β → Nat) (change : β → α → α)
    (writes : List β) (cells : Array α) (position : Nat) :
    (writes.foldl (fun cells write => cells.modify (place write) (change write)) cells)[position]? =
      (cells[position]?).map fun cell =>
        (writes.filter (place · = position)).foldl (fun cell write => change write cell) cell := by
  induction writes generalizing cells with
  | nil => simp
  | cons write rest inductionHypothesis =>
      rw [List.foldl_cons, inductionHypothesis, Array.getElem?_modify, List.filter_cons]
      by_cases meant : place write = position
      · simp [meant, Function.comp_def]
      · simp [meant]

theorem getElem?_fillCells {α : Type} {rows columns row column : Nat}
    {writes : Nat → List (Nat × (Option α → Option α))} (rowBound : row < rows)
    (columnBound : column < columns) :
    ((fillCells rows columns writes)[row]?).bind (·[column]?) =
      some (((writes row).filter (·.1 = column)).foldl (fun cell write => write.2 cell) none) := by
  have single : (List.range rows).filter (fun place => place = row) = [row] := by
    rw [List.filter_eq, List.count_eq_one_of_mem List.nodup_range (List.mem_range.mpr rowBound)]
    rfl
  rw [fillCells, getElem?_foldl_modify (fun place => place), Array.getElem?_replicate,
    if_pos rowBound, Option.map_some, Option.bind_some]
  simp only [single, List.foldl_cons, List.foldl_nil]
  rw [getElem?_foldl_modify Prod.fst Prod.snd, Array.getElem?_replicate, if_pos columnBound,
    Option.map_some]

/-- Listed letters are told apart by their numbers, so the cell of a letter has seen what was written
for that letter, and nothing else. -/
theorem cell_fillCells {α β γ : Type} [DecidableEq β] {alphabet : Alphabet β} {letter : β}
    {rows row : Nat} (written : Nat → List (β × γ)) (change : γ → Option α → Option α)
    (rowBound : row < rows) (listed : alphabet.Lists letter)
    (writtenListed : ∀ write ∈ written row, alphabet.Lists write.1) :
    ((fillCells rows alphabet.size fun row => (written row).map fun (letter, value) =>
        (alphabet.index letter, change value))[row]?).bind
      (fun cells => cells.getD (alphabet.index letter) none) =
    (((written row).filter (·.1 = letter)).map Prod.snd).foldl (fun cell value => change value cell)
      none := by
  obtain ⟨cells, found, held⟩ := Option.bind_eq_some_iff.mp
    (@getElem?_fillCells α _ _ _ _ (fun row => (written row).map fun (letter, value) =>
      (alphabet.index letter, change value)) rowBound listed.index_lt)
  have same : (written row).filter (fun write => alphabet.index write.1 = alphabet.index letter) =
      (written row).filter (·.1 = letter) := by
    apply List.filter_congr
    intro write member
    exact decide_eq_decide.mpr ((writtenListed write member).index_eq_iff listed)
  rw [found, Option.bind_some, Array.getD_eq_getD_getElem?, held, Option.getD_some, ← same,
    List.filter_map, List.foldl_map, List.foldl_map]
  rfl

theorem getElem?_fillCells_of_not_lt {α : Type} {rows columns row : Nat}
    {writes : Nat → List (Nat × (Option α → Option α))} (beyond : ¬row < rows) :
    (fillCells rows columns writes)[row]? = none := by
  rw [fillCells, getElem?_foldl_modify (fun place => place), Array.getElem?_replicate,
    if_neg beyond, Option.map_none]

namespace Grammar

variable {T N : Type} [DecidableEq T] [DecidableEq N]

/-- What a state writes to the cells for terminals: a shift for each transition, and then what its
completed items ask for, item by item. -/
def claims (grammar : Grammar T N) (method : Method) (state : Nat) : List (T × Action) :=
  ((grammar.automaton.transitions state).filterMap fun (symbol, target) =>
    symbol.terminal?.map fun terminal => (terminal, .shift target)) ++
  (grammar.automaton.completed grammar state).flatMap fun item =>
    (grammar.reductionSet (grammar.study.reductionLookaheads method) state item).map fun terminal =>
      (terminal, grammar.completion item)

/-- What a state writes to the cells for nonterminals. -/
def gotoClaims (grammar : Grammar T N) (state : Nat) : List (N × Nat) :=
  (grammar.automaton.transitions state).filterMap fun (symbol, target) =>
    symbol.nonterminal?.map fun nonterminal => (nonterminal, target)

/-- The table that the writes leave. -/
def filledTable (grammar : Grammar T N) (method : Method) : Table T N where
  vocabulary := grammar.vocabulary
  method := method
  actions := fillCells grammar.automaton.stateCount grammar.vocabulary.terminals.size fun state =>
    (grammar.claims method state).map fun (terminal, action) =>
      (grammar.vocabulary.terminals.index terminal, action.claim)
  gotos := fillCells grammar.automaton.stateCount grammar.vocabulary.nonterminals.size fun state =>
    (grammar.gotoClaims state).map fun (nonterminal, target) =>
      (grammar.vocabulary.nonterminals.index nonterminal, fun _ => some target)

/-- The rules other than the accepting one that have been read in the state and have the terminal
among their lookaheads. -/
def reducible (grammar : Grammar T N) (method : Method) (state : Nat) (terminal : T) :
    Set RuleId :=
  { id | id ≠ grammar.accepting ∧ ∃ item ∈ grammar.automaton.completed grammar state,
    item.rule = id ∧ terminal ∈ grammar.study.reductionLookaheads method state item }

/-- The cells of the table for listed letters hold what takes precedence. -/
structure Prioritizes (grammar : Grammar T N) (method : Method) (table : Table T N) : Prop where
  /-- Wherever the automaton has a transition, it is shifted. -/
  shift : ∀ state, ∀ terminal ∈ grammar.vocabulary.terminals.all, ∀ target,
    table.action? state terminal = some (.shift target) ↔
      grammar.automaton.goto? state (.terminal terminal) = some target
  /-- Otherwise the end marker is accepted if the accepting rule has been read. -/
  accept : ∀ state, ∀ terminal ∈ grammar.vocabulary.terminals.all,
    grammar.automaton.goto? state (.terminal terminal) = none →
      (table.action? state terminal = some .accept ↔ terminal = grammar.vocabulary.endMarker ∧
        ∃ item ∈ grammar.automaton.completed grammar state, item.rule = grammar.accepting)
  /-- Otherwise the smallest of the rules that can be reduced is. -/
  reduce : ∀ state, ∀ terminal ∈ grammar.vocabulary.terminals.all,
    grammar.automaton.goto? state (.terminal terminal) = none →
      table.action? state terminal ≠ some .accept → ∀ id,
        (table.action? state terminal = some (.reduce id) ↔
          IsLeast (grammar.reducible method state terminal) id)
  /-- Otherwise there is none. -/
  error : ∀ state, ∀ terminal ∈ grammar.vocabulary.terminals.all,
    grammar.automaton.goto? state (.terminal terminal) = none →
      table.action? state terminal ≠ some .accept →
        (table.action? state terminal = none ↔ ∀ id, id ∉ grammar.reducible method state terminal)
  goto : ∀ state, ∀ nonterminal ∈ grammar.vocabulary.nonterminals.all,
    table.goto? state nonterminal = grammar.automaton.goto? state (.nonterminal nonterminal)

variable {grammar : Grammar T N} {method : Method} {state : Nat} {terminal : T}

/-! ## What a cell holds -/

private theorem head?_eq_some_iff_isLeast {values : List Nat}
    (ascending : values.Pairwise (· ≤ ·)) {value : Nat} :
    values.head? = some value ↔ IsLeast { value | value ∈ values } value := by
  cases values with
  | nil => simp [IsLeast]
  | cons first rest =>
      have below : ∀ other ∈ first :: rest, first ≤ other := by
        intro other member
        rcases List.mem_cons.mp member with rfl | later
        · exact Nat.le_refl _
        · exact (List.pairwise_cons.mp ascending).1 other later
      rw [List.head?_cons, Option.some.injEq]
      constructor
      · rintro rfl
        exact ⟨List.mem_cons_self, below⟩
      · intro least
        exact Nat.le_antisymm (below value least.1) (least.2 List.mem_cons_self)

/-- It is enough to know of each cell that has neither a shift nor acceptance that it holds the
first of the rules that can be reduced, in ascending order. -/
private theorem prioritizes_of_cells {table : Table T N} (rules : Nat → T → List RuleId)
    (cells : ∀ state terminal, grammar.vocabulary.terminals.Lists terminal →
      table.action? state terminal =
        match grammar.automaton.goto? state (.terminal terminal) with
        | some target => some (.shift target)
        | none =>
            if terminal = grammar.vocabulary.endMarker ∧
                ∃ item ∈ grammar.automaton.completed grammar state, item.rule = grammar.accepting
            then some .accept
            else (rules state terminal).head?.map .reduce)
    (ascending : ∀ state terminal, (rules state terminal).Pairwise (· ≤ ·))
    (members : ∀ state terminal,
      { id | id ∈ rules state terminal } = grammar.reducible method state terminal)
    (gotos : ∀ state nonterminal, grammar.vocabulary.nonterminals.Lists nonterminal →
      table.goto? state nonterminal = grammar.automaton.goto? state (.nonterminal nonterminal)) :
    grammar.Prioritizes method table where
  shift state terminal member target := by
    rw [cells state terminal (grammar.terminals_listed terminal member)]
    cases grammar.automaton.goto? state (.terminal terminal) with
    | some other => simp
    | none =>
        simp only [reduceCtorEq, iff_false]
        split
        · simp
        · simp
  accept state terminal member unshifted := by
    rw [cells state terminal (grammar.terminals_listed terminal member), unshifted]
    simp
  reduce state terminal member unshifted unaccepted id := by
    rw [cells state terminal (grammar.terminals_listed terminal member), unshifted] at *
    simp only at unaccepted ⊢
    split at unaccepted
    · exact absurd rfl unaccepted
    · next unended =>
        rw [if_neg unended, ← members, ← head?_eq_some_iff_isLeast (ascending state terminal)]
        simp
  error state terminal member unshifted unaccepted := by
    rw [cells state terminal (grammar.terminals_listed terminal member), unshifted] at *
    simp only at unaccepted ⊢
    split at unaccepted
    · exact absurd rfl unaccepted
    · next unended =>
        rw [if_neg unended, ← members, Option.map_eq_none_iff, List.head?_eq_none_iff]
        exact List.eq_nil_iff_forall_not_mem
  goto state nonterminal member :=
    gotos state nonterminal (grammar.nonterminals_listed nonterminal member)

theorem pairwise_completed :
    (grammar.automaton.completed grammar state).Pairwise fun lower upper =>
      lower.rule ≤ upper.rule := by
  apply List.Pairwise.filter
  by_cases bound : state < grammar.automaton.stateCount
  · apply (isAscending_items bound).imp
    intro lower upper below
    rcases order_eq_lt_iff.mp below with smaller | same
    · exact Nat.le_of_lt smaller
    · exact Nat.le_of_eq same.1
  · rw [items_eq_nil_of_not_lt bound]
    exact List.Pairwise.nil

/-- The rules of the completed items that are reduced on the terminal. -/
private def compiledRules (grammar : Grammar T N) (method : Method) (state : Nat) (terminal : T) :
    List RuleId :=
  ((grammar.automaton.completed grammar state).filter fun item => !item.isAccepting grammar &&
    terminal ∈ grammar.study.reductionLookaheads method state item).map Item.rule

theorem prioritizes_driver : grammar.Prioritizes method (grammar.driver method).table := by
  apply prioritizes_of_cells (grammar.compiledRules method)
  · intro state terminal listed
    rw [action?_driver state listed, compiledRules, List.head?_map, List.head?_filter,
      Option.map_map]
    simp only [completion?, List.any_eq_true, Item.isAccepting, decide_eq_true_eq]
    rfl
  · intro state terminal
    exact List.pairwise_map.mpr (pairwise_completed.filter _)
  · intro state terminal
    ext id
    simp only [compiledRules, reducible, List.mem_map, List.mem_filter, Set.mem_ofPred_eq,
      Item.isAccepting, Bool.and_eq_true, Bool.not_eq_true', decide_eq_false_iff_not,
      decide_eq_true_eq]
    constructor
    · rintro ⟨item, ⟨completed, ordinary, lookahead⟩, rfl⟩
      exact ⟨ordinary, item, completed, rfl, lookahead⟩
    · rintro ⟨ordinary, item, completed, rfl, lookahead⟩
      exact ⟨item, ⟨completed, ordinary, lookahead⟩, rfl⟩
  · intro state nonterminal listed
    exact goto?_driver method state listed

/-! ## What the writes leave -/

/-- What the state writes to the cell of the terminal. -/
private def claimed (grammar : Grammar T N) (method : Method) (state : Nat) (terminal : T) :
    List Action :=
  ((grammar.claims method state).filter fun claim => claim.1 = terminal).map Prod.snd

private theorem mem_claims {claim : T × Action} :
    claim ∈ grammar.claims method state ↔
      (∃ target, grammar.automaton.goto? state (.terminal claim.1) = some target ∧
          claim.2 = .shift target) ∨
        ∃ item, grammar.Reduces method state item claim.1 ∧ claim.2 = grammar.completion item := by
  rcases claim with ⟨terminal, action⟩
  simp only [claims, List.mem_append, List.mem_filterMap, List.mem_flatMap, List.mem_map]
  apply or_congr
  · constructor
    · rintro ⟨⟨symbol, target⟩, transition, made⟩
      cases symbol with
      | terminal letter =>
          cases made
          exact ⟨target, mem_transitions_iff.mp transition, rfl⟩
      | nonterminal letter => cases made
    · rintro ⟨target, edge, rfl⟩
      exact ⟨_, mem_transitions_iff.mpr edge, rfl⟩
  · constructor
    · rintro ⟨item, completed, letter, inSet, made⟩
      cases made
      exact ⟨item, ⟨completed, inSet⟩, rfl⟩
    · rintro ⟨item, reduces, rfl⟩
      exact ⟨item, reduces.completed, terminal, reduces.inSet, rfl⟩

private theorem mem_claimed {action : Action} :
    action ∈ grammar.claimed method state terminal ↔
      (∃ target, grammar.automaton.goto? state (.terminal terminal) = some target ∧
          action = .shift target) ∨
        ∃ item, grammar.Reduces method state item terminal ∧ action = grammar.completion item := by
  have found : action ∈ grammar.claimed method state terminal ↔
      (terminal, action) ∈ grammar.claims method state := by
    simp [claimed]
  rw [found, mem_claims]

omit [DecidableEq T] [DecidableEq N] in
private theorem completion_eq_accept_iff {item : Item} :
    grammar.completion item = .accept ↔ item.rule = grammar.accepting := by
  simp [completion, Item.isAccepting]

omit [DecidableEq T] [DecidableEq N] in
private theorem completion_eq_reduce_iff {item : Item} {id : RuleId} :
    grammar.completion item = .reduce id ↔ item.rule ≠ grammar.accepting ∧ item.rule = id := by
  by_cases accepting : item.rule = grammar.accepting
  · simp [completion, Item.isAccepting, accepting]
  · simp [completion, Item.isAccepting, accepting]

omit [DecidableEq T] [DecidableEq N] in
private theorem completion_ne_shift {item : Item} {target : Nat} :
    grammar.completion item ≠ .shift target := by
  unfold completion
  split
  · exact nofun
  · exact nofun

private theorem shift_mem_claimed {target : Nat} :
    .shift target ∈ grammar.claimed method state terminal ↔
      grammar.automaton.goto? state (.terminal terminal) = some target := by
  simp [mem_claimed, completion_ne_shift.symm]

private theorem accept_mem_claimed :
    .accept ∈ grammar.claimed method state terminal ↔
      terminal = grammar.vocabulary.endMarker ∧
        ∃ item ∈ grammar.automaton.completed grammar state, item.rule = grammar.accepting := by
  simp only [mem_claimed, reduceCtorEq, and_false, exists_false, false_or]
  constructor
  · rintro ⟨item, reduces, same⟩
    have accepting := completion_eq_accept_iff.mp same.symm
    obtain ⟨completed, ends⟩ := (reduces_iff_of_accepting (decide_eq_true accepting)).mp reduces
    exact ⟨ends, item, completed, accepting⟩
  · rintro ⟨ends, item, completed, accepting⟩
    have reduces : grammar.Reduces method state item terminal :=
      (reduces_iff_of_accepting (decide_eq_true accepting)).mpr ⟨completed, ends⟩
    exact ⟨item, reduces, (completion_eq_accept_iff.mpr accepting).symm⟩

private theorem reduce_mem_claimed {id : RuleId} :
    .reduce id ∈ grammar.claimed method state terminal ↔
      id ∈ grammar.reducible method state terminal := by
  simp only [mem_claimed, reduceCtorEq, and_false, exists_false, false_or]
  constructor
  · rintro ⟨item, reduces, same⟩
    obtain ⟨ordinary, rfl⟩ := completion_eq_reduce_iff.mp same.symm
    obtain ⟨completed, lookahead⟩ :=
      (reduces_iff_of_ordinary (decide_eq_false ordinary)).mp reduces
    exact ⟨ordinary, item, completed, rfl, lookahead⟩
  · rintro ⟨ordinary, item, completed, rfl, lookahead⟩
    have reduces := (reduces_iff_of_ordinary (decide_eq_false ordinary)).mpr ⟨completed, lookahead⟩
    exact ⟨item, reduces, (completion_eq_reduce_iff.mpr ⟨ordinary, rfl⟩).symm⟩

private theorem listed_of_mem_claims {claim : T × Action}
    (member : claim ∈ grammar.claims method state) :
    grammar.vocabulary.terminals.Lists claim.1 := by
  rcases mem_claims.mp member with ⟨_, edge, _⟩ | ⟨_, reduces, _⟩
  · obtain ⟨item, _, expects⟩ := (goto?_eq_some_iff.mp edge).1
    exact (listed_of_next? expects).1
  · exact reduces.listed

private theorem action?_filledTable (listed : grammar.vocabulary.terminals.Lists terminal) :
    (grammar.filledTable method).action? state terminal =
      Action.settled (grammar.claimed method state terminal) := by
  by_cases bound : state < grammar.automaton.stateCount
  · exact cell_fillCells (grammar.claims method) Action.claim bound listed
      fun claim => listed_of_mem_claims
  · have nothing : grammar.claimed method state terminal = [] := by
      rw [List.eq_nil_iff_forall_not_mem]
      intro action member
      rcases mem_claimed.mp member with ⟨_, edge, _⟩ | ⟨_, reduces, _⟩
      · rw [goto?_eq_none_of_not_lt bound] at edge
        cases edge
      · exact bound (lt_stateCount_of_mem (mem_completed_iff.mp reduces.completed).1)
    rw [nothing, Table.action?, filledTable, getElem?_fillCells_of_not_lt bound]
    rfl

omit [DecidableEq T] [DecidableEq N] in
/-- Where all values that are written are the same, it is held in the end. -/
private theorem foldl_overwrite {α : Type} {values : List α} {held : Option α}
    (single : ∀ value, value ∈ values ↔ held = some value) :
    values.foldl (fun _ value => some value) none = held := by
  cases values using List.reverseRecOn with
  | nil =>
      symm
      rw [List.foldl_nil, Option.eq_none_iff_forall_ne_some]
      exact fun value same => List.not_mem_nil ((single value).mpr same)
  | append_singleton earlier last =>
      rw [List.foldl_append, List.foldl_cons, List.foldl_nil, (single last).mp (by simp)]

private theorem mem_gotoClaims {nonterminal : N} {target : Nat} :
    (nonterminal, target) ∈ grammar.gotoClaims state ↔
      grammar.automaton.goto? state (.nonterminal nonterminal) = some target := by
  simp only [gotoClaims, List.mem_filterMap]
  constructor
  · rintro ⟨⟨symbol, place⟩, transition, made⟩
    cases symbol with
    | terminal letter => cases made
    | nonterminal letter =>
        cases made
        exact mem_transitions_iff.mp transition
  · intro edge
    exact ⟨_, mem_transitions_iff.mpr edge, rfl⟩

private theorem goto?_filledTable {nonterminal : N}
    (listed : grammar.vocabulary.nonterminals.Lists nonterminal) :
    (grammar.filledTable method).goto? state nonterminal =
      grammar.automaton.goto? state (.nonterminal nonterminal) := by
  by_cases bound : state < grammar.automaton.stateCount
  · have cell := cell_fillCells grammar.gotoClaims (fun target _ => some target) bound listed (by
      rintro ⟨letter, target⟩ member
      obtain ⟨item, _, expects⟩ := (goto?_eq_some_iff.mp (mem_gotoClaims.mp member)).1
      exact (listed_of_next? expects).1)
    refine Eq.trans cell (foldl_overwrite fun target => ?_)
    simp [mem_gotoClaims]
  · rw [Table.goto?, filledTable, getElem?_fillCells_of_not_lt bound, goto?_eq_none_of_not_lt bound]
    rfl

/-- Reductions are written in the order of their rules, since completed items are listed so. -/
private theorem pairwise_claims :
    (grammar.claims method state).Pairwise fun earlier later =>
      ∀ lower ∈ earlier.2.rule?, ∀ upper ∈ later.2.rule?, lower ≤ upper := by
  have shiftsNothing : ∀ claim ∈ (grammar.automaton.transitions state).filterMap
      (fun (symbol, target) => symbol.terminal?.map fun terminal =>
        (terminal, Action.shift target)), claim.2.rule? = none := by
    intro claim member
    obtain ⟨⟨symbol, target⟩, _, made⟩ := List.mem_filterMap.mp member
    obtain ⟨terminal, _, rfl⟩ := Option.map_eq_some_iff.mp made
    rfl
  have ruleOf : ∀ item : Item, ∀ id ∈ (grammar.completion item).rule?, item.rule = id :=
    fun item id reduced =>
      (completion_eq_reduce_iff.mp (Action.rule?_eq_some_iff.mp reduced)).2
  refine List.pairwise_append.mpr ⟨?_, List.pairwise_flatMap.mpr ⟨fun item _ => ?_, ?_⟩, ?_⟩
  · apply List.pairwise_of_forall_mem_list
    intro earlier member later _ lower reduced
    rw [shiftsNothing earlier member] at reduced
    cases reduced
  · apply List.pairwise_map.mpr
    apply List.pairwise_of_forall
    intro _ _ lower reducedLower upper reducedUpper
    rw [← ruleOf item lower reducedLower, ← ruleOf item upper reducedUpper]
  · apply pairwise_completed.imp
    intro lowerItem upperItem below earlier isEarlier later isLater lower reducedLower upper
      reducedUpper
    obtain ⟨_, _, rfl⟩ := List.mem_map.mp isEarlier
    obtain ⟨_, _, rfl⟩ := List.mem_map.mp isLater
    rwa [← ruleOf lowerItem lower reducedLower, ← ruleOf upperItem upper reducedUpper]
  · intro earlier member later _ lower reduced
    rw [shiftsNothing earlier member] at reduced
    cases reduced

theorem prioritizes_filledTable : grammar.Prioritizes method (grammar.filledTable method) := by
  apply prioritizes_of_cells fun state terminal =>
    (grammar.claimed method state terminal).filterMap Action.rule?
  · intro state terminal listed
    rw [action?_filledTable listed]
    cases edge : grammar.automaton.goto? state (.terminal terminal) with
    | some target =>
        apply Action.settled_eq_shift (shift_mem_claimed.mpr edge)
        intro other member
        exact Option.some.inj ((shift_mem_claimed.mp member).symm.trans edge)
    | none =>
        have unshifted : ∀ target, .shift target ∉ grammar.claimed method state terminal := by
          intro target member
          rw [shift_mem_claimed, edge] at member
          cases member
        simp only
        split
        · next ends => exact Action.settled_eq_accept (accept_mem_claimed.mpr ends) unshifted
        · next unended =>
            apply Action.settled_eq_reduce
            intro action member
            cases action with
            | shift target => exact absurd member (unshifted target)
            | accept => exact absurd (accept_mem_claimed.mp member) unended
            | reduce id => exact ⟨id, rfl⟩
  · intro state terminal
    apply List.pairwise_filterMap.mpr
    exact List.pairwise_map.mpr (pairwise_claims.filter _)
  · intro state terminal
    ext id
    simp [Action.rule?_eq_some_iff, reduce_mem_claimed]
  · intro state nonterminal listed
    exact goto?_filledTable listed

/-- Whatever conflicts a grammar has, a cell of its tables holds a shift where the automaton has a
transition, else acceptance where the accepting rule has been read before the end, and else the
reduction of the smallest rule that can be reduced. So it does when the cells are filled by one write
after the other. -/
theorem prioritizes (grammar : Grammar T N) (method : Method) :
    grammar.Prioritizes method (grammar.study.compiled method).table ∧
      grammar.Prioritizes method (grammar.filledTable method) := by
  rw [table_study]
  exact ⟨prioritizes_driver, prioritizes_filledTable⟩

end Grammar

end ShiftReduce
