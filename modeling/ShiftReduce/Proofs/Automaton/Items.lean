import Mathlib.Data.List.Induction
import ShiftReduce.Proofs.Automaton.States

/-!
Contract: which items a state holds.

Owns: how the items of a state come about, be it at the start, by implication or by a transition;
`Valid`, the items that a string of symbols leads to by these three ways alone; and the agreement of
the two, by which the state that a string leads to holds exactly the valid items.
-/

namespace ShiftReduce

namespace Grammar

variable {T N : Type} [DecidableEq N] {grammar : Grammar T N}

/-- The items that have been worked on once the symbols have been read, as far as rules alone say.

An item of the accepting rule is valid at the start; with an item, the items that it implies are
valid; and reading the symbol that a valid item expects makes its successor valid. -/
inductive Valid (grammar : Grammar T N) : List (Symbol T N) → Item → Prop where
  | start : Valid grammar [] grammar.startItem
  | implied {access : List (Symbol T N)} {item new : Item} (valid : Valid grammar access item)
      (implied : new ∈ grammar.implied item) : Valid grammar access new
  | advance {access : List (Symbol T N)} {item : Item} {symbol : Symbol T N}
      (valid : Valid grammar access item) (expects : item.next? grammar = some symbol) :
      Valid grammar (access ++ [symbol]) item.advance

theorem Valid.fits {access : List (Symbol T N)} {item : Item}
    (valid : grammar.Valid access item) : item ∈ grammar.allItems := by
  cases valid with
  | start => exact startItem_mem_allItems
  | implied _ implied => exact implied_subset_allItems implied
  | advance _ expects => exact advance_mem_allItems expects

variable [DecidableEq T]

/-! ## Items of one state -/

theorem mem_items_zero {item : Item} :
    item ∈ grammar.automaton.items 0 ↔
      Exploration.Reachable grammar.implied [grammar.startItem] item := by
  rw [items_zero, startItems, mem_closure_iff]

theorem mem_items_target {state target : Nat} {symbol : Symbol T N}
    (edge : grammar.automaton.goto? state symbol = some target) {item : Item} :
    item ∈ grammar.automaton.items target ↔
      Exploration.Reachable grammar.implied
        (grammar.carried (grammar.automaton.items state) symbol) item := by
  rw [(goto?_eq_some_iff.mp edge).2.2, goto_eq_closure_carried, mem_closure_iff]

/-- The items of a state are the closure of seeds that belong to its kernel. -/
theorem exists_items_eq_closure {state : Nat} (bound : state < grammar.automaton.stateCount) :
    ∃ seeds : List Item, grammar.automaton.items state = grammar.closure seeds ∧
      ∀ seed ∈ seeds, seed.isKernel grammar = true ∧ seed ∈ grammar.allItems := by
  by_cases isStart : state = 0
  · refine ⟨[grammar.startItem], by rw [isStart, items_zero, startItems], fun seed isSeed => ?_⟩
    rw [List.mem_singleton.mp isSeed]
    exact ⟨by simp [Item.isKernel, Item.isAccepting, startItem], startItem_mem_allItems⟩
  · obtain ⟨source, symbol, edge⟩ := exists_goto?_eq bound isStart
    exact ⟨_, (goto?_eq_some_iff.mp edge).2.2, fun seed isSeed =>
      ⟨isKernel_of_mem_carried isSeed, carried_subset_allItems isSeed⟩⟩

theorem items_subset_allItems {state : Nat} {item : Item}
    (member : item ∈ grammar.automaton.items state) : item ∈ grammar.allItems := by
  obtain ⟨seeds, equal, fit⟩ := exists_items_eq_closure (lt_stateCount_of_mem member)
  rw [equal] at member
  exact closure_subset_allItems (fun seed isSeed => (fit seed isSeed).2) member

theorem closure_kernel {state : Nat} (bound : state < grammar.automaton.stateCount) :
    grammar.closure (grammar.automaton.kernel grammar state) =
      grammar.automaton.items state := by
  obtain ⟨seeds, equal, fit⟩ := exists_items_eq_closure bound
  rw [Automaton.kernel, equal]
  exact closure_filter_isKernel fun seed isSeed => (fit seed isSeed).1

theorem startItem_mem_kernel :
    grammar.startItem ∈ grammar.automaton.kernel grammar 0 :=
  List.mem_filter.mpr ⟨mem_items_zero.mpr (.seed List.mem_cons_self),
    by simp [Item.isKernel, Item.isAccepting, startItem]⟩

theorem items_of_implied {state : Nat} {item new : Item}
    (member : item ∈ grammar.automaton.items state) (implied : new ∈ grammar.implied item) :
    new ∈ grammar.automaton.items state := by
  obtain ⟨seeds, equal, _⟩ := exists_items_eq_closure (lt_stateCount_of_mem member)
  rw [equal] at member ⊢
  exact closure_of_implied member implied

theorem items_of_advance {state target : Nat} {symbol : Symbol T N}
    (edge : grammar.automaton.goto? state symbol = some target) {item : Item}
    (member : item ∈ grammar.automaton.items state) (expects : item.next? grammar = some symbol) :
    item.advance ∈ grammar.automaton.items target :=
  (mem_items_target edge).mpr (.seed (mem_carried.mpr ⟨item, member, expects, rfl⟩))

/-- An item in which something has been read was carried into its state. -/
theorem exists_of_marker_pos {state target : Nat} {symbol : Symbol T N}
    (edge : grammar.automaton.goto? state symbol = some target) {item : Item}
    (member : item ∈ grammar.automaton.items target) (hasRead : 0 < item.marker) :
    ∃ source ∈ grammar.automaton.items state,
      source.next? grammar = some symbol ∧ source.advance = item := by
  have kernel : item.isKernel grammar = true := by simp [Item.isKernel, hasRead]
  rw [(goto?_eq_some_iff.mp edge).2.2, goto_eq_closure_carried] at member
  exact mem_carried.mp (mem_of_isKernel_of_mem_closure member kernel)

theorem marker_eq_zero_of_mem_items_zero {item : Item}
    (member : item ∈ grammar.automaton.items 0) : item.marker = 0 := by
  rw [items_zero, startItems] at member
  rcases closure_cases member with isSeed | ⟨source, _, implied⟩
  · rw [List.mem_singleton.mp isSeed]
    rfl
  · obtain ⟨nonterminal, _, initial⟩ := mem_implied.mp implied
    exact (mem_initialItems.mp initial).1

/-- No transition leads to the start state. -/
theorem goto?_ne_zero {state : Nat} {symbol : Symbol T N} :
    grammar.automaton.goto? state symbol ≠ some 0 := by
  intro edge
  obtain ⟨item, member, expects⟩ := (goto?_eq_some_iff.mp edge).1
  have advanced := items_of_advance edge member expects
  have markerZero := marker_eq_zero_of_mem_items_zero advanced
  exact Nat.succ_ne_zero _ markerZero

/-- An item in which nothing has been read is the start item in the start state, or some item of its
state implies it. -/
theorem exists_of_marker_zero {state : Nat} {item : Item}
    (member : item ∈ grammar.automaton.items state) (unread : item.marker = 0) :
    (state = 0 ∧ item = grammar.startItem) ∨
      ∃ source ∈ grammar.automaton.items state, item ∈ grammar.implied source := by
  by_cases isStart : state = 0
  · rw [isStart, items_zero, startItems] at member ⊢
    exact (closure_cases member).imp (fun isSeed => ⟨rfl, List.mem_singleton.mp isSeed⟩) id
  · obtain ⟨source, symbol, edge⟩ := exists_goto?_eq (lt_stateCount_of_mem member) isStart
    rw [(goto?_eq_some_iff.mp edge).2.2, goto_eq_closure_carried] at member ⊢
    rcases closure_cases member with isSeed | isImplied
    · obtain ⟨before, _, _, rfl⟩ := mem_carried.mp isSeed
      exact absurd unread (Nat.succ_ne_zero _)
    · exact .inr isImplied

/-! ## Items along walks -/

theorem walk_concat {state : Nat} {access : List (Symbol T N)} {symbol : Symbol T N} :
    grammar.automaton.walk state (access ++ [symbol]) =
      (grammar.automaton.walk state access).bind fun middle =>
        grammar.automaton.goto? middle symbol := by
  rw [Automaton.walk_append]
  simp [Automaton.walk]

/-- A walk goes on with a transition. -/
theorem walk_concat_of_goto? {state middle target : Nat} {access : List (Symbol T N)}
    {symbol : Symbol T N} (walked : grammar.automaton.walk state access = some middle)
    (edge : grammar.automaton.goto? middle symbol = some target) :
    grammar.automaton.walk state (access ++ [symbol]) = some target := by
  rw [walk_concat, walked]
  show grammar.automaton.goto? middle symbol = some target
  exact edge

theorem Valid.exists_walk {access : List (Symbol T N)} {item : Item}
    (valid : grammar.Valid access item) :
    ∃ state, grammar.automaton.walk 0 access = some state ∧
      item ∈ grammar.automaton.items state := by
  induction valid with
  | start => exact ⟨0, rfl, mem_items_zero.mpr (.seed List.mem_cons_self)⟩
  | implied _ implied inductionHypothesis =>
      rcases inductionHypothesis with ⟨state, walked, member⟩
      exact ⟨state, walked, items_of_implied member implied⟩
  | advance _ expects inductionHypothesis =>
      rcases inductionHypothesis with ⟨state, walked, member⟩
      obtain ⟨target, edge⟩ := exists_goto? member expects
      exact ⟨target, walk_concat_of_goto? walked edge, items_of_advance edge member expects⟩

/-- The induction is on the string from its end; within a state it is on how the closure came
about. -/
theorem valid_of_walk {access : List (Symbol T N)} {state : Nat}
    (walked : grammar.automaton.walk 0 access = some state) {item : Item}
    (member : item ∈ grammar.automaton.items state) : grammar.Valid access item := by
  induction access using List.reverseRecOn generalizing state item with
  | nil =>
      cases walked
      have reached := mem_items_zero.mp member
      induction reached with
      | seed isSeed => exact List.mem_singleton.mp isSeed ▸ .start
      | step reached implied inductionHypothesis =>
          exact .implied (inductionHypothesis (mem_items_zero.mpr reached)) implied
  | append_singleton before symbol inductionHypothesis =>
      rw [walk_concat] at walked
      obtain ⟨middle, walkedBefore, edge⟩ := Option.bind_eq_some_iff.mp walked
      have reached := (mem_items_target edge).mp member
      induction reached with
      | seed isSeed =>
          obtain ⟨source, sourceMember, expects, rfl⟩ := mem_carried.mp isSeed
          exact .advance (inductionHypothesis walkedBefore sourceMember) expects
      | step reached implied insideHypothesis =>
          exact .implied (insideHypothesis ((mem_items_target edge).mpr reached)) implied

/-- A string leads to the state of its valid items. -/
theorem valid_iff_of_walk {access : List (Symbol T N)} {state : Nat}
    (walked : grammar.automaton.walk 0 access = some state) {item : Item} :
    grammar.Valid access item ↔ item ∈ grammar.automaton.items state := by
  refine ⟨fun valid => ?_, valid_of_walk walked⟩
  obtain ⟨other, otherWalked, member⟩ := valid.exists_walk
  rw [walked] at otherWalked
  cases otherWalked
  exact member

/-- Every state is the end of some walk from the start. -/
theorem exists_walk {state : Nat} (bound : state < grammar.automaton.stateCount) :
    ∃ access, grammar.automaton.walk 0 access = some state := by
  have reached := mem_itemSets_iff.mp (items_mem_itemSets bound)
  generalize same : grammar.automaton.items state = items at reached
  induction reached generalizing state with
  | seed isSeed =>
      rw [List.mem_singleton.mp isSeed, ← items_zero] at same
      exact ⟨[], by rw [items_injective bound stateCount_pos same]; rfl⟩
  | step reached leads inductionHypothesis =>
      obtain ⟨symbol, expected, rfl⟩ := mem_successors.mp leads
      obtain ⟨source, sourceBound, sourceItems⟩ :=
        exists_state_of_mem (mem_itemSets_iff.mpr reached)
      obtain ⟨access, walked⟩ := inductionHypothesis sourceBound sourceItems
      have edge : grammar.automaton.goto? source symbol = some state :=
        goto?_eq_some_iff.mpr ⟨by rwa [sourceItems], bound, by rw [sourceItems, same]⟩
      exact ⟨access ++ [symbol], walk_concat_of_goto? walked edge⟩

end Grammar

end ShiftReduce
