import Mathlib.Data.Finset.Prod
import ShiftReduce.Proofs.Lookahead.Spread

/-!
Contract: tables of lookaheads with one entry for an item.

Owns: entering lookaheads for an item in a table that is kept in the order of items; what is in the
table afterwards; and `facts`, by which it is seen that a table in which something is new is larger.
-/

namespace ShiftReduce

namespace LookaheadTable

variable {T : Type} {table : LookaheadTable T} {item other : Item} {lookahead : Lookahead T}

theorem lookaheads_cons (entry : Item × List (Lookahead T)) (rest : LookaheadTable T)
    (item : Item) :
    lookaheads (entry :: rest) item =
      (if entry.1 = item then entry.2 else []) ++ lookaheads rest item :=
  List.flatMap_cons

theorem not_mem_of_lt {keys : List Item} (below : ∀ key ∈ keys, Item.order item key = .lt) :
    item ∉ keys := by
  intro member
  have impossible := below item member
  rw [show Item.order item item = .eq from Std.ReflCmp.compare_self] at impossible
  cases impossible

theorem lookaheads_eq_nil (absent : item ∉ table.map Prod.fst) : table.lookaheads item = [] := by
  rw [List.eq_nil_iff_forall_not_mem]
  intro lookahead given
  obtain ⟨entry, member, rfl, _⟩ := mem_lookaheads.mp given
  exact absent (List.mem_map_of_mem member)

variable [DecidableEq T] {batch : List (Lookahead T)}

/-- The table in which the item has the batch too, each lookahead once. An item without an entry
gets one in its place. -/
def enter (item : Item) (batch : List (Lookahead T)) : LookaheadTable T → LookaheadTable T
  | [] => [(item, Exploration.addFresh [] batch)]
  | (other, known) :: rest =>
      match Item.order item other with
      | .lt => (item, Exploration.addFresh [] batch) :: (other, known) :: rest
      | .eq => (other, Exploration.addFresh known batch) :: rest
      | .gt => (other, known) :: enter item batch rest

theorem map_fst_enter (item : Item) (batch : List (Lookahead T)) (table : LookaheadTable T) :
    (table.enter item batch).map Prod.fst =
      Ascending.insert Item.order item (table.map Prod.fst) := by
  induction table with
  | nil => rfl
  | cons entry rest inductionHypothesis =>
      rw [enter, List.map_cons, Ascending.insert]
      cases Item.order item entry.1 with
      | lt => rfl
      | eq => rfl
      | gt => exact congrArg (entry.1 :: ·) inductionHypothesis

theorem mem_map_fst_enter :
    other ∈ (table.enter item batch).map Prod.fst ↔ other = item ∨ other ∈ table.map Prod.fst := by
  rw [map_fst_enter, Ascending.mem_insert]

theorem lookaheads_enter_of_ne (differs : other ≠ item) :
    (table.enter item batch).lookaheads other = table.lookaheads other := by
  induction table with
  | nil =>
      rw [enter, lookaheads_cons, if_neg differs.symm]
      rfl
  | cons entry rest inductionHypothesis =>
      rw [enter]
      cases compared : Item.order item entry.1 with
      | lt =>
          dsimp only
          rw [lookaheads_cons, if_neg differs.symm]
          rfl
      | eq =>
          dsimp only
          have same : item = entry.1 := Std.LawfulEqCmp.eq_of_compare compared
          rw [lookaheads_cons, lookaheads_cons, ← same, if_neg differs.symm, if_neg differs.symm]
      | gt =>
          dsimp only
          rw [lookaheads_cons, inductionHypothesis, lookaheads_cons]

theorem lookaheads_enter_self
    (ascending : Ascending.IsAscending Item.order (table.map Prod.fst)) :
    (table.enter item batch).lookaheads item =
      Exploration.addFresh (table.lookaheads item) batch := by
  induction table with
  | nil =>
      rw [enter, lookaheads_cons, if_pos rfl]
      exact List.append_nil _
  | cons entry rest inductionHypothesis =>
      obtain ⟨below, restAscending⟩ := List.pairwise_cons.mp ascending
      rw [enter]
      cases compared : Item.order item entry.1 with
      | lt =>
          dsimp only
          have absent : item ∉ (entry :: rest).map Prod.fst := by
            apply not_mem_of_lt
            exact List.forall_mem_cons.mpr ⟨compared, fun key member =>
              Std.TransCmp.lt_trans compared (below key member)⟩
          rw [lookaheads_cons, if_pos rfl, lookaheads_eq_nil absent]
          exact List.append_nil _
      | eq =>
          dsimp only
          have same : item = entry.1 := Std.LawfulEqCmp.eq_of_compare compared
          have absent : item ∉ rest.map Prod.fst := not_mem_of_lt (same ▸ below)
          rw [lookaheads_cons, lookaheads_cons, if_pos same.symm, if_pos same.symm,
            lookaheads_eq_nil absent, List.append_nil, List.append_nil]
      | gt =>
          dsimp only
          have differs : entry.1 ≠ item := by
            intro same
            rw [← same, show Item.order entry.1 entry.1 = .eq from Std.ReflCmp.compare_self]
              at compared
            cases compared
          rw [lookaheads_cons, lookaheads_cons, if_neg differs, List.nil_append, List.nil_append]
          exact inductionHypothesis restAscending

theorem mem_lookaheads_enter (ascending : Ascending.IsAscending Item.order (table.map Prod.fst)) :
    lookahead ∈ (table.enter item batch).lookaheads other ↔
      lookahead ∈ table.lookaheads other ∨ other = item ∧ lookahead ∈ batch := by
  by_cases same : other = item
  · rw [same, lookaheads_enter_self ascending, Exploration.mem_addFresh, and_iff_right rfl]
  · rw [lookaheads_enter_of_ne same]
    simp [same]

/-! ## What there is in a table -/

/-- The items of a table, and the items with each of their lookaheads. -/
def facts (table : LookaheadTable T) : Finset (Item × Option (Lookahead T)) :=
  (table.flatMap fun (item, known) =>
    (item, none) :: known.map fun lookahead => (item, some lookahead)).toFinset

@[simp]
theorem mem_facts_none : (item, none) ∈ table.facts ↔ item ∈ table.map Prod.fst := by
  simp [facts]

@[simp]
theorem mem_facts_some :
    (item, some lookahead) ∈ table.facts ↔ lookahead ∈ table.lookaheads item := by
  simp [facts, mem_lookaheads]

theorem facts_subset_enter (ascending : Ascending.IsAscending Item.order (table.map Prod.fst)) :
    table.facts ⊆ (table.enter item batch).facts := by
  rintro ⟨other, _ | lookahead⟩ member
  · rw [mem_facts_none] at member ⊢
    exact mem_map_fst_enter.mpr (.inr member)
  · rw [mem_facts_some] at member ⊢
    exact (mem_lookaheads_enter ascending).mpr (.inl member)

/-- A new item is a new fact, and so is a new lookahead. -/
theorem card_facts_lt_enter (ascending : Ascending.IsAscending Item.order (table.map Prod.fst))
    (learns : item ∉ table.map Prod.fst ∨
      ∃ lookahead ∈ batch, lookahead ∉ table.lookaheads item) :
    table.facts.card < (table.enter item batch).facts.card := by
  apply Finset.card_lt_card
  rw [Finset.ssubset_iff_of_subset (facts_subset_enter ascending)]
  rcases learns with isNew | ⟨lookahead, member, isNew⟩
  · refine ⟨(item, none), ?_, mt mem_facts_none.mp isNew⟩
    exact mem_facts_none.mpr (mem_map_fst_enter.mpr (.inl rfl))
  · refine ⟨(item, some lookahead), ?_, mt mem_facts_some.mp isNew⟩
    exact mem_facts_some.mpr ((mem_lookaheads_enter ascending).mpr (.inr ⟨rfl, member⟩))

end LookaheadTable

end ShiftReduce
