import ShiftReduce.Proofs.Exploration
import ShiftReduce.Proofs.Lookahead.Entries

/-!
Contract: lookaheads spread by visits to items, again and again as these learn more.

Owns: `Agenda`, a table with the queue of the items to be visited; `Finishes`, by which visits go on
until the queue is empty; and the facts that they do come to an end, with the closure of the seeds
and all that `Spreads` to its items.

A visit never takes anything away, and an item that it teaches nothing new is left out of the queue.
So every item of the table is waiting or has handed on what it offers, and since each place in the
queue is paid for with something new in the table, of which there can only be so much, the queue
runs out.
-/

namespace ShiftReduce

/-- Items with the lookaheads they are known to have, and the items to be visited. -/
structure Agenda (T : Type) where
  table : LookaheadTable T
  queue : List Item
  ascending : Ascending.IsAscending Item.order (table.map Prod.fst)

namespace Agenda

variable {T N : Type} [DecidableEq T] [DecidableEq N]

/-- Nothing is known and there is nothing to be visited. -/
def empty : Agenda T := { table := [], queue := [], ascending := .nil }

def enter (agenda : Agenda T) (item : Item) (batch : List (Lookahead T)) : Agenda T where
  table := agenda.table.enter item batch
  queue := agenda.queue
  ascending := by
    rw [LookaheadTable.map_fst_enter]
    exact Ascending.isAscending_insert agenda.ascending

def push (agenda : Agenda T) (item : Item) : Agenda T :=
  { agenda with queue := agenda.queue ++ [item] }

/-- Enters the batch. The item is to be visited if it is new or gets more lookaheads. -/
def inform (batch : List (Lookahead T)) (agenda : Agenda T) (item : Item) : Agenda T :=
  let entered := agenda.enter item batch
  if item ∉ agenda.table.map Prod.fst ∨
      (entered.table.lookaheads item).length ≠ (agenda.table.lookaheads item).length then
    entered.push item
  else entered

/-- The item hands on what it offers to the initial items of the nonterminal that it expects. -/
def visit (grammar : Grammar T N) (agenda : Agenda T) (item : Item) : Agenda T :=
  match grammar.offer grammar.firstFollow agenda.table item with
  | some (expected, batch) => (grammar.initialItems expected).foldl (inform batch) agenda
  | none => agenda

/-- Enters seeds, each of which is to be visited. -/
def load (agenda : Agenda T) (seeds : LookaheadTable T) : Agenda T :=
  seeds.foldl (fun agenda seed => (agenda.enter seed.1 seed.2).push seed.1) agenda

/-- Visiting the items of the queue from the front, until none is left, ends with the table. -/
inductive Finishes (grammar : Grammar T N) : Agenda T → LookaheadTable T → Prop where
  | done {agenda : Agenda T} (idle : agenda.queue = []) : Finishes grammar agenda agenda.table
  | visit {agenda : Agenda T} {table : LookaheadTable T} {item : Item} {rest : List Item}
      (waiting : agenda.queue = item :: rest)
      (finishes : Finishes grammar ({ agenda with queue := rest }.visit grammar item) table) :
      Finishes grammar agenda table

variable {grammar : Grammar T N} {agenda before between after : Agenda T}
  {table : LookaheadTable T} {batch : List (Lookahead T)} {item : Item} {seeds : LookaheadTable T}

theorem Finishes.unique {other : LookaheadTable T} (finishes : agenda.Finishes grammar table)
    (finishesOther : agenda.Finishes grammar other) : table = other := by
  induction finishes with
  | done idle =>
      cases finishesOther with
      | done => rfl
      | visit waiting =>
          rw [idle] at waiting
          cases waiting
  | visit waiting _ inductionHypothesis =>
      cases finishesOther with
      | done idle =>
          rw [idle] at waiting
          cases waiting
      | visit otherWaiting finishesOther =>
          rw [waiting] at otherWaiting
          cases otherWaiting
          exact inductionHypothesis finishesOther

/-! ## One item -/

/-- The item is new, or something in the batch is new to it. -/
def Learns (agenda : Agenda T) (batch : List (Lookahead T)) (item : Item) : Prop :=
  item ∉ agenda.table.map Prod.fst ∨ ∃ lookahead ∈ batch, lookahead ∉ agenda.table.lookaheads item

theorem lookaheads_enter_of_not_learns (learnt : ¬agenda.Learns batch item) :
    (agenda.enter item batch).table.lookaheads item = agenda.table.lookaheads item := by
  have known : ∀ lookahead ∈ batch, lookahead ∈ agenda.table.lookaheads item := by
    intro lookahead member
    by_contra unknown
    exact learnt (.inr ⟨lookahead, member, unknown⟩)
  rw [enter, LookaheadTable.lookaheads_enter_self agenda.ascending,
    Exploration.addFresh_eq_self known]

/-- What an item learns can be counted. -/
theorem learns_iff :
    agenda.Learns batch item ↔ item ∉ agenda.table.map Prod.fst ∨
      ((agenda.enter item batch).table.lookaheads item).length ≠
        (agenda.table.lookaheads item).length := by
  constructor
  · intro learns
    by_contra neither
    obtain ⟨old, sameLength⟩ := not_or.mp neither
    rcases learns with isNew | ⟨lookahead, member, isNew⟩
    · exact old isNew
    · have entered : (agenda.enter item batch).table.lookaheads item =
          Exploration.addFresh (agenda.table.lookaheads item) batch :=
        LookaheadTable.lookaheads_enter_self agenda.ascending
      rw [not_not, entered] at sameLength
      have kept := (Exploration.prefix_addFresh _ batch).eq_of_length sameLength.symm
      apply isNew
      rw [kept]
      exact Exploration.mem_addFresh.mpr (.inr member)
  · intro counted
    by_contra learnt
    rcases counted with isNew | longer
    · exact learnt (.inl isNew)
    · exact longer (congrArg List.length (lookaheads_enter_of_not_learns learnt))

theorem inform_of_learns (learns : agenda.Learns batch item) :
    agenda.inform batch item = (agenda.enter item batch).push item := by
  rw [inform, if_pos (learns_iff.mp learns)]

theorem inform_of_not_learns (learnt : ¬agenda.Learns batch item) :
    agenda.inform batch item = agenda.enter item batch := by
  rw [inform, if_neg (mt learns_iff.mpr learnt)]

theorem table_inform : (agenda.inform batch item).table = agenda.table.enter item batch := by
  by_cases learns : agenda.Learns batch item
  · rw [inform_of_learns learns]
    rfl
  · rw [inform_of_not_learns learns]
    rfl

/-- Whoever learns something is put into the queue, and nobody else. -/
theorem mem_queue_inform {waiting : Item} :
    waiting ∈ (agenda.inform batch item).queue ↔
      waiting ∈ agenda.queue ∨ waiting = item ∧ agenda.Learns batch item := by
  by_cases learns : agenda.Learns batch item
  · rw [inform_of_learns learns, and_iff_left learns, push, List.mem_append, List.mem_singleton]
    rfl
  · rw [inform_of_not_learns learns]
    exact (or_iff_left fun learnt => learns learnt.2).symm

/-! ## What visits change -/

/-- Nothing is taken away, whatever is new or has learnt something is in the queue, and each place
in the queue is paid for with something new in the table. -/
structure Grows (before after : Agenda T) : Prop where
  keeps_item : ∀ item ∈ before.table.map Prod.fst, item ∈ after.table.map Prod.fst
  keeps_lookahead : ∀ item, ∀ lookahead ∈ before.table.lookaheads item,
    lookahead ∈ after.table.lookaheads item
  keeps_place : ∀ item ∈ before.queue, item ∈ after.queue
  takes_place : ∀ item ∈ after.queue, item ∈ before.queue ∨ item ∈ after.table.map Prod.fst
  waits_if_new : ∀ item ∈ after.table.map Prod.fst,
    item ∈ before.table.map Prod.fst ∨ item ∈ after.queue
  waits_if_taught : ∀ item, after.table.lookaheads item = before.table.lookaheads item ∨
    item ∈ after.queue
  pays : after.queue.length + before.table.facts.card ≤
    before.queue.length + after.table.facts.card

theorem Grows.refl (agenda : Agenda T) : agenda.Grows agenda where
  keeps_item _ member := member
  keeps_lookahead _ _ known := known
  keeps_place _ waits := waits
  takes_place _ waits := .inl waits
  waits_if_new _ member := .inl member
  waits_if_taught _ := .inl rfl
  pays := Nat.le_refl _

theorem Grows.trans (first : before.Grows between) (second : between.Grows after) :
    before.Grows after where
  keeps_item item member := second.keeps_item item (first.keeps_item item member)
  keeps_lookahead item lookahead known :=
    second.keeps_lookahead item lookahead (first.keeps_lookahead item lookahead known)
  keeps_place item waits := second.keeps_place item (first.keeps_place item waits)
  takes_place item waits := by
    rcases second.takes_place item waits with waited | member
    · exact (first.takes_place item waited).imp_right (second.keeps_item item)
    · exact .inr member
  waits_if_new item member := by
    rcases second.waits_if_new item member with member | waits
    · exact (first.waits_if_new item member).imp_right (second.keeps_place item)
    · exact .inr waits
  waits_if_taught item := by
    rcases second.waits_if_taught item with same | waits
    · exact (first.waits_if_taught item).imp same.trans (second.keeps_place item)
    · exact .inr waits
  pays := by
    have := first.pays
    have := second.pays
    omega

theorem grows_inform (agenda : Agenda T) (batch : List (Lookahead T)) (item : Item) :
    agenda.Grows (agenda.inform batch item) where
  keeps_item other member := by
    rw [table_inform]
    exact LookaheadTable.mem_map_fst_enter.mpr (.inr member)
  keeps_lookahead other lookahead known := by
    rw [table_inform]
    exact (LookaheadTable.mem_lookaheads_enter agenda.ascending).mpr (.inl known)
  keeps_place other waits := mem_queue_inform.mpr (.inl waits)
  takes_place other waits := by
    rw [table_inform, LookaheadTable.mem_map_fst_enter]
    exact (mem_queue_inform.mp waits).imp_right fun learns => .inl learns.1
  waits_if_new other member := by
    rw [table_inform, LookaheadTable.mem_map_fst_enter] at member
    by_cases old : other ∈ agenda.table.map Prod.fst
    · exact .inl old
    · have isItem : other = item := member.resolve_right old
      exact .inr (mem_queue_inform.mpr (.inr ⟨isItem, .inl (isItem ▸ old)⟩))
  waits_if_taught other := by
    by_cases isTaught : other = item ∧ agenda.Learns batch item
    · exact .inr (mem_queue_inform.mpr (.inr isTaught))
    · rw [table_inform]
      by_cases same : other = item
      · subst same
        exact .inl (lookaheads_enter_of_not_learns fun learns => isTaught ⟨rfl, learns⟩)
      · exact .inl (LookaheadTable.lookaheads_enter_of_ne same)
  pays := by
    rw [table_inform]
    by_cases learns : agenda.Learns batch item
    · have more := LookaheadTable.card_facts_lt_enter agenda.ascending learns
      rw [inform_of_learns learns, push, List.length_append, List.length_singleton]
      change agenda.queue.length + 1 + _ ≤ _
      omega
    · have noFewer : agenda.table.facts.card ≤ (agenda.table.enter item batch).facts.card :=
        Finset.card_le_card (LookaheadTable.facts_subset_enter agenda.ascending)
      rw [inform_of_not_learns learns]
      exact Nat.add_le_add_left noFewer _

theorem grows_foldl_inform (agenda : Agenda T) (batch : List (Lookahead T)) (items : List Item) :
    agenda.Grows (items.foldl (inform batch) agenda) := by
  induction items generalizing agenda with
  | nil => exact .refl agenda
  | cons item rest inductionHypothesis =>
      exact (agenda.grows_inform batch item).trans (inductionHypothesis _)

theorem mem_map_fst_foldl_inform {items : List Item} {other : Item} :
    other ∈ (items.foldl (inform batch) agenda).table.map Prod.fst ↔
      other ∈ agenda.table.map Prod.fst ∨ other ∈ items := by
  induction items generalizing agenda with
  | nil => simp
  | cons item rest inductionHypothesis =>
      rw [List.foldl_cons, inductionHypothesis, table_inform, LookaheadTable.mem_map_fst_enter,
        List.mem_cons, or_assoc, or_left_comm]

theorem mem_lookaheads_foldl_inform {items : List Item} {other : Item} {lookahead : Lookahead T} :
    lookahead ∈ (items.foldl (inform batch) agenda).table.lookaheads other ↔
      lookahead ∈ agenda.table.lookaheads other ∨ other ∈ items ∧ lookahead ∈ batch := by
  induction items generalizing agenda with
  | nil => simp
  | cons item rest inductionHypothesis =>
      rw [List.foldl_cons, inductionHypothesis, table_inform,
        LookaheadTable.mem_lookaheads_enter agenda.ascending, List.mem_cons, or_assoc,
        ← or_and_right]

/-! ## Offers -/

/-- An item offers what can begin its rest and, if the rest vanishes, its own lookaheads. -/
def Offers (grammar : Grammar T N) (table : LookaheadTable T) (item : Item)
    (lookahead : Lookahead T) : Prop :=
  (∃ terminal, lookahead = .terminal terminal ∧ grammar.CanBegin (item.suffix grammar) terminal) ∨
    grammar.Derives (item.suffix grammar) [] ∧ lookahead ∈ table.lookaheads item

theorem mem_of_offer {expected : N}
    (offers : grammar.offer grammar.firstFollow table item = some (expected, batch)) :
    grammar.initialItems expected = grammar.implied item ∧
      ∀ lookahead, lookahead ∈ batch ↔ Offers grammar table item lookahead := by
  obtain ⟨expects, rfl⟩ := Grammar.mem_offer.mp offers
  obtain ⟨vanishes, begins⟩ := Grammar.firstOf_suffix expects
  constructor
  · rw [Grammar.implied, expects]
  · intro lookahead
    rw [List.mem_append, Offers]
    apply or_congr
    · simp only [List.mem_map, begins]
      exact exists_congr fun terminal => and_comm.trans (and_congr_left' eq_comm)
    · rw [← vanishes]
      split
      · next yes => exact (and_iff_right yes).symm
      · next no => simp [no]

/-- An item that makes no offer implies nothing. -/
theorem not_mem_implied_of_no_offer {new : Item}
    (nothing : grammar.offer grammar.firstFollow table item = none) :
    new ∉ grammar.implied item := by
  intro implied
  obtain ⟨expected, expects, _⟩ := Grammar.mem_implied.mp implied
  rw [Grammar.mem_offer.mpr ⟨expects, rfl⟩] at nothing
  cases nothing

/-! ## A visit -/

theorem visit_of_offer {expected : N}
    (offers : grammar.offer grammar.firstFollow agenda.table item = some (expected, batch)) :
    agenda.visit grammar item = (grammar.initialItems expected).foldl (inform batch) agenda := by
  rw [visit, offers]

theorem visit_of_no_offer (nothing : grammar.offer grammar.firstFollow agenda.table item = none) :
    agenda.visit grammar item = agenda := by
  rw [visit, nothing]

theorem grows_visit (grammar : Grammar T N) (agenda : Agenda T) (item : Item) :
    agenda.Grows (agenda.visit grammar item) := by
  cases offered : grammar.offer grammar.firstFollow agenda.table item with
  | none =>
      rw [visit_of_no_offer offered]
      exact .refl agenda
  | some offer =>
      rw [visit_of_offer offered]
      exact agenda.grows_foldl_inform _ _

theorem mem_map_fst_visit {new : Item} :
    new ∈ (agenda.visit grammar item).table.map Prod.fst ↔
      new ∈ agenda.table.map Prod.fst ∨ new ∈ grammar.implied item := by
  cases offers : grammar.offer grammar.firstFollow agenda.table item with
  | none => rw [visit_of_no_offer offers, or_iff_left (not_mem_implied_of_no_offer offers)]
  | some offer =>
      rw [visit_of_offer offers, mem_map_fst_foldl_inform, (mem_of_offer offers).1]

theorem mem_lookaheads_visit {new : Item} {lookahead : Lookahead T} :
    lookahead ∈ (agenda.visit grammar item).table.lookaheads new ↔
      lookahead ∈ agenda.table.lookaheads new ∨
        new ∈ grammar.implied item ∧ Offers grammar agenda.table item lookahead := by
  cases offers : grammar.offer grammar.firstFollow agenda.table item with
  | none =>
      have unimplied : new ∉ grammar.implied item := not_mem_implied_of_no_offer offers
      rw [visit_of_no_offer offers, or_iff_left fun arrives => unimplied arrives.1]
  | some offer =>
      obtain ⟨initial, offered⟩ := mem_of_offer offers
      rw [visit_of_offer offers, mem_lookaheads_foldl_inform, initial, offered]

/-- The items that the item implies are there, and what it offers them has arrived. -/
def HandsOn (grammar : Grammar T N) (table : LookaheadTable T) (item : Item) : Prop :=
  ∀ new ∈ grammar.implied item, new ∈ table.map Prod.fst ∧
    ∀ lookahead, Offers grammar table item lookahead → lookahead ∈ table.lookaheads new

omit [DecidableEq T] [DecidableEq N] in
theorem offers_congr {left right : LookaheadTable T} {lookahead : Lookahead T}
    (same : left.lookaheads item = right.lookaheads item) :
    Offers grammar left item lookahead ↔ Offers grammar right item lookahead := by
  rw [Offers, Offers, same]

/-- Unless it has to be visited again, an item that has handed on what it offers still has. -/
theorem Grows.handsOn (grows : before.Grows after) (handsOn : HandsOn grammar before.table item) :
    item ∈ after.queue ∨ HandsOn grammar after.table item := by
  rcases grows.waits_if_taught item with same | waits
  · right
    intro new implied
    obtain ⟨member, arrived⟩ := handsOn new implied
    refine ⟨grows.keeps_item new member, ?_⟩
    intro lookahead offered
    exact grows.keeps_lookahead new lookahead (arrived lookahead ((offers_congr same).mp offered))
  · exact .inl waits

/-- An item that implies itself may learn something from its own visit, and then it waits again. -/
theorem handsOn_visit (grammar : Grammar T N) (agenda : Agenda T) (item : Item) :
    item ∈ (agenda.visit grammar item).queue ∨
      HandsOn grammar (agenda.visit grammar item).table item := by
  rcases (agenda.grows_visit grammar item).waits_if_taught item with same | waits
  · right
    intro new implied
    refine ⟨mem_map_fst_visit.mpr (.inr implied), ?_⟩
    intro lookahead offered
    exact mem_lookaheads_visit.mpr (.inr ⟨implied, (offers_congr same).mp offered⟩)
  · exact .inl waits

/-! ## Visits one after the other -/

/-- The table holds the seeds and nothing that does not come of them, and each of its items is in
the queue or has handed on what it offers. -/
structure IsUnderway (grammar : Grammar T N) (seeds : LookaheadTable T) (agenda : Agenda T) :
    Prop where
  seeded : ∀ seed ∈ seeds.map Prod.fst, seed ∈ agenda.table.map Prod.fst
  given : ∀ item, ∀ lookahead ∈ seeds.lookaheads item, lookahead ∈ agenda.table.lookaheads item
  closed : ∀ item ∈ agenda.table.map Prod.fst, item ∈ grammar.closure (seeds.map Prod.fst)
  spreads : ∀ item, ∀ lookahead ∈ agenda.table.lookaheads item,
    grammar.Spreads seeds item lookahead
  listed : ∀ item ∈ agenda.queue, item ∈ agenda.table.map Prod.fst
  waits : ∀ item ∈ agenda.table.map Prod.fst,
    item ∈ agenda.queue ∨ HandsOn grammar agenda.table item

theorem IsUnderway.visit {rest : List Item} (underway : agenda.IsUnderway grammar seeds)
    (waiting : agenda.queue = item :: rest) :
    ({ agenda with queue := rest }.visit grammar item).IsUnderway grammar seeds := by
  have grows := grows_visit grammar { agenda with queue := rest } item
  have member : item ∈ grammar.closure (seeds.map Prod.fst) := by
    apply underway.closed item (underway.listed item _)
    rw [waiting]
    exact List.mem_cons_self
  refine {
    seeded := ?seeded
    given := ?given
    closed := ?closed
    spreads := ?spreads
    listed := ?listed
    waits := ?waits }
  case seeded => exact fun seed isSeed => grows.keeps_item seed (underway.seeded seed isSeed)
  case given =>
    exact fun other lookahead given =>
      grows.keeps_lookahead other lookahead (underway.given other lookahead given)
  case closed =>
    intro new isNew
    rcases mem_map_fst_visit.mp isNew with old | implied
    · exact underway.closed new old
    · exact Grammar.closure_of_implied member implied
  case spreads =>
    intro new lookahead known
    rcases mem_lookaheads_visit.mp known with old | ⟨implied, offered⟩
    · exact underway.spreads new lookahead old
    · rcases offered with ⟨terminal, rfl, begins⟩ | ⟨vanishes, own⟩
      · exact .opens member implied begins
      · exact .inherits (underway.spreads item lookahead own) implied vanishes
  case listed =>
    intro other waits
    rcases grows.takes_place other waits with waited | isListed
    · apply grows.keeps_item other (underway.listed other _)
      rw [waiting]
      exact List.mem_cons_of_mem _ waited
    · exact isListed
  case waits =>
    -- An item is new and waits, or it waited before, or it had handed on what it then offered. The
    -- visited item is the only one that no longer waits for its former visit.
    intro other isListed
    rcases grows.waits_if_new other isListed with old | waits
    · rcases underway.waits other old with waited | handsOn
      · rw [waiting] at waited
        rcases List.mem_cons.mp waited with rfl | later
        · exact handsOn_visit grammar _ other
        · exact .inl (grows.keeps_place other later)
      · exact grows.handsOn handsOn
    · exact .inl waits

/-- What holds of an agenda that is underway holds when the queue is empty. -/
theorem Finishes.exists_idle (finishes : agenda.Finishes grammar table)
    (underway : agenda.IsUnderway grammar seeds) :
    ∃ idle : Agenda T, idle.queue = [] ∧ idle.table = table ∧ idle.IsUnderway grammar seeds := by
  induction finishes with
  | done idle => exact ⟨_, idle, rfl, underway⟩
  | visit waiting _ inductionHypothesis => exact inductionHypothesis (underway.visit waiting)

/-! ## Idle agendas -/

section Idle

omit [DecidableEq T]

variable (underway : agenda.IsUnderway grammar seeds) (idle : agenda.queue = [])

include underway idle

theorem IsUnderway.handsOn (member : item ∈ agenda.table.map Prod.fst) :
    HandsOn grammar agenda.table item := by
  rcases underway.waits item member with waits | handsOn
  · rw [idle] at waits
    cases waits
  · exact handsOn

theorem IsUnderway.mem_iff :
    item ∈ agenda.table.map Prod.fst ↔ item ∈ grammar.closure (seeds.map Prod.fst) := by
  constructor
  · exact underway.closed item
  · intro member
    have reached := Grammar.mem_closure_iff.mp member
    induction reached with
    | seed isSeed => exact underway.seeded _ isSeed
    | step reached implied inductionHypothesis =>
        have source := inductionHypothesis (Grammar.mem_closure_iff.mpr reached)
        exact (underway.handsOn idle source _ implied).1

theorem IsUnderway.lookahead_iff {lookahead : Lookahead T} :
    lookahead ∈ agenda.table.lookaheads item ↔ grammar.Spreads seeds item lookahead := by
  constructor
  · exact underway.spreads item lookahead
  · intro spreads
    induction spreads with
    | seed given => exact underway.given _ _ given
    | opens member implied begins =>
        have source := (underway.mem_iff idle).mpr member
        exact (underway.handsOn idle source _ implied).2 _ (.inl ⟨_, rfl, begins⟩)
    | inherits spreads implied vanishes inductionHypothesis =>
        have source := (underway.mem_iff idle).mpr spreads.mem_closure
        have own := inductionHypothesis
        exact (underway.handsOn idle source _ implied).2 _ (.inr ⟨vanishes, own⟩)

end Idle

/-! ## The end of the visits -/

/-- What the table can come to hold: items of the closure and lookaheads that a seed has or that can
begin the rest of an item. -/
def space (grammar : Grammar T N) (seeds : LookaheadTable T) :
    Finset (Item × Option (Lookahead T)) :=
  let items := grammar.closure (seeds.map Prod.fst)
  let openings := items.flatMap fun item =>
    (grammar.firstFollow.firstOf (item.suffix grammar)).1.map .terminal
  items.toFinset ×ˢ (none :: (seeds.flatMap Prod.snd ++ openings).map some).toFinset

theorem mem_space_of_spreads {lookahead : Lookahead T}
    (spreads : grammar.Spreads seeds item lookahead) :
    (item, some lookahead) ∈ space grammar seeds := by
  simp only [space, Finset.mem_product, List.mem_toFinset]
  refine ⟨spreads.mem_closure, List.mem_cons_of_mem _ (List.mem_map_of_mem ?_)⟩
  rw [List.mem_append]
  induction spreads with
  | seed given =>
      obtain ⟨entry, member, _, inside⟩ := LookaheadTable.mem_lookaheads.mp given
      exact .inl (List.mem_flatMap.mpr ⟨entry, member, inside⟩)
  | @opens item _ terminal member implied begins =>
      obtain ⟨expected, expects, _⟩ := Grammar.mem_implied.mp implied
      have isFirst := ((Grammar.firstOf_suffix expects).2 terminal).mpr begins
      exact .inr (List.mem_flatMap.mpr ⟨item, member, List.mem_map_of_mem isFirst⟩)
  | inherits _ _ _ inductionHypothesis => exact inductionHypothesis

theorem IsUnderway.facts_subset (underway : agenda.IsUnderway grammar seeds) :
    agenda.table.facts ⊆ space grammar seeds := by
  rintro ⟨item, _ | lookahead⟩ member
  · have inClosure := underway.closed item (LookaheadTable.mem_facts_none.mp member)
    simp [space, inClosure]
  · have known := LookaheadTable.mem_facts_some.mp member
    exact mem_space_of_spreads (underway.spreads item lookahead known)

/-- The visits come to an end. The induction is on the queue and the room that is left. -/
theorem IsUnderway.exists_finishes (underway : agenda.IsUnderway grammar seeds) :
    ∃ table, agenda.Finishes grammar table := by
  induction left : (space grammar seeds).card - agenda.table.facts.card + agenda.queue.length
    using Nat.strongRecOn generalizing agenda with
  | ind left inductionHypothesis =>
      cases waiting : agenda.queue with
      | nil => exact ⟨_, .done waiting⟩
      | cons item rest =>
          have visited := underway.visit waiting
          have pays := (grows_visit grammar { agenda with queue := rest } item).pays
          change _ + agenda.table.facts.card ≤ rest.length + _ at pays
          have room := Finset.card_le_card visited.facts_subset
          rw [waiting, List.length_cons] at left
          obtain ⟨table, finishes⟩ := inductionHypothesis _ (by omega) visited rfl
          exact ⟨table, .visit waiting finishes⟩

/-! ## Seeds -/

theorem mem_map_fst_load :
    item ∈ (agenda.load seeds).table.map Prod.fst ↔
      item ∈ agenda.table.map Prod.fst ∨ item ∈ seeds.map Prod.fst := by
  induction seeds generalizing agenda with
  | nil => simp [load]
  | cons seed rest inductionHypothesis =>
      rw [load, List.foldl_cons, ← load, inductionHypothesis, push, enter,
        LookaheadTable.mem_map_fst_enter, List.map_cons, List.mem_cons, or_assoc, or_left_comm]

theorem mem_lookaheads_load {lookahead : Lookahead T} :
    lookahead ∈ (agenda.load seeds).table.lookaheads item ↔
      lookahead ∈ agenda.table.lookaheads item ∨ lookahead ∈ seeds.lookaheads item := by
  induction seeds generalizing agenda with
  | nil => simp [load, LookaheadTable.lookaheads]
  | cons seed rest inductionHypothesis =>
      rw [load, List.foldl_cons, ← load, inductionHypothesis, push, enter,
        LookaheadTable.mem_lookaheads_enter agenda.ascending, LookaheadTable.lookaheads_cons,
        List.mem_append, or_assoc]
      by_cases same : seed.1 = item
      · simp [same]
      · simp [same, Ne.symm same]

theorem queue_load : (agenda.load seeds).queue = agenda.queue ++ seeds.map Prod.fst := by
  induction seeds generalizing agenda with
  | nil => exact (List.append_nil _).symm
  | cons seed rest inductionHypothesis =>
      rw [load, List.foldl_cons, ← load, inductionHypothesis, List.map_cons]
      exact List.append_assoc _ _ _

theorem isUnderway_load (grammar : Grammar T N) (seeds : LookaheadTable T) :
    (empty.load seeds).IsUnderway grammar seeds := by
  have items : ∀ item, item ∈ (empty.load seeds).table.map Prod.fst ↔ item ∈ seeds.map Prod.fst :=
    fun item => mem_map_fst_load.trans (or_iff_right List.not_mem_nil)
  have lookaheads : ∀ item lookahead, lookahead ∈ (empty.load seeds).table.lookaheads item ↔
      lookahead ∈ seeds.lookaheads item :=
    fun item lookahead => mem_lookaheads_load.trans (or_iff_right List.not_mem_nil)
  refine {
    seeded := ?seeded
    given := ?given
    closed := ?closed
    spreads := ?spreads
    listed := ?listed
    waits := ?waits }
  case seeded => exact fun seed => (items seed).mpr
  case given => exact fun item lookahead => (lookaheads item lookahead).mpr
  case closed => exact fun item member => Grammar.closure_of_seed ((items item).mp member)
  case spreads => exact fun item lookahead known => .seed ((lookaheads item lookahead).mp known)
  case listed =>
    intro item waits
    rw [queue_load] at waits
    exact (items item).mpr waits
  case waits =>
    intro item member
    rw [queue_load]
    exact .inl ((items item).mp member)

end Agenda

namespace Grammar

variable {T N : Type} [DecidableEq T] [DecidableEq N]

/-- Visits that begin with the seeds end with the table. -/
def SpreadsOut (grammar : Grammar T N) (seeds table : LookaheadTable T) : Prop :=
  (Agenda.empty.load seeds).Finishes grammar table

variable {grammar : Grammar T N} {seeds table : LookaheadTable T}

/-- Whatever the seeds, the visits come to an end, and to a single one. -/
theorem exists_spreadsOut_iff (grammar : Grammar T N) (seeds : LookaheadTable T) :
    ∃ table, ∀ other, grammar.SpreadsOut seeds other ↔ other = table := by
  obtain ⟨table, spreadsOut⟩ := (Agenda.isUnderway_load grammar seeds).exists_finishes
  refine ⟨table, fun other => ⟨fun spreadsOutToo => spreadsOutToo.unique spreadsOut, ?_⟩⟩
  rintro rfl
  exact spreadsOut

theorem SpreadsOut.map_fst (spreadsOut : grammar.SpreadsOut seeds table) :
    table.map Prod.fst = grammar.closure (seeds.map Prod.fst) := by
  obtain ⟨agenda, idle, rfl, underway⟩ :=
    Agenda.Finishes.exists_idle spreadsOut (Agenda.isUnderway_load grammar seeds)
  apply Ascending.eq_of_mem_iff agenda.ascending isAscending_closure
  exact fun _ => underway.mem_iff idle

theorem SpreadsOut.mem_lookaheads_iff (spreadsOut : grammar.SpreadsOut seeds table) {item : Item}
    {lookahead : Lookahead T} :
    lookahead ∈ table.lookaheads item ↔ grammar.Spreads seeds item lookahead := by
  obtain ⟨agenda, idle, rfl, underway⟩ :=
    Agenda.Finishes.exists_idle spreadsOut (Agenda.isUnderway_load grammar seeds)
  exact underway.lookahead_iff idle

end Grammar

end ShiftReduce
