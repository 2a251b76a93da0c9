import Mathlib.Data.List.Nodup
import ShiftReduce.Proofs.Table.Cells

/-!
Contract: which states clash, said of items and terminals.

Owns: what `distinctOn` keeps and that it keeps the first of a kind; `Reduces`, by which a completed
item claims the cell of a terminal; `Contested`, by which two items claim one cell; `Competes`, the
condition under which a method reports a clash, with the clash that it then reports; and the fact
that an item has the cells that it alone claims.
-/

namespace ShiftReduce

theorem eq_nil_of_distinctOn_eq_nil {α κ : Type} [DecidableEq κ] {key : α → κ} {members : List α}
    (none : distinctOn key members = []) : members = [] := by
  cases members with
  | nil => rfl
  | cons head tail => cases none

/-- Of the members with one key some member is kept. -/
theorem exists_mem_distinctOn {α κ : Type} [DecidableEq κ] (key : α → κ) {members : List α}
    {member : α} (isMember : member ∈ members) :
    ∃ kept ∈ distinctOn key members, key kept = key member := by
  induction members with
  | nil => cases isMember
  | cons head tail inductionHypothesis =>
      by_cases same : key member = key head
      · exact ⟨head, List.mem_cons_self, same.symm⟩
      · have inTail : member ∈ tail := by
          rcases List.mem_cons.mp isMember with rfl | later
          · exact absurd rfl same
          · exact later
        obtain ⟨kept, isKept, sameKey⟩ := inductionHypothesis inTail
        have stays : key kept ≠ key head := by rwa [sameKey]
        refine ⟨kept, List.mem_cons_of_mem _ (List.mem_filter.mpr ⟨isKept, ?_⟩), sameKey⟩
        exact decide_eq_true stays

theorem mem_of_mem_distinctOn {α κ : Type} [DecidableEq κ] {key : α → κ} {members : List α}
    {kept : α} (isKept : kept ∈ distinctOn key members) : kept ∈ members := by
  induction members with
  | nil => cases isKept
  | cons head tail inductionHypothesis =>
      rcases List.mem_cons.mp isKept with rfl | later
      · exact List.mem_cons_self
      · apply List.mem_cons_of_mem
        exact inductionHypothesis (List.mem_filter.mp later).1

/-- Where members ascend by a rank, no member of lower rank has the key of one that is kept. -/
theorem key_ne_of_rank_lt {α κ : Type} [DecidableEq κ] {key : α → κ} {rank : α → Nat}
    {members : List α} (ascends : members.Pairwise fun first later => rank first ≤ rank later)
    {kept lower : α} (isKept : kept ∈ distinctOn key members) (isMember : lower ∈ members)
    (below : rank lower < rank kept) : key lower ≠ key kept := by
  induction members with
  | nil => cases isKept
  | cons head tail inductionHypothesis =>
      obtain ⟨headFirst, tailAscends⟩ := List.pairwise_cons.mp ascends
      rcases List.mem_cons.mp isKept with rfl | later
      · rcases List.mem_cons.mp isMember with rfl | inTail
        · exact absurd below (Nat.lt_irrefl _)
        · exact absurd below (Nat.not_lt.mpr (headFirst lower inTail))
      · obtain ⟨keptInTail, differs⟩ := List.mem_filter.mp later
        rcases List.mem_cons.mp isMember with rfl | inTail
        · exact (of_decide_eq_true differs).symm
        · exact inductionHypothesis tailAscends keptInTail inTail

/-- The member that is kept of a key has the lowest rank. -/
theorem exists_first_mem_distinctOn {α κ : Type} [DecidableEq κ] (key : α → κ) {rank : α → Nat}
    {members : List α} (ascends : members.Pairwise fun first later => rank first ≤ rank later)
    {member : α} (isMember : member ∈ members) :
    ∃ kept ∈ distinctOn key members, key kept = key member ∧ rank kept ≤ rank member := by
  obtain ⟨kept, isKept, sameKey⟩ := exists_mem_distinctOn key isMember
  refine ⟨kept, isKept, sameKey, Nat.not_lt.mp fun below => ?_⟩
  exact key_ne_of_rank_lt ascends isKept isMember below sameKey.symm

/-- What is kept is kept in translation, if translation keeps different keys different. -/
theorem distinctOn_map {α β κ ι : Type} [DecidableEq κ] [DecidableEq ι] {key : α → κ}
    {other : β → ι} {translate : α → β} {members : List α}
    (same : ∀ first ∈ members, ∀ later ∈ members,
      (other (translate first) = other (translate later) ↔ key first = key later)) :
    distinctOn other (members.map translate) = (distinctOn key members).map translate := by
  induction members with
  | nil => rfl
  | cons head tail inductionHypothesis =>
      have tailSame : ∀ first ∈ tail, ∀ later ∈ tail,
          (other (translate first) = other (translate later) ↔ key first = key later) :=
        fun first isFirst later isLater =>
          same first (List.mem_cons_of_mem _ isFirst) later (List.mem_cons_of_mem _ isLater)
      rw [List.map_cons, distinctOn, distinctOn, List.map_cons, inductionHypothesis tailSame,
        List.filter_map]
      congr 2
      apply List.filter_congr
      intro later isKept
      have inTail := mem_of_mem_distinctOn isKept
      have keys := same later (List.mem_cons_of_mem _ inTail) head List.mem_cons_self
      simp only [Function.comp_apply, ne_eq, keys]

/-- Shared terminals belong to two members. -/
theorem mem_sharedTerminals_map {T ι : Type} [DecidableEq T] {order : T → T → Ordering}
    [Std.LawfulEqCmp order] {members : List ι} (nodup : members.Nodup) {set : ι → List T}
    {terminal : T} :
    terminal ∈ sharedTerminals order (members.map set) ↔
      ∃ left ∈ members, ∃ right ∈ members, left ≠ right ∧ terminal ∈ set left ∧
        terminal ∈ set right := by
  induction members with
  | nil => simp [sharedTerminals]
  | cons head tail inductionHypothesis =>
      obtain ⟨headOnce, tailNodup⟩ := List.nodup_cons.mp nodup
      rw [List.map_cons, sharedTerminals, Ascending.mem_union, inductionHypothesis tailNodup,
        List.mem_filter, List.any_eq_true]
      constructor
      · rintro (⟨left, inLeft, right, inRight, both⟩ | ⟨inHead, _, other, inOther⟩)
        · exact ⟨left, List.mem_cons_of_mem _ inLeft, right, List.mem_cons_of_mem _ inRight, both⟩
        · obtain ⟨right, isRight, rfl⟩ := List.mem_map.mp other
          have differ : head ≠ right := fun same => headOnce (same ▸ isRight)
          exact ⟨head, List.mem_cons_self, right, List.mem_cons_of_mem _ isRight, differ, inHead,
            of_decide_eq_true inOther⟩
      · rintro ⟨left, isLeft, right, isRight, differ, inLeft, inRight⟩
        have withHead : ∀ other ∈ tail, terminal ∈ set head → terminal ∈ set other →
            terminal ∈ set head ∧ ∃ others ∈ tail.map set, decide (terminal ∈ others) = true :=
          fun other isOther inHead inOther =>
            ⟨inHead, set other, List.mem_map.mpr ⟨other, isOther, rfl⟩, decide_eq_true inOther⟩
        rcases List.mem_cons.mp isLeft with rfl | leftLater
        · rcases List.mem_cons.mp isRight with rfl | rightLater
          · exact absurd rfl differ
          · exact .inr (withHead right rightLater inLeft inRight)
        · rcases List.mem_cons.mp isRight with rfl | rightLater
          · exact .inr (withHead left leftLater inRight inLeft)
          · exact .inl ⟨left, leftLater, right, rightLater, differ, inLeft, inRight⟩

theorem isAscending_sharedTerminals {T : Type} [DecidableEq T] {order : T → T → Ordering}
    [Std.TransCmp order] [Std.LawfulEqCmp order] (sets : List (List T)) :
    Ascending.IsAscending order (sharedTerminals order sets) := by
  induction sets with
  | nil => exact List.Pairwise.nil
  | cons set others inductionHypothesis => exact Ascending.isAscending_union inductionHypothesis

namespace Grammar

variable {T N : Type} [DecidableEq T] [DecidableEq N]

/-- The rule of the item has been read in the state, and the item is reduced on the terminal; or the
input is accepted on it, if the rule is the accepting one. -/
structure Reduces (grammar : Grammar T N) (method : Method) (state : Nat) (item : Item)
    (terminal : T) : Prop where
  completed : item ∈ grammar.automaton.completed grammar state
  inSet : terminal ∈ grammar.reductionSet (grammar.study.reductionLookaheads method) state item

/-- Two items are reduced on the terminal. -/
def Contested (grammar : Grammar T N) (method : Method) (state : Nat) (terminal : T) : Prop :=
  ∃ left right, left ≠ right ∧ grammar.Reduces method state left terminal ∧
    grammar.Reduces method state right terminal

/-- Several rules have been read in the state. -/
def Several (grammar : Grammar T N) (state : Nat) : Prop :=
  ∃ left ∈ grammar.automaton.completed grammar state,
    ∃ right ∈ grammar.automaton.completed grammar state, left ≠ right

/-- The method cannot do with the completed items of the state: by FOLLOW they must not be several,
and by propagation they must not share a terminal. -/
def Competes (grammar : Grammar T N) (method : Method) (state : Nat) : Prop :=
  match method with
  | .slr => grammar.Several state
  | .lalr => ∃ terminal, grammar.Contested .lalr state terminal

/-- The completed items of a state, apart by whether they belong to its kernel, each part by
marker. -/
def finished (grammar : Grammar T N) (state : Nat) : List Item × List Item :=
  let completed := grammar.automaton.completed grammar state
  (Ascending.ofList Item.markerOrder (completed.filter fun item => !item.isKernel grammar),
    Ascending.ofList Item.markerOrder (completed.filter fun item => item.isKernel grammar))

variable {grammar : Grammar T N} {method : Method} {state : Nat}

theorem Contested.several {terminal : T} (contested : grammar.Contested method state terminal) :
    grammar.Several state := by
  obtain ⟨left, right, differ, reducesLeft, reducesRight⟩ := contested
  exact ⟨left, reducesLeft.completed, right, reducesRight.completed, differ⟩

theorem Contested.competes {terminal : T} (contested : grammar.Contested method state terminal) :
    grammar.Competes method state := by
  cases method with
  | slr => exact contested.several
  | lalr => exact ⟨terminal, contested⟩

theorem Competes.several (competes : grammar.Competes method state) : grammar.Several state := by
  cases method with
  | slr => exact competes
  | lalr =>
      obtain ⟨terminal, contested⟩ := competes
      exact contested.several

theorem nodup_completed : (grammar.automaton.completed grammar state).Nodup := by
  apply List.Nodup.filter
  by_cases bound : state < grammar.automaton.stateCount
  · obtain ⟨seeds, same, _⟩ := exists_items_eq_closure bound
    rw [same]
    exact Ascending.nodup_of_isAscending isAscending_closure
  · rw [items_eq_nil_of_not_lt bound]
    exact List.nodup_nil

variable (grammar method state) in
/-- The terminals that more than one item of the state is reduced on. -/
def contestedTerminals : List T :=
  sharedTerminals grammar.vocabulary.terminals.order
    ((grammar.automaton.completed grammar state).map
      (grammar.reductionSet (grammar.study.reductionLookaheads method) state))

theorem mem_contestedTerminals {terminal : T} :
    terminal ∈ grammar.contestedTerminals method state ↔
      grammar.Contested method state terminal := by
  rw [contestedTerminals, mem_sharedTerminals_map nodup_completed]
  constructor
  · rintro ⟨left, leftCompleted, right, rightCompleted, differ, inLeft, inRight⟩
    exact ⟨left, right, differ, ⟨leftCompleted, inLeft⟩, ⟨rightCompleted, inRight⟩⟩
  · rintro ⟨left, right, differ, reducesLeft, reducesRight⟩
    exact ⟨left, reducesLeft.completed, right, reducesRight.completed, differ,
      reducesLeft.inSet, reducesRight.inSet⟩

theorem one_lt_length_completed_iff :
    1 < (grammar.automaton.completed grammar state).length ↔ grammar.Several state := by
  have nodup := @nodup_completed T N _ _ grammar state
  unfold Several
  constructor
  · intro many
    match members : grammar.automaton.completed grammar state with
    | [] => simp [members] at many
    | [_] => simp [members] at many
    | first :: second :: others =>
        rw [members, List.nodup_cons] at nodup
        have differ : first ≠ second := fun same => nodup.1 (same ▸ List.mem_cons_self)
        exact ⟨first, List.mem_cons_self, second, by simp, differ⟩
  · rintro ⟨left, leftCompleted, right, rightCompleted, differ⟩
    have both : [left, right] ⊆ grammar.automaton.completed grammar state := by
      simp [leftCompleted, rightCompleted]
    have distinct : [left, right].Nodup := by simp [differ]
    exact distinct.length_le_of_subset both

variable (grammar method state) in
/-- Whether a clash is found, by the number of completed items or of terminals that they share. -/
private def findsClash : Bool :=
  match method with
  | .slr => 1 < (grammar.automaton.completed grammar state).length
  | .lalr => !(grammar.contestedTerminals .lalr state).isEmpty

private theorem findsClash_iff :
    grammar.findsClash method state = true ↔ grammar.Competes method state := by
  cases method with
  | slr => exact decide_eq_true_iff.trans one_lt_length_completed_iff
  | lalr =>
      rw [findsClash, Bool.not_eq_true', List.isEmpty_eq_false_iff_exists_mem]
      exact exists_congr fun terminal => mem_contestedTerminals

variable (grammar method state) in
/-- What is reported of a state that clashes. -/
def clashAt : Clash T where
  state := state
  nonkernel := (grammar.finished state).1
  kernel := (grammar.finished state).2
  lookaheads := grammar.contestedTerminals method state

private theorem clash?_eq :
    grammar.clash? grammar.automaton method (grammar.study.reductionLookaheads method) state =
      if grammar.findsClash method state then some (grammar.clashAt method state) else none := by
  unfold clash?
  simp only [List.partition_eq_filter_filter]
  cases method with
  | slr => rfl
  | lalr => rfl

/-- A state is reported exactly if its completed items compete. -/
theorem clash?_eq_some_iff {clash : Clash T} :
    grammar.clash? grammar.automaton method (grammar.study.reductionLookaheads method) state =
        some clash ↔
      grammar.Competes method state ∧ clash = grammar.clashAt method state := by
  rw [clash?_eq, ← findsClash_iff, Option.ite_none_right_eq_some, Option.some.injEq]
  exact and_congr_right fun _ => eq_comm

/-! ## Cells that items claim -/

/-- What a completed item asks for on the terminals that it is reduced on. -/
def completion (grammar : Grammar T N) (item : Item) : Action :=
  if item.isAccepting grammar then .accept else .reduce item.rule

variable {item : Item} {terminal : T}

theorem reduces_iff_of_ordinary (ordinary : item.isAccepting grammar = false) :
    grammar.Reduces method state item terminal ↔
      item ∈ grammar.automaton.completed grammar state ∧
        terminal ∈ grammar.study.reductionLookaheads method state item := by
  have same : grammar.reductionSet (grammar.study.reductionLookaheads method) state item =
      grammar.study.reductionLookaheads method state item := by
    rw [reductionSet, ordinary, if_neg Bool.false_ne_true]
  rw [← same]
  exact ⟨fun reduces => ⟨reduces.completed, reduces.inSet⟩, fun both => ⟨both.1, both.2⟩⟩

theorem reduces_iff_of_accepting (accepting : item.isAccepting grammar = true) :
    grammar.Reduces method state item terminal ↔
      item ∈ grammar.automaton.completed grammar state ∧
        terminal = grammar.vocabulary.endMarker := by
  have same : grammar.reductionSet (grammar.study.reductionLookaheads method) state item =
      [grammar.vocabulary.endMarker] := by
    rw [reductionSet, if_pos accepting]
  rw [← List.mem_singleton, ← same]
  exact ⟨fun reduces => ⟨reduces.completed, reduces.inSet⟩, fun both => ⟨both.1, both.2⟩⟩

/-- An item has the cells that it asks for, unless they are shifted or another item asks for them
too. -/
theorem Reduces.action?_eq_or_contested (reduces : grammar.Reduces method state item terminal)
    (listed : grammar.vocabulary.terminals.Lists terminal)
    (unshifted : grammar.automaton.goto? state (.terminal terminal) = none) :
    (grammar.driver method).table.action? state terminal = some (grammar.completion item) ∨
      grammar.Contested method state terminal := by
  cases accepting : item.isAccepting grammar with
  | true =>
      obtain ⟨completed, ends⟩ := (reduces_iff_of_accepting accepting).mp reduces
      left
      rw [completion, if_pos accepting]
      exact (action?_eq_accept_iff listed).mpr ⟨ends, item, completed, accepting⟩
  | false =>
      obtain ⟨completed, lookahead⟩ := (reduces_iff_of_ordinary accepting).mp reduces
      rw [action?_driver state listed, unshifted, completion, accepting,
        if_neg Bool.false_ne_true]
      simp only [completion?]
      split
      · next accepted =>
          obtain ⟨ends, some⟩ := accepted
          obtain ⟨other, otherCompleted, otherAccepting⟩ := List.any_eq_true.mp some
          have differ : item ≠ other := by
            rintro rfl
            rw [accepting] at otherAccepting
            cases otherAccepting
          have otherReduces : grammar.Reduces method state other terminal :=
            (reduces_iff_of_accepting otherAccepting).mpr ⟨otherCompleted, ends⟩
          exact .inr ⟨item, other, differ, reduces, otherReduces⟩
      · cases found : (grammar.automaton.completed grammar state).find? fun item =>
            !item.isAccepting grammar &&
              decide (terminal ∈ grammar.study.reductionLookaheads method state item) with
        | none =>
            have refused := List.find?_eq_none.mp found item completed
            simp [accepting, lookahead] at refused
        | some other =>
            have fits := List.find?_some found
            simp only [Bool.and_eq_true, Bool.not_eq_true', decide_eq_true_eq] at fits
            by_cases same : item = other
            · exact .inl (same ▸ rfl)
            · have otherReduces := (reduces_iff_of_ordinary fits.1).mpr
                ⟨List.mem_of_find?_eq_some found, fits.2⟩
              exact .inr ⟨item, other, same, reduces, otherReduces⟩

end Grammar

end ShiftReduce
