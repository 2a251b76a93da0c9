import Mathlib.Data.Fintype.EquivFin
import ShiftReduce.Proofs.Automaton.Closure
import ShiftReduce.Proofs.Exploration
import ShiftReduce.Proofs.FirstFollow.Follow

/-!
Contract: grammars that differ in the order of their rules.

Owns: `Reordering`, a bijection between the rules of two grammars over one vocabulary that keeps
left sides, right sides and acceptance; what it does to rule numbers and to items; and the fact that
derivations, and with them nullability, FIRST and FOLLOW, are the same in both grammars.
-/

namespace ShiftReduce

variable {T N : Type}

/-- The rules of the left grammar are those of the right one, each in some other place. -/
structure Reordering (left right : Grammar T N) where
  place : Fin left.rules.size ≃ Fin right.rules.size
  vocabulary_eq : right.vocabulary = left.vocabulary
  start_eq : right.start = left.start
  rule_place : ∀ id, right.rules[place id] = left.rules[id]
  accepting_place : ∀ id, (place id).val = right.accepting ↔ id.val = left.accepting

namespace Reordering

variable {left right : Grammar T N}

def symm (reordering : Reordering left right) : Reordering right left where
  place := reordering.place.symm
  vocabulary_eq := reordering.vocabulary_eq.symm
  start_eq := reordering.start_eq.symm
  rule_place id := by
    have same := reordering.rule_place (reordering.place.symm id)
    simpa only [Equiv.apply_symm_apply] using same.symm
  accepting_place id := by
    have same := reordering.accepting_place (reordering.place.symm id)
    simpa only [Equiv.apply_symm_apply] using same.symm

/-- The number that a rule has in the right grammar. A number that is no rule's stays. -/
def number (reordering : Reordering left right) (id : RuleId) : RuleId :=
  if bound : id < left.rules.size then reordering.place ⟨id, bound⟩ else id

/-- The item in the right grammar. -/
def item (reordering : Reordering left right) (item : Item) : Item :=
  { item with rule := reordering.number item.rule }

variable (reordering : Reordering left right)

/-! ## Numbers -/

theorem size_eq (reordering : Reordering left right) : left.rules.size = right.rules.size :=
  Fin.equiv_iff_eq.mp ⟨reordering.place⟩

theorem number_of_lt {id : RuleId} (bound : id < left.rules.size) :
    reordering.number id = reordering.place ⟨id, bound⟩ := dif_pos bound

theorem number_of_not_lt {id : RuleId} (beyond : ¬id < left.rules.size) :
    reordering.number id = id := dif_neg beyond

@[simp]
theorem symm_number_number (id : RuleId) : reordering.symm.number (reordering.number id) = id := by
  by_cases bound : id < left.rules.size
  · rw [reordering.number_of_lt bound, reordering.symm.number_of_lt (Fin.isLt _)]
    exact congrArg Fin.val (reordering.place.symm_apply_apply ⟨id, bound⟩)
  · rw [reordering.number_of_not_lt bound]
    exact reordering.symm.number_of_not_lt (reordering.size_eq ▸ bound)

@[simp]
theorem number_symm_number (id : RuleId) : reordering.number (reordering.symm.number id) = id :=
  reordering.symm.symm_number_number id

@[simp]
theorem number_lt_iff {id : RuleId} :
    reordering.number id < right.rules.size ↔ id < left.rules.size := by
  by_cases bound : id < left.rules.size
  · rw [reordering.number_of_lt bound]
    exact iff_of_true (Fin.isLt _) bound
  · rw [reordering.number_of_not_lt bound, reordering.size_eq]

@[simp]
theorem rule_number (id : RuleId) : right.rule (reordering.number id) = left.rule id := by
  unfold Grammar.rule Grammar.rule?
  by_cases bound : id < left.rules.size
  · have moved := reordering.rule_place ⟨id, bound⟩
    rw [reordering.number_of_lt bound, Array.getElem?_eq_getElem bound]
    simpa using moved
  · have beyond : ¬id < right.rules.size := reordering.size_eq ▸ bound
    rw [reordering.number_of_not_lt bound]
    simp [bound, beyond, reordering.start_eq]

@[simp]
theorem number_eq_accepting_iff {id : RuleId} :
    reordering.number id = right.accepting ↔ id = left.accepting := by
  by_cases bound : id < left.rules.size
  · rw [reordering.number_of_lt bound]
    exact reordering.accepting_place ⟨id, bound⟩
  · have beyond : ¬id < right.rules.size := reordering.size_eq ▸ bound
    rw [reordering.number_of_not_lt bound]
    constructor
    · rintro rfl
      exact absurd right.accepting_lt beyond
    · rintro rfl
      exact absurd left.accepting_lt bound

/-! ## Items -/

@[simp]
theorem symm_item_item (item : Item) : reordering.symm.item (reordering.item item) = item := by
  simp [Reordering.item]

@[simp]
theorem item_symm_item (item : Item) : reordering.item (reordering.symm.item item) = item :=
  reordering.symm.symm_item_item item

theorem item_injective : Function.Injective reordering.item :=
  Function.LeftInverse.injective reordering.symm_item_item

@[simp]
theorem rule_item (item : Item) : right.rule (reordering.item item).rule = left.rule item.rule :=
  reordering.rule_number item.rule

@[simp]
theorem item_startItem : reordering.item left.startItem = right.startItem := by
  have moved := reordering.number_eq_accepting_iff.mpr (Eq.refl left.accepting)
  simp [Reordering.item, Grammar.startItem, moved]

@[simp]
theorem item_advance (item : Item) :
    reordering.item item.advance = (reordering.item item).advance := rfl

@[simp]
theorem next?_item (item : Item) : (reordering.item item).next? right = item.next? left := by
  rw [Item.next?, rule_item]
  rfl

@[simp]
theorem suffix_item (item : Item) : (reordering.item item).suffix right = item.suffix left := by
  rw [Item.suffix, rule_item]
  rfl

@[simp]
theorem isComplete_item (item : Item) :
    (reordering.item item).isComplete right = item.isComplete left := by
  rw [Item.isComplete, rule_item]
  rfl

@[simp]
theorem isAccepting_item (item : Item) :
    (reordering.item item).isAccepting right = item.isAccepting left := by
  simp [Item.isAccepting, Reordering.item]

@[simp]
theorem isKernel_item (item : Item) :
    (reordering.item item).isKernel right = item.isKernel left := by
  rw [Item.isKernel, isAccepting_item]
  rfl

theorem item_mem_implied_iff [DecidableEq N] {item new : Item} :
    reordering.item new ∈ right.implied (reordering.item item) ↔ new ∈ left.implied item := by
  simp only [Grammar.mem_implied, Grammar.mem_initialItems, next?_item]
  simp [Reordering.item]

/-! ## Derivations -/

include reordering

theorem mem_rules_iff {rule : Rule T N} : rule ∈ right.rules ↔ rule ∈ left.rules := by
  have kept : ∀ {left right : Grammar T N}, Reordering left right →
      rule ∈ left.rules → rule ∈ right.rules := by
    intro left right reordering member
    obtain ⟨id, bound, rfl⟩ := Grammar.exists_id_of_mem member
    rw [← reordering.rule_number id]
    exact Grammar.rule_mem (reordering.number_lt_iff.mpr bound)
  exact ⟨kept reordering.symm, kept reordering⟩

theorem derives_iff {first second : List (Symbol T N)} :
    right.Derives first second ↔ left.Derives first second :=
  ⟨.of_rules fun _ => reordering.mem_rules_iff.mp, .of_rules fun _ => reordering.mem_rules_iff.mpr⟩

theorem canBegin_iff {symbols : List (Symbol T N)} {terminal : T} :
    right.CanBegin symbols terminal ↔ left.CanBegin symbols terminal :=
  exists_congr fun _ => reordering.derives_iff

/-! ## FIRST and FOLLOW -/

/-- The terminals of both grammars ascend alike. -/
theorem terminals_ext {first second : List T}
    (firstAscends : Ascending.IsAscending right.vocabulary.terminals.order first)
    (secondAscends : Ascending.IsAscending left.vocabulary.terminals.order second)
    (same : ∀ terminal, terminal ∈ first ↔ terminal ∈ second) : first = second := by
  rw [reordering.vocabulary_eq] at firstAscends
  exact Ascending.eq_of_mem_iff firstAscends secondAscends same

variable [DecidableEq N]

theorem mem_nullables_iff {nonterminal : N} :
    nonterminal ∈ right.nullables ↔ nonterminal ∈ left.nullables := by
  rw [Grammar.mem_nullables_iff, Grammar.mem_nullables_iff, reordering.derives_iff]

variable [DecidableEq T]

theorem firstSet_eq (nonterminal : N) :
    right.firstSet right.nullables nonterminal = left.firstSet left.nullables nonterminal := by
  refine reordering.terminals_ext (Ascending.isAscending_ofList _)
    (Ascending.isAscending_ofList _) fun terminal => ?_
  rw [Grammar.mem_firstSet_iff, Grammar.mem_firstSet_iff, reordering.canBegin_iff]

theorem firstSets_eq : right.firstSets right.nullables = left.firstSets left.nullables := by
  simp only [Grammar.firstSets, reordering.vocabulary_eq, reordering.mem_nullables_iff,
    funext reordering.firstSet_eq]

theorem mem_hosts_iff {nonterminal host : N} :
    host ∈ right.hosts right.nullables nonterminal ↔
      host ∈ left.hosts left.nullables nonterminal := by
  simp only [Grammar.mem_hosts, reordering.mem_rules_iff, reordering.derives_iff]

theorem mem_behind_iff {nonterminal : N} {terminal : T} :
    terminal ∈ right.behind (right.firstSets right.nullables) nonterminal ↔
      terminal ∈ left.behind (left.firstSets left.nullables) nonterminal := by
  simp only [Grammar.mem_behind, reordering.mem_rules_iff, reordering.canBegin_iff]

theorem hosted_iff {nonterminal source : N} :
    Exploration.Reachable (right.hosts right.nullables) [nonterminal] source ↔
      Exploration.Reachable (left.hosts left.nullables) [nonterminal] source :=
  ⟨.map id (fun _ _ => reordering.mem_hosts_iff.mp) fun _ => id,
    .map id (fun _ _ => reordering.mem_hosts_iff.mpr) fun _ => id⟩

theorem followSet_eq (nonterminal : N) :
    right.followSet right.nullables (right.firstSets right.nullables) nonterminal =
      left.followSet left.nullables (left.firstSets left.nullables) nonterminal := by
  refine reordering.terminals_ext (Ascending.isAscending_ofList _)
    (Ascending.isAscending_ofList _) fun terminal => ?_
  simp only [Grammar.mem_followSet_iff, reordering.hosted_iff, reordering.mem_behind_iff,
    reordering.start_eq, reordering.vocabulary_eq]

/-- Nullability, FIRST and FOLLOW do not depend on the order of rules. -/
theorem firstFollow_eq : right.firstFollow = left.firstFollow := by
  have followSets := funext reordering.followSet_eq
  rw [reordering.firstSets_eq] at followSets
  simp only [Grammar.firstFollow, reordering.firstSets_eq, reordering.vocabulary_eq, followSets]

end Reordering

end ShiftReduce
