import ShiftReduce.Proofs.Traversal
import ShiftReduce.Proofs.Tree.Places

/-!
Contract: trees are compared pair by pair.

Owns: `Identical`, by which two trees agree node by node, and its agreement with equality; the
traversal that looks for a pair of nodes that differ, whatever the order in which pairs are taken
from the stack; and the theorem that it finds none exactly if the trees are equal, while every pair
that it waits to visit stands at one place in both trees.

What makes a comparison of pairs enough is that the numbers of children are compared before the
children are paired, so no child is left without a partner.
-/

namespace ShiftReduce

namespace Tree

variable {T N : Type}

/-- The same symbol and the same token at the root, and as many children, which are identical one
by one. -/
inductive Identical : Tree T N → Tree T N → Prop where
  | intro {left right : Tree T N} (symbol : left.symbol = right.symbol)
      (token : left.token? = right.token?)
      (length : left.children.length = right.children.length)
      (children : ∀ (position : Nat) (leftChild rightChild : Tree T N),
        left.children[position]? = some leftChild → right.children[position]? = some rightChild →
          Identical leftChild rightChild) :
      Identical left right

/-! ## Identity -/

theorem size_lt_of_mem_children {tree child : Tree T N} (member : child ∈ tree.children) :
    child.size < tree.size := by
  obtain ⟨before, behind, split⟩ := List.append_of_mem member
  rw [tree.size_eq_forestSize_children, split, forestSize_append, forestSize]
  omega

theorem Identical.refl (tree : Tree T N) : Identical tree tree := by
  refine .intro rfl rfl rfl ?_
  intro position left right foundLeft foundRight
  rw [foundLeft] at foundRight
  cases foundRight
  exact refl left
termination_by tree.size
decreasing_by exact size_lt_of_mem_children (List.mem_of_getElem? foundLeft)

/-- A tree is told by what is at its root and under it. -/
theorem eq_of_roots_eq {left right : Tree T N} (symbol : left.symbol = right.symbol)
    (token : left.token? = right.token?) (children : left.children = right.children) :
    left = right := by
  cases left with
  | leaf own =>
      cases right with
      | leaf other => exact congrArg leaf (Option.some.inj token)
      | node => cases token
  | node lhs under =>
      cases right with
      | leaf => cases token
      | node otherLhs otherUnder =>
          rw [Symbol.nonterminal.inj symbol, show under = otherUnder from children]

theorem identical_iff_eq {left right : Tree T N} : Identical left right ↔ left = right := by
  constructor
  · intro identical
    induction identical with
    | @intro left right symbol token length _ inductionHypothesis =>
        apply eq_of_roots_eq symbol token
        apply List.ext_getElem length
        intro position inLeft inRight
        exact inductionHypothesis position _ _ (List.getElem?_eq_getElem inLeft)
          (List.getElem?_eq_getElem inRight)
  · intro same
    exact same ▸ Identical.refl left

/-- Lists of one length are equal if what is paired is. -/
theorem children_eq_iff_zip {left right : List (Tree T N)} (length : left.length = right.length) :
    left = right ↔ ∀ pair ∈ left.zip right, pair.1 = pair.2 := by
  constructor
  · intro same pair member
    subst same
    obtain ⟨position, found⟩ := List.mem_iff_getElem?.mp member
    obtain ⟨foundLeft, foundRight⟩ := List.getElem?_zip_eq_some.mp found
    rw [foundLeft] at foundRight
    exact Option.some.inj foundRight
  · intro paired
    apply List.ext_getElem length
    intro position inLeft inRight
    apply paired (left[position], right[position])
    rw [List.mem_iff_getElem?]
    refine ⟨position, List.getElem?_zip_eq_some.mpr ⟨?_, ?_⟩⟩
    · exact List.getElem?_eq_getElem inLeft
    · exact List.getElem?_eq_getElem inRight

variable [DecidableEq T] [DecidableEq N] {left right : Tree T N}

/-! ## Pairs on a stack -/

/-- The roots have different symbols, different tokens or different numbers of children. -/
def Differ (pair : Tree T N × Tree T N) : Prop :=
  pair.1.symbol ≠ pair.2.symbol ∨ pair.1.token? ≠ pair.2.token? ∨
    pair.1.children.length ≠ pair.2.children.length

instance (pair : Tree T N × Tree T N) : Decidable (Differ pair) :=
  inferInstanceAs (Decidable (_ ∨ _ ∨ _))

omit [DecidableEq T] [DecidableEq N] in
theorem not_differ_iff {pair : Tree T N × Tree T N} :
    ¬Differ pair ↔ pair.1.symbol = pair.2.symbol ∧ pair.1.token? = pair.2.token? ∧
      pair.1.children.length = pair.2.children.length := by
  simp [Differ]

/-- Hands out a pair that differs at its roots, and goes on to the pairs of children otherwise. -/
def comparison : Traversal (Tree T N × Tree T N) (Tree T N × Tree T N) where
  pick? pair := if Differ pair then some pair else none
  push pair := pair.1.children.zip pair.2.children
  weight pair := pair.1.size
  lighter pair passes := by
    have alike : ¬Differ pair := fun differ => by simp [differ] at passes
    have length := (not_differ_iff.mp alike).2.2
    have sizes : ((pair.1.children.zip pair.2.children).map fun under => under.1.size) =
        ((pair.1.children.zip pair.2.children).map Prod.fst).map size :=
      List.map_map.symm
    rw [sizes, List.map_fst_zip (Nat.le_of_eq length)]
    exact pair.1.sum_size_children_lt

theorem comparison_passes_iff {pair : Tree T N × Tree T N} :
    comparison.pick? pair = none ↔ ¬Differ pair := by
  simp [comparison]

/-- The answer is whether no pair that differs is found. -/
def Compares (left right : Tree T N) (answer : Bool) : Prop :=
  ∃ found, comparison.Next [(left, right)] found ∧ answer = found.isNone

theorem eq_iff_pairs (pair : Tree T N × Tree T N) :
    pair.1 = pair.2 ↔ comparison.pick? pair = none ∧
      ∀ under ∈ comparison.push pair, under.1 = under.2 := by
  rw [comparison_passes_iff]
  constructor
  · intro same
    have alike : ¬Differ pair := not_differ_iff.mpr (by simp [same])
    have length := (not_differ_iff.mp alike).2.2
    exact ⟨alike, (children_eq_iff_zip length).mp (congrArg children same)⟩
  · intro paired
    rcases paired with ⟨alike, under⟩
    obtain ⟨symbol, token, length⟩ := not_differ_iff.mp alike
    exact eq_of_roots_eq symbol token ((children_eq_iff_zip length).mpr under)

theorem compares_iff {answer : Bool} :
    Compares left right answer ↔ (answer = true ↔ left = right) := by
  obtain ⟨found, next⟩ := comparison.exists_next [(left, right)]
  have none_iff : found = none ↔ ∀ pair ∈ [(left, right)], pair.1 = pair.2 :=
    next.eq_none_iff eq_iff_pairs
  rw [List.forall_mem_singleton] at none_iff
  constructor
  · intro compares
    rcases compares with ⟨other, nextOther, rfl⟩
    rw [nextOther.unique next, Option.isNone_iff_eq_none, none_iff]
  · intro decides
    refine ⟨found, next, ?_⟩
    rw [Bool.eq_iff_iff, decides, Option.isNone_iff_eq_none, none_iff]

/-- A pair that is waiting stands at the end of one path in both trees. The induction is on the
visits: the pairs that one adds are those at the positions under its own pair. -/
theorem exists_path_of_passes {stack : List (Tree T N × Tree T N)}
    (passes : comparison.Passes [(left, right)] stack) :
    ∀ pair ∈ stack, ∃ path,
      left.subtree? path = some pair.1 ∧ right.subtree? path = some pair.2 := by
  induction passes with
  | start =>
      intro pair member
      rw [List.mem_singleton.mp member]
      exact ⟨[], rfl, rfl⟩
  | @visit top rest _ _ inductionHypothesis =>
      obtain ⟨topAligned, restAligned⟩ := List.forall_mem_cons.mp inductionHypothesis
      obtain ⟨path, atLeft, atRight⟩ := topAligned
      rw [List.forall_mem_append]
      refine ⟨?_, restAligned⟩
      intro pair member
      obtain ⟨position, found⟩ := List.mem_iff_getElem?.mp (List.mem_reverse.mp member)
      obtain ⟨foundLeft, foundRight⟩ := List.getElem?_zip_eq_some.mp found
      refine ⟨path ++ [position], ?_, ?_⟩
      · rw [subtree?_concat, atLeft]
        exact foundLeft
      · rw [subtree?_concat, atRight]
        exact foundRight

/-! ## Equality of trees -/

theorem allEqual_iff (pairs : List (Tree T N × Tree T N)) :
    allEqual pairs = true ↔ ∀ pair ∈ pairs, pair.1 = pair.2 := by
  fun_induction allEqual pairs with
  | case1 => simp
  | case2 token rest inductionHypothesis =>
      rw [inductionHypothesis, List.forall_mem_cons, and_iff_right rfl]
  | case3 left right rest differ =>
      apply iff_of_false Bool.false_ne_true
      intro equal
      exact differ (leaf.inj (equal _ List.mem_cons_self))
  | case4 leftLhs leftChildren rightLhs rightChildren rest alike inductionHypothesis =>
      have sameNodes : node leftLhs leftChildren = node rightLhs rightChildren ↔
          ∀ pair ∈ leftChildren.zip rightChildren, pair.1 = pair.2 := by
        rw [node.injEq, and_iff_right alike.1, children_eq_iff_zip alike.2]
      rw [inductionHypothesis, List.forall_mem_append, List.forall_mem_cons, sameNodes]
  | case5 leftLhs leftChildren rightLhs rightChildren rest differ =>
      apply iff_of_false Bool.false_ne_true
      intro equal
      obtain ⟨sameLhs, sameChildren⟩ := node.inj (equal _ List.mem_cons_self)
      exact differ ⟨sameLhs, congrArg List.length sameChildren⟩
  | case6 pair rest notLeaves notNodes =>
      apply iff_of_false Bool.false_ne_true
      intro equal
      have same : pair = (pair.1, pair.1) := Prod.ext rfl (equal pair List.mem_cons_self).symm
      cases kind : pair.1 with
      | leaf token => exact notLeaves token token (kind ▸ same)
      | node lhs children => exact notNodes lhs children lhs children (kind ▸ same)

theorem beq_iff_eq : (left == right) = true ↔ left = right := by
  show allEqual [(left, right)] = true ↔ _
  rw [allEqual_iff, List.forall_mem_singleton]

/-- Comparing two trees pair by pair ends and decides whether they are equal, node by node, and no
pair is ever made of nodes at different places. -/
structure ComparesExactly (left right : Tree T N) : Prop where
  compares_iff : ∀ answer, Compares left right answer ↔ (answer = true ↔ left = right)
  beq_iff : (left == right) = true ↔ left = right
  identical_iff : Identical left right ↔ left = right
  aligned : ∀ stack, comparison.Passes [(left, right)] stack → ∀ pair ∈ stack,
    ∃ path, left.subtree? path = some pair.1 ∧ right.subtree? path = some pair.2

theorem comparesExactly :
    (∀ left right : Tree T N, ComparesExactly left right) ∧
      Equivalence (fun left right : Tree T N => Compares left right true) ∧
      Equivalence fun left right : Tree T N => (left == right) = true := by
  refine ⟨fun left right => ?_, ?_, ?_⟩
  · exact ⟨fun _ => compares_iff, beq_iff_eq, identical_iff_eq, fun _ => exists_path_of_passes⟩
  · have same : (fun left right : Tree T N => Compares left right true) = Eq := by
      funext left right
      rw [compares_iff, eq_self, true_iff]
    rw [same]
    exact ⟨Eq.refl, Eq.symm, Eq.trans⟩
  · simp only [beq_iff_eq]
    exact ⟨Eq.refl, Eq.symm, Eq.trans⟩

end Tree

end ShiftReduce
