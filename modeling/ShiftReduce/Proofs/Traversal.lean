import Mathlib.Algebra.GroupWithZero.Nat

/-!
Contract: loops that visit values from a stack on which they put others.

Owns: `Traversal`, what a visit does with the value on top of the stack; `Next`, by which visits go
on until one hands something out; `Drains`, by which this is repeated until the stack is empty; and
what both come to: they end, with a single result, and what they hand out is what any description
by recursion says.

Does not own: any particular loop. The tokens of a tree, the nodes with some symbol and the places
at which two trees differ are each found by a traversal.
-/

namespace ShiftReduce

/-- A visit hands something out for a value, or else it pushes others, of which the last is visited
next. What is pushed weighs less than what it is pushed for. -/
structure Traversal (α β : Type) where
  pick? : α → Option β
  push : α → List α
  weight : α → Nat
  lighter : ∀ value, pick? value = none → ((push value).map weight).sum < weight value

namespace Traversal

variable {α β : Type} {traversal : Traversal α β} {stack : List α}

/-- Visits from the top of a stack, which is the front of the list, until one hands something out:
this is found together with the stack that is left. -/
inductive Next (traversal : Traversal α β) : List α → Option (β × List α) → Prop where
  | exhausted : Next traversal [] none
  | picked {top : α} {rest : List α} {item : β} (picks : traversal.pick? top = some item) :
      Next traversal (top :: rest) (some (item, rest))
  | pushed {top : α} {rest : List α} {found : Option (β × List α)}
      (passes : traversal.pick? top = none)
      (next : Next traversal ((traversal.push top).reverse ++ rest) found) :
      Next traversal (top :: rest) found

/-- What is handed out, in this order, before the stack is empty. -/
inductive Drains (traversal : Traversal α β) : List α → List β → Prop where
  | done {stack : List α} (next : Next traversal stack none) : Drains traversal stack []
  | more {stack rest : List α} {item : β} {items : List β}
      (next : Next traversal stack (some (item, rest))) (drains : Drains traversal rest items) :
      Drains traversal stack (item :: items)

/-- The stacks that visits pass through before one hands something out. -/
inductive Passes (traversal : Traversal α β) (start : List α) : List α → Prop where
  | start : Passes traversal start start
  | visit {top : α} {rest : List α} (passes : Passes traversal start (top :: rest))
      (unpicked : traversal.pick? top = none) :
      Passes traversal start ((traversal.push top).reverse ++ rest)

/-! ## Results are reached, and there is one -/

theorem Next.unique {found other : Option (β × List α)} (next : traversal.Next stack found)
    (nextOther : traversal.Next stack other) : found = other := by
  induction next with
  | exhausted =>
      cases nextOther
      rfl
  | picked picks =>
      cases nextOther with
      | picked otherPicks =>
          rw [picks] at otherPicks
          cases otherPicks
          rfl
      | pushed passes =>
          rw [picks] at passes
          cases passes
  | pushed passes _ inductionHypothesis =>
      cases nextOther with
      | picked otherPicks =>
          rw [passes] at otherPicks
          cases otherPicks
      | pushed _ nextOther => exact inductionHypothesis nextOther

/-- Visits come to a result. The induction is on the weight of the stack. -/
theorem exists_next (traversal : Traversal α β) (stack : List α) :
    ∃ found, traversal.Next stack found := by
  induction weight : (stack.map traversal.weight).sum using Nat.strongRecOn generalizing stack with
  | ind total inductionHypothesis =>
      cases stack with
      | nil => exact ⟨none, .exhausted⟩
      | cons top rest =>
          cases picks : traversal.pick? top with
          | some item => exact ⟨some (item, rest), .picked picks⟩
          | none =>
              have lighter := traversal.lighter top picks
              have smaller : (((traversal.push top).reverse ++ rest).map traversal.weight).sum <
                  total := by
                rw [← weight, List.map_append, List.sum_append, List.map_reverse,
                  List.sum_reverse, List.map_cons, List.sum_cons]
                omega
              obtain ⟨found, next⟩ := inductionHypothesis _ smaller _ rfl
              exact ⟨found, .pushed picks next⟩

/-! ## What is handed out -/

section Description

variable {items : α → List β}
  (picked : ∀ value item, traversal.pick? value = some item → items value = [item])
  (passed : ∀ value, traversal.pick? value = none →
    items value = (traversal.push value).reverse.flatMap items)

include picked passed

/-- What is found first, and what can be found behind it. -/
theorem Next.flatMap_eq {found : Option (β × List α)} (next : traversal.Next stack found) :
    stack.flatMap items =
      found.elim [] fun (item, rest) => item :: rest.flatMap items := by
  induction next with
  | exhausted => rfl
  | picked picks =>
      rw [List.flatMap_cons, picked _ _ picks]
      rfl
  | pushed passes _ inductionHypothesis =>
      rw [← inductionHypothesis, List.flatMap_append, List.flatMap_cons, passed _ passes]

/-- A traversal hands out what the description says of the values of the stack, from its top on. -/
theorem drains_iff {found : List β} :
    traversal.Drains stack found ↔ found = stack.flatMap items := by
  constructor
  · intro drains
    induction drains with
    | done next => exact (next.flatMap_eq picked passed).symm
    | more next _ inductionHypothesis =>
        rw [next.flatMap_eq picked passed, inductionHypothesis]
        rfl
  · intro all
    subst all
    induction described : stack.flatMap items generalizing stack with
    | nil =>
        obtain ⟨found, next⟩ := traversal.exists_next stack
        have first := next.flatMap_eq picked passed
        cases found with
        | none => exact .done next
        | some =>
            rw [described] at first
            cases first
    | cons item later inductionHypothesis =>
        obtain ⟨found, next⟩ := traversal.exists_next stack
        have first := next.flatMap_eq picked passed
        rw [described] at first
        cases found with
        | none => cases first
        | some pair =>
            obtain ⟨rfl, rfl⟩ := List.cons.inj first
            exact .more next (inductionHypothesis rfl)

/-- What visits hand out first is the first that the description says. -/
theorem exists_next_iff_head? {first : Option β} :
    (∃ found, traversal.Next stack found ∧ found.map Prod.fst = first) ↔
      first = (stack.flatMap items).head? := by
  obtain ⟨reached, next⟩ := traversal.exists_next stack
  have head : (stack.flatMap items).head? = reached.map Prod.fst := by
    rw [next.flatMap_eq picked passed]
    cases reached with
    | none => rfl
    | some => rfl
  rw [head]
  constructor
  · intro found
    rcases found with ⟨found, nextFound, rfl⟩
    rw [nextFound.unique next]
  · intro same
    exact ⟨reached, next, same.symm⟩

end Description

/-- Nothing is handed out if nothing can be, of the values on the stack and of those below them. -/
theorem Next.eq_none_iff {Clear : α → Prop}
    (clear : ∀ value, Clear value ↔
      traversal.pick? value = none ∧ ∀ pushed ∈ traversal.push value, Clear pushed)
    {found : Option (β × List α)} (next : traversal.Next stack found) :
    found = none ↔ ∀ value ∈ stack, Clear value := by
  induction next with
  | exhausted => simp
  | picked picks =>
      constructor
      · intro impossible
        cases impossible
      · intro allClear
        have unpicked := ((clear _).mp (allClear _ List.mem_cons_self)).1
        rw [picks] at unpicked
        cases unpicked
  | @pushed top rest _ passes _ inductionHypothesis =>
      rw [inductionHypothesis, List.forall_mem_append, List.forall_mem_cons, clear top,
        and_iff_right passes]
      simp only [List.mem_reverse]

end Traversal

end ShiftReduce
