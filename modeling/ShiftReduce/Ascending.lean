/-!
Contract: finite sets kept as ascending lists.

Owns: insertion into an ascending list, unions, and the ascending list of the members of any list,
with the facts that say which members they have and that they stay ascending.

Every set of terminals, symbols or items that a reader can see is listed in ascending order, so the
order is part of the value. `eq_of_mem_iff` is why that costs nothing: an ascending list is
determined by its members.
-/

namespace ShiftReduce.Ascending

variable {α : Type} {order : α → α → Ordering}

/-- The set with one more member, in its place; a member that is already there stays single. -/
def insert (order : α → α → Ordering) (member : α) : List α → List α
  | [] => [member]
  | head :: tail =>
      match order member head with
      | .lt => member :: head :: tail
      | .eq => head :: tail
      | .gt => head :: insert order member tail

/-- The members of the set together with those of any list. -/
def union (order : α → α → Ordering) (set members : List α) : List α :=
  members.foldl (fun union member => insert order member union) set

/-- The ascending list of the members of any list. -/
def ofList (order : α → α → Ordering) (members : List α) : List α :=
  union order [] members

/-- Each member lies strictly below the ones after it. -/
def IsAscending (order : α → α → Ordering) (set : List α) : Prop :=
  set.Pairwise fun lower upper => order lower upper = .lt

/-! ## Membership -/

theorem mem_insert [Std.LawfulEqCmp order] {member new : α} {set : List α} :
    member ∈ insert order new set ↔ member = new ∨ member ∈ set := by
  induction set with
  | nil => simp [insert]
  | cons head tail inductionHypothesis =>
      cases compared : order new head with
      | lt => simp [insert, compared]
      | eq =>
          have same : new = head := Std.LawfulEqCmp.eq_of_compare compared
          simp only [insert, compared, List.mem_cons]
          simp [same]
      | gt =>
          simp only [insert, compared, List.mem_cons, inductionHypothesis]
          exact or_left_comm

theorem mem_union [Std.LawfulEqCmp order] {member : α} {set members : List α} :
    member ∈ union order set members ↔ member ∈ set ∨ member ∈ members := by
  unfold union
  induction members generalizing set with
  | nil => simp
  | cons head tail inductionHypothesis =>
      rw [List.foldl_cons, inductionHypothesis, mem_insert, List.mem_cons]
      exact ⟨
        fun h => h.elim (fun h => h.elim (fun h => .inr (.inl h)) .inl) (fun h => .inr (.inr h)),
        fun h => h.elim (fun h => .inl (.inr h)) (fun h => h.elim (fun h => .inl (.inl h)) .inr)⟩

theorem mem_ofList [Std.LawfulEqCmp order] {member : α} {members : List α} :
    member ∈ ofList order members ↔ member ∈ members := by
  simp [ofList, mem_union]

/-! ## Order -/

theorem isAscending_insert [Std.TransCmp order] [Std.LawfulEqCmp order] {new : α} {set : List α}
    (ascending : IsAscending order set) : IsAscending order (insert order new set) := by
  induction set with
  | nil => simp [insert, IsAscending]
  | cons head tail inductionHypothesis =>
      obtain ⟨below, tailAscending⟩ := List.pairwise_cons.mp ascending
      cases compared : order new head with
      | lt =>
          simp only [insert, compared]
          refine List.pairwise_cons.mpr ⟨fun upper member => ?_, ascending⟩
          rcases List.mem_cons.mp member with rfl | later
          · exact compared
          · exact Std.TransCmp.lt_trans compared (below upper later)
      | eq => simpa [insert, compared] using ascending
      | gt =>
          simp only [insert, compared]
          refine List.pairwise_cons.mpr ⟨fun upper member => ?_, inductionHypothesis tailAscending⟩
          rcases mem_insert.mp member with rfl | later
          · exact Std.OrientedCmp.lt_of_gt compared
          · exact below upper later

theorem isAscending_union [Std.TransCmp order] [Std.LawfulEqCmp order] {set members : List α}
    (ascending : IsAscending order set) : IsAscending order (union order set members) := by
  unfold union
  induction members generalizing set with
  | nil => exact ascending
  | cons head tail inductionHypothesis => exact inductionHypothesis (isAscending_insert ascending)

theorem isAscending_ofList [Std.TransCmp order] [Std.LawfulEqCmp order] (members : List α) :
    IsAscending order (ofList order members) :=
  isAscending_union List.Pairwise.nil

/-- An ascending list is determined by its members. -/
theorem eq_of_mem_iff [Std.TransCmp order] [Std.LawfulEqCmp order] {left right : List α}
    (leftAscending : IsAscending order left) (rightAscending : IsAscending order right)
    (same : ∀ member, member ∈ left ↔ member ∈ right) : left = right := by
  induction left generalizing right with
  | nil =>
      cases right with
      | nil => rfl
      | cons head tail => exact absurd ((same head).mpr (by simp)) (by simp)
  | cons leftHead leftTail inductionHypothesis =>
      cases right with
      | nil => exact absurd ((same leftHead).mp (by simp)) (by simp)
      | cons rightHead rightTail =>
          obtain ⟨leftBelow, leftTailAscending⟩ := List.pairwise_cons.mp leftAscending
          obtain ⟨rightBelow, rightTailAscending⟩ := List.pairwise_cons.mp rightAscending
          have irreflexive : ∀ member : α, order member member ≠ .lt := fun member below => by
            have reflexive : order member member = .eq := Std.ReflCmp.compare_self
            rw [reflexive] at below
            cases below
          have headsEqual : leftHead = rightHead := by
            rcases List.mem_cons.mp ((same leftHead).mp (by simp)) with equal | inRight
            · exact equal
            rcases List.mem_cons.mp ((same rightHead).mpr (by simp)) with equal | inLeft
            · exact equal.symm
            exact absurd (Std.TransCmp.lt_trans (leftBelow _ inLeft) (rightBelow _ inRight))
              (irreflexive _)
          subst headsEqual
          refine congrArg (leftHead :: ·) (inductionHypothesis leftTailAscending
            rightTailAscending fun member => ⟨fun inLeft => ?_, fun inRight => ?_⟩)
          · have inOther := (same member).mp (List.mem_cons_of_mem _ inLeft)
            rcases List.mem_cons.mp inOther with rfl | found
            · exact absurd (leftBelow _ inLeft) (irreflexive _)
            · exact found
          · have inOther := (same member).mpr (List.mem_cons_of_mem _ inRight)
            rcases List.mem_cons.mp inOther with rfl | found
            · exact absurd (rightBelow _ inRight) (irreflexive _)
            · exact found

end ShiftReduce.Ascending
