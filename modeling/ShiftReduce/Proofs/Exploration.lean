import Mathlib.Data.List.Basic
import ShiftReduce.Exploration

/-!
Contract: explorations end by themselves, and what they find can be translated.

Owns: `Finishes`, by which a list is scanned to its end while it grows, with no bound on the visits;
the fact that an exploration with visits enough is what such a scan ends with; `Discovered`, by
which a found value is told from where it was first mentioned; and the translation of what is
reachable along any map that keeps steps, and of scans along one that also keeps values apart.
-/

namespace ShiftReduce.Exploration

variable {α β : Type} [DecidableEq α] [DecidableEq β]

/-- Visiting the found values from a position on, until there is none left to visit, ends with the
result. -/
inductive Finishes (next : α → List α) : Nat → List α → List α → Prop where
  | done {position : Nat} {found : List α} (beyond : found[position]? = none) :
      Finishes next position found found
  | visit {position : Nat} {found result : List α} {member : α}
      (waiting : found[position]? = some member)
      (finishes : Finishes next (position + 1) (addFresh found (next member)) result) :
      Finishes next position found result

variable {next : α → List α} {position : Nat} {found result : List α}

theorem Finishes.unique {other : List α} (finishes : Finishes next position found result)
    (finishesOther : Finishes next position found other) : result = other := by
  induction finishes with
  | done beyond =>
      cases finishesOther with
      | done => rfl
      | visit waiting =>
          rw [beyond] at waiting
          cases waiting
  | visit waiting _ inductionHypothesis =>
      cases finishesOther with
      | done beyond =>
          rw [beyond] at waiting
          cases waiting
      | visit otherWaiting finishesOther =>
          rw [waiting] at otherWaiting
          cases otherWaiting
          exact inductionHypothesis finishesOther

/-- The induction is on the visits, which are as many as values can still be found. -/
private theorem finishes_visit {space : List α}
    (spaceClosed : ∀ source ∈ space, ∀ target ∈ next source, target ∈ space) (visits : Nat)
    (nodup : found.Nodup) (inSpace : ∀ member ∈ found, member ∈ space)
    (enough : space.length ≤ visits + position) :
    Finishes next position found (visit next visits position found) := by
  induction visits generalizing position found with
  | zero =>
      have bounded : found.length ≤ space.length := nodup.length_le_of_subset fun _ => inSpace _
      apply Finishes.done
      rw [List.getElem?_eq_none_iff]
      omega
  | succ visits inductionHypothesis =>
      rw [visit]
      split
      · next beyond => exact .done beyond
      · next member waiting =>
          refine .visit waiting (inductionHypothesis (nodup_addFresh nodup) ?_ (by omega))
          intro fresh isFresh
          rcases mem_addFresh.mp isFresh with old | new
          · exact inSpace fresh old
          · exact spaceClosed member (inSpace member (List.mem_of_getElem? waiting)) fresh new

/-- With a visit for each value of a space that no step leaves, an exploration ends by itself. -/
theorem finishes_explore {visits : Nat} {seeds : List α} (space : List α)
    (seedsInSpace : ∀ seed ∈ seeds, seed ∈ space)
    (spaceClosed : ∀ source ∈ space, ∀ target ∈ next source, target ∈ space)
    (enough : space.length ≤ visits) :
    Finishes next 0 (addFresh [] seeds) (explore next visits seeds) := by
  apply finishes_visit spaceClosed visits (nodup_addFresh List.nodup_nil)
  · intro member isSeed
    rcases mem_addFresh.mp isSeed with impossible | isSeed
    · cases impossible
    · exact seedsInSpace member isSeed
  · exact enough

/-- Nothing is added to what has been found if the whole batch has. -/
theorem addFresh_eq_self {batch : List α} (known : ∀ member ∈ batch, member ∈ found) :
    addFresh found batch = found := by
  induction batch with
  | nil => rfl
  | cons head tail inductionHypothesis =>
      rw [addFresh, List.foldl_cons, if_pos (known head List.mem_cons_self)]
      exact inductionHypothesis fun member later => known member (List.mem_cons_of_mem _ later)

/-! ## The order of discovery -/

/-- The value at the index was first mentioned among the steps from a value before it: whatever is
mentioned earlier stands in front of it. -/
inductive Discovered (next : α → List α) (found : List α) (index : Nat) : Prop where
  | intro {source : Nat} {parent member : α} {before behind : List α} (earlier : source < index)
      (parentAt : found[source]? = some parent) (memberAt : found[index]? = some member)
      (leads : next parent = before ++ member :: behind)
      (known : ∀ other ∈ (found.take source).flatMap next ++ before, other ∈ found.take index)

omit [DecidableEq α] in
/-- What is found later changes nothing. -/
theorem Discovered.grow {index : Nat} (discovered : Discovered next found index)
    (grows : found <+: result) : Discovered next result index := by
  cases discovered with
  | intro earlier parentAt memberAt leads known =>
      have bound := (List.getElem?_eq_some_iff.mp memberAt).1
      have sameTake : ∀ count ≤ index, result.take count = found.take count := by
        intro count atMost
        obtain ⟨rest, rfl⟩ := grows
        exact List.take_append_of_le_length (Nat.le_trans atMost (Nat.le_of_lt bound))
      have keeps : ∀ {position : Nat} {value : α}, found[position]? = some value →
          result[position]? = some value := by
        intro position value lookup
        obtain ⟨rest, rfl⟩ := grows
        rw [List.getElem?_append_left (List.getElem?_eq_some_iff.mp lookup).1, lookup]
      refine .intro earlier (keeps parentAt) (keeps memberAt) leads ?_
      rw [sameTake _ (Nat.le_of_lt earlier), sameTake _ (Nat.le_refl index)]
      exact known

omit [DecidableEq α] in
private theorem mem_take_of_grown {index : Nat} {member : α} (grows : found <+: result)
    (shorter : found.length ≤ index) (isFound : member ∈ found) : member ∈ result.take index := by
  obtain ⟨rest, rfl⟩ := grows
  rw [List.take_append, List.take_of_length_le shorter]
  exact List.mem_append_left _ isFound

private theorem addFresh_cons (found tail : List α) (head : α) :
    addFresh found (head :: tail) =
      addFresh (if head ∈ found then found else found ++ [head]) tail :=
  rfl

/-- A value that a batch adds is first mentioned behind others that stand in front of it. -/
private theorem exists_mention {batch : List α} {index : Nat} {member : α}
    (fresh : found.length ≤ index) (memberAt : (addFresh found batch)[index]? = some member) :
    ∃ before behind, batch = before ++ member :: behind ∧
      ∀ other ∈ before, other ∈ (addFresh found batch).take index := by
  induction batch generalizing found with
  | nil => exact absurd (List.getElem?_eq_some_iff.mp memberAt).1 (Nat.not_lt.mpr fresh)
  | cons head tail inductionHypothesis =>
      rw [addFresh_cons] at memberAt ⊢
      split at memberAt
      · next isKnown =>
          rw [if_pos isKnown]
          obtain ⟨before, behind, split, known⟩ := inductionHypothesis fresh memberAt
          refine ⟨head :: before, behind, congrArg (head :: ·) split, ?_⟩
          have headKnown := mem_take_of_grown (prefix_addFresh found tail) fresh isKnown
          exact List.forall_mem_cons.mpr ⟨headKnown, known⟩
      · next isNew =>
          rw [if_neg isNew]
          have grown := prefix_addFresh (found ++ [head]) tail
          rcases Nat.lt_or_eq_of_le fresh with longer | rfl
          · have shorter : (found ++ [head]).length ≤ index := by
              rw [List.length_append]
              exact longer
            obtain ⟨before, behind, split, known⟩ := inductionHypothesis shorter memberAt
            refine ⟨head :: before, behind, congrArg (head :: ·) split, ?_⟩
            have headKnown := mem_take_of_grown grown shorter List.mem_concat_self
            exact List.forall_mem_cons.mpr ⟨headKnown, known⟩
          · -- The value is the head itself, right behind what had been found.
            obtain ⟨rest, split⟩ := grown
            rw [← split, List.append_assoc, List.getElem?_append_right (Nat.le_refl _),
              Nat.sub_self] at memberAt
            cases memberAt
            exact ⟨[], tail, rfl, nofun⟩

/-- The induction is on the scan: what has been visited is known, and what is new from the next
visit on stands behind what was found before. -/
private theorem Finishes.discovered_of_count {count : Nat}
    (finishes : Finishes next position found result)
    (visited : ∀ other ∈ (found.take position).flatMap next, other ∈ found)
    (discovered : ∀ index, count ≤ index → index < found.length → Discovered next found index) :
    ∀ index, count ≤ index → index < result.length → Discovered next result index := by
  induction finishes with
  | done _ => exact discovered
  | @visit position found result parent waiting _ inductionHypothesis =>
      have inRange : position < found.length := (List.getElem?_eq_some_iff.mp waiting).1
      have extended := prefix_addFresh found (next parent)
      have sameTake : ∀ size ≤ found.length,
          (addFresh found (next parent)).take size = found.take size := by
        intro size atMost
        obtain ⟨rest, split⟩ := extended
        rw [← split, List.take_append_of_le_length atMost]
      apply inductionHypothesis
      · intro other mentioned
        rw [sameTake _ inRange, List.take_add_one, waiting, Option.toList_some,
          List.flatMap_append, List.flatMap_singleton, List.mem_append] at mentioned
        exact mem_addFresh.mpr (mentioned.imp_left (visited other))
      · intro index counted bound
        by_cases old : index < found.length
        · exact (discovered index counted old).grow extended
        · have fresh := Nat.not_lt.mp old
          have memberAt := List.getElem?_eq_getElem bound
          obtain ⟨before, behind, leads, known⟩ := exists_mention fresh memberAt
          refine .intro (Nat.lt_of_lt_of_le inRange fresh) ?_ memberAt leads ?_
          · obtain ⟨rest, split⟩ := extended
            rw [← split, List.getElem?_append_left inRange, waiting]
          · rw [sameTake _ (Nat.le_of_lt inRange)]
            intro other mentioned
            rcases List.mem_append.mp mentioned with earlier | sameVisit
            · exact mem_take_of_grown extended fresh (visited other earlier)
            · exact known other sameVisit

/-- A scan that begins at the front discovers whatever it adds. -/
theorem Finishes.discovered (finishes : Finishes next 0 found result) {index : Nat}
    (added : found.length ≤ index) (bound : index < result.length) :
    Discovered next result index :=
  finishes.discovered_of_count (by simp) (fun _ fresh old => absurd old (Nat.not_lt.mpr fresh))
    index added bound

/-! ## Translation -/

omit [DecidableEq α] [DecidableEq β] in
/-- What is reachable stays so under a map that takes seeds to seeds and steps to steps. -/
theorem Reachable.map (translate : α → β) {other : β → List β} {seeds : List α} {others : List β}
    (leads : ∀ source, ∀ target ∈ next source, translate target ∈ other (translate source))
    (seedsMap : ∀ seed ∈ seeds, translate seed ∈ others) {member : α}
    (reached : Reachable next seeds member) : Reachable other others (translate member) := by
  induction reached with
  | seed isSeed => exact .seed (seedsMap _ isSeed)
  | step _ isNext inductionHypothesis => exact .step inductionHypothesis (leads _ _ isNext)

section Apart

variable {translate : α → β} {IsValue : α → Prop}
  (apart : ∀ left right, IsValue left → IsValue right → translate left = translate right →
    left = right)

include apart

theorem addFresh_map {batch : List α} (foundFits : ∀ member ∈ found, IsValue member)
    (batchFits : ∀ member ∈ batch, IsValue member) :
    addFresh (found.map translate) (batch.map translate) =
      (addFresh found batch).map translate := by
  unfold addFresh
  induction batch generalizing found with
  | nil => rfl
  | cons head tail inductionHypothesis =>
      have headFits := batchFits head List.mem_cons_self
      have known : translate head ∈ found.map translate ↔ head ∈ found := by
        constructor
        · intro listed
          obtain ⟨member, isMember, same⟩ := List.mem_map.mp listed
          rwa [← apart member head (foundFits member isMember) headFits same]
        · exact List.mem_map_of_mem
      have tailFits : ∀ member ∈ tail, IsValue member := fun member later =>
        batchFits member (List.mem_cons_of_mem _ later)
      rw [List.map_cons, List.foldl_cons, List.foldl_cons]
      by_cases isKnown : head ∈ found
      · rw [if_pos isKnown, if_pos (known.mpr isKnown)]
        exact inductionHypothesis foundFits tailFits
      · rw [if_neg isKnown, if_neg fun listed => isKnown (known.mp listed)]
        rw [← inductionHypothesis _ tailFits, List.map_append, List.map_singleton]
        intro member isMember
        rcases List.mem_append.mp isMember with old | isHead
        · exact foundFits member old
        · rwa [List.mem_singleton.mp isHead]

omit [DecidableEq α] [DecidableEq β] in
theorem idxOf_map [BEq α] [LawfulBEq α] [BEq β] [LawfulBEq β]
    (foundFits : ∀ member ∈ found, IsValue member) {member : α}
    (memberFits : IsValue member) :
    (found.map translate).idxOf (translate member) = found.idxOf member := by
  induction found with
  | nil => rfl
  | cons head tail inductionHypothesis =>
      have tailFits : ∀ value ∈ tail, IsValue value := fun value later =>
        foundFits value (List.mem_cons_of_mem _ later)
      have sameHead : translate head = translate member ↔ head = member :=
        ⟨apart head member (foundFits head List.mem_cons_self) memberFits, congrArg translate⟩
      by_cases isHead : head = member
      · rw [List.map_cons, isHead, List.idxOf_cons_self, List.idxOf_cons_self]
      · rw [List.map_cons, List.idxOf_cons_ne _ (mt sameHead.mp isHead),
          List.idxOf_cons_ne _ isHead, inductionHypothesis tailFits]

/-- A scan is translated value by value. -/
theorem Finishes.map {other : β → List β}
    (closed : ∀ source, IsValue source → ∀ target ∈ next source, IsValue target)
    (commutes : ∀ source, other (translate source) = (next source).map translate)
    (foundFits : ∀ member ∈ found, IsValue member)
    (finishes : Finishes next position found result) :
    Finishes other position (found.map translate) (result.map translate) := by
  induction finishes with
  | done beyond => exact .done (by rw [List.getElem?_map, beyond, Option.map_none])
  | @visit position found result member waiting _ inductionHypothesis =>
      have memberFits := foundFits member (List.mem_of_getElem? waiting)
      have nextFits := closed member memberFits
      apply Finishes.visit (by rw [List.getElem?_map, waiting, Option.map_some])
      rw [commutes, addFresh_map apart foundFits nextFits]
      apply inductionHypothesis
      intro fresh isFresh
      rcases mem_addFresh.mp isFresh with old | new
      · exact foundFits fresh old
      · exact nextFits fresh new

end Apart

end ShiftReduce.Exploration
