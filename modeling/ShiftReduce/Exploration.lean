/-!
Contract: breadth-first discovery over a successor function.

Owns: `explore`, which lists what a list of seeds leads to, in the order of discovery, and the
relation `Reachable` that it decides. Closures of item sets, the states of an automaton and the way
lookaheads spread are all explorations.

Does not own: the bound on the number of visits. A caller passes any number that is at least the
number of values that can be found; `mem_explore_iff` says in which sense that is enough.
-/

namespace ShiftReduce.Exploration

variable {α : Type} [DecidableEq α]

/-- What has been found, followed by those members of the batch that are new, each once. -/
def addFresh (found batch : List α) : List α :=
  batch.foldl (fun found member => if member ∈ found then found else found ++ [member]) found

/-- Visits the found values from a position on; each visit adds what the value leads to. -/
def visit (next : α → List α) : Nat → Nat → List α → List α
  | 0, _, found => found
  | visits + 1, position, found =>
      match found[position]? with
      | none => found
      | some member => visit next visits (position + 1) (addFresh found (next member))

/-- Everything the seeds lead to, in order of discovery, after at most `visits` visits. -/
def explore (next : α → List α) (visits : Nat) (seeds : List α) : List α :=
  visit next visits 0 (addFresh [] seeds)

/-- A value is reachable if it is a seed or a reachable value leads to it. -/
inductive Reachable (next : α → List α) (seeds : List α) : α → Prop where
  | seed {member : α} (isSeed : member ∈ seeds) : Reachable next seeds member
  | step {source target : α} (reached : Reachable next seeds source)
      (leads : target ∈ next source) : Reachable next seeds target

omit [DecidableEq α] in
/-- What is reachable from reachable seeds is reachable. -/
theorem Reachable.of_seeds {next : α → List α} {seeds sources : List α} {member : α}
    (reached : Reachable next seeds member)
    (seedsReached : ∀ seed ∈ seeds, Reachable next sources seed) :
    Reachable next sources member := by
  induction reached with
  | seed isSeed => exact seedsReached _ isSeed
  | step _ leads inductionHypothesis => exact .step inductionHypothesis leads

/-! ## Adding a batch -/

theorem mem_addFresh {member : α} {found batch : List α} :
    member ∈ addFresh found batch ↔ member ∈ found ∨ member ∈ batch := by
  unfold addFresh
  induction batch generalizing found with
  | nil => simp
  | cons head tail inductionHypothesis =>
      rw [List.foldl_cons, inductionHypothesis]
      by_cases known : head ∈ found
      · rw [if_pos known, List.mem_cons]
        refine ⟨fun h => h.elim .inl (fun later => .inr (.inr later)), fun h => ?_⟩
        rcases h with old | rfl | later
        · exact .inl old
        · exact .inl known
        · exact .inr later
      · rw [if_neg known, List.mem_append, List.mem_singleton, List.mem_cons, or_assoc]

theorem nodup_addFresh {found batch : List α} (nodup : found.Nodup) :
    (addFresh found batch).Nodup := by
  unfold addFresh
  induction batch generalizing found with
  | nil => exact nodup
  | cons head tail inductionHypothesis =>
      rw [List.foldl_cons]
      by_cases known : head ∈ found
      · rw [if_pos known]
        exact inductionHypothesis nodup
      · rw [if_neg known]
        refine inductionHypothesis (List.nodup_append.mpr ⟨nodup, by simp, ?_⟩)
        intro old oldMember new newMember equal
        rw [List.mem_singleton] at newMember
        exact known (newMember ▸ equal ▸ oldMember)

theorem prefix_addFresh (found batch : List α) : found <+: addFresh found batch := by
  unfold addFresh
  induction batch generalizing found with
  | nil => exact List.prefix_refl found
  | cons head tail inductionHypothesis =>
      rw [List.foldl_cons]
      refine List.IsPrefix.trans ?_ (inductionHypothesis _)
      split
      · exact List.prefix_refl found
      · exact List.prefix_append found [head]

/-! ## Exploring -/

private theorem mem_visit_of_mem (next : α → List α) (visits position : Nat) {member : α}
    {found : List α} (isFound : member ∈ found) : member ∈ visit next visits position found := by
  induction visits generalizing position found with
  | zero => exact isFound
  | succ visits inductionHypothesis =>
      rw [visit]
      split
      · exact isFound
      · exact inductionHypothesis _ (mem_addFresh.mpr (.inl isFound))

private theorem reachable_of_mem_visit {next : α → List α} {seeds : List α}
    (visits position : Nat) {found : List α}
    (foundReachable : ∀ member ∈ found, Reachable next seeds member) :
    ∀ member ∈ visit next visits position found, Reachable next seeds member := by
  induction visits generalizing position found with
  | zero => exact foundReachable
  | succ visits inductionHypothesis =>
      rw [visit]
      split
      · exact foundReachable
      next source lookup =>
        refine inductionHypothesis _ fun member inFresh => ?_
        rcases mem_addFresh.mp inFresh with old | new
        · exact foundReachable member old
        · exact .step (foundReachable source (List.mem_of_getElem? lookup)) new

/-- Once every value before the position has been expanded, the visits that remain expand the rest,
provided that they are as many as values can still be found. -/
private theorem closed_visit {next : α → List α} {space : List α}
    (spaceClosed : ∀ source ∈ space, ∀ target ∈ next source, target ∈ space)
    (visits position : Nat) {found : List α} (nodup : found.Nodup)
    (inSpace : ∀ member ∈ found, member ∈ space)
    (expanded : ∀ source ∈ found.take position, ∀ target ∈ next source, target ∈ found)
    (enough : space.length ≤ visits + position) :
    ∀ source ∈ visit next visits position found, ∀ target ∈ next source,
      target ∈ visit next visits position found := by
  induction visits generalizing position found with
  | zero =>
      have bounded : found.length ≤ space.length := nodup.length_le_of_subset fun _ => inSpace _
      rwa [List.take_of_length_le (by omega)] at expanded
  | succ visits inductionHypothesis =>
      rw [visit]
      split
      next lookup =>
        rwa [List.take_of_length_le (List.getElem?_eq_none_iff.mp lookup)] at expanded
      next current lookup =>
        have currentFound : current ∈ found := List.mem_of_getElem? lookup
        refine inductionHypothesis (position + 1) (nodup_addFresh nodup) ?_ ?_ (by omega)
        · intro member inFresh
          rcases mem_addFresh.mp inFresh with old | new
          · exact inSpace member old
          · exact spaceClosed current (inSpace current currentFound) member new
        · obtain ⟨rest, split⟩ := prefix_addFresh found (next current)
          have inRange : position < found.length := (List.getElem?_eq_some_iff.mp lookup).1
          intro source before target leads
          rw [← split, List.take_append_of_le_length (by omega), List.take_add_one, lookup,
            List.mem_append] at before
          rcases before with earlier | isCurrent
          · exact mem_addFresh.mpr (.inl (expanded source earlier target leads))
          · rw [Option.toList_some, List.mem_singleton] at isCurrent
            exact mem_addFresh.mpr (.inr (isCurrent ▸ leads))

theorem nodup_explore (next : α → List α) (visits : Nat) (seeds : List α) :
    (explore next visits seeds).Nodup := by
  have visited : ∀ visits position (found : List α), found.Nodup →
      (visit next visits position found).Nodup := by
    intro visits
    induction visits with
    | zero => exact fun _ _ nodup => nodup
    | succ visits inductionHypothesis =>
        intro position found nodup
        rw [visit]
        split
        · exact nodup
        · exact inductionHypothesis _ _ (nodup_addFresh nodup)
  exact visited visits 0 _ (nodup_addFresh List.nodup_nil)

private theorem prefix_visit (next : α → List α) (visits position : Nat) (found : List α) :
    found <+: visit next visits position found := by
  induction visits generalizing position found with
  | zero => exact List.prefix_refl found
  | succ visits inductionHypothesis =>
      rw [visit]
      split
      · exact List.prefix_refl found
      · exact (prefix_addFresh found _).trans (inductionHypothesis _ _)

/-- The seeds come first. -/
theorem prefix_explore (next : α → List α) (visits : Nat) (seeds : List α) :
    addFresh [] seeds <+: explore next visits seeds :=
  prefix_visit next visits 0 _

/-- Whatever the number of visits, only reachable values are listed. -/
theorem reachable_of_mem_explore {next : α → List α} {visits : Nat} {seeds : List α} {member : α}
    (listed : member ∈ explore next visits seeds) : Reachable next seeds member := by
  refine reachable_of_mem_visit visits 0 (fun member isSeed => ?_) member listed
  rcases mem_addFresh.mp isSeed with impossible | isSeed
  · cases impossible
  · exact .seed isSeed

/-- With a visit for each value of a space that no step leaves, everything reachable is listed. -/
theorem mem_explore_iff {next : α → List α} {visits : Nat} {seeds : List α} (space : List α)
    (seedsInSpace : ∀ seed ∈ seeds, seed ∈ space)
    (spaceClosed : ∀ source ∈ space, ∀ target ∈ next source, target ∈ space)
    (enough : space.length ≤ visits) {member : α} :
    member ∈ explore next visits seeds ↔ Reachable next seeds member := by
  refine ⟨reachable_of_mem_explore, fun reached => ?_⟩
  have seedsFound : ∀ seed ∈ seeds, seed ∈ addFresh [] seeds := fun seed isSeed =>
    mem_addFresh.mpr (.inr isSeed)
  have closed := closed_visit spaceClosed visits 0
    (nodup_addFresh List.nodup_nil)
    (fun member inSeeds =>
      (mem_addFresh.mp inSeeds).elim (fun h => nomatch h) (seedsInSpace member))
    (fun source before => by simp at before) (by omega)
  induction reached with
  | seed isSeed => exact mem_visit_of_mem next visits 0 (seedsFound _ isSeed)
  | step _ leads inductionHypothesis => exact closed _ inductionHypothesis _ leads

end ShiftReduce.Exploration
