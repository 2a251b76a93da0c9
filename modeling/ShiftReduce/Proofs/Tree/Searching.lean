import ShiftReduce.Proofs.Traversal
import ShiftReduce.Proofs.Tree.Outermost

/-!
Contract: which nodes a search by symbols finds.

Owns: the traversal that hands out matching nodes without looking under them; and the theorem that a
search finds what is at the ends of the paths to outermost matches, in their order, the first of
which comes before every other match, be it under another match or not.

A search for one symbol is a search for a list of one.
-/

namespace ShiftReduce

namespace Occurrence

variable {T N : Type}

/-- The path leads to a match that is not left out, and all others come behind it. -/
structure IsFirst (occurrence : Occurrence T N) (symbols : List (Symbol T N)) (start : Nat)
    (path : List Nat) : Prop where
  carries : occurrence.Carries symbols path
  keeps : Keeps start path
  precedes : ∀ other, occurrence.Carries symbols other → Keeps start other →
    path = other ∨ Precedes path other

variable [DecidableEq T] [DecidableEq N] {occurrence : Occurrence T N} {symbols : List (Symbol T N)}
  {start : Nat} {path : List Nat}

/-! ## The search -/

/-- Hands out a node with one of the symbols, and goes on to the children of any other. -/
def searching (symbols : List (Symbol T N)) : Traversal (Occurrence T N) (Occurrence T N) where
  pick? node := if symbols.contains node.tree.symbol then some node else none
  push node := node.below.reverse
  weight node := node.tree.size
  lighter node _ := by
    have sizes : (node.below.map fun child => child.tree.size) =
        (node.below.map tree).map Tree.size :=
      List.map_map.symm
    rw [List.map_reverse, List.sum_reverse, sizes, below, map_tree_numbered]
    exact node.tree.sum_size_children_lt

/-- What is to be visited when a search begins, from the top of the stack on. -/
def waiting (occurrence : Occurrence T N) (symbols : List (Symbol T N)) (start : Nat) :
    List (Occurrence T N) :=
  if symbols.contains occurrence.tree.symbol then [occurrence] else occurrence.below.drop start

theorem waiting_of_mem (isMatch : occurrence.tree.symbol ∈ symbols) :
    occurrence.waiting symbols start = [occurrence] := by
  rw [waiting, if_pos (List.contains_iff_mem.mpr isMatch)]

theorem waiting_of_not_mem (noMatch : occurrence.tree.symbol ∉ symbols) :
    occurrence.waiting symbols start =
      numbered (occurrence.childNumber start) (occurrence.tree.children.drop start) := by
  rw [waiting, if_neg (mt List.contains_iff_mem.mp noMatch), drop_below]

/-- The outermost matches in the subtree of a node. -/
def matchesUnder (symbols : List (Symbol T N)) (node : Occurrence T N) : List (Occurrence T N) :=
  (gatherMatches symbols node.number [node.tree] #[]).toList

private theorem gatherMatches_append (symbols : List (Symbol T N)) (number : Nat)
    (left right : List (Tree T N)) (found : Array (Occurrence T N)) :
    gatherMatches symbols number (left ++ right) found =
      gatherMatches symbols (number + Tree.forestSize left) right
        (gatherMatches symbols number left found) := by
  fun_induction gatherMatches symbols number left found with
  | case1 number found => rfl
  | case2 number tree rest found isMatch inductionHypothesis =>
      rw [List.cons_append, gatherMatches, if_pos isMatch, inductionHypothesis,
        Tree.countNodes_eq, Tree.forestSize, Tree.forestSize, Tree.forestSize, Nat.add_zero,
        Nat.add_assoc]
  | case3 number tree rest found noMatch inductionHypothesis =>
      have sizes : number + 1 + Tree.forestSize (tree.children ++ rest) =
          number + Tree.forestSize (tree :: rest) := by
        rw [Tree.forestSize_append, Tree.forestSize, tree.size_eq_forestSize_children]
        omega
      rw [List.cons_append, gatherMatches, if_neg noMatch, ← List.append_assoc,
        inductionHypothesis, sizes]

private theorem gatherMatches_behind (symbols : List (Symbol T N)) (before : Array (Occurrence T N))
    (number : Nat) (forest : List (Tree T N)) (found : Array (Occurrence T N)) :
    gatherMatches symbols number forest (before ++ found) =
      before ++ gatherMatches symbols number forest found := by
  fun_induction gatherMatches symbols number forest found with
  | case1 number found => rw [gatherMatches]
  | case2 number tree rest found isMatch inductionHypothesis =>
      rw [gatherMatches, if_pos isMatch, ← Array.append_push, inductionHypothesis]
  | case3 number tree rest found noMatch inductionHypothesis =>
      rw [gatherMatches, if_neg noMatch, inductionHypothesis]

/-- Trees side by side are searched one after the other. -/
private theorem toList_gatherMatches (symbols : List (Symbol T N)) (number : Nat)
    (forest : List (Tree T N)) :
    (gatherMatches symbols number forest #[]).toList =
      (numbered number forest).flatMap (matchesUnder symbols) := by
  induction forest generalizing number with
  | nil => simp [gatherMatches, numbered]
  | cons tree rest inductionHypothesis =>
      have behind := gatherMatches_behind symbols (gatherMatches symbols number [tree] #[])
        (number + tree.size) rest #[]
      rw [Array.append_empty] at behind
      rw [← List.singleton_append, gatherMatches_append, Tree.forestSize, Tree.forestSize,
        Nat.add_zero, behind, Array.toList_append, inductionHypothesis]
      rfl

theorem matchesUnder_of_mem {node : Occurrence T N} (isMatch : node.tree.symbol ∈ symbols) :
    matchesUnder symbols node = [node] := by
  rw [matchesUnder, gatherMatches, if_pos isMatch, gatherMatches]
  rfl

theorem matchesUnder_of_not_mem {node : Occurrence T N} (noMatch : node.tree.symbol ∉ symbols) :
    matchesUnder symbols node = node.below.flatMap (matchesUnder symbols) := by
  rw [matchesUnder, gatherMatches, if_neg noMatch, List.append_nil, toList_gatherMatches]
  rfl

theorem searchAll_eq_flatMap (occurrence : Occurrence T N) (symbols : List (Symbol T N))
    (start : Nat) :
    occurrence.searchAll symbols start =
      (occurrence.waiting symbols start).flatMap (matchesUnder symbols) := by
  rw [searchAll]
  split
  · next rootMatches =>
      rw [waiting_of_mem rootMatches, List.flatMap_singleton, matchesUnder_of_mem rootMatches]
  · next rootFails => rw [waiting_of_not_mem rootFails, toList_gatherMatches]

theorem pick?_eq_some_iff {node found : Occurrence T N} :
    (searching symbols).pick? node = some found ↔ node.tree.symbol ∈ symbols ∧ node = found := by
  simp [searching]

theorem pick?_eq_none_iff {node : Occurrence T N} :
    (searching symbols).pick? node = none ↔ node.tree.symbol ∉ symbols := by
  simp [searching]

theorem matchesUnder_of_picked (node found : Occurrence T N)
    (picks : (searching symbols).pick? node = some found) :
    matchesUnder symbols node = [found] := by
  obtain ⟨isMatch, rfl⟩ := pick?_eq_some_iff.mp picks
  exact matchesUnder_of_mem isMatch

theorem matchesUnder_of_passed (node : Occurrence T N)
    (passes : (searching symbols).pick? node = none) :
    matchesUnder symbols node =
      ((searching symbols).push node).reverse.flatMap (matchesUnder symbols) := by
  rw [matchesUnder_of_not_mem (pick?_eq_none_iff.mp passes)]
  exact congrArg (List.flatMap _) (List.reverse_reverse _).symm

/-! ## What is found -/

mutual

/-- What is at the ends of the paths is what is found. The induction goes along with the recursion
over a tree and over the children of a node. -/
theorem map_descend?_outermostPaths (symbols : List (Symbol T N)) :
    ∀ (tree : Tree T N) (number : Nat),
      (outermostPaths symbols tree).map (descend? { number, tree }) =
        (matchesUnder symbols { number, tree }).map some
  | .leaf token, number => by
      rw [outermostPaths]
      split
      · next isMatch =>
          rw [matchesUnder_of_mem (List.contains_iff_mem.mp isMatch)]
          rfl
      · next noMatch =>
          rw [matchesUnder_of_not_mem (mt List.contains_iff_mem.mpr noMatch)]
          rfl
  | .node lhs children, number => by
      rw [outermostPaths]
      split
      · next isMatch =>
          rw [matchesUnder_of_mem (List.contains_iff_mem.mp isMatch)]
          rfl
      · next noMatch =>
          have all := drop_below { number, tree := .node lhs children } 0
          rw [List.drop_zero] at all
          rw [matchesUnder_of_not_mem (mt List.contains_iff_mem.mpr noMatch), all]
          exact map_descend?_forestPaths symbols children _ 0 rfl

/-- The trees are children of the node, from a position on. -/
theorem map_descend?_forestPaths (symbols : List (Symbol T N)) :
    ∀ (trees : List (Tree T N)) (occurrence : Occurrence T N) (position : Nat),
      occurrence.tree.children.drop position = trees →
        (forestPaths symbols position trees).map occurrence.descend? =
          ((numbered (occurrence.childNumber position) trees).flatMap
            (matchesUnder symbols)).map some
  | [], _, _, _ => rfl
  | tree :: rest, occurrence, position, suffix => by
      have found : occurrence.tree.children[position]? = some tree := by
        rw [← List.head?_drop, suffix, List.head?_cons]
      have behind : occurrence.tree.children.drop (position + 1) = rest := by
        rw [← List.tail_drop, suffix, List.tail_cons]
      have isChild : occurrence.child? position =
          some { number := occurrence.childNumber position, tree } :=
        child?_eq_some_iff.mpr ⟨found, rfl⟩
      have inside : (fun path => occurrence.descend? (position :: path)) =
          descend? { number := occurrence.childNumber position, tree } := by
        funext path
        rw [descend?_cons, isChild, Option.bind_some]
      rw [forestPaths, List.map_append, List.map_map, numbered, List.flatMap_cons,
        List.map_append, ← childNumber_succ found,
        map_descend?_forestPaths symbols rest occurrence (position + 1) behind,
        ← map_descend?_outermostPaths symbols tree, ← inside]
      rfl

end

/-- A search finds what the paths lead to, in their order. -/
theorem map_descend?_searchPaths (occurrence : Occurrence T N) (symbols : List (Symbol T N))
    (start : Nat) :
    (searchPaths symbols start occurrence.tree).map occurrence.descend? =
      (occurrence.searchAll symbols start).map some := by
  rw [searchAll_eq_flatMap]
  by_cases rootMatches : occurrence.tree.symbol ∈ symbols
  · rw [waiting_of_mem rootMatches, searchPaths_of_mem rootMatches, List.flatMap_singleton,
      matchesUnder_of_mem rootMatches]
    rfl
  · rw [waiting_of_not_mem rootMatches, searchPaths_of_not_mem rootMatches]
    exact map_descend?_forestPaths symbols _ occurrence start rfl

omit [DecidableEq T] [DecidableEq N] in
/-- What paths lead to has ascending numbers if the paths are in order. -/
theorem pairwise_number {paths : List (List Nat)} {nodes : List (Occurrence T N)}
    (ascending : paths.Pairwise Precedes)
    (ends : paths.map occurrence.descend? = nodes.map some) :
    nodes.Pairwise fun first second => first.number < second.number := by
  induction nodes generalizing paths with
  | nil => exact .nil
  | cons node rest inductionHypothesis =>
      obtain ⟨path, later, rfl, atPath, atLater⟩ := List.map_eq_cons_iff.mp ends
      obtain ⟨first, laterAscending⟩ := List.pairwise_cons.mp ascending
      refine List.pairwise_cons.mpr ⟨?_, inductionHypothesis laterAscending atLater⟩
      intro other member
      have isEnd : some other ∈ later.map occurrence.descend? :=
        atLater ▸ List.mem_map_of_mem member
      obtain ⟨otherPath, isLater, atOther⟩ := List.mem_map.mp isEnd
      exact number_lt_of_precedes (first otherPath isLater) atPath atOther

omit [DecidableEq T] [DecidableEq N] in
theorem IsFirst.unique {other : List Nat} (isFirst : occurrence.IsFirst symbols start path)
    (otherFirst : occurrence.IsFirst symbols start other) : path = other := by
  rcases isFirst.precedes other otherFirst.carries otherFirst.keeps with same | before
  · exact same
  · rcases otherFirst.precedes path isFirst.carries isFirst.keeps with same | behind
    · exact same.symm
    · exact absurd behind before.asymm

/-- Either the first outermost match comes before all matches, or there is none at all. -/
theorem search?_cases (occurrence : Occurrence T N) (symbols : List (Symbol T N)) (start : Nat) :
    (occurrence.search? symbols start = none ∧
        ∀ path, occurrence.Carries symbols path → ¬Keeps start path) ∨
      ∃ path found, occurrence.IsFirst symbols start path ∧
        occurrence.descend? path = some found ∧
          occurrence.search? symbols start = some found := by
  have ends := map_descend?_searchPaths occurrence symbols start
  have ascending := pairwise_searchPaths symbols start occurrence.tree
  have covers : ∀ path, occurrence.Carries symbols path → Keeps start path →
      ∃ above ∈ searchPaths symbols start occurrence.tree, above <+: path := by
    intro path carries keeps
    obtain ⟨above, passed, outermost⟩ := carries.exists_isOutermost
    exact ⟨above, mem_searchPaths_iff.mpr ⟨outermost, keeps.of_prefix passed⟩, passed⟩
  have isMatch : ∀ path ∈ searchPaths symbols start occurrence.tree,
      occurrence.IsOutermost symbols path ∧ Keeps start path :=
    fun _ => mem_searchPaths_iff.mp
  rw [search?]
  cases listed : searchPaths symbols start occurrence.tree with
  | nil =>
      rw [listed] at ends covers
      left
      rw [List.map_eq_nil_iff.mp ends.symm]
      refine ⟨rfl, ?_⟩
      intro path carries keeps
      obtain ⟨above, impossible, _⟩ := covers path carries keeps
      cases impossible
  | cons first later =>
      rw [listed] at ends covers ascending isMatch
      obtain ⟨found, others, all, atFirst, _⟩ := List.map_eq_cons_iff.mp ends.symm
      obtain ⟨outermost, keeps⟩ := isMatch first List.mem_cons_self
      right
      rw [all]
      refine ⟨first, found, ⟨outermost.carries, keeps, ?_⟩, atFirst.symm, rfl⟩
      intro other carries otherKeeps
      obtain ⟨above, member, passed⟩ := covers other carries otherKeeps
      have fromAbove := eq_or_precedes_of_prefix passed
      rcases List.mem_cons.mp member with rfl | isLater
      · exact fromAbove
      · have before := (List.pairwise_cons.mp ascending).1 above isLater
        rcases fromAbove with rfl | behind
        · exact .inr before
        · exact .inr (before.trans behind)

theorem search?_eq_some_iff {found : Occurrence T N} :
    occurrence.search? symbols start = some found ↔
      ∃ path, occurrence.IsFirst symbols start path ∧ occurrence.descend? path = some found := by
  constructor
  · intro finds
    rcases search?_cases occurrence symbols start with ⟨nothing, _⟩ |
      ⟨path, other, isFirst, atPath, findsOther⟩
    · rw [finds] at nothing
      cases nothing
    · rw [finds] at findsOther
      cases findsOther
      exact ⟨path, isFirst, atPath⟩
  · intro isFirst
    rcases isFirst with ⟨path, isFirst, atPath⟩
    rcases search?_cases occurrence symbols start with ⟨_, noMatch⟩ |
      ⟨other, node, otherFirst, atOther, findsOther⟩
    · exact absurd isFirst.keeps (noMatch path isFirst.carries)
    · rw [isFirst.unique otherFirst, atOther] at atPath
      rw [findsOther, atPath]

theorem search?_eq_none_iff :
    occurrence.search? symbols start = none ↔
      ∀ path, occurrence.Carries symbols path → ¬Keeps start path := by
  rcases search?_cases occurrence symbols start with ⟨nothing, noMatch⟩ |
    ⟨path, found, isFirst, _, finds⟩
  · exact iff_of_true nothing noMatch
  · apply iff_of_false
    · rw [finds]
      exact Option.some_ne_none found
    · intro noMatch
      exact noMatch path isFirst.carries isFirst.keeps

/-- What a search finds: the loop ends and agrees with `searchAll`, which lists the outermost
matches in order, and with `search?`, which gives the first of all matches. -/
structure Searches (occurrence : Occurrence T N) (symbols : List (Symbol T N)) (start : Nat) :
    Prop where
  drains_iff : ∀ found, (searching symbols).Drains (occurrence.waiting symbols start) found ↔
    found = occurrence.searchAll symbols start
  next_iff : ∀ first, (∃ found, (searching symbols).Next (occurrence.waiting symbols start) found ∧
    found.map Prod.fst = first) ↔ first = occurrence.search? symbols start
  outermost : ∃ paths : List (List Nat), paths.Pairwise Precedes ∧
    paths.map occurrence.descend? = (occurrence.searchAll symbols start).map some ∧
    ∀ path, path ∈ paths ↔ occurrence.IsOutermost symbols path ∧ Keeps start path
  ascending : (occurrence.searchAll symbols start).Pairwise fun first second =>
    first.number < second.number
  finds_iff : ∀ found, occurrence.search? symbols start = some found ↔
    ∃ path, occurrence.IsFirst symbols start path ∧ occurrence.descend? path = some found
  finds_nothing_iff : occurrence.search? symbols start = none ↔
    ∀ path, occurrence.Carries symbols path → ¬Keeps start path

theorem searches (occurrence : Occurrence T N) (symbols : List (Symbol T N)) (start : Nat) :
    occurrence.Searches symbols start where
  drains_iff found := by
    rw [searchAll_eq_flatMap]
    exact Traversal.drains_iff matchesUnder_of_picked matchesUnder_of_passed
  next_iff first := by
    rw [search?, searchAll_eq_flatMap]
    exact Traversal.exists_next_iff_head? matchesUnder_of_picked matchesUnder_of_passed
  outermost := ⟨searchPaths symbols start occurrence.tree, pairwise_searchPaths symbols start _,
    map_descend?_searchPaths occurrence symbols start, fun _ => mem_searchPaths_iff⟩
  ascending := pairwise_number (pairwise_searchPaths symbols start _)
    (map_descend?_searchPaths occurrence symbols start)
  finds_iff _ := search?_eq_some_iff
  finds_nothing_iff := search?_eq_none_iff

end Occurrence

end ShiftReduce
