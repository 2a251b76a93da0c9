import ShiftReduce.Proofs.Tree.Places

/-!
Contract: the nodes with one of some symbols that have no other such node above them.

Owns: `Carries` and `IsOutermost`, by which a path leads to a match and to an outermost one; and the
paths to the outermost matches by recursion over the tree, which are listed in order and once each.

A match is an outermost one or under one, so the paths miss no part of the tree that has a match.
-/

namespace ShiftReduce

namespace Occurrence

variable {T N : Type}

/-- The path does not begin with one of the children that are left out. -/
def Keeps (start : Nat) (path : List Nat) : Prop := ∀ first ∈ path.head?, start ≤ first

/-- The path leads to a node with one of the symbols. -/
def Carries (occurrence : Occurrence T N) (symbols : List (Symbol T N)) (path : List Nat) : Prop :=
  ∃ node, occurrence.descend? path = some node ∧ node.tree.symbol ∈ symbols

/-- The path leads to a match, and no other match is above it. -/
structure IsOutermost (occurrence : Occurrence T N) (symbols : List (Symbol T N))
    (path : List Nat) : Prop where
  carries : occurrence.Carries symbols path
  uncovered : ∀ above, above <+: path → above ≠ path → ¬occurrence.Carries symbols above

variable {occurrence : Occurrence T N} {symbols : List (Symbol T N)} {start position : Nat}
  {path : List Nat}

/-! ## Matches -/

theorem carries_nil_iff : occurrence.Carries symbols [] ↔ occurrence.tree.symbol ∈ symbols := by
  simp [Carries, descend?_nil]

theorem carries_cons_iff :
    occurrence.Carries symbols (position :: path) ↔
      ∃ child, occurrence.child? position = some child ∧ child.Carries symbols path := by
  simp only [Carries, descend?_cons, Option.bind_eq_some_iff]
  constructor
  · intro carries
    rcases carries with ⟨node, ⟨child, isChild, found⟩, isMatch⟩
    exact ⟨child, isChild, node, found, isMatch⟩
  · intro carries
    rcases carries with ⟨child, isChild, node, found, isMatch⟩
    exact ⟨node, ⟨child, isChild, found⟩, isMatch⟩

theorem isOutermost_nil_iff :
    occurrence.IsOutermost symbols [] ↔ occurrence.tree.symbol ∈ symbols := by
  rw [← carries_nil_iff]
  constructor
  · exact IsOutermost.carries
  · intro carries
    refine ⟨carries, ?_⟩
    intro above passed differs
    exact absurd (List.prefix_nil.mp passed) differs

theorem isOutermost_cons_iff :
    occurrence.IsOutermost symbols (position :: path) ↔ occurrence.tree.symbol ∉ symbols ∧
      ∃ child, occurrence.child? position = some child ∧ child.IsOutermost symbols path := by
  constructor
  · intro outermost
    rcases outermost with ⟨carries, uncovered⟩
    refine ⟨?_, ?_⟩
    · rw [← carries_nil_iff]
      exact uncovered [] List.nil_prefix (List.cons_ne_nil _ _).symm
    · obtain ⟨child, isChild, childCarries⟩ := carries_cons_iff.mp carries
      refine ⟨child, isChild, childCarries, ?_⟩
      intro above passed differs aboveCarries
      apply uncovered (position :: above) (List.cons_prefix_cons.mpr ⟨rfl, passed⟩)
      · exact fun same => differs (List.cons.inj same).2
      · exact carries_cons_iff.mpr ⟨child, isChild, aboveCarries⟩
  · intro outermost
    rcases outermost with ⟨rootFails, child, isChild, carries, uncovered⟩
    refine ⟨carries_cons_iff.mpr ⟨child, isChild, carries⟩, ?_⟩
    intro above passed differs
    rcases List.prefix_cons_iff.mp passed with rfl | ⟨rest, rfl, restPassed⟩
    · rwa [carries_nil_iff]
    · intro aboveCarries
      obtain ⟨other, isOther, restCarries⟩ := carries_cons_iff.mp aboveCarries
      rw [isChild] at isOther
      cases isOther
      exact uncovered rest restPassed (fun same => differs (congrArg _ same)) restCarries

/-- Every match is an outermost one or under one. -/
theorem Carries.exists_isOutermost (carries : occurrence.Carries symbols path) :
    ∃ above, above <+: path ∧ occurrence.IsOutermost symbols above := by
  induction path generalizing occurrence with
  | nil => exact ⟨[], List.prefix_rfl, isOutermost_nil_iff.mpr (carries_nil_iff.mp carries)⟩
  | cons position path inductionHypothesis =>
      by_cases rootMatches : occurrence.tree.symbol ∈ symbols
      · exact ⟨[], List.nil_prefix, isOutermost_nil_iff.mpr rootMatches⟩
      · obtain ⟨child, isChild, childCarries⟩ := carries_cons_iff.mp carries
        obtain ⟨above, passed, outermost⟩ := inductionHypothesis childCarries
        refine ⟨position :: above, List.cons_prefix_cons.mpr ⟨rfl, passed⟩, ?_⟩
        exact isOutermost_cons_iff.mpr ⟨rootMatches, child, isChild, outermost⟩

theorem keeps_cons_iff : Keeps start (position :: path) ↔ start ≤ position := by
  simp [Keeps]

theorem Keeps.of_prefix {above : List Nat} (keeps : Keeps start path) (passed : above <+: path) :
    Keeps start above := by
  obtain ⟨rest, rfl⟩ := passed
  cases above with
  | nil => exact nofun
  | cons => exact keeps_cons_iff.mpr (keeps_cons_iff.mp keeps)

/-! ## Paths to the outermost matches -/

variable [DecidableEq T] [DecidableEq N]

mutual

/-- The paths from the root of a tree. -/
def outermostPaths (symbols : List (Symbol T N)) : Tree T N → List (List Nat)
  | .leaf token => if symbols.contains (.terminal token.terminal) then [[]] else []
  | .node lhs children =>
      if symbols.contains (.nonterminal lhs) then [[]] else forestPaths symbols 0 children

/-- The paths from the node above some trees, of which the first stands at the position. -/
def forestPaths (symbols : List (Symbol T N)) : Nat → List (Tree T N) → List (List Nat)
  | _, [] => []
  | position, tree :: rest =>
      (outermostPaths symbols tree).map (position :: ·) ++ forestPaths symbols (position + 1) rest

end

/-- The paths that are left when the first children are left out. -/
def searchPaths (symbols : List (Symbol T N)) (start : Nat) (tree : Tree T N) : List (List Nat) :=
  if symbols.contains tree.symbol then [[]]
  else forestPaths symbols start (tree.children.drop start)

theorem searchPaths_of_mem {tree : Tree T N} (isMatch : tree.symbol ∈ symbols) :
    searchPaths symbols start tree = [[]] := by
  rw [searchPaths, if_pos (List.contains_iff_mem.mpr isMatch)]

theorem searchPaths_of_not_mem {tree : Tree T N} (noMatch : tree.symbol ∉ symbols) :
    searchPaths symbols start tree = forestPaths symbols start (tree.children.drop start) := by
  rw [searchPaths, if_neg (mt List.contains_iff_mem.mp noMatch)]

theorem outermostPaths_eq (symbols : List (Symbol T N)) (tree : Tree T N) :
    outermostPaths symbols tree = searchPaths symbols 0 tree := by
  cases tree with
  | leaf token =>
      rw [outermostPaths, searchPaths]
      rfl
  | node lhs children =>
      rw [outermostPaths, searchPaths]
      rfl

theorem mem_forestPaths {trees : List (Tree T N)} :
    path ∈ forestPaths symbols position trees ↔ ∃ index tree further,
      trees[index]? = some tree ∧ further ∈ outermostPaths symbols tree ∧
        path = (position + index) :: further := by
  induction trees generalizing position with
  | nil => simp [forestPaths]
  | cons tree rest inductionHypothesis =>
      rw [forestPaths, List.mem_append, List.mem_map, inductionHypothesis]
      constructor
      · intro listed
        rcases listed with ⟨further, member, rfl⟩ | ⟨index, other, further, found, member, rfl⟩
        · exact ⟨0, tree, further, rfl, member, rfl⟩
        · exact ⟨index + 1, other, further, found, member, by rw [Nat.add_right_comm]; rfl⟩
      · intro listed
        rcases listed with ⟨index, other, further, found, member, rfl⟩
        cases index with
        | zero =>
            cases found
            exact .inl ⟨further, member, rfl⟩
        | succ index =>
            exact .inr ⟨index, other, further, found, member, by rw [Nat.add_right_comm]; rfl⟩

theorem keeps_zero (path : List Nat) : Keeps 0 path := fun _ _ => Nat.zero_le _

/-- The recursion lists the outermost matches that are not left out. The induction is on the path,
from the root of the tree down. -/
theorem mem_searchPaths_iff :
    path ∈ searchPaths symbols start occurrence.tree ↔
      occurrence.IsOutermost symbols path ∧ Keeps start path := by
  induction path generalizing occurrence start with
  | nil =>
      have keeps : Keeps start [] := nofun
      rw [isOutermost_nil_iff, and_iff_left keeps]
      by_cases rootMatches : occurrence.tree.symbol ∈ symbols
      · simp [searchPaths_of_mem, rootMatches]
      · simp [searchPaths_of_not_mem, rootMatches, mem_forestPaths]
  | cons position path inductionHypothesis =>
      rw [isOutermost_cons_iff, keeps_cons_iff]
      by_cases rootMatches : occurrence.tree.symbol ∈ symbols
      · simp [searchPaths_of_mem, rootMatches]
      · rw [searchPaths_of_not_mem rootMatches, mem_forestPaths, and_iff_right rootMatches]
        constructor
        · intro listed
          rcases listed with ⟨index, tree, further, found, member, same⟩
          obtain ⟨rfl, rfl⟩ := List.cons.inj same
          rw [List.getElem?_drop] at found
          rw [outermostPaths_eq] at member
          refine ⟨⟨⟨_, tree⟩, child?_eq_some_iff.mpr ⟨found, rfl⟩, ?_⟩, Nat.le_add_right _ _⟩
          exact (inductionHypothesis.mp member).1
        · intro outermost
          rcases outermost with ⟨⟨child, isChild, outermost⟩, atLeast⟩
          refine ⟨position - start, child.tree, path, ?_, ?_, ?_⟩
          · rw [List.getElem?_drop, Nat.add_sub_cancel' atLeast]
            exact (child?_eq_some_iff.mp isChild).1
          · rw [outermostPaths_eq]
            exact inductionHypothesis.mpr ⟨outermost, keeps_zero path⟩
          · rw [Nat.add_sub_cancel' atLeast]

mutual

theorem pairwise_outermostPaths (symbols : List (Symbol T N)) :
    ∀ tree : Tree T N, (outermostPaths symbols tree).Pairwise Precedes
  | .leaf token => by
      rw [outermostPaths]
      split
      · exact List.pairwise_singleton _ _
      · exact .nil
  | .node lhs children => by
      rw [outermostPaths]
      split
      · exact List.pairwise_singleton _ _
      · exact pairwise_forestPaths symbols 0 children

theorem pairwise_forestPaths (symbols : List (Symbol T N)) :
    ∀ (position : Nat) (trees : List (Tree T N)),
      (forestPaths symbols position trees).Pairwise Precedes
  | _, [] => .nil
  | position, tree :: rest => by
      rw [forestPaths, List.pairwise_append, List.pairwise_map]
      refine ⟨?_, pairwise_forestPaths symbols (position + 1) rest, ?_⟩
      · exact (pairwise_outermostPaths symbols tree).imp .cons
      · intro first member second laterMember
        obtain ⟨further, _, rfl⟩ := List.mem_map.mp member
        obtain ⟨index, _, _, _, _, rfl⟩ := mem_forestPaths.mp laterMember
        exact .rel (by omega)

end

theorem pairwise_searchPaths (symbols : List (Symbol T N)) (start : Nat) (tree : Tree T N) :
    (searchPaths symbols start tree).Pairwise Precedes := by
  rw [searchPaths]
  split
  · exact List.pairwise_singleton _ _
  · exact pairwise_forestPaths symbols start _

end Occurrence

end ShiftReduce
