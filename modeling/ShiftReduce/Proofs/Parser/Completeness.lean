import ShiftReduce.Proofs.Parser.Driving
import ShiftReduce.Proofs.Parser.Soundness
import ShiftReduce.Proofs.Table.Conflicts

/-!
Contract: where nothing is in conflict, every sentence is parsed to its tree.

Owns: `Readable`, by which a tree is pushed whole wherever its symbol is expected and what may follow
stands behind it; its extension to the right side of a rule; and the theorem that the leaves of a
sentence are parsed to the sentence, so that no other sentence has the same leaves.
-/

namespace ShiftReduce

namespace Grammar

variable {T N : Type} [DecidableEq T] [DecidableEq N] {grammar : Grammar T N} {method : Method}

/-- The tree is pushed wherever an item expects its symbol and the token behind its leaves may follow
the rules that the item implies. -/
def Readable (grammar : Grammar T N) (method : Method) (tree : Tree T N) : Prop :=
  ∀ (frames : List (Frame T N)) (item : Item) (tokens : List (Token T)),
    grammar.Linked frames → item ∈ grammar.automaton.items (top frames) →
      item.next? grammar = some tree.symbol →
      (∀ new ∈ grammar.implied item,
        grammar.MayFollow (symbols frames) new (grammar.ahead tokens)) →
      ∃ target, grammar.automaton.goto? (top frames) tree.symbol = some target ∧
        grammar.Drives method frames (tree.tokens ++ tokens) (⟨target, tree⟩ :: frames) tokens

omit [DecidableEq T] in
/-- What may follow the rules that an item implies, with trees for the rest of the item behind. -/
private theorem mayFollow_ahead {access : List (Symbol T N)} {item new : Item}
    {rest : List (Tree T N)} {tokens : List (Token T)}
    (follows : grammar.MayFollow access item (grammar.ahead tokens))
    (implied : new ∈ grammar.implied item)
    (derives : grammar.Derives (item.suffix grammar) (spelling (rest.flatMap Tree.tokens))) :
    grammar.MayFollow access new (grammar.ahead (rest.flatMap Tree.tokens ++ tokens)) := by
  cases leaves : rest.flatMap Tree.tokens with
  | nil =>
      rw [leaves] at derives
      exact .inherits follows implied derives
  | cons token others =>
      rw [leaves] at derives
      exact .opens follows.valid implied ⟨_, derives⟩

/-- Trees for the rest of an item are pushed one after the other. The induction is on the trees; the
item advances with each. -/
theorem drives_forest {children : List (Tree T N)}
    (readable : ∀ child ∈ children, grammar.Readable method child)
    (derives : ∀ child ∈ children, grammar.Derives [child.symbol] (spelling child.tokens))
    {frames : List (Frame T N)} {item : Item} {tokens : List (Token T)}
    (linked : grammar.Linked frames)
    (follows : grammar.MayFollow (symbols frames) item (grammar.ahead tokens))
    (spelled : children.map Tree.symbol = (grammar.rule item.rule).rhs.drop item.marker) :
    ∃ upper, upper.map Frame.tree = children.reverse ∧ grammar.Linked (upper ++ frames) ∧
      grammar.Drives method frames (children.flatMap Tree.tokens ++ tokens) (upper ++ frames)
        tokens ∧
      grammar.MayFollow (symbols (upper ++ frames))
        ⟨item.rule, (grammar.rule item.rule).rhs.length⟩ (grammar.ahead tokens) := by
  induction children generalizing frames item with
  | nil =>
      have member := (valid_iff_of_walk linked.walk).mp follows.valid
      have within := (mem_allItems.mp (items_subset_allItems member)).2
      have beyond := List.drop_eq_nil_iff.mp spelled.symm
      have whole : item.marker = (grammar.rule item.rule).rhs.length := Nat.le_antisymm within beyond
      exact ⟨[], rfl, linked, .refl, by rw [← whole]; exact follows⟩
  | cons child rest inductionHypothesis =>
      obtain ⟨childReadable, restReadable⟩ := List.forall_mem_cons.mp readable
      obtain ⟨_, restDerives⟩ := List.forall_mem_cons.mp derives
      rw [List.map_cons] at spelled
      obtain ⟨expects, behind⟩ := expects_of_drop spelled.symm
      have suffixDerives := derives_spelling restDerives
      rw [← behind] at suffixDerives
      have member := (valid_iff_of_walk linked.walk).mp follows.valid
      obtain ⟨target, edge, reads⟩ := childReadable frames item (rest.flatMap Tree.tokens ++ tokens)
        linked member expects fun new implied => mayFollow_ahead follows implied suffixDerives
      have advanced := follows.advance expects
      rw [← symbols_cons ⟨target, child⟩ frames] at advanced
      obtain ⟨upper, trees, upperLinked, readsRest, completed⟩ :=
        @inductionHypothesis restReadable restDerives (⟨target, child⟩ :: frames) item.advance
          ⟨edge, linked⟩ advanced (by rw [← behind]; rfl)
      refine ⟨upper ++ [⟨target, child⟩], ?_, ?_, ?_, ?_⟩
      · rw [List.map_append, trees, List.reverse_cons]
        rfl
      · rwa [List.append_assoc]
      · rw [List.flatMap_cons, List.append_assoc, List.append_assoc]
        exact reads.trans readsRest
      · rwa [List.append_assoc]

/-- The induction is on the derivation. A leaf is shifted; a node has its children pushed, and then
the terminal behind its leaves is a lookahead of its completed rule. -/
theorem readable_of_isDerivation
    (empty : (grammar.study.compiled method).conflicts.isEmpty = true) {tree : Tree T N}
    (derivation : grammar.IsDerivation tree) : grammar.Readable method tree := by
  induction derivation with
  | leaf token =>
      intro frames item tokens linked member expects _
      obtain ⟨target, edge⟩ := exists_goto? member expects
      have listed := (listed_of_next? expects).1
      rw [Tree.tokens_leaf]
      exact ⟨target, edge, (drivesIn_shift listed edge).drives⟩
  | @node rule children isRule spelled derivations inductionHypothesis =>
      intro frames item tokens linked member expects mayFollow
      obtain ⟨id, bound, rfl⟩ := exists_id_of_mem isRule
      have implied : ⟨id, 0⟩ ∈ grammar.implied item :=
        implied_of_next? bound expects
      obtain ⟨target, edge⟩ := exists_goto? member expects
      obtain ⟨upper, trees, upperLinked, reads, completedFollows⟩ :=
        drives_forest inductionHypothesis (fun child under => (derivations child under).derives)
          linked (mayFollow _ implied) spelled
      have completed := completedFollows.valid.mem_completed upperLinked.walk
      have differs := rule_ne_accepting_of_implied implied
      have ordinary : (⟨id, (grammar.rule id).rhs.length⟩ : Item).isAccepting grammar = false :=
        decide_eq_false differs
      have lookahead := completedFollows.mem_reductionLookaheads method upperLinked.walk
      have unshifted := goto?_eq_none_of_isEmpty empty completed ordinary lookahead
      have action := (isUsable_of_isEmpty empty).action?_eq_reduce completed ordinary
        completedFollows.listed lookahead unshifted
      have length : upper.length = (grammar.rule id).rhs.length := by
        have sameLength := congrArg List.length trees
        rw [List.length_map, List.length_reverse] at sameLength
        rw [← spelled, List.length_map, sameLength]
      refine ⟨target, edge, ?_⟩
      rw [Tree.tokens_node]
      have reduces := drivesIn_reduce action bound length edge
      rw [trees, List.reverse_reverse] at reduces
      exact reads.trans reduces.drives

/-! ## Sentences -/

/-- The leaves of a sentence are accepted with the sentence, of which the root may be left out. -/
theorem exists_outcome_of_isSentence
    (empty : (grammar.study.compiled method).conflicts.isEmpty = true) {tree : Tree T N}
    (sentence : grammar.IsSentence tree) :
    ∃ outcome found, (grammar.driver method).Stops tree.tokens outcome ∧ outcome.errors = [] ∧
      outcome.fragments = [] ∧ outcome.tree = some found ∧ grammar.whole found = tree := by
  obtain ⟨children, rfl⟩ : ∃ children, tree = .node grammar.start children := by
    have root := sentence.root
    cases tree with
    | leaf token => cases root
    | node lhs children => exact ⟨children, by rw [Symbol.nonterminal.inj root]⟩
  have derivations : ∀ child ∈ children, grammar.IsDerivation child := fun child under =>
    isDerivation_child sentence.derivation under
  have spelled : children.map Tree.symbol = grammar.acceptingRule.rhs := sentence.spelled
  obtain ⟨upper, trees, linked, reads, follows⟩ := @drives_forest T N _ _ grammar method children
    (fun child under => readable_of_isDerivation empty (derivations child under))
    (fun child under => (derivations child under).derives) [] grammar.startItem [] trivial .start
    spelled
  rw [List.append_nil] at reads linked follows
  rw [List.append_nil] at reads
  obtain ⟨startStats, start⟩ := @exists_start_eq_facing T N _ _ grammar method
    (Tree.node grammar.start children).tokens
  rcases reads with ⟨steps, drives⟩
  obtain ⟨stats, reached⟩ := drives startStats
  rw [← Tree.tokens_node grammar.start, ← start] at reached
  let final : Configuration T N := .facing grammar.vocabulary upper [] stats
  have accepts : (grammar.driver method).step final =
      .stopped ((grammar.driver method).accept final) :=
    step_of_accept stats (follows.action?_eq_accept method linked.walk)
  have finalTrees : final.trees = children := by
    rw [Configuration.trees, show final.frames = upper from rfl, trees, List.reverse_reverse]
  refine ⟨(grammar.driver method).accept final, (grammar.driver method).acceptedTree final,
    ⟨steps + 1, ?_⟩, rfl, rfl, rfl, ?_⟩
  · rw [Parser.run_add reached, Parser.run, accepts]
  · rw [whole_acceptedTree (by rw [finalTrees, spelled]), finalTrees]

/-- Where the report of a method is empty, a parser reads the leaves of each sentence without errors
and hands out the sentence, or what is under its root if that is a single tree. No two sentences have
the same leaves. -/
theorem parses_sentence
    (empty : (grammar.study.compiled method).conflicts.isEmpty = true) {tree : Tree T N}
    (sentence : grammar.IsSentence tree) :
    (∃ parser outcome found, grammar.study.parser method = .ok parser ∧
      parser.Stops tree.tokens outcome ∧ outcome.errors = [] ∧ outcome.fragments = [] ∧
      outcome.tree = some found ∧
      if grammar.acceptingRule.rhs.length = 1 then tree.children = [found] else found = tree) ∧
    ∀ other, grammar.IsSentence other → other.tokens = tree.tokens → other = tree := by
  obtain ⟨outcome, found, stops, errors, fragments, handsOut, whole⟩ :=
    exists_outcome_of_isSentence empty sentence
  constructor
  · refine ⟨grammar.driver method, outcome, found, (isUsable_of_isEmpty empty).parser_eq, stops,
      errors, fragments, handsOut, ?_⟩
    unfold Grammar.whole at whole
    split
    · next single =>
        rw [if_pos single] at whole
        rw [← whole]
        rfl
    · next several => rwa [if_neg several] at whole
  · intro other otherSentence sameLeaves
    obtain ⟨otherOutcome, otherFound, otherStops, _, _, otherHandsOut, otherWhole⟩ :=
      exists_outcome_of_isSentence empty otherSentence
    rw [sameLeaves] at otherStops
    rw [otherStops.unique stops, handsOut] at otherHandsOut
    rw [← otherWhole, ← whole, Option.some.inj otherHandsOut]

/-- A single stroke. -/
def strokeTree : Tree Nat Nat :=
  .node 0 [.node 1 [.node 1 [], .leaf { terminal := 0, lexeme := "x" }]]

private theorem isSentence_strokeTree : strokes.IsSentence strokeTree := by
  have none : strokes.IsDerivation (.node 1 []) :=
    @IsDerivation.node _ _ strokes ⟨1, []⟩ [] (by simp [strokes]) rfl (by simp)
  have one : strokes.IsDerivation
      (.node 1 [.node 1 [], .leaf { terminal := 0, lexeme := "x" }]) := by
    refine @IsDerivation.node _ _ strokes ⟨1, [.nonterminal 1, .terminal 0]⟩ _ (by simp [strokes])
      rfl ?_
    simp only [List.mem_cons, List.not_mem_nil, or_false, forall_eq_or_imp, forall_eq]
    exact ⟨none, .leaf _⟩
  exact @isSentence_node _ _ strokes [_] rfl (List.forall_mem_singleton.mpr one)

theorem parses_strokeTree :
    ∃ parser outcome found, strokes.study.parser .lalr = .ok parser ∧
      parser.Stops strokeTree.tokens outcome ∧ outcome.errors = [] ∧ outcome.fragments = [] ∧
      outcome.tree = some found ∧ strokeTree.children = [found] :=
  (parses_sentence (by decide +kernel) isSentence_strokeTree).1

end Grammar

end ShiftReduce
