import ShiftReduce.Proofs.Parser.Integrity

/-!
Contract: what a parser hands out when it gives up.

Owns: `Conserves`, by which the fragments hold the tokens that have been shifted, each once and in
order, as derivation trees that lead to the state of the error, and the statistics count what has
been done; and the theorem that every run without a tree ends so.

Does not own: the invariant behind it (`ShiftReduce.Proofs.Parser.Soundness`), which holds of every
configuration and so of the one that a token is rejected in.
-/

namespace ShiftReduce

namespace Grammar

variable {T N : Type} [DecidableEq T] [DecidableEq N] {grammar : Grammar T N} {method : Method}
  {tokens : List (Token T)}

/-- The outcome accounts for the tokens up to the one that was refused in the state. -/
structure Conserves (grammar : Grammar T N) (tokens : List (Token T)) (outcome : Outcome T N)
    (state : Nat) (refused : Token T) : Prop where
  leaves : outcome.fragments.flatMap Tree.tokens = tokens.take outcome.stats.shifts
  unended : ∀ token ∈ tokens.take outcome.stats.shifts, token.isEnd grammar.vocabulary = false
  derivations : ∀ fragment ∈ outcome.fragments, grammar.IsDerivation fragment
  /-- The refused token is the next one of the input and has been read, or the end behind it. -/
  next : (tokens[outcome.stats.shifts]? = some refused ∧
      outcome.stats.tokens = outcome.stats.shifts + 1) ∨
    (tokens.length = outcome.stats.shifts ∧ refused = grammar.vocabulary.endToken ∧
      outcome.stats.tokens = outcome.stats.shifts)
  reductions : outcome.stats.reductions = Tree.forestInterior outcome.fragments
  walk : grammar.automaton.walk 0 (outcome.fragments.map Tree.symbol) = some state

/-- Giving up hands out the stack as it is. -/
theorem Sound.conserves {configuration : Configuration T N}
    (sound : grammar.Sound tokens configuration) :
    grammar.Conserves tokens ((grammar.driver method).reject configuration)
      ((grammar.driver method).topState configuration.frames) configuration.lookahead where
  leaves := sound.consumed_eq_take
  unended := by
    show ∀ token ∈ tokens.take configuration.stats.shifts, _
    rw [← sound.consumed_eq_take]
    exact sound.unended
  derivations := sound.derivations
  next := by
    show (tokens[configuration.stats.shifts]? = some configuration.lookahead ∧
      configuration.stats.tokens = configuration.stats.shifts + 1) ∨ _
    cases sound.reads with
    | inside split count =>
        left
        rw [count, sound.shifts, split, List.getElem?_append_right (Nat.le_refl _), Nat.sub_self]
        exact ⟨rfl, rfl⟩
    | ended split nothing ends count =>
        right
        have length := congrArg List.length split
        rw [← sound.shifts] at length count
        exact ⟨length, ends, count⟩
  reductions := sound.reductions
  walk := by
    show grammar.automaton.walk 0 (configuration.trees.map Tree.symbol) = _
    rw [Configuration.trees, map_symbol_trees, topState_driver]
    exact sound.linked.walk

/-- A parser that can be had and ends without a tree has refused a single token. Its fragments are
derivation trees of all tokens before that one, and its statistics count the tokens and the nodes
of these trees. -/
theorem conserves_of_stops {parser : Parser T N} {outcome : Outcome T N}
    (usable : grammar.study.parser method = .ok parser)
    (listed : ∀ token ∈ tokens, token.terminal ∈ grammar.vocabulary.terminals.all)
    (stops : parser.Stops tokens outcome) (failed : outcome.tree = none) :
    ∃ state refused expected, outcome.errors = [.unexpectedToken state refused expected] ∧
      grammar.Conserves tokens outcome state refused := by
  obtain ⟨_, rfl⟩ := parser_eq_ok_iff.mp usable
  rcases stops with ⟨steps, stopped⟩
  have listedTokens : ∀ token ∈ tokens, grammar.vocabulary.terminals.Lists token.terminal :=
    fun token member => grammar.terminals_listed _ (listed token member)
  obtain ⟨_, last, _, sound, takes⟩ := sound_start.exists_last listedTokens stopped
  cases takes with
  | accept => cases failed
  | reject => exact ⟨_, _, _, rfl, sound.conserves⟩

/-- The `e` is refused behind the leaf `a` and a node `A` above the leaf `x`. -/
theorem conserves_forked :
    ∃ outcome state refused expected,
      (forked.driver .slr).Stops forkedTokens outcome ∧
      outcome.stats = { tokens := 3, shifts := 2, reductions := 1 } ∧
      outcome.errors = [.unexpectedToken state refused expected] ∧
      forked.Conserves forkedTokens outcome state refused := by
  have rejects : (forked.driver .slr).stopsWith 4 forkedTokens (fun outcome =>
      outcome.tree.isNone && outcome.stats == { tokens := 3, shifts := 2, reductions := 1 })
        = true := by
    decide +kernel
  obtain ⟨outcome, stops, holds⟩ := Parser.exists_of_stopsWith rejects
  obtain ⟨noTree, stats⟩ := Bool.and_eq_true_iff.mp holds
  obtain ⟨state, refused, expected, single, conserves⟩ :=
    conserves_of_stops (parser_forked .slr) (by decide) stops
      (Option.isNone_iff_eq_none.mp noTree)
  exact ⟨outcome, state, refused, expected, stops, eq_of_beq stats, single, conserves⟩

end Grammar

end ShiftReduce
