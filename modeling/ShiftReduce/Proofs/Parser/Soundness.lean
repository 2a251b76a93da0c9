import Mathlib.Data.List.TakeWhile
import ShiftReduce.Alphabet.Numbered
import ShiftReduce.Grammar.Outline
import ShiftReduce.Parser.Run
import ShiftReduce.Proofs.Parser.Stack

/-!
Contract: a tree that is handed out is a derivation of what has been read.

Owns: `Reads`, which ties the input to what is on the stack and what is still to be read; `Sound`,
the invariant of a run, which a step of each kind keeps; and the theorem that an accepted tree has
the input up to the end marker as its leaves and applies a rule in each node, with the statistics
that say so in numbers.
-/

namespace ShiftReduce

namespace Configuration

variable {T N : Type}

/-- The leaf tokens on the stack, from left to right. -/
def consumed (configuration : Configuration T N) : List (Token T) :=
  configuration.trees.flatMap Tree.tokens

/-- The input is what has been consumed and what is still to be read, the first token of which is
the lookahead unless the input has come to its end. -/
inductive Reads (vocabulary : Vocabulary T N) (tokens : List (Token T))
    (configuration : Configuration T N) : Prop where
  | inside (split : tokens =
        configuration.consumed ++ configuration.lookahead :: configuration.rest)
      (count : configuration.stats.tokens = configuration.consumed.length + 1)
  | ended (split : tokens = configuration.consumed) (nothing : configuration.rest = [])
      (ends : configuration.lookahead = vocabulary.endToken)
      (count : configuration.stats.tokens = configuration.consumed.length)

variable {configuration : Configuration T N} {vocabulary : Vocabulary T N}
  {tokens : List (Token T)}

theorem trees_readToken : (configuration.readToken vocabulary).trees = configuration.trees := by
  rw [trees, frames_readToken]
  rfl

theorem consumed_readToken :
    (configuration.readToken vocabulary).consumed = configuration.consumed := by
  rw [consumed, trees_readToken]
  rfl

theorem reads_readToken (split : tokens = configuration.consumed ++ configuration.rest)
    (count : configuration.stats.tokens = configuration.consumed.length) :
    (configuration.readToken vocabulary).Reads vocabulary tokens := by
  cases left : configuration.rest with
  | nil =>
      rw [left, List.append_nil] at split
      apply Reads.ended
      · rw [consumed_readToken, split]
      · simp [readToken, left]
      · simp [readToken, left]
      · rw [consumed_readToken]
        simp [readToken, left, count]
  | cons token rest =>
      apply Reads.inside
      · rw [consumed_readToken, split, left]
        simp [readToken, left]
      · rw [consumed_readToken]
        simp [readToken, left, count]

/-- A node in the place of the trees that it stands above. -/
theorem trees_enter {popped below : List (Frame T N)} {target : Nat} {lhs : N} :
    (configuration.enter target (.node lhs (popped.map Frame.tree).reverse) below).trees =
      (below.map Frame.tree).reverse ++ [.node lhs (popped.map Frame.tree).reverse] := by
  simp [trees, enter]

theorem trees_of_stacked {popped below : List (Frame T N)}
    (stacked : configuration.frames = popped ++ below) :
    configuration.trees = (below.map Frame.tree).reverse ++ (popped.map Frame.tree).reverse := by
  simp [trees, stacked]

theorem consumed_enter {popped below : List (Frame T N)} {target : Nat} {lhs : N}
    (stacked : configuration.frames = popped ++ below) :
    (configuration.enter target (.node lhs (popped.map Frame.tree).reverse) below).consumed =
      configuration.consumed := by
  rw [consumed, trees_enter, consumed, trees_of_stacked stacked, List.flatMap_append,
    List.flatMap_append, List.flatMap_singleton, Tree.tokens_node]

theorem Reads.lookahead_listed {configuration : Configuration T N}
    (reads : configuration.Reads vocabulary tokens)
    (listed : ∀ token ∈ tokens, vocabulary.terminals.Lists token.terminal)
    (endListed : vocabulary.terminals.Lists vocabulary.endMarker) :
    vocabulary.terminals.Lists configuration.lookahead.terminal := by
  cases reads with
  | inside split _ => exact listed _ (by simp [split])
  | ended _ _ ends _ =>
      rw [ends]
      exact endListed

end Configuration

namespace Grammar

variable {T N : Type} [DecidableEq T] [DecidableEq N] {grammar : Grammar T N} {method : Method}
  {tokens : List (Token T)}

/-- What holds of every configuration of a run on the tokens. -/
structure Sound (grammar : Grammar T N) (tokens : List (Token T))
    (configuration : Configuration T N) : Prop where
  linked : grammar.Linked configuration.frames
  derivations : ∀ tree ∈ configuration.trees, grammar.IsDerivation tree
  reads : configuration.Reads grammar.vocabulary tokens
  /-- The end marker is never consumed. -/
  unended : ∀ token ∈ configuration.consumed, token.isEnd grammar.vocabulary = false
  shifts : configuration.stats.shifts = configuration.consumed.length
  reductions : configuration.stats.reductions = Tree.forestInterior configuration.trees

theorem sound_start : grammar.Sound tokens ((grammar.driver method).start tokens) := by
  have frames : ((grammar.driver method).start tokens).frames = [] := by
    rw [Parser.start, Configuration.frames_readToken]
  have trees : ((grammar.driver method).start tokens).trees = [] := by
    rw [Configuration.trees, frames]
    rfl
  have consumed : ((grammar.driver method).start tokens).consumed = [] := by
    rw [Configuration.consumed, trees]
    rfl
  have stats : ((grammar.driver method).start tokens).stats.shifts = 0 ∧
      ((grammar.driver method).start tokens).stats.reductions = 0 := by
    cases tokens with
    | nil => exact ⟨rfl, rfl⟩
    | cons token rest => exact ⟨rfl, rfl⟩
  exact {
    linked := by rw [frames]; trivial
    derivations := by simp [trees]
    reads := Configuration.reads_readToken rfl rfl
    unended := by simp [consumed]
    shifts := by rw [stats.1, consumed]; rfl
    reductions := by rw [stats.2, trees]; rfl }

variable {configuration next : Configuration T N}

private theorem Sound.shift {target : Nat} (sound : grammar.Sound tokens configuration)
    (edge : grammar.automaton.goto? (top configuration.frames)
      (.terminal configuration.lookahead.terminal) = some target) :
    grammar.Sound tokens ((grammar.driver method).shift configuration target) := by
  have inside : configuration.lookahead.terminal ≠ grammar.vocabulary.endMarker := by
    intro ends
    rw [ends, goto?_endMarker] at edge
    cases edge
  have split : tokens = configuration.consumed ++ configuration.lookahead :: configuration.rest ∧
      configuration.stats.tokens = configuration.consumed.length + 1 := by
    cases sound.reads with
    | inside split count => exact ⟨split, count⟩
    | ended _ _ ends _ => exact absurd (congrArg Token.terminal ends) inside
  -- The configuration between the push and the next read.
  let pushed : Configuration T N :=
    { configuration with
      frames := ⟨target, .leaf configuration.lookahead⟩ :: configuration.frames
      stats := { configuration.stats with shifts := configuration.stats.shifts + 1 } }
  have shifted : (grammar.driver method).shift configuration target =
      pushed.readToken grammar.vocabulary := rfl
  have trees : pushed.trees = configuration.trees ++ [.leaf configuration.lookahead] := by
    simp [pushed, Configuration.trees]
  have consumed : pushed.consumed = configuration.consumed ++ [configuration.lookahead] := by
    rw [Configuration.consumed, trees, List.flatMap_append, List.flatMap_singleton,
      Tree.tokens_leaf]
    rfl
  have stats := (grammar.driver method).stats_shift configuration target
  rw [shifted]
  exact {
    linked := by
      rw [Configuration.frames_readToken]
      exact ⟨edge, sound.linked⟩
    derivations := by
      rw [Configuration.trees_readToken, trees]
      intro tree member
      rcases List.mem_append.mp member with old | new
      · exact sound.derivations tree old
      · exact List.mem_singleton.mp new ▸ .leaf _
    reads := by
      apply Configuration.reads_readToken
      · rw [consumed, split.1]
        simp [pushed]
      · rw [consumed, List.length_append]
        exact split.2
    unended := by
      rw [Configuration.consumed_readToken, consumed]
      intro token member
      rcases List.mem_append.mp member with old | new
      · exact sound.unended token old
      · rw [List.mem_singleton.mp new]
        exact decide_eq_false inside
    shifts := by
      rw [← shifted, stats.1, shifted, Configuration.consumed_readToken, consumed, sound.shifts,
        List.length_append]
      rfl
    reductions := by
      rw [← shifted, stats.2, shifted, Configuration.trees_readToken, trees, sound.reductions,
        Tree.forestInterior_append]
      rfl }

private theorem Sound.reduce {id : RuleId} {popped below : List (Frame T N)} {target : Nat}
    (sound : grammar.Sound tokens configuration) (bound : id < grammar.rules.size)
    (stacked : configuration.frames = popped ++ below)
    (read : symbols popped = (grammar.rule id).rhs)
    (edge : grammar.automaton.goto? (top below) (.nonterminal (grammar.rule id).lhs) =
      some target) :
    grammar.Sound tokens (configuration.enter target
      (.node (grammar.rule id).lhs (popped.map Frame.tree).reverse) below) := by
  have trees := Configuration.trees_of_stacked stacked
  have spelled : (popped.map Frame.tree).reverse.map Tree.symbol = (grammar.rule id).rhs := by
    rw [map_symbol_trees, read]
  have consumed := @Configuration.consumed_enter T N configuration popped below target
    (grammar.rule id).lhs stacked
  exact {
    linked := by
      have linked := sound.linked
      rw [stacked] at linked
      exact ⟨edge, linked.of_append⟩
    derivations := by
      rw [Configuration.trees_enter]
      have known := sound.derivations
      rw [trees] at known
      intro tree member
      rcases List.mem_append.mp member with old | new
      · exact known tree (List.mem_append_left _ old)
      · rw [List.mem_singleton.mp new]
        exact .node (rule_mem bound) spelled fun child under =>
          known child (List.mem_append_right _ under)
    reads := by
      cases sound.reads with
      | inside split count =>
          rw [← consumed] at split count
          exact .inside split count
      | ended split nothing ends count =>
          rw [← consumed] at split count
          exact .ended split nothing ends count
    unended := by
      rw [consumed]
      exact sound.unended
    shifts := by
      rw [consumed]
      exact sound.shifts
    reductions := by
      have old := sound.reductions
      rw [trees, Tree.forestInterior_append] at old
      rw [Configuration.trees_enter, Tree.forestInterior_append]
      simp only [Configuration.enter, Tree.forestInterior, Tree.interior]
      omega }

/-- As many tokens have been consumed as have been shifted. -/
theorem Sound.consumed_eq_take (sound : grammar.Sound tokens configuration) :
    configuration.consumed = tokens.take configuration.stats.shifts := by
  rw [sound.shifts]
  cases sound.reads with
  | inside split _ => rw [split, List.take_left]
  | ended split _ _ _ => rw [split, List.take_length]

/-- The lookahead is the token behind those that have been shifted, or the end where there is
none. -/
theorem Sound.lookahead_position (sound : grammar.Sound tokens configuration) :
    tokens[configuration.stats.shifts]? = some configuration.lookahead ∨
      tokens.length = configuration.stats.shifts ∧
        configuration.lookahead = grammar.vocabulary.endToken := by
  rw [sound.shifts]
  cases sound.reads with
  | inside split _ =>
      left
      rw [split, List.getElem?_append_right (Nat.le_refl _), Nat.sub_self]
      rfl
  | ended split _ ends _ => exact .inr ⟨congrArg List.length split, ends⟩

/-- The step lemma of the invariant. -/
theorem Sound.of_takes (sound : grammar.Sound tokens configuration)
    (takes : grammar.Takes method configuration (.running next)) : grammar.Sound tokens next := by
  cases takes with
  | shift edge => exact sound.shift edge
  | reduce completed _ _ stacked read edge =>
      exact sound.reduce (marker_eq_of_mem_completed completed).1 stacked read edge

theorem Sound.lookahead_listed (sound : grammar.Sound tokens configuration)
    (listed : ∀ token ∈ tokens, grammar.vocabulary.terminals.Lists token.terminal) :
    grammar.vocabulary.terminals.Lists configuration.lookahead.terminal :=
  sound.reads.lookahead_listed listed grammar.endMarker_listed

variable (method) in
theorem Sound.takes (sound : grammar.Sound tokens configuration)
    (listed : ∀ token ∈ tokens, grammar.vocabulary.terminals.Lists token.terminal) :
    grammar.Takes method configuration ((grammar.driver method).step configuration) :=
  takes_step sound.linked (sound.lookahead_listed listed)

/-- The run lemma of the invariant. -/
theorem Sound.of_run (sound : grammar.Sound tokens configuration)
    (listed : ∀ token ∈ tokens, grammar.vocabulary.terminals.Lists token.terminal) {steps : Nat}
    (reaches : (grammar.driver method).run steps configuration = .running next) :
    grammar.Sound tokens next := by
  induction steps generalizing configuration with
  | zero =>
      cases reaches
      exact sound
  | succ steps inductionHypothesis =>
      have takes := sound.takes method listed
      obtain ⟨middle, stepped, onward⟩ := Parser.exists_step_of_run reaches
      rw [stepped] at takes
      exact inductionHypothesis (sound.of_takes takes) onward

/-- What stops has been sound up to its last step. -/
theorem Sound.exists_last (sound : grammar.Sound tokens configuration)
    (listed : ∀ token ∈ tokens, grammar.vocabulary.terminals.Lists token.terminal) {steps : Nat}
    {outcome : Outcome T N}
    (stopped : (grammar.driver method).run steps configuration = .stopped outcome) :
    ∃ before last, (grammar.driver method).run before configuration = .running last ∧
      grammar.Sound tokens last ∧ grammar.Takes method last (.stopped outcome) := by
  obtain ⟨before, last, reaches, stops⟩ := Parser.exists_last_of_run stopped
  have lastSound := sound.of_run listed reaches
  have takes := lastSound.takes method listed
  rw [stops] at takes
  exact ⟨before, last, reaches, lastSound, takes⟩

/-! ## Acceptance -/

/-- What a parser says of the tokens when it hands out a tree. -/
structure Certifies (grammar : Grammar T N) (tokens : List (Token T)) (outcome : Outcome T N)
    (tree : Tree T N) : Prop where
  errors : outcome.errors = []
  fragments : outcome.fragments = []
  /-- The leaves are the tokens before the first end marker. -/
  leaves : tree.tokens = tokens.takeWhile fun token => !token.isEnd grammar.vocabulary
  sentence : grammar.IsSentence (grammar.whole tree)
  shifts : outcome.stats.shifts = tree.tokens.length
  /-- An end marker in the input is read, what follows it is not. -/
  reads : outcome.stats.tokens =
    tree.tokens.length + if tokens.any fun token => token.isEnd grammar.vocabulary then 1 else 0
  /-- The root of the derivation is not reduced. -/
  reductions : outcome.stats.reductions + 1 = (grammar.whole tree).interior

/-- The whole tree of an accepted input is the accepting rule above the trees on the stack. -/
theorem whole_acceptedTree
    (spelled : configuration.trees.map Tree.symbol = grammar.acceptingRule.rhs) :
    grammar.whole ((grammar.driver method).acceptedTree configuration) =
      .node grammar.start configuration.trees := by
  have lhs : grammar.acceptingRule.lhs = grammar.start := grammar.acceptingRule_lhs
  have length : grammar.acceptingRule.rhs.length = configuration.trees.length := by
    rw [← spelled, List.length_map]
  have sameRule : (grammar.driver method).grammar.acceptingRule = grammar.acceptingRule := rfl
  unfold whole Parser.acceptedTree
  simp only [sameRule, length, lhs]
  match configuration.trees with
  | [] => simp
  | [tree] => simp
  | first :: second :: rest => simp

omit [DecidableEq T] [DecidableEq N] in
theorem tokens_whole (tree : Tree T N) : (grammar.whole tree).tokens = tree.tokens := by
  unfold whole
  split
  · rw [Tree.tokens_node, List.flatMap_singleton]
  · rfl

/-- At an end marker, what has been consumed is the input up to the first one. -/
private theorem Sound.consumed_eq (sound : grammar.Sound tokens configuration)
    (ends : configuration.lookahead.terminal = grammar.vocabulary.endMarker) :
    configuration.consumed = tokens.takeWhile (fun token => !token.isEnd grammar.vocabulary) ∧
      configuration.stats.tokens = configuration.consumed.length +
        if tokens.any fun token => token.isEnd grammar.vocabulary then 1 else 0 := by
  have unended : ∀ token ∈ configuration.consumed,
      (!token.isEnd grammar.vocabulary) = true := fun token member => by
    rw [sound.unended token member]
    rfl
  have noneEnds : configuration.consumed.any (fun token => token.isEnd grammar.vocabulary) =
      false := List.any_eq_false.mpr fun token member => by simp [sound.unended token member]
  cases sound.reads with
  | inside split count =>
      have isEnd : configuration.lookahead.isEnd grammar.vocabulary = true := decide_eq_true ends
      rw [split, List.takeWhile_append_of_pos unended, List.any_append, noneEnds]
      simp [isEnd, count]
  | ended split _ _ count =>
      rw [split, List.takeWhile_eq_self_iff.mpr unended, noneEnds]
      simp [count]

theorem Sound.certifies (sound : grammar.Sound tokens configuration)
    (ends : configuration.lookahead.terminal = grammar.vocabulary.endMarker)
    (read : symbols configuration.frames = grammar.acceptingRule.rhs) :
    grammar.Certifies tokens ((grammar.driver method).accept configuration)
      ((grammar.driver method).acceptedTree configuration) := by
  have spelled : configuration.trees.map Tree.symbol = grammar.acceptingRule.rhs := by
    rw [Configuration.trees, map_symbol_trees, read]
  have whole := @whole_acceptedTree T N _ _ grammar method configuration spelled
  have leaves : ((grammar.driver method).acceptedTree configuration).tokens =
      configuration.consumed := by
    rw [← @tokens_whole T N grammar, whole, Tree.tokens_node]
    rfl
  obtain ⟨consumed, reads⟩ := sound.consumed_eq ends
  exact {
    errors := rfl
    fragments := rfl
    leaves := by rw [leaves, consumed]
    sentence := by
      rw [whole]
      exact isSentence_node spelled sound.derivations
    shifts := by
      rw [leaves]
      exact sound.shifts
    reads := by
      rw [leaves]
      exact reads
    reductions := by
      rw [whole, Tree.interior, ← sound.reductions]
      rfl }

/-- A run that ends with a tree ends in acceptance. -/
theorem Sound.certifies_of_run (sound : grammar.Sound tokens configuration)
    (listed : ∀ token ∈ tokens, grammar.vocabulary.terminals.Lists token.terminal) {steps : Nat}
    {outcome : Outcome T N} {tree : Tree T N}
    (stopped : (grammar.driver method).run steps configuration = .stopped outcome)
    (accepted : outcome.tree = some tree) : grammar.Certifies tokens outcome tree := by
  obtain ⟨_, last, _, lastSound, takes⟩ := sound.exists_last listed stopped
  cases takes with
  | accept ends read =>
      cases accepted
      exact lastSound.certifies ends read
  | reject => cases accepted

/-- A parser that can be had hands out no tree but a derivation of the tokens before the first end
marker, and its statistics are those of the derivation. -/
theorem certifies_of_stops {parser : Parser T N} {outcome : Outcome T N} {tree : Tree T N}
    (usable : grammar.study.parser method = .ok parser)
    (listed : ∀ token ∈ tokens, token.terminal ∈ grammar.vocabulary.terminals.all)
    (stops : parser.Stops tokens outcome) (accepted : outcome.tree = some tree) :
    grammar.Certifies tokens outcome tree := by
  obtain ⟨_, rfl⟩ := parser_eq_ok_iff.mp usable
  rcases stops with ⟨steps, stopped⟩
  exact sound_start.certifies_of_run
    (fun token member => grammar.terminals_listed _ (listed token member)) stopped accepted

/-- Any number of strokes: `S -> L`, `L -> L x` and `L -> ε`. -/
def strokes : Grammar Nat Nat := Outline.grammar
  { vocabulary :=
      { terminals := Numbering.alphabet { names := #["x", "end"], listed := 2 }
        nonterminals := Numbering.alphabet { names := #["S", "L"], listed := 2 }
        endMarker := 1 }
    start := 0
    rules := #[⟨0, [.nonterminal 1]⟩, ⟨1, [.nonterminal 1, .terminal 0]⟩, ⟨1, []⟩]
    accepting := 0
    defined := [0, 1] }

/-- Two strokes, an end marker and a third stroke that is not read. -/
def strokeTokens : List (Token Nat) :=
  [{ terminal := 0, lexeme := "x" }, { terminal := 0, lexeme := "y" },
    { terminal := 1, lexeme := "" }, { terminal := 0, lexeme := "z" }]

theorem certifies_strokes :
    ∃ outcome tree, (strokes.driver .slr).Stops strokeTokens outcome ∧
      outcome.tree = some tree ∧ strokes.Certifies strokeTokens outcome tree := by
  have usable : strokes.study.parser .slr = .ok (strokes.driver .slr) :=
    IsUsable.parser_eq (by decide +kernel)
  have accepts : (match (strokes.driver .slr).run 6 ((strokes.driver .slr).start strokeTokens) with
      | .stopped outcome => outcome.tree.isSome
      | .running _ => false) = true := by
    decide +kernel
  split at accepts
  · next outcome stopped =>
      obtain ⟨tree, accepted⟩ := Option.isSome_iff_exists.mp accepts
      exact ⟨outcome, tree, ⟨6, stopped⟩, accepted,
        certifies_of_stops usable (by decide) ⟨6, stopped⟩ accepted⟩
  · cases accepts

end Grammar

end ShiftReduce
