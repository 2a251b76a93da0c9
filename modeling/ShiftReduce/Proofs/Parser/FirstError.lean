import ShiftReduce.Proofs.Automaton.Forms
import ShiftReduce.Proofs.Parser.Completeness
import ShiftReduce.Proofs.Parser.Foresight
import ShiftReduce.Proofs.Parser.Integrity

/-!
Contract: errors are found at the first token that is in no sentence.

Owns: the fact that what has been consumed begins a sentential form, whatever the conflicts; the
fact that without conflicts no sentence begins with what has been consumed and a lookahead that is
rejected; and `Pinpoints`, which says both of an error and of where in the input it is.
-/

namespace ShiftReduce

namespace Grammar

variable {T N : Type} [DecidableEq T] [DecidableEq N] {grammar : Grammar T N} {method : Method}
  {tokens : List (Token T)} {configuration : Configuration T N}

/-! ## What has been consumed -/

/-- An item is valid for what is on the stack. -/
theorem Linked.exists_valid {frames : List (Frame T N)} (linked : grammar.Linked frames) :
    ∃ item, grammar.Valid (symbols frames) item := by
  cases frames with
  | nil => exact ⟨grammar.startItem, .start⟩
  | cons frame below =>
      obtain ⟨item, member, expects⟩ := (goto?_eq_some_iff.mp linked.1).1
      have valid := valid_of_walk linked.2.walk member
      rw [symbols_cons]
      exact ⟨item.advance, valid.advance expects⟩

/-- What has been consumed begins a form that the accepting rule derives. -/
theorem Sound.exists_form (sound : grammar.Sound tokens configuration) :
    ∃ behind, grammar.Derives grammar.acceptingRule.rhs
        (spelling configuration.consumed ++ behind) ∧
      ∀ symbol ∈ behind, ∃ rule ∈ grammar.rules, symbol ∈ rule.rhs := by
  obtain ⟨item, valid⟩ := sound.linked.exists_valid
  obtain ⟨behind, derives, occur⟩ := valid.exists_form
  have spelled := derives_spelling fun tree member => (sound.derivations tree member).derives
  rw [Configuration.trees, map_symbol_trees] at spelled
  exact ⟨behind, derives.trans (spelled.append (.refl behind)), occur⟩

/-! ## What is rejected -/

/-- The lookahead stands in front of what has not been shifted. -/
theorem Sound.ahead_drop (sound : grammar.Sound tokens configuration) :
    grammar.ahead (tokens.drop configuration.stats.shifts) = configuration.lookahead.terminal := by
  rw [ahead, List.headD_eq_head?_getD, List.head?_drop]
  rcases sound.lookahead_position with inside | ⟨beyond, ends⟩
  · rw [inside]
    rfl
  · rw [List.getElem?_eq_none (Nat.le_of_eq beyond), ends]
    rfl

/-- Without conflicts, tokens that spell what the accepting rule derives are accepted. -/
private theorem exists_accepted (empty : (grammar.study.compiled method).conflicts.isEmpty = true)
    (derives : grammar.Derives grammar.acceptingRule.rhs (spelling tokens)) :
    ∃ outcome tree, (grammar.driver method).Stops tokens outcome ∧ outcome.tree = some tree := by
  obtain ⟨trees, spelled, derivations, rfl⟩ := exists_trees_of_derives derives
  have sentence := isSentence_node spelled derivations
  obtain ⟨outcome, found, stops, _, _, accepted, _⟩ := exists_outcome_of_isSentence empty sentence
  rw [Tree.tokens_node] at stops
  exact ⟨outcome, found, stops, accepted⟩

/-- A lookahead that is rejected is rejected whatever stands behind it. -/
private theorem stops_of_refused
    (listed : ∀ token ∈ tokens, grammar.vocabulary.terminals.Lists token.terminal) {before : Nat}
    (reaches : (grammar.driver method).run before ((grammar.driver method).start tokens) =
      .running configuration)
    (refused : (grammar.driver method).table.action? (top configuration.frames)
      configuration.lookahead.terminal = none)
    {others : List (Token T)} (same : grammar.ahead others = configuration.lookahead.terminal) :
    ∃ outcome, (grammar.driver method).Stops (tokens.take configuration.stats.shifts ++ others)
      outcome ∧ outcome.tree = none := by
  have sound := (@sound_start T N _ _ grammar method tokens).of_run listed reaches
  have lookaheadListed := sound.lookahead_listed listed
  obtain ⟨stats, starts⟩ := @exists_start_eq_facing T N _ _ grammar method tokens
  have noShifts : stats.shifts = 0 := by
    have count := (@sound_start T N _ _ grammar method tokens).shifts
    rw [starts] at count
    exact count
  have allShifts : configuration.stats.shifts =
      stats.shifts + (tokens.take configuration.stats.shifts).length := by
    rw [noShifts, Nat.zero_add, ← sound.consumed_eq_take]
    exact sound.shifts
  rw [starts, ← List.take_append_drop configuration.stats.shifts tokens] at reaches
  have drives := drivesIn_of_ahead_eq
    (fun token member => listed token (List.mem_of_mem_take member))
    (by rwa [sound.ahead_drop]) (sound.ahead_drop.trans same.symm) reaches allShifts
  obtain ⟨otherStats, otherStarts⟩ := @exists_start_eq_facing T N _ _ grammar method
    (tokens.take configuration.stats.shifts ++ others)
  obtain ⟨statsAfter, reachesOther⟩ := drives otherStats
  rw [← otherStarts] at reachesOther
  refine ⟨(grammar.driver method).reject
    (.facing grammar.vocabulary configuration.frames others statsAfter), ⟨before + 1, ?_⟩, rfl⟩
  rw [Parser.run_add reachesOther, Parser.run, Parser.step, action?_facing, same, refused]

/-- Without conflicts, no sentence begins with what has been consumed and a lookahead that is
rejected. -/
theorem not_derives_of_refused
    (empty : (grammar.study.compiled method).conflicts.isEmpty = true)
    (listed : ∀ token ∈ tokens, grammar.vocabulary.terminals.Lists token.terminal) {before : Nat}
    (reaches : (grammar.driver method).run before ((grammar.driver method).start tokens) =
      .running configuration)
    (refused : (grammar.driver method).table.action? (top configuration.frames)
      configuration.lookahead.terminal = none)
    {others : List (Token T)} (same : grammar.ahead others = configuration.lookahead.terminal) :
    ¬grammar.Derives grammar.acceptingRule.rhs
      (spelling (tokens.take configuration.stats.shifts ++ others)) := by
  intro derives
  obtain ⟨rejection, rejects, noTree⟩ := stops_of_refused listed reaches refused same
  obtain ⟨acceptance, tree, accepts, accepted⟩ := exists_accepted empty derives
  rw [rejects.unique accepts, accepted] at noTree
  cases noTree

/-- The token stands behind so many others, which begin a sentence or at least a sentential form,
and no sentence goes on with it. -/
structure Pinpoints (grammar : Grammar T N) (tokens : List (Token T)) (token : Token T)
    (count : Nat) : Prop where
  position : tokens[count]? = some token ∨
    tokens.length = count ∧ token = grammar.vocabulary.endToken
  impossible : ∀ behind : List T, ¬grammar.Derives grammar.acceptingRule.rhs
    (spelling (tokens.take count) ++ .terminal token.terminal :: behind.map .terminal)
  /-- At the end of the input, a sentence is not complete. -/
  incomplete : token.terminal = grammar.vocabulary.endMarker →
    ¬grammar.Derives grammar.acceptingRule.rhs (spelling (tokens.take count))
  possible : ∃ behind, grammar.Derives grammar.acceptingRule.rhs
    (spelling (tokens.take count) ++ behind)
  completable : grammar.IsProductive → ∃ behind : List T,
    grammar.Derives grammar.acceptingRule.rhs
      (spelling (tokens.take count) ++ behind.map .terminal)

/-- Where the report of a method is empty, an unexpected token is the first one that no sentence
goes on with: what has been shifted before begins a sentential form, and a sentence if each
nonterminal of a right side derives a string of terminals. -/
theorem pinpoints_of_isEmpty
    (empty : (grammar.study.compiled method).conflicts.isEmpty = true)
    (listed : ∀ token ∈ tokens, token.terminal ∈ grammar.vocabulary.terminals.all) :
    ∃ parser, grammar.study.parser method = .ok parser ∧
      ∀ outcome, parser.Stops tokens outcome → ∀ state token expected,
        .unexpectedToken state token expected ∈ outcome.errors →
          grammar.Pinpoints tokens token outcome.stats.shifts := by
  refine ⟨grammar.driver method, (isUsable_of_isEmpty empty).parser_eq, ?_⟩
  intro outcome stops state token expected isError
  have listedTokens : ∀ token ∈ tokens, grammar.vocabulary.terminals.Lists token.terminal :=
    fun token member => grammar.terminals_listed _ (listed token member)
  obtain ⟨steps, stopped⟩ := stops
  obtain ⟨before, last, reaches, lastSound, takes⟩ := sound_start.exists_last listedTokens stopped
  cases takes with
  | accept => cases isError
  | reject refused =>
      cases List.mem_singleton.mp isError
      have forbids : ∀ others, grammar.ahead others = last.lookahead.terminal →
          ¬grammar.Derives grammar.acceptingRule.rhs
            (spelling (tokens.take last.stats.shifts ++ others)) := fun others same =>
        not_derives_of_refused empty listedTokens reaches refused same
      obtain ⟨behind, derives, occur⟩ := lastSound.exists_form
      rw [lastSound.consumed_eq_take] at derives
      exact {
        position := lastSound.lookahead_position
        impossible := by
          intro behind
          -- What the tokens behind the lookahead are like does not matter but for their terminals.
          let others := behind.map fun terminal => { last.lookahead with terminal }
          have spelled : (spelling others : List (Symbol T N)) = behind.map .terminal := by
            rw [spelling, List.map_map]
            rfl
          have refuses := forbids (last.lookahead :: others) rfl
          rw [spelling_append] at refuses
          rw [← spelled]
          exact refuses
        incomplete := by
          intro ends
          have refuses := forbids [] ends.symm
          rwa [List.append_nil] at refuses
        possible := ⟨behind, derives⟩
        completable := by
          intro productive
          obtain ⟨word, completes⟩ := productive.exists_word occur
          exact ⟨word, derives.trans (.append (.refl _) completes)⟩ }

theorem isProductive_forked : forked.IsProductive := by
  have middle : forked.Derives [.nonterminal 2] [] :=
    @derives_rhs Nat Nat forked ⟨2, []⟩ (by simp [forked])
  have whole : forked.Derives [.nonterminal 1] [.terminal 1, .terminal 3] :=
    @derives_rhs Nat Nat forked ⟨1, [.terminal 1, .terminal 3]⟩ (by simp [forked])
  intro rule isRule nonterminal occurs
  have either : nonterminal = 1 ∨ nonterminal = 2 := by
    simp only [forked, Outline.rules_grammar, List.mem_toArray, List.mem_cons, List.not_mem_nil,
      or_false] at isRule
    rcases isRule with rfl | rfl | rfl | rfl | rfl | rfl <;> simp_all
  rcases either with rfl | rfl
  · exact ⟨[1, 3], whole⟩
  · exact ⟨[], middle⟩

/-- Of `a x e`, the tokens `a x` begin a sentence, and `a x e` does not. The parser by FOLLOW has
made a reduction when it finds out. -/
theorem pinpoints_forked :
    ∃ parser outcome state token expected, forked.study.parser .slr = .ok parser ∧
      parser.Stops forkedTokens outcome ∧
      outcome.errors = [.unexpectedToken state token expected] ∧
      outcome.stats.shifts = 2 ∧ outcome.stats.reductions = 1 ∧
      forked.Pinpoints forkedTokens token outcome.stats.shifts ∧
      ∃ behind : List Nat, forked.Derives forked.acceptingRule.rhs
        (spelling (forkedTokens.take outcome.stats.shifts) ++ behind.map .terminal) := by
  obtain ⟨parser, usable, pinpoints⟩ :=
    @pinpoints_of_isEmpty Nat Nat _ _ forked .slr forkedTokens (by decide +kernel) (by decide)
  obtain ⟨_, rfl⟩ := parser_eq_ok_iff.mp usable
  have rejects : (forked.driver .slr).stopsWith 4 forkedTokens (fun outcome =>
      outcome.tree.isNone && outcome.stats.shifts == 2 && outcome.stats.reductions == 1) =
        true := by
    decide +kernel
  obtain ⟨outcome, stops, test⟩ := Parser.exists_of_stopsWith rejects
  simp only [Bool.and_eq_true, Option.isNone_iff_eq_none, beq_iff_eq] at test
  obtain ⟨⟨noTree, shifts⟩, reductions⟩ := test
  rcases errors_of_stops (by decide) stops with ⟨⟨tree, accepted⟩, _⟩ |
    ⟨_, state, token, expected, errors⟩
  · rw [noTree] at accepted
    cases accepted
  · have found := pinpoints outcome stops state token expected (by simp [errors])
    exact ⟨_, outcome, state, token, expected, usable, stops, errors, shifts, reductions, found,
      found.completable isProductive_forked⟩

end Grammar

end ShiftReduce
