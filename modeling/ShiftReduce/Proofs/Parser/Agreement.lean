import ShiftReduce.Proofs.Lookahead.Continuations
import ShiftReduce.Proofs.Parser.Integrity
import ShiftReduce.Proofs.Table.Conflicts

/-!
Contract: the parsers of the two methods agree.

Owns: the fact that FOLLOW has a parser do whatever propagation has it do; `Wanders`, by which a
parser has only reduced in front of a lookahead that cannot come next; the fact that such a parser
reduces until it rejects the lookahead; and the theorem that by FOLLOW a parser accepts what it
accepts by propagation, and otherwise makes at most some more reductions before the same token.
-/

namespace ShiftReduce

namespace Grammar

variable {T N : Type} [DecidableEq T] [DecidableEq N] {grammar : Grammar T N} {method : Method}

/-! ## Actions under the two methods -/

/-- A usable table has an action on whatever can come next. -/
theorem Continues.exists_action? (usable : grammar.IsUsable method) {access : List (Symbol T N)}
    {terminal : T} (continues : grammar.Continues access terminal) {state : Nat}
    (walked : grammar.automaton.walk 0 access = some state) :
    ∃ action, (grammar.driver method).table.action? state terminal = some action := by
  cases continues with
  | reads valid expects =>
      obtain ⟨target, edge⟩ := exists_goto? ((valid_iff_of_walk walked).mp valid) expects
      have listed := (listed_of_next? expects).1
      exact ⟨_, (action?_eq_shift_iff listed).mpr edge⟩
  | @completes id follows =>
      by_cases accepting : id = grammar.accepting
      · subst accepting
        exact ⟨_, follows.action?_eq_accept method walked⟩
      · cases shifted : grammar.automaton.goto? state (.terminal terminal) with
        | some target => exact ⟨_, (action?_eq_shift_iff follows.listed).mpr shifted⟩
        | none =>
            have completed := follows.valid.mem_completed walked
            exact ⟨_, usable.action?_eq_reduce completed (decide_eq_false accepting) follows.listed
              (follows.mem_reductionLookaheads method walked) shifted⟩

/-- Whatever propagation has a parser do, FOLLOW has it do. -/
theorem IsUsable.action?_slr_of_lalr (usable : grammar.IsUsable .slr) {state : Nat} {terminal : T}
    (listed : grammar.vocabulary.terminals.Lists terminal) {action : Action}
    (acts : (grammar.driver .lalr).table.action? state terminal = some action) :
    (grammar.driver .slr).table.action? state terminal = some action := by
  cases action with
  | shift target =>
      have edge := (action?_eq_shift_iff listed).mp acts
      exact (action?_eq_shift_iff listed).mpr edge
  | accept =>
      have ends := (action?_eq_accept_iff listed).mp acts
      exact (action?_eq_accept_iff listed).mpr ends
  | reduce id =>
      obtain ⟨item, completed, rfl, ordinary, lookahead⟩ :=
        exists_of_action?_eq_reduce listed acts
      obtain ⟨access, walked, follows⟩ := exists_mayFollow_of_lookahead completed lookahead
      have unshifted : grammar.automaton.goto? state (.terminal terminal) = none := by
        cases edge : grammar.automaton.goto? state (.terminal terminal) with
        | none => rfl
        | some target =>
            rw [(action?_eq_shift_iff listed).mpr edge] at acts
            cases acts
      exact usable.action?_eq_reduce completed ordinary listed
        (follows.mem_reductionLookaheads .slr walked) unshifted

variable {tokens : List (Token T)} {configuration next : Configuration T N}

/-- Where propagation has an action, the two parsers take the same step. -/
theorem IsUsable.step_slr_eq (usable : grammar.IsUsable .slr)
    (listed : grammar.vocabulary.terminals.Lists configuration.lookahead.terminal)
    {action : Action}
    (acts : (grammar.driver .lalr).table.action? (top configuration.frames)
      configuration.lookahead.terminal = some action) :
    (grammar.driver .slr).step configuration = (grammar.driver .lalr).step configuration := by
  have slrActs := usable.action?_slr_of_lalr listed acts
  rw [Parser.step, Parser.step, action?_eq_of_top, action?_eq_of_top, acts, slrActs]
  cases action with
  | shift target => rfl
  | reduce id => rfl
  | accept => rfl

/-- As long as propagation runs, FOLLOW does the same. -/
theorem IsUsable.run_slr_eq (usable : grammar.IsUsable .slr)
    (sound : grammar.Sound tokens configuration)
    (listed : ∀ token ∈ tokens, grammar.vocabulary.terminals.Lists token.terminal) {steps : Nat}
    (reaches : (grammar.driver .lalr).run steps configuration = .running next) :
    (grammar.driver .slr).run steps configuration = .running next := by
  induction steps generalizing configuration with
  | zero => exact reaches
  | succ steps inductionHypothesis =>
      have takes := sound.takes .lalr listed
      obtain ⟨middle, stepped, onward⟩ := Parser.exists_step_of_run reaches
      cases acts : (grammar.driver .lalr).table.action? (top configuration.frames)
          configuration.lookahead.terminal with
      | none =>
          rw [Parser.step, action?_eq_of_top, acts] at stepped
          cases stepped
      | some action =>
          have slrStepped := usable.step_slr_eq (sound.lookahead_listed listed) acts
          rw [stepped] at slrStepped takes
          rw [Parser.run_succ_of_step slrStepped]
          exact inductionHypothesis (sound.of_takes takes) onward

/-! ## In front of a lookahead that cannot come next -/

/-- Reductions alone may have led here from the origin, and its lookahead cannot come next. -/
structure Wanders (grammar : Grammar T N) (origin configuration : Configuration T N) : Prop where
  linked : grammar.Linked configuration.frames
  lookahead : configuration.lookahead = origin.lookahead
  tokens : configuration.stats.tokens = origin.stats.tokens
  shifts : configuration.stats.shifts = origin.stats.shifts
  reductions : origin.stats.reductions ≤ configuration.stats.reductions
  barred : ¬grammar.Continues (symbols configuration.frames) origin.lookahead.terminal

variable {origin : Configuration T N}

/-- The step lemma: a reduction wanders on, and there is no other step but rejection. -/
theorem Wanders.of_takes (wanders : grammar.Wanders origin configuration)
    {progress : Progress T N} (takes : grammar.Takes method configuration progress) :
    (∃ next, progress = .running next ∧ grammar.Wanders origin next) ∨
      progress = .stopped ((grammar.driver method).reject configuration) := by
  have barred := wanders.barred
  rw [← wanders.lookahead] at barred
  cases takes with
  | shift edge =>
      obtain ⟨item, member, expects⟩ := (goto?_eq_some_iff.mp edge).1
      have valid := valid_of_walk wanders.linked.walk member
      exact absurd (.reads valid expects) barred
  | @reduce item popped below target completed ordinary lookahead stacked read edge =>
      left
      have linked := wanders.linked
      rw [stacked] at linked
      refine ⟨_, rfl, ⟨⟨edge, linked.of_append⟩, wanders.lookahead, wanders.tokens, wanders.shifts,
        Nat.le_succ_of_le wanders.reductions, ?_⟩⟩
      rw [← wanders.lookahead]
      intro continues
      have bound := (marker_eq_of_mem_completed completed).1
      rw [show (configuration.enter target _ below).frames = _ :: below from rfl,
        symbols_cons] at continues
      have before := continues.unreduced bound
      rw [← read, ← symbols_append, ← stacked] at before
      exact barred before
  | accept ends read =>
      rw [ends, read] at barred
      exact absurd continues_accepting barred
  | reject => exact .inr rfl

/-- The run lemma: a parser wanders on as long as it runs, and stops by rejecting its lookahead. -/
theorem Wanders.of_run (wanders : grammar.Wanders origin configuration)
    (listed : grammar.vocabulary.terminals.Lists origin.lookahead.terminal) {steps : Nat} :
    (∀ next, (grammar.driver method).run steps configuration = .running next →
      grammar.Wanders origin next) ∧
    ∀ outcome, (grammar.driver method).run steps configuration = .stopped outcome →
      ∃ last, grammar.Wanders origin last ∧ outcome = (grammar.driver method).reject last := by
  induction steps generalizing configuration with
  | zero =>
      constructor
      · intro next reaches
        cases reaches
        exact wanders
      · intro outcome stopped
        cases stopped
  | succ steps inductionHypothesis =>
      rw [← wanders.lookahead] at listed
      have takes := @takes_step T N _ _ grammar method configuration wanders.linked listed
      rw [wanders.lookahead] at listed
      simp only [Parser.run]
      rcases wanders.of_takes takes with ⟨middle, stepped, middleWanders⟩ | stepped
      · rw [stepped]
        exact inductionHypothesis middleWanders
      · rw [stepped]
        constructor
        · intro next reaches
          cases reaches
        · intro outcome stopped
          cases stopped
          exact ⟨configuration, wanders, rfl⟩

/-! ## Agreement -/

/-- The parser never shifts the token that stands behind as many others as the statistics count
shifts; and where it stops, it rejects this token with the same statistics or more reductions. -/
structure Balks (parser : Parser T N) (tokens : List (Token T)) (token : Token T) (stats : Stats) :
    Prop where
  unshifted : ∀ steps configuration, parser.run steps (parser.start tokens) =
    .running configuration → configuration.consumed <+: tokens.take stats.shifts
  rejects : ∀ outcome, parser.Stops tokens outcome → outcome.tree = none ∧
    (∃ state expected, outcome.errors = [.unexpectedToken state token expected]) ∧
    outcome.stats.tokens = stats.tokens ∧ outcome.stats.shifts = stats.shifts ∧
    stats.reductions ≤ outcome.stats.reductions

/-- Where propagation has no action, the lookahead cannot come next. -/
theorem wanders_of_refused (usable : grammar.IsUsable .slr) (sound : grammar.Sound tokens origin)
    (refused : (grammar.driver .lalr).table.action? (top origin.frames) origin.lookahead.terminal =
      none) : grammar.Wanders origin origin where
  linked := sound.linked
  lookahead := rfl
  tokens := rfl
  shifts := rfl
  reductions := Nat.le_refl _
  barred := by
    intro continues
    obtain ⟨action, acts⟩ := continues.exists_action? usable.lalr sound.linked.walk
    rw [refused] at acts
    cases acts

/-- The parser by FOLLOW balks at the token on which the parser by propagation has no action. -/
theorem balks_of_refused (usable : grammar.IsUsable .slr)
    (listed : ∀ token ∈ tokens, grammar.vocabulary.terminals.Lists token.terminal) {before : Nat}
    (reaches : (grammar.driver .lalr).run before ((grammar.driver .lalr).start tokens) =
      .running origin)
    (refused : (grammar.driver .lalr).table.action? (top origin.frames) origin.lookahead.terminal =
      none) :
    Balks (grammar.driver .slr) tokens origin.lookahead origin.stats := by
  have sound := (@sound_start T N _ _ grammar .lalr tokens).of_run listed reaches
  have wanders := wanders_of_refused usable sound refused
  have lookaheadListed := sound.lookahead_listed listed
  have slrReaches : (grammar.driver .slr).run before ((grammar.driver .slr).start tokens) =
      .running origin := usable.run_slr_eq sound_start listed reaches
  constructor
  · intro steps configuration slrRuns
    have configurationSound := (@sound_start T N _ _ grammar .slr tokens).of_run listed slrRuns
    have within : configuration.stats.shifts ≤ origin.stats.shifts := by
      rcases Nat.le_total steps before with earlier | later
      · obtain ⟨further, rfl⟩ := Nat.exists_eq_add_of_le earlier
        have onward := Parser.run_add slrRuns further
        exact Parser.shifts_le_of_run (onward.symm.trans slrReaches)
      · obtain ⟨further, rfl⟩ := Nat.exists_eq_add_of_le later
        have onward := Parser.run_add slrReaches further
        have stillWanders := (wanders.of_run lookaheadListed).1 _ (onward.symm.trans slrRuns)
        exact Nat.le_of_eq stillWanders.shifts
    rw [configurationSound.consumed_eq_take]
    exact List.take_prefix_take_left within
  · intro outcome stops
    obtain ⟨steps, stopped⟩ := stops
    have further := Parser.run_add_of_stopped stopped before
    rw [Nat.add_comm, Parser.run_add slrReaches] at further
    obtain ⟨last, lastWanders, rfl⟩ := (wanders.of_run lookaheadListed).2 _ further
    let state := (grammar.driver .slr).topState last.frames
    have errors : ((grammar.driver .slr).reject last).errors =
        [.unexpectedToken state origin.lookahead ((grammar.driver .slr).table.expected state)] := by
      rw [← lastWanders.lookahead]
      rfl
    exact ⟨rfl, ⟨_, _, errors⟩, lastWanders.tokens, lastWanders.shifts, lastWanders.reductions⟩

/-- What the parser by propagation accepts, the parser by FOLLOW accepts. -/
private theorem stops_of_accepted (usable : grammar.IsUsable .slr)
    (listed : ∀ token ∈ tokens, grammar.vocabulary.terminals.Lists token.terminal) {before : Nat}
    (reaches : (grammar.driver .lalr).run before ((grammar.driver .lalr).start tokens) =
      .running configuration)
    (ends : configuration.lookahead.terminal = grammar.vocabulary.endMarker)
    (read : symbols configuration.frames = grammar.acceptingRule.rhs) {outcome : Outcome T N}
    (stepped : (grammar.driver .lalr).step configuration = .stopped outcome) :
    (grammar.driver .slr).Stops tokens outcome := by
  have sound := (@sound_start T N _ _ grammar .lalr tokens).of_run listed reaches
  have lookaheadListed := sound.lookahead_listed listed
  have continues := @continues_accepting T N _ grammar
  rw [← ends, ← read] at continues
  obtain ⟨action, acts⟩ := continues.exists_action? usable.lalr sound.linked.walk
  have slrReaches : (grammar.driver .slr).run before ((grammar.driver .slr).start tokens) =
      .running configuration := usable.run_slr_eq sound_start listed reaches
  refine ⟨before + 1, ?_⟩
  rw [Parser.run_add slrReaches, Parser.run, usable.step_slr_eq lookaheadListed acts, stepped]

/-- Where there is a parser by FOLLOW, there is one by propagation. What this one accepts, the other
accepts with the same tree and the same statistics; at the token that this one rejects, the other
balks. -/
theorem agrees_of_usable {slr : Parser T N} (usable : grammar.study.parser .slr = .ok slr) :
    ∃ lalr, grammar.study.parser .lalr = .ok lalr ∧
      ∀ tokens, (∀ token ∈ tokens, token.terminal ∈ grammar.vocabulary.terminals.all) →
        ∀ outcome, lalr.Stops tokens outcome →
          (∀ tree, outcome.tree = some tree → slr.Stops tokens outcome) ∧
          (outcome.tree = none →
            ∃ state token expected, outcome.errors = [.unexpectedToken state token expected] ∧
              (tokens[outcome.stats.shifts]? = some token ∨
                tokens.length = outcome.stats.shifts ∧ token = grammar.vocabulary.endToken) ∧
              Balks slr tokens token outcome.stats) := by
  obtain ⟨slrUsable, rfl⟩ := parser_eq_ok_iff.mp usable
  refine ⟨grammar.driver .lalr, slrUsable.lalr.parser_eq, ?_⟩
  intro tokens inAlphabet outcome stops
  have listed : ∀ token ∈ tokens, grammar.vocabulary.terminals.Lists token.terminal :=
    fun token member => grammar.terminals_listed _ (inAlphabet token member)
  obtain ⟨steps, stopped⟩ := stops
  obtain ⟨before, last, reaches, lastStep⟩ := Parser.exists_last_of_run stopped
  have lastSound := (@sound_start T N _ _ grammar .lalr tokens).of_run listed reaches
  have takes := lastSound.takes .lalr listed
  rw [lastStep] at takes
  cases takes with
  | accept ends read =>
      constructor
      · intro tree accepted
        exact stops_of_accepted slrUsable listed reaches ends read lastStep
      · intro noTree
        cases noTree
  | reject refused =>
      constructor
      · intro tree accepted
        cases accepted
      · intro noTree
        exact ⟨_, last.lookahead, _, rfl, lastSound.lookahead_position,
          balks_of_refused slrUsable listed reaches refused⟩

/-- On `x e` both parsers accept. On `a x e` the one by propagation rejects the `e` right away, and
the other one balks at it after a reduction. -/
theorem agrees_forked :
    ∃ lalr accepted rejected, forked.study.parser .lalr = .ok lalr ∧
      lalr.Stops forkedTokens.tail accepted ∧ accepted.tree.isSome = true ∧
      (forked.driver .slr).Stops forkedTokens.tail accepted ∧
      lalr.Stops forkedTokens rejected ∧ rejected.stats.reductions = 0 ∧
      ∃ state token expected, rejected.errors = [.unexpectedToken state token expected] ∧
        Balks (forked.driver .slr) forkedTokens token rejected.stats ∧
        (forked.driver .slr).stopsWith 4 forkedTokens
          (fun outcome => outcome.stats.reductions == 1) = true := by
  obtain ⟨lalr, usable, agrees⟩ := agrees_of_usable (parser_forked .slr)
  obtain ⟨_, rfl⟩ := parser_eq_ok_iff.mp usable
  have accepts : (forked.driver .lalr).stopsWith 5 forkedTokens.tail
      (fun outcome => outcome.tree.isSome) = true := by
    decide +kernel
  have rejects : (forked.driver .lalr).stopsWith 3 forkedTokens
      (fun outcome => outcome.tree.isNone && outcome.stats.reductions == 0) = true := by
    decide +kernel
  obtain ⟨accepted, acceptedStops, hasTree⟩ := Parser.exists_of_stopsWith accepts
  obtain ⟨rejected, rejectedStops, noTree⟩ := Parser.exists_of_stopsWith rejects
  rw [Bool.and_eq_true, Option.isNone_iff_eq_none, beq_iff_eq] at noTree
  obtain ⟨tree, isTree⟩ := Option.isSome_iff_exists.mp hasTree
  have acceptedToo := (agrees forkedTokens.tail (by decide) accepted acceptedStops).1 tree isTree
  obtain ⟨state, token, expected, errors, _, balks⟩ :=
    (agrees forkedTokens (by decide) rejected rejectedStops).2 noTree.1
  exact ⟨_, accepted, rejected, usable, acceptedStops, hasTree, acceptedToo, rejectedStops,
    noTree.2, state, token, expected, errors, balks, by decide +kernel⟩

end Grammar

end ShiftReduce
