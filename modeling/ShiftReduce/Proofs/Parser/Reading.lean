import ShiftReduce.Proofs.Parser.Integrity

/-!
Contract: a run reads no more of its input than it needs.

Owns: `Configuration.reading`, the same stack and lookahead in front of other tokens; `Shares`, by
which two configurations have some tokens in common that both have still to read; `Parallels`, by
which one finds the end of its input where the other reads an end marker; `Refuses`, by which a run
gives up on the token at a position; and the theorem that a parser is frugal.

Only a shift reads a token, and the end marker is never shifted. So two runs can part only at a
shift behind which their inputs differ.
-/

namespace ShiftReduce

variable {T N : Type}

/-- The configuration with other tokens to come, and with so many more that have been counted. -/
def Configuration.reading (configuration : Configuration T N) (rest : List (Token T))
    (extra : Nat) : Configuration T N :=
  { configuration with
    rest := rest
    stats := { configuration.stats with tokens := configuration.stats.tokens + extra } }

/-- The outcome with so many more tokens counted. -/
def Outcome.counting (outcome : Outcome T N) (extra : Nat) : Outcome T N :=
  { outcome with
    stats := { outcome.stats with tokens := outcome.stats.tokens + extra } }

def Progress.reading (rest : List (Token T)) (extra : Nat) : Progress T N → Progress T N
  | .running configuration => .running (configuration.reading rest extra)
  | .stopped outcome => .stopped (outcome.counting extra)

namespace Parser

variable {parser : Parser T N} {configuration next : Configuration T N} {outcome : Outcome T N}

/-! ## Steps -/

/-- A reduction looks at the stack only. -/
theorem reduce_reading (parser : Parser T N) (configuration : Configuration T N) (id : RuleId)
    (rest : List (Token T)) (extra : Nat) :
    parser.reduce (configuration.reading rest extra) id =
      (parser.reduce configuration id).reading rest extra := by
  have sameFrames : (configuration.reading rest extra).frames = configuration.frames := rfl
  simp only [reduce, sameFrames]
  split
  · rfl
  · split
    · rfl
    · rfl

/-- A step that does not shift does not look at what is to come. -/
theorem step_reading (unshifted : ∀ target, parser.action? configuration ≠ some (.shift target))
    (rest : List (Token T)) (extra : Nat) :
    parser.step (configuration.reading rest extra) =
      (parser.step configuration).reading rest extra := by
  have action : parser.action? (configuration.reading rest extra) = parser.action? configuration :=
    rfl
  rw [step, step, action]
  split
  · next target shifts => exact absurd shifts (unshifted target)
  · exact reduce_reading parser configuration _ rest extra
  · rfl
  · rfl

theorem step_of_shift {target : Nat}
    (shifts : parser.action? configuration = some (.shift target)) :
    parser.step configuration = .running (parser.shift configuration target) := by
  rw [step, shifts]

/-- A step is a shift, or it leaves the input as it is. -/
theorem step_cases (stepped : parser.step configuration = .running next) :
    (∃ target, parser.action? configuration = some (.shift target) ∧
        next = parser.shift configuration target) ∨
      (∀ target, parser.action? configuration ≠ some (.shift target)) ∧
        next.lookahead = configuration.lookahead ∧ next.rest = configuration.rest := by
  cases action : parser.action? configuration with
  | none =>
      rw [step, action] at stepped
      cases stepped
  | some act =>
      cases act with
      | shift target =>
          rw [step_of_shift action] at stepped
          cases stepped
          exact .inl ⟨target, rfl, rfl⟩
      | reduce id =>
          rw [step, action] at stepped
          have reduces : parser.reduce configuration id = .running next := stepped
          have reduced := reduce_of_frames_eq reduces rfl
          rw [reduces] at reduced
          rw [Progress.running.inj reduced]
          refine .inr ⟨?_, rfl, rfl⟩
          intro target shifts
          cases shifts
      | accept =>
          rw [step, action] at stepped
          cases stepped

theorem rest_shift (parser : Parser T N) (configuration : Configuration T N) (target : Nat) :
    (parser.shift configuration target).rest = configuration.rest.tail := by
  rw [shift, Configuration.readToken]
  split
  · next nothing => rw [show configuration.rest = [] from nothing]; rfl
  · next token rest more => rw [show configuration.rest = token :: rest from more]; rfl

/-- A shift reads the token that both inputs go on with. -/
theorem shift_reading_cons (parser : Parser T N) {token : Token T} {rest : List (Token T)}
    (more : configuration.rest = token :: rest) (target : Nat) (other : List (Token T)) :
    (parser.shift configuration target).lookahead = token ∧
      parser.shift (configuration.reading (token :: other) 0) target =
        (parser.shift configuration target).reading other 0 := by
  simp [shift, Configuration.readToken, Configuration.reading, more]

/-- A shift at the end of the input sees the end marker, as one does that reads it. -/
theorem shift_reading_end (parser : Parser T N) (nothing : configuration.rest = []) (target : Nat)
    (other : List (Token T)) :
    (parser.shift configuration target).lookahead = parser.grammar.vocabulary.endToken ∧
      parser.shift (configuration.reading (parser.grammar.vocabulary.endToken :: other) 0) target =
        (parser.shift configuration target).reading other 1 := by
  simp [shift, Configuration.readToken, Configuration.reading, nothing]

/-! ## Inputs that differ behind what is read -/

/-- The two configurations have some tokens in common that they have still to read. Behind these
they have the left or the right ones to come. -/
def Shares (left right : List (Token T)) (configuration other : Configuration T N) : Prop :=
  ∃ ahead, configuration.rest = ahead ++ left ∧
    other = configuration.reading (ahead ++ right) 0

variable {left right rest tokens : List (Token T)} {other : Configuration T N}

/-- The step lemma: what is shared stays so, up to the shift behind which the inputs differ. -/
theorem Shares.of_step (shares : Shares left right configuration other)
    (stepped : parser.step configuration = .running next) :
    (∃ otherNext, parser.step other = .running otherNext ∧ Shares left right next otherNext ∧
        (next.lookahead :: next.rest) <:+ configuration.lookahead :: configuration.rest) ∨
      ∃ target, parser.action? configuration = some (.shift target) ∧
        next = parser.shift configuration target ∧ configuration.rest = left ∧
        other = configuration.reading right 0 := by
  rcases shares with ⟨ahead, rest, rfl⟩
  rcases step_cases stepped with ⟨target, shifts, rfl⟩ | ⟨unshifted, sameLookahead, sameRest⟩
  · cases ahead with
    | nil => exact .inr ⟨target, shifts, rfl, rest, rfl⟩
    | cons token ahead =>
        left
        obtain ⟨read, otherAfter⟩ := shift_reading_cons parser rest target (ahead ++ right)
        have restAfter : (parser.shift configuration target).rest = ahead ++ left := by
          rw [rest_shift, rest]
          rfl
        refine ⟨_, step_of_shift shifts, ⟨ahead, restAfter, otherAfter⟩, ?_⟩
        rw [read, restAfter, rest]
        exact List.suffix_cons _ _
  · left
    refine ⟨next.reading (ahead ++ right) 0, ?_, ⟨ahead, sameRest.trans rest, rfl⟩, ?_⟩
    · rw [step_reading unshifted, stepped]
      rfl
    · simp only [sameLookahead, sameRest, List.suffix_rfl]

/-- A step that stops does so whatever is to come. -/
theorem step_reading_of_stopped (stopped : parser.step configuration = .stopped outcome)
    (rest : List (Token T)) (extra : Nat) :
    parser.step (configuration.reading rest extra) = .stopped (outcome.counting extra) := by
  have unshifted : ∀ target, parser.action? configuration ≠ some (.shift target) := by
    intro target shifts
    rw [step_of_shift shifts] at stopped
    cases stopped
  rw [step_reading unshifted, stopped]
  rfl

/-- Where one configuration stops, so does the other. -/
theorem Shares.of_stopped (shares : Shares left right configuration other)
    (stopped : parser.step configuration = .stopped outcome) :
    parser.step other = .stopped outcome := by
  rcases shares with ⟨ahead, _, rfl⟩
  exact step_reading_of_stopped stopped _ 0

/-- The inputs that begin with the same token have what follows to share. -/
theorem shares_start (parser : Parser T N) (token : Token T) (ahead : List (Token T)) :
    Shares left right (parser.start (token :: ahead ++ left))
      (parser.start (token :: ahead ++ right)) :=
  ⟨ahead, rfl, rfl⟩

/-! ## Stopping -/

/-- The run on the tokens comes to the configuration, and its next step stops with the outcome. -/
def StopsFrom (parser : Parser T N) (tokens : List (Token T)) (last : Configuration T N)
    (outcome : Outcome T N) : Prop :=
  ∃ steps, parser.run steps (parser.start tokens) = .running last ∧
    parser.step last = .stopped outcome

theorem StopsFrom.stops {last : Configuration T N}
    (stopsFrom : parser.StopsFrom tokens last outcome) : parser.Stops tokens outcome := by
  rcases stopsFrom with ⟨steps, reaches, stopped⟩
  refine ⟨steps + 1, ?_⟩
  rw [run_add reaches, run, stopped]

theorem Stops.exists_last (stops : parser.Stops tokens outcome) :
    ∃ last, parser.StopsFrom tokens last outcome := by
  rcases stops with ⟨steps, stopped⟩
  obtain ⟨before, last, reaches, lastStops⟩ := exists_last_of_run stopped
  exact ⟨last, before, reaches, lastStops⟩

/-- The run on the tokens stops with an error on the token at the position. -/
def Refuses (parser : Parser T N) (tokens : List (Token T)) (position : Nat)
    (outcome : Outcome T N) : Prop :=
  ∃ last state expected, parser.StopsFrom tokens last outcome ∧
    tokens[position]? = some last.lookahead ∧ last.rest = tokens.drop (position + 1) ∧
    outcome.errors = [.unexpectedToken state last.lookahead expected]

/-- Whether so many steps lead to where the token at the position is refused. -/
def refusesAfter [DecidableEq T] (parser : Parser T N) (steps : Nat) (tokens : List (Token T))
    (position : Nat) : Bool :=
  match parser.run steps (parser.start tokens) with
  | .running last => tokens[position]? = some last.lookahead &&
      last.rest = tokens.drop (position + 1) && parser.action? last = none
  | .stopped _ => false

theorem exists_refuses_of_refusesAfter [DecidableEq T] {steps position : Nat}
    (refused : parser.refusesAfter steps tokens position = true) :
    ∃ outcome, parser.Refuses tokens position outcome := by
  rw [refusesAfter] at refused
  split at refused
  · next last reaches =>
      simp only [Bool.and_eq_true, decide_eq_true_eq] at refused
      obtain ⟨⟨here, behind⟩, noAction⟩ := refused
      refine ⟨parser.reject last, last, _, _, ⟨steps, reaches, ?_⟩, here, behind, rfl⟩
      rw [step, noAction]
  · cases refused

/-! ## The end marker -/

/-- The table shifts no end marker. -/
def KeepsEnd (parser : Parser T N) : Prop :=
  ∀ state target,
    parser.table.action? state parser.grammar.vocabulary.endMarker ≠ some (.shift target)

variable [DecidableEq T]

theorem KeepsEnd.unshifted (keepsEnd : parser.KeepsEnd)
    (ends : configuration.lookahead.isEnd parser.grammar.vocabulary = true) (target : Nat) :
    parser.action? configuration ≠ some (.shift target) := by
  rw [action?, of_decide_eq_true ends]
  exact keepsEnd _ target

/-- Less is to come than the tokens, or nothing will be read any more. -/
def Passed (parser : Parser T N) (tokens : List (Token T)) (configuration : Configuration T N) :
    Prop :=
  configuration.rest.length < tokens.length ∨
    configuration.lookahead.isEnd parser.grammar.vocabulary = true

theorem isEnd_endToken (vocabulary : Vocabulary T N) :
    (vocabulary.endToken : Token T).isEnd vocabulary = true :=
  decide_eq_true rfl

/-- A shift leads past the tokens in front of which it stands. -/
theorem passed_shift (parser : Parser T N) (configuration : Configuration T N) (target : Nat) :
    parser.Passed configuration.rest (parser.shift configuration target) := by
  cases rest : configuration.rest with
  | nil =>
      right
      rw [(shift_reading_end parser rest target []).1]
      exact isEnd_endToken _
  | cons token more =>
      left
      rw [rest_shift, rest]
      exact Nat.lt_succ_self _

theorem Passed.of_step (keepsEnd : parser.KeepsEnd) (passed : parser.Passed left configuration)
    (stepped : parser.step configuration = .running next) : parser.Passed left next := by
  rcases step_cases stepped with ⟨target, shifts, rfl⟩ | ⟨_, sameLookahead, sameRest⟩
  · rcases passed with shorter | ends
    · left
      rw [rest_shift, List.length_tail]
      omega
    · exact absurd shifts (keepsEnd.unshifted ends target)
  · rw [Passed, sameLookahead, sameRest]
    exact passed

theorem Passed.of_run (keepsEnd : parser.KeepsEnd) {steps : Nat}
    (passed : parser.Passed left configuration)
    (reaches : parser.run steps configuration = .running next) : parser.Passed left next := by
  induction steps generalizing configuration with
  | zero =>
      cases reaches
      exact passed
  | succ steps inductionHypothesis =>
      obtain ⟨middle, stepped, onward⟩ := exists_step_of_run reaches
      exact inductionHypothesis (passed.of_step keepsEnd stepped) onward

/-- The run lemma: what is shared stays so for as long as the tokens behind it are to come. -/
theorem Shares.of_run (keepsEnd : parser.KeepsEnd) {steps : Nat}
    (shares : Shares left right configuration other)
    (reaches : parser.run steps configuration = .running next)
    (ahead : ¬parser.Passed left next) :
    ∃ otherNext, parser.run steps other = .running otherNext ∧
      Shares left right next otherNext := by
  induction steps generalizing configuration other with
  | zero =>
      cases reaches
      exact ⟨other, rfl, shares⟩
  | succ steps inductionHypothesis =>
      obtain ⟨middle, stepped, onward⟩ := exists_step_of_run reaches
      rcases shares.of_step stepped with ⟨otherMiddle, otherStepped, middleShares, _⟩ |
        ⟨target, _, rfl, rest, _⟩
      · rw [run_succ_of_step otherStepped]
        exact inductionHypothesis middleShares onward
      · have passed := passed_shift parser configuration target
        rw [rest] at passed
        exact absurd (passed.of_run keepsEnd onward) ahead

/-- One configuration finds the end of its input where the other reads an end marker. -/
inductive Parallels (parser : Parser T N) (rest : List (Token T))
    (configuration other : Configuration T N) : Prop where
  | inside (shares : Shares [] (parser.grammar.vocabulary.endToken :: rest) configuration other)
      (unended : ∀ token ∈ configuration.lookahead :: configuration.rest,
        token.isEnd parser.grammar.vocabulary = false)
  /-- The end marker has been read and counted. -/
  | ended (ends : configuration.lookahead.isEnd parser.grammar.vocabulary = true)
      (same : other = configuration.reading rest 1)

theorem parallels_start (parser : Parser T N) (rest : List (Token T))
    (unended : ∀ token ∈ tokens, token.isEnd parser.grammar.vocabulary = false) :
    parser.Parallels rest (parser.start tokens)
      (parser.start (tokens ++ parser.grammar.vocabulary.endToken :: rest)) := by
  cases tokens with
  | nil => exact .ended (isEnd_endToken _) rfl
  | cons token ahead =>
      refine .inside ⟨ahead, (List.append_nil ahead).symm, rfl⟩ ?_
      exact unended

/-- The step lemma of two runs that find and read the end. -/
theorem Parallels.of_step (keepsEnd : parser.KeepsEnd)
    (parallels : parser.Parallels rest configuration other)
    (stepped : parser.step configuration = .running next) :
    ∃ otherNext, parser.step other = .running otherNext ∧ parser.Parallels rest next otherNext := by
  cases parallels with
  | inside shares unended =>
      rcases shares.of_step stepped with ⟨otherNext, otherStepped, nextShares, suffix⟩ |
        ⟨target, shifts, rfl, nothing, rfl⟩
      · exact ⟨otherNext, otherStepped,
          .inside nextShares fun token member => unended token (suffix.subset member)⟩
      · obtain ⟨ends, otherAfter⟩ := shift_reading_end parser nothing target rest
        refine ⟨_, step_of_shift shifts, .ended ?_ otherAfter⟩
        rw [ends]
        exact isEnd_endToken _
  | ended ends same =>
      have unshifted := keepsEnd.unshifted ends
      rcases step_cases stepped with ⟨target, shifts, _⟩ | ⟨_, sameLookahead, _⟩
      · exact absurd shifts (unshifted target)
      · refine ⟨next.reading rest 1, ?_, .ended (by rwa [sameLookahead]) rfl⟩
        rw [same, step_reading unshifted, stepped]
        rfl

/-- The run lemma of two runs that find and read the end. -/
theorem Parallels.of_run (keepsEnd : parser.KeepsEnd) {steps : Nat}
    (parallels : parser.Parallels rest configuration other)
    (reaches : parser.run steps configuration = .running next) :
    ∃ otherNext, parser.run steps other = .running otherNext ∧
      parser.Parallels rest next otherNext := by
  induction steps generalizing configuration other with
  | zero =>
      cases reaches
      exact ⟨other, rfl, parallels⟩
  | succ steps inductionHypothesis =>
      obtain ⟨middle, stepped, onward⟩ := exists_step_of_run reaches
      obtain ⟨otherMiddle, otherStepped, middleParallels⟩ := parallels.of_step keepsEnd stepped
      rw [run_succ_of_step otherStepped]
      exact inductionHypothesis middleParallels onward

/-- How many tokens more are counted where the end is read: one, if it was come to. -/
def extraTokens (parser : Parser T N) (configuration : Configuration T N) : Nat :=
  if configuration.lookahead.isEnd parser.grammar.vocabulary then 1 else 0

/-- Where one of the runs stops, so does the other. -/
theorem Parallels.of_stopped (parallels : parser.Parallels rest configuration other)
    (stopped : parser.step configuration = .stopped outcome) :
    parser.step other = .stopped (outcome.counting (parser.extraTokens configuration)) := by
  cases parallels with
  | inside shares unended =>
      rw [extraTokens, unended _ List.mem_cons_self]
      exact shares.of_stopped stopped
  | ended ends same =>
      rw [extraTokens, ends, same]
      exact step_reading_of_stopped stopped rest 1

/-! ## What a run needs of its input -/

/-- The parser looks at no more of its input than the tokens before the end, and at no more than the
token that it gives up on. -/
structure IsFrugal (parser : Parser T N) (tokens : List (Token T)) : Prop where
  /-- An end in the input and what follows it matters for the count of the tokens only. -/
  ended : ∀ rest last outcome, parser.StopsFrom tokens last outcome →
    parser.Stops (tokens ++ parser.grammar.vocabulary.endToken :: rest)
      (outcome.counting (parser.extraTokens last))
  endless : ∀ rest, (∃ outcome, parser.Stops tokens outcome) ↔
    ∃ outcome, parser.Stops (tokens ++ parser.grammar.vocabulary.endToken :: rest) outcome
  refused : ∀ position outcome, parser.Refuses tokens position outcome →
    ∀ rest, parser.Stops (tokens.take (position + 1) ++ rest) outcome

theorem KeepsEnd.stops_append (keepsEnd : parser.KeepsEnd)
    (unended : ∀ token ∈ tokens, token.isEnd parser.grammar.vocabulary = false)
    {last : Configuration T N} (stopsFrom : parser.StopsFrom tokens last outcome)
    (rest : List (Token T)) :
    parser.Stops (tokens ++ parser.grammar.vocabulary.endToken :: rest)
      (outcome.counting (parser.extraTokens last)) := by
  rcases stopsFrom with ⟨steps, reaches, stopped⟩
  obtain ⟨otherLast, otherReaches, parallels⟩ :=
    (parallels_start parser rest unended).of_run keepsEnd reaches
  exact StopsFrom.stops ⟨steps, otherReaches, parallels.of_stopped stopped⟩

/-- A run that does not stop does not stop at an end in the input either. -/
theorem KeepsEnd.exists_stops_of_append (keepsEnd : parser.KeepsEnd)
    (unended : ∀ token ∈ tokens, token.isEnd parser.grammar.vocabulary = false)
    (stops : parser.Stops (tokens ++ parser.grammar.vocabulary.endToken :: rest) outcome) :
    ∃ early, parser.Stops tokens early := by
  rcases stops with ⟨steps, otherStopped⟩
  cases first : parser.run steps (parser.start tokens) with
  | stopped early => exact ⟨early, steps, first⟩
  | running next =>
      obtain ⟨otherNext, otherReaches, _⟩ :=
        (parallels_start parser rest unended).of_run keepsEnd first
      rw [otherStopped] at otherReaches
      cases otherReaches

theorem KeepsEnd.stops_take_append (keepsEnd : parser.KeepsEnd)
    (unended : ∀ token ∈ tokens, token.isEnd parser.grammar.vocabulary = false) {position : Nat}
    (refuses : parser.Refuses tokens position outcome) (rest : List (Token T)) :
    parser.Stops (tokens.take (position + 1) ++ rest) outcome := by
  rcases refuses with ⟨last, _, _, ⟨steps, reaches, stopped⟩, here, behind, _⟩
  cases tokens with
  | nil => cases here
  | cons token ahead =>
      have shares := @shares_start T N (ahead.drop position) rest parser token
        (ahead.take position)
      rw [List.cons_append, List.take_append_drop] at shares
      have unpassed : ¬parser.Passed (ahead.drop position) last := by
        rintro (shorter | ends)
        · rw [behind, List.drop_succ_cons] at shorter
          exact Nat.lt_irrefl _ shorter
        · rw [unended _ (List.mem_of_getElem? here)] at ends
          cases ends
      obtain ⟨otherLast, otherReaches, lastShares⟩ := shares.of_run keepsEnd reaches unpassed
      exact StopsFrom.stops ⟨steps, otherReaches, lastShares.of_stopped stopped⟩

end Parser

namespace Grammar

variable [DecidableEq T] [DecidableEq N] {grammar : Grammar T N} {method : Method}
  {tokens : List (Token T)}

/-- No rule mentions the end marker, so no state has a transition on it. -/
theorem keepsEnd_driver : (grammar.driver method).KeepsEnd := by
  intro state target shifts
  have edge := (action?_eq_shift_iff grammar.endMarker_listed).mp shifts
  rw [goto?_endMarker] at edge
  cases edge

/-- A parser that can be had looks at no more of its input than it needs: an end in the input does
what the end of the input does, whatever follows it; and behind a token that the parser gives up on
there may be anything. -/
theorem frugal_of_usable {parser : Parser T N} (usable : grammar.study.parser method = .ok parser)
    (unended : ∀ token ∈ tokens, token.terminal ≠ grammar.vocabulary.endMarker) :
    parser.IsFrugal tokens := by
  obtain ⟨_, rfl⟩ := parser_eq_ok_iff.mp usable
  have noEnd : ∀ token ∈ tokens, token.isEnd grammar.vocabulary = false :=
    fun token member => decide_eq_false (unended token member)
  constructor
  · intro rest last outcome stopsFrom
    exact keepsEnd_driver.stops_append noEnd stopsFrom rest
  · intro rest
    constructor
    · rintro ⟨outcome, stops⟩
      obtain ⟨last, stopsFrom⟩ := stops.exists_last
      exact ⟨_, keepsEnd_driver.stops_append noEnd stopsFrom rest⟩
    · rintro ⟨outcome, stops⟩
      exact keepsEnd_driver.exists_stops_of_append noEnd stops
  · intro position outcome refuses rest
    exact keepsEnd_driver.stops_take_append noEnd refuses rest

/-- Behind `a x` the `e` is refused, whatever follows it. -/
theorem frugal_forked :
    ∃ refusal,
      (forked.driver .slr).Refuses (forkedTokens ++ forkedTokens) 2 refusal ∧
        ∀ rest, (forked.driver .slr).Stops (forkedTokens ++ rest) refusal := by
  have frugal := @frugal_of_usable Nat Nat _ _ forked .slr (forkedTokens ++ forkedTokens) _
    (parser_forked .slr) (by decide)
  have refused : (forked.driver .slr).refusesAfter 3 (forkedTokens ++ forkedTokens) 2 = true := by
    decide +kernel
  obtain ⟨refusal, refuses⟩ := Parser.exists_refuses_of_refusesAfter refused
  exact ⟨refusal, refuses, frugal.refused 2 refusal refuses⟩

end Grammar

end ShiftReduce
