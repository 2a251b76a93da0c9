import ShiftReduce.Parser.Basic

/-!
Contract: runs of a parser to their end.

Owns: `Stops`, by which some number of steps leads from the start to an outcome; the configuration
from which the last step stops; the fact that there is at most one outcome; and the count of shifts,
which never falls.
-/

namespace ShiftReduce

namespace Configuration

variable {T N : Type}

/-- Reading a token counts neither as a shift nor as a reduction. -/
theorem stats_readToken (configuration : Configuration T N) (vocabulary : Vocabulary T N) :
    (configuration.readToken vocabulary).stats.shifts = configuration.stats.shifts ∧
      (configuration.readToken vocabulary).stats.reductions = configuration.stats.reductions := by
  unfold readToken
  split
  · exact ⟨rfl, rfl⟩
  · exact ⟨rfl, rfl⟩

end Configuration

namespace Parser

variable {T N : Type}

/-- The parser reads the tokens and stops with the outcome. -/
def Stops (parser : Parser T N) (tokens : List (Token T)) (outcome : Outcome T N) : Prop :=
  ∃ steps, parser.run steps (parser.start tokens) = .stopped outcome

theorem run_succ_of_step {parser : Parser T N} {configuration next : Configuration T N}
    (stepped : parser.step configuration = .running next) (steps : Nat) :
    parser.run (steps + 1) configuration = parser.run steps next := by
  rw [run, stepped]

/-- A run of at least one step goes on behind its first step. -/
theorem exists_step_of_run {parser : Parser T N} {steps : Nat}
    {configuration next : Configuration T N}
    (reaches : parser.run (steps + 1) configuration = .running next) :
    ∃ middle, parser.step configuration = .running middle ∧
      parser.run steps middle = .running next := by
  rw [run] at reaches
  cases stepped : parser.step configuration with
  | running middle =>
      rw [stepped] at reaches
      exact ⟨middle, rfl, reaches⟩
  | stopped outcome =>
      rw [stepped] at reaches
      cases reaches

/-- Runs follow one another. -/
theorem run_add {parser : Parser T N} {first second : Configuration T N} {steps : Nat}
    (reaches : parser.run steps first = .running second) (further : Nat) :
    parser.run (steps + further) first = parser.run further second := by
  induction steps generalizing first with
  | zero =>
      cases reaches
      rw [Nat.zero_add]
  | succ steps inductionHypothesis =>
      obtain ⟨middle, stepped, onward⟩ := exists_step_of_run reaches
      rw [Nat.succ_add, run_succ_of_step stepped]
      exact inductionHypothesis onward

/-- Further steps change nothing once the parser has stopped. -/
theorem run_add_of_stopped {parser : Parser T N} {steps : Nat} {configuration : Configuration T N}
    {outcome : Outcome T N} (stopped : parser.run steps configuration = .stopped outcome)
    (further : Nat) : parser.run (steps + further) configuration = .stopped outcome := by
  induction steps generalizing configuration with
  | zero => cases stopped
  | succ steps inductionHypothesis =>
      rw [Nat.succ_add, run]
      rw [run] at stopped
      cases stepped : parser.step configuration with
      | running next =>
          rw [stepped] at stopped
          exact inductionHypothesis stopped
      | stopped other =>
          rw [stepped] at stopped
          exact stopped

/-- A run that stops has a last configuration, from which one step stops. -/
theorem exists_last_of_run {parser : Parser T N} {steps : Nat} {configuration : Configuration T N}
    {outcome : Outcome T N} (stopped : parser.run steps configuration = .stopped outcome) :
    ∃ before last, parser.run before configuration = .running last ∧
      parser.step last = .stopped outcome := by
  induction steps generalizing configuration with
  | zero => cases stopped
  | succ steps inductionHypothesis =>
      rw [run] at stopped
      cases stepped : parser.step configuration with
      | stopped other =>
          rw [stepped] at stopped
          cases stopped
          exact ⟨0, configuration, rfl, stepped⟩
      | running next =>
          rw [stepped] at stopped
          obtain ⟨before, last, reaches, stops⟩ := inductionHypothesis stopped
          exact ⟨before + 1, last, (run_succ_of_step stepped before).trans reaches, stops⟩

/-- A shift counts itself, and no reduction. -/
theorem stats_shift (parser : Parser T N) (configuration : Configuration T N) (target : Nat) :
    (parser.shift configuration target).stats.shifts = configuration.stats.shifts + 1 ∧
      (parser.shift configuration target).stats.reductions = configuration.stats.reductions :=
  Configuration.stats_readToken _ _

/-- A reduction looks at the stack alone and leaves the input as it is. -/
theorem reduce_of_frames_eq {parser : Parser T N} {configuration next other : Configuration T N}
    {id : RuleId} (reduces : parser.reduce configuration id = .running next)
    (same : other.frames = configuration.frames) :
    parser.reduce other id = .running
      { other with
        frames := next.frames
        stats := { other.stats with reductions := other.stats.reductions + 1 } } := by
  simp only [reduce] at reduces ⊢
  rw [same]
  split at reduces
  · cases reduces
  · next enough =>
      rw [if_neg enough]
      split at reduces
      · cases reduces
        rfl
      · cases reduces

/-- No step takes a shift back. -/
theorem shifts_le_of_step {parser : Parser T N} {configuration next : Configuration T N}
    (stepped : parser.step configuration = .running next) :
    configuration.stats.shifts ≤ next.stats.shifts := by
  rw [step] at stepped
  split at stepped
  · cases stepped
    rw [(stats_shift _ _ _).1]
    exact Nat.le_succ _
  · have reduced := reduce_of_frames_eq stepped rfl
    rw [stepped] at reduced
    have sameShifts := congrArg (fun reached => reached.stats.shifts) (Progress.running.inj reduced)
    exact Nat.le_of_eq sameShifts.symm
  · cases stepped
  · cases stepped

theorem shifts_le_of_run {parser : Parser T N} {steps : Nat}
    {configuration next : Configuration T N}
    (reaches : parser.run steps configuration = .running next) :
    configuration.stats.shifts ≤ next.stats.shifts := by
  induction steps generalizing configuration with
  | zero =>
      cases reaches
      exact Nat.le_refl _
  | succ steps inductionHypothesis =>
      obtain ⟨middle, stepped, onward⟩ := exists_step_of_run reaches
      exact Nat.le_trans (shifts_le_of_step stepped) (inductionHypothesis onward)

/-- Whether the parser stops within so many steps, with an outcome that passes the test. -/
def stopsWith (parser : Parser T N) (steps : Nat) (tokens : List (Token T))
    (test : Outcome T N → Bool) : Bool :=
  match parser.run steps (parser.start tokens) with
  | .running _ => false
  | .stopped outcome => test outcome

theorem exists_of_stopsWith {parser : Parser T N} {steps : Nat} {tokens : List (Token T)}
    {test : Outcome T N → Bool} (stops : parser.stopsWith steps tokens test = true) :
    ∃ outcome, parser.Stops tokens outcome ∧ test outcome = true := by
  unfold stopsWith at stops
  split at stops
  · cases stops
  · next outcome stopped => exact ⟨outcome, ⟨steps, stopped⟩, stops⟩

theorem Stops.unique {parser : Parser T N} {tokens : List (Token T)} {left right : Outcome T N}
    (leftStops : parser.Stops tokens left) (rightStops : parser.Stops tokens right) :
    left = right := by
  rcases leftStops with ⟨leftSteps, leftStopped⟩
  rcases rightStops with ⟨rightSteps, rightStopped⟩
  have leftLonger := run_add_of_stopped leftStopped rightSteps
  have rightLonger := run_add_of_stopped rightStopped leftSteps
  rw [Nat.add_comm, leftLonger] at rightLonger
  exact Progress.stopped.inj rightLonger

end Parser

end ShiftReduce
