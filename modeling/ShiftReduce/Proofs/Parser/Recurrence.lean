import ShiftReduce.Proofs.Parser.Driving

/-!
Contract: a run that comes back to its states never ends.

Owns: `Alike`, by which two configurations differ in their trees and statistics only; the fact that
steps keep configurations alike, since no step looks at a tree; and `Recurs`, by which a run comes
back to a configuration like an earlier one.
-/

namespace ShiftReduce

namespace Configuration

variable {T N : Type}

/-- The same states and the same input, whatever the trees and the statistics. -/
structure Alike (left right : Configuration T N) : Prop where
  states : left.frames.map Frame.state = right.frames.map Frame.state
  lookahead : left.lookahead = right.lookahead
  rest : left.rest = right.rest

variable {left right : Configuration T N}

theorem Alike.symm (alike : left.Alike right) : right.Alike left :=
  ⟨alike.states.symm, alike.lookahead.symm, alike.rest.symm⟩

theorem Alike.trans {other : Configuration T N} (first : left.Alike right)
    (second : right.Alike other) : left.Alike other :=
  ⟨first.states.trans second.states, first.lookahead.trans second.lookahead,
    first.rest.trans second.rest⟩

/-- Reading looks at the input only. -/
theorem alike_readToken (vocabulary : Vocabulary T N)
    (states : left.frames.map Frame.state = right.frames.map Frame.state)
    (rest : left.rest = right.rest) :
    (left.readToken vocabulary).Alike (right.readToken vocabulary) := by
  unfold readToken
  rw [rest]
  split
  · next nothing => exact ⟨states, rfl, rfl⟩
  · next token others more => exact ⟨states, rfl, rfl⟩

end Configuration

namespace Parser

variable {T N : Type} {parser : Parser T N} {left right next : Configuration T N}

theorem topState_eq {leftFrames rightFrames : List (Frame T N)}
    (states : leftFrames.map Frame.state = rightFrames.map Frame.state) :
    parser.topState leftFrames = parser.topState rightFrames := by
  cases leftFrames with
  | nil =>
      cases rightFrames with
      | nil => rfl
      | cons => cases states
  | cons frame below =>
      cases rightFrames with
      | nil => cases states
      | cons other others => exact (List.cons.inj states).1

/-- A step from alike configurations leads to alike ones. -/
theorem exists_step_of_alike (alike : left.Alike right)
    (stepped : parser.step left = .running next) :
    ∃ other, parser.step right = .running other ∧ next.Alike other := by
  have action : parser.action? right = parser.action? left := by
    rw [action?, action?, topState_eq alike.states, alike.lookahead]
  rw [step] at stepped ⊢
  rw [action]
  split at stepped
  · next target shifts =>
      cases stepped
      refine ⟨_, rfl, Configuration.alike_readToken _ ?_ alike.rest⟩
      exact congrArg (target :: ·) alike.states
  · next id reduces =>
      have sameLength : left.frames.length = right.frames.length := by
        have lengths := congrArg List.length alike.states
        rwa [List.length_map, List.length_map] at lengths
      have sameBelow : (left.frames.drop (parser.grammar.rule id).rhs.length).map Frame.state =
          (right.frames.drop (parser.grammar.rule id).rhs.length).map Frame.state := by
        rw [List.map_drop, List.map_drop, alike.states]
      unfold reduce at stepped ⊢
      simp only [List.length_take, sameLength, topState_eq sameBelow] at stepped ⊢
      split at stepped
      · cases stepped
      · next enough =>
          rw [if_neg enough]
          split at stepped
          · next target edge =>
              cases stepped
              refine ⟨_, rfl, ?_, alike.lookahead, alike.rest⟩
              exact congrArg (target :: ·) sameBelow
          · cases stepped
  · cases stepped
  · cases stepped

/-- The run lemma: as many steps from alike configurations lead to alike ones. -/
theorem exists_run_of_alike {steps : Nat} (alike : left.Alike right)
    (reaches : parser.run steps left = .running next) :
    ∃ other, parser.run steps right = .running other ∧ next.Alike other := by
  induction steps generalizing left right with
  | zero =>
      cases reaches
      exact ⟨right, rfl, alike⟩
  | succ steps inductionHypothesis =>
      obtain ⟨middle, stepped, onward⟩ := exists_step_of_run reaches
      obtain ⟨other, otherStepped, middleAlike⟩ := exists_step_of_alike alike stepped
      rw [run_succ_of_step otherStepped]
      exact inductionHypothesis middleAlike onward

/-! ## Recurrence -/

/-- The run on the tokens comes back to a configuration like one that it has been in. -/
def Recurs (parser : Parser T N) (tokens : List (Token T)) : Prop :=
  ∃ before period first second, 0 < period ∧
    parser.run before (parser.start tokens) = .running first ∧
    parser.run period first = .running second ∧ second.Alike first

/-- A period can be run through any number of times. -/
theorem exists_run_mul {first second : Configuration T N} {period : Nat}
    (reaches : parser.run period first = .running second) (alike : second.Alike first)
    (times : Nat) : ∃ last, parser.run (times * period) first = .running last ∧
      last.Alike first := by
  induction times with
  | zero => exact ⟨first, by rw [Nat.zero_mul]; rfl, rfl, rfl, rfl⟩
  | succ times inductionHypothesis =>
      rcases inductionHypothesis with ⟨last, reachesLast, lastAlike⟩
      obtain ⟨further, reachesFurther, furtherAlike⟩ := exists_run_of_alike lastAlike.symm reaches
      refine ⟨further, ?_, furtherAlike.symm.trans alike⟩
      rw [Nat.succ_mul, run_add reachesLast, reachesFurther]

theorem Recurs.not_stops {tokens : List (Token T)} (recurs : parser.Recurs tokens)
    {outcome : Outcome T N} : ¬parser.Stops tokens outcome := by
  intro stops
  rcases stops with ⟨steps, stopped⟩
  rcases recurs with ⟨before, period, first, second, positive, reachesFirst, reachesSecond, alike⟩
  obtain ⟨last, reachesLast, _⟩ := exists_run_mul reachesSecond alike steps
  have running := run_add reachesFirst (steps * period)
  rw [reachesLast] at running
  have enough : steps + (before + (steps * period - steps)) = before + steps * period := by
    have longer : steps ≤ steps * period := Nat.le_mul_of_pos_right steps positive
    omega
  have stopsLater := run_add_of_stopped stopped (before + (steps * period - steps))
  rw [enough, running] at stopsLater
  cases stopsLater

end Parser

end ShiftReduce
