import ShiftReduce.Proofs.Parser.Driving

/-!
Contract: a parser looks no further than to its lookahead.

Owns: the fact that a run over some tokens, which shifts them all and nothing behind them, goes on
the same whatever stands behind them, as long as the terminal right behind them is the same.
-/

namespace ShiftReduce

namespace Grammar

variable {T N : Type} [DecidableEq T] [DecidableEq N] {grammar : Grammar T N} {method : Method}
  {frames : List (Frame T N)} {tokens others : List (Token T)} {stats : Stats}
  {next : Configuration T N}

/-- A step that goes on shifts the first token or reduces a rule. -/
private theorem step_facing_cases
    (listed : grammar.vocabulary.terminals.Lists (grammar.ahead tokens))
    (stepped : (grammar.driver method).step (.facing grammar.vocabulary frames tokens stats) =
      .running next) :
    (∃ token rest target statsAfter, tokens = token :: rest ∧
      grammar.automaton.goto? (top frames) (.terminal token.terminal) = some target ∧
      next = .facing grammar.vocabulary (⟨target, .leaf token⟩ :: frames) rest statsAfter ∧
      statsAfter.shifts = stats.shifts + 1) ∨
    ∃ id, (grammar.driver method).table.action? (top frames) (grammar.ahead tokens) =
        some (.reduce id) ∧
      (grammar.driver method).reduce (.facing grammar.vocabulary frames tokens stats) id =
        .running next := by
  rw [Parser.step, action?_facing] at stepped
  split at stepped
  · next target shifts =>
      left
      have edge := (action?_eq_shift_iff listed).mp shifts
      cases tokens with
      | nil =>
          have atEnd : grammar.ahead [] = grammar.vocabulary.endMarker := rfl
          rw [atEnd, goto?_endMarker] at edge
          cases edge
      | cons token rest =>
          obtain ⟨statsAfter, shifted, count⟩ := @exists_shift_eq_facing T N _ _ grammar method
            frames rest token target stats
          rw [shifted] at stepped
          cases stepped
          exact ⟨token, rest, target, statsAfter, rfl, edge, rfl, count⟩
  · next id reduces => exact .inr ⟨id, reduces, stepped⟩
  · cases stepped
  · cases stepped

/-- A reduction is made in front of whatever has the same terminal in front. -/
private theorem drivesIn_of_reduce {id : RuleId}
    (same : grammar.ahead tokens = grammar.ahead others)
    (action : (grammar.driver method).table.action? (top frames) (grammar.ahead tokens) =
      some (.reduce id))
    (reduces : (grammar.driver method).reduce (.facing grammar.vocabulary frames tokens stats) id =
      .running next) :
    grammar.DrivesIn method 1 frames others next.frames others := by
  intro otherStats
  have reducesHere := @Parser.reduce_of_frames_eq T N (grammar.driver method) _ _
    (.facing grammar.vocabulary frames others otherStats) id reduces rfl
  refine ⟨{ otherStats with reductions := otherStats.reductions + 1 }, ?_⟩
  rw [Parser.run, Parser.step, action?_facing, ← same, action]
  simp only [reducesHere]
  rfl

/-- The induction is on the steps. As many tokens are shared by the two inputs as are still to be
shifted, so each shift is of a shared token. -/
theorem drivesIn_of_ahead_eq {shared : List (Token T)} {steps : Nat}
    (listed : ∀ token ∈ shared, grammar.vocabulary.terminals.Lists token.terminal)
    (aheadListed : grammar.vocabulary.terminals.Lists (grammar.ahead tokens))
    (same : grammar.ahead tokens = grammar.ahead others)
    (reaches : (grammar.driver method).run steps
      (.facing grammar.vocabulary frames (shared ++ tokens) stats) = .running next)
    (shifts : next.stats.shifts = stats.shifts + shared.length) :
    grammar.DrivesIn method steps frames (shared ++ others) next.frames others := by
  induction steps generalizing frames shared stats with
  | zero =>
      cases reaches
      have none : shared.length = 0 := Nat.add_left_cancel shifts.symm
      rw [List.length_eq_zero_iff.mp none]
      exact fun otherStats => ⟨otherStats, rfl⟩
  | succ steps inductionHypothesis =>
      have sharedAhead : grammar.vocabulary.terminals.Lists (grammar.ahead (shared ++ tokens)) ∧
          grammar.ahead (shared ++ tokens) = grammar.ahead (shared ++ others) := by
        cases shared with
        | nil => exact ⟨aheadListed, same⟩
        | cons token more => exact ⟨listed token List.mem_cons_self, rfl⟩
      obtain ⟨middle, stepped, onward⟩ := Parser.exists_step_of_run reaches
      rw [Nat.add_comm]
      rcases step_facing_cases sharedAhead.1 stepped with
        ⟨token, rest, target, statsAfter, split, edge, rfl, count⟩ | ⟨id, action, reduces⟩
      · cases shared with
        | nil =>
            have further := Parser.shifts_le_of_run onward
            rw [show (Configuration.facing _ _ _ statsAfter).stats = statsAfter from rfl, count,
              shifts] at further
            exact absurd further (Nat.not_succ_le_self _)
        | cons first more =>
            obtain ⟨rfl, rfl⟩ := List.cons.inj split
            obtain ⟨tokenListed, moreListed⟩ := List.forall_mem_cons.mp listed
            have left : next.stats.shifts = statsAfter.shifts + more.length := by
              rw [shifts, count, List.length_cons]
              omega
            exact (drivesIn_shift tokenListed edge).trans
              (inductionHypothesis moreListed onward left)
      · have reduced := @Parser.reduce_of_frames_eq T N (grammar.driver method) _ _ _ id reduces rfl
        rw [reduces] at reduced
        rw [Progress.running.inj reduced] at onward
        exact (drivesIn_of_reduce sharedAhead.2 action reduces).trans
          (inductionHypothesis listed onward shifts)

end Grammar

end ShiftReduce
