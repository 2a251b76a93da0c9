import ShiftReduce.Parser.Run
import ShiftReduce.Proofs.Parser.Stack

/-!
Contract: runs between stacks and inputs, without the statistics.

Owns: `Configuration.facing`, a stack in front of some tokens; `DrivesIn` and `Drives`, by which so
many or some steps lead from one stack and input to another whatever has been counted; and the
steps that all such runs are made of: shifts, reductions and an acceptance at the end.
-/

namespace ShiftReduce

namespace Configuration

variable {T N : Type}

/-- The stack in front of the tokens, the first of which is the lookahead. -/
def facing (vocabulary : Vocabulary T N) (frames : List (Frame T N)) (tokens : List (Token T))
    (stats : Stats) : Configuration T N where
  frames := frames
  lookahead := tokens.headD vocabulary.endToken
  rest := tokens.tail
  stats := stats

theorem exists_readToken_eq_facing (vocabulary : Vocabulary T N)
    (configuration : Configuration T N) :
    ∃ stats, configuration.readToken vocabulary =
      facing vocabulary configuration.frames configuration.rest stats := by
  cases left : configuration.rest with
  | nil => exact ⟨configuration.stats, by simp [readToken, facing, left]⟩
  | cons token rest => exact ⟨_, by simp only [readToken, facing, left]; rfl⟩

end Configuration

namespace Grammar

variable {T N : Type} [DecidableEq T] [DecidableEq N] {grammar : Grammar T N} {method : Method}

/-- The terminal that stands in front of the tokens; the end marker where there are none. -/
def ahead (grammar : Grammar T N) (tokens : List (Token T)) : T :=
  (tokens.headD grammar.vocabulary.endToken).terminal

/-- So many steps lead from the first stack and input to the second, whatever has been counted. -/
def DrivesIn (grammar : Grammar T N) (method : Method) (steps : Nat) (frames : List (Frame T N))
    (tokens : List (Token T)) (framesAfter : List (Frame T N)) (tokensAfter : List (Token T)) :
    Prop :=
  ∀ stats, ∃ statsAfter,
    (grammar.driver method).run steps (.facing grammar.vocabulary frames tokens stats) =
      .running (.facing grammar.vocabulary framesAfter tokensAfter statsAfter)

/-- Some steps lead from the first stack and input to the second. -/
def Drives (grammar : Grammar T N) (method : Method) (frames : List (Frame T N))
    (tokens : List (Token T)) (framesAfter : List (Frame T N)) (tokensAfter : List (Token T)) :
    Prop :=
  ∃ steps, grammar.DrivesIn method steps frames tokens framesAfter tokensAfter

variable {frames middle last : List (Frame T N)} {tokens middleTokens lastTokens : List (Token T)}

theorem DrivesIn.trans {steps further : Nat}
    (earlier : grammar.DrivesIn method steps frames tokens middle middleTokens)
    (later : grammar.DrivesIn method further middle middleTokens last lastTokens) :
    grammar.DrivesIn method (steps + further) frames tokens last lastTokens := by
  intro stats
  obtain ⟨middleStats, reaches⟩ := earlier stats
  obtain ⟨lastStats, reachesLast⟩ := later middleStats
  exact ⟨lastStats, by rw [Parser.run_add reaches, reachesLast]⟩

theorem DrivesIn.drives {steps : Nat}
    (drives : grammar.DrivesIn method steps frames tokens last lastTokens) :
    grammar.Drives method frames tokens last lastTokens :=
  ⟨steps, drives⟩

theorem Drives.refl : grammar.Drives method frames tokens frames tokens :=
  ⟨0, fun stats => ⟨stats, rfl⟩⟩

theorem Drives.trans (earlier : grammar.Drives method frames tokens middle middleTokens)
    (later : grammar.Drives method middle middleTokens last lastTokens) :
    grammar.Drives method frames tokens last lastTokens := by
  rcases earlier with ⟨steps, drives⟩
  rcases later with ⟨further, drivesLater⟩
  exact ⟨steps + further, drives.trans drivesLater⟩

theorem action?_facing (frames : List (Frame T N)) (tokens : List (Token T)) (stats : Stats) :
    (grammar.driver method).action? (.facing grammar.vocabulary frames tokens stats) =
      (grammar.driver method).table.action? (top frames) (grammar.ahead tokens) :=
  action?_eq_of_top method _

theorem exists_start_eq_facing (method : Method) (tokens : List (Token T)) :
    ∃ stats, (grammar.driver method).start tokens = .facing grammar.vocabulary [] tokens stats :=
  Configuration.exists_readToken_eq_facing grammar.vocabulary
    { frames := [], lookahead := grammar.vocabulary.endToken, rest := tokens, stats := {} }

theorem step_of_accept (stats : Stats)
    (accepts : (grammar.driver method).table.action? (top frames) (grammar.ahead tokens) =
      some .accept) :
    (grammar.driver method).step (.facing grammar.vocabulary frames tokens stats) =
      .stopped ((grammar.driver method).accept (.facing grammar.vocabulary frames tokens stats)) := by
  rw [Parser.step, action?_facing, accepts]

/-- A shift takes the first token, and is counted. -/
theorem exists_shift_eq_facing (token : Token T) (target : Nat) (stats : Stats) :
    ∃ statsAfter, (grammar.driver method).shift
        (.facing grammar.vocabulary frames (token :: tokens) stats) target =
          .facing grammar.vocabulary (⟨target, .leaf token⟩ :: frames) tokens statsAfter ∧
      statsAfter.shifts = stats.shifts + 1 := by
  have count := (grammar.driver method).stats_shift
    (.facing grammar.vocabulary frames (token :: tokens) stats) target
  obtain ⟨statsAfter, pushed⟩ := Configuration.exists_readToken_eq_facing grammar.vocabulary
    { frames := ⟨target, .leaf token⟩ :: frames, lookahead := token, rest := tokens,
      stats := { stats with shifts := stats.shifts + 1 } }
  have shifted : (grammar.driver method).shift
      (.facing grammar.vocabulary frames (token :: tokens) stats) target =
        .facing grammar.vocabulary (⟨target, .leaf token⟩ :: frames) tokens statsAfter := pushed
  rw [shifted] at count
  exact ⟨statsAfter, shifted, count.1⟩

theorem drivesIn_shift {token : Token T} {target : Nat}
    (listed : grammar.vocabulary.terminals.Lists token.terminal)
    (edge : grammar.automaton.goto? (top frames) (.terminal token.terminal) = some target) :
    grammar.DrivesIn method 1 frames (token :: tokens) (⟨target, .leaf token⟩ :: frames)
      tokens := by
  intro stats
  have action := (@action?_eq_shift_iff T N _ _ grammar method _ _ _ listed).mpr edge
  have cell := @action?_facing T N _ _ grammar method frames (token :: tokens) stats
  obtain ⟨statsAfter, shifted, _⟩ := @exists_shift_eq_facing T N _ _ grammar method frames tokens
    token target stats
  refine ⟨statsAfter, ?_⟩
  rw [Parser.run, Parser.step, cell, show grammar.ahead (token :: tokens) = token.terminal from rfl,
    action]
  exact congrArg Progress.running shifted

theorem drivesIn_reduce {id : RuleId} {popped below : List (Frame T N)} {target : Nat}
    (action : (grammar.driver method).table.action? (top (popped ++ below))
      (grammar.ahead tokens) = some (.reduce id))
    (bound : id < grammar.rules.size) (length : popped.length = (grammar.rule id).rhs.length)
    (edge : grammar.automaton.goto? (top below) (.nonterminal (grammar.rule id).lhs) =
      some target) :
    grammar.DrivesIn method 1 (popped ++ below) tokens
      (⟨target, .node (grammar.rule id).lhs (popped.map Frame.tree).reverse⟩ :: below) tokens := by
  intro stats
  have cell := @action?_facing T N _ _ grammar method (popped ++ below) tokens stats
  have reduces := @reduce_driver T N _ _ grammar method
    (.facing grammar.vocabulary (popped ++ below) tokens stats) id popped below target bound rfl
    length edge
  refine ⟨{ stats with reductions := stats.reductions + 1 }, ?_⟩
  rw [Parser.run, Parser.step, cell, action]
  simp only [reduces]
  rfl

end Grammar

end ShiftReduce
