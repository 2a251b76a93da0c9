import ShiftReduce.Alphabet.Numbered
import ShiftReduce.Grammar.Outline
import ShiftReduce.Proofs.Parser.Falling
import ShiftReduce.Proofs.Parser.Recurrence

/-!
Contract: a parser with propagated lookaheads stops unless its run recurs.

Owns: `IsCyclic`, the nonterminals that derive themselves; `Revisits`, by which a run comes back to
the states it has had, with a cyclic nonterminal on top; the induction on the height of the stack by
which every run concludes or revisits; and the theorem that a run stops exactly if it does not recur,
which it never does if no nonterminal is cyclic.

Falls never make the stack higher. As long as one keeps the height, the state on top is told by its
nonterminal and what is below, so nonterminals run out before the height can stay for ever.
-/

namespace ShiftReduce

namespace Grammar

variable {T N : Type}

/-- The nonterminal derives itself in one expansion or more. -/
def IsCyclic (grammar : Grammar T N) (nonterminal : N) : Prop :=
  ∃ rule ∈ grammar.rules, rule.lhs = nonterminal ∧
    grammar.Derives rule.rhs [.nonterminal nonterminal]

variable [DecidableEq T] [DecidableEq N]

/-- From the origin a run comes back to the states that it has had before the same tokens, and there
is a cyclic nonterminal. -/
inductive Revisits (grammar : Grammar T N) (method : Method) (origin : List (Frame T N))
    (input : List (Token T)) : Prop where
  | intro {first second : List (Frame T N)} {tokens : List (Token T)} {steps : Nat} {nonterminal : N}
      (reached : grammar.Drives method origin input first tokens) (positive : 0 < steps)
      (drives : grammar.DrivesIn method steps first tokens second tokens)
      (same : second.map Frame.state = first.map Frame.state)
      (cyclic : grammar.IsCyclic nonterminal)

variable {grammar : Grammar T N} {origin frames below : List (Frame T N)}
  {input tokens : List (Token T)}

/-- A nonterminal has been on top of the stack at this height before, and derivation leads from the
frame that is on top now back to it. -/
def Visited (grammar : Grammar T N) (origin : List (Frame T N)) (input tokens : List (Token T))
    (below : List (Frame T N)) (frame : Frame T N) (nonterminal : N) : Prop :=
  ∃ state children steps,
    grammar.automaton.goto? (top below) (.nonterminal nonterminal) = some state ∧
      grammar.Drives .lalr origin input (⟨state, .node nonterminal children⟩ :: below) tokens ∧
      grammar.DrivesIn .lalr steps (⟨state, .node nonterminal children⟩ :: below) tokens
        (frame :: below) tokens ∧
      grammar.Derives [frame.tree.symbol] [.nonterminal nonterminal]

/-- The run concludes, or the run from the origin revisits states. -/
def Resolves (grammar : Grammar T N) (origin : List (Frame T N)) (input : List (Token T))
    (frames : List (Frame T N)) (tokens : List (Token T)) : Prop :=
  grammar.Concludes .lalr frames tokens ∨ grammar.Revisits .lalr origin input

theorem Resolves.of_drives {middle : List (Frame T N)}
    (drives : grammar.Drives .lalr frames tokens middle tokens)
    (resolves : grammar.Resolves origin input middle tokens) :
    grammar.Resolves origin input frames tokens :=
  resolves.imp (Concludes.of_drives drives) fun revisits => revisits

/-- A fall that keeps the height either comes back to a visited nonterminal or visits another. -/
private theorem revisits_or_visits {visited : List N} {frame : Frame T N} {rule : Rule T N}
    {children : List (Tree T N)} {target steps : Nat} (isRule : rule ∈ grammar.rules)
    (edge : grammar.automaton.goto? (top below) (.nonterminal rule.lhs) = some target)
    (positive : 0 < steps)
    (drives : grammar.DrivesIn .lalr steps (frame :: below) tokens
      (⟨target, .node rule.lhs children⟩ :: below) tokens)
    (derives : grammar.Derives rule.rhs [frame.tree.symbol])
    (reached : grammar.Drives .lalr origin input (frame :: below) tokens)
    (history : ∀ nonterminal ∈ visited,
      grammar.Visited origin input tokens below frame nonterminal) :
    grammar.Revisits .lalr origin input ∨
      rule.lhs ∉ visited ∧ ∀ nonterminal ∈ rule.lhs :: visited, grammar.Visited origin input tokens
        below ⟨target, .node rule.lhs children⟩ nonterminal := by
  by_cases known : rule.lhs ∈ visited
  · obtain ⟨state, earlierChildren, before, earlierEdge, earlierReached, earlierDrives, back⟩ :=
      history _ known
    have sameState : target = state := Option.some.inj (edge.symm.trans earlierEdge)
    have sameStates : (⟨target, .node rule.lhs children⟩ :: below : List (Frame T N)).map
        Frame.state = (⟨state, .node rule.lhs earlierChildren⟩ :: below).map Frame.state := by
      rw [List.map_cons, List.map_cons, sameState]
    have later : 0 < before + steps := by omega
    have cyclic : grammar.IsCyclic rule.lhs := ⟨rule, isRule, rfl, derives.trans back⟩
    exact .inl (.intro earlierReached later (earlierDrives.trans drives) sameStates cyclic)
  · right
    refine ⟨known, ?_⟩
    intro nonterminal member
    rcases List.mem_cons.mp member with rfl | old
    · exact ⟨target, children, 0, edge, reached.trans drives.drives, fun stats => ⟨stats, rfl⟩,
        .refl _⟩
    · obtain ⟨state, earlierChildren, before, earlierEdge, earlierReached, earlierDrives, back⟩ :=
        history nonterminal old
      exact ⟨state, earlierChildren, before + steps, earlierEdge, earlierReached,
        earlierDrives.trans drives, (derives_rhs isRule).trans (derives.trans back)⟩

/-- Runs that keep their height resolve, if those that lose some do. The induction is on the number
of nonterminals that have not been visited at this height. -/
theorem resolves_of_visited (usable : grammar.IsUsable .lalr)
    (listed : grammar.vocabulary.terminals.Lists (grammar.ahead tokens))
    (lower : ∀ frames, frames.length ≤ below.length → grammar.Linked frames →
      grammar.Drives .lalr origin input frames tokens →
      grammar.Resolves origin input frames tokens)
    (unvisited : Nat) {visited : List N} (nodup : visited.Nodup)
    (defined : ∀ nonterminal ∈ visited, nonterminal ∈ grammar.defined)
    (enough : grammar.defined.length < visited.length + unvisited) {frame : Frame T N}
    (linked : grammar.Linked (frame :: below))
    (reached : grammar.Drives .lalr origin input (frame :: below) tokens)
    (history : ∀ nonterminal ∈ visited,
      grammar.Visited origin input tokens below frame nonterminal) :
    grammar.Resolves origin input (frame :: below) tokens := by
  induction unvisited generalizing visited frame with
  | zero =>
      have bounded : visited.length ≤ grammar.defined.length := nodup.length_le_of_subset defined
      omega
  | succ unvisited inductionHypothesis =>
      rcases concludes_or_falls usable linked listed with concludes | falls
      · exact .inl concludes
      cases falls with
      | @intro rule children popped lowerFrames target steps isRule stacked nonempty edge positive
          drives derives =>
          have linkedNext : grammar.Linked (⟨target, .node rule.lhs children⟩ :: lowerFrames) := by
            rw [stacked] at linked
            exact ⟨edge, linked.of_append⟩
          have reachedNext := reached.trans drives.drives
          cases popped with
          | nil => exact absurd rfl nonempty
          | cons first more =>
              obtain ⟨rfl, behind⟩ := List.cons.inj stacked
              cases more with
              | cons second others =>
                  apply Resolves.of_drives drives.drives
                  apply lower _ _ linkedNext reachedNext
                  rw [behind]
                  simp
              | nil =>
                  obtain rfl : below = lowerFrames := behind
                  rcases revisits_or_visits isRule edge positive drives derives reached history with
                    revisits | ⟨fresh, visits⟩
                  · exact .inr revisits
                  apply Resolves.of_drives drives.drives
                  have nodupNext := List.nodup_cons.mpr ⟨fresh, nodup⟩
                  apply inductionHypothesis nodupNext _ _ linkedNext reachedNext visits
                  · exact List.forall_mem_cons.mpr ⟨grammar.lhs_defined _ isRule, defined⟩
                  · rw [List.length_cons]
                    omega

/-- The induction is on the height of the stack. -/
theorem resolves_of_length_le (usable : grammar.IsUsable .lalr)
    (listed : grammar.vocabulary.terminals.Lists (grammar.ahead tokens)) (height : Nat)
    {frames : List (Frame T N)} (within : frames.length ≤ height) (linked : grammar.Linked frames)
    (reached : grammar.Drives .lalr origin input frames tokens) :
    grammar.Resolves origin input frames tokens := by
  induction height generalizing frames with
  | zero =>
      obtain rfl := List.length_eq_zero_iff.mp (Nat.le_zero.mp within)
      rcases concludes_or_falls usable linked listed with concludes | falls
      · exact .inl concludes
      · -- Nothing can be popped from the empty stack.
        cases falls with
        | intro _ stacked nonempty =>
            exact absurd (List.append_eq_nil_iff.mp stacked.symm).1 nonempty
  | succ height inductionHypothesis =>
      cases frames with
      | nil => exact inductionHypothesis (Nat.zero_le _) linked reached
      | cons frame below =>
          have fits : below.length ≤ height := Nat.le_of_succ_le_succ within
          refine resolves_of_visited usable listed (fun frames shorter linked reached =>
            inductionHypothesis (Nat.le_trans shorter fits) linked reached)
            (grammar.defined.length + 1) List.nodup_nil (fun nonterminal impossible => ?_) ?_ linked
            reached fun nonterminal impossible => ?_
          · cases impossible
          · rw [List.length_nil]
            omega
          · cases impossible

/-- Token by token, a run halts unless it revisits states. -/
theorem halts_or_revisits (usable : grammar.IsUsable .lalr)
    (listed : ∀ token ∈ tokens, grammar.vocabulary.terminals.Lists token.terminal)
    (linked : grammar.Linked frames)
    (reached : grammar.Drives .lalr origin input frames tokens) :
    grammar.Halts .lalr frames tokens ∨ grammar.Revisits .lalr origin input := by
  induction tokens generalizing frames with
  | nil =>
      rcases @resolves_of_length_le T N _ _ grammar origin input [] usable grammar.endMarker_listed _
        frames (Nat.le_refl _) linked reached with concludes | revisits
      · cases concludes with
        | halts halts => exact .inl halts
      · exact .inr revisits
  | cons token rest inductionHypothesis =>
      obtain ⟨tokenListed, restListed⟩ := List.forall_mem_cons.mp listed
      rcases @resolves_of_length_le T N _ _ grammar origin input (token :: rest) usable tokenListed _
        frames (Nat.le_refl _) linked reached with concludes | revisits
      · cases concludes with
        | halts halts => exact .inl halts
        | reads linkedAfter drives =>
            exact (inductionHypothesis restListed linkedAfter (reached.trans drives)).imp
              (Halts.of_drives drives) fun revisits => revisits
      · exact .inr revisits

/-! ## Whole runs -/

theorem Revisits.recurs (revisits : grammar.Revisits .lalr [] tokens) :
    (grammar.driver .lalr).Recurs tokens := by
  obtain ⟨stats, start⟩ := @exists_start_eq_facing T N _ _ grammar .lalr tokens
  cases revisits with
  | intro reached positive drives same _ =>
      rcases reached with ⟨before, drivesBefore⟩
      obtain ⟨firstStats, reachesFirst⟩ := drivesBefore stats
      obtain ⟨secondStats, reachesSecond⟩ := drives firstStats
      rw [← start] at reachesFirst
      exact ⟨before, _, _, _, positive, reachesFirst, reachesSecond, same, rfl, rfl⟩

/-- With propagated lookaheads and no clash, a parser stops on listed tokens exactly if its run does
not recur, and it stops on all of them if no nonterminal is cyclic. -/
theorem stops_iff_not_recurs {parser : Parser T N}
    (usable : grammar.study.parser .lalr = .ok parser)
    (listed : ∀ token ∈ tokens, token.terminal ∈ grammar.vocabulary.terminals.all) :
    ((∃ outcome, parser.Stops tokens outcome) ↔ ¬parser.Recurs tokens) ∧
      ((∀ nonterminal, ¬grammar.IsCyclic nonterminal) → ∃ outcome, parser.Stops tokens outcome) := by
  obtain ⟨isUsable, rfl⟩ := parser_eq_ok_iff.mp usable
  obtain ⟨stats, start⟩ := @exists_start_eq_facing T N _ _ grammar .lalr tokens
  have resolves := @halts_or_revisits T N _ _ grammar [] [] tokens tokens isUsable
    (fun token member => grammar.terminals_listed _ (listed token member)) trivial .refl
  have stops : grammar.Halts .lalr [] tokens →
      ∃ outcome, (grammar.driver .lalr).Stops tokens outcome := by
    intro halts
    obtain ⟨steps, outcome, stopped⟩ := halts stats
    exact ⟨outcome, steps, by rw [start, stopped]⟩
  refine ⟨⟨?_, fun never => ?_⟩, fun acyclic => ?_⟩
  · rintro ⟨outcome, stopped⟩ recurs
    exact recurs.not_stops stopped
  · rcases resolves with halts | revisits
    · exact stops halts
    · exact absurd revisits.recurs never
  · rcases resolves with halts | revisits
    · exact stops halts
    · cases revisits with
      | intro _ _ _ _ cyclic => exact absurd cyclic (acyclic _)

/-! ## Both sides of the condition -/

/-- Sums without any order of evaluation: `S -> E`, `E -> E + E` and `E -> n`. -/
def sums : Grammar Nat Nat := Outline.grammar
  { vocabulary :=
      { terminals := Numbering.alphabet { names := #["+", "n", "end"], listed := 3 }
        nonterminals := Numbering.alphabet { names := #["E", "S"], listed := 2 }
        endMarker := 2 }
    start := 1
    rules := #[⟨1, [.nonterminal 0]⟩, ⟨0, [.nonterminal 0, .terminal 0, .nonterminal 0]⟩,
      ⟨0, [.terminal 1]⟩]
    accepting := 0
    defined := [1, 0] }

private theorem not_isCyclic_sums (nonterminal : Nat) : ¬sums.IsCyclic nonterminal := by
  have sumRule : ∀ rule ∈ sums.rules, rule.lhs = 0 → ∃ terminal, .terminal terminal ∈ rule.rhs := by
    simp [sums]
  have startRule : ∀ rule ∈ sums.rules, rule.lhs ≠ 0 → rule.rhs = [.nonterminal 0] := by
    simp [sums]
  have noTerminal : ∀ rule ∈ sums.rules, rule.lhs = 0 →
      ¬sums.Derives rule.rhs [.nonterminal nonterminal] := by
    intro rule isRule isSum derives
    obtain ⟨terminal, occurs⟩ := sumRule rule isRule isSum
    cases List.mem_singleton.mp (derives.terminal_mem occurs)
  intro cyclic
  rcases cyclic with ⟨rule, isRule, lhs, derives⟩
  by_cases isSum : rule.lhs = 0
  · exact noTerminal rule isRule isSum derives
  · rw [startRule rule isRule isSum] at derives
    rcases derives_nonterminal derives with same | ⟨inner, innerRule, innerSum, further⟩
    · exact isSum (lhs.trans (Symbol.nonterminal.inj (List.cons.inj same).1))
    · exact noTerminal inner innerRule innerSum further

/-- The tokens `n + n + n`, which the grammar derives in two ways. -/
def sumTokens : List (Token Nat) :=
  [{ terminal := 1, lexeme := "1" }, { terminal := 0, lexeme := "+" },
    { terminal := 1, lexeme := "2" }, { terminal := 0, lexeme := "+" },
    { terminal := 1, lexeme := "3" }]

theorem stops_sums : ∃ outcome, (sums.driver .lalr).Stops sumTokens outcome := by
  have usable : sums.study.parser .lalr = .ok (sums.driver .lalr) :=
    IsUsable.parser_eq (by decide +kernel)
  have listed : ∀ token ∈ sumTokens, token.terminal ∈ sums.vocabulary.terminals.all := by decide
  exact (stops_iff_not_recurs usable listed).2 not_isCyclic_sums

/-- The rules `A -> B` and `B -> A` go round. Behind `a x` only `y` may follow `A` or `B`. But the
state of `B` there is also the one behind `v B`, the state of `A` is also the one behind `c x A`, and
in both of those `t` may follow. -/
def twisted : Grammar Nat Nat := Outline.grammar
  { vocabulary :=
      { terminals := Numbering.alphabet
          { names := #["a", "c", "v", "x", "y", "t", "b", "end"], listed := 8 }
        nonterminals := Numbering.alphabet { names := #["Z", "S", "W", "A", "B", "Q"], listed := 6 }
        endMarker := 7 }
    start := 0
    rules := #[⟨0, [.nonterminal 5]⟩, ⟨5, [.terminal 0, .nonterminal 1]⟩,
      ⟨5, [.terminal 1, .nonterminal 1]⟩, ⟨5, [.terminal 1, .nonterminal 2]⟩,
      ⟨5, [.terminal 2, .nonterminal 3, .terminal 5]⟩,
      ⟨1, [.terminal 3, .nonterminal 3, .terminal 4]⟩,
      ⟨2, [.terminal 3, .nonterminal 4, .terminal 5]⟩, ⟨3, [.nonterminal 4]⟩, ⟨4, [.nonterminal 3]⟩,
      ⟨4, [.terminal 6]⟩]
    accepting := 0
    defined := [0, 5, 1, 2, 3, 4] }

/-- The tokens `a x b t`. -/
def twistedTokens : List (Token Nat) :=
  [{ terminal := 0, lexeme := "a" }, { terminal := 3, lexeme := "x" },
    { terminal := 6, lexeme := "b" }, { terminal := 5, lexeme := "t" }]

private theorem recurs_twisted : (twisted.driver .lalr).Recurs twistedTokens := by
  have returns : (match (twisted.driver .lalr).run 4
        ((twisted.driver .lalr).start twistedTokens) with
      | .running first =>
          match (twisted.driver .lalr).run 2 first with
          | .running second =>
              decide (second.frames.map Frame.state = first.frames.map Frame.state ∧
                second.lookahead = first.lookahead ∧ second.rest = first.rest)
          | .stopped _ => false
      | .stopped _ => false) = true := by
    decide +kernel
  split at returns
  · next first reachesFirst =>
      split at returns
      · next second reachesSecond =>
          obtain ⟨states, lookahead, rest⟩ := of_decide_eq_true returns
          exact ⟨4, 2, first, second, Nat.two_pos, reachesFirst, reachesSecond, states, lookahead,
            rest⟩
      · cases returns
  · cases returns

/-- A parser that can be had, tokens that are listed, and a run without end. -/
theorem not_stops_twisted :
    twisted.study.parser .lalr = .ok (twisted.driver .lalr) ∧
      (∀ token ∈ twistedTokens, token.terminal ∈ twisted.vocabulary.terminals.all) ∧
      ¬∃ outcome, (twisted.driver .lalr).Stops twistedTokens outcome := by
  refine ⟨IsUsable.parser_eq (by decide +kernel), by decide, ?_⟩
  intro stops
  rcases stops with ⟨outcome, stopped⟩
  exact recurs_twisted.not_stops stopped

end Grammar

end ShiftReduce
