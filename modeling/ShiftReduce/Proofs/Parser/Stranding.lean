import ShiftReduce.Proofs.Automaton.Chains
import ShiftReduce.Proofs.Parser.FirstError
import ShiftReduce.Proofs.Parser.Progress

/-!
Contract: where nothing is reported, a parser stops unless its stack is stranded.

Owns: `IsStranded`, by which no terminal at all can come next after a stack; `Folds`, reductions in
a row in front of one terminal; the bound on reductions in a row that leave a stack which is not
stranded; and the theorem that a parser without conflicts stops or strands, and that it stops if
every nonterminal is productive.

If something can come next after some reductions, then the same reductions are made in front of it,
for without conflicts nothing else can be done there. But a parser concludes in front of what can
come next, so the reductions are no more than it takes to conclude, and there are finitely many
terminals.
-/

namespace ShiftReduce

namespace Grammar

variable {T N : Type} [DecidableEq T] [DecidableEq N] {grammar : Grammar T N} {method : Method}
  {terminal : T} {frames after : List (Frame T N)} {tokens : List (Token T)} {count : Nat}

/-- No terminal can come next after the stack. -/
def IsStranded (grammar : Grammar T N) (frames : List (Frame T N)) : Prop :=
  ∀ terminal, ¬grammar.Continues (symbols frames) terminal

/-! ## Reductions in a row -/

/-- So many reductions in front of the terminal lead from the first stack to the second. -/
inductive Folds (grammar : Grammar T N) (method : Method) (terminal : T) :
    Nat → List (Frame T N) → List (Frame T N) → Prop where
  | none (frames : List (Frame T N)) : Folds grammar method terminal 0 frames frames
  | reduce {id : RuleId} {popped below after : List (Frame T N)} {target count : Nat}
      (action : (grammar.driver method).table.action? (top (popped ++ below)) terminal =
        some (.reduce id))
      (bound : id < grammar.rules.size) (read : symbols popped = (grammar.rule id).rhs)
      (edge : grammar.automaton.goto? (top below) (.nonterminal (grammar.rule id).lhs) =
        some target)
      (folds : Folds grammar method terminal count
        (⟨target, .node (grammar.rule id).lhs (popped.map Frame.tree).reverse⟩ :: below) after) :
      Folds grammar method terminal (count + 1) (popped ++ below) after

theorem Folds.drivesIn (folds : grammar.Folds method (grammar.ahead tokens) count frames after) :
    grammar.DrivesIn method count frames tokens after tokens := by
  generalize front : grammar.ahead tokens = terminal at folds
  induction folds with
  | none => exact fun stats => ⟨stats, rfl⟩
  | reduce action bound read edge _ inductionHypothesis =>
      rw [← front] at action
      have length := congrArg List.length read
      rw [length_symbols] at length
      rw [Nat.add_comm]
      exact (drivesIn_reduce action bound length edge).trans inductionHypothesis

/-- A parser concludes or makes any number of reductions in a row. -/
theorem concludes_or_folds (listed : grammar.vocabulary.terminals.Lists (grammar.ahead tokens))
    (linked : grammar.Linked frames) (count : Nat) :
    grammar.Concludes method frames tokens ∨
      ∃ after, grammar.Linked after ∧
        grammar.Folds method (grammar.ahead tokens) count frames after := by
  induction count generalizing frames with
  | zero => exact .inr ⟨frames, linked, .none frames⟩
  | succ count inductionHypothesis =>
      cases action : (grammar.driver method).table.action? (top frames) (grammar.ahead tokens) with
      | none => exact .inl (.halts (halts_of_reject action))
      | some act =>
          cases act with
          | shift target =>
              exact .inl (concludes_of_edge linked ((action?_eq_shift_iff listed).mp action))
          | accept => exact .inl (.halts (halts_of_accept action))
          | reduce id =>
              obtain ⟨item, completed, rfl, ordinary, _⟩ :=
                exists_of_action?_eq_reduce listed action
              have bound := (marker_eq_of_mem_completed completed).1
              obtain ⟨popped, below, rfl, read, unread⟩ :=
                linked.exists_popped_of_completed completed
              obtain ⟨target, edge⟩ := exists_goto?_of_initial unread (of_decide_eq_false ordinary)
              have linkedNext : grammar.Linked (⟨target, .node (grammar.rule item.rule).lhs
                  (popped.map Frame.tree).reverse⟩ :: below) := ⟨edge, linked.of_append⟩
              rcases inductionHypothesis linkedNext with concludes | ⟨after, afterLinked, folds⟩
              · have length := congrArg List.length read
                rw [length_symbols] at length
                exact .inl (concludes.of_drives (drivesIn_reduce action bound length edge).drives)
              · exact .inr ⟨after, afterLinked, .reduce action bound read edge folds⟩

/-! ## In front of what can come next -/

/-- Without conflicts, the reductions that are made in front of some terminal are made in front of
whatever can come next after them. -/
theorem Folds.of_continues (empty : (grammar.study.compiled method).conflicts.isEmpty = true)
    {next : T} (folds : grammar.Folds method terminal count frames after)
    (linked : grammar.Linked frames) (continues : grammar.Continues (symbols after) next) :
    grammar.Folds method next count frames after ∧ grammar.Continues (symbols frames) next := by
  induction folds with
  | none frames => exact ⟨.none frames, continues⟩
  | @reduce id popped below after target count _ bound read edge folds inductionHypothesis =>
      obtain ⟨foldsNext, continuesNext⟩ := inductionHypothesis ⟨edge, linked.of_append⟩ continues
      rw [symbols_cons] at continuesNext
      have follows := continuesNext.mayFollow_read bound
      have walked := linked.walk
      rw [symbols_append, read] at walked
      have completed := follows.valid.mem_completed walked
      have ordinary : id ≠ grammar.accepting := by
        -- No state has a transition on the left side of the accepting rule.
        intro accepting
        obtain ⟨item, _, expects⟩ := (goto?_eq_some_iff.mp edge).1
        rw [accepting] at expects
        exact next?_ne_start (grammar.acceptingRule_lhs ▸ expects)
      have lookahead := follows.mem_reductionLookaheads method walked
      have unshifted :=
        goto?_eq_none_of_isEmpty empty completed (decide_eq_false ordinary) lookahead
      have action := (isUsable_of_isEmpty empty).action?_eq_reduce completed
        (decide_eq_false ordinary) follows.listed lookahead unshifted
      refine ⟨.reduce action bound read edge foldsNext, ?_⟩
      rw [symbols_append, read]
      exact .completes follows

/-- A row of reductions begins with each shorter one. -/
theorem Folds.exists_take {further : Nat}
    (folds : grammar.Folds method terminal (count + further) frames after) :
    ∃ middle, grammar.Folds method terminal count frames middle := by
  induction count generalizing frames with
  | zero => exact ⟨frames, .none frames⟩
  | succ count inductionHypothesis =>
      rw [Nat.succ_add] at folds
      cases folds with
      | reduce action bound read edge folds =>
          obtain ⟨middle, foldsMiddle⟩ := inductionHypothesis folds
          exact ⟨middle, .reduce action bound read edge foldsMiddle⟩

/-- In front of what can come next, only so many reductions can be made in a row: the parser stops
or reads a token after some number of steps, and reductions do neither. -/
theorem exists_folds_le_of_continues (usable : grammar.IsUsable method)
    (linked : grammar.Linked frames) (continues : grammar.Continues (symbols frames) terminal) :
    ∃ most, ∀ count after, grammar.Folds method terminal count frames after → count ≤ most := by
  let token : Token T := { terminal, lexeme := "" }
  have concludes : grammar.Concludes method frames [token, token] :=
    concludes_of_continues usable linked continues
  obtain ⟨steps, leaves⟩ : ∃ steps, ∀ middle,
      ¬grammar.DrivesIn method steps frames [token, token] middle [token, token] := by
    cases concludes with
    | halts halts =>
        obtain ⟨steps, outcome, stopped⟩ := halts {}
        refine ⟨steps, fun middle drives => ?_⟩
        obtain ⟨stats, reaches⟩ := drives {}
        rw [stopped] at reaches
        cases reaches
    | reads _ drives =>
        rcases drives with ⟨steps, drivesAway⟩
        refine ⟨steps, fun middle drives => ?_⟩
        obtain ⟨stats, reaches⟩ := drives {}
        obtain ⟨statsAway, reachesAway⟩ := drivesAway {}
        -- Only one of the two tokens would be left, and both are.
        rw [reaches] at reachesAway
        injection reachesAway with same
        exact absurd (congrArg Configuration.rest same) (by simp [Configuration.facing])
  refine ⟨steps, fun count after folds => ?_⟩
  by_contra more
  obtain ⟨further, rfl⟩ := Nat.exists_eq_add_of_le (show steps ≤ count by omega)
  obtain ⟨middle, foldsMiddle⟩ := folds.exists_take
  exact leaves middle foldsMiddle.drivesIn

/-- Among finitely many terminals there is one bound for all that can come next. -/
private theorem exists_folds_le_of_mem (usable : grammar.IsUsable method)
    (linked : grammar.Linked frames) (letters : List T) :
    ∃ most, ∀ terminal ∈ letters, grammar.Continues (symbols frames) terminal →
      ∀ count after, grammar.Folds method terminal count frames after → count ≤ most := by
  induction letters with
  | nil => exact ⟨0, fun _ impossible => nomatch impossible⟩
  | cons letter rest inductionHypothesis =>
      obtain ⟨mostOfRest, restBounded⟩ := inductionHypothesis
      have ofLetter : ∃ most, grammar.Continues (symbols frames) letter →
          ∀ count after, grammar.Folds method letter count frames after → count ≤ most := by
        by_cases continues : grammar.Continues (symbols frames) letter
        · obtain ⟨most, bounded⟩ := exists_folds_le_of_continues usable linked continues
          exact ⟨most, fun _ => bounded⟩
        · exact ⟨0, fun continuesHere => absurd continuesHere continues⟩
      obtain ⟨mostOfLetter, letterBounded⟩ := ofLetter
      refine ⟨max mostOfLetter mostOfRest, fun terminal member continues count after folds => ?_⟩
      rcases List.mem_cons.mp member with rfl | inRest
      · exact Nat.le_trans (letterBounded continues count after folds) (Nat.le_max_left _ _)
      · exact Nat.le_trans (restBounded terminal inRest continues count after folds)
          (Nat.le_max_right _ _)

omit [DecidableEq T] in
theorem Continues.listed {access : List (Symbol T N)}
    (continues : grammar.Continues access terminal) :
    grammar.vocabulary.terminals.Lists terminal := by
  cases continues with
  | reads _ expects => exact (listed_of_next? expects).1
  | completes follows => exact follows.listed

/-! ## Runs -/

/-- Without conflicts, a parser concludes or strands its stack. -/
theorem concludes_or_strands (empty : (grammar.study.compiled method).conflicts.isEmpty = true)
    (listed : grammar.vocabulary.terminals.Lists (grammar.ahead tokens))
    (linked : grammar.Linked frames) :
    grammar.Concludes method frames tokens ∨ ∃ after, grammar.Linked after ∧
      grammar.Drives method frames tokens after tokens ∧ grammar.IsStranded after := by
  obtain ⟨most, bounded⟩ := exists_folds_le_of_mem (isUsable_of_isEmpty empty) linked
    grammar.vocabulary.terminals.all
  rcases concludes_or_folds listed linked (most + 1) with concludes | ⟨after, afterLinked, folds⟩
  · exact .inl concludes
  · refine .inr ⟨after, afterLinked, folds.drivesIn.drives, fun terminal continues => ?_⟩
    obtain ⟨foldsNext, continuesNow⟩ := folds.of_continues empty linked continues
    have within := bounded terminal continues.listed.mem continuesNow _ after foldsNext
    omega

/-- Token by token, a run halts or strands. -/
theorem halts_or_strands (empty : (grammar.study.compiled method).conflicts.isEmpty = true)
    (listed : ∀ token ∈ tokens, grammar.vocabulary.terminals.Lists token.terminal)
    (linked : grammar.Linked frames) :
    grammar.Halts method frames tokens ∨ ∃ after rest, grammar.Linked after ∧
      grammar.Drives method frames tokens after rest ∧ grammar.IsStranded after := by
  induction tokens generalizing frames with
  | nil =>
      rcases @concludes_or_strands T N _ _ grammar method frames [] empty grammar.endMarker_listed
        linked with concludes | ⟨after, afterLinked, drives, stranded⟩
      · cases concludes with
        | halts halts => exact .inl halts
      · exact .inr ⟨after, [], afterLinked, drives, stranded⟩
  | cons token rest inductionHypothesis =>
      obtain ⟨tokenListed, restListed⟩ := List.forall_mem_cons.mp listed
      rcases @concludes_or_strands T N _ _ grammar method frames (token :: rest) empty tokenListed
        linked with concludes | ⟨after, afterLinked, drives, stranded⟩
      · cases concludes with
        | halts halts => exact .inl halts
        | reads linkedAfter drives =>
            rcases inductionHypothesis restListed linkedAfter with
              halts | ⟨after, remaining, lastLinked, further, stranded⟩
            · exact .inl (halts.of_drives drives)
            · exact .inr ⟨after, remaining, lastLinked, drives.trans further, stranded⟩
      · exact .inr ⟨after, token :: rest, afterLinked, drives, stranded⟩

/-- Where every nonterminal is productive, no stack is stranded. -/
theorem IsProductive.not_isStranded (productive : grammar.IsProductive)
    (linked : grammar.Linked frames) : ¬grammar.IsStranded frames := by
  intro stranded
  obtain ⟨item, valid⟩ := exists_valid_of_walk linked.walk
  obtain ⟨terminal, continues⟩ := productive.exists_continues valid
  exact stranded terminal continues

/-- Where nothing is reported there is a parser, and on listed tokens it stops or comes to a stack
after which no terminal can come next. If every nonterminal is productive, it stops. -/
theorem stops_or_strands_of_isEmpty
    (empty : (grammar.study.compiled method).conflicts.isEmpty = true)
    (listed : ∀ token ∈ tokens, token.terminal ∈ grammar.vocabulary.terminals.all) :
    ∃ parser, grammar.study.parser method = .ok parser ∧
      ((∃ outcome, parser.Stops tokens outcome) ∨
        ∃ steps configuration, parser.run steps (parser.start tokens) = .running configuration ∧
          grammar.IsStranded configuration.frames) ∧
      (grammar.IsProductive → ∃ outcome, parser.Stops tokens outcome) := by
  refine ⟨grammar.driver method, (isUsable_of_isEmpty empty).parser_eq, ?_⟩
  obtain ⟨stats, start⟩ := @exists_start_eq_facing T N _ _ grammar method tokens
  have resolves := @halts_or_strands T N _ _ grammar method [] tokens empty
    (fun token member => grammar.terminals_listed _ (listed token member)) trivial
  have stops : grammar.Halts method [] tokens →
      ∃ outcome, (grammar.driver method).Stops tokens outcome := by
    intro halts
    obtain ⟨steps, outcome, stopped⟩ := halts stats
    exact ⟨outcome, steps, by rw [start, stopped]⟩
  rcases resolves with halts | ⟨after, rest, afterLinked, drives, stranded⟩
  · exact ⟨.inl (stops halts), fun _ => stops halts⟩
  · rcases drives with ⟨steps, drivesIn⟩
    obtain ⟨statsAfter, reaches⟩ := drivesIn stats
    rw [← start] at reaches
    exact ⟨.inr ⟨steps, _, reaches, stranded⟩,
      fun productive => absurd stranded (productive.not_isStranded afterLinked)⟩

/-- Behind `a` and `x` the `e` is rejected, since nothing is reported and all is productive. -/
theorem stops_forked : ∃ parser, forked.study.parser .slr = .ok parser ∧
    ∃ outcome, parser.Stops forkedTokens outcome := by
  have empty : (forked.study.compiled .slr).conflicts.isEmpty = true := by decide +kernel
  have listed : ∀ token ∈ forkedTokens, token.terminal ∈ forked.vocabulary.terminals.all := by
    decide
  obtain ⟨parser, found, _, stops⟩ := stops_or_strands_of_isEmpty empty listed
  exact ⟨parser, found, stops isProductive_forked⟩

/-! ## A run without end -/

/-- `X` derives no string of terminals, since each of its expansions holds another `X`. Behind `a`
nothing can come next. But behind `c` an empty `A` has a `d` behind it, so that by FOLLOW the rule
`A -> ε` is reduced in front of `d`, also for the `A` that `X` begins with. -/
def unending : Grammar Nat Nat := Outline.grammar
  { vocabulary :=
      { terminals := Numbering.alphabet { names := #["a", "b", "c", "d", "end"], listed := 5 }
        nonterminals := Numbering.alphabet { names := #["S", "Z", "X", "A"], listed := 4 }
        endMarker := 4 }
    start := 0
    rules := #[⟨0, [.nonterminal 1]⟩, ⟨1, [.terminal 0, .nonterminal 2]⟩,
      ⟨1, [.terminal 2, .nonterminal 3, .terminal 3]⟩,
      ⟨2, [.nonterminal 3, .nonterminal 2, .terminal 1]⟩, ⟨3, []⟩]
    accepting := 0
    defined := List.range 4 }

/-- The tokens `a d`. -/
def unendingTokens : List (Token Nat) :=
  [{ terminal := 0, lexeme := "a" }, { terminal := 3, lexeme := "d" }]

/-- The states behind `a` and behind each `A` after it. -/
private theorem cells_unending : ∀ state ∈ [1, 5],
    (unending.driver .slr).table.action? state 3 = some (.reduce 4) ∧
      unending.automaton.goto? state (.nonterminal 3) = some 5 := by
  decide +kernel

/-- The induction is on the number of reductions: each leaves another `A` on the stack. -/
private theorem folds_unending (count : Nat) {frames : List (Frame Nat Nat)}
    (onTop : top frames ∈ [1, 5]) : ∃ after, unending.Folds .slr 3 count frames after := by
  induction count generalizing frames with
  | zero => exact ⟨frames, .none frames⟩
  | succ count inductionHypothesis =>
      obtain ⟨action, edge⟩ := cells_unending (top frames) onTop
      have onTopNext : top (⟨5, .node 3 []⟩ :: frames : List (Frame Nat Nat)) ∈ [1, 5] :=
        List.mem_cons_of_mem 1 List.mem_cons_self
      obtain ⟨after, folds⟩ := inductionHypothesis onTopNext
      have reduces : unending.Folds .slr 3 (count + 1) ([] ++ frames) after :=
        .reduce action (by decide) rfl edge folds
      exact ⟨after, reduces⟩

/-- Nothing is reported, the tokens are listed, and the run does not end. -/
theorem not_stops_unending :
    (unending.study.compiled .slr).conflicts.isEmpty = true ∧
      unending.study.parser .slr = .ok (unending.driver .slr) ∧
      (∀ token ∈ unendingTokens, token.terminal ∈ unending.vocabulary.terminals.all) ∧
      ¬∃ outcome, (unending.driver .slr).Stops unendingTokens outcome := by
  have empty : (unending.study.compiled .slr).conflicts.isEmpty = true := by decide +kernel
  refine ⟨empty, (isUsable_of_isEmpty empty).parser_eq, by decide, ?_⟩
  intro stops
  rcases stops with ⟨outcome, steps, stopped⟩
  obtain ⟨stats, start⟩ := @exists_start_eq_facing Nat Nat _ _ unending .slr unendingTokens
  have edge : unending.automaton.goto? 0 (.terminal 0) = some 1 := by decide +kernel
  have shifts : unending.DrivesIn .slr 1 [] unendingTokens _ _ := drivesIn_shift (by decide) edge
  obtain ⟨after, folds⟩ := @folds_unending steps
    [⟨1, .leaf { terminal := 0, lexeme := "a" }⟩] (by decide)
  have reduces := @Folds.drivesIn Nat Nat _ _ unending .slr _ after
    [{ terminal := 3, lexeme := "d" }] steps folds
  obtain ⟨statsAfter, reaches⟩ := (shifts.trans reduces) stats
  have stoppedLater := Parser.run_add_of_stopped stopped 1
  rw [start, Nat.add_comm, reaches] at stoppedLater
  cases stoppedLater

end Grammar

end ShiftReduce
