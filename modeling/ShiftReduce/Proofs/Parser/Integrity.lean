import ShiftReduce.Proofs.Parser.Soundness

/-!
Contract: the stack of a parser stays in order, so its internal errors never occur.

Owns: `Parser.entries`, the stack down to the start state; `Intact`, by which it can be walked from
there by the symbols of its trees and never comes back; the two ways in which a run stops; and the
theorem that every configuration is intact and that the only error is an unexpected token.
-/

namespace ShiftReduce

namespace Parser

variable {T N : Type}

/-- The stack, the last entry first, down to the start state, which has no tree. -/
def entries (parser : Parser T N) (configuration : Configuration T N) :
    List (Nat × Option (Tree T N)) :=
  configuration.frames.map (fun frame => (frame.state, some frame.tree)) ++
    [(parser.table.startState, none)]

end Parser

namespace Grammar

variable {T N : Type} [DecidableEq T] [DecidableEq N]

/-- The start state is at the bottom and nowhere else, each other entry has a tree, and its state is
entered from the state below by the symbol of that tree. -/
structure Intact (grammar : Grammar T N) (entries : List (Nat × Option (Tree T N))) : Prop where
  bottom : entries.getLast? = some (0, none)
  above : ∀ entry ∈ entries.dropLast, entry.1 ≠ 0 ∧ entry.2.isSome = true
  linked : entries.IsChain fun upper lower => ∃ tree, upper.2 = some tree ∧
    grammar.automaton.goto? lower.1 tree.symbol = some upper.1

variable {grammar : Grammar T N} {method : Method} {tokens : List (Token T)}
  {configuration : Configuration T N}

/-- No frame of a linked stack holds the start state, since no transition enters it. -/
theorem Linked.state_ne_zero {frames : List (Frame T N)} (linked : grammar.Linked frames)
    {frame : Frame T N} (member : frame ∈ frames) : frame.state ≠ 0 := by
  induction frames with
  | nil => cases member
  | cons head below inductionHypothesis =>
      rcases List.mem_cons.mp member with rfl | lower
      · intro start
        have edge := linked.1
        rw [start] at edge
        exact goto?_ne_zero edge
      · exact inductionHypothesis linked.2 lower

private theorem Linked.isChain {frames : List (Frame T N)} (linked : grammar.Linked frames) :
    (frames.map (fun frame => (frame.state, some frame.tree)) ++
        [((0 : Nat), (none : Option (Tree T N)))]).IsChain
      fun upper lower => ∃ tree, upper.2 = some tree ∧
        grammar.automaton.goto? lower.1 tree.symbol = some upper.1 := by
  induction frames with
  | nil => exact .singleton _
  | cons frame below inductionHypothesis =>
      have lowerChain := inductionHypothesis linked.2
      cases below with
      | nil => exact .cons_cons ⟨frame.tree, rfl, linked.1⟩ lowerChain
      | cons next others => exact .cons_cons ⟨frame.tree, rfl, linked.1⟩ lowerChain

theorem Linked.intact (linked : grammar.Linked configuration.frames) :
    grammar.Intact ((grammar.driver method).entries configuration) where
  bottom := List.getLast?_concat
  above := by
    intro entry member
    rw [Parser.entries, List.dropLast_concat] at member
    obtain ⟨frame, isFrame, rfl⟩ := List.mem_map.mp member
    exact ⟨linked.state_ne_zero isFrame, rfl⟩
  linked := linked.isChain

/-- A run stops with a tree and no error, or without a tree by rejecting a token. -/
theorem errors_of_stops
    (listed : ∀ token ∈ tokens, grammar.vocabulary.terminals.Lists token.terminal)
    {outcome : Outcome T N} (stops : (grammar.driver method).Stops tokens outcome) :
    ((∃ tree, outcome.tree = some tree) ∧ outcome.errors = []) ∨
      outcome.tree = none ∧
        ∃ state token expected, outcome.errors = [.unexpectedToken state token expected] := by
  obtain ⟨steps, stopped⟩ := stops
  obtain ⟨_, last, _, _, takes⟩ := sound_start.exists_last listed stopped
  cases takes with
  | accept => exact .inl ⟨⟨_, rfl⟩, rfl⟩
  | reject => exact .inr ⟨rfl, _, _, _, rfl⟩

/-- A parser that can be had keeps its stack intact on listed tokens, whatever conflicts its table
has been built from. So it never pops more than is there and never misses a goto, and without a tree
it ends with an unexpected token as its only error. -/
theorem intact_of_usable {parser : Parser T N} (usable : grammar.study.parser method = .ok parser)
    (listed : ∀ token ∈ tokens, token.terminal ∈ grammar.vocabulary.terminals.all) :
    (∀ steps configuration, parser.run steps (parser.start tokens) = .running configuration →
      grammar.Intact (parser.entries configuration)) ∧
    ∀ outcome, parser.Stops tokens outcome →
      (∀ state rule, .stackUnderflow state rule ∉ outcome.errors) ∧
      (∀ state nonterminal, .missingGoto state nonterminal ∉ outcome.errors) ∧
      (outcome.tree = none →
        ∃ state token expected, outcome.errors = [.unexpectedToken state token expected]) := by
  obtain ⟨_, rfl⟩ := parser_eq_ok_iff.mp usable
  have listedTokens : ∀ token ∈ tokens, grammar.vocabulary.terminals.Lists token.terminal :=
    fun token member => grammar.terminals_listed _ (listed token member)
  constructor
  · intro steps configuration reaches
    exact (sound_start.of_run listedTokens reaches).linked.intact
  · intro outcome stops
    rcases errors_of_stops listedTokens stops with ⟨⟨tree, accepted⟩, noErrors⟩ |
      ⟨noTree, state, token, expected, single⟩
    · simp [noErrors, accepted]
    · simp [single]

/-- After `a` only `c` may follow `A`; before anything has been read it is `e`. The rules are
`Z -> S`, `S -> x d`, `S -> a A c`, `S -> A e`, `A -> x` and `A -> ε`. -/
def forked : Grammar Nat Nat := Outline.grammar
  { vocabulary :=
      { terminals := Numbering.alphabet { names := #["a", "x", "c", "d", "e", "end"], listed := 6 }
        nonterminals := Numbering.alphabet { names := #["Z", "S", "A"], listed := 3 }
        endMarker := 5 }
    start := 0
    rules := #[⟨0, [.nonterminal 1]⟩, ⟨1, [.terminal 1, .terminal 3]⟩,
      ⟨1, [.terminal 0, .nonterminal 2, .terminal 2]⟩, ⟨1, [.nonterminal 2, .terminal 4]⟩,
      ⟨2, [.terminal 1]⟩, ⟨2, []⟩]
    accepting := 0
    defined := [0, 1, 2] }

/-- The tokens `a x e`, of which the last one is in no sentence behind the others. -/
def forkedTokens : List (Token Nat) :=
  [{ terminal := 0, lexeme := "a" }, { terminal := 1, lexeme := "x" },
    { terminal := 4, lexeme := "e" }]

theorem parser_forked (method : Method) :
    forked.study.parser method = .ok (forked.driver method) := by
  apply IsUsable.parser_eq
  cases method with
  | slr => decide +kernel
  | lalr => decide +kernel

/-- By FOLLOW, `x` is reduced to `A` before the `e` is rejected. -/
theorem intact_forked :
    ∃ configuration outcome,
      (forked.driver .slr).run 3 ((forked.driver .slr).start forkedTokens) =
          .running configuration ∧
        configuration.stats.reductions = 1 ∧
        forked.Intact ((forked.driver .slr).entries configuration) ∧
        (forked.driver .slr).Stops forkedTokens outcome ∧
        ∃ state token expected, outcome.errors = [.unexpectedToken state token expected] := by
  have keeps := @intact_of_usable Nat Nat _ _ forked .slr forkedTokens _ (parser_forked .slr)
    (by decide)
  have reduces : (match (forked.driver .slr).run 3 ((forked.driver .slr).start forkedTokens) with
      | .running configuration => configuration.stats.reductions == 1
      | .stopped _ => false) = true := by
    decide +kernel
  have rejects : (forked.driver .slr).stopsWith 4 forkedTokens (fun outcome => outcome.tree.isNone)
      = true := by
    decide +kernel
  obtain ⟨outcome, stops, noTree⟩ := Parser.exists_of_stopsWith rejects
  split at reduces
  · next configuration reaches =>
      exact ⟨configuration, outcome, reaches, by simpa using reduces,
        keeps.1 3 configuration reaches, stops,
        (keeps.2 outcome stops).2.2 (Option.isNone_iff_eq_none.mp noTree)⟩
  · cases reduces

end Grammar

end ShiftReduce
