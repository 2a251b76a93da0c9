import ShiftReduce.Parser.Basic
import ShiftReduce.Table.Compiled

/-!
Contract: everything that is derived from a grammar, worked out once and only when needed.

Owns: `Study`, which holds each derived artifact behind a thunk.
-/

namespace ShiftReduce

/-- A grammar with what is derived from it. -/
structure Study (T N : Type) where
  grammar : Grammar T N
  firstFollow : Thunk (FirstFollow T N)
  automaton : Thunk (Automaton T N)
  propagation : Thunk (Propagation T)
  slr : Thunk (Compiled T N)
  lalr : Thunk (Compiled T N)

variable {T N : Type}

/-- The study of a grammar. -/
def Grammar.study [DecidableEq T] [DecidableEq N] (grammar : Grammar T N) : Study T N :=
  let firstFollow := Thunk.mk fun _ => grammar.firstFollow
  let automaton := Thunk.mk fun _ => grammar.automaton
  let propagation := Thunk.mk fun _ => grammar.propagation firstFollow.get automaton.get
  { grammar, firstFollow, automaton, propagation
    slr := Thunk.mk fun _ =>
      grammar.compiled automaton.get .slr (firstFollow.get.reductionLookaheads grammar)
    lalr := Thunk.mk fun _ =>
      grammar.compiled automaton.get .lalr propagation.get.reductionLookaheads }

namespace Study

/-- The lookaheads of completed items under a method. -/
def reductionLookaheads (study : Study T N) : Method → ReductionLookaheads T
  | .slr => study.firstFollow.get.reductionLookaheads study.grammar
  | .lalr => study.propagation.get.reductionLookaheads

/-- The table and the conflicts under a method. -/
def compiled (study : Study T N) : Method → Compiled T N
  | .slr => study.slr.get
  | .lalr => study.lalr.get

/-- The parser under a method, unless items clash. -/
def parser (study : Study T N) (method : Method) : Except GeneratorError (Parser T N) :=
  (study.compiled method).usableTable.map fun table => { grammar := study.grammar, table }

/-! ## What a study holds -/

variable [DecidableEq T] [DecidableEq N] (grammar : Grammar T N)

theorem firstFollow_study : grammar.study.firstFollow.get = grammar.firstFollow := by
  simp only [Grammar.study, Thunk.get]

theorem propagation_study :
    grammar.study.propagation.get = grammar.propagation grammar.firstFollow grammar.automaton := by
  simp only [Grammar.study, Thunk.get]

theorem reductionLookaheads_study_slr :
    grammar.study.reductionLookaheads .slr = grammar.firstFollow.reductionLookaheads grammar := by
  simp only [Grammar.study, reductionLookaheads, Thunk.get]

theorem reductionLookaheads_study_lalr :
    grammar.study.reductionLookaheads .lalr =
      (grammar.propagation grammar.firstFollow grammar.automaton).reductionLookaheads := by
  rw [← propagation_study]
  rfl

theorem compiled_study (method : Method) :
    grammar.study.compiled method =
      grammar.compiled grammar.automaton method (grammar.study.reductionLookaheads method) := by
  cases method with
  | slr =>
      rw [reductionLookaheads_study_slr]
      simp only [Grammar.study, compiled, Thunk.get]
  | lalr =>
      rw [reductionLookaheads_study_lalr]
      simp only [Grammar.study, compiled, Thunk.get]

end Study

end ShiftReduce
