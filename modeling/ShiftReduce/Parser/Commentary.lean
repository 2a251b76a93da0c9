import ShiftReduce.Journal
import ShiftReduce.Parser.Basic

/-!
Contract: what a parser notes as it goes.

Owns: the picture of a configuration, the notes of a step and `follow`, a run that takes them.
`follow_fst` says that a run ends in the same way whether or not notes are taken.
-/

namespace ShiftReduce

namespace Parser

variable {T N : Type}

/-- The states on the stack from the bottom, each with the symbol that led to it, and the
lookahead. -/
def picture (parser : Parser T N) (configuration : Configuration T N) : String :=
  let vocabulary := parser.grammar.vocabulary
  let frames := configuration.frames.reverse.map fun frame =>
    s!"<{frame.state}> {vocabulary.name frame.tree.symbol}  "
  s!"<{parser.table.startState}>  " ++ String.join frames ++
    s!"<-  {vocabulary.terminals.name configuration.lookahead.terminal}"

/-- Notes what the step from a configuration does. -/
def comment (parser : Parser T N) (configuration : Configuration T N) (journal : Journal) :
    Journal :=
  let vocabulary := parser.grammar.vocabulary
  let journal := journal.note .trace fun _ => parser.picture configuration
  match parser.action? configuration with
  | some (.shift target) => journal.note .trace fun _ => s!"Shift {target}"
  | some (.reduce id) => journal.note .trace fun _ =>
      s!"Reduce {id.text} ({(parser.grammar.rule id).text vocabulary})"
  | some .accept =>
      (journal.note .trace fun _ => "Accept").note .debug fun _ =>
        s!"parse accepted: {configuration.stats.record}"
  | none => journal.note .debug fun _ =>
      s!"parse error in state {parser.topState configuration.frames} on " ++
        configuration.lookahead.describe vocabulary

/-- `run` with notes. -/
def follow (parser : Parser T N) :
    Nat → Configuration T N → Journal → Progress T N × Journal
  | 0, configuration, journal => (.running configuration, journal)
  | steps + 1, configuration, journal =>
      let journal := parser.comment configuration journal
      match parser.step configuration with
      | .running next => parser.follow steps next journal
      | .stopped outcome => (.stopped outcome, journal)

theorem follow_fst (parser : Parser T N) (steps : Nat) (configuration : Configuration T N)
    (journal : Journal) :
    (parser.follow steps configuration journal).1 = parser.run steps configuration := by
  induction steps generalizing configuration journal with
  | zero => rfl
  | succ steps inductionHypothesis =>
      rw [follow, run]
      cases parser.step configuration with
      | running next => exact inductionHypothesis next _
      | stopped outcome => rfl

end Parser

end ShiftReduce
