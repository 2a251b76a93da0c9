import ShiftReduce.Journal
import ShiftReduce.Study

/-!
Contract: a study whose first uses are noted.

Owns: `Session`, a study with the artifacts that have been announced and a journal; and the actions
that hand out an artifact and, the first time, note its measures in the journal.

An artifact is announced once in a session, after those that it is derived from. If the journal
takes no notes at that time, its notes are never seen.
-/

namespace ShiftReduce

/-- Something derived from a grammar that is announced on its own. -/
inductive Artifact where
  | firstFollow
  | automaton
  | table (method : Method)
deriving DecidableEq, Repr

/-- A study, the artifacts announced so far, and the journal. -/
structure Session (T N : Type) where
  study : Study T N
  announced : List Artifact := []
  journal : Journal := .off

namespace Session

variable {T N : Type}

/-- Takes the notes on an artifact unless it has been announced. -/
def announce (session : Session T N) (artifact : Artifact) (notes : Journal → Journal) :
    Session T N :=
  if artifact ∈ session.announced then session
  else
    { session with
      announced := artifact :: session.announced
      journal := notes session.journal }

/-- The session of a new grammar, which is itself noted. -/
def ofGrammar [DecidableEq T] [DecidableEq N] (grammar : Grammar T N) (journal : Journal) :
    Session T N where
  study := grammar.study
  journal := journal.note .debug fun _ =>
    let accepting := grammar.acceptingRule.text grammar.vocabulary
    s!"grammar: {grammar.defined.length} productions, {grammar.rules.size} rules, " ++
      s!"accepting {accepting}"

/-! ## Announcements -/

def announceFirstFollow (session : Session T N) : Session T N :=
  session.announce .firstFollow fun journal => journal.note .debug fun _ =>
    s!"first/follow: {session.study.grammar.vocabulary.nonterminals.size} nonterminals"

def announceAutomaton (session : Session T N) : Session T N :=
  session.announce .automaton fun journal => journal.note .debug fun _ =>
    let automaton := session.study.automaton.get
    s!"lr(0): {automaton.stateCount} states, {automaton.transitionCount} transitions"

private def notePropagation (study : Study T N) (journal : Journal) : Journal :=
  journal.note .debug fun _ =>
    let propagation := study.propagation.get
    s!"lalr: {propagation.links.length} propagation links, fixed point after " ++
      s!"{propagation.rounds} rounds"

private def noteLost (study : Study T N) [DecidableEq T] [DecidableEq N] (method : Method)
    (journal : Journal) : Journal :=
  if journal.admits .trace then
    let lost := (List.range study.automaton.get.stateCount).flatMap
      (study.grammar.lostReductions study.automaton.get (study.reductionLookaheads method))
    lost.foldl (fun journal lost => journal.note .trace fun _ =>
      let terminal := study.grammar.vocabulary.terminals.name lost.terminal
      s!"state {lost.state}: shift on {terminal} over {lost.item.rule.text}") journal
  else journal

private def noteConflicts (study : Study T N) (method : Method) (journal : Journal) : Journal :=
  let compiled := study.compiled method
  let lost := compiled.conflicts.lost.length
  let clashes := compiled.conflicts.clashes.length
  let measured := journal.note .debug fun _ =>
    s!"{method.text}: {compiled.table.stateCount} states, {lost} s/r and {clashes} r/r conflicts"
  let warned := if lost = 0 then measured else measured.note .warn fun _ =>
    s!"{method.text}: {lost} shift/reduce conflict(s) resolved as shift"
  if clashes = 0 then warned else warned.note .warn fun _ =>
    s!"{method.text}: {clashes} reduce/reduce conflict(s)"

def announceTable [DecidableEq T] [DecidableEq N] (session : Session T N) (method : Method) :
    Session T N :=
  if .table method ∈ session.announced then session
  else
    session.announceFirstFollow.announceAutomaton.announce (.table method) fun journal =>
      let study := session.study
      let propagated := match method with
        | .slr => journal
        | .lalr => notePropagation study journal
      noteConflicts study method (noteLost study method propagated)

/-! ## Artifacts -/

/-- Nullability, FIRST and FOLLOW. -/
def firstFollow : StateM (Session T N) (FirstFollow T N) :=
  modifyGet fun session => (session.study.firstFollow.get, session.announceFirstFollow)

/-- The automaton. -/
def automaton : StateM (Session T N) (Automaton T N) :=
  modifyGet fun session => (session.study.automaton.get, session.announceAutomaton)

variable [DecidableEq T] [DecidableEq N]

/-- The table and its conflicts. -/
def compiled (method : Method) : StateM (Session T N) (Compiled T N) :=
  modifyGet fun session => (session.study.compiled method, session.announceTable method)

/-- The parser, unless items clash. -/
def parser (method : Method) : StateM (Session T N) (Except GeneratorError (Parser T N)) :=
  modifyGet fun session => (session.study.parser method, session.announceTable method)

end Session

end ShiftReduce
