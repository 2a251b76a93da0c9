import ShiftReduce.Ascending
import ShiftReduce.Exploration
import ShiftReduce.Clause
import ShiftReduce.Alphabet.Basic
import ShiftReduce.Alphabet.Numbered
import ShiftReduce.Symbol
import ShiftReduce.Location
import ShiftReduce.Token
import ShiftReduce.Grammar.Basic
import ShiftReduce.Grammar.Outline
import ShiftReduce.Grammar.Error
import ShiftReduce.Grammar.Draft
import ShiftReduce.Grammar.Text
import ShiftReduce.FirstFollow.Basic
import ShiftReduce.FirstFollow.Text
import ShiftReduce.Item
import ShiftReduce.Automaton.Basic
import ShiftReduce.Automaton.Text
import ShiftReduce.Lookahead.Closure
import ShiftReduce.Lookahead.Propagation
import ShiftReduce.Table.Method
import ShiftReduce.Table.Basic
import ShiftReduce.Table.Text
import ShiftReduce.Table.Conflict
import ShiftReduce.Tree.Basic
import ShiftReduce.Tree.Search
import ShiftReduce.Tree.Text
import ShiftReduce.Journal
import ShiftReduce.Table.Compiled
import ShiftReduce.Parser.Error
import ShiftReduce.Parser.Basic
import ShiftReduce.Parser.Commentary
import ShiftReduce.Study
import ShiftReduce.Session
import ShiftReduce.Grammar.Derivation
import ShiftReduce.Tree.Derivation
import ShiftReduce.Automaton.Walk
import ShiftReduce.Parser.Run
import ShiftReduce.Proofs.Derivation
import ShiftReduce.Proofs.Vanishing
import ShiftReduce.Proofs.Intake
import ShiftReduce.Proofs.Exploration
import ShiftReduce.Proofs.Traversal
import ShiftReduce.Proofs.FirstFollow.Nullable
import ShiftReduce.Proofs.FirstFollow.First
import ShiftReduce.Proofs.FirstFollow.Follow
import ShiftReduce.Proofs.FirstFollow.Rounds
import ShiftReduce.Proofs.FirstFollow.Neighbours
import ShiftReduce.Proofs.FirstFollow.FollowRounds
import ShiftReduce.Proofs.Automaton.Closure
import ShiftReduce.Proofs.Automaton.States
import ShiftReduce.Proofs.Automaton.Items
import ShiftReduce.Proofs.Automaton.Forms
import ShiftReduce.Proofs.Automaton.Chains
import ShiftReduce.Proofs.Automaton.Numbering
import ShiftReduce.Proofs.Lookahead.Knowledge
import ShiftReduce.Proofs.Lookahead.Spread
import ShiftReduce.Proofs.Lookahead.Flows
import ShiftReduce.Proofs.Lookahead.MayFollow
import ShiftReduce.Proofs.Lookahead.Continuations
import ShiftReduce.Proofs.Lookahead.Merged
import ShiftReduce.Proofs.Lookahead.Entries
import ShiftReduce.Proofs.Lookahead.Agenda
import ShiftReduce.Proofs.Lookahead.Superposition
import ShiftReduce.Proofs.Table.Cells
import ShiftReduce.Proofs.Table.Clashes
import ShiftReduce.Proofs.Table.Conflicts
import ShiftReduce.Proofs.Table.Report
import ShiftReduce.Proofs.Table.Filling
import ShiftReduce.Proofs.Table.Sharpening
import ShiftReduce.Proofs.Tree.Leaves
import ShiftReduce.Proofs.Tree.Flattening
import ShiftReduce.Proofs.Tree.Places
import ShiftReduce.Proofs.Tree.Equality
import ShiftReduce.Proofs.Tree.Outermost
import ShiftReduce.Proofs.Tree.Searching
import ShiftReduce.Proofs.Parser.Stack
import ShiftReduce.Proofs.Parser.Soundness
import ShiftReduce.Proofs.Parser.Integrity
import ShiftReduce.Proofs.Parser.Agreement
import ShiftReduce.Proofs.Parser.Driving
import ShiftReduce.Proofs.Parser.Completeness
import ShiftReduce.Proofs.Parser.Foresight
import ShiftReduce.Proofs.Parser.FirstError
import ShiftReduce.Proofs.Parser.Guidance
import ShiftReduce.Proofs.Parser.Falling
import ShiftReduce.Proofs.Parser.Recurrence
import ShiftReduce.Proofs.Parser.Termination
import ShiftReduce.Proofs.Parser.Progress
import ShiftReduce.Proofs.Parser.Stranding
import ShiftReduce.Proofs.Parser.Conservation
import ShiftReduce.Proofs.Parser.Reading
import ShiftReduce.Proofs.Reordering.Basic
import ShiftReduce.Proofs.Reordering.States
import ShiftReduce.Proofs.Reordering.Lookaheads
import ShiftReduce.Proofs.Reordering.Reports
import ShiftReduce.Proofs.Draft
import ShiftReduce.Proofs.Draft.Entries
import ShiftReduce.Proofs.Draft.WellFormed
import ShiftReduce.Proofs.Draft.Building
import ShiftReduce.Proofs.Ranges.Sets
import ShiftReduce.Proofs.Ranges.Artifacts
