import ShiftReduce.Proofs.Parser.Driving
import ShiftReduce.Proofs.Table.Conflicts
import ShiftReduce.Proofs.Vanishing

/-!
Contract: an item guides a parser to its lookahead.

Owns: `Concludes`, by which the parser stops or reads a token; the way over symbols that vanish, which
a parser pushes as nodes without leaves unless it concludes before; and the way to a terminal that can
begin what an item still has to read, at the end of which the terminal is shifted.

A shift that takes the place of a reduction concludes too, so lost reductions do no harm here.
-/

namespace ShiftReduce

namespace Grammar

variable {T N : Type} [DecidableEq T] [DecidableEq N] {grammar : Grammar T N} {method : Method}
  {frames middle : List (Frame T N)} {tokens : List (Token T)}

/-- The parser stops. -/
def Halts (grammar : Grammar T N) (method : Method) (frames : List (Frame T N))
    (tokens : List (Token T)) : Prop :=
  ∀ stats, ∃ steps outcome,
    (grammar.driver method).run steps (.facing grammar.vocabulary frames tokens stats) =
      .stopped outcome

/-- The parser stops or reads a token. -/
inductive Concludes (grammar : Grammar T N) (method : Method) (frames : List (Frame T N)) :
    List (Token T) → Prop where
  | halts {tokens : List (Token T)} (halts : grammar.Halts method frames tokens) :
      Concludes grammar method frames tokens
  | reads {token : Token T} {rest : List (Token T)} {framesAfter : List (Frame T N)}
      (linked : grammar.Linked framesAfter)
      (drives : grammar.Drives method frames (token :: rest) framesAfter rest) :
      Concludes grammar method frames (token :: rest)

theorem Halts.of_drives {middleTokens : List (Token T)}
    (drives : grammar.Drives method frames tokens middle middleTokens)
    (halts : grammar.Halts method middle middleTokens) : grammar.Halts method frames tokens := by
  intro stats
  rcases drives with ⟨steps, drivesIn⟩
  obtain ⟨middleStats, reaches⟩ := drivesIn stats
  obtain ⟨further, outcome, stops⟩ := halts middleStats
  exact ⟨steps + further, outcome, by rw [Parser.run_add reaches, stops]⟩

theorem Concludes.of_drives (drives : grammar.Drives method frames tokens middle tokens)
    (concludes : grammar.Concludes method middle tokens) :
    grammar.Concludes method frames tokens := by
  cases concludes with
  | halts halts => exact .halts (halts.of_drives drives)
  | reads linked further => exact .reads linked (drives.trans further)

/-! ## One step -/

/-- A transition on the lookahead is taken. -/
theorem concludes_of_edge {target : Nat} (linked : grammar.Linked frames)
    (edge : grammar.automaton.goto? (top frames) (.terminal (grammar.ahead tokens)) =
      some target) : grammar.Concludes method frames tokens := by
  cases tokens with
  | nil =>
      rw [show grammar.ahead [] = grammar.vocabulary.endMarker from rfl, goto?_endMarker] at edge
      cases edge
  | cons token rest =>
      obtain ⟨item, _, expects⟩ := (goto?_eq_some_iff.mp edge).1
      have listed := (listed_of_next? expects).1
      have shifts := @drivesIn_shift T N _ _ grammar method frames rest token target listed edge
      have linkedAfter : grammar.Linked (⟨target, .leaf token⟩ :: frames) := ⟨edge, linked⟩
      exact .reads linkedAfter shifts.drives

/-- Where a rule has been read and its lookahead stands in front, the rule is reduced unless the
lookahead is shifted. -/
theorem concludes_or_reduces (usable : grammar.IsUsable method) {popped below : List (Frame T N)}
    (linked : grammar.Linked (popped ++ below)) {access : List (Symbol T N)}
    (walked : grammar.automaton.walk 0 access = some (top (popped ++ below))) {id : RuleId}
    (follows : grammar.MayFollow access ⟨id, (grammar.rule id).rhs.length⟩ (grammar.ahead tokens))
    (ordinary : id ≠ grammar.accepting) (length : popped.length = (grammar.rule id).rhs.length)
    {target : Nat} (edge : grammar.automaton.goto? (top below) (.nonterminal (grammar.rule id).lhs) =
      some target) :
    grammar.Concludes method (popped ++ below) tokens ∨
      grammar.DrivesIn method 1 (popped ++ below) tokens
        (⟨target, .node (grammar.rule id).lhs (popped.map Frame.tree).reverse⟩ :: below) tokens := by
  cases shifted : grammar.automaton.goto? (top (popped ++ below))
      (.terminal (grammar.ahead tokens)) with
  | some next => exact .inl (concludes_of_edge linked shifted)
  | none =>
      have completed := follows.valid.mem_completed walked
      have action := usable.action?_eq_reduce completed (decide_eq_false ordinary) follows.listed
        (follows.mem_reductionLookaheads method walked) shifted
      exact .inr (drivesIn_reduce action (marker_eq_of_mem_completed completed).1 length edge)

/-! ## Over what vanishes -/

/-- Symbols that vanish are pushed, if what stands behind them in the item begins with the lookahead,
or vanishes as well and the lookahead may follow the item.

The string by which the lookahead may follow need not be that of the stack; the two lead to the same
state. The induction is on how the symbols vanish: first by the rule of the first one, then by those
of the others. -/
theorem concludes_or_vanishes (usable : grammar.IsUsable method)
    {vanishing behind : List (Symbol T N)} (vanishes : grammar.Vanishes vanishing)
    {access : List (Symbol T N)} {item : Item} (linked : grammar.Linked frames)
    (walked : grammar.automaton.walk 0 access = some (top frames))
    (valid : grammar.Valid access item)
    (spelled : (grammar.rule item.rule).rhs.drop item.marker = vanishing ++ behind)
    (ends : grammar.CanBegin behind (grammar.ahead tokens) ∨
      grammar.Derives behind [] ∧ grammar.MayFollow access item (grammar.ahead tokens)) :
    grammar.Concludes method frames tokens ∨ ∃ upper, grammar.Linked (upper ++ frames) ∧
      grammar.Drives method frames tokens (upper ++ frames) tokens ∧
      symbols upper = vanishing := by
  induction vanishes generalizing frames access item behind with
  | nil => exact .inr ⟨[], linked, .refl, rfl⟩
  | @cons rule rest isRule inside restVanishes insideHypothesis restHypothesis =>
      obtain ⟨id, bound, rfl⟩ := exists_id_of_mem isRule
      obtain ⟨expects, suffix⟩ := expects_of_drop spelled
      have implied : ⟨id, 0⟩ ∈ grammar.implied item :=
        implied_of_next? bound expects
      have differs := rule_ne_accepting_of_implied implied
      obtain ⟨target, edge⟩ := exists_goto? ((valid_iff_of_walk walked).mp valid) expects
      have follows : grammar.MayFollow access ⟨id, 0⟩ (grammar.ahead tokens) := by
        rcases ends with begins | ⟨behindVanishes, itemFollows⟩
        · apply MayFollow.opens valid implied
          rw [suffix]
          exact canBegin_append_iff.mpr (.inr ⟨restVanishes.derives, begins⟩)
        · apply MayFollow.inherits itemFollows implied
          rw [suffix]
          exact derives_append_nil_iff.mpr ⟨restVanishes.derives, behindVanishes⟩
      have whole : (grammar.rule id).rhs.drop 0 = (grammar.rule id).rhs ++ [] := by simp
      rcases insideHypothesis linked walked follows.valid whole
        (.inr ⟨.refl [], follows⟩) with concludes | ⟨upper, upperLinked, drives, read⟩
      · exact .inl concludes
      have walkedUpper : grammar.automaton.walk 0 (access ++ (grammar.rule id).rhs) =
          some (top (upper ++ frames)) := by
        rw [Automaton.walk_append, walked, ← read]
        exact upperLinked.walk_append
      have completed := follows.advance_along whole
      rw [Nat.zero_add] at completed
      rcases concludes_or_reduces usable upperLinked walkedUpper completed differs
        (by rw [← length_symbols, read]) edge with concludes | reduces
      · exact .inl (concludes.of_drives drives)
      have linkedNext : grammar.Linked (⟨target, .node (grammar.rule id).lhs
          (upper.map Frame.tree).reverse⟩ :: frames) := ⟨edge, linked⟩
      have walkedNext := walk_concat_of_goto? walked edge
      rcases restHypothesis linkedNext walkedNext (valid.advance expects) suffix
        (ends.imp (fun begins => begins) fun both => ⟨both.1, both.2.advance expects⟩) with
        concludes | ⟨others, othersLinked, drivesOthers, readOthers⟩
      · exact .inl (concludes.of_drives (drives.trans reduces.drives))
      refine .inr ⟨others ++ [⟨target, .node (grammar.rule id).lhs
        (upper.map Frame.tree).reverse⟩], ?_, ?_, ?_⟩
      · rwa [List.append_assoc]
      · rw [List.append_assoc]
        exact drives.trans (reduces.drives.trans drivesOthers)
      · rw [symbols_append, readOthers]
        rfl

/-! ## To a terminal -/

/-- An item that can begin with the lookahead leads to a shift. The induction is on how the lookahead
comes to the front. -/
theorem concludes_of_begins (usable : grammar.IsUsable method) {remaining : List (Symbol T N)}
    (begins : grammar.Begins (grammar.ahead tokens) remaining) {item : Item}
    (linked : grammar.Linked frames) (member : item ∈ grammar.automaton.items (top frames))
    (spelled : (grammar.rule item.rule).rhs.drop item.marker = remaining) :
    grammar.Concludes method frames tokens := by
  generalize front : grammar.ahead tokens = terminal at begins
  induction begins generalizing frames item with
  | here rest =>
      obtain ⟨expects, _⟩ := expects_of_drop spelled
      obtain ⟨target, edge⟩ := exists_goto? member expects
      rw [← front] at edge
      exact concludes_of_edge linked edge
  | inside isRule _ rest inductionHypothesis =>
      obtain ⟨id, bound, rfl⟩ := exists_id_of_mem isRule
      obtain ⟨expects, _⟩ := expects_of_drop spelled
      have implied : ⟨id, 0⟩ ∈ grammar.implied item :=
        implied_of_next? bound expects
      have initial := items_of_implied member implied
      exact inductionHypothesis linked initial rfl
  | @behind symbol rest vanishes begins inductionHypothesis =>
      obtain ⟨expects, suffix⟩ := expects_of_drop spelled
      have canBegin : grammar.CanBegin rest (grammar.ahead tokens) := front ▸ begins.canBegin
      rcases concludes_or_vanishes usable vanishes linked linked.walk
        (valid_of_walk linked.walk member) spelled (.inl canBegin) with
        concludes | ⟨upper, upperLinked, drives, read⟩
      · exact concludes
      have walkedUpper := upperLinked.walk_append
      rw [read, Automaton.walk] at walkedUpper
      obtain ⟨target, edge, rfl⟩ : ∃ target,
          grammar.automaton.goto? (top frames) symbol = some target ∧
            target = top (upper ++ frames) := by
        obtain ⟨target, edge, same⟩ := Option.bind_eq_some_iff.mp walkedUpper
        exact ⟨target, edge, Option.some.inj same⟩
      exact (inductionHypothesis upperLinked (items_of_advance edge member expects) suffix).of_drives
        drives

end Grammar

end ShiftReduce
