import ShiftReduce.Proofs.Parser.Guidance

/-!
Contract: reductions either conclude or get below the top of the stack.

Owns: `Falls`, by which frames from the top of a stack give way to one node; the way from a node that
stands for the empty string, up to where the rule of an item that expects it has been read; and the
theorem that from any linked stack a parser with propagated lookaheads concludes or falls.

A lookahead of a completed item need not be a lookahead of it after the string on the stack. But it
is one after some string that leads to the same state, and nothing below that state matters until the
parser falls.
-/

namespace ShiftReduce

namespace Grammar

variable {T N : Type} [DecidableEq T] [DecidableEq N] {grammar : Grammar T N} {method : Method}
  {frames middle base : List (Frame T N)} {tokens : List (Token T)}

/-- At least one step replaces frames on top of the base by a node, and the right side of the node's
rule derives their symbols. -/
inductive Falls (grammar : Grammar T N) (method : Method) (frames : List (Frame T N))
    (tokens : List (Token T)) (base : List (Frame T N)) : Prop where
  | intro {rule : Rule T N} {children : List (Tree T N)} {popped below : List (Frame T N)}
      {target steps : Nat} (isRule : rule ∈ grammar.rules) (stacked : base = popped ++ below)
      (nonempty : popped ≠ [])
      (edge : grammar.automaton.goto? (top below) (.nonterminal rule.lhs) = some target)
      (positive : 0 < steps)
      (drives : grammar.DrivesIn method steps frames tokens
        (⟨target, .node rule.lhs children⟩ :: below) tokens)
      (derives : grammar.Derives rule.rhs (symbols popped))

theorem Falls.of_drives (drives : grammar.Drives method frames tokens middle tokens)
    (falls : grammar.Falls method middle tokens base) : grammar.Falls method frames tokens base := by
  rcases drives with ⟨steps, drivesIn⟩
  cases falls with
  | intro isRule stacked nonempty edge positive further derives =>
      exact .intro isRule stacked nonempty edge (by omega) (drivesIn.trans further) derives

theorem halts_of_accept
    (accepts : (grammar.driver method).table.action? (top frames) (grammar.ahead tokens) =
      some .accept) : grammar.Halts method frames tokens := by
  intro stats
  refine ⟨1, (grammar.driver method).accept (.facing grammar.vocabulary frames tokens stats), ?_⟩
  rw [Parser.run, step_of_accept stats accepts]

theorem halts_of_reject
    (rejects : (grammar.driver method).table.action? (top frames) (grammar.ahead tokens) = none) :
    grammar.Halts method frames tokens := by
  intro stats
  refine ⟨1, (grammar.driver method).reject (.facing grammar.vocabulary frames tokens stats), ?_⟩
  rw [Parser.run, Parser.step, action?_facing, rejects]

/-- Once the symbol that an item expects has been pushed and the rest of the item vanishes, the
item's rule is reduced. What it had read before is popped from the stack as it was. -/
theorem concludes_or_completes (usable : grammar.IsUsable method) {access : List (Symbol T N)}
    {item : Item} (follows : grammar.MayFollow access item (grammar.ahead tokens))
    (linked : grammar.Linked frames)
    (walked : grammar.automaton.walk 0 access = some (top frames)) {tree : Tree T N} {target : Nat}
    (expects : item.next? grammar = some tree.symbol)
    (edge : grammar.automaton.goto? (top frames) tree.symbol = some target)
    (vanishes : grammar.Derives (item.suffix grammar) []) :
    grammar.Concludes method (⟨target, tree⟩ :: frames) tokens ∨
      ∃ popped below children next steps, frames = popped ++ below ∧
        popped.length = item.marker ∧
        symbols popped = (grammar.rule item.rule).rhs.take item.marker ∧
        grammar.automaton.goto? (top below) (.nonterminal (grammar.rule item.rule).lhs) =
          some next ∧
        0 < steps ∧ grammar.DrivesIn method steps (⟨target, tree⟩ :: frames) tokens
          (⟨next, .node (grammar.rule item.rule).lhs children⟩ :: below) tokens := by
  have linkedAfter : grammar.Linked (⟨target, tree⟩ :: frames) := ⟨edge, linked⟩
  have walkedAfter : grammar.automaton.walk 0 (access ++ [tree.symbol]) =
      some (top (⟨target, tree⟩ :: frames)) :=
    walk_concat_of_goto? walked edge
  have advanced := follows.advance expects
  have spelled : (grammar.rule item.advance.rule).rhs.drop item.advance.marker =
      item.suffix grammar ++ [] := by
    rw [List.append_nil]
    rfl
  rcases concludes_or_vanishes usable (vanishes_iff.mpr vanishes) linkedAfter walkedAfter
    advanced.valid spelled (.inr ⟨.refl [], advanced⟩) with
    concludes | ⟨upper, upperLinked, drives, read⟩
  · exact .inl concludes
  have walkedUpper : grammar.automaton.walk 0
      (access ++ [tree.symbol] ++ item.suffix grammar) =
        some (top (upper ++ ⟨target, tree⟩ :: frames)) := by
    rw [Automaton.walk_append, walkedAfter, ← read]
    exact upperLinked.walk_append
  have moved : item.advance.marker = item.marker + 1 := rfl
  have whole : (grammar.rule item.rule).rhs.length =
      item.advance.marker + (item.suffix grammar).length := by
    have inside := (List.getElem?_eq_some_iff.mp expects).1
    rw [Item.suffix, List.length_drop, moved]
    omega
  have completed := advanced.advance_along spelled
  rw [← whole] at completed
  by_cases accepting : item.rule = grammar.accepting
  · rw [show item.advance.rule = grammar.accepting from accepting, accepting] at completed
    have halts := halts_of_accept (completed.action?_eq_accept method walkedUpper)
    exact .inl ((Concludes.halts halts).of_drives drives)
  have member := (valid_iff_of_walk walked).mp follows.valid
  obtain ⟨popped, below, stacked, length, readBefore, unread⟩ := linked.exists_popped member
  obtain ⟨next, nextEdge⟩ := exists_goto?_of_initial unread accepting
  have restacked : upper ++ ⟨target, tree⟩ :: frames =
      (upper ++ ⟨target, tree⟩ :: popped) ++ below := by
    rw [stacked, List.append_assoc]
    rfl
  have poppedLength : (upper ++ ⟨target, tree⟩ :: popped).length =
      (grammar.rule item.rule).rhs.length := by
    have upperLength : upper.length = (item.suffix grammar).length := by
      rw [← length_symbols, read]
    rw [whole, List.length_append, List.length_cons, upperLength, length, moved]
    omega
  rw [restacked] at upperLinked walkedUpper drives
  rcases concludes_or_reduces usable upperLinked walkedUpper completed accepting poppedLength
    nextEdge with concludes | reduces
  · exact .inl (concludes.of_drives drives)
  · rcases drives with ⟨steps, drivesIn⟩
    exact .inr ⟨popped, below, _, next, steps + 1, stacked, length, readBefore, nextEdge,
      Nat.succ_pos steps, drivesIn.trans reduces⟩

/-- A node that stands for the empty string, with a lookahead that may follow its rule, is the
beginning of a rule that vanishes too, or the next symbol of one that has read something before. The
first kind of rule is reduced to such a node again; the second falls.

The induction is on how the lookahead comes to follow the rule. -/
theorem concludes_or_falls_of_mayFollow (usable : grammar.IsUsable method)
    {access : List (Symbol T N)} {new : Item}
    (follows : grammar.MayFollow access new (grammar.ahead tokens)) (unread : new.marker = 0)
    (linked : grammar.Linked frames)
    (walked : grammar.automaton.walk 0 access = some (top frames))
    (vanishes : grammar.Derives (grammar.rule new.rule).rhs []) {target : Nat}
    {children : List (Tree T N)}
    (edge : grammar.automaton.goto? (top frames) (.nonterminal (grammar.rule new.rule).lhs) =
      some target) :
    grammar.Concludes method
        (⟨target, .node (grammar.rule new.rule).lhs children⟩ :: frames) tokens ∨
      grammar.Falls method
        (⟨target, .node (grammar.rule new.rule).lhs children⟩ :: frames) tokens frames := by
  generalize front : grammar.ahead tokens = terminal at follows
  induction follows generalizing target children with
  | start =>
      obtain ⟨item, _, expects⟩ := (goto?_eq_some_iff.mp edge).1
      rw [show (grammar.rule grammar.startItem.rule).lhs = grammar.start from
        grammar.acceptingRule_lhs] at expects
      exact absurd expects next?_ne_start
  | @opens access item new terminal valid implied begins =>
      obtain ⟨nonterminal, expects, initial⟩ := mem_implied.mp implied
      obtain ⟨_, bound, rfl⟩ := mem_initialItems.mp initial
      have member := items_of_advance edge ((valid_iff_of_walk walked).mp valid) expects
      have linkedAfter : grammar.Linked
          (⟨target, .node (grammar.rule new.rule).lhs children⟩ :: frames) := ⟨edge, linked⟩
      rw [← front] at begins
      exact .inl (concludes_of_begins usable begins.begins linkedAfter member rfl)
  | @inherits access item new terminal follows implied suffixVanishes inductionHypothesis =>
      obtain ⟨nonterminal, expects, initial⟩ := mem_implied.mp implied
      obtain ⟨_, bound, rfl⟩ := mem_initialItems.mp initial
      rw [← front] at follows
      rcases @concludes_or_completes T N _ _ grammar method frames tokens usable access item follows
        linked walked (.node (grammar.rule new.rule).lhs children) target expects edge
        suffixVanishes with
        concludes | ⟨popped, below, others, next, steps, stacked, length, read, nextEdge, positive,
          drives⟩
      · exact .inl concludes
      have isRule := rule_lt_of_next? expects
      have derives : grammar.Derives (grammar.rule item.rule).rhs (symbols popped) := by
        have emptied := (derives_rhs (rule_mem bound)).trans vanishes
        have behind := derives_cons_nil_iff.mpr ⟨emptied, suffixVanishes⟩
        have whole := (Derives.refl ((grammar.rule item.rule).rhs.take item.marker)).append behind
        rw [← rhs_of_next? expects, List.append_nil] at whole
        rwa [read]
      by_cases begun : popped = []
      · -- The item had read nothing, so its node stands on the same stack.
        rw [begun, List.nil_append] at stacked
        rw [begun] at length derives
        rw [← stacked] at drives nextEdge
        rcases @inductionHypothesis length.symm walked derives next others nextEdge front with
          concludes | falls
        · exact .inl (concludes.of_drives drives.drives)
        · exact .inr (falls.of_drives drives.drives)
      · exact .inr (.intro (rule_mem isRule) stacked begun nextEdge positive drives derives)
  | advance => exact absurd unread (Nat.succ_ne_zero _)

/-- From any linked stack a parser with propagated lookaheads concludes or falls. -/
theorem concludes_or_falls (usable : grammar.IsUsable .lalr) (linked : grammar.Linked frames)
    (listed : grammar.vocabulary.terminals.Lists (grammar.ahead tokens)) :
    grammar.Concludes .lalr frames tokens ∨ grammar.Falls .lalr frames tokens frames := by
  cases action : (grammar.driver .lalr).table.action? (top frames) (grammar.ahead tokens) with
  | none => exact .inl (.halts (halts_of_reject action))
  | some act =>
      cases act with
      | shift target =>
          have edge := (action?_eq_shift_iff listed).mp action
          exact .inl (concludes_of_edge linked edge)
      | accept => exact .inl (.halts (halts_of_accept action))
      | reduce id =>
          obtain ⟨item, completed, rfl, ordinary, lookahead⟩ :=
            exists_of_action?_eq_reduce listed action
          obtain ⟨bound, whole⟩ := marker_eq_of_mem_completed completed
          obtain ⟨popped, below, stacked, read, unread⟩ :=
            linked.exists_popped_of_completed completed
          obtain ⟨target, edge⟩ := exists_goto?_of_initial unread (of_decide_eq_false ordinary)
          rw [stacked] at action
          have reduces := drivesIn_reduce action bound (by rw [← length_symbols, read]) edge
          rw [← stacked] at reduces
          by_cases empty : popped = []
          · -- The node stands for the empty string; the item is one that has nothing to read.
            rw [empty, List.nil_append] at stacked
            rw [empty, symbols_nil] at read
            rw [← read, List.length_nil] at whole
            rw [← stacked] at edge reduces
            obtain ⟨access, walked, follows⟩ := exists_mayFollow_of_lookahead completed lookahead
            have vanishes : grammar.Derives (grammar.rule item.rule).rhs [] := read ▸ .refl []
            exact (concludes_or_falls_of_mayFollow usable follows whole linked walked vanishes
              edge).imp (Concludes.of_drives reduces.drives) (Falls.of_drives reduces.drives)
          · exact .inr (.intro (rule_mem bound) stacked empty edge Nat.one_pos reduces
              (read ▸ .refl _))

end Grammar

end ShiftReduce
