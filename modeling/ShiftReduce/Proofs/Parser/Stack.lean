import ShiftReduce.Proofs.Table.Cells
import ShiftReduce.Proofs.Tree.Leaves

/-!
Contract: what one step of a driven parser does to its stack.

Owns: `Linked`, by which each frame is entered from the one below by the symbol of its tree; the fact
that a completed item finds its right side on top of such a stack; and `Takes`, the four kinds of
steps with everything that is known of each. A linked stack never underflows, and a goto is never
missing.
-/

namespace ShiftReduce

namespace Grammar

variable {T N : Type}

/-- The state on top of a stack. -/
def top : List (Frame T N) → Nat
  | [] => 0
  | frame :: _ => frame.state

/-- The symbols on a stack, from the bottom. -/
def symbols (frames : List (Frame T N)) : List (Symbol T N) :=
  (frames.map fun frame => frame.tree.symbol).reverse

@[simp]
theorem symbols_nil : symbols ([] : List (Frame T N)) = [] := rfl

@[simp]
theorem symbols_cons (frame : Frame T N) (below : List (Frame T N)) :
    symbols (frame :: below) = symbols below ++ [frame.tree.symbol] := by
  simp [symbols]

@[simp]
theorem symbols_append (upper lower : List (Frame T N)) :
    symbols (upper ++ lower) = symbols lower ++ symbols upper := by
  simp [symbols]

/-- The trees of some frames, from the bottom, have the symbols of the frames. -/
theorem map_symbol_trees (frames : List (Frame T N)) :
    (frames.map Frame.tree).reverse.map Tree.symbol = symbols frames := by
  rw [symbols, List.map_reverse, List.map_map]
  rfl

@[simp]
theorem length_symbols (frames : List (Frame T N)) : (symbols frames).length = frames.length := by
  simp [symbols]

variable [DecidableEq T] [DecidableEq N]

/-- Each frame is entered from the state below it by the symbol of its tree. -/
def Linked (grammar : Grammar T N) : List (Frame T N) → Prop
  | [] => True
  | frame :: below =>
      grammar.automaton.goto? (top below) frame.tree.symbol = some frame.state ∧
        Linked grammar below

variable {grammar : Grammar T N} {method : Method}

theorem Linked.of_append {upper lower : List (Frame T N)}
    (linked : grammar.Linked (upper ++ lower)) : grammar.Linked lower := by
  induction upper with
  | nil => exact linked
  | cons frame rest inductionHypothesis => exact inductionHypothesis linked.2

/-- The symbols of the upper frames lead from the state below them to the top. -/
theorem Linked.walk_append {upper lower : List (Frame T N)}
    (linked : grammar.Linked (upper ++ lower)) :
    grammar.automaton.walk (top lower) (symbols upper) = some (top (upper ++ lower)) := by
  induction upper with
  | nil => rfl
  | cons frame rest inductionHypothesis =>
      rw [symbols_cons, Automaton.walk_append, inductionHypothesis linked.2]
      simp only [Option.bind_some, Automaton.walk, Option.bind_fun_some]
      exact linked.1

theorem Linked.walk {frames : List (Frame T N)} (linked : grammar.Linked frames) :
    grammar.automaton.walk 0 (symbols frames) = some (top frames) := by
  have whole : grammar.Linked (frames ++ []) := by rwa [List.append_nil]
  have walked := whole.walk_append
  rwa [List.append_nil] at walked

/-- Only the empty stack has the start state on top. -/
theorem Linked.eq_nil_of_top_eq_zero {frames : List (Frame T N)} (linked : grammar.Linked frames)
    (start : top frames = 0) : frames = [] := by
  cases frames with
  | nil => rfl
  | cons frame below =>
      have edge := linked.1
      rw [show frame.state = 0 from start] at edge
      exact absurd edge goto?_ne_zero

/-- What an item has read lies on top of the stack, and below it the item is still unread. -/
theorem Linked.exists_popped {frames : List (Frame T N)} (linked : grammar.Linked frames)
    {id : RuleId} {marker : Nat} (member : ⟨id, marker⟩ ∈ grammar.automaton.items (top frames)) :
    ∃ popped below, frames = popped ++ below ∧ popped.length = marker ∧
      symbols popped = (grammar.rule id).rhs.take marker ∧
      ⟨id, 0⟩ ∈ grammar.automaton.items (top below) := by
  induction marker generalizing frames with
  | zero => exact ⟨[], frames, rfl, rfl, by simp, member⟩
  | succ marker inductionHypothesis =>
      cases frames with
      | nil => exact absurd (marker_eq_zero_of_mem_items_zero member) (Nat.succ_ne_zero marker)
      | cons frame rest =>
          obtain ⟨⟨sourceId, sourceMarker⟩, source, expects, advanced⟩ :=
            exists_of_marker_pos linked.1 member (Nat.succ_pos marker)
          obtain ⟨rfl, rfl⟩ : sourceId = id ∧ sourceMarker = marker := by
            simpa [Item.advance] using advanced
          obtain ⟨popped, below, stacked, length, read, unread⟩ :=
            inductionHypothesis linked.2 source
          refine ⟨frame :: popped, below, by rw [stacked]; rfl, by rw [List.length_cons, length],
            ?_, unread⟩
          have next : (grammar.rule sourceId).rhs[sourceMarker]? = some frame.tree.symbol := expects
          rw [symbols_cons, read, List.take_add_one, next]
          rfl

/-- A completed item has read its whole right side. -/
theorem marker_eq_of_mem_completed {state : Nat} {item : Item}
    (completed : item ∈ grammar.automaton.completed grammar state) :
    item.rule < grammar.rules.size ∧ item.marker = (grammar.rule item.rule).rhs.length := by
  obtain ⟨member, complete⟩ := mem_completed_iff.mp completed
  obtain ⟨bound, within⟩ := mem_allItems.mp (items_subset_allItems member)
  exact ⟨bound, Nat.le_antisymm within (of_decide_eq_true complete)⟩

theorem Linked.exists_popped_of_completed {frames : List (Frame T N)}
    (linked : grammar.Linked frames) {item : Item}
    (completed : item ∈ grammar.automaton.completed grammar (top frames)) :
    ∃ popped below, frames = popped ++ below ∧
      symbols popped = (grammar.rule item.rule).rhs ∧
      ⟨item.rule, 0⟩ ∈ grammar.automaton.items (top below) := by
  obtain ⟨_, whole⟩ := marker_eq_of_mem_completed completed
  obtain ⟨popped, below, stacked, _, read, unread⟩ :=
    linked.exists_popped (mem_completed_iff.mp completed).1
  rw [whole, List.take_length] at read
  exact ⟨popped, below, stacked, read, unread⟩

/-- Below what a rule other than the accepting one has read, its left side is expected. -/
theorem exists_goto?_of_initial {state : Nat} {id : RuleId}
    (member : ⟨id, 0⟩ ∈ grammar.automaton.items state) (ordinary : id ≠ grammar.accepting) :
    ∃ target, grammar.automaton.goto? state (.nonterminal (grammar.rule id).lhs) = some target := by
  rcases exists_of_marker_zero member rfl with ⟨_, isStart⟩ | ⟨source, sourceMember, implied⟩
  · exact absurd (congrArg Item.rule isStart) ordinary
  · obtain ⟨nonterminal, expects, initial⟩ := mem_implied.mp implied
    rw [(mem_initialItems.mp initial).2.2]
    exact exists_goto? sourceMember expects

/-- Where the accepting rule has been read, nothing else is on the stack. -/
theorem Linked.symbols_eq_of_accepting {frames : List (Frame T N)} (linked : grammar.Linked frames)
    {item : Item} (completed : item ∈ grammar.automaton.completed grammar (top frames))
    (accepting : item.isAccepting grammar = true) :
    symbols frames = grammar.acceptingRule.rhs := by
  obtain ⟨popped, below, stacked, read, unread⟩ := linked.exists_popped_of_completed completed
  have isAccepting : item.rule = grammar.accepting := of_decide_eq_true accepting
  have atStart : top below = 0 := by
    rcases exists_of_marker_zero unread rfl with ⟨start, _⟩ | ⟨source, _, implied⟩
    · exact start
    · have differs := rule_ne_accepting_of_implied implied
      exact absurd isAccepting differs
  have nothing : below = [] := (stacked ▸ linked).of_append.eq_nil_of_top_eq_zero atStart
  rw [stacked, nothing, List.append_nil, read, isAccepting]
  rfl

end Grammar

/-! ## Steps -/

namespace Configuration

variable {T N : Type}

/-- The configuration in which a node stands above the lower frames. -/
def enter (configuration : Configuration T N) (target : Nat) (node : Tree T N)
    (below : List (Frame T N)) : Configuration T N :=
  { configuration with
    frames := ⟨target, node⟩ :: below
    stats := { configuration.stats with reductions := configuration.stats.reductions + 1 } }

theorem frames_readToken (configuration : Configuration T N) (vocabulary : Vocabulary T N) :
    (configuration.readToken vocabulary).frames = configuration.frames := by
  unfold readToken
  split
  · rfl
  · rfl

end Configuration

namespace Grammar

variable {T N : Type} [DecidableEq T] [DecidableEq N] {grammar : Grammar T N} {method : Method}
  {configuration : Configuration T N}

variable (method) in
theorem topState_driver (frames : List (Frame T N)) :
    (grammar.driver method).topState frames = top frames := by
  cases frames <;> rfl

variable (method) in
theorem action?_eq_of_top (configuration : Configuration T N) :
    (grammar.driver method).action? configuration =
      (grammar.driver method).table.action? (top configuration.frames)
        configuration.lookahead.terminal := by
  rw [Parser.action?, topState_driver]

variable (method) in
/-- A reduction with the right side on top of the stack. -/
theorem reduce_driver {id : RuleId} {popped below : List (Frame T N)} {target : Nat}
    (bound : id < grammar.rules.size) (stacked : configuration.frames = popped ++ below)
    (length : popped.length = (grammar.rule id).rhs.length)
    (edge : grammar.automaton.goto? (top below) (.nonterminal (grammar.rule id).lhs) =
      some target) :
    (grammar.driver method).reduce configuration id =
      .running (configuration.enter target
        (.node (grammar.rule id).lhs (popped.map Frame.tree).reverse) below) := by
  have listed := grammar.lhs_listed _ (rule_mem bound)
  have taken : configuration.frames.take (grammar.rule id).rhs.length = popped := by
    rw [stacked, ← length, List.take_left]
  have dropped : configuration.frames.drop (grammar.rule id).rhs.length = below := by
    rw [stacked, ← length, List.drop_left]
  have cell := goto?_driver method (top below) listed
  rw [edge] at cell
  have sameRule : (grammar.driver method).grammar.rule id = grammar.rule id := rfl
  simp only [Parser.reduce, sameRule, taken, dropped, length, Nat.lt_irrefl, if_false,
    topState_driver, cell]
  rfl

/-- The steps that a driven parser takes from a linked stack. -/
inductive Takes (grammar : Grammar T N) (method : Method) (configuration : Configuration T N) :
    Progress T N → Prop where
  | shift {target : Nat}
      (edge : grammar.automaton.goto? (top configuration.frames)
        (.terminal configuration.lookahead.terminal) = some target) :
      Takes grammar method configuration
        (.running ((grammar.driver method).shift configuration target))
  | reduce {item : Item} {popped below : List (Frame T N)} {target : Nat}
      (completed : item ∈ grammar.automaton.completed grammar (top configuration.frames))
      (ordinary : item.isAccepting grammar = false)
      (lookahead : configuration.lookahead.terminal ∈
        grammar.study.reductionLookaheads method (top configuration.frames) item)
      (stacked : configuration.frames = popped ++ below)
      (read : symbols popped = (grammar.rule item.rule).rhs)
      (edge : grammar.automaton.goto? (top below) (.nonterminal (grammar.rule item.rule).lhs) =
        some target) :
      Takes grammar method configuration (.running (configuration.enter target
        (.node (grammar.rule item.rule).lhs (popped.map Frame.tree).reverse) below))
  | accept (ends : configuration.lookahead.terminal = grammar.vocabulary.endMarker)
      (read : symbols configuration.frames = grammar.acceptingRule.rhs) :
      Takes grammar method configuration
        (.stopped ((grammar.driver method).accept configuration))
  | reject
      (refused : (grammar.driver method).table.action? (top configuration.frames)
        configuration.lookahead.terminal = none) :
      Takes grammar method configuration
        (.stopped ((grammar.driver method).reject configuration))

theorem takes_step (linked : grammar.Linked configuration.frames)
    (listed : grammar.vocabulary.terminals.Lists configuration.lookahead.terminal) :
    grammar.Takes method configuration ((grammar.driver method).step configuration) := by
  have cell := @action?_eq_of_top T N _ _ grammar method configuration
  cases action : (grammar.driver method).table.action? (top configuration.frames)
      configuration.lookahead.terminal with
  | none =>
      rw [Parser.step, cell, action]
      exact .reject action
  | some act =>
      cases act with
      | shift target =>
          rw [Parser.step, cell, action]
          exact .shift ((action?_eq_shift_iff listed).mp action)
      | reduce id =>
          obtain ⟨item, completed, rfl, ordinary, lookahead⟩ :=
            exists_of_action?_eq_reduce listed action
          obtain ⟨popped, below, stacked, read, unread⟩ :=
            linked.exists_popped_of_completed completed
          obtain ⟨target, edge⟩ := exists_goto?_of_initial unread (of_decide_eq_false ordinary)
          have reduces := reduce_driver method
            (marker_eq_of_mem_completed completed).1 stacked
            (by rw [← length_symbols, read]) edge
          rw [Parser.step, cell, action]
          simp only [reduces]
          exact .reduce completed ordinary lookahead stacked read edge
      | accept =>
          obtain ⟨ends, item, completed, accepting⟩ := (action?_eq_accept_iff listed).mp action
          rw [Parser.step, cell, action]
          exact .accept ends (linked.symbols_eq_of_accepting completed accepting)

end Grammar

end ShiftReduce
