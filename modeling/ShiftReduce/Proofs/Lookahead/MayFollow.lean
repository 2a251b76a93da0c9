import ShiftReduce.Lookahead.Closure
import ShiftReduce.Proofs.Automaton.Items
import ShiftReduce.Proofs.FirstFollow.Follow

/-!
Contract: which terminals may stand behind an item once a string has been read.

Owns: `CanonicallyFollows`, by which an item passes lookaheads on only if it has one itself; and
`MayFollow`, by which a terminal that can begin the rest of a valid item may follow what the item
implies, whether or not anything may follow the item. The two agree where every nonterminal of a
right side derives a string of terminals.

What may follow an item is listed, and it follows the left side of the item's rule.
-/

namespace ShiftReduce

namespace Grammar

variable {T N : Type} [DecidableEq N]

/-- Lookaheads of items as canonical states carry them. -/
inductive CanonicallyFollows (grammar : Grammar T N) :
    List (Symbol T N) → Item → T → Prop where
  | start : CanonicallyFollows grammar [] grammar.startItem grammar.vocabulary.endMarker
  | opens {access : List (Symbol T N)} {item new : Item} {lookahead terminal : T}
      (follows : CanonicallyFollows grammar access item lookahead)
      (implied : new ∈ grammar.implied item)
      (begins : grammar.CanBegin (item.suffix grammar) terminal) :
      CanonicallyFollows grammar access new terminal
  | inherits {access : List (Symbol T N)} {item new : Item} {lookahead : T}
      (follows : CanonicallyFollows grammar access item lookahead)
      (implied : new ∈ grammar.implied item)
      (vanishes : grammar.Derives (item.suffix grammar) []) :
      CanonicallyFollows grammar access new lookahead
  | advance {access : List (Symbol T N)} {item : Item} {lookahead : T} {symbol : Symbol T N}
      (follows : CanonicallyFollows grammar access item lookahead)
      (expects : item.next? grammar = some symbol) :
      CanonicallyFollows grammar (access ++ [symbol]) item.advance lookahead

/-- Lookaheads of valid items. A terminal that can begin the rest of an item comes from the item
alone, and needs none that follows the item. -/
inductive MayFollow (grammar : Grammar T N) : List (Symbol T N) → Item → T → Prop where
  | start : MayFollow grammar [] grammar.startItem grammar.vocabulary.endMarker
  | opens {access : List (Symbol T N)} {item new : Item} {terminal : T}
      (valid : grammar.Valid access item) (implied : new ∈ grammar.implied item)
      (begins : grammar.CanBegin (item.suffix grammar) terminal) :
      MayFollow grammar access new terminal
  | inherits {access : List (Symbol T N)} {item new : Item} {lookahead : T}
      (follows : MayFollow grammar access item lookahead) (implied : new ∈ grammar.implied item)
      (vanishes : grammar.Derives (item.suffix grammar) []) :
      MayFollow grammar access new lookahead
  | advance {access : List (Symbol T N)} {item : Item} {lookahead : T} {symbol : Symbol T N}
      (follows : MayFollow grammar access item lookahead)
      (expects : item.next? grammar = some symbol) :
      MayFollow grammar (access ++ [symbol]) item.advance lookahead

variable {grammar : Grammar T N} {access : List (Symbol T N)} {item : Item} {terminal : T}

theorem MayFollow.valid (follows : grammar.MayFollow access item terminal) :
    grammar.Valid access item := by
  induction follows with
  | start => exact .start
  | opens valid implied _ => exact .implied valid implied
  | inherits _ implied _ inductionHypothesis => exact .implied inductionHypothesis implied
  | advance _ expects inductionHypothesis => exact .advance inductionHypothesis expects

theorem CanonicallyFollows.mayFollow (follows : grammar.CanonicallyFollows access item terminal) :
    grammar.MayFollow access item terminal := by
  induction follows with
  | start => exact .start
  | opens _ implied begins inductionHypothesis =>
      exact .opens inductionHypothesis.valid implied begins
  | inherits _ implied vanishes inductionHypothesis =>
      exact .inherits inductionHypothesis implied vanishes
  | advance _ expects inductionHypothesis => exact .advance inductionHypothesis expects

/-- The item moves over any part of what it still has to read. -/
theorem MayFollow.advance_along (follows : grammar.MayFollow access item terminal)
    {read rest : List (Symbol T N)}
    (spelled : (grammar.rule item.rule).rhs.drop item.marker = read ++ rest) :
    grammar.MayFollow (access ++ read) ⟨item.rule, item.marker + read.length⟩ terminal := by
  induction read generalizing access item with
  | nil =>
      rw [List.append_nil]
      exact follows
  | cons symbol others inductionHypothesis =>
      obtain ⟨expects, behind⟩ := expects_of_drop spelled
      have further := inductionHypothesis (follows.advance expects) behind
      rw [List.append_assoc] at further
      rw [List.length_cons, Nat.add_comm others.length, ← Nat.add_assoc]
      exact further

/-! ## Where every nonterminal is productive -/

/-- Each nonterminal of a right side derives a string of terminals. -/
def IsProductive (grammar : Grammar T N) : Prop :=
  ∀ rule ∈ grammar.rules, ∀ nonterminal, .nonterminal nonterminal ∈ rule.rhs →
    ∃ word : List T, grammar.Derives [.nonterminal nonterminal] (word.map .terminal)

omit [DecidableEq N] in
private theorem derives_word_of_symbols {symbols : List (Symbol T N)}
    (each : ∀ nonterminal, .nonterminal nonterminal ∈ symbols →
      ∃ word : List T, grammar.Derives [.nonterminal nonterminal] (word.map .terminal)) :
    ∃ word : List T, grammar.Derives symbols (word.map .terminal) := by
  induction symbols with
  | nil => exact ⟨[], .refl []⟩
  | cons symbol rest inductionHypothesis =>
      obtain ⟨restWord, restDerives⟩ := inductionHypothesis fun nonterminal occurs =>
        each nonterminal (List.mem_cons_of_mem _ occurs)
      have headWord : ∃ word : List T, grammar.Derives [symbol] (word.map .terminal) := by
        cases symbol with
        | terminal letter => exact ⟨[letter], .refl _⟩
        | nonterminal letter => exact each letter List.mem_cons_self
      rcases headWord with ⟨word, derives⟩
      exact ⟨word ++ restWord, by simpa using derives.append restDerives⟩

omit [DecidableEq N] in
/-- Symbols that occur on right sides derive a string of terminals. -/
theorem IsProductive.exists_word (productive : grammar.IsProductive) {symbols : List (Symbol T N)}
    (occur : ∀ symbol ∈ symbols, ∃ rule ∈ grammar.rules, symbol ∈ rule.rhs) :
    ∃ word : List T, grammar.Derives symbols (word.map .terminal) := by
  apply derives_word_of_symbols
  intro nonterminal member
  obtain ⟨rule, isRule, occurs⟩ := occur _ member
  exact productive rule isRule nonterminal occurs

omit [DecidableEq N] in
/-- The rest of an item begins with something or vanishes. -/
theorem IsProductive.canBegin_or_vanishes (productive : grammar.IsProductive)
    {symbol : Symbol T N} (expects : item.next? grammar = some symbol) :
    (∃ opening, grammar.CanBegin (item.suffix grammar) opening) ∨
      grammar.Derives (item.suffix grammar) [] := by
  obtain ⟨word, derives⟩ := productive.exists_word fun symbol occurs =>
    ⟨_, rule_mem_of_next? expects, List.mem_of_mem_drop occurs⟩
  cases word with
  | nil => exact .inr derives
  | cons opening rest => exact .inl ⟨opening, _, derives⟩

theorem IsProductive.exists_canonicallyFollows (productive : grammar.IsProductive)
    (valid : grammar.Valid access item) :
    ∃ lookahead, grammar.CanonicallyFollows access item lookahead := by
  induction valid with
  | start => exact ⟨_, .start⟩
  | implied _ implied inductionHypothesis =>
      rcases inductionHypothesis with ⟨lookahead, follows⟩
      obtain ⟨nonterminal, expects, _⟩ := mem_implied.mp implied
      rcases productive.canBegin_or_vanishes expects with ⟨opening, begins⟩ | vanishes
      · exact ⟨opening, .opens follows implied begins⟩
      · exact ⟨lookahead, .inherits follows implied vanishes⟩
  | advance _ expects inductionHypothesis =>
      rcases inductionHypothesis with ⟨lookahead, follows⟩
      exact ⟨lookahead, .advance follows expects⟩

theorem IsProductive.canonicallyFollows_iff (productive : grammar.IsProductive) :
    grammar.CanonicallyFollows access item terminal ↔ grammar.MayFollow access item terminal := by
  constructor
  · exact CanonicallyFollows.mayFollow
  · intro follows
    induction follows with
    | start => exact .start
    | opens valid implied begins =>
        obtain ⟨lookahead, follows⟩ := productive.exists_canonicallyFollows valid
        exact .opens follows implied begins
    | inherits _ implied vanishes inductionHypothesis =>
        exact .inherits inductionHypothesis implied vanishes
    | advance _ expects inductionHypothesis => exact .advance inductionHypothesis expects

/-! ## Bounds on what may follow -/

/-- Only the end marker may follow an item of the accepting rule. -/
theorem MayFollow.eq_endMarker (follows : grammar.MayFollow access item terminal)
    (accepting : item.isAccepting grammar = true) : terminal = grammar.vocabulary.endMarker := by
  have notImplied : ∀ {source new : Item}, new ∈ grammar.implied source →
      new.isAccepting grammar ≠ true := by
    intro source new implied isAccepting
    exact rule_ne_accepting_of_implied implied (of_decide_eq_true isAccepting)
  induction follows with
  | start => rfl
  | opens _ implied _ => exact absurd accepting (notImplied implied)
  | inherits _ implied _ _ => exact absurd accepting (notImplied implied)
  | advance _ _ inductionHypothesis => exact inductionHypothesis accepting

/-- What may follow an item is listed. -/
theorem MayFollow.listed (follows : grammar.MayFollow access item terminal) :
    grammar.vocabulary.terminals.Lists terminal := by
  induction follows with
  | start => exact grammar.endMarker_listed
  | opens _ implied begins =>
      obtain ⟨nonterminal, expects, _⟩ := mem_implied.mp implied
      exact begins.listed (listed_of_next? expects).2
  | inherits _ _ _ inductionHypothesis => exact inductionHypothesis
  | advance _ _ inductionHypothesis => exact inductionHypothesis

variable [DecidableEq T]

/-- What may follow an item follows the left side of its rule. -/
theorem MayFollow.mem_follow (follows : grammar.MayFollow access item terminal) :
    terminal ∈ grammar.firstFollow.follow (grammar.rule item.rule).lhs := by
  induction follows with
  | start =>
      have lhs : (grammar.rule grammar.startItem.rule).lhs = grammar.start :=
        grammar.acceptingRule_lhs
      exact lhs ▸ endMarker_mem_follow
  | opens _ implied begins =>
      obtain ⟨nonterminal, expects, initial⟩ := mem_implied.mp implied
      rw [(mem_initialItems.mp initial).2.2]
      exact mem_follow_of_canBegin (rule_mem_of_next? expects) (rhs_of_next? expects)
        begins
  | inherits _ implied vanishes inductionHypothesis =>
      obtain ⟨nonterminal, expects, initial⟩ := mem_implied.mp implied
      rw [(mem_initialItems.mp initial).2.2]
      exact follow_lhs_subset (rule_mem_of_next? expects) (rhs_of_next? expects)
        vanishes inductionHypothesis
  | advance _ _ inductionHypothesis => exact inductionHypothesis

end Grammar

end ShiftReduce
