import ShiftReduce.Proofs.FirstFollow.Nullable

/-!
Contract: FIRST is derivability of a terminal in front.

Owns: `CanBegin`, by which a string derives one that begins with a terminal; its agreement with the
terminals that are reachable through openers; and `FirstFollow.Describes`, by which the cells of
listed nonterminals hold nullability and FIRST. From the latter `firstOf` is exact on every string
of listed symbols.
-/

namespace ShiftReduce

namespace Grammar

variable {T N : Type}

/-- The string derives one with the terminal in front. -/
def CanBegin (grammar : Grammar T N) (symbols : List (Symbol T N)) (terminal : T) : Prop :=
  ∃ rest, grammar.Derives symbols (.terminal terminal :: rest)

variable {grammar : Grammar T N}

theorem not_canBegin_nil {terminal : T} : ¬grammar.CanBegin [] terminal := by
  intro begins
  rcases begins with ⟨rest, derives⟩
  cases derives_nil_iff.mp derives

theorem canBegin_terminal_cons {letter terminal : T} {rest : List (Symbol T N)} :
    grammar.CanBegin (.terminal letter :: rest) terminal ↔ terminal = letter := by
  constructor
  · intro begins
    rcases begins with ⟨behind, derives⟩
    obtain ⟨front, back, equal, fromLetter, _⟩ :=
      derives.split [.terminal letter] rest
    rw [derives_terminal_iff.mp fromLetter] at equal
    exact Symbol.terminal.inj (List.cons.inj equal).1
  · intro same
    subst same
    exact ⟨rest, .refl _⟩

/-- A string begins as its first part does, or as the others do if the first part vanishes. -/
theorem canBegin_append_iff {left right : List (Symbol T N)} {terminal : T} :
    grammar.CanBegin (left ++ right) terminal ↔
      grammar.CanBegin left terminal ∨
        grammar.Derives left [] ∧ grammar.CanBegin right terminal := by
  constructor
  · intro begins
    rcases begins with ⟨behind, derives⟩
    obtain ⟨front, back, equal, fromLeft, fromRight⟩ := derives.split left right
    cases front with
    | nil => exact .inr ⟨fromLeft, behind, by rwa [equal]⟩
    | cons head tail =>
        obtain ⟨rfl, rfl⟩ := List.cons.inj equal
        exact .inl ⟨tail, fromLeft⟩
  · intro begins
    rcases begins with ⟨behind, derives⟩ | ⟨vanishes, behind, derives⟩
    · exact ⟨behind ++ right, derives.append (.refl right)⟩
    · exact ⟨behind, vanishes.append derives⟩

theorem canBegin_cons_iff {symbol : Symbol T N} {rest : List (Symbol T N)} {terminal : T} :
    grammar.CanBegin (symbol :: rest) terminal ↔
      grammar.CanBegin [symbol] terminal ∨
        grammar.Derives [symbol] [] ∧ grammar.CanBegin rest terminal :=
  @canBegin_append_iff T N grammar [symbol] rest terminal

theorem CanBegin.of_derives {first second : List (Symbol T N)} {terminal : T}
    (derives : grammar.Derives first second) (begins : grammar.CanBegin second terminal) :
    grammar.CanBegin first terminal := by
  rcases begins with ⟨rest, further⟩
  exact ⟨rest, derives.trans further⟩

/-- What listed symbols derive is listed. -/
theorem Derives.listed {first second : List (Symbol T N)}
    (listed : ∀ symbol ∈ first, grammar.vocabulary.Lists symbol)
    (derives : grammar.Derives first second) :
    ∀ symbol ∈ second, grammar.vocabulary.Lists symbol := by
  induction derives with
  | refl => exact listed
  | head expands _ inductionHypothesis =>
      apply inductionHypothesis
      intro symbol occurs
      cases expands with
      | intro isRule before behind =>
          rcases List.mem_append.mp occurs with front | inBehind
          · rcases List.mem_append.mp front with inBefore | inRule
            · exact listed symbol (by simp [inBefore])
            · exact grammar.rhs_listed _ isRule symbol inRule
          · exact listed symbol (by simp [inBehind])

theorem CanBegin.listed {symbols : List (Symbol T N)} {terminal : T}
    (begins : grammar.CanBegin symbols terminal)
    (listed : ∀ symbol ∈ symbols, grammar.vocabulary.Lists symbol) :
    grammar.vocabulary.terminals.Lists terminal := by
  rcases begins with ⟨rest, derives⟩
  exact derives.listed listed (.terminal terminal) List.mem_cons_self

/-! ## Openers -/

variable [DecidableEq N]

theorem mem_openers {nonterminal : N} {symbol : Symbol T N} :
    symbol ∈ grammar.openers grammar.nullables (.nonterminal nonterminal) ↔
      ∃ rule ∈ grammar.rules, rule.lhs = nonterminal ∧ ∃ before behind,
        rule.rhs = before ++ symbol :: behind ∧ grammar.Derives before [] := by
  simp only [openers, List.mem_flatMap, List.mem_filterMap, Prod.exists, mem_rulesOf, mem_splits]
  constructor
  · intro opener
    rcases opener with ⟨id, ⟨bound, lhs⟩, before, member, behind, spelled, taken⟩
    split at taken
    · next vanishes =>
        cases taken
        exact ⟨grammar.rule id, rule_mem bound, lhs, before, behind, spelled,
          vanish_iff.mp vanishes⟩
    · cases taken
  · intro begins
    rcases begins with ⟨rule, isRule, lhs, before, behind, spelled, vanishes⟩
    obtain ⟨id, bound, rfl⟩ := exists_id_of_mem isRule
    refine ⟨id, ⟨bound, lhs⟩, before, symbol, behind, spelled, ?_⟩
    rw [if_pos (vanish_iff.mpr vanishes)]

private theorem derives_of_opens {source symbol : Symbol T N}
    (reached : Exploration.Reachable (grammar.openers grammar.nullables) [source] symbol) :
    ∃ rest, grammar.Derives [source] (symbol :: rest) := by
  induction reached with
  | seed isSeed => exact ⟨[], List.mem_singleton.mp isSeed ▸ .refl _⟩
  | @step middle target _ leads inductionHypothesis =>
      rcases inductionHypothesis with ⟨rest, derives⟩
      cases middle with
      | terminal letter => cases leads
      | nonterminal letter =>
          obtain ⟨rule, isRule, rfl, before, behind, spelled, vanishes⟩ := mem_openers.mp leads
          have expanded := (derives_rhs isRule).in_context [] rest
          have emptied := vanishes.in_context [] (target :: behind ++ rest)
          rw [spelled] at expanded
          exact ⟨behind ++ rest, derives.trans (.trans (by simpa using expanded)
            (by simpa using emptied))⟩

/-- Some symbol leads to the terminal through openers, and those before it vanish. -/
private def Opens (grammar : Grammar T N) (terminal : T) : List (Symbol T N) → Prop
  | [] => False
  | symbol :: rest =>
      Exploration.Reachable (grammar.openers grammar.nullables) [symbol] (.terminal terminal) ∨
        grammar.Derives [symbol] [] ∧ Opens grammar terminal rest

private theorem opens_append_iff {left right : List (Symbol T N)} {terminal : T} :
    Opens grammar terminal (left ++ right) ↔
      Opens grammar terminal left ∨ grammar.Derives left [] ∧ Opens grammar terminal right := by
  induction left with
  | nil => simp [Opens, derives_nil_iff]
  | cons symbol rest inductionHypothesis =>
      have parts : grammar.Derives (symbol :: rest) [] ↔
          grammar.Derives [symbol] [] ∧ grammar.Derives rest [] := derives_cons_nil_iff
      rw [List.cons_append, Opens, Opens, inductionHypothesis, parts, and_or_left, or_assoc,
        and_assoc]

/-- What opens a right side opens the left side. -/
private theorem opens_lhs {rule : Rule T N} (member : rule ∈ grammar.rules) {terminal : T}
    (opens : Opens grammar terminal rule.rhs) :
    Exploration.Reachable (grammar.openers grammar.nullables) [.nonterminal rule.lhs]
      (.terminal terminal) := by
  have fromSuffix : ∀ before symbols : List (Symbol T N), rule.rhs = before ++ symbols →
      grammar.Derives before [] → Opens grammar terminal symbols →
      Exploration.Reachable (grammar.openers grammar.nullables) [.nonterminal rule.lhs]
        (.terminal terminal) := by
    intro before symbols
    induction symbols generalizing before with
    | nil => exact fun _ _ opens => opens.elim
    | cons symbol rest inductionHypothesis =>
        intro spelled vanishes opens
        rcases opens with reached | ⟨symbolVanishes, restOpens⟩
        · apply reached.of_seeds
          intro seed isSeed
          rw [List.mem_singleton.mp isSeed]
          exact .step (.seed List.mem_cons_self)
            (mem_openers.mpr ⟨rule, member, rfl, before, rest, spelled, vanishes⟩)
        · exact inductionHypothesis (before ++ [symbol]) (by simp [spelled])
            (derives_append_nil_iff.mpr ⟨vanishes, symbolVanishes⟩) restOpens
  exact fromSuffix [] rule.rhs rfl (.refl []) opens

/-- The induction is on the derivation: what opens a string after an expansion opens it before. -/
private theorem opens_of_derives {form rest : List (Symbol T N)} {terminal : T}
    (derives : grammar.Derives form (.terminal terminal :: rest)) :
    Opens grammar terminal form := by
  generalize shown : Symbol.terminal terminal :: rest = target at derives
  induction derives with
  | refl => exact shown ▸ .inl (.seed List.mem_cons_self)
  | head expands _ inductionHypothesis =>
      have opens := inductionHypothesis shown
      cases expands with
      | @intro rule isRule before behind =>
          rw [List.append_assoc, opens_append_iff, opens_append_iff] at opens
          rw [opens_append_iff]
          rcases opens with front | ⟨beforeVanishes, inside | ⟨rhsVanishes, back⟩⟩
          · exact .inl front
          · exact .inr ⟨beforeVanishes, .inl (opens_lhs isRule inside)⟩
          · exact .inr ⟨beforeVanishes, .inr ⟨(derives_rhs isRule).trans rhsVanishes, back⟩⟩

private theorem reachable_opener_iff {nonterminal : N} {terminal : T} :
    Exploration.Reachable (grammar.openers grammar.nullables) [.nonterminal nonterminal]
      (.terminal terminal) ↔ grammar.CanBegin [.nonterminal nonterminal] terminal := by
  constructor
  · exact derives_of_opens
  · intro begins
    rcases begins with ⟨rest, derives⟩
    exact (opens_of_derives derives).elim id fun impossible => impossible.2.elim

variable [DecidableEq T]

theorem mem_firstSet_iff {nonterminal : N} {terminal : T} :
    terminal ∈ grammar.firstSet grammar.nullables nonterminal ↔
      grammar.CanBegin [.nonterminal nonterminal] terminal := by
  have listed : ∀ symbol : Symbol T N,
      symbol ∈ Exploration.explore (grammar.openers grammar.nullables)
        (grammar.occurrences.length + 1) [.nonterminal nonterminal] ↔
      Exploration.Reachable (grammar.openers grammar.nullables) [.nonterminal nonterminal]
        symbol := by
    intro symbol
    apply Exploration.mem_explore_iff (.nonterminal nonterminal :: grammar.occurrences)
    · intro seed isSeed
      simp [List.mem_singleton.mp isSeed]
    · intro source _ target leads
      cases source with
      | terminal letter => cases leads
      | nonterminal letter =>
          obtain ⟨rule, isRule, _, before, behind, spelled, _⟩ := mem_openers.mp leads
          apply List.mem_cons_of_mem
          exact List.mem_flatMap.mpr ⟨rule, by simpa using isRule, by simp [spelled]⟩
    · simp
  unfold firstSet
  rw [Ascending.mem_ofList, List.mem_filterMap, ← reachable_opener_iff, ← listed]
  constructor
  · intro found
    rcases found with ⟨symbol, found, isTerminal⟩
    cases symbol with
    | terminal letter => exact Option.some.inj isTerminal ▸ found
    | nonterminal letter => cases isTerminal
  · exact fun found => ⟨_, found, rfl⟩

end Grammar

/-! ## Cells -/

/-- The cells of listed nonterminals say which of them vanish and what they can begin with. -/
structure FirstFollow.Describes {T N : Type} (sets : FirstFollow T N) (grammar : Grammar T N) :
    Prop where
  vocabulary_eq : sets.vocabulary = grammar.vocabulary
  isNullable_iff : ∀ nonterminal, grammar.vocabulary.nonterminals.Lists nonterminal →
    (sets.isNullable nonterminal = true ↔ grammar.Derives [.nonterminal nonterminal] [])
  mem_first_iff : ∀ nonterminal terminal, grammar.vocabulary.nonterminals.Lists nonterminal →
    (terminal ∈ sets.first nonterminal ↔ grammar.CanBegin [.nonterminal nonterminal] terminal)

variable {T N : Type}

theorem FirstFollow.hasCell_of_listed {sets : FirstFollow T N} {grammar : Grammar T N}
    (same : sets.vocabulary = grammar.vocabulary)
    (sized : sets.nullableCells.size = grammar.vocabulary.nonterminals.size) {nonterminal : N}
    (listed : grammar.vocabulary.nonterminals.Lists nonterminal) :
    sets.hasCell nonterminal = true := by
  rw [hasCell, cell, sized, same]
  exact decide_eq_true listed.index_lt

/-- A cell that is worked out for every listed nonterminal is the one of the nonterminal. -/
theorem Alphabet.Lists.getD_map {α : Type} {alphabet : Alphabet N} {letter : N}
    (listed : alphabet.Lists letter) (value : N → α) (default : α) :
    (alphabet.all.toArray.map value).getD (alphabet.index letter) default = value letter := by
  have found : alphabet.all[alphabet.index letter]? = some letter := listed
  rw [Array.getD_eq_getD_getElem?, Array.getElem?_map, List.getElem?_toArray, found]
  rfl

namespace Grammar

variable [DecidableEq T] [DecidableEq N] {grammar : Grammar T N}

theorem firstSets_describes : (grammar.firstSets grammar.nullables).Describes grammar where
  vocabulary_eq := rfl
  isNullable_iff nonterminal listed := by
    have cell := listed.getD_map (fun letter => decide (letter ∈ grammar.nullables)) false
    rw [← mem_nullables_iff, ← @decide_eq_true_iff (nonterminal ∈ _), ← cell]
    rfl
  mem_first_iff nonterminal terminal listed := by
    have cell := listed.getD_map (grammar.firstSet grammar.nullables) []
    rw [← mem_firstSet_iff, ← cell]
    rfl

theorem size_nullableCells_firstFollow (grammar : Grammar T N) :
    grammar.firstFollow.nullableCells.size = grammar.vocabulary.nonterminals.size :=
  Array.size_map.trans List.size_toArray

theorem firstFollow_describes : grammar.firstFollow.Describes grammar where
  vocabulary_eq := rfl
  isNullable_iff := firstSets_describes.isNullable_iff
  mem_first_iff := firstSets_describes.mem_first_iff

end Grammar

namespace FirstFollow.Describes

variable {sets : FirstFollow T N} {grammar : Grammar T N}

/-- `firstOf` says of a string whether it vanishes and how it can begin, if its nonterminals are
listed. -/
theorem firstOf_iff_of_nonterminals (describes : sets.Describes grammar)
    {symbols : List (Symbol T N)}
    (listed : ∀ nonterminal, .nonterminal nonterminal ∈ symbols →
      grammar.vocabulary.nonterminals.Lists nonterminal) :
    ((sets.firstOf symbols).2 = true ↔ grammar.Derives symbols []) ∧
      ∀ terminal, terminal ∈ (sets.firstOf symbols).1 ↔ grammar.CanBegin symbols terminal := by
  induction symbols with
  | nil => simp [firstOf, Grammar.derives_nil_iff, Grammar.not_canBegin_nil]
  | cons symbol rest inductionHypothesis =>
      obtain ⟨restVanishes, restBegins⟩ := inductionHypothesis fun other member =>
        listed other (List.mem_cons_of_mem _ member)
      rw [Grammar.derives_cons_nil_iff]
      cases symbol with
      | terminal letter =>
          have stays : ¬grammar.Derives [.terminal letter] [] := by
            simp [Grammar.derives_terminal_iff]
          simp [firstOf, stays, Grammar.canBegin_terminal_cons]
      | nonterminal letter =>
          have letterListed : grammar.vocabulary.nonterminals.Lists letter :=
            listed letter List.mem_cons_self
          have vanishIff := describes.isNullable_iff letter letterListed
          have beginIff := fun terminal => describes.mem_first_iff letter terminal letterListed
          rw [firstOf]
          split
          · next nullable =>
              have vanishes := vanishIff.mp nullable
              constructor
              · simpa [vanishes] using restVanishes
              · intro terminal
                rw [Ascending.mem_union, Grammar.canBegin_cons_iff, beginIff, restBegins terminal]
                simp [vanishes]
          · next notNullable =>
              have stays : ¬grammar.Derives [.nonterminal letter] [] := by rwa [← vanishIff]
              constructor
              · simp [stays]
              · intro terminal
                rw [Grammar.canBegin_cons_iff, beginIff]
                simp [stays]

theorem firstOf_iff (describes : sets.Describes grammar) {symbols : List (Symbol T N)}
    (listed : ∀ symbol ∈ symbols, grammar.vocabulary.Lists symbol) :
    ((sets.firstOf symbols).2 = true ↔ grammar.Derives symbols []) ∧
      ∀ terminal, terminal ∈ (sets.firstOf symbols).1 ↔ grammar.CanBegin symbols terminal :=
  describes.firstOf_iff_of_nonterminals fun nonterminal occurs =>
    listed (.nonterminal nonterminal) occurs

end FirstFollow.Describes

end ShiftReduce
