import ShiftReduce.FirstFollow.Basic
import ShiftReduce.Proofs.Derivation

/-!
Contract: nullability is derivability of the empty string.

Owns: the equivalence for single nonterminals, which are the consequences of the clauses of a
grammar, and for strings, which `vanish` decides.
-/

namespace ShiftReduce

namespace Grammar

variable {T N : Type} {grammar : Grammar T N}

private theorem mapM_nonterminal?_eq_some_iff {symbols : List (Symbol T N)} {names : List N} :
    symbols.mapM Symbol.nonterminal? = some names ↔ symbols = names.map .nonterminal := by
  induction symbols generalizing names with
  | nil => cases names <;> simp
  | cons symbol rest inductionHypothesis =>
      cases symbol with
      | terminal letter => cases names <;> simp [List.mapM_cons, Symbol.nonterminal?]
      | nonterminal letter =>
          simp only [List.mapM_cons, Symbol.nonterminal?, Option.bind_eq_bind, Option.bind_some,
            Option.bind_eq_some_iff, Option.pure_def, Option.some.injEq]
          constructor
          · intro named
            rcases named with ⟨others, spelled, rfl⟩
            rw [inductionHypothesis.mp spelled, List.map_cons]
          · intro spelled
            obtain ⟨name, others, rfl, same, rest⟩ := List.map_eq_cons_iff.mp spelled.symm
            refine ⟨others, inductionHypothesis.mpr rest.symm, ?_⟩
            rw [Symbol.nonterminal.inj same]

private theorem exists_names {symbols : List (Symbol T N)}
    (each : ∀ symbol ∈ symbols, ∃ name, symbol = .nonterminal name) :
    ∃ names : List N, symbols = names.map .nonterminal := by
  induction symbols with
  | nil => exact ⟨[], rfl⟩
  | cons symbol rest inductionHypothesis =>
      obtain ⟨name, rfl⟩ := each symbol List.mem_cons_self
      obtain ⟨names, rfl⟩ := inductionHypothesis fun other member =>
        each other (List.mem_cons_of_mem _ member)
      exact ⟨name :: names, rfl⟩

theorem mem_nullableClauses {clause : Clause N} :
    clause ∈ grammar.nullableClauses ↔
      ∃ rule ∈ grammar.rules, rule.lhs = clause.conclusion ∧
        rule.rhs = clause.premises.map .nonterminal := by
  unfold nullableClauses
  rw [List.mem_filterMap]
  constructor
  · intro isClause
    rcases isClause with ⟨rule, member, made⟩
    obtain ⟨premises, spelled, rfl⟩ := Option.map_eq_some_iff.mp made
    exact ⟨rule, by simpa using member, rfl, mapM_nonterminal?_eq_some_iff.mp spelled⟩
  · intro fits
    rcases fits with ⟨rule, member, lhs, rhs⟩
    refine ⟨rule, by simpa using member, ?_⟩
    rw [mapM_nonterminal?_eq_some_iff.mpr rhs, lhs]
    rfl

private theorem derives_nil_of_forall {names : List N}
    (each : ∀ name ∈ names, grammar.Derives [.nonterminal name] []) :
    grammar.Derives (names.map Symbol.nonterminal) [] := by
  induction names with
  | nil => exact .refl []
  | cons name rest inductionHypothesis =>
      have restVanishes := inductionHypothesis fun other member =>
        each other (List.mem_cons_of_mem _ member)
      exact derives_cons_nil_iff.mpr ⟨each name List.mem_cons_self, restVanishes⟩

private theorem derives_nil_of_follows {nonterminal : N}
    (follows : Clause.Follows grammar.nullableClauses nonterminal) :
    grammar.Derives [.nonterminal nonterminal] [] := by
  induction follows with
  | intro member _ inductionHypothesis =>
      obtain ⟨rule, isRule, lhs, rhs⟩ := mem_nullableClauses.mp member
      have vanishes := derives_nil_of_forall inductionHypothesis
      rw [← rhs] at vanishes
      exact lhs ▸ (derives_rhs isRule).trans vanishes

/-- The induction is on the derivation, for strings: one expansion of a string that vanishes leads
to a string that does, and the clause of the rule expanded accounts for its left side. -/
private theorem follows_of_derives_nil {form : List (Symbol T N)}
    (vanishes : grammar.Derives form []) {symbol : Symbol T N} (member : symbol ∈ form) :
    ∃ nonterminal, symbol = .nonterminal nonterminal ∧
      Clause.Follows grammar.nullableClauses nonterminal := by
  generalize empty : ([] : List (Symbol T N)) = target at vanishes
  induction vanishes generalizing symbol with
  | refl => simp [← empty] at member
  | head expands _ inductionHypothesis =>
      cases expands with
      | @intro rule isRule before behind =>
          have follows : ∀ other ∈ before ++ rule.rhs ++ behind, ∃ nonterminal,
              other = .nonterminal nonterminal ∧
                Clause.Follows grammar.nullableClauses nonterminal :=
            fun other occurs => inductionHypothesis occurs empty
          rcases List.mem_append.mp member with earlier | expanded
          · exact follows symbol (by simp [earlier])
          rcases List.mem_cons.mp expanded with rfl | later
          · -- The expanded symbol follows from those of the right side, all of them nonterminals.
            refine ⟨rule.lhs, rfl, ?_⟩
            obtain ⟨names, spelled⟩ : ∃ names : List N, rule.rhs = names.map .nonterminal :=
              exists_names fun other occurs => by
                obtain ⟨name, same, _⟩ := follows other (by simp [occurs])
                exact ⟨name, same⟩
            refine @Clause.Follows.intro N _ ⟨rule.lhs, names⟩
              (mem_nullableClauses.mpr ⟨rule, isRule, rfl, spelled⟩) fun name isPremise => ?_
            obtain ⟨other, same, premise⟩ := follows (.nonterminal name)
              (by simp [spelled, isPremise])
            exact Symbol.nonterminal.inj same ▸ premise
          · exact follows symbol (by simp [later])

variable [DecidableEq N]

/-- The listed nonterminals are the ones that derive the empty string. -/
theorem mem_nullables_iff {nonterminal : N} :
    nonterminal ∈ grammar.nullables ↔ grammar.Derives [.nonterminal nonterminal] [] := by
  unfold nullables
  rw [Clause.mem_consequences_iff]
  constructor
  · exact derives_nil_of_follows
  · intro vanishes
    obtain ⟨other, same, follows⟩ := follows_of_derives_nil vanishes List.mem_cons_self
    exact Symbol.nonterminal.inj same ▸ follows

theorem vanish_iff {symbols : List (Symbol T N)} :
    vanish grammar.nullables symbols = true ↔ grammar.Derives symbols [] := by
  induction symbols with
  | nil => simp [vanish, derives_nil_iff]
  | cons symbol rest inductionHypothesis =>
      have parts : vanish grammar.nullables (symbol :: rest) = true ↔
          grammar.Derives [symbol] [] ∧ vanish grammar.nullables rest = true := by
        cases symbol with
        | terminal letter => simp [vanish, derives_terminal_iff]
        | nonterminal letter => simp [vanish, mem_nullables_iff]
      rw [parts, inductionHypothesis]
      exact derives_cons_nil_iff.symm

end Grammar

end ShiftReduce
