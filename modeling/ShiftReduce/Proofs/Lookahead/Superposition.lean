import ShiftReduce.Proofs.Lookahead.Agenda
import ShiftReduce.Proofs.Parser.Soundness

/-!
Contract: seeds with terminals spread as each of them alone does with a stand-in.

Owns: what several seeds come to when each is taken alone and its terminals are put in the place of
the stand-in; and the theorem that this is what the visits that begin with all of them end with, and
what `spread` says.

This is why a stand-in tells apart what a kernel item brings forth and what it only passes on.
-/

namespace ShiftReduce

namespace LookaheadTable

variable {T : Type}

/-- Both list the same items, with the same lookaheads. -/
structure Agrees (left right : LookaheadTable T) : Prop where
  items : left.map Prod.fst = right.map Prod.fst
  lookaheads : ∀ item lookahead,
    lookahead ∈ left.lookaheads item ↔ lookahead ∈ right.lookaheads item

/-- Seeds of which the lookaheads are terminals. -/
def ofTerminals (seeds : List (Item × List T)) : LookaheadTable T :=
  seeds.map fun (item, terminals) => (item, terminals.map .terminal)

variable {seeds : List (Item × List T)}

theorem map_fst_ofTerminals : (ofTerminals seeds).map Prod.fst = seeds.map Prod.fst :=
  List.map_map

theorem mem_lookaheads_ofTerminals {item : Item} {lookahead : Lookahead T} :
    lookahead ∈ (ofTerminals seeds).lookaheads item ↔
      ∃ seed ∈ seeds, seed.1 = item ∧ ∃ terminal ∈ seed.2, .terminal terminal = lookahead := by
  simp [mem_lookaheads, ofTerminals]

end LookaheadTable

namespace Grammar

variable {T N : Type} [DecidableEq T] [DecidableEq N]

/-- The table lists the closure of the seeds. An item's lookaheads are terminals: those that it has
from some seed alone, and the seed's own terminals if it has the stand-in from that seed. -/
structure IsSuperposition (grammar : Grammar T N) (seeds : List (Item × List T))
    (single : Item → LookaheadTable T) (table : LookaheadTable T) : Prop where
  items : table.map Prod.fst = grammar.closure (seeds.map Prod.fst)
  lookaheads : ∀ item lookahead, lookahead ∈ table.lookaheads item ↔
    ∃ terminal, lookahead = .terminal terminal ∧ ∃ seed ∈ seeds,
      .terminal terminal ∈ (single seed.1).lookaheads item ∨
        .inherited ∈ (single seed.1).lookaheads item ∧ terminal ∈ seed.2

variable {grammar : Grammar T N} {seeds : List (Item × List T)}

/-- What the visits end with is what `spread` says. -/
theorem SpreadsOut.agrees_spread {given table : LookaheadTable T}
    (spreadsOut : grammar.SpreadsOut given table)
    (fit : ∀ item ∈ given.map Prod.fst, item ∈ grammar.allItems) :
    table.Agrees (grammar.spread grammar.firstFollow given) where
  items := by rw [spreadsOut.map_fst, spread_map_fst]
  lookaheads _ _ := by rw [spreadsOut.mem_lookaheads_iff, mem_lookaheads_spread fit]

omit [DecidableEq T] in
/-- A stand-in comes from a seed that has it. -/
theorem Spreads.exists_inherited {table : LookaheadTable T} {item : Item}
    (spreads : grammar.Spreads table item .inherited) :
    ∃ seed, .inherited ∈ table.lookaheads seed := by
  generalize same : Lookahead.inherited = lookahead at spreads
  induction spreads with
  | @seed item _ given =>
      subst same
      exact ⟨item, given⟩
  | opens => cases same
  | inherits _ _ _ inductionHypothesis => exact inductionHypothesis same

omit [DecidableEq T] in
theorem spreads_ofTerminals_iff {item : Item} {lookahead : Lookahead T} :
    grammar.Spreads (.ofTerminals seeds) item lookahead ↔
      ∃ terminal, lookahead = .terminal terminal ∧ ∃ seed ∈ seeds,
        grammar.Spreads (alone seed.1) item (.terminal terminal) ∨
          grammar.Spreads (alone seed.1) item .inherited ∧ terminal ∈ seed.2 := by
  constructor
  · intro spreads
    cases lookahead with
    | inherited =>
        obtain ⟨seed, given⟩ := spreads.exists_inherited
        obtain ⟨_, _, _, _, _, impossible⟩ := LookaheadTable.mem_lookaheads_ofTerminals.mp given
        cases impossible
    | terminal terminal =>
        refine ⟨terminal, rfl, ?_⟩
        obtain ⟨item, isSeed, byItself | ⟨given, standsIn⟩⟩ := spreads_terminal_iff.mp spreads
        · rw [LookaheadTable.map_fst_ofTerminals] at isSeed
          obtain ⟨seed, member, rfl⟩ := List.mem_map.mp isSeed
          exact ⟨seed, member, .inl byItself⟩
        · obtain ⟨seed, member, rfl, _, own, same⟩ :=
            LookaheadTable.mem_lookaheads_ofTerminals.mp given
          cases same
          exact ⟨seed, member, .inr ⟨standsIn, own⟩⟩
  · intro reaches
    rcases reaches with ⟨terminal, rfl, seed, member, reaches⟩
    have isSeed : seed.1 ∈ (LookaheadTable.ofTerminals seeds).map Prod.fst := by
      rw [LookaheadTable.map_fst_ofTerminals]
      exact List.mem_map_of_mem member
    refine spreads_terminal_iff.mpr ⟨seed.1, isSeed, reaches.imp_right ?_⟩
    intro standsIn
    rcases standsIn with ⟨standsIn, own⟩
    have given := LookaheadTable.mem_lookaheads_ofTerminals.mpr
      ⟨seed, member, rfl, terminal, own, rfl⟩
    exact ⟨given, standsIn⟩

omit [DecidableEq T] in
/-- Tables of what spreads from all seeds and from each of them alone fit together. -/
theorem isSuperposition_of_spreads {table : LookaheadTable T} {single : Item → LookaheadTable T}
    (items : table.map Prod.fst = grammar.closure (seeds.map Prod.fst))
    (all : ∀ item lookahead, lookahead ∈ table.lookaheads item ↔
      grammar.Spreads (.ofTerminals seeds) item lookahead)
    (each : ∀ seed ∈ seeds, ∀ item lookahead, lookahead ∈ (single seed.1).lookaheads item ↔
      grammar.Spreads (alone seed.1) item lookahead) :
    grammar.IsSuperposition seeds single table where
  items := items
  lookaheads item lookahead := by
    rw [all, spreads_ofTerminals_iff]
    apply exists_congr
    intro terminal
    apply and_congr_right
    intro _
    apply exists_congr
    intro seed
    apply and_congr_right
    intro member
    rw [each seed member, each seed member]

/-- What a seed comes to by itself can be told from what its lookaheads come to. The visits that
begin with all seeds, or with one of them alone, come to an end, each to a single one; and both the
tables that they end with and those that `spread` makes fit together. -/
structure Superposes (grammar : Grammar T N) (seeds : List (Item × List T)) : Prop where
  ends : ∃ table, ∀ other, grammar.SpreadsOut (.ofTerminals seeds) other ↔ other = table
  ends_alone : ∀ seed ∈ seeds,
    ∃ table, ∀ other, grammar.SpreadsOut (alone seed.1) other ↔ other = table
  visits : ∀ table single, grammar.SpreadsOut (.ofTerminals seeds) table →
    (∀ seed ∈ seeds, grammar.SpreadsOut (alone seed.1) (single seed.1)) →
      grammar.IsSuperposition seeds single table
  spreads : grammar.IsSuperposition seeds
    (fun seed => grammar.spread grammar.firstFollow (alone seed))
    (grammar.spread grammar.firstFollow (.ofTerminals seeds))
  agrees : ∀ table, grammar.SpreadsOut (.ofTerminals seeds) table →
    table.Agrees (grammar.spread grammar.firstFollow (.ofTerminals seeds))
  agrees_alone : ∀ seed ∈ seeds, ∀ table, grammar.SpreadsOut (alone seed.1) table →
    table.Agrees (grammar.spread grammar.firstFollow (alone seed.1))

theorem superposes_of_fit (fit : ∀ seed ∈ seeds, seed.1 ∈ grammar.allItems) :
    grammar.Superposes seeds := by
  have fitAll : ∀ item ∈ (LookaheadTable.ofTerminals seeds).map Prod.fst,
      item ∈ grammar.allItems := by
    rw [LookaheadTable.map_fst_ofTerminals]
    exact List.forall_mem_map.mpr fit
  have fitAlone : ∀ seed ∈ seeds, ∀ item ∈ (alone (T := T) seed.1).map Prod.fst,
      item ∈ grammar.allItems := by
    intro seed member item isSeed
    rw [List.mem_singleton.mp isSeed]
    exact fit seed member
  refine ⟨exists_spreadsOut_iff grammar _, ?_, ?_, ?_, ?_, ?_⟩
  · exact fun seed _ => exists_spreadsOut_iff grammar _
  · intro table single spreadsOut spreadsOutAlone
    apply isSuperposition_of_spreads
    · rw [spreadsOut.map_fst, LookaheadTable.map_fst_ofTerminals]
    · exact fun _ _ => spreadsOut.mem_lookaheads_iff
    · exact fun seed member _ _ => (spreadsOutAlone seed member).mem_lookaheads_iff
  · apply isSuperposition_of_spreads
    · rw [spread_map_fst, LookaheadTable.map_fst_ofTerminals]
    · exact fun _ _ => mem_lookaheads_spread fitAll
    · exact fun seed member _ _ => mem_lookaheads_spread (fitAlone seed member)
  · exact fun table spreadsOut => spreadsOut.agrees_spread fitAll
  · exact fun seed member table spreadsOut => spreadsOut.agrees_spread (fitAlone seed member)

/-- Seeds of `strokes`: one with the end marker, one with nothing and one with both terminals. -/
def strokeSeeds : List (Item × List Nat) := [(⟨0, 0⟩, [1]), (⟨1, 0⟩, []), (⟨1, 1⟩, [0, 1])]

theorem superposes_strokes :
    (∀ seed ∈ strokeSeeds, seed.1 ∈ strokes.allItems) ∧ strokes.Superposes strokeSeeds :=
  ⟨by decide, superposes_of_fit (by decide)⟩

end Grammar

end ShiftReduce
