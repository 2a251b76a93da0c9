import ShiftReduce.Alphabet.Numbered
import ShiftReduce.Grammar.Outline
import ShiftReduce.Proofs.Lookahead.Flows
import ShiftReduce.Proofs.Lookahead.MayFollow
import ShiftReduce.Study

/-!
Contract: the lookaheads of an item in a state are what may follow it after some string that leads
to the state.

Owns: the agreement of what is settled and then spread with `MayFollow`, in both directions; and the
one place where propagation differs from canonical states, the rules whose rest derives no string of
terminals.
-/

namespace ShiftReduce

namespace Grammar

variable {T N : Type} [DecidableEq T] [DecidableEq N] {grammar : Grammar T N}

/-- Some string leads to the state, and the terminal may follow the item after it. -/
def Merges (grammar : Grammar T N) (state : Nat) (item : Item) (terminal : T) : Prop :=
  ∃ access, grammar.automaton.walk 0 access = some state ∧
    grammar.MayFollow access item terminal

/-! ## Nothing is invented -/

/-- What a valid item spreads by itself may follow. -/
theorem mayFollow_of_spreads_terminal {access : List (Symbol T N)} {seed item : Item} {terminal : T}
    (valid : grammar.Valid access seed)
    (spreads : grammar.Spreads (alone seed) item (.terminal terminal)) :
    grammar.MayFollow access item terminal := by
  have validMember : ∀ {member : Item}, member ∈ grammar.closure ((@alone T seed).map Prod.fst) →
      grammar.Valid access member := by
    intro member inClosure
    obtain ⟨state, walked, isItem⟩ := valid.exists_walk
    exact valid_of_walk walked (items_of_mem_closure_singleton isItem inClosure)
  generalize same : Lookahead.terminal terminal = lookahead at spreads
  induction spreads with
  | seed given =>
      rw [(mem_lookaheads_alone.mp given).2] at same
      cases same
  | opens member implied begins =>
      cases same
      exact .opens (validMember member) implied begins
  | inherits _ implied vanishes inductionHypothesis =>
      exact .inherits (inductionHypothesis same) implied vanishes

omit [DecidableEq T] in
/-- The stand-in spreads to items that whatever follows the seed may follow. -/
theorem mayFollow_of_spreads_inherited {access : List (Symbol T N)} {seed item : Item}
    {terminal : T} (follows : grammar.MayFollow access seed terminal)
    (spreads : grammar.Spreads (alone seed) item .inherited) :
    grammar.MayFollow access item terminal := by
  generalize same : Lookahead.inherited = lookahead at spreads
  induction spreads with
  | seed given => exact (mem_lookaheads_alone.mp given).1 ▸ follows
  | opens => cases same
  | inherits _ implied vanishes inductionHypothesis =>
      exact .inherits (inductionHypothesis same) implied vanishes

/-- A site merges what may follow the item that a kernel item carries the terminal by. -/
private theorem Merges.advance {state target : Nat} {item : Item} {symbol : Symbol T N}
    {terminal : T} (merges : grammar.Merges state item terminal)
    (expects : item.next? grammar = some symbol)
    (edge : grammar.automaton.goto? state symbol = some target) :
    grammar.Merges target item.advance terminal := by
  rcases merges with ⟨access, walked, follows⟩
  exact ⟨access ++ [symbol], walk_concat_of_goto? walked edge, follows.advance expects⟩

theorem merges_of_mem_settled {site : Site} {terminal : T}
    (known : terminal ∈ grammar.settled.known site) :
    grammar.Merges site.state site.item terminal := by
  have arrives := mem_known_settled.mp known
  induction arrives with
  | known first =>
      rcases mem_known_firstKnowledge.mp first with ⟨rfl, rfl⟩ | ⟨source, carries⟩
      · exact ⟨[], rfl, .start⟩
      · rcases carries with ⟨isKernel, item, symbol, spreads, expects, edge, advanced⟩
        have isItem := (List.mem_filter.mp isKernel).1
        obtain ⟨access, walked⟩ := exists_walk (lt_stateCount_of_mem isItem)
        have follows := mayFollow_of_spreads_terminal (valid_of_walk walked isItem) spreads
        rw [advanced]
        exact Merges.advance ⟨access, walked, follows⟩ expects edge
  | follows member arrives inductionHypothesis =>
      obtain ⟨_, item, symbol, spreads, expects, edge, advanced⟩ := mem_allLinks.mp member
      obtain ⟨access, walked, follows⟩ := inductionHypothesis (mem_known_settled.mpr arrives)
      have reaches := mayFollow_of_spreads_inherited follows spreads
      rw [advanced]
      exact Merges.advance ⟨access, walked, reaches⟩ expects edge

/-! ## Nothing is lost -/

/-- The kernel items of a state with what is settled of them. -/
def settledSeeds (grammar : Grammar T N) (state : Nat) : LookaheadTable T :=
  (grammar.automaton.kernel grammar state).map fun item =>
    (item, (grammar.settled.known ⟨state, item⟩).map .terminal)

theorem settledSeeds_map_fst (state : Nat) :
    (grammar.settledSeeds state).map Prod.fst = grammar.automaton.kernel grammar state := by
  rw [settledSeeds, List.map_map]
  exact List.map_id _

theorem mem_lookaheads_settledSeeds {state : Nat} {item : Item} {terminal : T} :
    .terminal terminal ∈ (grammar.settledSeeds state).lookaheads item ↔
      item ∈ grammar.automaton.kernel grammar state ∧
        terminal ∈ grammar.settled.known ⟨state, item⟩ := by
  simp [LookaheadTable.mem_lookaheads, settledSeeds]

/-- The induction is on how the terminal comes to follow the item; the state is that of the string
read so far. -/
theorem spreads_of_mayFollow {access : List (Symbol T N)} {item : Item} {terminal : T}
    (follows : grammar.MayFollow access item terminal) {state : Nat}
    (walked : grammar.automaton.walk 0 access = some state) :
    grammar.Spreads (grammar.settledSeeds state) item (.terminal terminal) := by
  induction follows generalizing state with
  | start =>
      cases walked
      have known : grammar.vocabulary.endMarker ∈ grammar.settled.known ⟨0, grammar.startItem⟩ :=
        mem_known_settled.mpr (.known (mem_known_firstKnowledge.mpr (.inl ⟨rfl, rfl⟩)))
      exact .seed (mem_lookaheads_settledSeeds.mpr ⟨startItem_mem_kernel, known⟩)
  | opens valid implied begins =>
      have isItem := (valid_iff_of_walk walked).mp valid
      apply Spreads.opens _ implied begins
      rwa [settledSeeds_map_fst, closure_kernel (lt_stateCount_of_mem isItem)]
  | inherits _ implied vanishes inductionHypothesis =>
      exact .inherits (inductionHypothesis walked) implied vanishes
  | @advance before item terminal symbol follows expects inductionHypothesis =>
      rw [walk_concat] at walked
      obtain ⟨middle, walkedBefore, edge⟩ := Option.bind_eq_some_iff.mp walked
      obtain ⟨seed, isSeed, spreads⟩ :=
        spreads_terminal_iff.mp (inductionHypothesis walkedBefore)
      rw [settledSeeds_map_fst] at isSeed
      have arrives : Knowledge.Arrives grammar.allLinks grammar.firstKnowledge
          ⟨state, item.advance⟩ terminal := by
        rcases spreads with byItself | ⟨given, standsIn⟩
        · exact .known (mem_known_firstKnowledge.mpr (.inr
            ⟨⟨middle, seed⟩, isSeed, item, symbol, byItself, expects, edge, rfl⟩))
        · have known := (mem_lookaheads_settledSeeds.mp given).2
          exact @Knowledge.Arrives.follows T _ _ ⟨⟨middle, seed⟩, ⟨state, item.advance⟩⟩ terminal
            (mem_allLinks.mpr ⟨isSeed, item, symbol, standsIn, expects, edge, rfl⟩)
            (mem_known_settled.mp known)
      have isItem := items_of_advance edge ((valid_iff_of_walk walkedBefore).mp follows.valid)
        expects
      have isKernel : item.advance ∈ grammar.automaton.kernel grammar state :=
        List.mem_filter.mpr ⟨isItem, by simp [Item.isKernel, Item.advance]⟩
      apply Spreads.seed
      exact mem_lookaheads_settledSeeds.mpr ⟨isKernel, mem_known_settled.mpr arrives⟩

/-- What spreads from the settled kernel of a state is what its items merge. -/
theorem spreads_settledSeeds_iff {state : Nat} {item : Item} {terminal : T} :
    grammar.Spreads (grammar.settledSeeds state) item (.terminal terminal) ↔
      grammar.Merges state item terminal := by
  constructor
  · intro spreads
    obtain ⟨seed, isSeed, spreadsAlone⟩ := spreads_terminal_iff.mp spreads
    rw [settledSeeds_map_fst] at isSeed
    have isItem := (List.mem_filter.mp isSeed).1
    rcases spreadsAlone with byItself | ⟨given, standsIn⟩
    · obtain ⟨access, walked⟩ := exists_walk (lt_stateCount_of_mem isItem)
      exact ⟨access, walked, mayFollow_of_spreads_terminal (valid_of_walk walked isItem) byItself⟩
    · obtain ⟨access, walked, follows⟩ :=
        merges_of_mem_settled (mem_lookaheads_settledSeeds.mp given).2
      exact ⟨access, walked, mayFollow_of_spreads_inherited follows standsIn⟩
  · intro merges
    rcases merges with ⟨access, walked, follows⟩
    exact spreads_of_mayFollow follows walked

/-! ## Cells -/

theorem links_propagation :
    (grammar.propagation grammar.firstFollow grammar.automaton).links = grammar.allLinks := by
  simp only [propagation, allLinks, allFlows]

private theorem cells_propagation {state : Nat} (bound : state < grammar.automaton.stateCount) :
    (grammar.propagation grammar.firstFollow grammar.automaton).cells[state]? =
      some ((grammar.spread grammar.firstFollow (grammar.settledSeeds state)).map
        fun (item, lookaheads) =>
          (item, Ascending.ofList grammar.vocabulary.terminals.order
            (lookaheads.filterMap Lookahead.terminal?))) := by
  have cells : (grammar.propagation grammar.firstFollow grammar.automaton).cells =
      ((List.range grammar.automaton.stateCount).map fun state =>
        (grammar.spread grammar.firstFollow (grammar.settledSeeds state)).map
          fun (item, lookaheads) =>
            (item, Ascending.ofList grammar.vocabulary.terminals.order
              (lookaheads.filterMap Lookahead.terminal?))).toArray := by
    simp only [propagation, settledSeeds, settled, firstKnowledge, allLinks, allFlows]
  rw [cells, List.getElem?_toArray, List.getElem?_map, List.getElem?_range bound]
  rfl

theorem lookaheads?_eq_none {state : Nat} {item : Item}
    (absent : item ∉ grammar.automaton.items state) :
    (grammar.propagation grammar.firstFollow grammar.automaton).lookaheads? state item = none := by
  unfold Propagation.lookaheads?
  by_cases bound : state < grammar.automaton.stateCount
  · rw [cells_propagation bound, Option.bind_some, List.lookup_eq_none_iff]
    intro entry member
    obtain ⟨source, inSpread, rfl⟩ := List.mem_map.mp member
    have isItem : source.1 ∈ grammar.automaton.items state := by
      rw [← closure_kernel bound, ← settledSeeds_map_fst, ← spread_map_fst]
      exact List.mem_map.mpr ⟨source, inSpread, rfl⟩
    exact bne_iff_ne.mpr fun same => absent (same ▸ isItem)
  · have beyond : (grammar.propagation grammar.firstFollow grammar.automaton).cells[state]? =
        none := by
      rw [Array.getElem?_eq_none_iff]
      simpa [propagation] using bound
    rw [beyond]
    rfl

theorem exists_lookaheads? {state : Nat} {item : Item}
    (member : item ∈ grammar.automaton.items state) :
    ∃ terminals,
      (grammar.propagation grammar.firstFollow grammar.automaton).lookaheads? state item =
        some terminals ∧
      ∀ terminal, terminal ∈ terminals ↔ grammar.Merges state item terminal := by
  have bound := lt_stateCount_of_mem member
  have fit : ∀ seed ∈ (grammar.settledSeeds state).map Prod.fst, seed ∈ grammar.allItems := by
    intro seed isSeed
    rw [settledSeeds_map_fst] at isSeed
    exact items_subset_allItems (List.mem_filter.mp isSeed).1
  unfold Propagation.lookaheads?
  rw [cells_propagation bound, Option.bind_some]
  cases found : List.lookup item ((grammar.spread grammar.firstFollow
      (grammar.settledSeeds state)).map fun (item, lookaheads) =>
        (item, Ascending.ofList grammar.vocabulary.terminals.order
          (lookaheads.filterMap Lookahead.terminal?))) with
  | none =>
      rw [← closure_kernel bound, ← settledSeeds_map_fst, ← spread_map_fst] at member
      obtain ⟨entry, inSpread, rfl⟩ := List.mem_map.mp member
      have differs := List.lookup_eq_none_iff.mp found _ (List.mem_map.mpr ⟨entry, inSpread, rfl⟩)
      exact absurd rfl (bne_iff_ne.mp differs)
  | some terminals =>
      refine ⟨terminals, rfl, fun terminal => ?_⟩
      obtain ⟨before, behind, split, _⟩ := List.lookup_eq_some_iff.mp found
      have inCells : (item, terminals) ∈ before ++ (item, terminals) :: behind := by simp
      rw [← split] at inCells
      obtain ⟨⟨entry, lookaheads⟩, inSpread, made⟩ := List.mem_map.mp inCells
      obtain ⟨rfl, rfl⟩ := Prod.mk.inj made
      rw [Ascending.mem_ofList, ← spreads_settledSeeds_iff, ← mem_of_mem_spread fit inSpread]
      simp [List.mem_filterMap, terminal?_eq_some_iff]

/-! ## Against canonical states -/

/-- Exactly the items of a state have lookaheads, and those are what may follow the item after some
string that leads to the state. Where every nonterminal is productive, what follows it canonically
is the same. -/
theorem lookaheads?_propagation (grammar : Grammar T N) (state : Nat) (item : Item) :
    (item ∈ grammar.automaton.items state →
      ∃ terminals, grammar.study.propagation.get.lookaheads? state item = some terminals ∧
        ∀ terminal,
          (terminal ∈ terminals ↔ ∃ access, grammar.automaton.walk 0 access = some state ∧
            grammar.MayFollow access item terminal) ∧
          (grammar.IsProductive →
            (terminal ∈ terminals ↔ ∃ access, grammar.automaton.walk 0 access = some state ∧
              grammar.CanonicallyFollows access item terminal))) ∧
      (item ∉ grammar.automaton.items state →
        grammar.study.propagation.get.lookaheads? state item = none) := by
  rw [Study.propagation_study]
  refine ⟨fun member => ?_, lookaheads?_eq_none⟩
  obtain ⟨terminals, found, merged⟩ := exists_lookaheads? member
  refine ⟨terminals, found, fun terminal => ⟨merged terminal, fun productive => ?_⟩⟩
  rw [merged terminal]
  exact exists_congr fun access => and_congr_right fun _ => productive.canonicallyFollows_iff.symm

/-- The accepting rule is `S -> B D`, and `D` has no rules. Nothing follows the items of `B`, one of
which is `B -> . C d`; canonically nothing follows those of `C` either. -/
def barren : Grammar Nat Nat := Outline.grammar
  { vocabulary :=
      { terminals := Numbering.alphabet { names := #["d", "e", "end"], listed := 3 }
        nonterminals := Numbering.alphabet { names := #["S", "B", "C", "D"], listed := 4 }
        endMarker := 2 }
    start := 0
    rules := #[⟨0, [.nonterminal 1, .nonterminal 3]⟩, ⟨1, [.nonterminal 2, .terminal 0]⟩,
      ⟨2, [.terminal 1]⟩]
    accepting := 0
    defined := [0, 1, 2, 3] }

private theorem barren_derives {form : List (Symbol Nat Nat)}
    (derives : barren.Derives [.nonterminal 3] form) : form = [.nonterminal 3] := by
  have noRule : ∀ rule ∈ barren.rules, rule.lhs ≠ 3 := by decide
  rcases derives_nonterminal derives with same | ⟨rule, member, lhs, _⟩
  · exact same
  · exact absurd lhs (noRule rule member)

private theorem barren_implied {item new : Item} (accepting : item.rule = 0)
    (implied : new ∈ barren.implied item) : item.suffix barren = [.nonterminal 3] := by
  rcases item with ⟨rule, marker⟩
  cases accepting
  match marker with
  | 0 => rfl
  | 1 =>
      have nothing : barren.implied ⟨0, 1⟩ = [] := by decide
      rw [nothing] at implied
      cases implied
  | marker + 2 => exact absurd implied (by simp [Grammar.implied, Item.next?, rule, rule?, barren])

/-- Canonically only items of the accepting rule are followed by anything. -/
private theorem barren_canonical {access : List (Symbol Nat Nat)} {item : Item} {terminal : Nat}
    (follows : barren.CanonicallyFollows access item terminal) : item.rule = 0 := by
  induction follows with
  | start => rfl
  | opens _ implied begins accepting =>
      rcases begins with ⟨rest, derives⟩
      rw [barren_implied accepting implied] at derives
      cases barren_derives derives
  | inherits _ implied vanishes accepting =>
      rw [barren_implied accepting implied] at vanishes
      cases barren_derives vanishes
  | advance _ _ accepting => exact accepting

/-- In the start state `C -> . e` is looked ahead with `d`, which never follows it canonically. -/
theorem barren_lookahead_not_canonical :
    barren.study.propagation.get.lookaheads? 0 ⟨2, 0⟩ = some [0] ∧
      ¬∃ access, barren.automaton.walk 0 access = some 0 ∧
        barren.CanonicallyFollows access ⟨2, 0⟩ 0 := by
  refine ⟨by decide +kernel, ?_⟩
  intro canonical
  rcases canonical with ⟨access, _, follows⟩
  cases barren_canonical follows

end Grammar

end ShiftReduce
