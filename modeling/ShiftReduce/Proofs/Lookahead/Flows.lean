import ShiftReduce.Proofs.Automaton.Items
import ShiftReduce.Proofs.Lookahead.Knowledge
import ShiftReduce.Proofs.Lookahead.Spread

/-!
Contract: what the propagation of lookaheads settles on.

Owns: `Carries`, by which a kernel item hands a lookahead to one that its closure leads to; the
agreement of flows, links and the initial knowledge with it; and `Grammar.settled`, the knowledge
that the passes end with, of which the lookaheads of every item are made.
-/

namespace ShiftReduce

namespace Grammar

variable {T N : Type} [DecidableEq T] [DecidableEq N] {grammar : Grammar T N}

/-! ## Flows -/

omit [DecidableEq T] [DecidableEq N] in
theorem terminal?_eq_some_iff {lookahead : Lookahead T} {terminal : T} :
    lookahead.terminal? = some terminal ↔ lookahead = .terminal terminal := by
  cases lookahead with
  | inherited => simp [Lookahead.terminal?]
  | terminal letter => simp [Lookahead.terminal?]

theorem mem_kernelSites {site : Site} :
    site ∈ grammar.kernelSites grammar.automaton ↔
      site.item ∈ grammar.automaton.kernel grammar site.state := by
  unfold kernelSites
  rw [List.mem_flatMap]
  constructor
  · intro isSite
    rcases isSite with ⟨state, _, member⟩
    obtain ⟨item, isKernel, rfl⟩ := List.mem_map.mp member
    exact isKernel
  · intro isKernel
    have member := (List.mem_filter.mp isKernel).1
    exact ⟨site.state, List.mem_range.mpr (lt_stateCount_of_mem member),
      List.mem_map.mpr ⟨site.item, isKernel, rfl⟩⟩

/-- A kernel item hands a lookahead to a successor of an item that it spreads the lookahead to. -/
def Carries (grammar : Grammar T N) (source target : Site) (lookahead : Lookahead T) : Prop :=
  source.item ∈ grammar.automaton.kernel grammar source.state ∧
    ∃ item symbol, grammar.Spreads (alone source.item) item lookahead ∧
      item.next? grammar = some symbol ∧
      grammar.automaton.goto? source.state symbol = some target.state ∧
      target.item = item.advance

/-- What a kernel item spreads belongs to its state. -/
theorem items_of_mem_closure_singleton {state : Nat} {seed item : Item}
    (isItem : seed ∈ grammar.automaton.items state) (member : item ∈ grammar.closure [seed]) :
    item ∈ grammar.automaton.items state := by
  have reached := mem_closure_iff.mp member
  induction reached with
  | seed isSeed => exact List.mem_singleton.mp isSeed ▸ isItem
  | step reached implied inductionHypothesis =>
      exact items_of_implied (inductionHypothesis (mem_closure_iff.mpr reached)) implied

theorem Carries.target_mem {source target : Site} {lookahead : Lookahead T}
    (carries : grammar.Carries source target lookahead) :
    target.item ∈ grammar.automaton.kernel grammar target.state := by
  rcases carries with ⟨isKernel, item, symbol, spreads, expects, edge, advanced⟩
  have isItem := (List.mem_filter.mp isKernel).1
  have member := items_of_mem_closure_singleton isItem spreads.mem_closure
  rw [advanced]
  refine List.mem_filter.mpr ⟨items_of_advance edge member expects, ?_⟩
  simp [Item.isKernel, Item.advance]

/-- All flows of the automaton, each with its source. -/
def allFlows (grammar : Grammar T N) : List (Site × Site × List (Lookahead T)) :=
  (grammar.kernelSites grammar.automaton).flatMap fun source =>
    (grammar.flows grammar.firstFollow grammar.automaton source).map (source, ·)

theorem exists_mem_allFlows_iff {source target : Site} {lookahead : Lookahead T} :
    (∃ lookaheads, (source, target, lookaheads) ∈ grammar.allFlows ∧ lookahead ∈ lookaheads) ↔
      grammar.Carries source target lookahead := by
  have fit : source.item ∈ grammar.automaton.kernel grammar source.state →
      ∀ seed ∈ (@alone T source.item).map Prod.fst, seed ∈ grammar.allItems := by
    intro isKernel seed isSeed
    rw [List.mem_singleton.mp isSeed]
    exact items_subset_allItems (List.mem_filter.mp isKernel).1
  constructor
  · intro flows
    rcases flows with ⟨lookaheads, member, inside⟩
    obtain ⟨site, isSite, mapped⟩ := List.mem_flatMap.mp member
    obtain ⟨⟨reached, given⟩, flow, same⟩ := List.mem_map.mp mapped
    obtain ⟨rfl, rfl, rfl⟩ : site = source ∧ reached = target ∧ given = lookaheads := by
      simpa using same
    obtain ⟨⟨item, spread⟩, entry, led⟩ := List.mem_filterMap.mp flow
    obtain ⟨symbol, expects, later⟩ := Option.bind_eq_some_iff.mp led
    obtain ⟨next, edge, made⟩ := Option.bind_eq_some_iff.mp later
    obtain ⟨rfl, rfl⟩ := Prod.mk.inj (Option.some.inj made)
    have isKernel := mem_kernelSites.mp isSite
    exact ⟨isKernel, item, symbol, (mem_of_mem_spread (fit isKernel) entry).mp inside, expects,
      edge, rfl⟩
  · intro carries
    rcases carries with ⟨isKernel, item, symbol, spreads, expects, edge, advanced⟩
    have inClosure := spreads.mem_closure
    rw [← spread_map_fst] at inClosure
    obtain ⟨⟨entryItem, lookaheads⟩, entry, rfl⟩ := List.mem_map.mp inClosure
    have flow : (target, lookaheads) ∈
        grammar.flows grammar.firstFollow grammar.automaton source := by
      refine List.mem_filterMap.mpr ⟨_, entry, ?_⟩
      simp only [expects, edge, Option.bind_eq_bind, Option.bind_some, Option.pure_def]
      rw [← advanced]
    have listed : (source, target, lookaheads) ∈ grammar.allFlows :=
      List.mem_flatMap.mpr ⟨source, mem_kernelSites.mpr isKernel,
        List.mem_map.mpr ⟨(target, lookaheads), flow, rfl⟩⟩
    exact ⟨lookaheads, listed, (mem_of_mem_spread (fit isKernel) entry).mpr spreads⟩

/-! ## Links -/

/-- The links of the automaton. -/
def allLinks (grammar : Grammar T N) : List Link := linksOf grammar.allFlows

theorem mem_allLinks {link : Link} :
    link ∈ grammar.allLinks ↔ grammar.Carries link.source link.target .inherited := by
  rw [allLinks, linksOf, Ascending.mem_ofList, ← exists_mem_allFlows_iff, List.mem_map]
  constructor
  · intro isLink
    rcases isLink with ⟨⟨source, target, lookaheads⟩, member, rfl⟩
    obtain ⟨isFlow, stands⟩ := List.mem_filter.mp member
    exact ⟨lookaheads, isFlow, of_decide_eq_true stands⟩
  · intro carries
    rcases carries with ⟨lookaheads, isFlow, stands⟩
    exact ⟨(link.source, link.target, lookaheads),
      List.mem_filter.mpr ⟨isFlow, decide_eq_true stands⟩, rfl⟩

/-! ## What is known at first -/

/-- The knowledge before the first pass. -/
def firstKnowledge (grammar : Grammar T N) : Knowledge T :=
  grammar.initialKnowledge (grammar.kernelSites grammar.automaton) grammar.allFlows

/-- The first knowledge as raises of one site after the other. -/
private theorem firstKnowledge_eq :
    grammar.firstKnowledge =
      (grammar.allFlows.map fun (_, target, lookaheads) =>
        (target, lookaheads.filterMap Lookahead.terminal?)).foldl
          (fun knowledge (target, terminals) =>
            knowledge.raise grammar.vocabulary.terminals.order target terminals)
          (Knowledge.raise grammar.vocabulary.terminals.order
            ((grammar.kernelSites grammar.automaton).map fun site => (site, []))
            ⟨0, grammar.startItem⟩ [grammar.vocabulary.endMarker]) := by
  rw [List.foldl_map]
  rfl

omit [DecidableEq T] [DecidableEq N] in
private theorem known_ignorant {sites : List Site} {site : Site} :
    Knowledge.known (sites.map fun site => (site, ([] : List T))) site = [] := by
  induction sites with
  | nil => rfl
  | cons head tail inductionHypothesis =>
      unfold Knowledge.known at inductionHypothesis ⊢
      rw [List.map_cons, List.lookup_cons]
      by_cases here : site == head
      · simp [here]
      · simpa [here] using inductionHypothesis

theorem sites_firstKnowledge :
    grammar.firstKnowledge.sites = grammar.kernelSites grammar.automaton := by
  rw [firstKnowledge_eq, Knowledge.sites_foldl_raise, Knowledge.sites_raise, Knowledge.sites,
    List.map_map]
  exact List.map_id _

/-- At first a kernel item knows what some kernel item carries to it, and the start item the end
marker. -/
theorem mem_known_firstKnowledge {site : Site} {terminal : T} :
    terminal ∈ grammar.firstKnowledge.known site ↔
      site = ⟨0, grammar.startItem⟩ ∧ terminal = grammar.vocabulary.endMarker ∨
        ∃ source, grammar.Carries source site (.terminal terminal) := by
  have sites : Knowledge.sites ((grammar.kernelSites grammar.automaton).map fun site =>
      (site, ([] : List T))) = grammar.kernelSites grammar.automaton := by
    rw [Knowledge.sites, List.map_map]
    exact List.map_id _
  rw [firstKnowledge_eq, Knowledge.mem_known_foldl_raise, Knowledge.mem_known_raise,
    Knowledge.sites_raise, sites, known_ignorant]
  constructor
  · intro known
    rcases known with (impossible | ⟨rfl, _, isEnd⟩) | ⟨_, terminals, moved, member⟩
    · cases impossible
    · exact .inl ⟨rfl, List.mem_singleton.mp isEnd⟩
    · obtain ⟨⟨source, target, lookaheads⟩, isFlow, made⟩ := List.mem_map.mp moved
      obtain ⟨rfl, rfl⟩ := Prod.mk.inj made
      obtain ⟨lookahead, inside, isTerminal⟩ := List.mem_filterMap.mp member
      rw [terminal?_eq_some_iff.mp isTerminal] at inside
      exact .inr ⟨source, exists_mem_allFlows_iff.mp ⟨lookaheads, isFlow, inside⟩⟩
  · intro given
    rcases given with ⟨rfl, rfl⟩ | ⟨source, carries⟩
    · exact .inl (.inr ⟨rfl, mem_kernelSites.mpr startItem_mem_kernel, List.mem_cons_self⟩)
    · obtain ⟨lookaheads, isFlow, inside⟩ := exists_mem_allFlows_iff.mpr carries
      have shown : terminal ∈ lookaheads.filterMap Lookahead.terminal? :=
        List.mem_filterMap.mpr ⟨_, inside, rfl⟩
      exact .inr ⟨mem_kernelSites.mpr carries.target_mem, _,
        List.mem_map.mpr ⟨_, isFlow, rfl⟩, shown⟩

/-! ## What is settled -/

/-- The knowledge that the passes end with. -/
def settled (grammar : Grammar T N) : Knowledge T :=
  (grammar.firstKnowledge.settle grammar.vocabulary.terminals.order grammar.allLinks
    ((grammar.kernelSites grammar.automaton).length * grammar.vocabulary.terminals.size + 1)).1

omit [DecidableEq T] in
/-- What spreads to an item is listed if the seeds' own lookaheads are. -/
theorem Spreads.listed {seeds : LookaheadTable T} {item : Item} {terminal : T}
    (given : ∀ entry ∈ seeds, ∀ terminal, .terminal terminal ∈ entry.2 →
      grammar.vocabulary.terminals.Lists terminal)
    (spreads : grammar.Spreads seeds item (.terminal terminal)) :
    grammar.vocabulary.terminals.Lists terminal := by
  generalize same : Lookahead.terminal terminal = lookahead at spreads
  induction spreads with
  | seed known =>
      obtain ⟨entry, member, _, inside⟩ := LookaheadTable.mem_lookaheads.mp known
      exact given entry member terminal (same ▸ inside)
  | opens _ implied begins =>
      cases same
      obtain ⟨nonterminal, expects, _⟩ := mem_implied.mp implied
      exact begins.listed (listed_of_next? expects).2
  | inherits _ _ _ inductionHypothesis => exact inductionHypothesis same

theorem Carries.listed {source target : Site} {terminal : T}
    (carries : grammar.Carries source target (.terminal terminal)) :
    grammar.vocabulary.terminals.Lists terminal := by
  rcases carries with ⟨_, item, symbol, spreads, _⟩
  apply spreads.listed
  intro entry member terminal inside
  rw [List.mem_singleton.mp member] at inside
  cases List.mem_singleton.mp inside

private theorem within_firstKnowledge :
    grammar.firstKnowledge.Within grammar.vocabulary.terminals.order
      grammar.vocabulary.terminals.all := by
  rw [firstKnowledge_eq]
  apply Knowledge.Within.foldl_raise
  · apply Knowledge.Within.raise
    · intro entry member
      obtain ⟨site, _, rfl⟩ := List.mem_map.mp member
      exact ⟨.nil, fun terminal impossible => nomatch impossible⟩
    · intro terminal isEnd
      exact List.mem_singleton.mp isEnd ▸ grammar.endMarker_listed.mem
  · intro move moved terminal member
    obtain ⟨⟨source, target, lookaheads⟩, isFlow, rfl⟩ := List.mem_map.mp moved
    obtain ⟨lookahead, inside, isTerminal⟩ := List.mem_filterMap.mp member
    rw [terminal?_eq_some_iff.mp isTerminal] at inside
    exact (exists_mem_allFlows_iff.mp ⟨lookaheads, isFlow, inside⟩).listed.mem

/-- The passes end with what arrives by way of links. -/
theorem mem_known_settled {site : Site} {terminal : T} :
    terminal ∈ grammar.settled.known site ↔
      Knowledge.Arrives grammar.allLinks grammar.firstKnowledge site terminal := by
  have sameLength : grammar.firstKnowledge.length =
      (grammar.kernelSites grammar.automaton).length := by
    have sameSites := congrArg List.length (@sites_firstKnowledge T N _ _ grammar)
    simpa [Knowledge.sites] using sameSites
  apply Knowledge.mem_settle_iff within_firstKnowledge
  · rw [sameLength, Alphabet.size]
    omega
  · intro link member
    rw [sites_firstKnowledge, mem_kernelSites]
    exact (mem_allLinks.mp member).target_mem

end Grammar

end ShiftReduce
