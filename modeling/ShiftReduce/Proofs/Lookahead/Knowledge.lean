import ShiftReduce.Lookahead.Propagation

/-!
Contract: passes along links settle at the least knowledge that the links leave alone.

Owns: what raising, passing and settling do to what is known of a site; the size of a knowledge,
which every pass that changes something increases; and `Arrives`, the terminals that reach a site by
way of links, which are exactly the ones settled on if there are passes enough.
-/

namespace ShiftReduce

/-! ## Growth of ascending sets -/

namespace Ascending

variable {α : Type} {order : α → α → Ordering}

variable (order) in
/-- An insertion changes nothing or adds one member. -/
theorem insert_eq_or_length (member : α) (set : List α) :
    insert order member set = set ∨ (insert order member set).length = set.length + 1 := by
  induction set with
  | nil => exact .inr rfl
  | cons head tail inductionHypothesis =>
      rw [insert]
      split
      · exact .inr rfl
      · exact .inl rfl
      · exact inductionHypothesis.imp (fun same => by rw [same]) fun longer => by
          rw [List.length_cons, longer, List.length_cons]

variable (order) in
theorem union_eq_or_length_lt (set members : List α) :
    union order set members = set ∨ set.length < (union order set members).length := by
  unfold union
  induction members generalizing set with
  | nil => exact .inl rfl
  | cons head tail inductionHypothesis =>
      rw [List.foldl_cons]
      rcases inductionHypothesis (insert order head set) with same | longer
      · rw [same]
        exact (insert_eq_or_length order head set).imp id fun longer => by omega
      · rcases insert_eq_or_length order head set with same | inserted
        · exact .inr (by rwa [same] at longer ⊢)
        · exact .inr (by omega)

variable (order) in
/-- A union that has not become longer has no new members. -/
theorem union_eq_of_length_eq {set members : List α}
    (same : (union order set members).length = set.length) : union order set members = set := by
  rcases union_eq_or_length_lt order set members with unchanged | longer
  · exact unchanged
  · omega

theorem nodup_of_isAscending [Std.LawfulEqCmp order] {set : List α}
    (ascending : IsAscending order set) : set.Nodup := by
  refine List.Pairwise.imp ?_ ascending
  rintro lower _ below rfl
  have reflexive : order lower lower = .eq := Std.ReflCmp.compare_self
  rw [reflexive] at below
  cases below

end Ascending

namespace Knowledge

variable {T : Type} {order : T → T → Ordering}

/-- The sites of which something is kept. -/
def sites (knowledge : Knowledge T) : List Site := knowledge.map Prod.fst

/-! ## Raising -/

theorem sites_raise (knowledge : Knowledge T) (site : Site) (terminals : List T) :
    (knowledge.raise order site terminals).sites = knowledge.sites := by
  simp [sites, raise]

theorem sites_foldl_raise (moves : List (Site × List T)) (knowledge : Knowledge T) :
    (moves.foldl (fun knowledge (target, terminals) =>
      knowledge.raise order target terminals) knowledge).sites = knowledge.sites := by
  induction moves generalizing knowledge with
  | nil => rfl
  | cons move rest inductionHypothesis =>
      rw [List.foldl_cons, inductionHypothesis, sites_raise]

theorem known_raise (knowledge : Knowledge T) (site other : Site) (terminals : List T) :
    (knowledge.raise order site terminals).known other =
      if other = site ∧ other ∈ knowledge.sites then
        Ascending.union order (knowledge.known other) terminals
      else knowledge.known other := by
  induction knowledge with
  | nil => simp [raise, known, sites]
  | cons head tail inductionHypothesis =>
      rcases head with ⟨entry, known⟩
      by_cases here : other = entry
      · subst here
        by_cases raised : other = site
        · simp [raise, Knowledge.known, sites, raised]
        · simp [raise, Knowledge.known, sites, raised]
      · have elsewhere : (other == entry) = false := beq_eq_false_iff_ne.mpr here
        have keptIff : other ∈ sites ((entry, known) :: tail) ↔ other ∈ sites tail := by
          simp [sites, here]
        have skip : ∀ first : List T, Knowledge.known ((entry, first) :: tail) other =
            Knowledge.known tail other := fun first => by
          simp [Knowledge.known, List.lookup_cons, elsewhere]
        simp only [skip, keptIff, ← inductionHypothesis]
        simp [raise, Knowledge.known, List.lookup_cons, elsewhere]

theorem mem_known_raise [Std.LawfulEqCmp order] {knowledge : Knowledge T} {site other : Site}
    {terminals : List T} {terminal : T} :
    terminal ∈ (knowledge.raise order site terminals).known other ↔
      terminal ∈ knowledge.known other ∨
        other = site ∧ other ∈ knowledge.sites ∧ terminal ∈ terminals := by
  rw [known_raise]
  split
  · next raised =>
      rw [Ascending.mem_union]
      simp only [raised.1, true_and]
      rw [and_iff_right (raised.1 ▸ raised.2)]
  · next untouched =>
      constructor
      · exact .inl
      · intro raises
        rcases raises with old | ⟨same, kept, _⟩
        · exact old
        · exact absurd ⟨same, kept⟩ untouched

/-- Raising many sites, one after the other. -/
theorem mem_known_foldl_raise [Std.LawfulEqCmp order] {moves : List (Site × List T)}
    {knowledge : Knowledge T} {site : Site} {terminal : T} :
    terminal ∈ (moves.foldl (fun knowledge (target, terminals) =>
        knowledge.raise order target terminals) knowledge).known site ↔
      terminal ∈ knowledge.known site ∨
        site ∈ knowledge.sites ∧ ∃ terminals, (site, terminals) ∈ moves ∧ terminal ∈ terminals := by
  induction moves generalizing knowledge with
  | nil => simp
  | cons move rest inductionHypothesis =>
      rcases move with ⟨target, terminals⟩
      rw [List.foldl_cons, inductionHypothesis, mem_known_raise, sites_raise]
      constructor
      · intro known
        rcases known with (old | ⟨rfl, kept, new⟩) | ⟨kept, given, member, new⟩
        · exact .inl old
        · exact .inr ⟨kept, terminals, List.mem_cons_self, new⟩
        · exact .inr ⟨kept, given, List.mem_cons_of_mem _ member, new⟩
      · intro raises
        rcases raises with old | ⟨kept, given, member, new⟩
        · exact .inl (.inl old)
        · rcases List.mem_cons.mp member with same | later
          · obtain ⟨rfl, rfl⟩ := Prod.mk.inj same
            exact .inl (.inr ⟨rfl, kept, new⟩)
          · exact .inr ⟨kept, given, later, new⟩

/-! ## Size -/

/-- How many terminals are kept, over all sites. -/
def size : Knowledge T → Nat
  | [] => 0
  | entry :: rest => entry.2.length + size rest

variable (order) in
theorem raise_eq_or_size_lt (knowledge : Knowledge T) (site : Site) (terminals : List T) :
    knowledge.raise order site terminals = knowledge ∨
      knowledge.size < (knowledge.raise order site terminals).size := by
  induction knowledge with
  | nil => exact .inl rfl
  | cons head tail inductionHypothesis =>
      rcases head with ⟨entry, known⟩
      have tailCases := inductionHypothesis
      simp only [raise, size, List.map_cons] at tailCases ⊢
      have headCases : (if entry = site then Ascending.union order known terminals else known) =
          known ∨ known.length <
            (if entry = site then Ascending.union order known terminals else known).length := by
        split
        · exact Ascending.union_eq_or_length_lt order known terminals
        · exact .inl rfl
      rcases headCases with headSame | headLonger <;> rcases tailCases with tailSame | tailLonger
      · exact .inl (by rw [headSame, tailSame])
      · exact .inr (by rw [headSame]; omega)
      · exact .inr (by rw [tailSame]; omega)
      · exact .inr (by omega)

/-- Each set is ascending and holds terminals of the alphabet only. -/
def Within (order : T → T → Ordering) (alphabet : List T) (knowledge : Knowledge T) : Prop :=
  ∀ entry ∈ knowledge, Ascending.IsAscending order entry.2 ∧
    ∀ terminal ∈ entry.2, terminal ∈ alphabet

theorem Within.mem_alphabet {alphabet : List T} {knowledge : Knowledge T}
    (within : knowledge.Within order alphabet) {site : Site} {terminal : T}
    (known : terminal ∈ knowledge.known site) : terminal ∈ alphabet := by
  unfold Knowledge.known at known
  cases found : knowledge.lookup site with
  | none => simp [found] at known
  | some terminals =>
      rw [found] at known
      obtain ⟨before, behind, rfl, _⟩ := List.lookup_eq_some_iff.mp found
      exact (within (site, terminals) (by simp)).2 terminal known

theorem Within.raise [Std.TransCmp order] [Std.LawfulEqCmp order] {alphabet : List T}
    {knowledge : Knowledge T} (within : knowledge.Within order alphabet) (site : Site)
    {terminals : List T} (listed : ∀ terminal ∈ terminals, terminal ∈ alphabet) :
    (knowledge.raise order site terminals).Within order alphabet := by
  intro entry member
  obtain ⟨⟨key, known⟩, old, rfl⟩ := List.mem_map.mp member
  obtain ⟨ascending, knownListed⟩ := within (key, known) old
  by_cases raised : key = site
  · simp only [raised, if_true]
    constructor
    · exact Ascending.isAscending_union ascending
    · intro terminal inUnion
      exact (Ascending.mem_union.mp inUnion).elim (knownListed terminal) (listed terminal)
  · simp only [raised, if_false]
    exact ⟨ascending, knownListed⟩

theorem Within.foldl_raise [Std.TransCmp order] [Std.LawfulEqCmp order] {alphabet : List T}
    {moves : List (Site × List T)} {knowledge : Knowledge T}
    (within : knowledge.Within order alphabet)
    (listed : ∀ move ∈ moves, ∀ terminal ∈ move.2, terminal ∈ alphabet) :
    Knowledge.Within order alphabet (moves.foldl (fun knowledge (target, terminals) =>
      knowledge.raise order target terminals) knowledge) := by
  induction moves generalizing knowledge with
  | nil => exact within
  | cons move rest inductionHypothesis =>
      obtain ⟨moveListed, restListed⟩ := List.forall_mem_cons.mp listed
      exact inductionHypothesis (within.raise _ moveListed) restListed

theorem Within.size_le [Std.LawfulEqCmp order] {alphabet : List T} {knowledge : Knowledge T}
    (within : knowledge.Within order alphabet) :
    knowledge.size ≤ knowledge.length * alphabet.length := by
  induction knowledge with
  | nil => simp [size]
  | cons head tail inductionHypothesis =>
      obtain ⟨ascending, listed⟩ := within head List.mem_cons_self
      have headLe : head.2.length ≤ alphabet.length :=
        (Ascending.nodup_of_isAscending ascending).length_le_of_subset listed
      have tailLe := inductionHypothesis fun entry member =>
        within entry (List.mem_cons_of_mem _ member)
      simp only [size, List.length_cons, Nat.add_mul, Nat.one_mul]
      omega

/-! ## Passes -/

variable [Std.LawfulEqCmp order] {links : List Link}

/-- Terminals that reach a site: they are known of it, or reach the source of a link to it. -/
inductive Arrives (links : List Link) (knowledge : Knowledge T) : Site → T → Prop where
  | known {site : Site} {terminal : T} (known : terminal ∈ knowledge.known site) :
      Arrives links knowledge site terminal
  | follows {link : Link} {terminal : T} (member : link ∈ links)
      (arrives : Arrives links knowledge link.source terminal) :
      Arrives links knowledge link.target terminal

omit [Std.LawfulEqCmp order] in
theorem pass_cons (link : Link) (links : List Link) (knowledge : Knowledge T) :
    knowledge.pass order (link :: links) =
      (knowledge.raise order link.target (knowledge.known link.source)).pass order links := rfl

variable (order links) in
omit [Std.LawfulEqCmp order] in
theorem sites_pass (knowledge : Knowledge T) :
    (knowledge.pass order links).sites = knowledge.sites := by
  induction links generalizing knowledge with
  | nil => rfl
  | cons link rest inductionHypothesis => rw [pass_cons, inductionHypothesis, sites_raise]

theorem known_subset_pass {knowledge : Knowledge T} {site : Site} {terminal : T}
    (known : terminal ∈ knowledge.known site) :
    terminal ∈ (knowledge.pass order links).known site := by
  induction links generalizing knowledge with
  | nil => exact known
  | cons link rest inductionHypothesis =>
      exact inductionHypothesis (mem_known_raise.mpr (.inl known))

/-- A pass takes what the source of a link knows to the target, if the target is kept. -/
theorem mem_known_pass_target {knowledge : Knowledge T} {link : Link} (member : link ∈ links)
    (kept : link.target ∈ knowledge.sites) {terminal : T}
    (known : terminal ∈ knowledge.known link.source) :
    terminal ∈ (knowledge.pass order links).known link.target := by
  induction links generalizing knowledge with
  | nil => cases member
  | cons first rest inductionHypothesis =>
      rw [pass_cons]
      rcases List.mem_cons.mp member with rfl | later
      · exact known_subset_pass (mem_known_raise.mpr (.inr ⟨rfl, kept, known⟩))
      · exact inductionHypothesis later (by rwa [sites_raise]) (mem_known_raise.mpr (.inl known))

theorem arrives_of_mem_pass {knowledge origin : Knowledge T} {passed : List Link}
    (subset : ∀ link ∈ passed, link ∈ links)
    (sound : ∀ site terminal, terminal ∈ knowledge.known site → Arrives links origin site terminal)
    {site : Site} {terminal : T} (known : terminal ∈ (knowledge.pass order passed).known site) :
    Arrives links origin site terminal := by
  induction passed generalizing knowledge with
  | nil => exact sound site terminal known
  | cons link rest inductionHypothesis =>
      refine inductionHypothesis (fun other member => subset other (List.mem_cons_of_mem _ member))
        (fun target letter raised => ?_) known
      rcases mem_known_raise.mp raised with old | ⟨rfl, _, fromSource⟩
      · exact sound target letter old
      · exact .follows (subset link List.mem_cons_self) (sound _ letter fromSource)

omit [Std.LawfulEqCmp order] in
theorem pass_eq_or_size_lt (knowledge : Knowledge T) :
    knowledge.pass order links = knowledge ∨
      knowledge.size < (knowledge.pass order links).size := by
  induction links generalizing knowledge with
  | nil => exact .inl rfl
  | cons link rest inductionHypothesis =>
      rw [pass_cons]
      rcases inductionHypothesis (knowledge.raise order link.target (knowledge.known link.source))
        with same | longer
      · rw [same]
        exact raise_eq_or_size_lt order knowledge link.target _
      · rcases raise_eq_or_size_lt order knowledge link.target
          (knowledge.known link.source) with same | raised
        · exact .inr (by rwa [same] at longer ⊢)
        · exact .inr (by omega)

theorem Within.pass [Std.TransCmp order] {alphabet : List T} {knowledge : Knowledge T}
    (within : knowledge.Within order alphabet) :
    (knowledge.pass order links).Within order alphabet := by
  induction links generalizing knowledge with
  | nil => exact within
  | cons link rest inductionHypothesis =>
      exact inductionHypothesis (within.raise _ fun _ => within.mem_alphabet)

/-! ## Settling -/

variable [DecidableEq T]

omit [Std.LawfulEqCmp order] in
theorem sites_settle (passes : Nat) (knowledge : Knowledge T) :
    (knowledge.settle order links passes).1.sites = knowledge.sites := by
  induction passes generalizing knowledge with
  | zero => rfl
  | succ passes inductionHypothesis =>
      rw [settle]
      split
      · rfl
      · rw [inductionHypothesis, sites_pass]

theorem known_subset_settle (passes : Nat) {knowledge : Knowledge T} {site : Site} {terminal : T}
    (known : terminal ∈ knowledge.known site) :
    terminal ∈ (knowledge.settle order links passes).1.known site := by
  induction passes generalizing knowledge with
  | zero => exact known
  | succ passes inductionHypothesis =>
      rw [settle]
      split
      · exact known
      · exact inductionHypothesis (known_subset_pass known)

theorem arrives_of_mem_settle (passes : Nat) {knowledge origin : Knowledge T}
    (sound : ∀ site terminal, terminal ∈ knowledge.known site → Arrives links origin site terminal)
    {site : Site} {terminal : T}
    (known : terminal ∈ (knowledge.settle order links passes).1.known site) :
    Arrives links origin site terminal := by
  induction passes generalizing knowledge with
  | zero => exact sound site terminal known
  | succ passes inductionHypothesis =>
      rw [settle] at known
      split at known
      · exact sound site terminal known
      · exact inductionHypothesis
          (fun _ _ => arrives_of_mem_pass (fun _ member => member) sound) known

/-- With more passes than terminals can be added, the last one changes nothing. -/
theorem pass_settle [Std.TransCmp order] {alphabet : List T} (passes : Nat) {knowledge : Knowledge T}
    (within : knowledge.Within order alphabet)
    (enough : knowledge.length * alphabet.length < passes + knowledge.size) :
    (knowledge.settle order links passes).1.pass order links =
      (knowledge.settle order links passes).1 := by
  induction passes generalizing knowledge with
  | zero =>
      have bounded := within.size_le
      omega
  | succ passes inductionHypothesis =>
      rw [settle]
      split
      · next stable => exact stable
      · next unstable =>
          have grows := (pass_eq_or_size_lt knowledge).resolve_left unstable
          have sameLength : (knowledge.pass order links).length = knowledge.length := by
            have sameSites := congrArg List.length (sites_pass order links knowledge)
            simpa [sites] using sameSites
          exact inductionHypothesis within.pass (by rw [sameLength]; omega)

/-- What is settled on is what arrives. -/
theorem mem_settle_iff [Std.TransCmp order] {alphabet : List T} {passes : Nat}
    {knowledge : Knowledge T} (within : knowledge.Within order alphabet)
    (enough : knowledge.length * alphabet.length < passes + knowledge.size)
    (kept : ∀ link ∈ links, link.target ∈ knowledge.sites) {site : Site} {terminal : T} :
    terminal ∈ (knowledge.settle order links passes).1.known site ↔
      Arrives links knowledge site terminal := by
  constructor
  · exact arrives_of_mem_settle passes fun _ _ => .known
  · intro arrives
    induction arrives with
    | known known => exact known_subset_settle passes known
    | follows member _ inductionHypothesis =>
        rw [← pass_settle passes within enough]
        exact mem_known_pass_target member (by rw [sites_settle]; exact kept _ member)
          inductionHypothesis

end Knowledge

end ShiftReduce
