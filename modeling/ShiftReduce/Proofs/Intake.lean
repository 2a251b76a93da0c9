/-!
Contract: rounds that take items in until nothing changes any more.

Owns: `Intake`, a way to take one item into a state together with the note of whether this changes
the state; rounds over a list of items, each of which meets what those before it have changed;
`Settles`, the repetition of rounds until one changes nothing; and the theorem that rounds settle
where each change adds to a weight that cannot pass a bound (`Intake.Measure`).

Does not own: any particular state. Rounds over rules fill the cells of FIRST, and rounds over the
places of nonterminals in rules fill those of FOLLOW.
-/

namespace ShiftReduce

/-- How items are taken into a state. -/
structure Intake (State Item : Type) where
  absorb : State → Item → State
  /-- Whether the item changes the state. -/
  gains : State → Item → Bool

namespace Intake

variable {State Item : Type} {intake : Intake State Item} {items : List Item} {state : State}

/-- Takes the items in one after the other, and notes whether one of them changes something. -/
def round (intake : Intake State Item) (state : State) : List Item → State × Bool
  | [] => (state, false)
  | item :: rest =>
      let (settled, changed) := intake.round (intake.absorb state item) rest
      (settled, intake.gains state item || changed)

/-- Rounds are repeated as long as the last one has changed something. -/
inductive Settles (intake : Intake State Item) (items : List Item) : State → State → Prop where
  | done {state : State} (unchanged : (intake.round state items).2 = false) :
      Settles intake items state (intake.round state items).1
  | again {state result : State} (changed : (intake.round state items).2 = true)
      (settles : Settles intake items (intake.round state items).1 result) :
      Settles intake items state result

/-- The states that rounds pass through, and all others that the items can lead to. -/
inductive Visits (intake : Intake State Item) (items : List Item) (start : State) :
    State → Prop where
  | start : Visits intake items start start
  | absorb {state : State} {item : Item} (visits : Visits intake items start state)
      (member : item ∈ items) : Visits intake items start (intake.absorb state item)

/-- A property that absorbing keeps, and a weight that every gain adds to, up to a bound. -/
structure Measure (intake : Intake State Item) (items : List Item) where
  Holds : State → Prop
  weight : State → Nat
  bound : Nat
  holds_absorb : ∀ state, ∀ item ∈ items, Holds state → Holds (intake.absorb state item)
  absorb_eq : ∀ state, ∀ item ∈ items, Holds state → intake.gains state item = false →
    intake.absorb state item = state
  weight_lt : ∀ state, ∀ item ∈ items, Holds state → intake.gains state item = true →
    weight state < weight (intake.absorb state item)
  weight_le : ∀ state, Holds state → weight state ≤ bound

namespace Measure

variable (measure : intake.Measure items) {rest : List Item}

theorem holds_of_visits {start : State} (holds : measure.Holds start)
    (visits : intake.Visits items start state) : measure.Holds state := by
  induction visits with
  | start => exact holds
  | absorb _ member inductionHypothesis =>
      exact measure.holds_absorb _ _ member inductionHypothesis

theorem holds_round (members : ∀ item ∈ rest, item ∈ items) (holds : measure.Holds state) :
    measure.Holds (intake.round state rest).1 := by
  induction rest generalizing state with
  | nil => exact holds
  | cons item rest inductionHypothesis =>
      obtain ⟨member, restMembers⟩ := List.forall_mem_cons.mp members
      exact inductionHypothesis restMembers (measure.holds_absorb state item member holds)

/-- A round adds to the weight if one of its items does. -/
theorem weight_round (members : ∀ item ∈ rest, item ∈ items) (holds : measure.Holds state) :
    measure.weight state + (intake.round state rest).2.toNat ≤
      measure.weight (intake.round state rest).1 := by
  induction rest generalizing state with
  | nil => exact Nat.le_refl _
  | cons item rest inductionHypothesis =>
      obtain ⟨member, restMembers⟩ := List.forall_mem_cons.mp members
      have restWeight :=
        inductionHypothesis restMembers (measure.holds_absorb state item member holds)
      show measure.weight state +
          (intake.gains state item || (intake.round (intake.absorb state item) rest).2).toNat ≤
        measure.weight (intake.round (intake.absorb state item) rest).1
      cases gains : intake.gains state item with
      | false =>
          have same := measure.absorb_eq state item member holds gains
          rw [same] at restWeight
          rwa [same, Bool.false_or]
      | true =>
          have heavier := measure.weight_lt state item member holds gains
          rw [Bool.true_or, Bool.toNat_true]
          omega

/-- A round without any change consists of items that change nothing. -/
theorem round_of_unchanged (members : ∀ item ∈ rest, item ∈ items) (holds : measure.Holds state)
    (unchanged : (intake.round state rest).2 = false) :
    (intake.round state rest).1 = state ∧ ∀ item ∈ rest, intake.gains state item = false := by
  induction rest with
  | nil => exact ⟨rfl, fun _ impossible => nomatch impossible⟩
  | cons item rest inductionHypothesis =>
      obtain ⟨member, restMembers⟩ := List.forall_mem_cons.mp members
      obtain ⟨stays, restUnchanged⟩ := Bool.or_eq_false_iff.mp unchanged
      have same := measure.absorb_eq state item member holds stays
      rw [same] at restUnchanged
      obtain ⟨restSame, restStays⟩ := inductionHypothesis restMembers restUnchanged
      refine ⟨?_, List.forall_mem_cons.mpr ⟨stays, restStays⟩⟩
      show (intake.round (intake.absorb state item) rest).1 = state
      rw [same, restSame]

/-- Where rounds settle, no item changes anything any more. -/
theorem of_settles {result : State} (holds : measure.Holds state)
    (settles : intake.Settles items state result) :
    measure.Holds result ∧ ∀ item ∈ items, intake.gains result item = false := by
  induction settles with
  | done unchanged =>
      obtain ⟨same, stays⟩ := measure.round_of_unchanged (fun _ member => member) holds unchanged
      rw [same]
      exact ⟨holds, stays⟩
  | again _ _ inductionHypothesis =>
      exact inductionHypothesis (measure.holds_round (fun _ member => member) holds)

/-- Rounds settle. The induction is on how much weight can still be added. -/
theorem exists_settles (holds : measure.Holds state) :
    ∃ result, intake.Settles items state result := by
  induction room : measure.bound - measure.weight state using Nat.strongRecOn
    generalizing state with
  | ind room inductionHypothesis =>
      have roundHolds := measure.holds_round (fun _ member => member) holds
      have roundWeight := measure.weight_round (fun _ member => member) holds
      cases changed : (intake.round state items).2 with
      | false => exact ⟨_, .done changed⟩
      | true =>
          have full := measure.weight_le _ roundHolds
          rw [changed, Bool.toNat_true] at roundWeight
          obtain ⟨result, settles⟩ := inductionHypothesis _ (by omega) roundHolds rfl
          exact ⟨result, .again changed settles⟩

end Measure

end Intake

end ShiftReduce
