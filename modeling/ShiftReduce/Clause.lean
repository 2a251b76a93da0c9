import ShiftReduce.Exploration

/-!
Contract: forward chaining over clauses with one conclusion and a list of premises.

Owns: `consequences`, the values that follow from a list of clauses, the relation `Follows` it
decides, and the proof that one round for each clause is enough.

Which nonterminals derive the empty string is such a question: a rule whose right side holds only
nonterminals is a clause, and its left side follows once they all do.
-/

namespace ShiftReduce

/-- The conclusion holds once every premise does. -/
structure Clause (α : Type) where
  conclusion : α
  premises : List α

namespace Clause

variable {α : Type} [DecidableEq α]

/-- What is known, followed by the new conclusions of the clauses whose premises are known. -/
def fire (clauses : List (Clause α)) (known : List α) : List α :=
  Exploration.addFresh known
    ((clauses.filter fun clause => clause.premises.all (· ∈ known)).map conclusion)

/-- Fires all clauses a number of times. -/
def fireTimes (clauses : List (Clause α)) : Nat → List α → List α
  | 0, known => known
  | rounds + 1, known => fireTimes clauses rounds (fire clauses known)

/-- Everything that follows from the clauses, each value once. -/
def consequences (clauses : List (Clause α)) : List α :=
  fireTimes clauses clauses.length []

/-- A value follows if some clause concludes it from premises that follow. -/
inductive Follows (clauses : List (Clause α)) : α → Prop where
  | intro {clause : Clause α} (member : clause ∈ clauses)
      (premises : ∀ premise ∈ clause.premises, Follows clauses premise) :
      Follows clauses clause.conclusion

private theorem mem_fire {clauses : List (Clause α)} {known : List α} {value : α} :
    value ∈ fire clauses known ↔ value ∈ known ∨
      ∃ clause ∈ clauses, (∀ premise ∈ clause.premises, premise ∈ known) ∧
        clause.conclusion = value := by
  simp [fire, Exploration.mem_addFresh, and_assoc]

private theorem follows_of_mem_fireTimes {clauses : List (Clause α)} (rounds : Nat)
    {known : List α} (sound : ∀ value ∈ known, Follows clauses value) :
    ∀ value ∈ fireTimes clauses rounds known, Follows clauses value := by
  induction rounds generalizing known with
  | zero => exact sound
  | succ rounds inductionHypothesis =>
      refine inductionHypothesis fun value fired => ?_
      rcases mem_fire.mp fired with old | ⟨clause, member, premises, rfl⟩
      · exact sound value old
      · exact .intro member fun premise inPremises => sound premise (premises premise inPremises)

private theorem fireTimes_of_fire_eq {clauses : List (Clause α)} {known : List α}
    (stable : fire clauses known = known) (rounds : Nat) :
    fireTimes clauses rounds known = known := by
  induction rounds with
  | zero => rfl
  | succ rounds inductionHypothesis => rw [fireTimes, stable, inductionHypothesis]

/-- A round that changes something adds a conclusion, and there are at most as many conclusions as
clauses, so the rounds that are left suffice to reach a list that firing leaves alone. -/
private theorem fire_fireTimes {clauses : List (Clause α)} (rounds : Nat) {known : List α}
    (nodup : known.Nodup) (concluded : ∀ value ∈ known, value ∈ clauses.map conclusion)
    (enough : clauses.length ≤ rounds + known.length) :
    fire clauses (fireTimes clauses rounds known) = fireTimes clauses rounds known := by
  have firedNodup : (fire clauses known).Nodup := Exploration.nodup_addFresh nodup
  have firedConcluded : ∀ value ∈ fire clauses known, value ∈ clauses.map conclusion := by
    intro value fired
    rcases mem_fire.mp fired with old | ⟨clause, member, _, rfl⟩
    · exact concluded value old
    · exact List.mem_map.mpr ⟨clause, member, rfl⟩
  have grows : known <+: fire clauses known := Exploration.prefix_addFresh known _
  induction rounds generalizing known with
  | zero =>
      have bounded : (fire clauses known).length ≤ (clauses.map conclusion).length :=
        firedNodup.length_le_of_subset fun _ => firedConcluded _
      rw [List.length_map] at bounded
      exact (grows.eq_of_length_le (by omega)).symm
  | succ rounds inductionHypothesis =>
      by_cases stable : fire clauses known = known
      · rw [fireTimes_of_fire_eq stable, stable]
      · have longer : known.length < (fire clauses known).length := by
          refine Nat.lt_of_not_le fun notLonger => stable ?_
          exact (grows.eq_of_length_le notLonger).symm
        rw [fireTimes]
        refine inductionHypothesis firedNodup firedConcluded (by omega)
          (Exploration.nodup_addFresh firedNodup) ?_ (Exploration.prefix_addFresh _ _)
        intro value fired
        rcases mem_fire.mp fired with old | ⟨clause, member, _, rfl⟩
        · exact firedConcluded value old
        · exact List.mem_map.mpr ⟨clause, member, rfl⟩

theorem mem_consequences_iff {clauses : List (Clause α)} {value : α} :
    value ∈ consequences clauses ↔ Follows clauses value := by
  have nothingKnown : ∀ known ∈ ([] : List α), Follows clauses known := fun _ known => nomatch known
  refine ⟨follows_of_mem_fireTimes clauses.length nothingKnown value, fun follows => ?_⟩
  have stable : fire clauses (consequences clauses) = consequences clauses :=
    fire_fireTimes clauses.length List.nodup_nil (fun _ known => nomatch known) (by simp)
  induction follows with
  | intro member _ inductionHypothesis =>
      rw [← stable]
      exact mem_fire.mpr (.inr ⟨_, member, inductionHypothesis, rfl⟩)

end Clause

end ShiftReduce
