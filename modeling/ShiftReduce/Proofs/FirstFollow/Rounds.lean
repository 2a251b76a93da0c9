import Mathlib.Algebra.GroupWithZero.Nat
import Mathlib.Algebra.Order.BigOperators.Group.List
import Mathlib.Algebra.Order.Group.Nat
import ShiftReduce.Proofs.Intake
import ShiftReduce.Proofs.Lookahead.Knowledge
import ShiftReduce.Proofs.Vanishing
import ShiftReduce.Study

/-!
Contract: nullability and FIRST by rounds over the rules.

Owns: `absorb`, by which the cells of a left side take in what the cells say of the right side; a
round over all rules, each of which sees what those before it have changed; `Settles`, the
repetition of rounds until one changes nothing; and the theorem that this ends, from empty cells,
with sets that are exact on all strings of listed nonterminals, as those of a study are.

A rule that changes a cell makes the cells weigh more, and they can weigh no more than every
nonterminal with every terminal. What rounds leave alone is complete by induction on how a string
vanishes or begins.
-/

namespace ShiftReduce

variable {T N : Type}

namespace FirstFollow

/-- Nothing is known of any nonterminal yet. -/
def blank (vocabulary : Vocabulary T N) : FirstFollow T N where
  vocabulary := vocabulary
  nullableCells := Array.replicate vocabulary.nonterminals.size false
  firstCells := Array.replicate vocabulary.nonterminals.size []
  followCells := #[]

/-- FIRST of the left side with what is known of FIRST of the right side. -/
def enriched (sets : FirstFollow T N) (rule : Rule T N) : List T :=
  Ascending.union sets.vocabulary.terminals.order (sets.first rule.lhs) (sets.firstOf rule.rhs).1

/-- The cells of the left side take in what is known of the right side. -/
def absorb (sets : FirstFollow T N) (rule : Rule T N) : FirstFollow T N :=
  let (terminals, nullable) := sets.firstOf rule.rhs
  { sets with
    nullableCells := sets.nullableCells.modify (sets.cell rule.lhs) (· || nullable)
    firstCells := sets.firstCells.modify (sets.cell rule.lhs) fun known =>
      Ascending.union sets.vocabulary.terminals.order known terminals }

/-- Absorbing the rule makes FIRST of its left side longer, or the left side nullable. -/
def gains (sets : FirstFollow T N) (rule : Rule T N) : Bool :=
  (sets.enriched rule).length != (sets.first rule.lhs).length ||
    (sets.firstOf rule.rhs).2 && !sets.isNullable rule.lhs

/-- Absorbs the rules one after the other, and notes whether one of them gains something. -/
def round (sets : FirstFollow T N) : List (Rule T N) → FirstFollow T N × Bool
  | [] => (sets, false)
  | rule :: rest =>
      let (settled, changed) := (sets.absorb rule).round rest
      (settled, sets.gains rule || changed)

/-- Rounds are repeated as long as the last one has changed something. -/
inductive Settles (rules : List (Rule T N)) : FirstFollow T N → FirstFollow T N → Prop where
  | done {sets : FirstFollow T N} (unchanged : (sets.round rules).2 = false) :
      Settles rules sets (sets.round rules).1
  | again {sets result : FirstFollow T N} (changed : (sets.round rules).2 = true)
      (settles : Settles rules (sets.round rules).1 result) : Settles rules sets result

/-! ## Cells -/

/-- Another value in one cell leaves the others alone. -/
private theorem getD_modify {α : Type} {cells : Array α} {target position : Nat} {change : α → α}
    {default : α} (bound : position < cells.size) :
    (cells.modify target change).getD position default =
      if target = position then change (cells.getD position default)
      else cells.getD position default := by
  rw [Array.getD_eq_getD_getElem?, Array.getElem?_modify, Array.getD_eq_getD_getElem?,
    Array.getElem?_eq_getElem bound]
  split
  · rfl
  · rfl

theorem getD_replicate {α : Type} (count position : Nat) (value : α) :
    (Array.replicate count value).getD position value = value := by
  rw [Array.getD_eq_getD_getElem?, Array.getElem?_replicate]
  split
  · rfl
  · rfl

/-- A change that keeps the value of its cell keeps all cells. -/
theorem modify_eq_self {α : Type} {cells : Array α} {target : Nat} {change : α → α}
    (keeps : ∀ value, cells[target]? = some value → change value = value) :
    cells.modify target change = cells := by
  apply Array.ext_getElem?
  intro position
  rw [Array.getElem?_modify]
  split
  · next same =>
      subst same
      cases found : cells[target]? with
      | none => rfl
      | some value => exact congrArg some (keeps value found)
  · rfl

/-! ## One rule -/

variable {sets : FirstFollow T N} {grammar : Grammar T N} {rule : Rule T N}

/-- Cells are told apart by the nonterminals they are for. -/
theorem getD_modify_cell [DecidableEq N] {α : Type} {cells : Array α} {change : α → α} {default : α}
    (same : sets.vocabulary = grammar.vocabulary)
    (sized : cells.size = grammar.vocabulary.nonterminals.size) {target nonterminal : N}
    (targetListed : grammar.vocabulary.nonterminals.Lists target)
    (listed : grammar.vocabulary.nonterminals.Lists nonterminal) :
    (cells.modify (sets.cell target) change).getD (sets.cell nonterminal) default =
      if nonterminal = target then change (cells.getD (sets.cell nonterminal) default)
      else cells.getD (sets.cell nonterminal) default := by
  have bound : sets.cell nonterminal < cells.size := by
    rw [sized, cell, same]
    exact listed.index_lt
  have sameCell : sets.cell target = sets.cell nonterminal ↔ nonterminal = target := by
    rw [cell, cell, same, eq_comm]
    exact listed.index_eq_iff targetListed
  rw [getD_modify bound, if_congr sameCell rfl rfl]

/-- The cells hold ascending sets of things that are so. -/
structure IsSound (sets : FirstFollow T N) (grammar : Grammar T N) : Prop where
  vocabulary_eq : sets.vocabulary = grammar.vocabulary
  nullable_size : sets.nullableCells.size = grammar.vocabulary.nonterminals.size
  first_size : sets.firstCells.size = grammar.vocabulary.nonterminals.size
  vanishes : ∀ nonterminal, grammar.vocabulary.nonterminals.Lists nonterminal →
    sets.isNullable nonterminal = true → grammar.Vanishes [.nonterminal nonterminal]
  begins : ∀ nonterminal terminal, grammar.vocabulary.nonterminals.Lists nonterminal →
    terminal ∈ sets.first nonterminal → grammar.Begins terminal [.nonterminal nonterminal]
  ascending : ∀ nonterminal, grammar.vocabulary.nonterminals.Lists nonterminal →
    Ascending.IsAscending grammar.vocabulary.terminals.order (sets.first nonterminal)

theorem isNullable_blank (vocabulary : Vocabulary T N) (nonterminal : N) :
    (blank vocabulary).isNullable nonterminal = false :=
  getD_replicate _ _ _

theorem first_blank (vocabulary : Vocabulary T N) (nonterminal : N) :
    (blank vocabulary).first nonterminal = [] :=
  getD_replicate _ _ _

theorem isSound_blank : (blank grammar.vocabulary).IsSound grammar where
  vocabulary_eq := rfl
  nullable_size := Array.size_replicate
  first_size := Array.size_replicate
  vanishes nonterminal _ nullable := by
    rw [isNullable_blank] at nullable
    cases nullable
  begins nonterminal terminal _ member := by
    rw [first_blank] at member
    cases member
  ascending nonterminal _ := by
    rw [first_blank]
    exact List.Pairwise.nil

/-- What the cells say of a string follows from what they say of its nonterminals. -/
theorem IsSound.firstOf (sound : sets.IsSound grammar) {symbols : List (Symbol T N)}
    (listed : ∀ nonterminal, .nonterminal nonterminal ∈ symbols →
      grammar.vocabulary.nonterminals.Lists nonterminal) :
    ((sets.firstOf symbols).2 = true → grammar.Vanishes symbols) ∧
      ∀ terminal ∈ (sets.firstOf symbols).1, grammar.Begins terminal symbols := by
  induction symbols with
  | nil => exact ⟨fun _ => .nil, fun _ impossible => nomatch impossible⟩
  | cons symbol rest inductionHypothesis =>
      obtain ⟨restVanishes, restBegins⟩ := inductionHypothesis fun other occurs =>
        listed other (List.mem_cons_of_mem _ occurs)
      cases symbol with
      | terminal letter =>
          constructor
          · intro impossible
            cases impossible
          · intro terminal opening
            rw [List.mem_singleton.mp opening]
            exact .here rest
      | nonterminal letter =>
          have letterListed := listed letter List.mem_cons_self
          have ofLetter : ∀ terminal ∈ sets.first letter,
              grammar.Begins terminal (.nonterminal letter :: rest) := fun terminal member =>
            (@Grammar.begins_append_iff T N grammar terminal [_] rest).mpr
              (.inl (sound.begins letter terminal letterListed member))
          rw [FirstFollow.firstOf]
          split
          · next nullable =>
              have vanishes := sound.vanishes letter letterListed nullable
              refine ⟨fun restNullable => (@Grammar.vanishes_append_iff T N grammar [_] rest).mpr
                ⟨vanishes, restVanishes restNullable⟩, fun terminal member => ?_⟩
              rcases Ascending.mem_union.mp member with inFirst | behind
              · exact ofLetter terminal inFirst
              · exact .behind vanishes (restBegins terminal behind)
          · constructor
            · intro impossible
              cases impossible
            · exact ofLetter

theorem ascending_firstOf
    (ascending : ∀ nonterminal, grammar.vocabulary.nonterminals.Lists nonterminal →
      Ascending.IsAscending grammar.vocabulary.terminals.order (sets.first nonterminal))
    (same : sets.vocabulary = grammar.vocabulary) {symbols : List (Symbol T N)}
    (listed : ∀ nonterminal, .nonterminal nonterminal ∈ symbols →
      grammar.vocabulary.nonterminals.Lists nonterminal) :
    Ascending.IsAscending grammar.vocabulary.terminals.order (sets.firstOf symbols).1 := by
  cases symbols with
  | nil => exact List.Pairwise.nil
  | cons symbol rest =>
      cases symbol with
      | terminal letter => exact List.pairwise_singleton _ _
      | nonterminal letter =>
          have letterAscending := ascending letter (listed letter List.mem_cons_self)
          rw [FirstFollow.firstOf]
          split
          · rw [same]
            exact Ascending.isAscending_union letterAscending
          · exact letterAscending

section Absorbing

variable [DecidableEq N] (sound : sets.IsSound grammar) (member : rule ∈ grammar.rules)
  {nonterminal : N} (listed : grammar.vocabulary.nonterminals.Lists nonterminal)

include sound member listed

theorem IsSound.isNullable_absorb :
    (sets.absorb rule).isNullable nonterminal =
      if nonterminal = rule.lhs then sets.isNullable nonterminal || (sets.firstOf rule.rhs).2
      else sets.isNullable nonterminal :=
  getD_modify_cell sound.vocabulary_eq sound.nullable_size (grammar.lhs_listed rule member) listed

theorem IsSound.first_absorb :
    (sets.absorb rule).first nonterminal =
      if nonterminal = rule.lhs then sets.enriched rule else sets.first nonterminal := by
  have cell : (sets.absorb rule).first nonterminal = if nonterminal = rule.lhs then
      Ascending.union sets.vocabulary.terminals.order (sets.first nonterminal)
        (sets.firstOf rule.rhs).1
      else sets.first nonterminal :=
    getD_modify_cell sound.vocabulary_eq sound.first_size (grammar.lhs_listed rule member) listed
  rw [cell]
  split
  · next same => rw [enriched, ← same]
  · rfl

end Absorbing

theorem IsSound.absorb [DecidableEq N] (sound : sets.IsSound grammar)
    (member : rule ∈ grammar.rules) : (sets.absorb rule).IsSound grammar := by
  have rhsListed : ∀ nonterminal, .nonterminal nonterminal ∈ rule.rhs →
      grammar.vocabulary.nonterminals.Lists nonterminal := fun nonterminal occurs =>
    grammar.rhs_listed rule member (.nonterminal nonterminal) occurs
  obtain ⟨rhsVanishes, rhsBegins⟩ := sound.firstOf rhsListed
  refine ⟨sound.vocabulary_eq, ?_, ?_, ?_, ?_, ?_⟩
  · exact Array.size_modify.trans sound.nullable_size
  · exact Array.size_modify.trans sound.first_size
  · intro nonterminal listed nullable
    rw [sound.isNullable_absorb member listed] at nullable
    split at nullable
    · next same =>
        rcases Bool.or_eq_true_iff.mp nullable with known | added
        · exact sound.vanishes nonterminal listed known
        · exact same ▸ .cons member (rhsVanishes added) .nil
    · exact sound.vanishes nonterminal listed nullable
  · intro nonterminal terminal listed opening
    rw [sound.first_absorb member listed] at opening
    split at opening
    · next same =>
        rcases Ascending.mem_union.mp opening with known | added
        · exact sound.begins nonterminal terminal listed (same ▸ known)
        · exact same ▸ .inside member (rhsBegins terminal added) []
    · exact sound.begins nonterminal terminal listed opening
  · intro nonterminal listed
    rw [sound.first_absorb member listed]
    split
    · next same =>
        rw [enriched, sound.vocabulary_eq]
        exact Ascending.isAscending_union (same ▸ sound.ascending nonterminal listed)
    · exact sound.ascending nonterminal listed

/-- A rule that gains nothing leaves the cells as they are. -/
theorem absorb_eq_of_not_gains (stays : sets.gains rule = false) :
    sets.absorb rule = sets ∧ sets.enriched rule = sets.first rule.lhs ∧
      ((sets.firstOf rule.rhs).2 = true → sets.isNullable rule.lhs = true) := by
  obtain ⟨sameLength, nullableStays⟩ := Bool.or_eq_false_iff.mp stays
  have equal : (sets.enriched rule).length = (sets.first rule.lhs).length := by
    simpa using sameLength
  have firstStays : sets.enriched rule = sets.first rule.lhs :=
    Ascending.union_eq_of_length_eq _ equal
  have known : (sets.firstOf rule.rhs).2 = true → sets.isNullable rule.lhs = true := by
    intro added
    simpa [added] using nullableStays
  refine ⟨?_, firstStays, known⟩
  have nullableCells : sets.nullableCells.modify (sets.cell rule.lhs)
      (· || (sets.firstOf rule.rhs).2) = sets.nullableCells := by
    apply modify_eq_self
    intro nullable found
    rw [isNullable, Array.getD_eq_getD_getElem?, found] at known
    cases nullable with
    | true => rfl
    | false => simpa using known
  have firstCells : (sets.firstCells.modify (sets.cell rule.lhs) fun known =>
      Ascending.union sets.vocabulary.terminals.order known (sets.firstOf rule.rhs).1) =
        sets.firstCells := by
    apply modify_eq_self
    intro terminals found
    rw [enriched, first, Array.getD_eq_getD_getElem?, found] at firstStays
    exact firstStays
  show ({ sets with nullableCells := _, firstCells := _ } : FirstFollow T N) = sets
  rw [nullableCells, firstCells]

/-! ## Weight -/

/-- How much the cells say of the listed nonterminals. -/
def weight (sets : FirstFollow T N) : Nat :=
  (sets.vocabulary.nonterminals.all.map fun nonterminal =>
    (sets.isNullable nonterminal).toNat + (sets.first nonterminal).length).sum

theorem IsSound.first_subset (sound : sets.IsSound grammar) {nonterminal : N}
    (listed : grammar.vocabulary.nonterminals.Lists nonterminal) :
    sets.first nonterminal ⊆ grammar.vocabulary.terminals.all := by
  intro terminal opening
  have canBegin := (sound.begins nonterminal terminal listed opening).canBegin
  refine (canBegin.listed fun symbol single => ?_).mem
  rw [List.mem_singleton.mp single]
  exact listed

theorem IsSound.weight_le (sound : sets.IsSound grammar) :
    sets.weight ≤
      grammar.vocabulary.nonterminals.size * (1 + grammar.vocabulary.terminals.size) := by
  rw [weight, sound.vocabulary_eq]
  have bounded := List.sum_le_card_nsmul (grammar.vocabulary.nonterminals.all.map fun nonterminal =>
    (sets.isNullable nonterminal).toNat + (sets.first nonterminal).length)
    (1 + grammar.vocabulary.terminals.size) ?_
  · rwa [List.length_map] at bounded
  intro share isShare
  obtain ⟨nonterminal, isListed, rfl⟩ := List.mem_map.mp isShare
  have listed := grammar.nonterminals_listed nonterminal isListed
  have few : (sets.first nonterminal).length ≤ grammar.vocabulary.terminals.size :=
    (Ascending.nodup_of_isAscending (sound.ascending nonterminal listed)).length_le_of_subset
      (sound.first_subset listed)
  exact Nat.add_le_add (Bool.toNat_le _) few

variable [DecidableEq N]

/-- A rule that gains something makes the cells say more. -/
private theorem IsSound.weight_lt (sound : sets.IsSound grammar) (member : rule ∈ grammar.rules)
    (gains : sets.gains rule = true) : sets.weight < (sets.absorb rule).weight := by
  have longer : (sets.first rule.lhs).length ≤ (sets.enriched rule).length := by
    rcases Ascending.union_eq_or_length_lt sets.vocabulary.terminals.order
      (sets.first rule.lhs) (sets.firstOf rule.rhs).1 with same | longer
    · exact Nat.le_of_eq (congrArg List.length same).symm
    · exact Nat.le_of_lt longer
  have keeps : ∀ before added : Bool, before.toNat ≤ (before || added).toNat := by decide
  rw [weight, weight, show (sets.absorb rule).vocabulary = sets.vocabulary from rfl,
    sound.vocabulary_eq]
  apply List.sum_lt_sum
  · intro nonterminal isListed
    have listed := grammar.nonterminals_listed nonterminal isListed
    rw [sound.isNullable_absorb member listed, sound.first_absorb member listed]
    split
    · next same =>
        subst same
        exact Nat.add_le_add (keeps _ _) longer
    · exact Nat.le_refl _
  · have listed := grammar.lhs_listed rule member
    refine ⟨rule.lhs, listed.mem, ?_⟩
    rw [sound.isNullable_absorb member listed, sound.first_absorb member listed, if_pos rfl,
      if_pos rfl]
    rcases Bool.or_eq_true_iff.mp gains with more | vanishes
    · have differs : (sets.enriched rule).length ≠ (sets.first rule.lhs).length := by
        simpa using more
      have kept := keeps (sets.isNullable rule.lhs) (sets.firstOf rule.rhs).2
      omega
    · obtain ⟨added, fresh⟩ := Bool.and_eq_true_iff.mp vanishes
      rw [Bool.not_eq_true'] at fresh
      rw [added, fresh]
      show 0 + (sets.first rule.lhs).length < 1 + (sets.enriched rule).length
      omega

/-! ## Rounds -/

/-- The cells take in rules. -/
def filling : Intake (FirstFollow T N) (Rule T N) := ⟨absorb, gains⟩

omit [DecidableEq N] in
theorem round_eq (sets : FirstFollow T N) (rules : List (Rule T N)) :
    sets.round rules = filling.round sets rules := by
  induction rules generalizing sets with
  | nil => rfl
  | cons rule rest inductionHypothesis =>
      rw [round, inductionHypothesis]
      rfl

omit [DecidableEq N] in
theorem settles_iff_filling {rules : List (Rule T N)} {result : FirstFollow T N} :
    Settles rules sets result ↔ filling.Settles rules sets result := by
  constructor
  · intro settles
    induction settles with
    | done unchanged =>
        rw [round_eq] at unchanged ⊢
        exact .done unchanged
    | again changed _ inductionHypothesis =>
        rw [round_eq] at changed inductionHypothesis
        exact .again changed inductionHypothesis
  · intro settles
    induction settles with
    | done unchanged =>
        rw [← round_eq] at unchanged ⊢
        exact .done unchanged
    | again changed _ inductionHypothesis =>
        rw [← round_eq] at changed inductionHypothesis
        exact .again changed inductionHypothesis

/-- What the cells say stays so, and it grows by each gain until it is everything. -/
def fillingMeasure (grammar : Grammar T N) : filling.Measure grammar.rules.toList where
  Holds sets := sets.IsSound grammar
  weight := weight
  bound := grammar.vocabulary.nonterminals.size * (1 + grammar.vocabulary.terminals.size)
  holds_absorb _ _ member sound := sound.absorb (Array.mem_toList_iff.mp member)
  absorb_eq _ _ _ _ stays := (absorb_eq_of_not_gains stays).1
  weight_lt _ _ member sound gains := sound.weight_lt (Array.mem_toList_iff.mp member) gains
  weight_le _ sound := sound.weight_le

/-- What rounds from empty cells end with is sound, and no rule adds anything to it. -/
theorem isSound_of_settles
    (settles : Settles grammar.rules.toList (blank grammar.vocabulary) sets) :
    sets.IsSound grammar ∧ ∀ rule ∈ grammar.rules, sets.gains rule = false := by
  obtain ⟨sound, stays⟩ := (fillingMeasure grammar).of_settles isSound_blank
    (settles_iff_filling.mp settles)
  exact ⟨sound, fun rule member => stays rule (Array.mem_toList_iff.mpr member)⟩

/-- From empty cells the rounds end, with sound cells to which no rule adds anything. -/
theorem exists_settles_blank (grammar : Grammar T N) :
    ∃ result, Settles grammar.rules.toList (blank grammar.vocabulary) result ∧
      result.IsSound grammar ∧ ∀ rule ∈ grammar.rules, result.gains rule = false := by
  obtain ⟨result, settles⟩ := (fillingMeasure grammar).exists_settles isSound_blank
  have settles := settles_iff_filling.mpr settles
  exact ⟨result, settles, isSound_of_settles settles⟩

/-! ## What rounds leave alone -/

omit [DecidableEq N] in
theorem isNullable_of_vanishes (stays : ∀ rule ∈ grammar.rules, sets.gains rule = false)
    {symbols : List (Symbol T N)} (vanishes : grammar.Vanishes symbols) :
    (sets.firstOf symbols).2 = true := by
  induction vanishes with
  | nil => rfl
  | cons member _ _ insideHypothesis behindHypothesis =>
      have nullable := (absorb_eq_of_not_gains (stays _ member)).2.2 insideHypothesis
      rw [firstOf, if_pos nullable]
      exact behindHypothesis

omit [DecidableEq N] in
theorem mem_firstOf_cons {nonterminal : N} {rest : List (Symbol T N)} {terminal : T}
    (opening : terminal ∈ sets.first nonterminal) :
    terminal ∈ (sets.firstOf (.nonterminal nonterminal :: rest)).1 := by
  rw [firstOf]
  split
  · exact Ascending.mem_union.mpr (.inl opening)
  · exact opening

omit [DecidableEq N] in
theorem mem_firstOf_of_begins (stays : ∀ rule ∈ grammar.rules, sets.gains rule = false)
    {symbols : List (Symbol T N)} {terminal : T} (begins : grammar.Begins terminal symbols) :
    terminal ∈ (sets.firstOf symbols).1 := by
  induction begins with
  | here => exact List.mem_cons_self
  | inside member _ rest inductionHypothesis =>
      apply mem_firstOf_cons
      rw [← (absorb_eq_of_not_gains (stays _ member)).2.1]
      exact Ascending.mem_union.mpr (.inr inductionHypothesis)
  | behind vanishes _ inductionHypothesis =>
      cases vanishes with
      | cons member inside _ =>
          have nullable := (absorb_eq_of_not_gains (stays _ member)).2.2
            (isNullable_of_vanishes stays inside)
          rw [firstOf, if_pos nullable]
          exact Ascending.mem_union.mpr (.inr inductionHypothesis)

omit [DecidableEq N] in
theorem IsSound.describes (sound : sets.IsSound grammar)
    (stays : ∀ rule ∈ grammar.rules, sets.gains rule = false) : sets.Describes grammar where
  vocabulary_eq := sound.vocabulary_eq
  isNullable_iff nonterminal listed := by
    constructor
    · intro nullable
      exact (sound.vanishes nonterminal listed nullable).derives
    · intro derives
      have nullable := isNullable_of_vanishes stays (Grammar.vanishes_iff.mpr derives)
      by_contra notNullable
      rw [FirstFollow.firstOf, if_neg notNullable] at nullable
      cases nullable
  mem_first_iff nonterminal terminal listed := by
    constructor
    · intro opening
      exact (sound.begins nonterminal terminal listed opening).canBegin
    · intro canBegin
      have opening := mem_firstOf_of_begins stays canBegin.begins
      rw [FirstFollow.firstOf] at opening
      split at opening
      · exact (Ascending.mem_union.mp opening).resolve_right List.not_mem_nil
      · exact opening

/-! ## Exact sets -/

omit [DecidableEq N]

/-- What the sets say of strings is what the grammar derives from them, and what they say of a
nonterminal is what they say of the string that it makes up. -/
structure IsExact (sets : FirstFollow T N) (grammar : Grammar T N) : Prop where
  firstOf? : ∀ symbols : List (Symbol T N),
    (∀ nonterminal, .nonterminal nonterminal ∈ symbols →
      nonterminal ∈ grammar.vocabulary.nonterminals.all) →
    ∃ terminals nullable, sets.firstOf? symbols = some (terminals, nullable) ∧
      Ascending.IsAscending grammar.vocabulary.terminals.order terminals ∧
      (nullable = true ↔ grammar.Derives symbols []) ∧
      ∀ terminal, terminal ∈ terminals ↔ grammar.CanBegin symbols terminal
  isNullable? : ∀ nonterminal, sets.isNullable? nonterminal =
    (sets.firstOf? [.nonterminal nonterminal]).map Prod.snd
  first? : ∀ nonterminal, sets.first? nonterminal =
    (sets.firstOf? [.nonterminal nonterminal]).map Prod.fst

theorem covers_of_hasCell {symbols : List (Symbol T N)}
    (cells : ∀ nonterminal, .nonterminal nonterminal ∈ symbols → sets.hasCell nonterminal = true) :
    sets.covers symbols = true := by
  induction symbols with
  | nil => rfl
  | cons symbol rest inductionHypothesis =>
      cases symbol with
      | terminal letter => rfl
      | nonterminal letter =>
          have restCovered := inductionHypothesis fun other occurs =>
            cells other (List.mem_cons_of_mem _ occurs)
          rw [covers, cells letter List.mem_cons_self, restCovered, Bool.or_true, Bool.and_true]

theorem covers_singleton (nonterminal : N) :
    sets.covers [.nonterminal nonterminal] = sets.hasCell nonterminal := by
  rw [covers, covers, Bool.or_true, Bool.and_true]

theorem firstOf_singleton (nonterminal : N) :
    sets.firstOf [.nonterminal nonterminal] =
      (sets.first nonterminal, sets.isNullable nonterminal) := by
  rw [firstOf]
  split
  · next nullable =>
      rw [nullable]
      rfl
  · next notNullable => rw [Bool.eq_false_iff.mpr notNullable]

theorem Describes.isExact (describes : sets.Describes grammar)
    (sized : sets.nullableCells.size = grammar.vocabulary.nonterminals.size)
    (ascending : ∀ nonterminal, grammar.vocabulary.nonterminals.Lists nonterminal →
      Ascending.IsAscending grammar.vocabulary.terminals.order (sets.first nonterminal)) :
    sets.IsExact grammar where
  firstOf? symbols isListed := by
    have listed : ∀ nonterminal, .nonterminal nonterminal ∈ symbols →
        grammar.vocabulary.nonterminals.Lists nonterminal := fun nonterminal occurs =>
      grammar.nonterminals_listed nonterminal (isListed nonterminal occurs)
    have covered : sets.covers symbols = true := by
      apply covers_of_hasCell
      intro nonterminal occurs
      exact hasCell_of_listed describes.vocabulary_eq sized (listed nonterminal occurs)
    obtain ⟨nullable, opening⟩ := describes.firstOf_iff_of_nonterminals listed
    exact ⟨_, _, if_pos covered, ascending_firstOf ascending describes.vocabulary_eq listed,
      nullable, opening⟩
  isNullable? nonterminal := by
    rw [FirstFollow.isNullable?, FirstFollow.firstOf?, covers_singleton, firstOf_singleton]
    split
    · rfl
    · rfl
  first? nonterminal := by
    rw [FirstFollow.first?, FirstFollow.firstOf?, covers_singleton, firstOf_singleton]
    split
    · rfl
    · rfl

end FirstFollow

namespace Grammar

variable [DecidableEq T] [DecidableEq N]

theorem firstFollow_isExact (grammar : Grammar T N) : grammar.firstFollow.IsExact grammar := by
  refine firstFollow_describes.isExact ?_ fun nonterminal listed => ?_
  · exact Array.size_map.trans List.size_toArray
  · have cell : grammar.firstFollow.first nonterminal =
        grammar.firstSet grammar.nullables nonterminal :=
      listed.getD_map (grammar.firstSet grammar.nullables) []
    rw [cell]
    exact Ascending.isAscending_ofList _

/-- Rounds over the rules end, and both the sets that they end with and those of a study say of each
string of listed nonterminals, and any terminals, whether it derives the empty string and which
terminals it derives in front. -/
theorem exists_settles_isExact (grammar : Grammar T N) :
    ∃ result, FirstFollow.Settles grammar.rules.toList (.blank grammar.vocabulary) result ∧
      result.IsExact grammar ∧ grammar.study.firstFollow.get.IsExact grammar := by
  obtain ⟨result, settles, sound, stays⟩ := FirstFollow.exists_settles_blank grammar
  have exact := (sound.describes stays).isExact sound.nullable_size sound.ascending
  refine ⟨result, settles, exact, ?_⟩
  have study : grammar.study.firstFollow.get = grammar.firstFollow := by
    simp only [Grammar.study, Thunk.get]
  rw [study]
  exact grammar.firstFollow_isExact

end Grammar

end ShiftReduce
