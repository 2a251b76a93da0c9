import ShiftReduce.Proofs.FirstFollow.Follow

/-!
Contract: FOLLOW is derivability of a terminal behind a nonterminal.

Owns: `StandsBefore` and `Closes`, by which a nonterminal comes to stand right before a terminal, or
at the end of what the start symbol derives; and their agreement with FOLLOW.

One way, a derivation is followed expansion by expansion: in each form, FOLLOW of every nonterminal
has what can come next to it (`Covers`). The other way, a host is a nonterminal that derives a form
with the hosted one at its end.
-/

namespace ShiftReduce

namespace Grammar

variable {T N : Type}

/-- Some defined nonterminal derives a form in which the nonterminal stands right before the
terminal. -/
def StandsBefore (grammar : Grammar T N) (nonterminal : N) (terminal : T) : Prop :=
  ∃ origin ∈ grammar.defined, ∃ before behind, grammar.Derives [.nonterminal origin]
    (before ++ .nonterminal nonterminal :: .terminal terminal :: behind)

/-- The start symbol derives a form that ends in the nonterminal. -/
def Closes (grammar : Grammar T N) (nonterminal : N) : Prop :=
  ∃ before, grammar.Derives [.nonterminal grammar.start] (before ++ [.nonterminal nonterminal])

/-! ## What comes next in a form -/

/-- The terminal comes next where the symbols stand: they begin with it, or they vanish and it is
one of those behind the form. -/
def ComesNext (grammar : Grammar T N) (beyond : T → Prop) (symbols : List (Symbol T N))
    (terminal : T) : Prop :=
  grammar.CanBegin symbols terminal ∨ grammar.Derives symbols [] ∧ beyond terminal

variable {grammar : Grammar T N} {beyond : T → Prop} {terminal : T}

theorem ComesNext.of_derives {first second : List (Symbol T N)}
    (derives : grammar.Derives first second) (next : grammar.ComesNext beyond second terminal) :
    grammar.ComesNext beyond first terminal := by
  rcases next with begins | ⟨vanishes, isBeyond⟩
  · exact .inl (begins.of_derives derives)
  · exact .inr ⟨derives.trans vanishes, isBeyond⟩

theorem comesNext_append_iff {left right : List (Symbol T N)} :
    grammar.ComesNext beyond (left ++ right) terminal ↔
      grammar.ComesNext (grammar.ComesNext beyond right) left terminal := by
  rw [ComesNext, ComesNext, ComesNext, canBegin_append_iff, derives_append_nil_iff, and_or_left,
    or_assoc, and_assoc]

/-- An occurrence in two strings side by side is one in the first of them or in the second. -/
private theorem occurrence_append {α : Type} {left right before behind : List α} {member : α}
    (spelled : left ++ right = before ++ member :: behind) :
    (∃ between, left = before ++ member :: between ∧ behind = between ++ right) ∨
      ∃ between, right = between ++ member :: behind := by
  rcases List.append_eq_append_iff.mp spelled with ⟨between, _, inRight⟩ | ⟨between, inLeft, rest⟩
  · exact .inr ⟨between, inRight⟩
  · cases between with
    | nil => exact .inr ⟨[], rest.symm⟩
    | cons head tail =>
        obtain ⟨rfl, rfl⟩ := List.cons.inj rest
        exact .inl ⟨tail, inLeft, rfl⟩

/-- No right side brings the end marker in. -/
theorem Derives.endMarker_not_mem {first second : List (Symbol T N)}
    (derives : grammar.Derives first second)
    (unused : .terminal grammar.vocabulary.endMarker ∉ first) :
    .terminal grammar.vocabulary.endMarker ∉ second := by
  induction derives with
  | refl => exact unused
  | head expands _ inductionHypothesis =>
      apply inductionHypothesis
      cases expands with
      | intro member before behind =>
          have ruleUnused := grammar.endMarker_unused _ member
          simp only [List.mem_append, List.mem_cons, not_or] at unused ⊢
          exact ⟨⟨unused.1, ruleUnused⟩, unused.2.2⟩

variable [DecidableEq T] [DecidableEq N]

/-- FOLLOW of each nonterminal of the form has what comes next to it. -/
def Covers (grammar : Grammar T N) (beyond : T → Prop) (form : List (Symbol T N)) : Prop :=
  ∀ before nonterminal behind, form = before ++ .nonterminal nonterminal :: behind →
    ∀ terminal, grammar.ComesNext beyond behind terminal →
      terminal ∈ grammar.firstFollow.follow nonterminal

/-- A nonterminal of the new form stands in front of the expanded one, in the rule that has taken
its place, or behind it. -/
theorem Covers.of_expands {first second : List (Symbol T N)} (covers : grammar.Covers beyond first)
    (expands : grammar.Expands first second) : grammar.Covers beyond second := by
  intro front nonterminal rest spelled terminal next
  cases expands with
  | @intro rule member before behind =>
      rw [List.append_assoc] at spelled
      rcases occurrence_append spelled with ⟨between, inBefore, rfl⟩ | ⟨_, spelled⟩
      · -- What comes next in the new form came next in the old one, which derives it.
        have restored : grammar.Derives (between ++ .nonterminal rule.lhs :: behind)
            (between ++ (rule.rhs ++ behind)) := by
          rw [← List.append_assoc]
          exact .of_expands (.intro member between behind)
        refine covers front nonterminal _ ?_ terminal (next.of_derives restored)
        rw [inBefore, List.append_assoc, List.cons_append]
      · rcases occurrence_append spelled with ⟨between, inRule, rfl⟩ | ⟨between, inBehind⟩
        · rcases comesNext_append_iff.mp next with begins | ⟨vanishes, nextBehind⟩
          · exact mem_follow_of_canBegin member inRule begins
          · -- The rest of the rule vanishes, so what comes next to the left side comes next here.
            exact follow_lhs_subset member inRule vanishes
              (covers before rule.lhs behind rfl terminal nextBehind)
        · refine covers (before ++ .nonterminal rule.lhs :: between) nonterminal rest ?_ terminal
            next
          rw [inBehind, List.append_assoc, List.cons_append]

theorem Covers.of_derives {first second : List (Symbol T N)} (covers : grammar.Covers beyond first)
    (derives : grammar.Derives first second) : grammar.Covers beyond second := by
  induction derives with
  | refl => exact covers
  | head expands _ inductionHypothesis => exact inductionHypothesis (covers.of_expands expands)

theorem covers_nonterminal {origin : N}
    (follows : ∀ terminal, beyond terminal → terminal ∈ grammar.firstFollow.follow origin) :
    grammar.Covers beyond [.nonterminal origin] := by
  intro before nonterminal behind spelled terminal next
  cases before with
  | cons head tail => simp at spelled
  | nil =>
      obtain ⟨same, rfl⟩ := List.cons.inj spelled
      rw [← Symbol.nonterminal.inj same]
      rcases next with impossible | ⟨_, isBeyond⟩
      · exact absurd impossible not_canBegin_nil
      · exact follows terminal isBeyond

theorem StandsBefore.mem_follow {nonterminal : N}
    (stands : grammar.StandsBefore nonterminal terminal) :
    terminal ∈ grammar.firstFollow.follow nonterminal := by
  rcases stands with ⟨origin, _, before, behind, derives⟩
  have originCovers : grammar.Covers (fun _ => False) [.nonterminal origin] :=
    covers_nonterminal fun _ impossible => impossible.elim
  exact originCovers.of_derives derives before nonterminal _ rfl terminal
    (.inl (canBegin_terminal_cons.mpr rfl))

theorem Closes.mem_follow {nonterminal : N} (closes : grammar.Closes nonterminal) :
    grammar.vocabulary.endMarker ∈ grammar.firstFollow.follow nonterminal := by
  rcases closes with ⟨before, derives⟩
  have startCovers : grammar.Covers (· = grammar.vocabulary.endMarker)
      [.nonterminal grammar.start] := by
    apply covers_nonterminal
    intro terminal isEnd
    exact isEnd ▸ endMarker_mem_follow
  exact startCovers.of_derives derives before nonterminal [] rfl _ (.inr ⟨.refl [], rfl⟩)

/-! ## Hosts -/

/-- What hosts a nonterminal derives a form that ends in it. -/
theorem exists_derives_of_reachable_hosts {nonterminal source : N}
    (reached : Exploration.Reachable (grammar.hosts grammar.nullables) [nonterminal] source) :
    ∃ before, grammar.Derives [.nonterminal source] (before ++ [.nonterminal nonterminal]) := by
  induction reached with
  | seed isSeed =>
      rw [List.mem_singleton.mp isSeed]
      exact ⟨[], .refl _⟩
  | step _ isHost inductionHypothesis =>
      obtain ⟨inner, derives⟩ := inductionHypothesis
      obtain ⟨rule, member, rfl, before, behind, spelled, vanishes⟩ := mem_hosts.mp isHost
      refine ⟨before ++ inner, (derives_rhs member).trans ?_⟩
      have inContext := (derives.append vanishes).in_context before []
      simpa [spelled, List.append_assoc] using inContext

variable {nonterminal : N} (listed : grammar.vocabulary.nonterminals.Lists nonterminal)

include listed

theorem standsBefore_or_closes_of_mem_follow
    (follows : terminal ∈ grammar.firstFollow.follow nonterminal) :
    terminal ≠ grammar.vocabulary.endMarker ∧ grammar.StandsBefore nonterminal terminal ∨
      terminal = grammar.vocabulary.endMarker ∧ grammar.Closes nonterminal := by
  obtain ⟨source, reached, stands | ⟨rfl, isEnd⟩⟩ := (mem_follow_iff listed).mp follows
  · left
    obtain ⟨inner, ends⟩ := exists_derives_of_reachable_hosts reached
    obtain ⟨rule, member, before, behind, spelled, rest, begins⟩ := mem_behind.mp stands
    have behindUnused : .terminal grammar.vocabulary.endMarker ∉ behind := by
      have ruleUnused := grammar.endMarker_unused rule member
      simp only [spelled, List.mem_append, List.mem_cons, not_or] at ruleUnused
      exact ruleUnused.2.2
    have shownUnused := begins.endMarker_not_mem behindUnused
    constructor
    · intro isEnd
      exact shownUnused (isEnd ▸ List.mem_cons_self)
    · refine ⟨rule.lhs, grammar.lhs_defined rule member, before ++ inner, rest,
        (derives_rhs member).trans ?_⟩
      have inContext := (ends.append begins).in_context before []
      simpa [spelled, List.append_assoc] using inContext
  · exact .inr ⟨isEnd, exists_derives_of_reachable_hosts reached⟩

/-- A terminal of a right side follows a nonterminal if the grammar derives a form with the two of
them side by side. -/
theorem mem_follow_iff_standsBefore (other : terminal ≠ grammar.vocabulary.endMarker) :
    terminal ∈ grammar.firstFollow.follow nonterminal ↔
      grammar.StandsBefore nonterminal terminal := by
  constructor
  · intro follows
    rcases standsBefore_or_closes_of_mem_follow listed follows with ⟨_, stands⟩ | ⟨isEnd, _⟩
    · exact stands
    · exact absurd isEnd other
  · exact StandsBefore.mem_follow

/-- The end marker follows a nonterminal if the start symbol derives a form that ends in it. -/
theorem endMarker_mem_follow_iff_closes :
    grammar.vocabulary.endMarker ∈ grammar.firstFollow.follow nonterminal ↔
      grammar.Closes nonterminal := by
  constructor
  · intro follows
    rcases standsBefore_or_closes_of_mem_follow listed follows with ⟨notEnd, _⟩ | ⟨_, closes⟩
    · exact absurd rfl notEnd
    · exact closes
  · exact Closes.mem_follow

end Grammar

end ShiftReduce
