import Mathlib.Data.List.Basic
import Mathlib.Data.List.Induction
import ShiftReduce.Proofs.Draft

/-!
Contract: what a draft has taken down of its declarations.

Owns: `Entry`, a declared rule and whether it was declared accepting; `Takes`, by which a draft has
the rules, the accepting ones and the nonterminals of a list of declarations; and `Registry`, the
rules of each nonterminal as they are kept up from one declaration to the next, with its agreement
with the rules that have the nonterminal as their left side.

Does not own: whether the draft can be built (`ShiftReduce.Proofs.Draft.WellFormed`).
-/

namespace ShiftReduce

variable {T N : Type}

/-- A declared rule, and whether it was declared accepting. -/
structure Entry (T N : Type) where
  rule : Rule T N
  accepting : Bool
deriving DecidableEq, Repr

namespace Declaration

/-- The nonterminal to which the step belongs. -/
def lhs : Declaration T N → N
  | .define nonterminal => nonterminal
  | .rule lhs _ => lhs
  | .accepting lhs _ => lhs

/-- What the step adds to the rules; an empty right side is the one of an epsilon rule. -/
def adds? : Declaration T N → Option (Entry T N)
  | .define _ => none
  | .rule lhs rhs => some ⟨⟨lhs, rhs⟩, false⟩
  | .accepting lhs rhs => some ⟨⟨lhs, rhs⟩, true⟩

theorem map_rule_adds? (declaration : Declaration T N) :
    declaration.adds?.map Entry.rule = declaration.rule? := by
  cases declaration with
  | define nonterminal => rfl
  | rule lhs rhs => rfl
  | accepting lhs rhs => rfl

/-- The declared rules in their order. The number of a rule is its place in this list. -/
def entries (declarations : List (Declaration T N)) : List (Entry T N) :=
  declarations.filterMap adds?

theorem entries_concat (declarations : List (Declaration T N)) (declaration : Declaration T N) :
    entries (declarations ++ [declaration]) = entries declarations ++ declaration.adds?.toList := by
  rw [entries, List.filterMap_append]
  cases made : declaration.adds? with
  | none => simp [entries, made]
  | some entry => simp [entries, made]

end Declaration

/-- The numbers up to the length for which a test holds are the places where it does. -/
theorem filter_range_eq_findIdxs {α : Type} (test : α → Bool) (members : List α) :
    (List.range members.length).filter (fun index => (members[index]?).any test) =
      members.findIdxs test := by
  induction members using List.reverseRecOn with
  | nil => rfl
  | append_singleton members last inductionHypothesis =>
      have same : (List.range members.length).filter
          (fun index => ((members ++ [last])[index]?).any test) = members.findIdxs test := by
        rw [← inductionHypothesis]
        apply List.filter_congr
        intro index inRange
        rw [List.getElem?_append_left (List.mem_range.mp inRange)]
      rw [List.length_append, List.length_singleton, List.range_succ, List.filter_append, same,
        List.findIdxs_append, List.findIdxs_singleton, Nat.zero_add]
      cases holds : test last with
      | false => simp [holds]
      | true => simp [holds]

/-- What has occurred before is not listed again. -/
private theorem eraseDups_concat {α : Type} [DecidableEq α] (members : List α) (last : α) :
    (members ++ [last]).eraseDups =
      if last ∈ members then members.eraseDups else members.eraseDups ++ [last] := by
  rw [List.eraseDups_append]
  by_cases known : last ∈ members
  · simp [List.removeAll, known]
  · simp [List.removeAll, known, List.eraseDups_cons]

namespace Draft

variable [DecidableEq N]

/-! ## The declarations of a draft -/

theorem defined_define (draft : Draft T N) (nonterminal : N) :
    (draft.define nonterminal).defined =
      if nonterminal ∈ draft.defined then draft.defined else draft.defined ++ [nonterminal] := by
  unfold define
  split
  · rfl
  · rfl

theorem defined_declare (draft : Draft T N) (declaration : Declaration T N) :
    (draft.declare declaration).defined = (draft.define declaration.lhs).defined := by
  cases declaration with
  | define nonterminal => rfl
  | rule lhs rhs => rfl
  | accepting lhs rhs => rfl

/-- The draft has what the declarations declare. -/
structure Takes (draft : Draft T N) (declarations : List (Declaration T N)) : Prop where
  rules : draft.rules.toList = (Declaration.entries declarations).map Entry.rule
  flagged : draft.flagged = (Declaration.entries declarations).findIdxs Entry.accepting
  /-- The nonterminals in the order in which they are first mentioned. -/
  defined : draft.defined = (declarations.map Declaration.lhs).eraseDups

variable {draft : Draft T N} {declarations : List (Declaration T N)}

theorem Takes.size (takes : draft.Takes declarations) :
    draft.rules.size = (Declaration.entries declarations).length := by
  rw [← Array.length_toList, takes.rules, List.length_map]

theorem Takes.rule? (takes : draft.Takes declarations) (id : RuleId) :
    draft.rules[id]? = ((Declaration.entries declarations)[id]?).map Entry.rule := by
  rw [← Array.getElem?_toList, takes.rules, List.getElem?_map]

theorem declare_flagged (draft : Draft T N) (declaration : Declaration T N) :
    (draft.declare declaration).flagged =
      draft.flagged ++ declaration.adds?.toList.findIdxs Entry.accepting draft.rules.size := by
  have same : ∀ nonterminal, (draft.define nonterminal).flagged = draft.flagged := by
    intro nonterminal
    unfold define
    split
    · rfl
    · rfl
  cases declaration with
  | define nonterminal => simp [declare, same, Declaration.adds?]
  | rule lhs rhs => simp [declare, addRule, same, Declaration.adds?]
  | accepting lhs rhs => simp [declare, addRule, flag, same, nextId, Declaration.adds?]

/-- The step lemma. -/
theorem Takes.declare (takes : draft.Takes declarations) (declaration : Declaration T N) :
    (draft.declare declaration).Takes (declarations ++ [declaration]) where
  rules := by
    rw [(draft.declare_keeps declaration).2.2, takes.rules, Declaration.entries_concat,
      List.map_append, ← declaration.map_rule_adds?, Option.toList_map]
  flagged := by
    rw [declare_flagged, takes.flagged, takes.size, Declaration.entries_concat,
      List.findIdxs_append, Nat.zero_add]
  defined := by
    rw [defined_declare, defined_define, takes.defined, List.map_append, List.map_singleton,
      eraseDups_concat]
    simp only [List.mem_eraseDups]

theorem ofDeclarations_concat (vocabulary : Vocabulary T N) (start : N)
    (declarations : List (Declaration T N)) (declaration : Declaration T N) :
    ofDeclarations vocabulary start (declarations ++ [declaration]) =
      (ofDeclarations vocabulary start declarations).declare declaration := by
  rw [ofDeclarations, List.foldl_concat]
  rfl

/-- The run lemma. -/
theorem takes_ofDeclarations (vocabulary : Vocabulary T N) (start : N)
    (declarations : List (Declaration T N)) :
    (ofDeclarations vocabulary start declarations).Takes declarations := by
  induction declarations using List.reverseRecOn with
  | nil => exact ⟨rfl, rfl, rfl⟩
  | append_singleton declarations declaration inductionHypothesis =>
      rw [ofDeclarations_concat]
      exact inductionHypothesis.declare declaration

/-- The rules of the start symbol are the ones that have it as their left side. -/
theorem Takes.startRules (takes : draft.Takes declarations) :
    draft.startRules =
      (Declaration.entries declarations).findIdxs fun entry => entry.rule.lhs = draft.start := by
  rw [Draft.startRules, takes.size, ← filter_range_eq_findIdxs]
  apply List.filter_congr
  intro id _
  rw [takes.rule?]
  cases (Declaration.entries declarations)[id]? with
  | none => simp
  | some entry => simp

end Draft

/-! ## The registry -/

/-- Nonterminals in the order of their declaration, each with the numbers of its rules. -/
abbrev Registry (N : Type) := List (N × List RuleId)

namespace Registry

variable [DecidableEq N]

/-- Makes room for the rules of a nonterminal, unless there is room. -/
def define (registry : Registry N) (nonterminal : N) : Registry N :=
  if nonterminal ∈ registry.map Prod.fst then registry else registry ++ [(nonterminal, [])]

/-- Adds a rule behind the others of its nonterminal. -/
def push (registry : Registry N) (lhs : N) (id : RuleId) : Registry N :=
  registry.map fun (nonterminal, ids) =>
    (nonterminal, if nonterminal = lhs then ids ++ [id] else ids)

/-- The registry after one more declaration, of which a rule would get the number. -/
def declare (registry : Registry N) (id : RuleId) (declaration : Declaration T N) : Registry N :=
  match declaration.adds? with
  | none => registry.define declaration.lhs
  | some _ => (registry.define declaration.lhs).push declaration.lhs id

/-- The registry that declarations make, and the number of the next rule. -/
def ofDeclarations (declarations : List (Declaration T N)) : Registry N × RuleId :=
  declarations.foldl
    (fun (registry, id) declaration =>
      (registry.declare id declaration, id + declaration.adds?.toList.length))
    ([], 0)

/-- Each nonterminal with the places of the rules that have it as their left side. -/
def ofRules (defined : List N) (rules : List (Rule T N)) : Registry N :=
  defined.map fun nonterminal => (nonterminal, rules.findIdxs fun rule => rule.lhs = nonterminal)

theorem map_fst_ofRules (defined : List N) (rules : List (Rule T N)) :
    (ofRules defined rules).map Prod.fst = defined := by
  rw [ofRules, List.map_map]
  exact List.map_id defined

/-- A nonterminal for which there was no room has no rules yet. -/
theorem define_ofRules {defined : List N} {rules : List (Rule T N)}
    (lhs_defined : ∀ rule ∈ rules, rule.lhs ∈ defined) (nonterminal : N) :
    (ofRules defined rules).define nonterminal =
      ofRules (if nonterminal ∈ defined then defined else defined ++ [nonterminal]) rules := by
  rw [define, map_fst_ofRules]
  by_cases known : nonterminal ∈ defined
  · rw [if_pos known, if_pos known]
  · have noRules : rules.findIdxs (fun rule => rule.lhs = nonterminal) = [] := by
      rw [List.findIdxs_eq_nil_iff]
      intro rule member
      apply decide_eq_false
      intro same
      exact known (same ▸ lhs_defined rule member)
    rw [if_neg known, if_neg known, ofRules, ofRules, List.map_append, List.map_singleton, noRules]

theorem push_ofRules (defined : List N) (rules : List (Rule T N)) (rule : Rule T N) :
    (ofRules defined rules).push rule.lhs rules.length = ofRules defined (rules ++ [rule]) := by
  rw [push, ofRules, ofRules, List.map_map]
  apply List.map_congr_left
  intro nonterminal _
  rw [List.findIdxs_append, List.findIdxs_singleton, Nat.zero_add]
  by_cases same : nonterminal = rule.lhs
  · simp [same]
  · simp [same, Ne.symm same]

end Registry

namespace Draft

variable [DecidableEq N]

theorem registry_define (draft : Draft T N) (nonterminal : N) :
    (Registry.ofRules draft.defined draft.rules.toList).define nonterminal =
      Registry.ofRules (draft.define nonterminal).defined draft.rules.toList := by
  rw [defined_define]
  exact Registry.define_ofRules
    (fun rule member => draft.lhs_defined rule (Array.mem_toList_iff.mp member)) nonterminal

theorem registry_addRule (draft : Draft T N) (lhs : N) (rhs : List (Symbol T N)) :
    ((Registry.ofRules draft.defined draft.rules.toList).define lhs).push lhs draft.rules.size =
      Registry.ofRules (draft.addRule lhs rhs).defined (draft.addRule lhs rhs).rules.toList := by
  rw [registry_define, (draft.addRule_keeps lhs rhs).2.2]
  exact Registry.push_ofRules _ _ ⟨lhs, rhs⟩

/-- The step lemma of the registry. -/
theorem registry_declare (draft : Draft T N) (declaration : Declaration T N) :
    (Registry.ofRules draft.defined draft.rules.toList).declare draft.rules.size declaration =
      Registry.ofRules (draft.declare declaration).defined
        (draft.declare declaration).rules.toList := by
  cases declaration with
  | define nonterminal =>
      have rules := (draft.define_keeps nonterminal).2.2
      rw [Draft.declare, rules]
      exact draft.registry_define nonterminal
  | rule lhs rhs => exact draft.registry_addRule lhs rhs
  | accepting lhs rhs => exact draft.registry_addRule lhs rhs

/-- The run lemma of the registry: it has each nonterminal with the rules of that left side. -/
theorem registry_ofDeclarations (vocabulary : Vocabulary T N) (start : N)
    (declarations : List (Declaration T N)) :
    Registry.ofDeclarations declarations =
      (Registry.ofRules (ofDeclarations vocabulary start declarations).defined
        (ofDeclarations vocabulary start declarations).rules.toList,
        (Declaration.entries declarations).length) := by
  induction declarations using List.reverseRecOn with
  | nil => rfl
  | append_singleton declarations declaration inductionHypothesis =>
      have takes := takes_ofDeclarations vocabulary start declarations
      have step := (ofDeclarations vocabulary start declarations).registry_declare declaration
      rw [takes.size] at step
      rw [Registry.ofDeclarations, List.foldl_concat, ← Registry.ofDeclarations,
        inductionHypothesis, ofDeclarations_concat, Declaration.entries_concat, List.length_append,
        ← step]

example : Registry.ofDeclarations
    ([.define 1, .rule 0 [.nonterminal 1], .rule 1 [], .accepting 0 []] :
      List (Declaration Nat Nat)) = ([(1, [1]), (0, [0, 2])], 3) := by
  decide

end Draft

end ShiftReduce
