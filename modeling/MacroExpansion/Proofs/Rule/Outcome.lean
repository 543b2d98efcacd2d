import Mathlib
import MacroExpansion.Rule.Basic
import MacroExpansion.Proofs.Name.Stamp
import MacroExpansion.Proofs.Template.Holes

/-!
# What a rule set makes of a tree

The check of a rule makes sure that its template uses only what its pattern binds, and in the same
form.  So when the first rule that matches a tree has a template, no hole of it is in the way of
filling it: `attempt_outcome` tells the outcome from the rule alone.  What the check does not look
at is whether the template is a splice, and whether its identifiers can be stamped.  These are the
only reasons to fail besides an error that a rule asks for (`attempt_fails_iff`).
-/

namespace MacroExpansion

/-! ## Checked rules -/

namespace Rule

variable {name kind : String} {index : Nat} {span : Option Span}

theorem lookup_of_boundForms {holes : List (Hole × HoleForm)}
    {bound bound' : List (String × HoleForm)} {var : String} {form : HoleForm}
    (h : boundForms index name span holes bound = .ok bound')
    (hlookup : bound'.lookup var = some form) :
    bound.lookup var = some form ∨ ∃ hole ∈ holes, hole.1.var = var ∧ hole.2 = form := by
  induction holes generalizing bound with
  | nil =>
    cases h
    exact .inl hlookup
  | cons head holes ih =>
    obtain ⟨hole, form'⟩ := head
    rw [boundForms] at h
    split at h
    case h_1 hnone =>
      rcases ih h with hbound | ⟨other, hmem, hother⟩
      · rw [List.lookup_cons] at hbound
        split at hbound
        case h_1 hvar =>
          cases hbound
          exact .inr ⟨_, List.mem_cons_self, (beq_iff_eq.1 hvar).symm, rfl⟩
        case h_2 => exact .inl hbound
      · exact .inr ⟨other, List.mem_cons_of_mem _ hmem, hother⟩
    case h_2 previous _ =>
      split at h
      case isTrue =>
        refine (ih h).imp_right ?_
        rintro ⟨other, hmem, hother⟩
        exact ⟨other, List.mem_cons_of_mem _ hmem, hother⟩
      case isFalse => cases h

theorem lookup_of_checkUses {holes : List (Hole × HoleForm)} {bound : List (String × HoleForm)}
    (h : checkUses index name span bound holes = .ok ()) :
    ∀ hole ∈ holes, bound.lookup hole.1.var = some hole.2 := by
  induction holes with
  | nil => exact fun _ hhole => absurd hhole List.not_mem_nil
  | cons head holes ih =>
    obtain ⟨hole, form⟩ := head
    rw [checkUses] at h
    split at h
    case h_1 => cases h
    case h_2 expected hexpected =>
      split at h
      case isTrue hform =>
        rw [hform] at hexpected
        exact List.forall_mem_cons.2 ⟨hexpected, ih h⟩
      case isFalse => cases h

/-- Each hole of a checked template is a hole of the pattern, in the same form. -/
theorem exists_hole_of_check {pattern template : Tree}
    (h : check name kind index ⟨pattern, .template template⟩ = .ok ()) :
    ∀ use ∈ template.holes, ∃ hole ∈ pattern.holes, hole.1.var = use.1.var ∧ hole.2 = use.2 := by
  intro use huse
  rw [check] at h
  split at h
  case isTrue => cases h
  case isFalse =>
    obtain ⟨⟨⟩, -, h⟩ := bind_eq_ok_iff.1 h
    obtain ⟨⟨⟩, -, h⟩ := bind_eq_ok_iff.1 h
    obtain ⟨bound, hbound, h⟩ := bind_eq_ok_iff.1 h
    have hlookup := lookup_of_checkUses h use huse
    exact (lookup_of_boundForms hbound hlookup).resolve_left (by simp)

theorem exists_check_of_mem {rules : List Rule} {rule : Rule}
    (h : checkFrom name kind index rules = .ok ()) (hrule : rule ∈ rules) :
    ∃ index, check name kind index rule = .ok () := by
  induction rules generalizing index with
  | nil => cases hrule
  | cons head rules ih =>
    obtain ⟨⟨⟩, hhead, hrules⟩ := bind_eq_ok_iff.1 h
    rcases List.mem_cons.1 hrule with rfl | hrule
    · exact ⟨index, hhead⟩
    · exact ih hrules hrule

/-- Whether the pattern of a rule matches a tree. -/
def Matches (rule : Rule) (tree : Tree) : Bool := (rule.pattern.match? tree).isSome

end Rule

namespace RuleSet

theorem rules_eq_of_ofRules {name kind : String} {rules : List Rule} {set : RuleSet}
    (h : ofRules name kind rules = .ok set) : set.rules = rules := by
  rw [ofRules] at h
  split at h
  case isTrue => cases h
  case isFalse =>
    split at h
    case h_1 => cases h
    case h_2 =>
      cases h
      rfl

theorem match?_of_firstMatch? {rules : List Rule} {tree : Tree} {rule : Rule} {bindings : Bindings}
    (h : firstMatch? rules tree = some (rule, bindings)) :
    rule.pattern.match? tree = some bindings := by
  obtain ⟨rule', -, hmatch⟩ := List.exists_of_findSome?_eq_some h
  obtain ⟨bindings', hbindings, hrule⟩ := Option.map_eq_some_iff.1 hmatch
  cases hrule
  exact hbindings

theorem map_fst_firstMatch? (rules : List Rule) (tree : Tree) :
    (firstMatch? rules tree).map Prod.fst = rules.find? (·.Matches tree) := by
  induction rules with
  | nil => rfl
  | cons rule rules ih =>
    rw [firstMatch?, List.findSome?_cons, List.find?_cons, Rule.Matches]
    cases hmatch : rule.pattern.match? tree with
    | none => exact ih
    | some bindings => rfl

/-- When a rule of a set matches, the holes of its template are bound. -/
theorem binds_of_firstMatch? {set : RuleSet} {tree pattern template : Tree} {bindings : Bindings}
    (h : firstMatch? set.rules tree = some (⟨pattern, .template template⟩, bindings)) :
    ∀ hole ∈ template.holes, bindings.Binds hole := by
  intro use huse
  have hfind := map_fst_firstMatch? set.rules tree
  rw [h] at hfind
  obtain ⟨index, hcheck⟩ :=
    Rule.exists_check_of_mem set.checked (List.mem_of_find?_eq_some hfind.symm)
  obtain ⟨hole, hhole, hvar, hform⟩ := Rule.exists_hole_of_check hcheck use huse
  obtain ⟨value, hvalue, hvalueForm⟩ := Tree.binds_of_match? (match?_of_firstMatch? h) hole hhole
  exact ⟨value, hvar ▸ hvalue, hvalueForm.trans hform⟩

/-! ## Outcomes -/

/-- What comes of filling a template whose holes are bound: a splice is refused, and otherwise the
first identifier that cannot be stamped is. -/
def TemplateOutcome (template : Tree) (cx : Context) (scope : Scope)
    (result : Except Report Outcome) : Prop :=
  match template.splice? with
  | some hole =>
    result = .error (.at? (template.span.or cx.span?) (.template (.spliceOutsideList hole.var)))
  | none =>
    match template.idents.findSome? (ScopedName.stampFault? cx.mainModule scope) with
    | some fault => ∃ span, result = .error (.at? span (.name fault))
    | none => ∃ output, result = .ok (.replaced output)

theorem templateOutcome_fill {template : Tree} {bindings : Bindings} {cx : Context} {scope : Scope}
    (hscope : cx.scope? = some scope) (hbinds : ∀ hole ∈ template.holes, bindings.Binds hole) :
    TemplateOutcome template cx scope ((cx.fill template bindings).map .replaced) := by
  rw [Context.fill, hscope, TemplateOutcome]
  split
  case h_1 hole hsplice =>
    -- A splice is refused before its variable is looked up.
    unfold Tree.splice? at hsplice
    split at hsplice
    case h_1 =>
      cases hsplice
      rfl
    case h_2 => cases hsplice
  case h_2 hsplice =>
    have hfill := Filling.fill_outcome (f := ⟨bindings, cx.mainModule, scope, cx.span?⟩) template
      hbinds hsplice
    rw [Filling.firstFault?] at hfill
    dsimp only at hfill ⊢
    generalize Filling.fill _ template = result at hfill ⊢
    split
    case h_1 fault hfault =>
      rw [hfault] at hfill
      cases hfill with
      | error span => exact ⟨span, rfl⟩
    case h_2 hfault =>
      rw [hfault] at hfill
      cases hfill with
      | ok output => exact ⟨output, rfl⟩

/-- What comes of a tree, told from the first rule that matches it. -/
def RuleOutcome (rule? : Option Rule) (cx : Context) (scope : Scope)
    (result : Except Report Outcome) : Prop :=
  match rule? with
  | none => result = .ok .declined
  | some ⟨_, .error text⟩ => result = .error (cx.complain (.stated text))
  | some ⟨_, .template template⟩ => TemplateOutcome template cx scope result

theorem ruleOutcome_apply (set : RuleSet) (tree : Tree) {cx : Context} {scope : Scope}
    (hscope : cx.scope? = some scope) :
    RuleOutcome (set.rules.find? (·.Matches tree)) cx scope (apply set.rules tree cx) := by
  rw [← map_fst_firstMatch?, apply]
  split
  case h_1 hmatch =>
    rw [hmatch]
    exact rfl
  case h_2 hmatch =>
    rw [hmatch]
    exact rfl
  case h_3 hmatch =>
    -- The bindings come from the match, and the check of the set has compared the holes.
    rw [hmatch]
    exact templateOutcome_fill hscope (binds_of_firstMatch? hmatch)

/-- The faults of a hole that is not bound, or not in the form in which it is used. -/
def holeFaults (var : String) : List Fault :=
  [.template (.unbound var), .template (.sequenceAsSingle var), .template (.singleAsSplice var)]

theorem TemplateOutcome.notMem_holeFaults {template : Tree} {cx : Context} {scope : Scope}
    {report : Report} (h : TemplateOutcome template cx scope (.error report)) (var : String) :
    report.fault ∉ holeFaults var := by
  unfold TemplateOutcome at h
  split at h
  case h_1 =>
    cases h
    simp [holeFaults, Report.at?]
  case h_2 =>
    split at h
    case h_1 =>
      obtain ⟨span, h⟩ := h
      cases h
      simp [holeFaults, Report.at?]
    case h_2 =>
      obtain ⟨output, h⟩ := h
      cases h

theorem RuleOutcome.notMem_holeFaults {rule? : Option Rule} {cx : Context} {scope : Scope}
    {report : Report} (h : RuleOutcome rule? cx scope (.error report)) (var : String) :
    report.fault ∉ holeFaults var := by
  unfold RuleOutcome at h
  split at h
  case h_1 => cases h
  case h_2 =>
    cases h
    simp [holeFaults, Context.complain, Report.at?]
  case h_3 => exact TemplateOutcome.notMem_holeFaults h var

/-- The outcome of a rule set is told by the first rule that matches, and a hole that is not bound
as it is used is never the cause of a failure. -/
theorem attempt_outcome {name kind : String} {rules : List Rule} {set : RuleSet}
    (hset : ofRules name kind rules = .ok set) (tree : Tree) (cx : Context) (scope : Scope)
    (hscope : cx.scope? = some scope) :
    ∃ result, (set.handler.attempt tree).run cx = (result, cx) ∧
      RuleOutcome (rules.find? (·.Matches tree)) cx scope result ∧
      ∀ report, result = .error report → ∀ var, report.fault ∉ holeFaults var := by
  have houtcome := ruleOutcome_apply set tree hscope
  refine ⟨apply set.rules tree cx, rfl, rules_eq_of_ofRules hset ▸ houtcome, ?_⟩
  intro report hreport var
  rw [hreport] at houtcome
  exact houtcome.notMem_holeFaults var

/-- A rule set for sequences: an empty one is an error, and any other is put under a name. -/
def naming : RuleSet where
  name := "name"
  kind := "seq"
  rules :=
    let head : Tree := .leaf (.antiquot ⟨"head", .any⟩) none
    let tail : Tree := .leaf (.splice ⟨"tail", .any⟩) none
    [⟨.node "seq" [] none, .error "empty sequence"⟩,
      ⟨.node "seq" [head, tail] none,
        .template (.node "let" [.leaf (.ident "x") none, head, .node "seq" [tail] none] none)⟩]
  nonempty := List.cons_ne_nil _ _
  checked := by cbv

theorem attempt_outcome_naming :
    ofRules "name" "seq" naming.rules = .ok naming ∧
      ∃ output, (naming.handler.attempt (.node "seq" [.leaf (.atom "1") none] none)).run
        ⟨"Main", [7], [], 7⟩ = (.ok (.replaced output), ⟨"Main", [7], [], 7⟩) := by
  have hset : ofRules "name" "seq" naming.rules = .ok naming := rfl
  obtain ⟨result, hrun, houtcome, -⟩ := attempt_outcome hset
    (.node "seq" [.leaf (.atom "1") none] none) ⟨"Main", [7], [], 7⟩ 7 rfl
  cbv at houtcome
  obtain ⟨output, rfl⟩ := houtcome
  exact ⟨hset, output, hrun⟩

end RuleSet

/-! ## Failures -/

/-- A template that is filled whenever its holes are bound. -/
structure Tree.Fillable (template : Tree) : Prop where
  splice? : template.splice? = none
  idents : ∀ name ∈ template.idents, ScopedName.Stampable name

theorem ScopedName.stampFault?_eq_none_iff {name mainModule : String} {scope : Scope}
    (hmodule : ValidModule mainModule) :
    stampFault? mainModule scope name = none ↔ Stampable name := by
  have hstamp : (∃ stamped, stamp name mainModule scope = .ok stamped) ↔ Stampable name :=
    exists_stamp_iff.trans (and_iff_right hmodule)
  rw [← hstamp, stampFault?]
  cases stamp name mainModule scope with
  | ok stamped => exact iff_of_true rfl ⟨stamped, rfl⟩
  | error fault =>
    constructor
    · intro h
      cases h
    · rintro ⟨stamped, h⟩
      cases h

namespace RuleSet

theorem TemplateOutcome.exists_error_iff {template : Tree} {cx : Context} {scope : Scope}
    {result : Except Report Outcome} (h : TemplateOutcome template cx scope result)
    (hmodule : ScopedName.ValidModule cx.mainModule) :
    (∃ report, result = .error report) ↔ ¬ template.Fillable := by
  unfold TemplateOutcome at h
  split at h
  case h_1 hole hsplice =>
    refine iff_of_true ⟨_, h⟩ fun hfillable => ?_
    rw [hfillable.splice?] at hsplice
    cases hsplice
  case h_2 hsplice =>
    split at h
    case h_1 fault hfault =>
      obtain ⟨span, h⟩ := h
      refine iff_of_true ⟨_, h⟩ fun hfillable => ?_
      obtain ⟨name, hname, hstamp⟩ := List.exists_of_findSome?_eq_some hfault
      rw [(ScopedName.stampFault?_eq_none_iff hmodule).2 (hfillable.idents name hname)] at hstamp
      cases hstamp
    case h_2 hnone =>
      obtain ⟨output, rfl⟩ := h
      have hidents : ∀ name ∈ template.idents, ScopedName.Stampable name := by
        intro name hname
        have hstamp := List.findSome?_eq_none_iff.1 hnone name hname
        exact (ScopedName.stampFault?_eq_none_iff hmodule).1 hstamp
      exact iff_of_false (fun ⟨_, h⟩ => by cases h) (not_not_intro ⟨hsplice, hidents⟩)

/-- A rule set fails on a tree exactly if the first rule that matches asks for an error, or has a
template that is a splice or holds an identifier which cannot be stamped. -/
theorem attempt_fails_iff {name kind : String} {rules : List Rule} {set : RuleSet}
    (hset : ofRules name kind rules = .ok set) (tree : Tree) (cx : Context)
    (hscope : cx.scopes ≠ []) (hmodule : ScopedName.ValidModule cx.mainModule) :
    (∃ report, ((set.handler.attempt tree).run cx).1 = .error report) ↔
      ∃ rule, rules.find? (·.Matches tree) = some rule ∧
        ((∃ text, rule.action = .error text) ∨
          ∃ template, rule.action = .template template ∧ ¬ template.Fillable) := by
  obtain ⟨scope, hscope⟩ := Option.isSome_iff_exists.1 (List.isSome_head?.2 hscope)
  have houtcome := ruleOutcome_apply set tree hscope
  change (∃ report, apply set.rules tree cx = .error report) ↔ _
  rw [rules_eq_of_ofRules hset] at houtcome ⊢
  generalize rules.find? (·.Matches tree) = rule?, apply rules tree cx = result at houtcome ⊢
  match rule? with
  | none =>
    obtain rfl : result = .ok .declined := houtcome
    exact iff_of_false (fun ⟨_, h⟩ => by cases h) (fun ⟨_, h, _⟩ => by cases h)
  | some ⟨pattern, .error text⟩ =>
    exact iff_of_true ⟨_, houtcome⟩ ⟨_, rfl, .inl ⟨text, rfl⟩⟩
  | some ⟨pattern, .template template⟩ =>
    rw [TemplateOutcome.exists_error_iff houtcome hmodule]
    constructor
    · intro h
      exact ⟨_, rfl, .inr ⟨template, rfl, h⟩⟩
    · rintro ⟨rule, hrule, ⟨text, htext⟩ | ⟨template', htemplate, h⟩⟩
      · cases hrule
        cases htext
      · cases hrule
        cases htemplate
        exact h

/-- A rule set that replaces empty sequences by an identifier without letters. -/
def nameless : RuleSet where
  name := "nameless"
  kind := "seq"
  rules := [⟨.node "seq" [] none, .template (.leaf (.ident "") none)⟩]
  nonempty := List.cons_ne_nil _ _
  checked := by cbv

theorem attempt_fails_iff_nameless :
    ofRules "nameless" "seq" nameless.rules = .ok nameless ∧
      ∃ report, ((nameless.handler.attempt (.node "seq" [] none)).run
        ⟨"Main", [7], [], 7⟩).1 = .error report := by
  have hset : ofRules "nameless" "seq" nameless.rules = .ok nameless := rfl
  have hfillable : ¬ Tree.Fillable (.leaf (.ident "") none) := by
    intro h
    have hscopes : ScopedName.hasScopes "" = false := by cbv
    rcases h.idents "" List.mem_cons_self with ⟨htrue, -⟩ | ⟨-, hbase⟩
    · rw [hscopes] at htrue
      cases htrue
    · exact hbase.1 rfl
  have hfails := attempt_fails_iff hset (.node "seq" [] none) ⟨"Main", [7], [], 7⟩
    (List.cons_ne_nil _ _) (by decide)
  exact ⟨hset, hfails.2 ⟨_, by cbv, .inr ⟨_, rfl, hfillable⟩⟩⟩

/-- A rule set that puts all children of a sequence in the place of the sequence. -/
def unwrapping : RuleSet where
  name := "unwrap"
  kind := "seq"
  rules := [⟨.node "seq" [.leaf (.splice ⟨"all", .any⟩) none] none,
    .template (.leaf (.splice ⟨"all", .any⟩) none)⟩]
  nonempty := List.cons_ne_nil _ _
  checked := by cbv

/-- A rule set may fail although no rule of it asks for an error. -/
theorem not_forall_error_of_attempt_fails :
    ¬ ∀ (name kind : String) (rules : List Rule) (set : RuleSet) (tree : Tree) (cx : Context),
      ofRules name kind rules = .ok set → cx.scopes ≠ [] →
      ScopedName.ValidModule cx.mainModule →
      ∀ report, ((set.handler.attempt tree).run cx).1 = .error report →
        ∃ rule text, rules.find? (·.Matches tree) = some rule ∧ rule.action = .error text := by
  intro h
  obtain ⟨rule, text, hrule, haction⟩ := h "unwrap" "seq" unwrapping.rules unwrapping
    (.node "seq" [] none) ⟨"Main", [7], [], 7⟩ rfl (List.cons_ne_nil _ _) (by decide)
    (.of (.template (.spliceOutsideList "all"))) rfl
  have hmem := List.mem_singleton.1 (List.mem_of_find?_eq_some hrule)
  rw [hmem] at haction
  cases haction

end RuleSet

end MacroExpansion
