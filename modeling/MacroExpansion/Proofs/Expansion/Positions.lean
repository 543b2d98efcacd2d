import MacroExpansion.Script
import MacroExpansion.Proofs.Expansion.Invariant
import MacroExpansion.Proofs.Registry.Lookup
import MacroExpansion.Proofs.Rule.Alike
import MacroExpansion.Proofs.Rule.Outcome
import MacroExpansion.Proofs.Template.Positions

/-!
# Positions along a run

A handler that fails on a placed tree fails at a span, and so does a chain that began with one.  So
a placed tree fails without a position only after a handler has put a tree with an unplaced part in
the place of a placed one (`expand_error_placed`): while such a tree is worked on, the trees around
it are not looked at.  Rule sets never do this, and they invent no spans: all of them come from the
tree or from a template (`expand_keeps_positions`).
-/

namespace MacroExpansion

variable {P : Span → Prop} {registry : Registry}

/-! ## Failures of placed trees -/

theorem Tree.hereditary_placedIn (P : Span → Prop) : Tree.Hereditary (Tree.PlacedIn P) where
  child h _ hchild := h.isPart (.child hchild (.self _))
  rebuild h hchildren := Tree.placedIn_node h.span hchildren

theorem Context.knownIn_inCall (cx : Context) {tree : Tree} (h : tree.PlacedIn P) :
    Span.KnownIn P (cx.inCall tree).span? := by
  rw [span?_inCall]
  exact h.span.or_left _

/-- Whatever a handler raises on a placed tree, the call fails at a span. -/
theorem Handler.knownIn_of_call {handler : Handler} {tree : Tree} (htree : tree.Placed)
    {cx cx' : Context} {report : Report}
    (hcall : (handler.call tree).run cx = (.error report, cx')) :
    Span.KnownIn (fun _ => True) report.span := by
  obtain ⟨raised, -, rfl⟩ := exists_raised_of_call hcall
  exact (cx.knownIn_inCall htree).or fun _ _ => trivial

/-- The handlers of a registry fail at spans with a property when they are called on trees that are
placed there. -/
def Registry.FailsIn (registry : Registry) (P : Span → Prop) : Prop :=
  ∀ tree : Tree, tree.PlacedIn P → ∀ handler ∈ registry.lookup tree.kind, ∀ cx cx' report,
    (handler.call tree).run cx = (.error report, cx') → Span.KnownIn P report.span

theorem Failure.knownIn_report (hfails : registry.FailsIn P) {failure : Failure}
    (h : failure.Arises registry (Tree.PlacedIn P)) (limit : Nat) :
    Span.KnownIn P (failure.report limit).span := by
  cases failure with
  | raised report =>
    obtain ⟨tree, htree, handler, hmem, cx, cx', hcall⟩ := h
    exact hfails tree htree handler hmem cx cx' report hcall
  | exceeded origin kind =>
    obtain ⟨tree, htree, rfl⟩ := h
    exact htree.span

theorem Fails.knownIn_report (hfails : registry.FailsIn P) {budget : Nat} {cx cx' : Context}
    {tree : Tree} {rs : List Replacement} {failure : Failure}
    (h : Fails registry budget tree.span cx tree rs failure cx')
    (hrs : ∀ r ∈ rs, r.Keeps registry (Tree.PlacedIn P)) (htree : tree.PlacedIn P) (limit : Nat) :
    Span.KnownIn P (failure.report limit).span := by
  have harises := h.arises (Tree.hereditary_placedIn P) hrs htree ⟨tree, htree, rfl⟩
  exact failure.knownIn_report hfails harises limit

namespace Expander

/-- A placed tree fails at a span, unless a handler has replaced a placed tree by one with a part
that is not placed. -/
theorem expand_error_placed (e : Expander) (mainModule : String) (allocated : Nat)
    (tracing : Bool) (tree : Tree) (htree : tree.Placed) (report : Report) (s : ExpanderState)
    (hrun : e.expand tree (.initial mainModule allocated tracing) = some (.error report, s)) :
    (∃ span, report.span = some span) ∨
      ∃ s', e.expand tree (.initial mainModule allocated true) = some (.error report, s') ∧
        ∃ r ∈ s'.replacements, r.input.Placed ∧ ¬ r.output.Placed := by
  obtain ⟨rs, failure, cx, hfails, rfl, -⟩ := expand_eq_error_iff.1 hrun
  by_cases hdropped : ∃ r ∈ rs, r.input.Placed ∧ ¬ r.output.Placed
  · have htraced : e.expand tree (.initial mainModule allocated true) = some
        (.error (failure.report e.limit), ExpanderState.after (.initial mainModule allocated true)
          rs cx) :=
      expand_eq_error_iff.2 ⟨rs, failure, cx, hfails, rfl, rfl⟩
    refine .inr ⟨_, htraced, ?_⟩
    rw [ExpanderState.replacements_after]
    exact hdropped
  · have hkeeps (r : Replacement) (hr : r ∈ rs) :
        r.Keeps e.registry (Tree.PlacedIn fun _ => True) := by
      intro cx₁ cx₂ _ hinput
      by_contra houtput
      exact hdropped ⟨r, hr, hinput, houtput⟩
    obtain ⟨span, hspan, -⟩ := hfails.knownIn_report
      (fun _ htree _ _ _ _ _ hcall => Handler.knownIn_of_call htree hcall) hkeeps htree e.limit
    exact .inl ⟨span, hspan⟩

/-- A macro for `a` that makes a node `b` without a span, and one for `b` that fails. -/
def unplacing : Registry :=
  (Registry.empty.register "a" ((Script.constant (.node "b" [] none)).handler "unplace")).register
    "b" ((Script.fail "nope").handler "fail")

/-- A macro for `a` that makes a node around a node `loop`, both without a span, and one for `loop`
that makes the same node again. -/
def unplacingLoop : Registry :=
  (Registry.empty.register "a"
    ((Script.constant (.node "b" [.node "loop" [] none] none)).handler "unplace")).register
    "loop" (Script.same.handler "same")

/-- A placed tree for both. -/
def placedUse : Tree := .node "a" [] (some ⟨0, 3⟩)

theorem placed_placedUse : placedUse.Placed :=
  Tree.placedIn_node ⟨_, rfl, trivial⟩ fun _ hchild => absurd hchild List.not_mem_nil

theorem expand_error_placed_unplacing :
    ∃ s s', expand ⟨unplacing, 128⟩ placedUse (.initial "Main" 0 false) =
        some (.error (.of (.expansion (.stated "nope"))), s) ∧
      expand ⟨unplacing, 128⟩ placedUse (.initial "Main" 0 true) =
        some (.error (.of (.expansion (.stated "nope"))), s') ∧
      ∃ r ∈ s'.replacements, r.input.Placed ∧ ¬ r.output.Placed := by
  obtain ⟨s, hrun⟩ : ∃ s, expand ⟨unplacing, 128⟩ placedUse (.initial "Main" 0 false) =
      some (.error (.of (.expansion (.stated "nope"))), s) := ⟨_, by cbv⟩
  rcases expand_error_placed ⟨unplacing, 128⟩ "Main" 0 false placedUse placed_placedUse _ s
    hrun with ⟨span, hspan⟩ | ⟨s', htraced, hdropped⟩
  · cases hspan
  · exact ⟨s, s', hrun, htraced, hdropped⟩

/-- A placed tree may fail without a position, by a handler or by the limit. -/
theorem not_forall_error_placed :
    (¬ ∀ (e : Expander) (tree : Tree) (s s' : ExpanderState) (report : Report), tree.Placed →
      e.expand tree s = some (.error report, s') → report.isRecursionLimit = false →
      ∃ span, report.span = some span) ∧
    ¬ ∀ (e : Expander) (tree : Tree) (s s' : ExpanderState) (report : Report), tree.Placed →
      e.expand tree s = some (.error report, s') → report.isRecursionLimit = true →
      ∃ span, report.span = some span := by
  obtain ⟨s, hfail⟩ : ∃ s, expand ⟨unplacing, 1⟩ placedUse (.initial "Main" 0 false) =
      some (.error (.of (.expansion (.stated "nope"))), s) := ⟨_, by cbv⟩
  obtain ⟨s', hloop⟩ : ∃ s', expand ⟨unplacingLoop, 1⟩ placedUse (.initial "Main" 0 false) =
      some (.error (.of (.recursionLimit 1 "loop")), s') := ⟨_, by cbv⟩
  constructor
  · intro h
    obtain ⟨span, hspan⟩ := h _ _ _ _ _ placed_placedUse hfail rfl
    cases hspan
  · intro h
    obtain ⟨span, hspan⟩ := h _ _ _ _ _ placed_placedUse hloop rfl
    cases hspan

end Expander

/-! ## Rules keep positions -/

/-- A span of a template of one of some rule sets. -/
def RuleSet.TemplateSpan (sets : List RuleSet) (span : Span) : Prop :=
  ∃ set ∈ sets, ∃ rule ∈ set.rules, ∃ template, rule.action = .template template ∧
    template.HasSpan span

/-- The handlers of a registry are some rule sets. -/
def Registry.MadeOf (registry : Registry) (sets : List RuleSet) : Prop :=
  ∀ kind, ∀ handler ∈ registry.lookup kind, ∃ set ∈ sets, handler = set.handler

/-- The tree that replaces another one, if any does, is placed. -/
def Outcome.PlacedIn (P : Span → Prop) : Outcome → Prop
  | declined => True
  | replaced tree => tree.PlacedIn P

theorem Context.fill_yields {cx : Context} (hcx : Span.KnownIn P cx.span?) {bindings : Bindings}
    (hbindings : ∀ tree ∈ bindings.trees, tree.PlacedIn P) (template : Tree)
    (hspans : ∀ span, template.HasSpan span → P span) :
    Yields (fun report => Span.KnownIn P report.span) (Tree.PlacedIn P)
      (cx.fill template bindings) := by
  rw [fill]
  split
  case h_1 => exact .error hcx
  case h_2 scope _ =>
    have hplaces : Filling.Places P ⟨bindings, cx.mainModule, scope, cx.span?⟩ := ⟨hbindings, hcx⟩
    exact Filling.fill_yields hplaces template hspans

namespace RuleSet

theorem mem_of_firstMatch? {rules : List Rule} {tree : Tree} {rule : Rule} {bindings : Bindings}
    (h : firstMatch? rules tree = some (rule, bindings)) : rule ∈ rules := by
  have hfind := map_fst_firstMatch? rules tree
  rw [h] at hfind
  exact List.mem_of_find?_eq_some hfind.symm

/-- Rules take a placed tree to a placed tree, or complain at a span. -/
theorem apply_yields {rules : List Rule} {tree : Tree} {cx : Context} (htree : tree.PlacedIn P)
    (hcx : Span.KnownIn P cx.span?)
    (hspans : ∀ rule ∈ rules, ∀ template, rule.action = .template template →
      ∀ span, template.HasSpan span → P span) :
    Yields (fun report => Span.KnownIn P report.span) (Outcome.PlacedIn P)
      (apply rules tree cx) := by
  rw [apply]
  split
  case h_1 => exact .ok trivial
  case h_2 => exact .error hcx
  case h_3 pattern template bindings hmatch =>
    have hbound (bound : Tree) (hmem : bound ∈ bindings.trees) : bound.PlacedIn P :=
      htree.isPart (Tree.isPart_of_match? (match?_of_firstMatch? hmatch) bound hmem)
    have hfill := Context.fill_yields hcx hbound template
      (hspans _ (mem_of_firstMatch? hmatch) template rfl)
    generalize cx.fill template bindings = filled at hfill ⊢
    cases hfill with
    | ok hplaced => exact .ok hplaced
    | error hreport => exact .error hreport

theorem yields_of_call {set : RuleSet} {tree : Tree} (htree : tree.PlacedIn P)
    (hspans : ∀ span, TemplateSpan [set] span → P span) {cx cx' : Context}
    {result : Except Report Outcome} (hcall : (set.handler.call tree).run cx = (result, cx')) :
    Yields (fun report => Span.KnownIn P report.span) (Outcome.PlacedIn P) result := by
  have hrules : ∀ rule ∈ set.rules, ∀ template, rule.action = .template template →
      ∀ span, template.HasSpan span → P span := fun rule hrule template haction span hspan =>
    hspans span ⟨set, List.mem_cons_self, rule, hrule, template, haction, hspan⟩
  have happly := apply_yields htree (cx.knownIn_inCall htree) hrules
  rw [set.run_call] at hcall
  obtain ⟨rfl, -⟩ := Prod.mk.inj hcall
  generalize apply set.rules tree (cx.inCall tree) = outcome at happly ⊢
  cases happly with
  | ok houtcome => exact .ok houtcome
  | error hreport => exact .error (hreport.or_left _)

end RuleSet

namespace Registry

variable {sets : List RuleSet}

theorem MadeOf.yields_of_call (h : registry.MadeOf sets)
    (hspans : ∀ span, RuleSet.TemplateSpan sets span → P span) {tree : Tree}
    (htree : tree.PlacedIn P) {handler : Handler} (hmem : handler ∈ registry.lookup tree.kind)
    {cx cx' : Context} {result : Except Report Outcome}
    (hcall : (handler.call tree).run cx = (result, cx')) :
    Yields (fun report => Span.KnownIn P report.span) (Outcome.PlacedIn P) result := by
  obtain ⟨set, hset, rfl⟩ := h tree.kind handler hmem
  refine RuleSet.yields_of_call htree (fun span hspan => hspans span ?_) hcall
  obtain ⟨set', hset', hrules⟩ := hspan
  exact ⟨set', List.mem_singleton.1 hset' ▸ hset, hrules⟩

theorem MadeOf.failsIn (h : registry.MadeOf sets)
    (hspans : ∀ span, RuleSet.TemplateSpan sets span → P span) : registry.FailsIn P := by
  intro tree htree handler hmem cx cx' report hcall
  cases h.yields_of_call hspans htree hmem hcall with
  | error hreport => exact hreport

theorem MadeOf.keeps (h : registry.MadeOf sets)
    (hspans : ∀ span, RuleSet.TemplateSpan sets span → P span) (r : Replacement) :
    r.Keeps registry (Tree.PlacedIn P) := by
  intro cx cx' hreplaced hinput
  obtain ⟨handler, hmem, cx₁, -, hby⟩ := hreplaced.exists_by
  cases h.yields_of_call hspans hinput hmem hby.call with
  | ok houtput => exact houtput

end Registry

namespace Expander

/-- Expansion by rules keeps positions and invents none: what comes of a placed tree is placed, or
fails at a span, and every span is one of the tree or of a template. -/
theorem expand_keeps_positions (e : Expander) (sets : List RuleSet)
    (hsets : e.registry.MadeOf sets) (tree : Tree) (htree : tree.Placed) (s : ExpanderState) :
    (∀ out changed s', e.expand tree s = some (.ok ⟨out, changed⟩, s') →
      out.Placed ∧ ∀ span, out.HasSpan span →
        tree.HasSpan span ∨ RuleSet.TemplateSpan sets span) ∧
    ∀ report s', e.expand tree s = some (.error report, s') →
      ∃ span, report.span = some span ∧
        (tree.HasSpan span ∨ RuleSet.TemplateSpan sets span) := by
  have hplaced : tree.PlacedIn fun span =>
      tree.HasSpan span ∨ RuleSet.TemplateSpan sets span :=
    Tree.placedIn_iff.2 ⟨htree, fun _ => .inl⟩
  constructor
  · intro out changed s' hrun
    obtain ⟨rs, cx, hexpands, -⟩ := expand_eq_ok_iff.1 hrun
    have hkeeps := hexpands.keeps (Tree.hereditary_placedIn _)
      (fun r _ => hsets.keeps (fun _ => .inr) r) hplaced
    exact Tree.placedIn_iff.1 hkeeps
  · intro report s' hrun
    obtain ⟨rs, failure, cx, hfails, rfl, -⟩ := expand_eq_error_iff.1 hrun
    exact hfails.knownIn_report (hsets.failsIn fun _ => .inr)
      (fun r _ => hsets.keeps (fun _ => .inr) r) hplaced e.limit

/-- A macro that puts a name of its own, with a span, between two parts that change places; it
complains about a single part. -/
def swapParts : RuleSet where
  name := "swap"
  kind := "swap"
  rules :=
    let a : Tree := .leaf (.antiquot ⟨"a", .any⟩) none
    let b : Tree := .leaf (.antiquot ⟨"b", .any⟩) none
    [⟨.node "swap" [a, b] none,
      .template (.node "swapped" [b, .leaf (.ident "t") (some ⟨70, 71⟩), a] none)⟩,
      ⟨.node "swap" [a] none, .error "one part"⟩]
  nonempty := List.cons_ne_nil _ _
  checked := by rfl

/-- A placed use of the macro. -/
def swapUse : Tree :=
  .node "swap" [.leaf (.ident "x") (some ⟨1, 2⟩), .leaf (.ident "y") (some ⟨3, 4⟩)] (some ⟨0, 5⟩)

theorem expand_keeps_positions_swap :
    let e : Expander := ⟨Registry.empty.register "swap" swapParts.handler, 1⟩
    let out : Tree := .node "swapped" [.leaf (.ident "y") (some ⟨3, 4⟩),
      .leaf (.ident "t._@.Main._hyg.1") (some ⟨70, 71⟩), .leaf (.ident "x") (some ⟨1, 2⟩)]
      (some ⟨0, 5⟩)
    (∃ s, e.expand swapUse (.initial "Main" 0 false) = some (.ok ⟨out, true⟩, s)) ∧ out.Placed ∧
      ∀ span, out.HasSpan span →
        swapUse.HasSpan span ∨ RuleSet.TemplateSpan [swapParts] span := by
  intro e out
  have hsets : e.registry.MadeOf [swapParts] :=
    Registry.forall_mem_lookup_register Registry.forall_mem_lookup_empty
      ⟨swapParts, List.mem_cons_self, rfl⟩
  have hplaced : swapUse.Placed := by
    refine Tree.placedIn_node ⟨_, rfl, trivial⟩ (List.forall_mem_cons.2 ⟨?_, ?_⟩)
    · exact Tree.placedIn_leaf ⟨_, rfl, trivial⟩
    · exact List.forall_mem_singleton.2 (Tree.placedIn_leaf ⟨_, rfl, trivial⟩)
  obtain ⟨s, hrun⟩ : ∃ s, e.expand swapUse (.initial "Main" 0 false) =
      some (.ok ⟨out, true⟩, s) := ⟨_, by cbv⟩
  exact ⟨⟨s, hrun⟩,
    (expand_keeps_positions e [swapParts] hsets swapUse hplaced _).1 out true s hrun⟩

end Expander

end MacroExpansion
