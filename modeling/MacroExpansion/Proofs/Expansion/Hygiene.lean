import MacroExpansion.Rule.Basic
import MacroExpansion.Proofs.Expansion.Replay
import MacroExpansion.Proofs.Name.Stamp
import MacroExpansion.Proofs.Registry.Lookup
import MacroExpansion.Proofs.Rule.Outcome
import MacroExpansion.Proofs.Template.Idents

/-!
# Hygiene

An identifier of an expanded tree was there before the expansion, or a replacement introduced it.
When all handlers are rule sets, an introduced identifier is one of a template, stamped with the
scope of the replacement, and this scope is newer than all scopes that the tree had.  So no
identifier of the tree is taken for an introduced one, whichever way they meet.
-/

namespace MacroExpansion

/-! ## Identifiers along a run -/

/-- An identifier that one of some replacements put into its output. -/
def Introduced (rs : List Replacement) (name : String) : Prop :=
  ∃ r ∈ rs, name ∈ r.output.idents ∧ name ∉ r.input.idents

theorem Introduced.mono {rs rs' : List Replacement} {name : String} (h : Introduced rs name)
    (hsub : rs ⊆ rs') : Introduced rs' name :=
  let ⟨r, hr, hname⟩ := h
  ⟨r, hsub hr, hname⟩

theorem mem_input_or_introduced {r : Replacement} {name : String}
    (h : name ∈ r.output.idents) : name ∈ r.input.idents ∨ Introduced [r] name := by
  by_cases hinput : name ∈ r.input.idents
  · exact .inl hinput
  · exact .inr ⟨r, List.mem_cons_self, h, hinput⟩

/-- An identifier of an expansion was in the tree, or a replacement introduced it. -/
theorem Expands.mem_idents {registry : Registry} {budget : Nat} {cx cx' : Context} {tree : Tree}
    {out : Expanded Tree} {rs : List Replacement}
    (h : Expands registry budget cx tree rs out cx') :
    ∀ name ∈ out.value.idents, name ∈ tree.idents ∨ Introduced rs name := by
  refine Expands.induct
    (P := fun _ _ tree rs out _ => ∀ name ∈ out.value.idents,
      name ∈ tree.idents ∨ Introduced rs name)
    (Q := fun _ _ trees rs outs _ => ∀ name ∈ Tree.identsList outs.value,
      name ∈ Tree.identsList trees ∨ Introduced rs name)
    (fun hreplaced ih name hname => ?replace) (fun _ _ hname => ?leaf) (fun _ _ _ hname => ?settle)
    (fun _ ih ih' name hname => ?revisit) (fun _ hname => ?nil) (fun ih ih' name hname => ?cons) h
  case replace =>
    rw [← hreplaced.input_eq]
    rcases ih name hname with houtput | hlater
    · refine (mem_input_or_introduced houtput).imp_right (·.mono ?_)
      exact List.cons_subset_cons _ (List.nil_subset _)
    · exact .inr (hlater.mono (List.subset_cons_self _ _))
  case leaf => exact .inl hname
  case settle => exact .inl hname
  case revisit =>
    rcases ih' name hname with hnode | hlater
    · exact (ih name hnode).imp_right (·.mono (List.subset_append_left _ _))
    · exact .inr (hlater.mono (List.subset_append_right _ _))
  case nil => exact .inl hname
  case cons =>
    rw [Tree.identsList, List.mem_append] at hname ⊢
    rcases hname with hname | hname
    · exact (ih name hname).imp .inl (·.mono (List.subset_append_left _ _))
    · exact (ih' name hname).imp .inr (·.mono (List.subset_append_right _ _))

/-! ## Replacements by rules -/

/-- A replacement that a template of a rule set made: the first rule that matches the input has
the template, which is filled by what the pattern binds. -/
structure Replacement.ByTemplate (r : Replacement) (mainModule : String) (set : RuleSet)
    (template : Tree) : Prop where
  name : r.handler = set.name
  kind : r.kind = r.input.kind
  filled : ∃ pattern bindings span,
    RuleSet.firstMatch? set.rules r.input = some (⟨pattern, .template template⟩, bindings) ∧
    Filling.fill ⟨bindings, mainModule, r.scope, span⟩ template = .ok r.output

namespace Replacement

theorem By.byTemplate {r : Replacement} {set : RuleSet} {cx cx' : Context}
    (h : r.By set.handler cx cx') : ∃ template, r.ByTemplate cx.mainModule set template := by
  have happly : RuleSet.apply set.rules r.input (cx.inCall r.input) = .ok (.replaced r.output) :=
    Handler.fst_call_eq_ok_iff.1 (congrArg Prod.fst h.call)
  rw [RuleSet.apply] at happly
  split at happly
  case h_1 => cases happly
  case h_2 => cases happly
  case h_3 pattern template bindings hmatch =>
    refine ⟨template, h.name, h.kind, pattern, bindings, (cx.inCall r.input).span?, hmatch, ?_⟩
    obtain ⟨output, hfill, houtput⟩ := map_eq_ok_iff.1 happly
    cases houtput
    rw [h.scope]
    exact hfill

theorem ByTemplate.mem_idents {r : Replacement} {mainModule name : String} {set : RuleSet}
    {template : Tree} (h : r.ByTemplate mainModule set template) (hname : name ∈ r.output.idents) :
    (∃ n ∈ template.idents, ScopedName.stamp n mainModule r.scope = .ok name) ∨
      name ∈ r.input.idents := by
  obtain ⟨pattern, bindings, span, hmatch, hfill⟩ := h.filled
  refine (Filling.mem_idents_of_fill hfill hname).imp_right fun hbound => ?_
  exact Tree.mem_idents_of_match? (RuleSet.match?_of_firstMatch? hmatch) hbound

end Replacement

/-! ## Runs of rules -/

/-- The handlers of a registry are rule sets. -/
def Registry.OnlyRules (registry : Registry) : Prop :=
  ∀ kind, ∀ handler ∈ registry.lookup kind, ∃ set : RuleSet, handler = set.handler

/-- A replacement by a rule set of a registry that introduced a name: an identifier of the template,
stamped with the scope of the replacement. -/
def Registry.Stamped (registry : Registry) (mainModule : String) (r : Replacement)
    (name : String) : Prop :=
  ∃ (set : RuleSet) (template : Tree), set.handler ∈ registry.lookup r.kind ∧
    r.ByTemplate mainModule set template ∧
    ∃ n ∈ template.idents, ScopedName.stamp n mainModule r.scope = .ok name

/-- Every scope that a name of the module carries last is among the first `allocated` ones. -/
def Tree.ScopesWithin (tree : Tree) (mainModule : String) (allocated : Nat) : Prop :=
  ∀ name ∈ tree.idents, ∀ n, ScopedName.decode name = .ok n → n.mainModule = mainModule →
    ∀ scope, n.scopes.getLast? = some scope → scope.toNat ≤ allocated

theorem Made.stamped {registry : Registry} (hrules : registry.OnlyRules) {cx cx' : Context}
    {rs : List Replacement} (h : Made registry cx cx' rs) (hlt : cx'.allocated < UInt64.size)
    {name : String} (hname : Introduced rs name) :
    ∃ r ∈ rs, cx.allocated < r.scope.toNat ∧ r.scope.toNat ≤ cx'.allocated ∧
      registry.Stamped cx.mainModule r name := by
  obtain ⟨r, hr, houtput, hinput⟩ := hname
  obtain ⟨handler, hmem, cx₁, cx₂, hcx, hby, hcx'⟩ := h.exists_by r hr
  obtain ⟨set, rfl⟩ := hrules r.kind handler hmem
  obtain ⟨template, htemplate⟩ := hby.byTemplate
  rw [hcx.mainModule] at htemplate
  -- The call took the scope, so the counter is past it at the end.
  have hfirst := hcx.allocated
  have hcall := Handler.allocated_lt_of_call hby.call
  have hlast := hcx'.allocated
  have hscope : r.scope.toNat = cx₁.allocated + 1 := by
    rw [hby.scope, Scope.toNat_next (by omega)]
  refine ⟨r, hr, by omega, by omega, set, template, hmem, htemplate, ?_⟩
  exact (htemplate.mem_idents houtput).resolve_right hinput

theorem Tree.ScopesWithin.stamp_notMem {tree : Tree} {mainModule : String} {allocated : Nat}
    (h : tree.ScopesWithin mainModule allocated) {n name : String} {scope : Scope}
    (hlt : allocated < scope.toNat) (hstamp : ScopedName.stamp n mainModule scope = .ok name) :
    name ∉ tree.idents := by
  intro hname
  obtain ⟨parts, hdecode, hmodule, hlast⟩ := ScopedName.exists_decode_of_stamp hstamp
  have hle := h name hname parts hdecode hmodule scope hlast
  omega

namespace Expander

/-- Expansion by rules is hygienic: what it introduces is stamped with the new scope of a
replacement, and nothing of the kind was in the tree. -/
theorem expand_hygienic (e : Expander) (hrules : e.registry.OnlyRules) (mainModule : String)
    (allocated : Nat) (tracing : Bool) (tree out : Tree) (changed : Bool) (s : ExpanderState)
    (hscopes : tree.ScopesWithin mainModule allocated)
    (hrun : e.expand tree (.initial mainModule allocated tracing) = some (.ok ⟨out, changed⟩, s))
    (hlt : s.context.allocated < UInt64.size) :
    (∃ traced, e.expand tree (.initial mainModule allocated true) =
        some (.ok ⟨out, changed⟩, traced) ∧
      ∀ name ∈ out.idents, name ∈ tree.idents ∨
        ∃ r ∈ traced.replacements, allocated < r.scope.toNat ∧
          r.scope.toNat ≤ s.context.allocated ∧ e.registry.Stamped mainModule r name) ∧
    ∀ (n name : String) (scope : Scope), allocated < scope.toNat →
      ScopedName.stamp n mainModule scope = .ok name → name ∉ tree.idents := by
  obtain ⟨rs, cx, hexpands, rfl⟩ := expand_eq_ok_iff.1 hrun
  refine ⟨⟨_, expand_eq_ok_iff.2 ⟨rs, cx, hexpands, rfl⟩, fun name hname => ?_⟩,
    fun n name scope => hscopes.stamp_notMem⟩
  rw [ExpanderState.replacements_after]
  exact (hexpands.mem_idents name hname).imp_right (hexpands.made.stamped hrules hlt)

/-- A macro with an identifier of its own, `tmp`. -/
def bindTemporary : RuleSet where
  name := "bind"
  kind := "bind"
  rules := [⟨.node "bind" [.leaf (.antiquot ⟨"a", .any⟩) none] none,
    .template (.node "let" [.leaf (.ident "tmp") none, .leaf (.antiquot ⟨"a", .any⟩) none] none)⟩]
  nonempty := by decide
  checked := by rfl

/-- A use of the macro around another `tmp` and a name that an earlier run introduced. -/
def temporaryUse : Tree :=
  .node "bind" [.node "pair" [.leaf (.ident "tmp") none,
    .leaf (.ident "x._@.Main._hyg.3") none] none] none

theorem expand_hygienic_temporary :
    let e : Expander := ⟨Registry.empty.register "bind" bindTemporary.handler, 1⟩
    let out : Tree := .node "let" [.leaf (.ident "tmp._@.Main._hyg.4") none,
      .node "pair" [.leaf (.ident "tmp") none,
        .leaf (.ident "x._@.Main._hyg.3") none] none] none
    e.expand temporaryUse (.initial "Main" 3 false) =
        some (.ok ⟨out, true⟩, .initial "Main" 4 false) ∧
      ∃ s, e.expand temporaryUse (.initial "Main" 3 true) = some (.ok ⟨out, true⟩, s) ∧
        ∃ r ∈ s.replacements, 3 < r.scope.toNat ∧ r.scope.toNat ≤ 4 ∧
          e.registry.Stamped "Main" r "tmp._@.Main._hyg.4" := by
  intro e out
  have hrun : e.expand temporaryUse (.initial "Main" 3 false) =
      some (.ok ⟨out, true⟩, .initial "Main" 4 false) := by cbv
  have hrules : e.registry.OnlyRules :=
    Registry.forall_mem_lookup_register Registry.forall_mem_lookup_empty ⟨bindTemporary, rfl⟩
  have hscopes : temporaryUse.ScopesWithin "Main" 3 := by
    have hplain : ScopedName.decode "tmp" = .error (.notScoped "tmp") := by cbv
    have hscoped : ScopedName.decode "x._@.Main._hyg.3" = .ok ⟨"x", [], "Main", [3]⟩ := by cbv
    rintro name hname n hdecode - scope hscope
    rcases List.mem_pair.1 hname with rfl | rfl
    · rw [hplain] at hdecode
      cases hdecode
    · rw [hscoped] at hdecode
      cases hdecode
      cases hscope
      decide
  obtain ⟨⟨s, htraced, hidents⟩, -⟩ :=
    expand_hygienic e hrules "Main" 3 false temporaryUse out true _ hscopes hrun (by decide)
  exact ⟨hrun, s, htraced,
    (hidents "tmp._@.Main._hyg.4" (by decide)).resolve_left (by decide)⟩

end Expander

end MacroExpansion
