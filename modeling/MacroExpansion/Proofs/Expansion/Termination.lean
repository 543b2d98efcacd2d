import MacroExpansion.Proofs.Expansion.FixedPoint

/-!
# Expansion terminates

When all handlers decide by the tree, a pass over the children leaves them settled, so that the next
visit either ends with them as they are or replaces the node.  Replacements are bounded by the
budget, and so every run ends (`exists_runs`).
-/

namespace MacroExpansion

/-! ## Settled lists -/

variable {registry : Registry}

theorem Registry.Settled.children {tree : Tree} (h : registry.Settled tree) :
    ∀ child ∈ tree.children, registry.Settled child := by
  cases tree with
  | leaf l span => exact fun _ hchild => absurd hchild List.not_mem_nil
  | node kind children span => exact h.of_mem

namespace ExpandsAll

variable {budget : Nat} {cx cx' : Context} {trees : List Tree} {outs : Expanded (List Tree)}
  {rs : List Replacement}

theorem settled (hdecides : registry.DecidesByTree)
    (h : ExpandsAll registry budget cx trees rs outs cx') :
    ∀ out ∈ outs.value, registry.Settled out := by
  induction trees generalizing cx rs outs with
  | nil =>
    cases h
    exact fun _ hout => absurd hout List.not_mem_nil
  | cons tree trees ih =>
    cases h with
    | cons htree htrees => exact List.forall_mem_cons.2 ⟨htree.settled hdecides, ih htrees⟩

theorem unchanged_of_settled (h : ExpandsAll registry budget cx trees rs outs cx')
    (hsettled : ∀ tree ∈ trees, registry.Settled tree) : outs.changed = false := by
  induction trees generalizing cx rs outs with
  | nil =>
    cases h
    rfl
  | cons tree trees ih =>
    obtain ⟨hsettledTree, hsettledTrees⟩ := List.forall_mem_cons.1 hsettled
    cases h with
    | cons htree htrees =>
      have hout := (htree.nil_of_settled hsettledTree).2
      rw [Registry.moved_eq_false_of_unchanged hout, ih htrees hsettledTrees, Bool.or_false]

end ExpandsAll

/-! ## Enough visits -/

namespace Expander

variable {e : Expander}

/-- A number of visits that is enough for nodes with these children: more than the budget, or just
as many if the children are settled. -/
def Suffices (e : Expander) (visits budget : Nat) (children : List Tree) : Prop :=
  budget < visits ∨ budget ≤ visits ∧ ∀ child ∈ children, e.registry.Settled child

theorem Suffices.replaced {visits budget : Nat} {children : List Tree}
    (h : e.Suffices visits (budget + 1) children) (children' : List Tree) :
    e.Suffices visits budget children' := by
  rcases h with hlt | ⟨hle, -⟩
  · exact .inl (by omega)
  · exact .inl (by omega)

mutual

theorem exists_runs (hdecides : e.registry.DecidesByTree) (visits : Nat) {budget : Nat}
    (origin : Option Span) (changed : Bool) (tree : Tree) (s : ExpanderState)
    (h : e.Suffices visits budget tree.children) :
    ∃ calls result, e.Runs budget origin changed tree s calls result := by
  match hoffer : e.registry.offer tree s with
  | (.error report, s₁) => exact ⟨_, _, .failed hoffer⟩
  | (.ok (.replaced output), s₁) =>
    match budget with
    | 0 => exact ⟨_, _, .exhausted hoffer⟩
    | budget + 1 =>
      obtain ⟨later, result, hout⟩ :=
        exists_runs hdecides visits origin true output s₁ (h.replaced _)
      exact ⟨_, _, .replaced hoffer hout⟩
  | (.ok .declined, s₁) =>
    match tree with
    | .leaf l span => exact ⟨_, _, .leaf hoffer⟩
    | .node kind children span =>
      obtain ⟨inside, result, hchildren⟩ := exists_runsAll hdecides visits children s₁ h
      match result with
      | (.error report, s₂) => exact ⟨_, _, .failedInside hoffer hchildren⟩
      | (.ok ⟨children', false⟩, s₂) => exact ⟨_, _, .left hoffer hchildren⟩
      | (.ok ⟨children', true⟩, s₂) =>
        obtain ⟨rs, cx, hexpands, -⟩ := expandList_eq_ok_iff.1 hchildren.expandList_eq
        have hlt : budget < visits := by
          refine h.resolve_right fun ⟨_, hsettled⟩ => ?_
          cases hexpands.unchanged_of_settled hsettled
        -- The children are settled now, so that the next visit needs no more than the budget.
        match visits with
        | 0 => exact absurd hlt (Nat.not_lt_zero _)
        | visits + 1 =>
          have hnext : e.Suffices visits budget children' :=
            .inr ⟨Nat.le_of_lt_succ hlt, hexpands.settled hdecides⟩
          obtain ⟨later, result, hout⟩ :=
            exists_runs hdecides visits origin true (.node kind children' span) s₂ hnext
          exact ⟨_, _, .revisited hoffer hchildren hout⟩
termination_by (visits, budget, sizeOf tree)

theorem exists_runsAll (hdecides : e.registry.DecidesByTree) (visits : Nat) {budget : Nat}
    (trees : List Tree) (s : ExpanderState) (h : e.Suffices visits budget trees) :
    ∃ calls result, e.RunsAll budget trees s calls result := by
  match trees with
  | [] => exact ⟨_, _, .nil⟩
  | tree :: rest =>
    have hsub : e.Suffices visits budget tree.children :=
      h.imp_right fun ⟨hle, hsettled⟩ => ⟨hle, (hsettled tree List.mem_cons_self).children⟩
    have hrest : e.Suffices visits budget rest :=
      h.imp_right fun ⟨hle, hsettled⟩ => ⟨hle, (List.forall_mem_cons.1 hsettled).2⟩
    obtain ⟨calls, result, htree⟩ := exists_runs hdecides visits tree.span false tree s hsub
    match result with
    | (.error report, s₁) => exact ⟨_, _, .failed htree⟩
    | (.ok out, s₁) =>
      obtain ⟨later, result', htrees⟩ := exists_runsAll hdecides visits rest s₁ hrest
      match result' with
      | (.error report, s₂) => exact ⟨_, _, .failedLater htree htrees⟩
      | (.ok outs, s₂) => exact ⟨_, _, .cons htree htrees⟩
termination_by (visits, budget, sizeOf trees)

end

/-- With handlers that decide by the tree, every tree has an expansion. -/
theorem exists_ends (hdecides : e.registry.DecidesByTree) (tree : Tree) (s : ExpanderState) :
    ∃ calls result, e.Ends tree s calls result :=
  exists_runs hdecides (e.limit + 1) tree.span false tree s (.inl (Nat.lt_succ_self _))

/-- With handlers that decide by the tree, such as rule sets and scripts, expansion ends, with a
tree or with a report, after some number of calls of handlers.  What the expander gives is the end
of such a run, for any handlers. -/
theorem expand_terminates :
    (∀ set : RuleSet, set.handler.DecidesByTree) ∧
    (∀ (name : String) (script : Script), (script.handler name).DecidesByTree) ∧
    (∀ (e : Expander) tree s result,
      e.expand tree s = some result ↔ ∃ calls, e.Ends tree s calls result) ∧
    ∀ e : Expander, e.registry.DecidesByTree → ∀ tree s, ∃ result,
      e.expand tree s = some result ∧ (∃ calls, e.Ends tree s calls result) ∧
      ∀ calls result', e.Ends tree s calls result' → result' = result := by
  refine ⟨RuleSet.decidesByTree, Script.decidesByTree, fun e tree s result => ?_,
    fun e hdecides tree s => ?_⟩
  · exact expandTree_eq_some_iff
  · obtain ⟨calls, result, hends⟩ := exists_ends hdecides tree s
    have hresult := hends.expandTree_eq
    refine ⟨result, hresult, ⟨calls, hends⟩, fun calls' result' hends' => ?_⟩
    exact Option.some.inj (hends'.expandTree_eq.symm.trans hresult)

/-- An expander with one macro, which puts a node around itself. -/
def grower : Expander := ⟨Registry.empty.register "grow" ((Script.wrap "wrap").handler "grow"), 1⟩

theorem expand_terminates_grower :
    ∃ s calls, grower.Ends (.node "grow" [] none) (.initial "Main" 0 false) calls
      (.error (.of (.recursionLimit 1 "wrap")), s) := by
  have hdecides : grower.registry.DecidesByTree :=
    Registry.forall_mem_lookup_register Registry.forall_mem_lookup_empty (Script.decidesByTree _ _)
  obtain ⟨result, hexpand, ⟨calls, hends⟩, -⟩ :=
    expand_terminates.2.2.2 grower hdecides (.node "grow" [] none) (.initial "Main" 0 false)
  have hrun : grower.expand (.node "grow" [] none) (.initial "Main" 0 false) =
      some (.error (.of (.recursionLimit 1 "wrap")), .initial "Main" 2 false) := by cbv
  rw [hrun] at hexpand
  obtain rfl := Option.some.inj hexpand
  exact ⟨_, calls, hends⟩

end Expander

end MacroExpansion
