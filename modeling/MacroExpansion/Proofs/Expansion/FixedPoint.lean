import Mathlib
import MacroExpansion.Rule.Basic
import MacroExpansion.Script
import MacroExpansion.Proofs.Expansion.Failure
import MacroExpansion.Proofs.Registry.Lookup
import MacroExpansion.Proofs.Result
import MacroExpansion.Proofs.Tree.Parts

/-!
# Expansion reaches a fixed point

A handler decides by the tree if the context has no say in whether it declines.  When all handlers
do, an expanded tree is settled, that is, each of its parts is declined by the handlers of its kind.
Settled trees are expanded to themselves without a replacement, and so a run replaced something
exactly if its result is another tree than its input.  So objects are shared just where trees are
equal, whatever the handlers give back.
-/

namespace MacroExpansion

/-! ## Deciding by the tree -/

namespace Handler

/-- A handler declines a tree in a context. -/
def Declines (h : Handler) (tree : Tree) (cx : Context) : Prop :=
  ((h.attempt tree).run cx).1 = .ok .declined

/-- Whether a handler declines a tree does not depend on the context. -/
def DecidesByTree (h : Handler) : Prop :=
  ∀ tree cx cx', h.Declines tree cx → h.Declines tree cx'

end Handler

theorem map_replaced_ne_declined {α : Type} (x : Except Report α) (f : α → Tree) :
    x.map (fun a => Outcome.replaced (f a)) ≠ .ok .declined := by
  intro h
  obtain ⟨a, -, ha⟩ := map_eq_ok_iff.1 h
  cases ha

/-- A rule set declines the trees that no pattern matches. -/
theorem RuleSet.declines_handler_iff (set : RuleSet) (tree : Tree) (cx : Context) :
    set.handler.Declines tree cx ↔ firstMatch? set.rules tree = none := by
  show apply set.rules tree cx = .ok .declined ↔ _
  rw [apply]
  split
  case h_1 h => exact iff_of_true rfl h
  case h_2 h => exact iff_of_false (fun h => by cases h) (by simp [h])
  case h_3 h => exact iff_of_false (map_replaced_ne_declined _ id) (by simp [h])

theorem RuleSet.decidesByTree (set : RuleSet) : set.handler.DecidesByTree := by
  intro tree cx cx' h
  rw [declines_handler_iff] at h ⊢
  exact h

theorem HandlerM.fst_ofContext {α : Type} (f : Context → Except Report α) (cx : Context) :
    ((ofContext f).run cx).1 = f cx := rfl

theorem Script.decidesByTree (name : String) (script : Script) :
    (script.handler name).DecidesByTree := by
  intro tree cx cx' h
  replace h : ((script.run tree).run cx).1 = .ok .declined := h
  show ((script.run tree).run cx').1 = .ok .declined
  induction script generalizing cx cx' with
  | decline => rfl
  | child index => exact h
  | quote template bindings => exact absurd h (map_replaced_ne_declined _ id)
  | matchThen pattern template =>
    rw [run, HandlerM.fst_ofContext] at h ⊢
    split at h
    case h_1 => exact absurd h (map_replaced_ne_declined _ id)
    case h_2 => rfl
  | twice base kind => exact absurd h (map_replaced_ne_declined _ _)
  | failAt index text =>
    rw [run, HandlerM.fst_ofContext] at h ⊢
    split at h
    case h_1 => cases h
    case h_2 => rfl
  | underChild index next ih =>
    rw [run] at h ⊢
    split at h
    case h_1 t hchild => exact ih _ _ h
    case h_2 => exact h
  | underTree ref next ih => exact ih _ _ h
  | fresh next ih => exact ih _ _ h
  | ifAll text yes no ihYes ihNo =>
    rw [run] at h ⊢
    split at h
    case isTrue hcond =>
      rw [if_pos hcond]
      exact ihYes _ _ h
    case isFalse hcond =>
      rw [if_neg hcond]
      exact ihNo _ _ h
  | ifArity count yes no ihYes ihNo =>
    rw [run] at h ⊢
    split at h
    case isTrue hcond =>
      rw [if_pos hcond]
      exact ihYes _ _ h
    case isFalse hcond =>
      rw [if_neg hcond]
      exact ihNo _ _ h
  | _ => cases h

/-! ## Settled trees -/

namespace Registry

/-- All handlers decide by the tree. -/
def DecidesByTree (registry : Registry) : Prop :=
  ∀ kind, ∀ h ∈ registry.lookup kind, h.DecidesByTree

/-- A tree that the handlers of its kind decline in every context. -/
def Stuck (registry : Registry) (tree : Tree) : Prop :=
  ∀ h ∈ registry.lookup tree.kind, ∀ cx, h.Declines tree cx

/-- A tree all of whose parts are stuck. -/
def Settled (registry : Registry) (tree : Tree) : Prop :=
  ∀ part, part.IsPart tree → registry.Stuck part

variable {registry : Registry}

theorem Settled.stuck {tree : Tree} (h : registry.Settled tree) : registry.Stuck tree :=
  h tree (.self tree)

theorem Settled.of_mem {kind : String} {children : List Tree} {span : Option Span}
    (h : registry.Settled (.node kind children span)) :
    ∀ child ∈ children, registry.Settled child :=
  fun _ hchild part hpart => h part (.child hchild hpart)

theorem settled_leaf {l : Leaf} {span : Option Span} (h : registry.Stuck (.leaf l span)) :
    registry.Settled (.leaf l span) := by
  intro part hpart
  rwa [Tree.isPart_leaf_iff.1 hpart]

theorem settled_node {kind : String} {children : List Tree} {span : Option Span}
    (h : registry.Stuck (.node kind children span))
    (hchildren : ∀ child ∈ children, registry.Settled child) :
    registry.Settled (.node kind children span) := by
  intro part hpart
  rcases Tree.isPart_node_iff.1 hpart with rfl | ⟨child, hchild, hpart⟩
  · exact h
  · exact hchildren child hchild part hpart

/-- With handlers that decide by the tree, a tree that was declined once is stuck. -/
theorem stuck_of_declined {tree : Tree} {handlers : List Handler} {cx cx' : Context}
    (hdecides : ∀ h ∈ handlers, h.DecidesByTree) (h : Declined tree handlers cx cx') :
    ∀ h ∈ handlers, ∀ cx, h.Declines tree cx := by
  induction h with
  | nil => exact fun _ hmem => absurd hmem List.not_mem_nil
  | cons hcall _ ih =>
    obtain ⟨hhead, htail⟩ := List.forall_mem_cons.1 hdecides
    have hdeclines := Handler.fst_call_eq_ok_iff.1 (congrArg Prod.fst hcall)
    exact List.forall_mem_cons.2 ⟨fun cx => hhead _ _ _ hdeclines, ih htail⟩

theorem exists_declined {tree : Tree} {handlers : List Handler}
    (h : ∀ h ∈ handlers, ∀ cx, h.Declines tree cx) (cx : Context) :
    ∃ cx', Declined tree handlers cx cx' := by
  induction handlers generalizing cx with
  | nil => exact ⟨cx, .nil⟩
  | cons handler handlers ih =>
    obtain ⟨hhead, htail⟩ := List.forall_mem_cons.1 h
    have hcall := Handler.fst_call_eq_ok_iff.2 (hhead (cx.inCall tree))
    obtain ⟨cx', hdeclined⟩ := ih htail ((handler.call tree).run cx).2
    exact ⟨cx', .cons (Prod.ext hcall rfl) hdeclined⟩

theorem Stuck.not_replaced {tree : Tree} {cx cx' : Context} {r : Replacement}
    (h : registry.Stuck tree) : ¬ Replaced tree (registry.lookup tree.kind) cx r cx' := by
  intro hreplaced
  obtain ⟨handler, hmem, cx₁, -, hby⟩ := hreplaced.exists_by
  have hcall := Handler.fst_call_eq_ok_iff.2 (h handler hmem (cx₁.inCall tree))
  rw [← hreplaced.input_eq, hby.call] at hcall
  cases hcall

end Registry

/-! ## Runs -/

variable {registry : Registry}

/-- What a run results in is settled. -/
theorem Expands.settled (hdecides : registry.DecidesByTree) {budget : Nat} {cx cx' : Context}
    {tree : Tree} {out : Expanded Tree} {rs : List Replacement}
    (h : Expands registry budget cx tree rs out cx') : registry.Settled out.value := by
  refine Expands.induct (P := fun _ _ _ _ out _ => registry.Settled out.value)
    (Q := fun _ _ _ _ outs _ => ∀ out ∈ outs.value, registry.Settled out)
    (fun _ ih => ?replace) (fun hdeclined => ?leaf) (fun hdeclined ih => ?settle)
    (fun _ _ ih => ?revisit) ?nil (fun ih ih' => ?cons) h
  case replace => exact ih
  case leaf => exact Registry.settled_leaf (Registry.stuck_of_declined (hdecides _) hdeclined)
  case settle => exact Registry.settled_node (Registry.stuck_of_declined (hdecides _) hdeclined) ih
  case revisit => exact ih
  case nil => exact fun _ hout => absurd hout List.not_mem_nil
  case cons => exact List.forall_mem_cons.2 ⟨ih, ih'⟩

/-- Nothing in a settled tree is replaced or changed. -/
theorem Expands.nil_of_settled {budget : Nat} {cx cx' : Context} {tree : Tree}
    {out : Expanded Tree} {rs : List Replacement} (h : Expands registry budget cx tree rs out cx')
    (hsettled : registry.Settled tree) : rs = [] ∧ out.changed = false := by
  refine Expands.induct
    (P := fun _ _ tree rs out _ => registry.Settled tree → rs = [] ∧ out.changed = false)
    (Q := fun _ _ trees rs outs _ => (∀ tree ∈ trees, registry.Settled tree) →
      rs = [] ∧ outs.changed = false)
    (fun hreplaced _ hsettled => ?replace) (fun _ _ => ?leaf) (fun _ ih hsettled => ?settle)
    (fun _ ih _ hsettled => ?revisit) (fun _ => ?nil) (fun ih ih' hsettled => ?cons) h hsettled
  case replace => exact absurd hreplaced hsettled.stuck.not_replaced
  case leaf => exact ⟨rfl, rfl⟩
  case settle => exact ⟨(ih hsettled.of_mem).1, rfl⟩
  case revisit => cases (ih hsettled.of_mem).2
  case nil => exact ⟨rfl, rfl⟩
  case cons =>
    obtain ⟨htree, htrees⟩ := List.forall_mem_cons.1 hsettled
    obtain ⟨hrs, hout⟩ := ih htree
    obtain ⟨hrs', houts⟩ := ih' htrees
    rw [hrs, hrs', houts, Registry.moved_eq_false_of_unchanged hout]
    exact ⟨rfl, rfl⟩

section

variable {budget : Nat} {cx cx' : Context} {rs : List Replacement}

/-- With handlers that decide by the tree, a tree is as it was only if nothing happened to it. -/
theorem Expands.nil_of_eq (hdecides : registry.DecidesByTree) {tree : Tree} {out : Expanded Tree}
    (h : Expands registry budget cx tree rs out cx') (heq : out.value = tree) :
    rs = [] ∧ out.changed = false :=
  h.nil_of_settled (heq ▸ h.settled hdecides)

theorem Expands.nil_iff (hdecides : registry.DecidesByTree) {tree : Tree} {out : Expanded Tree}
    (h : Expands registry budget cx tree rs out cx') : rs = [] ↔ out.value = tree :=
  ⟨fun hrs => h.eq_of_unchanged (h.unchanged_of_nil hrs), fun heq => (h.nil_of_eq hdecides heq).1⟩

theorem Expands.unchanged_iff (hdecides : registry.DecidesByTree) {tree : Tree}
    {out : Expanded Tree} (h : Expands registry budget cx tree rs out cx') :
    out.changed = false ↔ out.value = tree :=
  ⟨h.eq_of_unchanged, fun heq => (h.nil_of_eq hdecides heq).2⟩

/-- Then it does not matter which object the handlers give back. -/
theorem Expands.moved_eq_changed (hdecides : registry.DecidesByTree) {tree : Tree}
    {out : Expanded Tree} (h : Expands registry budget cx tree rs out cx')
    (before after : Context) :
    registry.moved before after tree out = out.changed :=
  Registry.moved_eq_changed_of_ne (h.unchanged_iff hdecides).2

theorem ExpandsAll.unchanged_iff (hdecides : registry.DecidesByTree) {trees : List Tree}
    {outs : Expanded (List Tree)} (h : ExpandsAll registry budget cx trees rs outs cx') :
    outs.changed = false ↔ outs.value = trees := by
  refine ⟨h.eq_of_unchanged, fun heq => ?_⟩
  induction trees generalizing cx rs outs with
  | nil =>
    cases h
    rfl
  | cons tree trees ih =>
    cases h with
    | cons htree htrees =>
      obtain ⟨heqTree, heqTrees⟩ := List.cons.inj heq
      rw [htree.moved_eq_changed hdecides, (htree.unchanged_iff hdecides).2 heqTree,
        ih htrees heqTrees, Bool.or_false]

end

/-- Trees that run to themselves in every context do so one after the other. -/
theorem ExpandsAll.refl {budget : Nat} {trees : List Tree}
    (h : ∀ tree ∈ trees, ∀ cx, ∃ cx', Expands registry budget cx tree [] ⟨tree, false⟩ cx')
    (cx : Context) : ∃ cx', ExpandsAll registry budget cx trees [] ⟨trees, false⟩ cx' := by
  induction trees generalizing cx with
  | nil => exact ⟨cx, .nil⟩
  | cons tree trees ih =>
    obtain ⟨htree, htrees⟩ := List.forall_mem_cons.1 h
    obtain ⟨cx₁, htree⟩ := htree cx
    obtain ⟨cx', htrees⟩ := ih htrees cx₁
    have hall := ExpandsAll.cons htree htrees
    rw [Registry.moved_eq_false_of_unchanged rfl] at hall
    exact ⟨cx', hall⟩

theorem Expands.refl_of_settled {tree : Tree} (budget : Nat) (h : registry.Settled tree)
    (cx : Context) : ∃ cx', Expands registry budget cx tree [] ⟨tree, false⟩ cx' := by
  induction tree using Tree.inductionOn generalizing cx with
  | leaf l span =>
    obtain ⟨cx', hdeclined⟩ := Registry.exists_declined h.stuck cx
    exact ⟨cx', .leaf hdeclined⟩
  | node kind children span ih =>
    obtain ⟨cx₁, hdeclined⟩ := Registry.exists_declined h.stuck cx
    obtain ⟨cx', hchildren⟩ :=
      ExpandsAll.refl (fun child hchild => ih child hchild (h.of_mem child hchild)) cx₁
    exact ⟨cx', .settle hdeclined hchildren⟩

namespace Expander

theorem expandTree_of_settled {e : Expander} {tree : Tree} (h : e.registry.Settled tree)
    (budget : Nat) (origin : Option Span) (changed : Bool) (s : ExpanderState) :
    ∃ cx, e.expandTree budget origin changed tree s =
      some (.ok ⟨tree, changed⟩, { s with context := cx }) := by
  obtain ⟨cx, hexpands⟩ := Expands.refl_of_settled budget h s.context
  refine ⟨cx, ?_⟩
  rw [expandTree_of_expands hexpands, s.after_nil, Bool.or_false]

theorem moved_eq_changed {e : Expander} (hdecides : e.registry.DecidesByTree) {budget : Nat}
    {origin : Option Span} {tree : Tree} {out : Expanded Tree} {s s' : ExpanderState}
    (h : e.expandTree budget origin false tree s = some (.ok out, s')) (before after : Context) :
    e.registry.moved before after tree out = out.changed := by
  obtain ⟨rs, out', cx, hexpands, hout, -⟩ := expandTree_eq_ok_iff.1 h
  rw [Bool.false_or] at hout
  obtain rfl : out = out' := hout
  exact hexpands.moved_eq_changed hdecides before after

/-- With handlers that decide by the tree, such as rule sets and scripts, expansion reaches a fixed
point, and what it takes for a change is what a comparison of trees would show. -/
theorem expand_reaches_fixedPoint :
    (∀ set : RuleSet, set.handler.DecidesByTree) ∧
    (∀ (name : String) (script : Script), (script.handler name).DecidesByTree) ∧
    ∀ e : Expander, e.registry.DecidesByTree →
      (∀ tree s out changed s', e.expand tree s = some (.ok ⟨out, changed⟩, s') →
        e.registry.Settled out ∧
        (∀ limit s₁, ∃ cx, expand ⟨e.registry, limit⟩ out s₁ =
          some (.ok ⟨out, false⟩, { s₁ with context := cx })) ∧
        ∃ rs : List Replacement, (rs = [] ↔ out = tree) ∧ ∀ trace,
          e.expand tree { s with trace } =
            some (.ok ⟨out, changed⟩, { s' with trace := trace.map (rs.reverse ++ ·) })) ∧
      (∀ budget origin tree s out changed s',
        e.expandTree budget origin false tree s = some (.ok ⟨out, changed⟩, s') →
          (changed = false ↔ out = tree) ∧
          (e.registry.moved s.context s'.context tree ⟨out, changed⟩ = false ↔ out = tree)) ∧
      ∀ budget trees s outs changed s',
        e.expandList budget trees s = some (.ok ⟨outs, changed⟩, s') →
          (changed = false ↔ outs = trees) := by
  refine ⟨RuleSet.decidesByTree, Script.decidesByTree, fun e hdecides => ⟨?_, ?_, ?_⟩⟩
  · intro tree s out changed s' h
    obtain ⟨rs, cx', hexpands, rfl⟩ := expand_eq_ok_iff.1 h
    have hsettled := hexpands.settled hdecides
    refine ⟨hsettled, fun limit s₁ => ?_, rs, hexpands.nil_iff hdecides, fun trace => ?_⟩
    · exact expandTree_of_settled (e := ⟨e.registry, limit⟩) hsettled _ _ _ _
    · exact expand_eq_ok_iff.2 ⟨rs, cx', hexpands, rfl⟩
  · intro budget origin tree s out changed s' h
    obtain ⟨rs, out', cx', hexpands, hout, rfl⟩ := expandTree_eq_ok_iff.1 h
    rw [Bool.false_or] at hout
    obtain rfl : ⟨out, changed⟩ = out' := hout
    rw [hexpands.moved_eq_changed hdecides]
    exact ⟨hexpands.unchanged_iff hdecides, hexpands.unchanged_iff hdecides⟩
  · intro budget trees s outs changed s' h
    obtain ⟨rs, cx', hexpands, rfl⟩ := expandList_eq_ok_iff.1 h
    exact hexpands.unchanged_iff hdecides

/-- An expander with one macro, which turns nodes `a` into nodes `b`. -/
def retagger : Expander := ⟨Registry.empty.register "a" ((Script.retag "b").handler "retag"), 1⟩

theorem expand_reaches_fixedPoint_retagger :
    let tree : Tree := .node "c" [.node "a" [] none] none
    let out : Tree := .node "c" [.node "b" [] none] none
    (∃ s, retagger.expand tree (.initial "Main" 0 true) = some (.ok ⟨out, true⟩, s)) ∧
      retagger.registry.Settled out ∧
      ∃ cx, expand ⟨retagger.registry, 0⟩ out (.initial "Main" 7 true) =
        some (.ok ⟨out, false⟩, ⟨cx, some []⟩) := by
  intro tree out
  have hrun : retagger.expand tree (.initial "Main" 0 true) =
      some (.ok ⟨out, true⟩, ⟨.initial "Main" 1,
        some [⟨"retag", "a", 1, .node "a" [] none, .node "b" [] none⟩]⟩) := by cbv
  have hdecides : retagger.registry.DecidesByTree :=
    Registry.forall_mem_lookup_register Registry.forall_mem_lookup_empty (Script.decidesByTree _ _)
  obtain ⟨hsettled, hagain, -⟩ :=
    (expand_reaches_fixedPoint.2.2 retagger hdecides).1 _ _ _ _ _ hrun
  exact ⟨⟨_, hrun⟩, hsettled, hagain 0 (.initial "Main" 7 true)⟩

end Expander

end MacroExpansion
