import MacroExpansion.Script
import MacroExpansion.Proofs.Expansion.Derivation
import MacroExpansion.Proofs.Name.Stamp
import MacroExpansion.Proofs.Rule.Outcome
import MacroExpansion.Proofs.Template.Idents

/-!
# Activations

A scope that is handed out is active until the body that it was handed out for ends, and stamps the
identifiers that are made while it is the innermost one.  This is the account of what a macro does
with scopes: the activations of a call, the outermost first, with the identifiers of each of them.
The account is complete.  Every scope that is handed out during a call has its activation there
(`opened_activations`), and an identifier of the output that is neither in the tree nor in the text
of the macro was made by one of them (`mem_idents_of_call`).
-/

namespace MacroExpansion

/-! ## Activations in order -/

/-- A scope, with the identifiers that are made while it is the innermost one. -/
structure Activation where
  scope : Scope
  idents : List String
  deriving DecidableEq

/-- All identifiers of an activation are stamped with its scope. -/
def Activation.Stamped (a : Activation) : Prop :=
  ∀ x ∈ a.idents, ∃ name mainModule, ScopedName.stamp name mainModule a.scope = .ok x

/-- The scope of an activation can be read off the identifiers that it makes. -/
theorem Activation.Stamped.ne_of_scope_ne {a b : Activation} (ha : a.Stamped) (hb : b.Stamped)
    (h : a.scope ≠ b.scope) : ∀ x ∈ a.idents, ∀ y ∈ b.idents, x ≠ y := by
  rintro x hx _ hy rfl
  obtain ⟨_, _, hstamp⟩ := ha x hx
  obtain ⟨_, _, hstamp'⟩ := hb x hy
  obtain ⟨n, hdecode, -, hlast⟩ := ScopedName.exists_decode_of_stamp hstamp
  obtain ⟨n', hdecode', -, hlast'⟩ := ScopedName.exists_decode_of_stamp hstamp'
  have hn : n = n' := Except.ok.inj (hdecode.symm.trans hdecode')
  rw [hn, hlast'] at hlast
  exact h (Option.some.inj hlast).symm

/-- Activations in the order in which they are opened, one for each scope that is handed out while
the counter goes from one number to another. -/
inductive Opened : Nat → List Activation → Nat → Prop
  | nil (allocated : Nat) : Opened allocated [] allocated
  | cons {allocated after : Nat} {idents : List String} {rest : List Activation} :
      Activation.Stamped ⟨Scope.next allocated, idents⟩ → Opened (allocated + 1) rest after →
      Opened allocated (⟨Scope.next allocated, idents⟩ :: rest) after

namespace Opened

variable {allocated between after : Nat} {activations later : List Activation}

theorem append (h : Opened allocated activations between) (h' : Opened between later after) :
    Opened allocated (activations ++ later) after := by
  induction h with
  | nil => exact h'
  | cons hstamped _ ih => exact .cons hstamped (ih h')

theorem stamped (h : Opened allocated activations after) : ∀ a ∈ activations, a.Stamped := by
  induction h with
  | nil => exact fun _ ha => absurd ha List.not_mem_nil
  | cons hstamped _ ih => exact List.forall_mem_cons.2 ⟨hstamped, ih⟩

theorem after_eq (h : Opened allocated activations after) :
    after = allocated + activations.length := by
  induction h with
  | nil => rfl
  | cons _ _ ih =>
    rw [ih, List.length_cons]
    omega

/-- The scopes are consecutive, as long as the counter does not go past the last of them. -/
theorem map_toNat_scope (h : Opened allocated activations after) (hlt : after < UInt64.size) :
    activations.map (·.scope.toNat) = List.range' (allocated + 1) (after - allocated) := by
  have hafter := h.after_eq
  rw [hafter, Nat.add_sub_cancel_left]
  clear hafter
  induction h with
  | nil => rfl
  | cons _ hrest ih =>
    have hafter := hrest.after_eq
    rw [List.map_cons, List.length_cons, List.range'_succ, ih hlt, Scope.toNat_next (by omega)]

theorem pairwise_scope (h : Opened allocated activations after) (hlt : after < UInt64.size) :
    activations.Pairwise (·.scope < ·.scope) := by
  have hscopes : (activations.map (·.scope.toNat)).Pairwise (· < ·) := by
    rw [h.map_toNat_scope hlt]
    exact List.pairwise_lt_range'
  exact (List.pairwise_map.1 hscopes).imp UInt64.lt_iff_toNat_lt.2

end Opened

/-! ## Contexts -/

namespace Context

/-- The context in a scope of its own. -/
def inScope (cx : Context) : Context :=
  ⟨cx.mainModule, Scope.next cx.allocated :: cx.scopes, cx.refs, cx.allocated + 1⟩

/-- The context with a tree as the one being worked on. -/
def beneath (cx : Context) (tree : Tree) : Context := { cx with refs := tree :: cx.refs }

/-- Names stamped on behalf of the innermost invocation, those of them that can be. -/
def stamps (cx : Context) (names : List String) : List String :=
  match cx.scope? with
  | none => []
  | some scope =>
    names.filterMap fun name => (ScopedName.stamp name cx.mainModule scope).toOption

theorem mem_stamps {cx : Context} {scope : Scope} (hscope : cx.scope? = some scope)
    {names : List String} {x : String} :
    x ∈ cx.stamps names ↔ ∃ name ∈ names, ScopedName.stamp name cx.mainModule scope = .ok x := by
  rw [stamps, hscope, List.mem_filterMap]
  refine exists_congr fun name => and_congr_right fun _ => ?_
  cases ScopedName.stamp name cx.mainModule scope with
  | ok stamped => simp [Except.toOption]
  | error fault => simp [Except.toOption]

theorem mem_idents_of_fill {cx : Context} {template output : Tree} {bindings : Bindings}
    (h : cx.fill template bindings = .ok output) :
    ∀ name ∈ output.idents, name ∈ bindings.idents ∨ name ∈ cx.stamps template.idents := by
  intro name hname
  rw [fill] at h
  split at h
  case h_1 => cases h
  case h_2 scope hscope =>
    rcases Filling.mem_idents_of_fill h hname with hstamped | hbound
    · exact .inr ((mem_stamps hscope).2 hstamped)
    · exact .inl hbound

theorem mem_idents_of_freshIdent {cx : Context} {base : String} {output : Tree}
    (h : cx.freshIdent base = .ok output) :
    ∀ name ∈ output.idents, name ∈ cx.stamps [base] := by
  intro name hname
  rw [freshIdent] at h
  split at h
  case h_1 => cases h
  case h_2 scope hscope =>
    split at h
    case h_1 stamped hstamp =>
      cases h
      obtain rfl := List.mem_singleton.1 hname
      exact (mem_stamps hscope).2 ⟨base, List.mem_cons_self, hstamp⟩
    case h_2 => cases h

end Context

/-! ## What a computation makes -/

/-- What a computation does with scopes. -/
structure Work where
  /-- The identifiers that it makes in the scope that was the innermost one before. -/
  idents : List String
  /-- The activations that it opens. -/
  opened : List Activation

namespace Work

/-- The work of a computation that makes no identifier and opens no scope. -/
def nothing : Work := ⟨[], []⟩

/-- The work of filling in some names. -/
def stamping (cx : Context) (names : List String) : Work := ⟨cx.stamps names, []⟩

/-- The same work in a scope of its own. -/
def inScope (w : Work) (scope : Scope) : Work := ⟨[], ⟨scope, w.idents⟩ :: w.opened⟩

/-- All identifiers that are made. -/
def made (w : Work) : List String := w.idents ++ w.opened.flatMap (·.idents)

/-- A computation in a context does this work: it hands out the scopes of the activations, stamps
with the innermost scope what it makes there, and returns no identifier but these and some that
are known. -/
structure Of (w : Work) (known : List String) (cx : Context) (x : HandlerM Outcome) : Prop where
  opened : Opened cx.allocated w.opened (x.run cx).2.allocated
  stamped : ∀ scope, cx.scope? = some scope → Activation.Stamped ⟨scope, w.idents⟩
  covers : ∀ output, (x.run cx).1 = .ok (.replaced output) →
    ∀ name ∈ output.idents, name ∈ known ∨ name ∈ w.made

variable {w : Work} {known known' : List String} {cx : Context} {x : HandlerM Outcome}

theorem Of.mono (h : w.Of known cx x) (hsub : known ⊆ known') : w.Of known' cx x where
  opened := h.opened
  stamped := h.stamped
  covers output hrun name hname := (h.covers output hrun name hname).imp_left (hsub ·)

theorem of_nothing {f : Context → Except Report Outcome}
    (h : ∀ output, f cx = .ok (.replaced output) → output.idents ⊆ known) :
    nothing.Of known cx (.ofContext f) where
  opened := .nil _
  stamped _ _ _ hx := absurd hx List.not_mem_nil
  covers output hrun _ hname := .inl (h output hrun hname)

theorem of_stamping {f : Context → Except Report Outcome} {names : List String}
    (h : ∀ output, f cx = .ok (.replaced output) →
      ∀ name ∈ output.idents, name ∈ known ∨ name ∈ cx.stamps names) :
    (stamping cx names).Of known cx (.ofContext f) where
  opened := .nil _
  stamped scope hscope x hx := by
    obtain ⟨name, -, hstamp⟩ := (Context.mem_stamps hscope).1 hx
    exact ⟨name, cx.mainModule, hstamp⟩
  covers output hrun name hname :=
    (h output hrun name hname).imp_right (List.mem_append_left _)

theorem of_fill {template : Tree} {bindings : Bindings} (h : bindings.idents ⊆ known)
    {f : Context → Except Report Outcome}
    (hf : f cx = (cx.fill template bindings).map .replaced) :
    (stamping cx template.idents).Of known cx (.ofContext f) := by
  refine of_stamping fun output hrun => ?_
  obtain ⟨filled, hfill, houtput⟩ := map_eq_ok_iff.1 (hf.symm.trans hrun)
  cases houtput
  exact fun name hname => (Context.mem_idents_of_fill hfill name hname).imp_left (h ·)

theorem Of.under {tree : Tree} (h : w.Of known (cx.beneath tree) x) :
    w.Of known cx (.under tree x) where
  opened := h.opened
  stamped := h.stamped
  covers := h.covers

theorem Of.inFreshScope (h : w.Of known cx.inScope x) :
    (w.inScope (Scope.next cx.allocated)).Of known cx (.inFreshScope x) where
  opened := .cons (h.stamped _ rfl) h.opened
  stamped _ _ _ hx := absurd hx List.not_mem_nil
  covers := h.covers

theorem Of.located (h : w.Of known cx x) : w.Of known cx (.located x) where
  opened := by
    rw [Context.snd_located]
    exact h.opened
  stamped := h.stamped
  covers output hrun := h.covers output (Context.fst_located_eq_ok_iff.1 hrun)

end Work

/-! ## Rule sets and scripts -/

/-- The work of some rules on a tree. -/
def RuleSet.work (rules : List Rule) (tree : Tree) (cx : Context) : Work :=
  match firstMatch? rules tree with
  | some (⟨_, .template template⟩, _) => .stamping cx template.idents
  | _ => .nothing

theorem RuleSet.work_of (set : RuleSet) (tree : Tree) (cx : Context) :
    (work set.rules tree cx).Of tree.idents cx (set.handler.attempt tree) := by
  rw [work, handler]
  split
  case h_1 pattern template bindings hmatch =>
    have hbound : bindings.idents ⊆ tree.idents := fun name hname =>
      Tree.mem_idents_of_match? (match?_of_firstMatch? hmatch) hname
    exact Work.of_fill hbound (by rw [apply, hmatch])
  case h_2 hmatch =>
    refine Work.of_nothing fun output hrun => ?_
    rw [apply] at hrun
    split at hrun
    case h_1 => cases hrun
    case h_2 => cases hrun
    case h_3 heq => exact absurd heq (hmatch _ _ _)

namespace Script

/-- The work of a script on a tree. -/
def work : Script → Tree → Context → Work
  | quote template _, _, cx => .stamping cx template.idents
  | matchThen pattern template, tree, cx =>
    match pattern.match? tree with
    | some _ => .stamping cx template.idents
    | none => .nothing
  | twice base _, _, cx => .stamping cx [base]
  | underChild index next, tree, cx =>
    match tree.children[index]? with
    | some t => next.work tree (cx.beneath t)
    | none => .nothing
  | underTree ref next, tree, cx => next.work tree (cx.beneath ref)
  | fresh next, tree, cx => (next.work tree cx.inScope).inScope (Scope.next cx.allocated)
  | ifAll text yes no, tree, cx =>
    if tree.children.all (·.atom? == some text) then yes.work tree cx else no.work tree cx
  | ifArity count yes no, tree, cx =>
    if tree.children.length = count then yes.work tree cx else no.work tree cx
  | _, _, _ => .nothing

/-- The identifiers that are written in a script to be returned as they are. -/
def literals : Script → List String
  | constant tree => tree.idents
  | quote _ bindings => bindings.idents
  | underChild _ next => next.literals
  | underTree _ next => next.literals
  | fresh next => next.literals
  | ifAll _ yes no => yes.literals ++ no.literals
  | ifArity _ yes no => yes.literals ++ no.literals
  | _ => []

theorem identsList_children_subset (tree : Tree) :
    Tree.identsList tree.children ⊆ tree.idents := by
  cases tree with
  | leaf => exact List.nil_subset _
  | node => exact List.Subset.refl _

theorem idents_subset_of_getElem? {tree child : Tree} {index : Nat}
    (h : tree.children[index]? = some child) : child.idents ⊆ tree.idents := fun _ hname =>
  identsList_children_subset tree (Tree.mem_identsList.2 ⟨child, List.mem_of_getElem? h, hname⟩)

theorem work_of (script : Script) (tree : Tree) (cx : Context) :
    (script.work tree cx).Of (tree.idents ++ script.literals) cx (script.run tree) := by
  induction script generalizing cx with
  | decline => exact Work.of_nothing fun output hrun => by cases hrun
  | constant output =>
    refine Work.of_nothing fun output hrun => ?_
    cases hrun
    exact List.subset_append_right _ _
  | same =>
    refine Work.of_nothing fun output hrun => ?_
    cases hrun
    exact List.subset_append_left _ _
  | wrap kind =>
    refine Work.of_nothing fun output hrun => ?_
    cases hrun
    simp [Tree.idents, Tree.identsList]
  | retag kind =>
    refine Work.of_nothing fun output hrun => ?_
    cases hrun
    exact List.subset_append_of_subset_left _ (identsList_children_subset tree)
  | child index =>
    refine Work.of_nothing fun output hrun => ?_
    split at hrun
    case h_1 child hchild =>
      cases hrun
      exact List.subset_append_of_subset_left _ (idents_subset_of_getElem? hchild)
    case h_2 => cases hrun
  | quote template bindings => exact Work.of_fill (List.subset_append_right _ _) rfl
  | matchThen pattern template =>
    rw [work, run]
    cases hmatch : pattern.match? tree with
    | some bindings =>
      refine Work.of_fill (fun name hname => ?_) rfl
      exact List.mem_append_left _ (Tree.mem_idents_of_match? hmatch hname)
    | none => exact Work.of_nothing fun output hrun => by cases hrun
  | twice base kind =>
    refine Work.of_stamping fun output hrun name hname => .inr ?_
    obtain ⟨ident, hident, houtput⟩ := map_eq_ok_iff.1 hrun
    cases houtput
    refine Context.mem_idents_of_freshIdent hident name ?_
    simpa [Tree.idents, Tree.identsList] using hname
  | scopes =>
    refine Work.of_nothing fun output hrun => ?_
    cases hrun
    exact List.nil_subset _
  | fail text => exact Work.of_nothing fun output hrun => by cases hrun
  | failAt index text =>
    refine Work.of_nothing fun output hrun => ?_
    split at hrun
    case h_1 => cases hrun
    case h_2 => cases hrun
  | raise report => exact Work.of_nothing fun output hrun => by cases hrun
  | underChild index next ih =>
    rw [work, run]
    cases tree.children[index]? with
    | some child => exact (ih (cx.beneath child)).under
    | none => exact Work.of_nothing fun output hrun => by cases hrun
  | underTree ref next ih => exact (ih (cx.beneath ref)).under
  | fresh next ih => exact (ih cx.inScope).inFreshScope
  | ifAll text yes no ihYes ihNo =>
    rw [work, run]
    split
    case isTrue => exact (ihYes cx).mono (by simp [literals])
    case isFalse => exact (ihNo cx).mono (by simp [literals])
  | ifArity count yes no ihYes ihNo =>
    rw [work, run]
    split
    case isTrue => exact (ihYes cx).mono (by simp [literals])
    case isFalse => exact (ihNo cx).mono (by simp [literals])

end Script

/-! ## Macros -/

/-- A macro in writing: a rule set, or a script with its name. -/
inductive Macro where
  | rules (set : RuleSet)
  | script (name : String) (text : Script)

namespace Macro

def handler : Macro → Handler
  | rules set => set.handler
  | script name text => text.handler name

/-- The work of a macro on a tree. -/
def work : Macro → Tree → Context → Work
  | rules set => RuleSet.work set.rules
  | script _ text => text.work

/-- The identifiers that are written in a macro to be returned as they are. -/
def literals : Macro → List String
  | rules _ => []
  | script _ text => text.literals

/-- The activations of a call, the outermost first. -/
def activations (m : Macro) (tree : Tree) (cx : Context) : List Activation :=
  let w := m.work tree (cx.inCall tree)
  ⟨Scope.next cx.allocated, w.idents⟩ :: w.opened

theorem work_of (m : Macro) (tree : Tree) (cx : Context) :
    (m.work tree cx).Of (tree.idents ++ m.literals) cx (m.handler.attempt tree) := by
  cases m with
  | rules set => exact (set.work_of tree cx).mono (List.subset_append_left _ _)
  | script name text => exact text.work_of tree cx

theorem call_work_of (m : Macro) (tree : Tree) (cx : Context) :
    ((m.work tree (cx.inCall tree)).inScope (Scope.next cx.allocated)).Of
      (tree.idents ++ m.literals) cx (m.handler.call tree) :=
  (m.work_of tree (cx.inCall tree)).located.under.inFreshScope

/-- Every scope that a call hands out has its activation. -/
theorem opened_activations (m : Macro) (tree : Tree) (cx : Context) :
    Opened cx.allocated (m.activations tree cx) ((m.handler.call tree).run cx).2.allocated :=
  (m.call_work_of tree cx).opened

/-- An identifier that a call returns is in the tree or in the text of the macro, or one of the
activations made it. -/
theorem mem_idents_of_call {m : Macro} {tree output : Tree} {cx : Context}
    (h : ((m.handler.call tree).run cx).1 = .ok (.replaced output)) :
    ∀ name ∈ output.idents, name ∈ tree.idents ∨ name ∈ m.literals ∨
      ∃ a ∈ m.activations tree cx, name ∈ a.idents := by
  intro name hname
  rcases (m.call_work_of tree cx).covers output h name hname with hknown | hmade
  · exact (List.mem_append.1 hknown).imp_right .inl
  · exact .inr (.inr (List.mem_flatMap.1 hmade))

end Macro

end MacroExpansion
