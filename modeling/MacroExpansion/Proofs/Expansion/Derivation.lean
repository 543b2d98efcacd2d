import MacroExpansion.Expansion.Tree

/-!
# Successful expansions

The runs of an expander that succeed, described by rules.  `Expands` relates a tree to its expansion
and to the replacements made on the way, from which the trace follows, for any handlers and any
number of visits.
-/

namespace MacroExpansion

/-! ## Contexts along a run -/

theorem Scope.toNat_next {allocated : Nat} (h : allocated + 1 < UInt64.size) :
    (Scope.next allocated).toNat = allocated + 1 :=
  UInt64.toNat_ofNat_of_lt' h

/-- The context in which a handler that is called on a tree works. -/
def Context.inCall (cx : Context) (tree : Tree) : Context :=
  ⟨cx.mainModule, Scope.next cx.allocated :: cx.scopes, tree :: cx.refs, cx.allocated + 1⟩

theorem Context.span?_inCall (cx : Context) (tree : Tree) :
    (cx.inCall tree).span? = tree.span.or cx.span? := by
  rw [span?, inCall, List.findSome?_cons]
  cases tree.span <;> rfl

/-- What running handlers does to a context: scopes are handed out, and the rest is as before. -/
structure Context.Reaches (cx cx' : Context) : Prop where
  mainModule : cx'.mainModule = cx.mainModule
  scopes : cx'.scopes = cx.scopes
  refs : cx'.refs = cx.refs
  allocated : cx.allocated ≤ cx'.allocated

namespace Context

theorem Reaches.refl (cx : Context) : cx.Reaches cx := ⟨rfl, rfl, rfl, Nat.le_refl _⟩

theorem Reaches.trans {cx cx₁ cx₂ : Context} (h : cx.Reaches cx₁) (h₁ : cx₁.Reaches cx₂) :
    cx.Reaches cx₂ where
  mainModule := h₁.mainModule.trans h.mainModule
  scopes := h₁.scopes.trans h.scopes
  refs := h₁.refs.trans h.refs
  allocated := Nat.le_trans h.allocated h₁.allocated

theorem Balanced.reaches {α : Type} {x : StateM Context α} (h : Balanced x) (cx : Context) :
    cx.Reaches (x cx).2 :=
  ⟨h.mainModule cx, h.scopes cx, h.refs cx, h.allocated cx⟩

theorem snd_located {α : Type} (body : HandlerM α) (cx : Context) :
    ((HandlerM.located body).run cx).2 = (body.run cx).2 := by
  rw [HandlerM.located, ExceptT.run_mk]
  split
  case h_1 h => rw [h]
  case h_2 h => rw [h]

theorem fst_located_eq_ok_iff {α : Type} {body : HandlerM α} {cx : Context} {a : α} :
    ((HandlerM.located body).run cx).1 = .ok a ↔ (body.run cx).1 = .ok a := by
  rw [HandlerM.located, ExceptT.run_mk]
  split
  case h_1 h => rw [h]
  case h_2 h =>
    rw [h]
    exact iff_of_false (fun h => by cases h) (fun h => by cases h)

theorem Balanced.located {α : Type} {body : HandlerM α} (h : Balanced body.run) :
    Balanced (HandlerM.located body).run := by
  constructor <;> intro cx <;> rw [snd_located]
  · exact h.mainModule cx
  · exact h.scopes cx
  · exact h.refs cx
  · exact h.allocated cx

end Context

namespace Handler

variable {h : Handler} {tree : Tree} {cx cx' : Context} {result : Except Report Outcome}

theorem reaches_of_call (hcall : (h.call tree).run cx = (result, cx')) : cx.Reaches cx' := by
  have hreaches : cx.Reaches ((h.call tree).run cx).2 :=
    (h.balanced tree).located.under.inFreshScope.reaches cx
  rwa [hcall] at hreaches

/-- A call takes a scope. -/
theorem allocated_lt_of_call (hcall : (h.call tree).run cx = (result, cx')) :
    cx.allocated < cx'.allocated := by
  have hlt : cx.allocated + 1 ≤ ((h.call tree).run cx).2.allocated :=
    (h.balanced tree).located.allocated (cx.inCall tree)
  rwa [hcall] at hlt

theorem fst_call_eq_ok_iff {outcome : Outcome} :
    ((h.call tree).run cx).1 = .ok outcome ↔
      ((h.attempt tree).run (cx.inCall tree)).1 = .ok outcome :=
  Context.fst_located_eq_ok_iff

end Handler

/-! ## Offers -/

/-- Some handlers decline a tree one after the other. -/
inductive Declined (tree : Tree) : List Handler → Context → Context → Prop
  | nil {cx : Context} : Declined tree [] cx cx
  | cons {handler : Handler} {handlers : List Handler} {cx cx₁ cx₂ : Context} :
      (handler.call tree).run cx = (.ok .declined, cx₁) → Declined tree handlers cx₁ cx₂ →
      Declined tree (handler :: handlers) cx cx₂

/-- Some handlers decline a tree, and the next one replaces it. -/
inductive Replaced (tree : Tree) : List Handler → Context → Replacement → Context → Prop
  | here {handler : Handler} {handlers : List Handler} {cx cx₁ : Context} {output : Tree} :
      (handler.call tree).run cx = (.ok (.replaced output), cx₁) →
      Replaced tree (handler :: handlers) cx
        ⟨handler.name, tree.kind, Scope.next cx.allocated, tree, output⟩ cx₁
  | there {handler : Handler} {handlers : List Handler} {cx cx₁ cx₂ : Context} {r : Replacement} :
      (handler.call tree).run cx = (.ok .declined, cx₁) → Replaced tree handlers cx₁ r cx₂ →
      Replaced tree (handler :: handlers) cx r cx₂

theorem offerTo_eq_declined_iff {tree : Tree} {handlers : List Handler} {s s' : ExpanderState} :
    offerTo tree handlers s = (.ok .declined, s') ↔
      ∃ cx, Declined tree handlers s.context cx ∧ { s with context := cx } = s' := by
  induction handlers generalizing s with
  | nil =>
    constructor
    · intro h
      exact ⟨_, .nil, (Prod.ext_iff.1 h).2⟩
    · rintro ⟨cx, ⟨⟩, rfl⟩
      rfl
  | cons handler handlers ih =>
    rw [offerTo]
    constructor
    · intro h
      split at h
      case h_1 cx₁ hcall =>
        obtain ⟨cx, hdeclined, rfl⟩ := ih.1 h
        exact ⟨cx, .cons hcall hdeclined, rfl⟩
      case h_2 => cases h
      case h_3 => cases h
    · rintro ⟨cx, hdeclined, rfl⟩
      cases hdeclined with
      | cons hcall hdeclined =>
        rw [hcall]
        exact ih.2 ⟨cx, hdeclined, rfl⟩

theorem offerTo_eq_replaced_iff {tree output : Tree} {handlers : List Handler}
    {s s' : ExpanderState} :
    offerTo tree handlers s = (.ok (.replaced output), s') ↔
      ∃ r cx, Replaced tree handlers s.context r cx ∧ r.output = output ∧
        ExpanderState.record { s with context := cx } r = s' := by
  induction handlers generalizing s with
  | nil =>
    constructor
    · intro h
      cases h
    · rintro ⟨r, cx, ⟨⟩, -⟩
  | cons handler handlers ih =>
    rw [offerTo]
    constructor
    · intro h
      split at h
      case h_1 cx₁ hcall =>
        obtain ⟨r, cx, hreplaced, houtput, rfl⟩ := ih.1 h
        exact ⟨r, cx, .there hcall hreplaced, houtput, rfl⟩
      case h_2 output' cx₁ hcall =>
        cases h
        exact ⟨_, cx₁, .here hcall, rfl, rfl⟩
      case h_3 => cases h
    · rintro ⟨r, cx, hreplaced, rfl, rfl⟩
      cases hreplaced with
      | here hcall => rw [hcall]
      | there hcall hreplaced =>
        rw [hcall]
        exact ih.2 ⟨r, cx, hreplaced, rfl, rfl⟩

theorem Declined.reaches {tree : Tree} {handlers : List Handler} {cx cx' : Context}
    (h : Declined tree handlers cx cx') : cx.Reaches cx' := by
  induction h with
  | nil => exact .refl _
  | cons hcall _ ih => exact (Handler.reaches_of_call hcall).trans ih

/-- A replacement is what a handler made of its input when it was called. -/
structure Replacement.By (r : Replacement) (handler : Handler) (cx cx' : Context) : Prop where
  name : r.handler = handler.name
  kind : r.kind = r.input.kind
  scope : r.scope = Scope.next cx.allocated
  call : (handler.call r.input).run cx = (.ok (.replaced r.output), cx')

theorem Replaced.input_eq {tree : Tree} {handlers : List Handler} {cx cx' : Context}
    {r : Replacement} (h : Replaced tree handlers cx r cx') : r.input = tree := by
  induction h with
  | here => rfl
  | there _ _ ih => exact ih

/-- The handlers before the one that made a replacement declined. -/
theorem Replaced.exists_append {tree : Tree} {handlers : List Handler} {cx cx' : Context}
    {r : Replacement} (h : Replaced tree handlers cx r cx') :
    ∃ before handler after cx₁, handlers = before ++ handler :: after ∧
      Declined tree before cx cx₁ ∧ r.By handler cx₁ cx' := by
  induction h with
  | here hcall => exact ⟨[], _, _, _, rfl, .nil, rfl, rfl, rfl, hcall⟩
  | there hcall _ ih =>
    obtain ⟨before, handler, after, cx₁, rfl, hdeclined, hby⟩ := ih
    exact ⟨_ :: before, handler, after, cx₁, rfl, .cons hcall hdeclined, hby⟩

theorem Replaced.exists_by {tree : Tree} {handlers : List Handler} {cx cx' : Context}
    {r : Replacement} (h : Replaced tree handlers cx r cx') :
    ∃ handler ∈ handlers, ∃ cx₁, cx.Reaches cx₁ ∧ r.By handler cx₁ cx' := by
  obtain ⟨before, handler, after, cx₁, rfl, hdeclined, hby⟩ := h.exists_append
  exact ⟨handler, List.mem_append_right _ List.mem_cons_self, cx₁, hdeclined.reaches, hby⟩

/-! ## Runs -/

mutual

/-- The expansion of a tree, with the replacements in the order in which they are made. -/
inductive Expands (registry : Registry) :
    (budget : Nat) → Context → Tree → List Replacement → Expanded Tree → Context → Prop
  | replace {budget : Nat} {cx cx₁ cx₂ : Context} {tree : Tree} {r : Replacement}
      {rs : List Replacement} {out : Expanded Tree} :
      Replaced tree (registry.lookup tree.kind) cx r cx₁ →
      Expands registry budget cx₁ r.output rs out cx₂ →
      Expands registry (budget + 1) cx tree (r :: rs) ⟨out.value, true⟩ cx₂
  | leaf {budget : Nat} {cx cx₁ : Context} {l : Leaf} {span : Option Span} :
      Declined (.leaf l span) (registry.lookup l.kind) cx cx₁ →
      Expands registry budget cx (.leaf l span) [] ⟨.leaf l span, false⟩ cx₁
  | settle {budget : Nat} {cx cx₁ cx₂ : Context} {kind : String} {children : List Tree}
      {span : Option Span} {rs : List Replacement} :
      Declined (.node kind children span) (registry.lookup kind) cx cx₁ →
      ExpandsAll registry budget cx₁ children rs ⟨children, false⟩ cx₂ →
      Expands registry budget cx (.node kind children span) rs ⟨.node kind children span, false⟩ cx₂
  | revisit {budget : Nat} {cx cx₁ cx₂ cx₃ : Context} {kind : String}
      {children children' : List Tree} {span : Option Span} {rs rs' : List Replacement}
      {out : Expanded Tree} :
      Declined (.node kind children span) (registry.lookup kind) cx cx₁ →
      ExpandsAll registry budget cx₁ children rs ⟨children', true⟩ cx₂ →
      Expands registry budget cx₂ (.node kind children' span) rs' out cx₃ →
      Expands registry budget cx (.node kind children span) (rs ++ rs') ⟨out.value, true⟩ cx₃

/-- The expansion of trees from left to right. -/
inductive ExpandsAll (registry : Registry) :
    (budget : Nat) → Context → List Tree → List Replacement → Expanded (List Tree) → Context → Prop
  | nil {budget : Nat} {cx : Context} : ExpandsAll registry budget cx [] [] ⟨[], false⟩ cx
  | cons {budget : Nat} {cx cx₁ cx₂ : Context} {tree : Tree} {trees : List Tree}
      {rs rs' : List Replacement} {out : Expanded Tree} {outs : Expanded (List Tree)} :
      Expands registry budget cx tree rs out cx₁ →
      ExpandsAll registry budget cx₁ trees rs' outs cx₂ →
      ExpandsAll registry budget cx (tree :: trees) (rs ++ rs')
        ⟨out.value :: outs.value, registry.moved cx cx₁ tree out || outs.changed⟩ cx₂

end

variable {registry : Registry}

/-- Induction over a run: `P` of the expansion of a tree, and `Q` of that of a list. -/
theorem Expands.induct
    {P : Nat → Context → Tree → List Replacement → Expanded Tree → Context → Prop}
    {Q : Nat → Context → List Tree → List Replacement → Expanded (List Tree) → Context → Prop}
    (replace : ∀ {budget cx cx₁ cx₂ tree out r rs},
      Replaced tree (registry.lookup tree.kind) cx r cx₁ →
      P budget cx₁ r.output rs out cx₂ →
      P (budget + 1) cx tree (r :: rs) ⟨out.value, true⟩ cx₂)
    (leaf : ∀ {budget cx cx₁ l span},
      Declined (.leaf l span) (registry.lookup l.kind) cx cx₁ →
      P budget cx (.leaf l span) [] ⟨.leaf l span, false⟩ cx₁)
    (settle : ∀ {budget cx cx₁ cx₂ kind children span rs},
      Declined (.node kind children span) (registry.lookup kind) cx cx₁ →
      Q budget cx₁ children rs ⟨children, false⟩ cx₂ →
      P budget cx (.node kind children span) rs ⟨.node kind children span, false⟩ cx₂)
    (revisit : ∀ {budget cx cx₁ cx₂ cx₃ kind children children' span out rs rs'},
      Declined (.node kind children span) (registry.lookup kind) cx cx₁ →
      Q budget cx₁ children rs ⟨children', true⟩ cx₂ →
      P budget cx₂ (.node kind children' span) rs' out cx₃ →
      P budget cx (.node kind children span) (rs ++ rs') ⟨out.value, true⟩ cx₃)
    (nil : ∀ {budget cx}, Q budget cx [] [] ⟨[], false⟩ cx)
    (cons : ∀ {budget cx cx₁ cx₂ tree trees rs rs' out outs},
      P budget cx tree rs out cx₁ → Q budget cx₁ trees rs' outs cx₂ →
      Q budget cx (tree :: trees) (rs ++ rs')
        ⟨out.value :: outs.value, registry.moved cx cx₁ tree out || outs.changed⟩ cx₂)
    {budget : Nat} {cx cx' : Context} {tree : Tree} {out : Expanded Tree} {rs : List Replacement}
    (h : Expands registry budget cx tree rs out cx') : P budget cx tree rs out cx' :=
  @Expands.rec registry
    (fun budget cx tree rs out cx' _ => P budget cx tree rs out cx')
    (fun budget cx trees rs outs cx' _ => Q budget cx trees rs outs cx')
    (fun h _ ih => replace h ih) leaf (fun h _ ih => settle h ih)
    (fun h _ _ ih ih' => revisit h ih ih') nil (fun _ _ ih ih' => cons ih ih')
    budget cx tree rs out cx' h

/-! ### Changes -/

namespace Registry

variable {cx cx' : Context} {tree : Tree} {out : Expanded Tree}

theorem moved_eq_false_of_unchanged (h : out.changed = false) :
    registry.moved cx cx' tree out = false := by
  rw [moved, h, Bool.false_and]

theorem eq_of_moved_eq_false (h : registry.moved cx cx' tree out = false)
    (hout : out.changed = false → out.value = tree) : out.value = tree := by
  rw [moved, Bool.and_eq_false_iff] at h
  rcases h with hchanged | hsame
  · exact hout hchanged
  · rw [Bool.not_eq_false', Bool.and_eq_true] at hsame
    exact of_decide_eq_true hsame.1

theorem moved_eq_changed_of_ne (h : out.value = tree → out.changed = false) :
    registry.moved cx cx' tree out = out.changed := by
  by_cases heq : out.value = tree
  · rw [h heq, moved_eq_false_of_unchanged (h heq)]
  · rw [moved, decide_eq_false heq, Bool.false_and, Bool.not_false, Bool.and_true]

end Registry

/-- A tree that was not changed is as it was. -/
theorem Expands.eq_of_unchanged {budget : Nat} {cx cx' : Context} {tree : Tree}
    {out : Expanded Tree} {rs : List Replacement} (h : Expands registry budget cx tree rs out cx')
    (hout : out.changed = false) : out.value = tree := by
  cases h with
  | replace => cases hout
  | leaf => rfl
  | settle => rfl
  | revisit => cases hout

theorem ExpandsAll.eq_of_unchanged {budget : Nat} {cx cx' : Context} {trees : List Tree}
    {outs : Expanded (List Tree)} {rs : List Replacement}
    (h : ExpandsAll registry budget cx trees rs outs cx') (houts : outs.changed = false) :
    outs.value = trees := by
  induction trees generalizing cx rs outs with
  | nil =>
    cases h
    rfl
  | cons tree trees ih =>
    cases h with
    | cons htree htrees =>
      obtain ⟨hmoved, hrest⟩ := Bool.or_eq_false_iff.1 houts
      dsimp only
      rw [Registry.eq_of_moved_eq_false hmoved htree.eq_of_unchanged, ih htrees hrest]

/-- Without a replacement there is no change. -/
theorem Expands.unchanged_of_nil {budget : Nat} {cx cx' : Context} {tree : Tree}
    {out : Expanded Tree} {rs : List Replacement} (h : Expands registry budget cx tree rs out cx') :
    rs = [] → out.changed = false := by
  refine Expands.induct (P := fun _ _ _ rs out _ => rs = [] → out.changed = false)
    (Q := fun _ _ _ rs outs _ => rs = [] → outs.changed = false)
    (fun _ _ hrs => ?replace) (fun _ _ => ?leaf) (fun _ _ _ => ?settle)
    (fun _ ih _ hrs => ?revisit) (fun _ => ?nil) (fun ih ih' hrs => ?cons) h
  case replace => cases hrs
  case leaf => rfl
  case settle => rfl
  case revisit => cases ih (List.append_eq_nil_iff.1 hrs).1
  case nil => rfl
  case cons =>
    obtain ⟨hfirst, hlater⟩ := List.append_eq_nil_iff.1 hrs
    exact Bool.or_eq_false_iff.2 ⟨Registry.moved_eq_false_of_unchanged (ih hfirst), ih' hlater⟩

/-! ### Accounts of replacements -/

/-- A replacement that was made between two contexts, by the first of the handlers of its kind that
did not decline its input. -/
def Registry.Accounts (registry : Registry) (cx cx' : Context) (r : Replacement) : Prop :=
  ∃ before handler after cx₁ cx₂ cx₃,
    registry.lookup r.kind = before ++ handler :: after ∧ cx.Reaches cx₁ ∧
    Declined r.input before cx₁ cx₂ ∧ r.By handler cx₂ cx₃ ∧ cx₃.Reaches cx'

theorem Registry.Accounts.mono {cx₀ cx cx' cx₁ : Context} {r : Replacement}
    (h : registry.Accounts cx cx' r) (hbefore : cx₀.Reaches cx) (hafter : cx'.Reaches cx₁) :
    registry.Accounts cx₀ cx₁ r := by
  obtain ⟨before, handler, after, _, _, _, hlookup, hcx, hdeclined, hby, hcx'⟩ := h
  exact ⟨before, handler, after, _, _, _, hlookup, hbefore.trans hcx, hdeclined, hby,
    hcx'.trans hafter⟩

/-- Replacements that the handlers of a registry made between two contexts. -/
structure Made (registry : Registry) (cx cx' : Context) (rs : List Replacement) : Prop where
  reaches : cx.Reaches cx'
  accounts : ∀ r ∈ rs, registry.Accounts cx cx' r

namespace Made

theorem nil {cx cx' : Context} (h : cx.Reaches cx') : Made registry cx cx' [] :=
  ⟨h, fun _ hr => absurd hr List.not_mem_nil⟩

theorem append {cx cx₁ cx₂ : Context} {rs rs' : List Replacement} (h : Made registry cx cx₁ rs)
    (h' : Made registry cx₁ cx₂ rs') : Made registry cx cx₂ (rs ++ rs') where
  reaches := h.reaches.trans h'.reaches
  accounts r hr := by
    rcases List.mem_append.1 hr with hr | hr
    · exact (h.accounts r hr).mono (.refl _) h'.reaches
    · exact (h'.accounts r hr).mono h.reaches (.refl _)

theorem of_replaced {tree : Tree} {cx cx' : Context} {r : Replacement}
    (h : Replaced tree (registry.lookup tree.kind) cx r cx') : Made registry cx cx' [r] := by
  obtain ⟨before, handler, after, cx₁, hlookup, hdeclined, hby⟩ := h.exists_append
  refine ⟨hdeclined.reaches.trans (Handler.reaches_of_call hby.call), fun r' hr' => ?_⟩
  obtain rfl := List.mem_singleton.1 hr'
  rw [← h.input_eq, ← hby.kind] at hlookup
  rw [← h.input_eq] at hdeclined
  exact ⟨before, handler, after, cx, cx₁, cx', hlookup, .refl _, hdeclined, hby, .refl _⟩

theorem exists_by {cx cx' : Context} {rs : List Replacement} (h : Made registry cx cx' rs)
    (r : Replacement) (hr : r ∈ rs) : ∃ handler ∈ registry.lookup r.kind, ∃ cx₁ cx₂,
      cx.Reaches cx₁ ∧ r.By handler cx₁ cx₂ ∧ cx₂.Reaches cx' := by
  obtain ⟨before, handler, after, _, cx₁, cx₂, hlookup, hcx, hdeclined, hby, hcx'⟩ :=
    h.accounts r hr
  have hmem : handler ∈ registry.lookup r.kind := by
    rw [hlookup]
    exact List.mem_append_right _ List.mem_cons_self
  exact ⟨handler, hmem, cx₁, cx₂, hcx.trans hdeclined.reaches, hby, hcx'⟩

end Made

/-! ## Runs of the expander -/

namespace ExpanderState

/-- The state after some replacements that lead to another context. -/
def after (s : ExpanderState) (rs : List Replacement) (cx : Context) : ExpanderState :=
  ⟨cx, s.trace.map (rs.reverse ++ ·)⟩

@[simp]
theorem context_after (s : ExpanderState) (rs : List Replacement) (cx : Context) :
    (s.after rs cx).context = cx := rfl

theorem after_nil (s : ExpanderState) (cx : Context) :
    s.after [] cx = { s with context := cx } := by
  simp [after]

@[simp]
theorem after_after (s : ExpanderState) (rs rs' : List Replacement) (cx cx' : Context) :
    (s.after rs cx).after rs' cx' = s.after (rs ++ rs') cx' := by
  simp [after, Function.comp_def]

theorem replacements_after (mainModule : String) (allocated : Nat) (rs : List Replacement)
    (cx : Context) : ((initial mainModule allocated true).after rs cx).replacements = rs := by
  simp [replacements, after, initial]

end ExpanderState

namespace Registry

theorem offer_eq_declined_iff {tree : Tree} {s s' : ExpanderState} :
    registry.offer tree s = (.ok .declined, s') ↔
      ∃ cx, Declined tree (registry.lookup tree.kind) s.context cx ∧ s.after [] cx = s' := by
  simp only [ExpanderState.after_nil]
  exact offerTo_eq_declined_iff

theorem offer_eq_replaced_iff {tree output : Tree} {s s' : ExpanderState} :
    registry.offer tree s = (.ok (.replaced output), s') ↔
      ∃ r cx, Replaced tree (registry.lookup tree.kind) s.context r cx ∧ r.output = output ∧
        s.after [r] cx = s' :=
  offerTo_eq_replaced_iff

end Registry

theorem Declined.offer_eq {tree : Tree} {s : ExpanderState} {cx : Context}
    (h : Declined tree (registry.lookup tree.kind) s.context cx) :
    registry.offer tree s = (.ok .declined, s.after [] cx) :=
  Registry.offer_eq_declined_iff.2 ⟨cx, h, rfl⟩

theorem Replaced.offer_eq {tree : Tree} {s : ExpanderState} {r : Replacement} {cx : Context}
    (h : Replaced tree (registry.lookup tree.kind) s.context r cx) :
    registry.offer tree s = (.ok (.replaced r.output), s.after [r] cx) :=
  Registry.offer_eq_replaced_iff.2 ⟨r, cx, h, rfl, rfl⟩

namespace Expander

variable {e : Expander}

theorem expandTree_of_expands {budget : Nat} {origin : Option Span} {changed : Bool}
    {tree : Tree} {out : Expanded Tree} {s : ExpanderState} {rs : List Replacement} {cx' : Context}
    (h : Expands e.registry budget s.context tree rs out cx') :
    e.expandTree budget origin changed tree s =
      some (.ok ⟨out.value, changed || out.changed⟩, s.after rs cx') := by
  generalize hcx : s.context = cx at h
  refine Expands.induct
    (P := fun budget cx tree rs out cx' => ∀ origin changed s, s.context = cx →
      e.expandTree budget origin changed tree s =
        some (.ok ⟨out.value, changed || out.changed⟩, s.after rs cx'))
    (Q := fun budget cx trees rs outs cx' => ∀ s, s.context = cx →
      e.expandList budget trees s = some (.ok outs, s.after rs cx'))
    (fun hreplaced ih => ?replace) (fun hdeclined => ?leaf) (fun hdeclined ih => ?settle)
    (fun hdeclined ih ih' => ?revisit) ?nil (fun ih ih' => ?cons) h origin changed s hcx
  case replace =>
    rintro origin changed s rfl
    rw [expandTree_succ hreplaced.offer_eq, ih _ _ _ rfl]
    simp
  case leaf =>
    rintro origin changed s rfl
    rw [expandTree_leaf hdeclined.offer_eq]
    simp
  case settle =>
    rintro origin changed s rfl
    rw [expandTree_node hdeclined.offer_eq, ih _ rfl]
    simp
  case revisit =>
    rintro origin changed s rfl
    rw [expandTree_node_of_changed hdeclined.offer_eq (ih _ rfl), ih' _ _ _ rfl]
    simp
  case nil =>
    rintro _ _ s rfl
    rw [expandList_nil, ExpanderState.after_nil]
  case cons =>
    rintro s rfl
    rw [expandList_cons_of_ok (ih _ _ _ rfl), ih' _ rfl]
    simp

theorem expandList_of_expandsAll {budget : Nat} {trees : List Tree} {outs : Expanded (List Tree)}
    {s : ExpanderState} {rs : List Replacement} {cx' : Context}
    (h : ExpandsAll e.registry budget s.context trees rs outs cx') :
    e.expandList budget trees s = some (.ok outs, s.after rs cx') := by
  induction trees generalizing s rs outs with
  | nil =>
    cases h
    rw [expandList_nil, ExpanderState.after_nil]
  | cons tree trees ih =>
    cases h with
    | cons htree htrees =>
      rw [expandList_cons_of_ok (expandTree_of_expands htree), ih (s := s.after _ _) htrees]
      simp

end Expander

end MacroExpansion
