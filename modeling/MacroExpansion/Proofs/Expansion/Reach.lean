import MacroExpansion.Proofs.Expansion.Derivation
import MacroExpansion.Proofs.Expansion.Runs

/-!
# Where runs lead

A run hands scopes out and takes none back, and it leaves the stacks as they were, whether it
succeeds or fails.  So a bound on the counter at its end holds wherever the run comes through: after
the first offer, after the children, and after the first of several trees.
-/

namespace MacroExpansion

theorem reaches_offerTo (tree : Tree) (handlers : List Handler) (s : ExpanderState) :
    s.context.Reaches (offerTo tree handlers s).2.context := by
  induction handlers generalizing s with
  | nil => exact .refl _
  | cons handler handlers ih =>
    rw [offerTo]
    split
    case h_1 cx hcall => exact (Handler.reaches_of_call hcall).trans (ih { s with context := cx })
    case h_2 hcall => exact Handler.reaches_of_call hcall
    case h_3 hcall => exact Handler.reaches_of_call hcall

theorem offerTo_cons_of_declined {tree : Tree} {handler : Handler} {handlers : List Handler}
    {s : ExpanderState} {cx : Context}
    (h : (handler.call tree).run s.context = (.ok .declined, cx)) :
    offerTo tree (handler :: handlers) s = offerTo tree handlers { s with context := cx } := by
  rw [offerTo, h]

theorem allocated_lt_offerTo_cons (tree : Tree) (handler : Handler) (handlers : List Handler)
    (s : ExpanderState) :
    s.context.allocated < (offerTo tree (handler :: handlers) s).2.context.allocated := by
  rw [offerTo]
  split
  case h_1 cx hcall =>
    have hrest := reaches_offerTo tree handlers { s with context := cx }
    exact Nat.lt_of_lt_of_le (Handler.allocated_lt_of_call hcall) hrest.allocated
  case h_2 hcall => exact Handler.allocated_lt_of_call hcall
  case h_3 hcall => exact Handler.allocated_lt_of_call hcall

namespace Registry

variable (registry : Registry)

theorem reaches_tryTree (tree : Tree) (s : ExpanderState) :
    s.context.Reaches (registry.tryTree tree s).2.context := by
  have hreaches := reaches_offerTo tree (registry.lookup tree.kind) s
  rw [tryTree, offer]
  generalize offerTo tree (registry.lookup tree.kind) s = offered at hreaches ⊢
  match offered with
  | (.ok .declined, s₁) => exact hreaches
  | (.ok (.replaced output), s₁) => exact hreaches
  | (.error report, s₁) => exact hreaches

theorem reaches_step (progress : Progress) (s : ExpanderState) :
    s.context.Reaches (registry.step progress s).2.context := by
  cases progress with
  | pending tree => exact registry.reaches_tryTree tree s
  | replaced tree => exact registry.reaches_tryTree tree s
  | stuck tree => exact .refl _
  | failed report => exact .refl _

end Registry

namespace Expander

variable {e : Expander}

mutual

theorem Runs.offer_reaches {budget calls : Nat} {origin : Option Span} {changed : Bool}
    {tree : Tree} {s : ExpanderState} {result : Except Report (Expanded Tree) × ExpanderState} :
    e.Runs budget origin changed tree s calls result →
      (e.registry.offer tree s).2.context.Reaches result.2.context
  | .failed hoffer => by
    rw [hoffer]
    exact .refl _
  | .exhausted hoffer => by
    rw [hoffer]
    exact .refl _
  | .replaced hoffer hout => by
    rw [hoffer]
    exact (reaches_offerTo _ _ _).trans hout.offer_reaches
  | .leaf hoffer => by
    rw [hoffer]
    exact .refl _
  | .failedInside hoffer hchildren => by
    rw [hoffer]
    exact hchildren.reaches
  | .left hoffer hchildren => by
    rw [hoffer]
    exact hchildren.reaches
  | .revisited hoffer hchildren hout => by
    rw [hoffer]
    exact hchildren.reaches.trans ((reaches_offerTo _ _ _).trans hout.offer_reaches)

theorem RunsAll.reaches {budget calls : Nat} {trees : List Tree} {s : ExpanderState}
    {result : Except Report (Expanded (List Tree)) × ExpanderState} :
    e.RunsAll budget trees s calls result → s.context.Reaches result.2.context
  | .nil => .refl _
  | .failed htree => (reaches_offerTo _ _ _).trans htree.offer_reaches
  | .failedLater htree htrees =>
    ((reaches_offerTo _ _ _).trans htree.offer_reaches).trans htrees.reaches
  | .cons htree htrees =>
    ((reaches_offerTo _ _ _).trans htree.offer_reaches).trans htrees.reaches

end

theorem Runs.reaches {budget calls : Nat} {origin : Option Span} {changed : Bool} {tree : Tree}
    {s : ExpanderState} {result : Except Report (Expanded Tree) × ExpanderState}
    (h : e.Runs budget origin changed tree s calls result) :
    s.context.Reaches result.2.context :=
  (reaches_offerTo _ _ _).trans h.offer_reaches

/-! ## What follows -/

/-- The result of a node that was declined, after its children have been expanded. -/
def AfterChildren (e : Expander) (budget : Nat) (origin : Option Span) (changed : Bool)
    (kind : String) (children : List Tree) (span : Option Span)
    (result : Except Report (Expanded Tree) × ExpanderState) :
    Except Report (Expanded (List Tree)) × ExpanderState → Prop
  | (.error report, s) => result = (.error report, s)
  | (.ok ⟨_, false⟩, s) => result = (.ok ⟨.node kind children span, changed⟩, s)
  | (.ok ⟨outs, true⟩, s) => e.expandTree budget origin true (.node kind outs span) s = some result

/-- The result of some trees, after the first one has been expanded from a context. -/
def AfterHead (e : Expander) (budget : Nat) (cx : Context) (tree : Tree) (rest : List Tree)
    (result : Except Report (Expanded (List Tree)) × ExpanderState) :
    Except Report (Expanded Tree) × ExpanderState → Prop
  | (.error report, s) => result = (.error report, s)
  | (.ok out, s) => ∃ later, e.expandList budget rest s = some later ∧
      result = (later.1.map fun outs => ⟨out.value :: outs.value,
        e.registry.moved cx s.context tree out || outs.changed⟩, later.2)

theorem exists_children_of_expandTree {budget : Nat} {origin span : Option Span} {changed : Bool}
    {kind : String} {children : List Tree} {s s₁ : ExpanderState}
    {result : Except Report (Expanded Tree) × ExpanderState}
    (hoffer : e.registry.offer (.node kind children span) s = (.ok .declined, s₁))
    (h : e.expandTree budget origin changed (.node kind children span) s = some result) :
    ∃ inside, e.expandList budget children s₁ = some inside ∧
      inside.2.context.Reaches result.2.context ∧
      e.AfterChildren budget origin changed kind children span result inside := by
  rw [expandTree_node hoffer] at h
  obtain ⟨inside, hlist, h⟩ := Option.bind_eq_some_iff.1 h
  refine ⟨inside, hlist, ?_⟩
  match inside with
  | (.error report, s₂) =>
    cases h
    exact ⟨.refl _, rfl⟩
  | (.ok ⟨_, false⟩, s₂) =>
    cases h
    exact ⟨.refl _, rfl⟩
  | (.ok ⟨children', true⟩, s₂) =>
    obtain ⟨calls, hruns⟩ := expandTree_eq_some_iff.1 h
    exact ⟨hruns.reaches, h⟩

theorem exists_head_of_expandList {budget : Nat} {tree : Tree} {rest : List Tree}
    {s : ExpanderState} {result : Except Report (Expanded (List Tree)) × ExpanderState}
    (h : e.expandList budget (tree :: rest) s = some result) :
    ∃ head, e.expandTree budget tree.span false tree s = some head ∧
      head.2.context.Reaches result.2.context ∧
      e.AfterHead budget s.context tree rest result head := by
  rw [expandList_cons] at h
  obtain ⟨head, htree, h⟩ := Option.bind_eq_some_iff.1 h
  refine ⟨head, htree, ?_⟩
  match head with
  | (.error report, s₁) =>
    cases h
    exact ⟨.refl _, rfl⟩
  | (.ok out, s₁) =>
    obtain ⟨later, hrest, h⟩ := Option.bind_eq_some_iff.1 h
    obtain ⟨calls, hruns⟩ := expandList_eq_some_iff.1 hrest
    match later with
    | (.error report, s₂) =>
      cases h
      exact ⟨hruns.reaches, _, hrest, rfl⟩
    | (.ok outs, s₂) =>
      cases h
      exact ⟨hruns.reaches, _, hrest, rfl⟩

theorem reaches_of_expand {tree : Tree} {s : ExpanderState}
    {result : Except Report (Expanded Tree) × ExpanderState} (h : e.expand tree s = some result) :
    s.context.Reaches result.2.context := by
  obtain ⟨calls, hruns⟩ := expandTree_eq_some_iff.1 h
  exact hruns.reaches

end Expander

end MacroExpansion
