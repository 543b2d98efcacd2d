import MacroExpansion.Expansion.Tree

/-!
# Runs

The runs of the expander that end, described by rules, with the number of calls of handlers.  A node
is visited again as often as its children change, and of a run that does not end nothing is said.
The runs are those that give a result (`expandTree_eq_some_iff`), so that what holds of every result
is proved by going through the rules.  Whether a run ends may depend on the objects that handlers
give back (`expand_alternator`).
-/

namespace MacroExpansion

/-! ## Calls -/

/-- How many handlers are called when a tree is offered to some: those up to the first one that does
not decline. -/
def callsTo (tree : Tree) : List Handler → Context → Nat
  | [], _ => 0
  | handler :: handlers, cx =>
    match (handler.call tree).run cx with
    | (.ok .declined, cx) => callsTo tree handlers cx + 1
    | _ => 1

/-- How many handlers are called when a tree is offered to those of its kind. -/
def Registry.calls (registry : Registry) (tree : Tree) (s : ExpanderState) : Nat :=
  callsTo tree (registry.lookup tree.kind) s.context

/-! ## Runs -/

namespace Expander

mutual

/-- The expansion of a tree ends with a result, after some number of calls of handlers.  A node is
visited again whenever its children changed. -/
inductive Runs (e : Expander) : (budget : Nat) → (origin : Option Span) → (changed : Bool) → Tree →
    ExpanderState → (calls : Nat) → Except Report (Expanded Tree) × ExpanderState → Prop
  | failed {budget : Nat} {origin : Option Span} {changed : Bool} {tree : Tree}
      {s s₁ : ExpanderState} {report : Report} :
      e.registry.offer tree s = (.error report, s₁) →
      Runs e budget origin changed tree s (e.registry.calls tree s) (.error report, s₁)
  | exhausted {origin : Option Span} {changed : Bool} {tree output : Tree}
      {s s₁ : ExpanderState} :
      e.registry.offer tree s = (.ok (.replaced output), s₁) →
      Runs e 0 origin changed tree s (e.registry.calls tree s)
        (.error (.at? origin (.recursionLimit e.limit output.kind)), s₁)
  | replaced {budget later : Nat} {origin : Option Span} {changed : Bool} {tree output : Tree}
      {s s₁ : ExpanderState} {result : Except Report (Expanded Tree) × ExpanderState} :
      e.registry.offer tree s = (.ok (.replaced output), s₁) →
      Runs e budget origin true output s₁ later result →
      Runs e (budget + 1) origin changed tree s (e.registry.calls tree s + later) result
  | leaf {budget : Nat} {origin span : Option Span} {changed : Bool} {l : Leaf}
      {s s₁ : ExpanderState} :
      e.registry.offer (.leaf l span) s = (.ok .declined, s₁) →
      Runs e budget origin changed (.leaf l span) s (e.registry.calls (.leaf l span) s)
        (.ok ⟨.leaf l span, changed⟩, s₁)
  | failedInside {budget inside : Nat} {origin span : Option Span} {changed : Bool} {kind : String}
      {children : List Tree} {s s₁ s₂ : ExpanderState} {report : Report} :
      e.registry.offer (.node kind children span) s = (.ok .declined, s₁) →
      RunsAll e budget children s₁ inside (.error report, s₂) →
      Runs e budget origin changed (.node kind children span) s
        (e.registry.calls (.node kind children span) s + inside) (.error report, s₂)
  | left {budget inside : Nat} {origin span : Option Span} {changed : Bool} {kind : String}
      {children children' : List Tree} {s s₁ s₂ : ExpanderState} :
      e.registry.offer (.node kind children span) s = (.ok .declined, s₁) →
      RunsAll e budget children s₁ inside (.ok ⟨children', false⟩, s₂) →
      Runs e budget origin changed (.node kind children span) s
        (e.registry.calls (.node kind children span) s + inside)
        (.ok ⟨.node kind children span, changed⟩, s₂)
  | revisited {budget inside later : Nat} {origin span : Option Span} {changed : Bool}
      {kind : String} {children children' : List Tree} {s s₁ s₂ : ExpanderState}
      {result : Except Report (Expanded Tree) × ExpanderState} :
      e.registry.offer (.node kind children span) s = (.ok .declined, s₁) →
      RunsAll e budget children s₁ inside (.ok ⟨children', true⟩, s₂) →
      Runs e budget origin true (.node kind children' span) s₂ later result →
      Runs e budget origin changed (.node kind children span) s
        (e.registry.calls (.node kind children span) s + inside + later) result

/-- The expansion of trees from left to right ends with a result. -/
inductive RunsAll (e : Expander) : (budget : Nat) → List Tree → ExpanderState → (calls : Nat) →
    Except Report (Expanded (List Tree)) × ExpanderState → Prop
  | nil {budget : Nat} {s : ExpanderState} : RunsAll e budget [] s 0 (.ok ⟨[], false⟩, s)
  | failed {budget calls : Nat} {tree : Tree} {trees : List Tree} {s s₁ : ExpanderState}
      {report : Report} :
      Runs e budget tree.span false tree s calls (.error report, s₁) →
      RunsAll e budget (tree :: trees) s calls (.error report, s₁)
  | failedLater {budget calls later : Nat} {tree : Tree} {trees : List Tree} {out : Expanded Tree}
      {s s₁ s₂ : ExpanderState} {report : Report} :
      Runs e budget tree.span false tree s calls (.ok out, s₁) →
      RunsAll e budget trees s₁ later (.error report, s₂) →
      RunsAll e budget (tree :: trees) s (calls + later) (.error report, s₂)
  | cons {budget calls later : Nat} {tree : Tree} {trees : List Tree} {out : Expanded Tree}
      {outs : Expanded (List Tree)} {s s₁ s₂ : ExpanderState} :
      Runs e budget tree.span false tree s calls (.ok out, s₁) →
      RunsAll e budget trees s₁ later (.ok outs, s₂) →
      RunsAll e budget (tree :: trees) s (calls + later)
        (.ok ⟨out.value :: outs.value,
          e.registry.moved s.context s₁.context tree out || outs.changed⟩, s₂)

end

/-- Expanding a tree completely ends with a result, after some number of calls of handlers. -/
def Ends (e : Expander) (tree : Tree) (s : ExpanderState) (calls : Nat)
    (result : Except Report (Expanded Tree) × ExpanderState) : Prop :=
  e.Runs e.limit tree.span false tree s calls result

variable {e : Expander}

mutual

/-- The expander gives the result of a run. -/
theorem Runs.expandTree_eq {budget calls : Nat} {origin : Option Span} {changed : Bool}
    {tree : Tree} {s : ExpanderState} {result : Except Report (Expanded Tree) × ExpanderState} :
    e.Runs budget origin changed tree s calls result →
      e.expandTree budget origin changed tree s = some result
  | .failed hoffer => expandTree_of_error hoffer
  | .exhausted hoffer => expandTree_zero hoffer
  | .replaced hoffer hout => (expandTree_succ hoffer).trans hout.expandTree_eq
  | .leaf hoffer => expandTree_leaf hoffer
  | .failedInside hoffer hchildren => by rw [expandTree_node hoffer, hchildren.expandList_eq]; rfl
  | .left hoffer hchildren => by rw [expandTree_node hoffer, hchildren.expandList_eq]; rfl
  | .revisited hoffer hchildren hout =>
    (expandTree_node_of_changed hoffer hchildren.expandList_eq).trans hout.expandTree_eq

theorem RunsAll.expandList_eq {budget calls : Nat} {trees : List Tree} {s : ExpanderState}
    {result : Except Report (Expanded (List Tree)) × ExpanderState} :
    e.RunsAll budget trees s calls result → e.expandList budget trees s = some result
  | .nil => expandList_nil
  | .failed htree => by rw [expandList_cons, htree.expandTree_eq]; rfl
  | .failedLater htree htrees => by
    rw [expandList_cons_of_ok htree.expandTree_eq, htrees.expandList_eq]
    rfl
  | .cons htree htrees => by
    rw [expandList_cons_of_ok htree.expandTree_eq, htrees.expandList_eq]
    rfl

end

/-- Whatever the expander gives is the result of a run.  The induction is over the loop as it
unfolds: it needs no bound on the visits. -/
theorem exists_runs_of_expandTree :
    (∀ budget origin changed tree s result,
      e.expandTree budget origin changed tree s = some result →
      ∃ calls, e.Runs budget origin changed tree s calls result) ∧
    ∀ budget trees s result, e.expandList budget trees s = some result →
      ∃ calls, e.RunsAll budget trees s calls result := by
  have h := Visit.expand.mutual_partial_correctness e
    (fun visit s result =>
      ∃ calls, e.Runs visit.budget visit.origin visit.changed visit.tree s calls result)
    (fun visits s result => ∃ calls, e.RunsAll visits.budget visits.trees s calls result)
    ?tree ?list
  · exact ⟨fun _ _ _ _ _ _ => h.1 _ _ _, fun _ _ _ _ => h.2 _ _ _⟩
  case tree =>
    rintro expand expandAll ihTree ihList ⟨budget, origin, changed, tree⟩ s result h
    dsimp only at h ⊢
    split at h
    case h_1 report s₁ hoffer =>
      cases h
      exact ⟨_, .failed hoffer⟩
    case h_2 output s₁ hoffer =>
      split at h
      case h_1 =>
        cases h
        exact ⟨_, .exhausted hoffer⟩
      case h_2 budget =>
        obtain ⟨later, hout⟩ := ihTree _ _ _ h
        exact ⟨_, .replaced hoffer hout⟩
    case h_3 s₁ hoffer =>
      split at h
      case h_1 =>
        cases h
        exact ⟨_, .leaf hoffer⟩
      case h_2 kind children span =>
        obtain ⟨inside, hlist, h⟩ := Option.bind_eq_some_iff.1 h
        obtain ⟨calls, hchildren⟩ := ihList _ _ _ hlist
        split at h
        case h_1 report s₂ =>
          cases h
          exact ⟨_, .failedInside hoffer hchildren⟩
        case h_2 children' s₂ =>
          cases h
          exact ⟨_, .left hoffer hchildren⟩
        case h_3 children' s₂ =>
          obtain ⟨later, hout⟩ := ihTree _ _ _ h
          exact ⟨_, .revisited hoffer hchildren hout⟩
  case list =>
    rintro expand expandAll ihTree ihList ⟨budget, trees⟩ s result h
    dsimp only at h ⊢
    split at h
    case h_1 =>
      cases h
      exact ⟨_, .nil⟩
    case h_2 tree rest =>
      obtain ⟨first, htree, h⟩ := Option.bind_eq_some_iff.1 h
      obtain ⟨calls, hruns⟩ := ihTree _ _ _ htree
      split at h
      case h_1 report s₁ =>
        cases h
        exact ⟨_, .failed hruns⟩
      case h_2 expanded s₁ =>
        obtain ⟨others, hrest, h⟩ := Option.bind_eq_some_iff.1 h
        obtain ⟨later, hrunsAll⟩ := ihList _ _ _ hrest
        split at h
        case h_1 report s₂ =>
          cases h
          exact ⟨_, .failedLater hruns hrunsAll⟩
        case h_2 rest' moved s₂ =>
          cases h
          exact ⟨_, .cons hruns hrunsAll⟩

theorem expandTree_eq_some_iff {budget : Nat} {origin : Option Span} {changed : Bool} {tree : Tree}
    {s : ExpanderState} {result : Except Report (Expanded Tree) × ExpanderState} :
    e.expandTree budget origin changed tree s = some result ↔
      ∃ calls, e.Runs budget origin changed tree s calls result := by
  constructor
  · exact exists_runs_of_expandTree.1 _ _ _ _ _ _
  · rintro ⟨calls, h⟩
    exact h.expandTree_eq

theorem expandList_eq_some_iff {budget : Nat} {trees : List Tree} {s : ExpanderState}
    {result : Except Report (Expanded (List Tree)) × ExpanderState} :
    e.expandList budget trees s = some result ↔
      ∃ calls, e.RunsAll budget trees s calls result := by
  constructor
  · exact exists_runs_of_expandTree.2 _ _ _ _
  · rintro ⟨calls, h⟩
    exact h.expandList_eq

/-! ## A run that depends on objects -/

/-- A macro that gives a tree back in every other scope, and declines it in the others. -/
def alternate : Handler where
  name := "alternate"
  attempt tree := HandlerM.ofContext fun cx =>
    .ok (if cx.allocated % 2 = 1 then .replaced tree else .declined)
  balanced _ := .read _

/-- The macro for nodes `d`.  What it gives back is the tree itself, or a copy. -/
def alternator (shares : Bool) : Registry where
  entries := [("d", [alternate])]
  sharing _ _ _ := shares

/-- A node `d`. -/
def inner : Tree := .node "d" [] none

/-- A node around it. -/
def outer : Tree := .node "e" [inner] none

theorem run_call_alternate (tree : Tree) (cx : Context) :
    (alternate.call tree).run cx =
      (.ok (if (cx.allocated + 1) % 2 = 1 then .replaced tree else .declined),
        { cx with allocated := cx.allocated + 1 }) := rfl

theorem offer_alternator (shares : Bool) (s : ExpanderState) :
    (alternator shares).offer inner s = offerTo inner [alternate] s := rfl

/-- From an even number of scopes, the node `d` is replaced by itself and then declined. -/
theorem exists_runsAll_alternator (limit : Nat) (shares : Bool) {budget : Nat}
    {s : ExpanderState} (hbudget : 0 < budget) (heven : s.context.allocated % 2 = 0) :
    ∃ calls s', (Expander.mk (alternator shares) limit).RunsAll budget [inner] s calls
        (.ok ⟨[inner], !shares⟩, s') ∧ s'.context.allocated = s.context.allocated + 2 := by
  obtain ⟨budget, rfl⟩ := Nat.exists_eq_succ_of_ne_zero (Nat.ne_of_gt hbudget)
  have hfirst := offer_alternator shares s
  rw [offerTo, run_call_alternate, if_pos (by omega)] at hfirst
  dsimp only at hfirst
  generalize hs₁ : ExpanderState.record _ _ = s₁ at hfirst
  have hcount : s₁.context.allocated = s.context.allocated + 1 := hs₁ ▸ rfl
  have hsecond := offer_alternator shares s₁
  rw [offerTo, run_call_alternate, if_neg (by omega)] at hsecond
  have hruns : (Expander.mk (alternator shares) limit).RunsAll (budget + 1) [inner] s _ _ :=
    .cons (.replaced hfirst (.left hsecond .nil)) .nil
  simp only [Registry.moved, Bool.true_and, Bool.or_false] at hruns
  exact ⟨_, _, hruns, congrArg (· + 1) hcount⟩

/-- With copies no run ends: the node around is visited again and again. -/
theorem not_runs_alternator {limit budget calls : Nat} {origin : Option Span} {changed : Bool}
    {tree : Tree} {s : ExpanderState} {result : Except Report (Expanded Tree) × ExpanderState} :
    (Expander.mk (alternator false) limit).Runs budget origin changed tree s calls result →
      tree = outer → 0 < budget → s.context.allocated % 2 ≠ 0
  | .failed hoffer, htree, _, _ => by
    cases htree
    cases hoffer
  | .exhausted _, _, hbudget, _ => Nat.lt_irrefl 0 hbudget
  | .replaced hoffer _, htree, _, _ => by
    cases htree
    cases hoffer
  | .leaf _, htree, _, _ => by cases htree
  | .failedInside hoffer hchildren, htree, hbudget, heven => by
    cases htree
    cases hoffer
    obtain ⟨calls, s', hruns, -⟩ := exists_runsAll_alternator limit false hbudget heven
    cases hchildren.expandList_eq.symm.trans hruns.expandList_eq
  | .left hoffer hchildren, htree, hbudget, heven => by
    cases htree
    cases hoffer
    obtain ⟨calls, s', hruns, -⟩ := exists_runsAll_alternator limit false hbudget heven
    cases hchildren.expandList_eq.symm.trans hruns.expandList_eq
  | .revisited hoffer hchildren hout, htree, hbudget, heven => by
    have hlater := not_runs_alternator hout
    cases htree
    cases hoffer
    obtain ⟨calls, s', hruns, hcount⟩ := exists_runsAll_alternator limit false hbudget heven
    cases hchildren.expandList_eq.symm.trans hruns.expandList_eq
    exact hlater rfl hbudget (by omega)

/-- With copies the expansion goes on forever, and with the tree itself it ends. -/
theorem expand_alternator {limit : Nat} (hlimit : 0 < limit) {s : ExpanderState}
    (heven : s.context.allocated % 2 = 0) :
    expand ⟨alternator false, limit⟩ outer s = none ∧
      ∃ s', expand ⟨alternator true, limit⟩ outer s = some (.ok ⟨outer, false⟩, s') := by
  constructor
  · refine Option.eq_none_iff_forall_not_mem.2 fun result hrun => ?_
    obtain ⟨calls, hruns⟩ := expandTree_eq_some_iff.1 hrun
    exact not_runs_alternator hruns rfl hlimit heven
  · obtain ⟨calls, s', hruns, -⟩ := exists_runsAll_alternator limit true hlimit heven
    have hdeclined : (alternator true).offer outer s = (.ok .declined, s) := rfl
    exact ⟨s', (Runs.left hdeclined hruns).expandTree_eq⟩

end Expander

end MacroExpansion
