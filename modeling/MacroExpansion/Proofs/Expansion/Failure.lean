import MacroExpansion.Proofs.Expansion.Derivation
import MacroExpansion.Proofs.Expansion.Runs

/-!
# Failing expansions

The runs of an expander that fail, described by rules beside those for the runs that succeed.
`Fails` relates a tree to what stopped its expansion and to the replacements made before: a handler
failed, or a chain of replacements went past the limit.  Up to there a failing run is made of
successful ones.  `expandTree_eq_error_iff` shows that the rules describe `expandTree`.
-/

namespace MacroExpansion

/-! ## Calls -/

theorem Context.fst_located_eq_error {α : Type} {body : HandlerM α} (hbody : Balanced body.run)
    {cx : Context} {report : Report} (h : ((HandlerM.located body).run cx).1 = .error report) :
    ∃ raised, (body.run cx).1 = .error raised ∧ report = raised.orAt cx.span? := by
  rw [HandlerM.located, ExceptT.run_mk] at h
  split at h
  case h_1 => cases h
  case h_2 raised cx₁ hrun =>
    have hrefs : cx₁.refs = cx.refs := by
      have hbalanced := hbody.refs cx
      rwa [hrun] at hbalanced
    refine ⟨raised, congrArg Prod.fst hrun, ?_⟩
    rw [span?, ← hrefs]
    exact (Except.error.inj h).symm

/-- A call fails with what the handler raises, at the place of the tree if it has none. -/
theorem Handler.exists_raised_of_call {h : Handler} {tree : Tree} {cx cx' : Context}
    {report : Report} (hcall : (h.call tree).run cx = (.error report, cx')) :
    ∃ raised, ((h.attempt tree).run (cx.inCall tree)).1 = .error raised ∧
      report = raised.orAt (cx.inCall tree).span? :=
  Context.fst_located_eq_error (h.balanced tree) (congrArg Prod.fst hcall)

/-! ## Offers -/

/-- Some handlers decline a tree, and the next one fails. -/
inductive Failed (tree : Tree) : List Handler → Context → Report → Context → Prop
  | here {handler : Handler} {handlers : List Handler} {cx cx₁ : Context} {report : Report} :
      (handler.call tree).run cx = (.error report, cx₁) →
      Failed tree (handler :: handlers) cx report cx₁
  | there {handler : Handler} {handlers : List Handler} {cx cx₁ cx₂ : Context} {report : Report} :
      (handler.call tree).run cx = (.ok .declined, cx₁) → Failed tree handlers cx₁ report cx₂ →
      Failed tree (handler :: handlers) cx report cx₂

theorem offerTo_eq_error_iff {tree : Tree} {handlers : List Handler} {report : Report}
    {s s' : ExpanderState} :
    offerTo tree handlers s = (.error report, s') ↔
      ∃ cx, Failed tree handlers s.context report cx ∧ { s with context := cx } = s' := by
  induction handlers generalizing s with
  | nil =>
    constructor
    · intro h
      cases h
    · rintro ⟨cx, ⟨⟩, -⟩
  | cons handler handlers ih =>
    rw [offerTo]
    constructor
    · intro h
      split at h
      case h_1 cx₁ hcall =>
        obtain ⟨cx, hfailed, rfl⟩ := ih.1 h
        exact ⟨cx, .there hcall hfailed, rfl⟩
      case h_2 => cases h
      case h_3 report' cx₁ hcall =>
        cases h
        exact ⟨cx₁, .here hcall, rfl⟩
    · rintro ⟨cx, hfailed, rfl⟩
      cases hfailed with
      | here hcall => rw [hcall]
      | there hcall hfailed =>
        rw [hcall]
        exact ih.2 ⟨cx, hfailed, rfl⟩

theorem Failed.exists_call {tree : Tree} {handlers : List Handler} {cx cx' : Context}
    {report : Report} (h : Failed tree handlers cx report cx') :
    ∃ handler ∈ handlers, ∃ cx₁ cx₂, (handler.call tree).run cx₁ = (.error report, cx₂) := by
  induction h with
  | here hcall => exact ⟨_, List.mem_cons_self, _, _, hcall⟩
  | there _ _ ih =>
    obtain ⟨handler, hmem, hcall⟩ := ih
    exact ⟨handler, List.mem_cons_of_mem _ hmem, hcall⟩

theorem Registry.offer_eq_error_iff {registry : Registry} {tree : Tree} {report : Report}
    {s s' : ExpanderState} :
    registry.offer tree s = (.error report, s') ↔
      ∃ cx, Failed tree (registry.lookup tree.kind) s.context report cx ∧ s.after [] cx = s' := by
  simp only [ExpanderState.after_nil]
  exact offerTo_eq_error_iff

/-! ## Rules -/

/-- What stops an expansion. -/
inductive Failure where
  /-- A handler failed. -/
  | raised (report : Report)
  /-- A chain of replacements that began at `origin` was too long; `kind` is that of its end. -/
  | exceeded (origin : Option Span) (kind : String)

/-- How a failure is reported where chains have at most `limit` replacements. -/
def Failure.report (limit : Nat) : Failure → Report
  | raised report => report
  | exceeded origin kind => .at? origin (.recursionLimit limit kind)

mutual

/-- The expansion of a tree fails, after some replacements. -/
inductive Fails (registry : Registry) : (budget : Nat) → (origin : Option Span) → Context → Tree →
    List Replacement → Failure → Context → Prop
  | raised {budget : Nat} {origin : Option Span} {cx cx₁ : Context} {tree : Tree}
      {report : Report} :
      Failed tree (registry.lookup tree.kind) cx report cx₁ →
      Fails registry budget origin cx tree [] (.raised report) cx₁
  | exceeded {origin : Option Span} {cx cx₁ : Context} {tree : Tree} {r : Replacement} :
      Replaced tree (registry.lookup tree.kind) cx r cx₁ →
      Fails registry 0 origin cx tree [r] (.exceeded origin r.output.kind) cx₁
  | replace {budget : Nat} {origin : Option Span} {cx cx₁ cx₂ : Context} {tree : Tree}
      {r : Replacement} {rs : List Replacement} {failure : Failure} :
      Replaced tree (registry.lookup tree.kind) cx r cx₁ →
      Fails registry budget origin cx₁ r.output rs failure cx₂ →
      Fails registry (budget + 1) origin cx tree (r :: rs) failure cx₂
  | inside {budget : Nat} {origin span : Option Span} {cx cx₁ cx₂ : Context} {kind : String}
      {children : List Tree} {rs : List Replacement} {failure : Failure} :
      Declined (.node kind children span) (registry.lookup kind) cx cx₁ →
      FailsAll registry budget cx₁ children rs failure cx₂ →
      Fails registry budget origin cx (.node kind children span) rs failure cx₂
  | revisit {budget : Nat} {origin span : Option Span} {cx cx₁ cx₂ cx₃ : Context} {kind : String}
      {children children' : List Tree} {rs rs' : List Replacement} {failure : Failure} :
      Declined (.node kind children span) (registry.lookup kind) cx cx₁ →
      ExpandsAll registry budget cx₁ children rs ⟨children', true⟩ cx₂ →
      Fails registry budget origin cx₂ (.node kind children' span) rs' failure cx₃ →
      Fails registry budget origin cx (.node kind children span) (rs ++ rs') failure cx₃

/-- The expansion of trees from left to right fails at one of them. -/
inductive FailsAll (registry : Registry) :
    (budget : Nat) → Context → List Tree → List Replacement → Failure → Context → Prop
  | head {budget : Nat} {cx cx₁ : Context} {tree : Tree} {trees : List Tree}
      {rs : List Replacement} {failure : Failure} :
      Fails registry budget tree.span cx tree rs failure cx₁ →
      FailsAll registry budget cx (tree :: trees) rs failure cx₁
  | tail {budget : Nat} {cx cx₁ cx₂ : Context} {tree : Tree} {trees : List Tree}
      {rs rs' : List Replacement} {out : Expanded Tree} {failure : Failure} :
      Expands registry budget cx tree rs out cx₁ →
      FailsAll registry budget cx₁ trees rs' failure cx₂ →
      FailsAll registry budget cx (tree :: trees) (rs ++ rs') failure cx₂

end

/-! ## Runs of the expander -/

namespace Expander

variable {e : Expander}

mutual

theorem run_of_fails {budget : Nat} {origin : Option Span} {cx cx' : Context} {tree : Tree}
    {rs : List Replacement} {failure : Failure} :
    Fails e.registry budget origin cx tree rs failure cx' → ∀ changed s, s.context = cx →
      e.expandTree budget origin changed tree s =
        some (.error (failure.report e.limit), s.after rs cx')
  | .raised hfailed, changed, s, hs => by
    subst hs
    exact expandTree_of_error (Registry.offer_eq_error_iff.2 ⟨_, hfailed, rfl⟩)
  | .exceeded hreplaced, changed, s, hs => by
    subst hs
    exact expandTree_zero hreplaced.offer_eq
  | .replace hreplaced hout, changed, s, hs => by
    subst hs
    rw [expandTree_succ hreplaced.offer_eq, run_of_fails hout true (s.after _ _) rfl]
    simp
  | .inside hdeclined hchildren, changed, s, hs => by
    subst hs
    rw [expandTree_node hdeclined.offer_eq, run_of_failsAll hchildren (s.after _ _) rfl]
    simp
  | .revisit hdeclined hchildren hout, changed, s, hs => by
    subst hs
    rw [expandTree_node_of_changed hdeclined.offer_eq
      (expandList_of_expandsAll (s := s.after _ _) hchildren), ExpanderState.after_after,
      run_of_fails hout true (s.after _ _) rfl]
    simp

theorem run_of_failsAll {budget : Nat} {cx cx' : Context} {trees : List Tree}
    {rs : List Replacement} {failure : Failure} :
    FailsAll e.registry budget cx trees rs failure cx' → ∀ s, s.context = cx →
      e.expandList budget trees s = some (.error (failure.report e.limit), s.after rs cx')
  | .head htree, s, hs => by
    rw [expandList_cons, run_of_fails htree false s hs]
    rfl
  | .tail htree htrees, s, hs => by
    subst hs
    rw [expandList_cons_of_ok (expandTree_of_expands htree),
      run_of_failsAll htrees (s.after _ _) rfl]
    simp

end

/-! ## All runs -/

/-- What the rules say of the result of expanding a tree. -/
def Describes (e : Expander) (budget : Nat) (origin : Option Span) (changed : Bool) (tree : Tree)
    (s : ExpanderState) : Except Report (Expanded Tree) × ExpanderState → Prop
  | (.ok out, s') => ∃ rs out' cx', Expands e.registry budget s.context tree rs out' cx' ∧
      out = ⟨out'.value, changed || out'.changed⟩ ∧ s' = s.after rs cx'
  | (.error report, s') => ∃ rs failure cx',
      Fails e.registry budget origin s.context tree rs failure cx' ∧
        report = failure.report e.limit ∧ s' = s.after rs cx'

/-- What the rules say of the result of expanding trees from left to right. -/
def DescribesAll (e : Expander) (budget : Nat) (trees : List Tree) (s : ExpanderState) :
    Except Report (Expanded (List Tree)) × ExpanderState → Prop
  | (.ok outs, s') => ∃ rs cx', ExpandsAll e.registry budget s.context trees rs outs cx' ∧
      s' = s.after rs cx'
  | (.error report, s') => ∃ rs failure cx',
      FailsAll e.registry budget s.context trees rs failure cx' ∧
        report = failure.report e.limit ∧ s' = s.after rs cx'

theorem Describes.of_replaced {budget : Nat} {origin : Option Span} {changed : Bool}
    {tree output : Tree} {s s₁ : ExpanderState}
    {result : Except Report (Expanded Tree) × ExpanderState}
    (hoffer : e.registry.offer tree s = (.ok (.replaced output), s₁))
    (hlater : e.Describes budget origin true output s₁ result) :
    e.Describes (budget + 1) origin changed tree s result := by
  obtain ⟨r, cx₁, hreplaced, rfl, rfl⟩ := Registry.offer_eq_replaced_iff.1 hoffer
  obtain ⟨report | out, s'⟩ := result
  · obtain ⟨rs, failure, cx', hfails, rfl, rfl⟩ := hlater
    exact ⟨r :: rs, failure, cx', .replace hreplaced hfails, rfl, by simp⟩
  · obtain ⟨rs, out', cx', hexpands, rfl, rfl⟩ := hlater
    exact ⟨r :: rs, _, cx', .replace hreplaced hexpands, by simp, by simp⟩

theorem Describes.of_revisited {budget : Nat} {origin span : Option Span} {changed : Bool}
    {kind : String} {children children' : List Tree} {s s₁ s₂ : ExpanderState}
    {result : Except Report (Expanded Tree) × ExpanderState}
    (hoffer : e.registry.offer (.node kind children span) s = (.ok .declined, s₁))
    (hinside : e.DescribesAll budget children s₁ (.ok ⟨children', true⟩, s₂))
    (hlater : e.Describes budget origin true (.node kind children' span) s₂ result) :
    e.Describes budget origin changed (.node kind children span) s result := by
  obtain ⟨cx₁, hdeclined, rfl⟩ := Registry.offer_eq_declined_iff.1 hoffer
  obtain ⟨rs, cx₂, hchildren, rfl⟩ := hinside
  obtain ⟨report | out, s'⟩ := result
  · obtain ⟨rs', failure, cx', hfails, rfl, rfl⟩ := hlater
    exact ⟨rs ++ rs', failure, cx', .revisit hdeclined hchildren hfails, rfl, by simp⟩
  · obtain ⟨rs', out', cx', hexpands, rfl, rfl⟩ := hlater
    exact ⟨rs ++ rs', _, cx', .revisit hdeclined hchildren hexpands, by simp, by simp⟩

mutual

/-- The rules describe every run. -/
theorem Runs.describes {budget calls : Nat} {origin : Option Span} {changed : Bool} {tree : Tree}
    {s : ExpanderState} {result : Except Report (Expanded Tree) × ExpanderState} :
    e.Runs budget origin changed tree s calls result →
      e.Describes budget origin changed tree s result
  | .failed hoffer => by
    obtain ⟨cx₁, hfailed, rfl⟩ := Registry.offer_eq_error_iff.1 hoffer
    exact ⟨[], _, cx₁, .raised hfailed, rfl, rfl⟩
  | .exhausted hoffer => by
    obtain ⟨r, cx₁, hreplaced, rfl, rfl⟩ := Registry.offer_eq_replaced_iff.1 hoffer
    exact ⟨[r], _, cx₁, .exceeded hreplaced, rfl, rfl⟩
  | .replaced hoffer hout => .of_replaced hoffer hout.describes
  | .leaf hoffer => by
    obtain ⟨cx₁, hdeclined, rfl⟩ := Registry.offer_eq_declined_iff.1 hoffer
    exact ⟨[], _, cx₁, .leaf hdeclined, by simp, rfl⟩
  | .failedInside hoffer hchildren => by
    have hinside := hchildren.describes
    obtain ⟨cx₁, hdeclined, rfl⟩ := Registry.offer_eq_declined_iff.1 hoffer
    obtain ⟨rs, failure, cx₂, hfails, rfl, rfl⟩ := hinside
    exact ⟨rs, failure, cx₂, .inside hdeclined hfails, rfl, by simp⟩
  | .left hoffer hchildren => by
    have hinside := hchildren.describes
    obtain ⟨cx₁, hdeclined, rfl⟩ := Registry.offer_eq_declined_iff.1 hoffer
    obtain ⟨rs, cx₂, hexpands, rfl⟩ := hinside
    obtain rfl := hexpands.eq_of_unchanged rfl
    exact ⟨rs, _, cx₂, .settle hdeclined hexpands, by simp, by simp⟩
  | .revisited hoffer hchildren hout => .of_revisited hoffer hchildren.describes hout.describes

theorem RunsAll.describes {budget calls : Nat} {trees : List Tree} {s : ExpanderState}
    {result : Except Report (Expanded (List Tree)) × ExpanderState} :
    e.RunsAll budget trees s calls result → e.DescribesAll budget trees s result
  | .nil => ⟨[], s.context, .nil, by rw [ExpanderState.after_nil]⟩
  | .failed htree => by
    obtain ⟨rs, failure, cx₁, hfails, rfl, rfl⟩ := htree.describes
    exact ⟨rs, failure, cx₁, .head hfails, rfl, rfl⟩
  | .failedLater htree htrees => by
    have hlater := htrees.describes
    obtain ⟨rs, out, cx₁, hexpands, rfl, rfl⟩ := htree.describes
    obtain ⟨rs', failure, cx', hfails, rfl, rfl⟩ := hlater
    exact ⟨rs ++ rs', failure, cx', .tail hexpands hfails, rfl, by simp⟩
  | .cons htree htrees => by
    have hlater := htrees.describes
    obtain ⟨rs, out, cx₁, hexpands, rfl, rfl⟩ := htree.describes
    obtain ⟨rs', cx', hexpandsAll, rfl⟩ := hlater
    exact ⟨rs ++ rs', cx', .cons hexpands hexpandsAll, by simp⟩

end

variable {budget : Nat} {tree : Tree} {trees : List Tree} {report : Report} {s s' : ExpanderState}

theorem expandTree_eq_ok_iff {origin : Option Span} {changed : Bool} {out : Expanded Tree} :
    e.expandTree budget origin changed tree s = some (.ok out, s') ↔
      ∃ rs out' cx', Expands e.registry budget s.context tree rs out' cx' ∧
        out = ⟨out'.value, changed || out'.changed⟩ ∧ s' = s.after rs cx' := by
  constructor
  · intro h
    obtain ⟨calls, hruns⟩ := expandTree_eq_some_iff.1 h
    exact hruns.describes
  · rintro ⟨rs, out', cx', h, rfl, rfl⟩
    exact expandTree_of_expands h

theorem expandList_eq_ok_iff {outs : Expanded (List Tree)} :
    e.expandList budget trees s = some (.ok outs, s') ↔
      ∃ rs cx', ExpandsAll e.registry budget s.context trees rs outs cx' ∧ s' = s.after rs cx' := by
  constructor
  · intro h
    obtain ⟨calls, hruns⟩ := expandList_eq_some_iff.1 h
    exact hruns.describes
  · rintro ⟨rs, cx', h, rfl⟩
    exact expandList_of_expandsAll h

theorem expandTree_eq_error_iff {origin : Option Span} {changed : Bool} :
    e.expandTree budget origin changed tree s = some (.error report, s') ↔
      ∃ rs failure cx', Fails e.registry budget origin s.context tree rs failure cx' ∧
        report = failure.report e.limit ∧ s' = s.after rs cx' := by
  constructor
  · intro h
    obtain ⟨calls, hruns⟩ := expandTree_eq_some_iff.1 h
    exact hruns.describes
  · rintro ⟨rs, failure, cx', h, rfl, rfl⟩
    exact run_of_fails h changed s rfl

/-- A complete expansion begins without a change. -/
theorem expand_eq_ok_iff {out : Expanded Tree} :
    e.expand tree s = some (.ok out, s') ↔
      ∃ rs cx', Expands e.registry e.limit s.context tree rs out cx' ∧ s' = s.after rs cx' := by
  rw [expand, expandTree_eq_ok_iff]
  constructor
  · rintro ⟨rs, out', cx', h, rfl, rfl⟩
    exact ⟨rs, cx', by rwa [Bool.false_or], rfl⟩
  · rintro ⟨rs, cx', h, rfl⟩
    exact ⟨rs, out, cx', h, by rw [Bool.false_or], rfl⟩

theorem expand_eq_error_iff :
    e.expand tree s = some (.error report, s') ↔
      ∃ rs failure cx', Fails e.registry e.limit tree.span s.context tree rs failure cx' ∧
        report = failure.report e.limit ∧ s' = s.after rs cx' :=
  expandTree_eq_error_iff

/-- What is recorded has no say in a run: from the same context there is the same result, and the
same replacements are added to the trace. -/
theorem exists_after_of_expand {result : Except Report (Expanded Tree)}
    (h : e.expand tree s = some (result, s')) :
    ∃ rs cx, s' = s.after rs cx ∧ ∀ s₁ : ExpanderState, s₁.context = s.context →
      e.expand tree s₁ = some (result, s₁.after rs cx) := by
  cases result with
  | ok out =>
    obtain ⟨rs, cx, hexpands, rfl⟩ := expand_eq_ok_iff.1 h
    refine ⟨rs, cx, rfl, fun s₁ hs₁ => expand_eq_ok_iff.2 ⟨rs, cx, ?_, rfl⟩⟩
    rwa [hs₁]
  | error report =>
    obtain ⟨rs, failure, cx, hfails, rfl, rfl⟩ := expand_eq_error_iff.1 h
    refine ⟨rs, cx, rfl, fun s₁ hs₁ => expand_eq_error_iff.2 ⟨rs, failure, cx, ?_, rfl, rfl⟩⟩
    rwa [hs₁]

end Expander

end MacroExpansion
