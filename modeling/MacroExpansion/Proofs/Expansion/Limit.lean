import Mathlib
import MacroExpansion.Script
import MacroExpansion.Proofs.Expansion.Invariant
import MacroExpansion.Proofs.Registry.Lookup

/-!
# The limit of replacements

A run knows its limit only by reaching it.  A run that succeeds, or in which a handler fails, is
the same with more room (`Expands.mono`, `Fails.mono`), and a run that fails by the limit has made
more replacements than the limit allows (`Fails.budget_lt_length`).  This holds for any handlers,
and so for those too that let a tree be visited without end: of their runs only those are spoken of
that come to an end.
-/

namespace MacroExpansion

variable {registry : Registry}

/-! ## More room -/

mutual

theorem Expands.mono {budget budget' : Nat} {cx cx' : Context} {tree : Tree} {out : Expanded Tree}
    {rs : List Replacement} :
    Expands registry budget cx tree rs out cx' → budget ≤ budget' →
      Expands registry budget' cx tree rs out cx'
  | .replace hreplaced hout, hbudget => by
    obtain ⟨budget', rfl⟩ : ∃ n, budget' = n + 1 := ⟨budget' - 1, by omega⟩
    exact .replace hreplaced (hout.mono (by omega))
  | .leaf hdeclined, _ => .leaf hdeclined
  | .settle hdeclined hchildren, hbudget => .settle hdeclined (hchildren.mono hbudget)
  | .revisit hdeclined hchildren hout, hbudget =>
    .revisit hdeclined (hchildren.mono hbudget) (hout.mono hbudget)

theorem ExpandsAll.mono {budget budget' : Nat} {cx cx' : Context} {trees : List Tree}
    {outs : Expanded (List Tree)} {rs : List Replacement} :
    ExpandsAll registry budget cx trees rs outs cx' → budget ≤ budget' →
      ExpandsAll registry budget' cx trees rs outs cx'
  | .nil, _ => .nil
  | .cons htree htrees, hbudget => .cons (htree.mono hbudget) (htrees.mono hbudget)

end

mutual

/-- What a handler raises does not depend on the budget. -/
theorem Fails.mono {budget budget' : Nat} {origin : Option Span} {cx cx' : Context} {tree : Tree}
    {rs : List Replacement} {failure : Failure} :
    Fails registry budget origin cx tree rs failure cx' → (∃ report, failure = .raised report) →
      budget ≤ budget' → Fails registry budget' origin cx tree rs failure cx'
  | .raised hfailed, _, _ => .raised hfailed
  | .exceeded _, hraised, _ => by obtain ⟨_, ⟨⟩⟩ := hraised
  | .replace hreplaced hout, hraised, hbudget => by
    obtain ⟨budget', rfl⟩ : ∃ n, budget' = n + 1 := ⟨budget' - 1, by omega⟩
    exact .replace hreplaced (hout.mono hraised (by omega))
  | .inside hdeclined hchildren, hraised, hbudget =>
    .inside hdeclined (hchildren.mono hraised hbudget)
  | .revisit hdeclined hchildren hout, hraised, hbudget =>
    .revisit hdeclined (hchildren.mono hbudget) (hout.mono hraised hbudget)

theorem FailsAll.mono {budget budget' : Nat} {cx cx' : Context} {trees : List Tree}
    {rs : List Replacement} {failure : Failure} :
    FailsAll registry budget cx trees rs failure cx' → (∃ report, failure = .raised report) →
      budget ≤ budget' → FailsAll registry budget' cx trees rs failure cx'
  | .head htree, hraised, hbudget => .head (htree.mono hraised hbudget)
  | .tail htree htrees, hraised, hbudget =>
    .tail (htree.mono hbudget) (htrees.mono hraised hbudget)

end

/-! ## Reaching the limit -/

mutual

/-- A chain that is too long has used up the budget, and made one replacement more. -/
theorem Fails.budget_lt_length {budget : Nat} {origin : Option Span} {cx cx' : Context}
    {tree : Tree} {rs : List Replacement} {failure : Failure} :
    Fails registry budget origin cx tree rs failure cx' →
      (∃ first kind, failure = .exceeded first kind) → budget < rs.length
  | .raised _, hexceeded => by obtain ⟨_, _, ⟨⟩⟩ := hexceeded
  | .exceeded _, _ => Nat.zero_lt_one
  | .replace _ hout, hexceeded => Nat.succ_lt_succ (hout.budget_lt_length hexceeded)
  | .inside _ hchildren, hexceeded => hchildren.budget_lt_length hexceeded
  | .revisit _ _ hout, hexceeded => by
    have hlater := hout.budget_lt_length hexceeded
    rw [List.length_append]
    omega

theorem FailsAll.budget_lt_length {budget : Nat} {cx cx' : Context} {trees : List Tree}
    {rs : List Replacement} {failure : Failure} :
    FailsAll registry budget cx trees rs failure cx' →
      (∃ first kind, failure = .exceeded first kind) → budget < rs.length
  | .head htree, hexceeded => htree.budget_lt_length hexceeded
  | .tail _ htrees, hexceeded => by
    have hlater := htrees.budget_lt_length hexceeded
    rw [List.length_append]
    omega

end

/-! ## Raising the limit -/

/-- No handler raises a report of the limit by itself. -/
def Registry.RaisesNoLimit (registry : Registry) : Prop :=
  ∀ kind, ∀ handler ∈ registry.lookup kind, ∀ tree cx report,
    ((handler.attempt tree).run cx).1 = .error report → report.isRecursionLimit = false

theorem Registry.RaisesNoLimit.isRecursionLimit_of_call (h : registry.RaisesNoLimit) {tree : Tree}
    {handler : Handler} (hmem : handler ∈ registry.lookup tree.kind) {cx cx' : Context}
    {report : Report} (hcall : (handler.call tree).run cx = (.error report, cx')) :
    report.isRecursionLimit = false := by
  obtain ⟨raised, hattempt, rfl⟩ := Handler.exists_raised_of_call hcall
  exact h tree.kind handler hmem tree _ raised hattempt

/-- What is not a report of the limit was raised by a handler. -/
theorem Failure.exists_raised {failure : Failure} {limit : Nat}
    (h : (failure.report limit).isRecursionLimit = false) :
    ∃ report, failure = .raised report := by
  cases failure with
  | raised report => exact ⟨report, rfl⟩
  | exceeded origin kind => cases h

/-- When no handler raises a report of the limit, such a report is that of a chain. -/
theorem Fails.exists_exceeded (hraises : registry.RaisesNoLimit) {budget limit : Nat}
    {origin : Option Span} {cx cx' : Context} {tree : Tree} {rs : List Replacement}
    {failure : Failure} (h : Fails registry budget origin cx tree rs failure cx')
    (hreport : (failure.report limit).isRecursionLimit = true) :
    ∃ first kind, failure = .exceeded first kind := by
  cases failure with
  | raised report =>
    obtain ⟨tree, handler, hmem, cx₁, cx₂, hcall⟩ := h.exists_call
    have hfalse := hraises.isRecursionLimit_of_call hmem hcall
    exact absurd hreport (by simp [Failure.report, hfalse])
  | exceeded first kind => exact ⟨first, kind, rfl⟩

namespace Expander

/-- A higher limit changes no run that did not reach the limit, and a run that did has made more
replacements than the limit allows. -/
theorem expand_limit_mono :
    (∀ (registry : Registry) (limit limit' : Nat) (tree : Tree) (s s' : ExpanderState)
      (result : Except Report (Expanded Tree)), limit ≤ limit' →
      expand ⟨registry, limit⟩ tree s = some (result, s') →
      (∀ report, result = .error report → report.isRecursionLimit = false) →
      expand ⟨registry, limit'⟩ tree s = some (result, s')) ∧
    ∀ (registry : Registry) (limit : Nat) (tree : Tree) (s s' : ExpanderState) (report : Report),
      registry.RaisesNoLimit →
      expand ⟨registry, limit⟩ tree s = some (.error report, s') →
      report.isRecursionLimit = true →
      (∃ kind, report.fault = .recursionLimit limit kind) ∧
        ∃ rs : List Replacement, limit + 1 ≤ rs.length ∧
          s'.trace = s.trace.map (rs.reverse ++ ·) := by
  refine ⟨?_, ?_⟩
  · intro registry limit limit' tree s s' result hlimit h hbound
    cases result with
    | ok out =>
      obtain ⟨rs, cx, hexpands, rfl⟩ := expand_eq_ok_iff.1 h
      exact expand_eq_ok_iff.2 ⟨rs, cx, hexpands.mono hlimit, rfl⟩
    | error report =>
      obtain ⟨rs, failure, cx, hfails, rfl, rfl⟩ := expand_eq_error_iff.1 h
      obtain ⟨report, rfl⟩ := Failure.exists_raised (hbound _ rfl)
      exact expand_eq_error_iff.2 ⟨rs, _, cx, hfails.mono ⟨report, rfl⟩ hlimit, rfl, rfl⟩
  · intro registry limit tree s s' report hraises h hreport
    obtain ⟨rs, failure, cx, hfails, rfl, rfl⟩ := expand_eq_error_iff.1 h
    obtain ⟨origin, kind, rfl⟩ := hfails.exists_exceeded hraises hreport
    exact ⟨⟨kind, rfl⟩, rs, hfails.budget_lt_length ⟨origin, kind, rfl⟩, rfl⟩

/-- Two macros in a row: nodes `a` become nodes `b`, and these become nodes `c`. -/
def relay : Registry :=
  (Registry.empty.register "a" ((Script.retag "b").handler "first")).register "b"
    ((Script.retag "c").handler "second")

theorem expand_limit_mono_relay :
    let a : Tree := .node "a" [] (some ⟨0, 1⟩)
    let c : Tree := .node "c" [] none
    (∃ s, expand ⟨relay, 2⟩ a (.initial "Main" 0 true) = some (.ok ⟨c, true⟩, s) ∧
        expand ⟨relay, 128⟩ a (.initial "Main" 0 true) = some (.ok ⟨c, true⟩, s)) ∧
      (∃ s, expand ⟨alternator true, 1⟩ outer (.initial "Main" 0 true) =
          some (.ok ⟨outer, false⟩, s) ∧
        expand ⟨alternator true, 128⟩ outer (.initial "Main" 0 true) =
          some (.ok ⟨outer, false⟩, s)) ∧
      ∃ (s : ExpanderState) (rs : List Replacement),
        expand ⟨relay, 1⟩ a (.initial "Main" 0 true) =
          some (.error (.at? (some ⟨0, 1⟩) (.recursionLimit 1 "c")), s) ∧
        2 ≤ rs.length ∧ s.trace = some (rs.reverse ++ []) := by
  intro a c
  have hraises : relay.RaisesNoLimit :=
    Registry.forall_mem_lookup_register
      (Registry.forall_mem_lookup_register Registry.forall_mem_lookup_empty
        fun _ _ _ h => nomatch h) fun _ _ _ h => nomatch h
  obtain ⟨hsame, hlimit⟩ := expand_limit_mono
  obtain ⟨s, hs⟩ : ∃ s, expand ⟨relay, 2⟩ a (.initial "Main" 0 true) =
      some (.ok ⟨c, true⟩, s) := ⟨_, by cbv⟩
  obtain ⟨s₁, hs₁⟩ : ∃ s, expand ⟨alternator true, 1⟩ outer (.initial "Main" 0 true) =
      some (.ok ⟨outer, false⟩, s) := (expand_alternator Nat.zero_lt_one rfl).2
  obtain ⟨s₂, hs₂⟩ : ∃ s, expand ⟨relay, 1⟩ a (.initial "Main" 0 true) =
      some (.error (.at? (some ⟨0, 1⟩) (.recursionLimit 1 "c")), s) := ⟨_, by cbv⟩
  obtain ⟨-, rs, hlength, htrace⟩ := hlimit relay 1 a _ s₂ _ hraises hs₂ rfl
  have hmore := hsame relay 2 128 a _ s _ (by decide) hs fun _ h => by cases h
  have hmore₁ := hsame (alternator true) 1 128 outer _ s₁ _ (by decide) hs₁ fun _ h => by cases h
  exact ⟨⟨s, hs, hmore⟩, ⟨s₁, hs₁, hmore₁⟩, s₂, rs, hs₂, hlength, htrace⟩

end Expander

end MacroExpansion
