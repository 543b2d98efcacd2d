import Mathlib
import MacroExpansion.Session
import MacroExpansion.Script
import MacroExpansion.Proofs.Expansion.Failure
import MacroExpansion.Proofs.Result

/-!
# Replaying a trace

The replacements that an expander records lead from its input to its result: each of them replaces
one part of the tree and leaves the rest as it is (`Replays`).  A node is rebuilt around the
children that were replaced, or left alone if they came back to what they were, and neither shows in
the tree.
-/

namespace MacroExpansion

/-! ## Replacing parts of a tree -/

/-- A replacement takes a tree to another one: it replaces a part that is its input by its output,
and all else stays. -/
inductive Replacement.Rewrites (r : Replacement) : Tree → Tree → Prop
  | here : Rewrites r r.input r.output
  | child {kind : String} {before after : List Tree} {tree tree' : Tree} {span : Option Span} :
      Rewrites r tree tree' →
      Rewrites r (.node kind (before ++ tree :: after) span)
        (.node kind (before ++ tree' :: after) span)

/-- Replacements take a tree to another one, one after the other. -/
inductive Replays : Tree → List Replacement → Tree → Prop
  | nil (tree : Tree) : Replays tree [] tree
  | cons {tree tree' out : Tree} {r : Replacement} {rs : List Replacement} :
      r.Rewrites tree tree' → Replays tree' rs out → Replays tree (r :: rs) out

namespace Replays

theorem append {tree tree' out : Tree} {rs rs' : List Replacement} (h : Replays tree rs tree')
    (h' : Replays tree' rs' out) : Replays tree (rs ++ rs') out := by
  induction h with
  | nil => exact h'
  | cons hrewrites _ ih => exact .cons hrewrites (ih h')

theorem child {kind : String} {before after : List Tree} {tree tree' : Tree}
    {span : Option Span} {rs : List Replacement} (h : Replays tree rs tree') :
    Replays (.node kind (before ++ tree :: after) span) rs
      (.node kind (before ++ tree' :: after) span) := by
  induction h with
  | nil => exact .nil _
  | cons hrewrites _ ih => exact .cons hrewrites.child ih

end Replays

variable {registry : Registry}

/-! ## Replaying a run -/

mutual

/-- The replacements of a run lead from the tree to its expansion. -/
theorem Expands.replays {budget : Nat} {cx cx' : Context} {tree : Tree} {out : Expanded Tree}
    {rs : List Replacement} :
    Expands registry budget cx tree rs out cx' → Replays tree rs out.value
  | .replace hreplaced hout => by
    rw [← hreplaced.input_eq]
    exact .cons .here hout.replays
  | .leaf _ => .nil _
  | .settle _ hchildren => hchildren.replays _ [] _
  | .revisit _ hchildren hout => (hchildren.replays _ [] _).append hout.replays

/-- The replacements below a node lead from its children to their expansions; `before` are the
children that have been expanded already. -/
theorem ExpandsAll.replays {budget : Nat} {cx cx' : Context} {trees : List Tree}
    {outs : Expanded (List Tree)} {rs : List Replacement} :
    ExpandsAll registry budget cx trees rs outs cx' → ∀ kind before span,
      Replays (.node kind (before ++ trees) span) rs (.node kind (before ++ outs.value) span)
  | .nil, _, _, _ => .nil _
  | .cons htree htrees, kind, before, span => by
    have hrest (tree : Tree) := htrees.replays kind (before ++ [tree]) span
    simp only [List.append_assoc, List.singleton_append] at hrest
    exact htree.replays.child.append (hrest _)

end

mutual

/-- What a run did: the handlers of the registry made its replacements. -/
theorem Expands.made {budget : Nat} {cx cx' : Context} {tree : Tree} {out : Expanded Tree}
    {rs : List Replacement} :
    Expands registry budget cx tree rs out cx' → Made registry cx cx' rs
  | .replace hreplaced hout => (Made.of_replaced hreplaced).append hout.made
  | .leaf hdeclined => .nil hdeclined.reaches
  | .settle hdeclined hchildren => (Made.nil hdeclined.reaches).append hchildren.made
  | .revisit hdeclined hchildren hout =>
    ((Made.nil hdeclined.reaches).append hchildren.made).append hout.made

theorem ExpandsAll.made {budget : Nat} {cx cx' : Context} {trees : List Tree}
    {outs : Expanded (List Tree)} {rs : List Replacement} :
    ExpandsAll registry budget cx trees rs outs cx' → Made registry cx cx' rs
  | .nil => .nil (.refl _)
  | .cons htree htrees => htree.made.append htrees.made

end

/-! ## Traced runs -/

namespace Session

/-- Recording the replacements changes nothing else, also in a run that fails. -/
theorem expand_of_expandTraced {session : Session} {allocated allocated' : Nat} {tree : Tree}
    {result : Except Report (Expanded Tree × List Replacement)}
    (h : session.expandTraced allocated tree = some (result, allocated')) :
    session.expand allocated tree = some (result.map Prod.fst, allocated') := by
  obtain ⟨⟨outcome, s⟩, hrun, hgiven⟩ := Option.bind_eq_some_iff.1 h
  obtain ⟨rfl, rfl⟩ := Prod.mk.inj (Option.some.inj hgiven)
  obtain ⟨rs, cx, rfl, hsame⟩ := Expander.exists_after_of_expand hrun
  rw [expand_of_run (hsame (session.start allocated) rfl)]
  cases outcome with
  | error report => rfl
  | ok out => rfl

/-- The trace of an expansion replays it, the handlers account for it, and without the trace the
expansion is the same.  This is so for any handlers, whatever they decide by and whichever objects
they give back. -/
theorem expandTraced_replays (session : Session) (allocated : Nat) (tree : Tree)
    (out : Expanded Tree) (rs : List Replacement) (allocated' : Nat)
    (h : session.expandTraced allocated tree = some (.ok (out, rs), allocated')) :
    Replays tree rs out.value ∧
    (∃ cx, cx.allocated = allocated' ∧ ∀ r ∈ rs,
      session.registry.Accounts (.initial session.settings.mainModule allocated) cx r) ∧
    session.expand allocated tree = some (.ok out, allocated') := by
  have hplain := expand_of_expandTraced h
  obtain ⟨⟨result, s⟩, hrun, hgiven⟩ := Option.bind_eq_some_iff.1 h
  obtain ⟨hresult, hallocated⟩ := Prod.mk.inj (Option.some.inj hgiven)
  obtain ⟨_, rfl, hpair⟩ := map_eq_ok_iff.1 hresult
  obtain ⟨rfl, hrs⟩ := Prod.mk.inj hpair
  obtain ⟨rs', cx, hexpands, rfl⟩ := Expander.expand_eq_ok_iff.1 hrun
  rw [ExpanderState.replacements_after] at hrs
  subst hrs
  exact ⟨hexpands.replays, ⟨cx, hallocated, hexpands.made.accounts⟩, hplain⟩

/-- A session with a macro `t` that stands for `true`, and one for pairs of `true`. -/
def conjunction : Session :=
  let yes : Script := .constant (.leaf (.atom "true") none)
  ((initial ⟨"Main", 2, false⟩).register "t" (yes.handler "t")).register "pair"
    ((Script.ifAll "true" yes .decline).handler "and")

theorem expandTraced_replays_conjunction :
    let t : Tree := .node "t" [] none
    let yes : Tree := .leaf (.atom "true") none
    let tree : Tree := .node "pair" [t, t] (some ⟨0, 9⟩)
    let rs : List Replacement := [⟨"t", "t", 2, t, yes⟩, ⟨"t", "t", 3, t, yes⟩,
      ⟨"and", "pair", 4, .node "pair" [yes, yes] (some ⟨0, 9⟩), yes⟩]
    (conjunction.expandTraced 0 tree = some (.ok (⟨yes, true⟩, rs), 4) ∧ Replays tree rs yes ∧
      conjunction.expand 0 tree = some (.ok ⟨yes, true⟩, 4)) ∧
    let session : Session := ⟨⟨"Main", 2, false⟩, Expander.alternator true⟩
    let rs : List Replacement := [⟨"alternate", "d", 1, Expander.inner, Expander.inner⟩]
    session.expandTraced 0 Expander.outer = some (.ok (⟨Expander.outer, false⟩, rs), 2) ∧
      Replays Expander.outer rs Expander.outer ∧
      session.expand 0 Expander.outer = some (.ok ⟨Expander.outer, false⟩, 2) := by
  intro t yes tree rs
  have hrun : conjunction.expandTraced 0 tree = some (.ok (⟨yes, true⟩, rs), 4) := by cbv
  obtain ⟨hreplays, -, hplain⟩ := expandTraced_replays _ _ _ _ _ _ hrun
  refine ⟨⟨hrun, hreplays, hplain⟩, ?_⟩
  intro session rs
  have hrun : session.expandTraced 0 Expander.outer =
      some (.ok (⟨Expander.outer, false⟩, rs), 2) := by cbv
  obtain ⟨hreplays, -, hplain⟩ := expandTraced_replays _ _ _ _ _ _ hrun
  exact ⟨hrun, hreplays, hplain⟩

end Session

end MacroExpansion
