import MacroExpansion.Proofs.Expansion.Failure

/-!
# What holds along a run

A property that the parts of a tree inherit is kept along a run if the replacements keep it.  Then
the result has it (`Expands.keeps`), and a run that fails does so where trees have it: a handler
failed on such a tree, or a chain that began with one was stopped (`Fails.arises`).
-/

namespace MacroExpansion

/-- A property that the parts of a tree inherit, and that a node keeps when it gets other children
that have it. -/
structure Tree.Hereditary (T : Tree → Prop) : Prop where
  child : ∀ {kind children span}, T (.node kind children span) → ∀ child ∈ children, T child
  rebuild : ∀ {kind children children' span}, T (.node kind children span) →
    (∀ child ∈ children', T child) → T (.node kind children' span)

/-- A replacement by the handlers of a registry keeps a property if its output has it whenever its
input does. -/
def Replacement.Keeps (registry : Registry) (T : Tree → Prop) (r : Replacement) : Prop :=
  ∀ cx cx', Replaced r.input (registry.lookup r.input.kind) cx r cx' → T r.input → T r.output

/-- A failure arises where trees have a property: a handler failed on such a tree, or a chain began
with one. -/
def Failure.Arises (registry : Registry) (T : Tree → Prop) : Failure → Prop
  | raised report => ∃ tree, T tree ∧ ∃ handler ∈ registry.lookup tree.kind, ∃ cx cx',
      (handler.call tree).run cx = (.error report, cx')
  | exceeded origin _ => ∃ tree, T tree ∧ tree.span = origin

variable {registry : Registry} {T : Tree → Prop}

theorem Replacement.Keeps.output {r : Replacement} (h : r.Keeps registry T) {tree : Tree}
    {cx cx' : Context} (hreplaced : Replaced tree (registry.lookup tree.kind) cx r cx')
    (htree : T tree) : T r.output := by
  obtain rfl := hreplaced.input_eq
  exact h cx cx' hreplaced htree

mutual

theorem Expands.keeps (hT : Tree.Hereditary T) {budget : Nat} {cx cx' : Context} {tree : Tree}
    {out : Expanded Tree} {rs : List Replacement} :
    Expands registry budget cx tree rs out cx' → (∀ r ∈ rs, r.Keeps registry T) →
      T tree → T out.value
  | .replace hreplaced hout, hrs, htree => by
    obtain ⟨hr, hrs⟩ := List.forall_mem_cons.1 hrs
    exact hout.keeps hT hrs (hr.output hreplaced htree)
  | .leaf _, _, htree => htree
  | .settle _ _, _, htree => htree
  | .revisit _ hchildren hout, hrs, htree => by
    obtain ⟨hinside, hlater⟩ := List.forall_mem_append.1 hrs
    exact hout.keeps hT hlater (hT.rebuild htree (hchildren.keeps hT hinside (hT.child htree)))

theorem ExpandsAll.keeps (hT : Tree.Hereditary T) {budget : Nat} {cx cx' : Context}
    {trees : List Tree} {outs : Expanded (List Tree)} {rs : List Replacement} :
    ExpandsAll registry budget cx trees rs outs cx' → (∀ r ∈ rs, r.Keeps registry T) →
      (∀ tree ∈ trees, T tree) → ∀ out ∈ outs.value, T out
  | .nil, _, htrees => htrees
  | .cons htree htrees, hrs, hall => by
    obtain ⟨hfirst, hlater⟩ := List.forall_mem_append.1 hrs
    obtain ⟨htreeT, htreesT⟩ := List.forall_mem_cons.1 hall
    exact List.forall_mem_cons.2 ⟨htree.keeps hT hfirst htreeT, htrees.keeps hT hlater htreesT⟩

end

mutual

theorem Fails.arises (hT : Tree.Hereditary T) {budget : Nat} {origin : Option Span}
    {cx cx' : Context} {tree : Tree} {rs : List Replacement} {failure : Failure} :
    Fails registry budget origin cx tree rs failure cx' → (∀ r ∈ rs, r.Keeps registry T) →
      T tree → (∃ first, T first ∧ first.span = origin) → failure.Arises registry T
  | .raised hfailed, _, htree, _ => by
    obtain ⟨handler, hmem, cx₁, cx₂, hcall⟩ := hfailed.exists_call
    exact ⟨tree, htree, handler, hmem, cx₁, cx₂, hcall⟩
  | .exceeded _, _, _, horigin => horigin
  | .replace hreplaced hout, hrs, htree, horigin => by
    obtain ⟨hr, hrs⟩ := List.forall_mem_cons.1 hrs
    exact hout.arises hT hrs (hr.output hreplaced htree) horigin
  | .inside _ hchildren, hrs, htree, _ => hchildren.arises hT hrs (hT.child htree)
  | .revisit _ hchildren hout, hrs, htree, horigin => by
    obtain ⟨hinside, hlater⟩ := List.forall_mem_append.1 hrs
    have hagain := hT.rebuild htree (hchildren.keeps hT hinside (hT.child htree))
    exact hout.arises hT hlater hagain horigin

theorem FailsAll.arises (hT : Tree.Hereditary T) {budget : Nat} {cx cx' : Context}
    {trees : List Tree} {rs : List Replacement} {failure : Failure} :
    FailsAll registry budget cx trees rs failure cx' → (∀ r ∈ rs, r.Keeps registry T) →
      (∀ tree ∈ trees, T tree) → failure.Arises registry T
  | .head htree, hrs, hall => by
    have hfirst := hall _ List.mem_cons_self
    exact htree.arises hT hrs hfirst ⟨_, hfirst, rfl⟩
  | .tail _ htrees, hrs, hall =>
    htrees.arises hT (List.forall_mem_append.1 hrs).2 (List.forall_mem_cons.1 hall).2

end

/-- Without a property in view: a failure that is not the limit was raised by a handler. -/
theorem Fails.exists_call {budget : Nat} {origin : Option Span} {cx cx' : Context}
    {tree : Tree} {rs : List Replacement} {report : Report}
    (h : Fails registry budget origin cx tree rs (.raised report) cx') :
    ∃ tree, ∃ handler ∈ registry.lookup tree.kind, ∃ cx cx',
      (handler.call tree).run cx = (.error report, cx') := by
  have hany : Tree.Hereditary fun _ => True := ⟨fun _ _ _ => trivial, fun _ _ => trivial⟩
  obtain ⟨tree, -, hcall⟩ := h.arises hany (fun _ _ _ _ _ _ => trivial) trivial
    ⟨.leaf (.atom "") origin, trivial, rfl⟩
  exact ⟨tree, hcall⟩

end MacroExpansion
