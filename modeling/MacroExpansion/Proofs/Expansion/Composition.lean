import MacroExpansion.Proofs.Expansion.Reach
import MacroExpansion.Proofs.Expansion.Termination

/-!
# Nodes without handlers

A node whose kind has no handler is expanded child by child: the result is the node with the
expansions of its children, each of which starts where the one before left off, and the first child
that fails makes the node fail (`expand_node_of_lookup_nil`).  The expander does more than that.  It
visits the node again when a child changed, and offers all children once more.  With handlers that
decide by the tree the children are settled by then, so that the second visit costs scopes and
changes nothing.
-/

namespace MacroExpansion.Expander

/-- Expands trees one after the other, each of them on its own, up to the first failure. -/
def expandInOrder (e : Expander) :
    List Tree → ExpanderState → Option (Except Report (List Tree) × ExpanderState)
  | [], s => some (.ok [], s)
  | tree :: rest, s => do
    match ← e.expand tree s with
    | (.error report, s) => return (.error report, s)
    | (.ok out, s) =>
      match ← e.expandInOrder rest s with
      | (.error report, s) => return (.error report, s)
      | (.ok outs, s) => return (.ok (out.value :: outs), s)

variable {e : Expander}

/-- The children of a node are expanded as trees on their own are. -/
theorem expandInOrder_eq (trees : List Tree) (s : ExpanderState) :
    e.expandInOrder trees s =
      (e.expandList e.limit trees s).map fun run => (run.1.map (·.value), run.2) := by
  induction trees generalizing s with
  | nil =>
    rw [expandList_nil]
    rfl
  | cons tree rest ih =>
    rw [expandInOrder, expandList_cons, expand]
    generalize e.expandTree e.limit tree.span false tree s = run
    obtain _ | ⟨report | out, s₁⟩ := run
    · rfl
    · rfl
    · simp only [Option.bind_eq_bind, Option.bind_some, ih]
      generalize e.expandList e.limit rest s₁ = run'
      obtain _ | ⟨report | ⟨outs, moved⟩, s₂⟩ := run'
      · rfl
      · rfl
      · rfl

theorem exists_expandList_of_expandInOrder {trees outs : List Tree} {s s' : ExpanderState}
    (h : e.expandInOrder trees s = some (.ok outs, s')) :
    ∃ changed, e.expandList e.limit trees s = some (.ok ⟨outs, changed⟩, s') := by
  rw [expandInOrder_eq] at h
  obtain ⟨⟨report | ⟨outs', changed⟩, s₁⟩, hrun, heq⟩ := Option.map_eq_some_iff.1 h
  · cases heq
  · cases heq
    exact ⟨changed, hrun⟩

theorem expandList_of_expandInOrder {trees : List Tree} {s s' : ExpanderState} {report : Report}
    (h : e.expandInOrder trees s = some (.error report, s')) :
    e.expandList e.limit trees s = some (.error report, s') := by
  rw [expandInOrder_eq] at h
  obtain ⟨⟨report' | ⟨outs', changed⟩, s₁⟩, hrun, heq⟩ := Option.map_eq_some_iff.1 h
  · cases heq
    exact hrun
  · cases heq

/-- The trees after the first one that fails have no part in the result. -/
theorem expandInOrder_append_cons {before : List Tree} {tree : Tree} {outs : List Tree}
    {s s₁ s₂ : ExpanderState} {report : Report}
    (hbefore : e.expandInOrder before s = some (.ok outs, s₁))
    (htree : e.expand tree s₁ = some (.error report, s₂)) (after : List Tree) :
    e.expandInOrder (before ++ tree :: after) s = some (.error report, s₂) := by
  induction before generalizing s outs with
  | nil =>
    cases hbefore
    rw [List.nil_append, expandInOrder, htree]
    rfl
  | cons first before ih =>
    rw [expandInOrder] at hbefore
    obtain ⟨⟨report' | out, s'⟩, hfirst, hbefore⟩ := Option.bind_eq_some_iff.1 hbefore
    · cases hbefore
    · obtain ⟨⟨report' | outs', s''⟩, hrest, hbefore⟩ := Option.bind_eq_some_iff.1 hbefore
      · cases hbefore
      · cases hbefore
        rw [List.cons_append, expandInOrder, hfirst]
        simp only [Option.bind_eq_bind, Option.bind_some, ih hrest]
        rfl

section

variable {kind : String} {children : List Tree} {span : Option Span} {s s' : ExpanderState}
  {budget : Nat}

/-- A kind without handlers leaves a node to its children. -/
theorem offer_node_of_lookup_nil (hkind : e.registry.lookup kind = []) :
    e.registry.offer (.node kind children span) s = (.ok .declined, s) := by
  rw [Registry.offer, Tree.kind, hkind, offerTo]

theorem expandTree_of_failing_child (hkind : e.registry.lookup kind = []) {report : Report}
    (h : e.expandList budget children s = some (.error report, s')) (origin : Option Span)
    (changed : Bool) :
    e.expandTree budget origin changed (.node kind children span) s =
      some (.error report, s') := by
  rw [expandTree_node (offer_node_of_lookup_nil hkind), h]
  rfl

/-- When all children succeed, so does the node, and a second visit finds it settled. -/
theorem exists_expandTree_of_children (hdecides : e.registry.DecidesByTree)
    (hkind : e.registry.lookup kind = []) {outs : List Tree} {inside : Bool}
    (h : e.expandList budget children s = some (.ok ⟨outs, inside⟩, s'))
    (origin : Option Span) (changed : Bool) :
    ∃ cx, s'.context.Reaches cx ∧ (inside = false → cx = s'.context) ∧
      e.expandTree budget origin changed (.node kind children span) s =
        some (.ok ⟨.node kind outs span, changed || inside⟩, { s' with context := cx }) := by
  obtain ⟨rs, cx₁, hexpands, rfl⟩ := expandList_eq_ok_iff.1 h
  rw [expandTree_node (offer_node_of_lookup_nil hkind), h]
  cases inside with
  | false =>
    obtain rfl : outs = children := hexpands.eq_of_unchanged rfl
    exact ⟨cx₁, .refl _, fun _ => rfl, by rw [Bool.or_false]; rfl⟩
  | true =>
    have hstuck : e.registry.Stuck (.node kind outs span) := by
      intro handler hmem
      rw [Tree.kind, hkind] at hmem
      exact absurd hmem List.not_mem_nil
    have hsettled := Registry.settled_node hstuck (hexpands.settled hdecides)
    obtain ⟨cx, hagain⟩ := expandTree_of_settled hsettled budget origin true (s.after rs cx₁)
    obtain ⟨calls, hruns⟩ := expandTree_eq_some_iff.1 hagain
    exact ⟨cx, hruns.reaches, nofun, hagain.trans (by rw [Bool.or_true])⟩

end

theorem exists_expandInOrder (hdecides : e.registry.DecidesByTree) (trees : List Tree)
    (s : ExpanderState) : ∃ run, e.expandInOrder trees s = some run := by
  obtain ⟨calls, run, hruns⟩ :=
    exists_runsAll hdecides (e.limit + 1) trees s (.inl (Nat.lt_succ_self e.limit))
  rw [expandInOrder_eq, hruns.expandList_eq]
  exact ⟨_, rfl⟩

/-- With handlers that decide by the tree, expanding a node without handlers is expanding its
children from left to right, up to the first one that fails. -/
theorem expand_node_of_lookup_nil (e : Expander) (hdecides : e.registry.DecidesByTree)
    {kind : String} (hkind : e.registry.lookup kind = []) (span : Option Span)
    (s : ExpanderState) :
    (∀ children, ∃ run, e.expandInOrder children s = some run) ∧
    (∀ children outs s', e.expandInOrder children s = some (.ok outs, s') →
      ∃ changed cx, s'.context.Reaches cx ∧ (changed = false → cx = s'.context) ∧
        e.expand (.node kind children span) s =
          some (.ok ⟨.node kind outs span, changed⟩, { s' with context := cx })) ∧
    ∀ before child after outs s₁ report s₂, e.expandInOrder before s = some (.ok outs, s₁) →
      e.expand child s₁ = some (.error report, s₂) →
      e.expand (.node kind (before ++ child :: after) span) s = some (.error report, s₂) := by
  refine ⟨fun children => exists_expandInOrder hdecides children s, ?_, ?_⟩
  · intro children outs s' h
    obtain ⟨changed, hlist⟩ := exists_expandList_of_expandInOrder h
    obtain ⟨cx, hreaches, hcx, hexpand⟩ :=
      exists_expandTree_of_children hdecides hkind hlist span false
    exact ⟨changed, cx, hreaches, hcx, hexpand⟩
  · intro before child after outs s₁ report s₂ hbefore hchild
    have hlist := expandList_of_expandInOrder (expandInOrder_append_cons hbefore hchild after)
    exact expandTree_of_failing_child hkind hlist span false

/-- An expander with two macros: nodes `a` become nodes `b`, and nodes `stop` fail. -/
def stopper : Expander where
  registry := (Registry.empty.register "a" ((Script.retag "b").handler "retag")).register "stop"
    ((Script.fail "no").handler "stop")
  limit := 1

theorem expand_node_of_lookup_nil_stopper :
    let a : Tree := .node "a" [] none
    let b : Tree := .node "b" [] none
    let plain : Tree := .leaf (.atom "1") none
    let stop : Tree := .node "stop" [a] (some ⟨3, 7⟩)
    (∃ changed cx, stopper.expand (.node "list" [plain, a, a] (some ⟨0, 9⟩))
        (.initial "Main" 0 false) =
          some (.ok ⟨.node "list" [plain, b, b] (some ⟨0, 9⟩), changed⟩, cx)) ∧
      stopper.expand (.node "list" [a, stop, a, stop] none) (.initial "Main" 0 false) =
        some (.error (.at? (some ⟨3, 7⟩) (.expansion (.stated "no"))),
          .initial "Main" 2 false) := by
  intro a b plain stop
  have hdecides : stopper.registry.DecidesByTree :=
    Registry.forall_mem_lookup_register
      (Registry.forall_mem_lookup_register Registry.forall_mem_lookup_empty
        (Script.decidesByTree _ _)) (Script.decidesByTree _ _)
  have hkind : stopper.registry.lookup "list" = [] := by cbv
  have hall : stopper.expandInOrder [plain, a, a] (.initial "Main" 0 false) =
      some (.ok [plain, b, b], .initial "Main" 2 false) := by cbv
  have hfirst : stopper.expandInOrder [a] (.initial "Main" 0 false) =
      some (.ok [b], .initial "Main" 1 false) := by cbv
  have hstop : stopper.expand stop (.initial "Main" 1 false) =
      some (.error (.at? (some ⟨3, 7⟩) (.expansion (.stated "no"))), .initial "Main" 2 false) := by
    cbv
  constructor
  · obtain ⟨changed, cx, -, -, h⟩ :=
      (expand_node_of_lookup_nil stopper hdecides hkind (some ⟨0, 9⟩) _).2.1 _ _ _ hall
    exact ⟨changed, _, h⟩
  · exact (expand_node_of_lookup_nil stopper hdecides hkind none _).2.2 _ _ [a, stop] _ _ _ _
      hfirst hstop

end MacroExpansion.Expander
