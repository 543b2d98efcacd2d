import MacroExpansion.Proofs.Expansion.FixedPoint
import MacroExpansion.Proofs.Expansion.Reach
import MacroExpansion.Proofs.Registry.History
import MacroExpansion.Proofs.Rule.Alike
import MacroExpansion.Proofs.Template.Positions

/-!
# What a step does

A call of a rule set takes one scope, and gives what the set makes of the tree as it is: the set
leaves the context alone, and its reports are about the tree already.  So the handlers that a step
comes through can be numbered by the scopes that they run in, and the step does what the first of
them does that does not decline (`step_first_answer`).
-/

namespace MacroExpansion

/-! ## Calls that take one scope -/

/-- The context after some scopes have been taken. -/
def Context.skip (cx : Context) (count : Nat) : Context :=
  { cx with allocated := cx.allocated + count }

theorem Context.skip_succ (cx : Context) (count : Nat) :
    cx.skip (count + 1) = (cx.skip 1).skip count := by
  rw [skip, skip, skip, Nat.add_assoc, Nat.add_comm 1 count]

/-- A call takes one scope, and gives what the handler makes of the tree there. -/
def Handler.Plain (h : Handler) : Prop :=
  ∀ tree cx, (h.call tree).run cx = (((h.attempt tree).run (cx.inCall tree)).1, cx.skip 1)

theorem Context.orAt_of_fill {cx : Context} {template : Tree} {bindings : Bindings}
    {report : Report} (h : cx.fill template bindings = .error report) :
    report.orAt cx.span? = report := by
  rw [fill] at h
  split at h
  case h_1 =>
    cases h
    exact Report.orAt_at?_or none _ _
  case h_2 => exact Filling.orAt_of_fill h

namespace RuleSet

/-- A report of a rule set is about the tree being worked on, unless it has another place. -/
theorem orAt_of_apply {rules : List Rule} {tree : Tree} {cx : Context} {report : Report}
    (h : apply rules tree cx = .error report) : report.orAt cx.span? = report := by
  rw [apply] at h
  split at h
  case h_1 => cases h
  case h_2 =>
    cases h
    exact Report.orAt_at?_or none _ _
  case h_3 template bindings _ =>
    generalize hfill : cx.fill template bindings = filled at h
    cases filled with
    | ok output => cases h
    | error e =>
      cases h
      exact Context.orAt_of_fill hfill

theorem plain_handler (set : RuleSet) : set.handler.Plain := by
  intro tree cx
  have hattempt : ((set.handler.attempt tree).run (cx.inCall tree)).1 =
    apply set.rules tree (cx.inCall tree) := rfl
  rw [run_call, hattempt]
  generalize happly : apply set.rules tree (cx.inCall tree) = result
  cases result with
  | ok outcome => rfl
  | error report =>
    rw [Except.mapError, orAt_of_apply happly]
    rfl

end RuleSet

/-! ## Offers -/

variable {tree : Tree} {handlers : List Handler}

/-- Handlers that decline are passed over, and take one scope each. -/
theorem offerTo_append_of_declines {before : List Handler} (cx : Context)
    (trace : Option (List Replacement)) (hplain : ∀ h ∈ before, h.Plain)
    (hdeclines : ∀ index (h : Handler), before[index]? = some h →
      h.Declines tree ((cx.skip index).inCall tree)) (after : List Handler) :
    offerTo tree (before ++ after) ⟨cx, trace⟩ =
      offerTo tree after ⟨cx.skip before.length, trace⟩ := by
  induction before generalizing cx with
  | nil => rfl
  | cons handler before ih =>
    obtain ⟨hhandler, hbefore⟩ := List.forall_mem_cons.1 hplain
    have hcall : (handler.call tree).run cx = (.ok .declined, cx.skip 1) :=
      (hhandler tree cx).trans (congrArg (·, _) (hdeclines 0 handler rfl))
    rw [List.cons_append, offerTo_cons_of_declined hcall, List.length_cons,
      cx.skip_succ before.length]
    refine ih (cx.skip 1) hbefore fun index h hmem => ?_
    rw [← Context.skip_succ]
    exact hdeclines (index + 1) h hmem

/-- The first handler that does not decline is called after those before it. -/
theorem exists_offerTo_cons_of_declines {index : Nat} {handler : Handler} (cx : Context)
    (trace : Option (List Replacement)) (hplain : ∀ h ∈ handlers, h.Plain)
    (hhandler : handlers[index]? = some handler)
    (hdeclines : ∀ earlier < index, ∀ h : Handler, handlers[earlier]? = some h →
      h.Declines tree ((cx.skip earlier).inCall tree)) :
    ∃ after, offerTo tree handlers ⟨cx, trace⟩ =
      offerTo tree (handler :: after) ⟨cx.skip index, trace⟩ := by
  obtain ⟨hindex, rfl⟩ := List.getElem?_eq_some_iff.1 hhandler
  have hsplit : handlers.take index ++ handlers[index] :: handlers.drop (index + 1) = handlers := by
    rw [← List.drop_eq_getElem_cons hindex, List.take_append_drop]
  have hlength : (handlers.take index).length = index := List.length_take_of_le hindex.le
  have hbefore (earlier : Nat) (h : Handler) (hearlier : (handlers.take index)[earlier]? = some h) :
      h.Declines tree ((cx.skip earlier).inCall tree) := by
    rw [List.getElem?_take] at hearlier
    split at hearlier
    case isTrue hlt => exact hdeclines earlier hlt h hearlier
    case isFalse => cases hearlier
  have hoffer := offerTo_append_of_declines cx trace
    (fun h hmem => hplain h (List.mem_of_mem_take hmem)) hbefore
    (handlers[index] :: handlers.drop (index + 1))
  rw [hsplit, hlength] at hoffer
  exact ⟨_, hoffer⟩

namespace Registry

section

variable {registry : Registry} {index : Nat} {handler : Handler} (cx : Context)
  (trace : Option (List Replacement)) (hplain : ∀ h ∈ registry.lookup tree.kind, h.Plain)
  (hhandler : (registry.lookup tree.kind)[index]? = some handler)
  (hdeclines : ∀ earlier < index, ∀ h : Handler, (registry.lookup tree.kind)[earlier]? = some h →
    h.Declines tree ((cx.skip earlier).inCall tree))

include hplain hhandler hdeclines

/-- The handler at an index replaces the tree, and those before it decline. -/
theorem tryTree_of_replaced {output : Tree}
    (hanswer : ((handler.attempt tree).run ((cx.skip index).inCall tree)).1 =
      .ok (.replaced output)) :
    registry.tryTree tree ⟨cx, trace⟩ = (.replaced output, ⟨cx.skip (index + 1), trace.map
      (⟨handler.name, tree.kind, Scope.next (cx.allocated + index), tree, output⟩ :: ·)⟩) := by
  obtain ⟨after, hoffer⟩ := exists_offerTo_cons_of_declines cx trace hplain hhandler hdeclines
  have hcall := (hplain handler (List.mem_of_getElem? hhandler) tree (cx.skip index)).trans
    (congrArg (·, _) hanswer)
  rw [tryTree, offer, hoffer, offerTo, hcall]
  rfl

/-- The handler at an index fails, and those before it decline. -/
theorem tryTree_of_failed {report : Report}
    (hanswer : ((handler.attempt tree).run ((cx.skip index).inCall tree)).1 = .error report) :
    registry.tryTree tree ⟨cx, trace⟩ = (.failed report, ⟨cx.skip (index + 1), trace⟩) := by
  obtain ⟨after, hoffer⟩ := exists_offerTo_cons_of_declines cx trace hplain hhandler hdeclines
  have hcall := (hplain handler (List.mem_of_getElem? hhandler) tree (cx.skip index)).trans
    (congrArg (·, _) hanswer)
  rw [tryTree, offer, hoffer, offerTo, hcall]
  rfl

end

/-- All handlers decline the tree. -/
theorem tryTree_of_declines {registry : Registry} (cx : Context)
    (trace : Option (List Replacement)) (hplain : ∀ h ∈ registry.lookup tree.kind, h.Plain)
    (hdeclines : ∀ index (h : Handler), (registry.lookup tree.kind)[index]? = some h →
      h.Declines tree ((cx.skip index).inCall tree)) :
    registry.tryTree tree ⟨cx, trace⟩ =
      (.stuck tree, ⟨cx.skip (registry.lookup tree.kind).length, trace⟩) := by
  have hoffer := offerTo_append_of_declines cx trace hplain hdeclines []
  rw [List.append_nil] at hoffer
  rw [tryTree, offer, hoffer]
  rfl

/-- In a registry of rule sets, a step is what the first handler makes of the tree that does not
decline it, the handler that was registered last coming first.  Each handler up to that one takes a
scope, in which it runs alone, and only a replacement is recorded. -/
theorem step_first_answer (registrations : List Registration)
    (hsets : ∀ x ∈ registrations, ∃ set : RuleSet, x.handler = set.handler) (tree : Tree)
    (progress : Progress) (hprogress : progress = .pending tree ∨ progress = .replaced tree)
    (mainModule : String) (allocated : Nat) (trace : Option (List Replacement))
    (hlt : allocated + (Registration.handlersFor tree.kind registrations).length < UInt64.size) :
    let registry := empty.performAll registrations
    let handlers := Registration.handlersFor tree.kind registrations
    let scope (index : Nat) : Scope := Scope.next (allocated + index)
    let seen (index : Nat) : Context :=
      ⟨mainModule, [scope index], [tree], allocated + index + 1⟩
    let result := registry.step progress ⟨.initial mainModule allocated, trace⟩
    (∀ index (handler : Handler), handlers[index]? = some handler →
      (∀ earlier < index, ∀ h : Handler, handlers[earlier]? = some h →
        h.Declines tree (seen earlier)) →
      (scope index).toNat = allocated + index + 1 ∧
      (∀ output, ((handler.attempt tree).run (seen index)).1 = .ok (.replaced output) →
        result = (.replaced output, ⟨.initial mainModule (allocated + index + 1),
          trace.map (⟨handler.name, tree.kind, scope index, tree, output⟩ :: ·)⟩)) ∧
      ∀ report, ((handler.attempt tree).run (seen index)).1 = .error report →
        result = (.failed report, ⟨.initial mainModule (allocated + index + 1), trace⟩)) ∧
    ((∀ index (handler : Handler), handlers[index]? = some handler →
        handler.Declines tree (seen index)) →
      result = (.stuck tree, ⟨.initial mainModule (allocated + handlers.length), trace⟩)) := by
  intro registry handlers scope seen result
  have hplain : ∀ h ∈ handlers, h.Plain := by
    intro h hmem
    obtain ⟨x, hx, rfl⟩ := Registration.exists_of_mem_handlersFor hmem
    obtain ⟨set, hset⟩ := hsets x hx
    rw [hset]
    exact set.plain_handler
  have hlookup : registry.lookup tree.kind = handlers := lookup_performAll_empty _ _
  have hresult : result = registry.tryTree tree ⟨.initial mainModule allocated, trace⟩ := by
    rcases hprogress with rfl | rfl <;> rfl
  rw [hresult]
  rw [← hlookup] at hplain ⊢
  let cx : Context := .initial mainModule allocated
  refine ⟨fun index handler hhandler hdeclines => ⟨?_, fun output hanswer => ?_,
    fun report hanswer => ?_⟩, fun hdeclines => ?_⟩
  · have hindex : index < handlers.length := by
      rw [← hlookup]
      exact (List.getElem?_eq_some_iff.1 hhandler).1
    exact Scope.toNat_next (Nat.lt_of_le_of_lt (Nat.add_le_add_left hindex allocated) hlt)
  · exact tryTree_of_replaced cx trace hplain hhandler hdeclines hanswer
  · exact tryTree_of_failed cx trace hplain hhandler hdeclines hanswer
  · exact tryTree_of_declines cx trace hplain hdeclines

/-- A macro that renames nodes with one child, and names the child. -/
def labelOne : RuleSet where
  name := "label"
  kind := "item"
  rules :=
    let a : Tree := .leaf (.antiquot ⟨"a", .any⟩) none
    [⟨.node "item" [a] none, .template (.node "entry" [.leaf (.ident "t") none, a] none)⟩]
  nonempty := List.cons_ne_nil _ _
  checked := by rfl

/-- A macro that accepts no node with the token `stop`. -/
def refuseStop : RuleSet where
  name := "refuse"
  kind := "item"
  rules := [⟨.node "item" [.leaf (.atom "stop") none] none, .error "stopped"⟩]
  nonempty := List.cons_ne_nil _ _
  checked := by rfl

/-- Two macros for nodes `item`; the last registration is refused, since its name is taken. -/
def itemMacros : List Registration :=
  [⟨"item", labelOne.handler, false⟩, ⟨"list", labelOne.handler, true⟩,
    ⟨"item", refuseStop.handler, true⟩, ⟨"item", labelOne.handler, true⟩]

theorem step_first_answer_itemMacros :
    let registry := empty.performAll itemMacros
    let start : ExpanderState := .initial "Main" 4 true
    let stop : Tree := .node "item" [.leaf (.atom "stop") none] (some ⟨3, 7⟩)
    let item : Tree := .node "item" [.leaf (.atom "go") none] none
    let entry : Tree :=
      .node "entry" [.leaf (.ident "t._@.Main._hyg.6") none, .leaf (.atom "go") none] none
    let nothing : Tree := .node "item" [] none
    registry.step (.pending stop) start =
        (.failed (.at? (some ⟨3, 7⟩) (.expansion (.stated "stopped"))), .initial "Main" 5 true) ∧
      registry.step (.replaced item) start =
        (.replaced entry, ⟨.initial "Main" 6, some [⟨"label", "item", 6, item, entry⟩]⟩) ∧
      registry.step (.pending nothing) start = (.stuck nothing, .initial "Main" 6 true) := by
  intro registry start stop item entry nothing
  have hsets : ∀ x ∈ itemMacros, ∃ set : RuleSet, x.handler = set.handler := by
    simp [itemMacros]
  have hhandlers : Registration.handlersFor "item" itemMacros =
      [refuseStop.handler, labelOne.handler] := rfl
  have hlt : 4 + (Registration.handlersFor "item" itemMacros).length < UInt64.size := by
    rw [hhandlers]
    decide
  refine ⟨?_, ?_, ?_⟩
  · exact ((step_first_answer itemMacros hsets stop (.pending stop) (.inl rfl) "Main" 4 (some [])
      hlt).1 0 refuseStop.handler rfl nofun).2.2 _ rfl
  · have hdeclines : ∀ earlier < 1, ∀ h : Handler,
        (Registration.handlersFor "item" itemMacros)[earlier]? = some h →
        h.Declines item ⟨"Main", [Scope.next (4 + earlier)], [item], 4 + earlier + 1⟩ := by
      intro earlier hearlier h hmem
      obtain rfl := Nat.lt_one_iff.1 hearlier
      cases hmem
      rfl
    exact ((step_first_answer itemMacros hsets item (.replaced item) (.inr rfl) "Main" 4 (some [])
      hlt).1 1 labelOne.handler rfl hdeclines).2.1 entry (by cbv)
  · refine (step_first_answer itemMacros hsets nothing (.pending nothing) (.inl rfl) "Main" 4
      (some []) hlt).2 fun index handler hmem => ?_
    rcases List.mem_pair.1 (List.mem_of_getElem? hmem) with rfl | rfl
    · rfl
    · rfl

end Registry

end MacroExpansion
