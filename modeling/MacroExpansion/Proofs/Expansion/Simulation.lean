import MacroExpansion.Proofs.Expansion.FixedPoint
import MacroExpansion.Proofs.Expansion.Hygiene
import MacroExpansion.Proofs.Expansion.Reach
import MacroExpansion.Proofs.Expansion.Termination
import MacroExpansion.Proofs.Rule.Alike

/-!
# Two runs side by side

Two expanders run on trees that are alike, each from a state of its own.  A `Simulation` says what
the trees may differ in, given the scopes under which the runs have made their replacements so far,
and how the two counters of scopes go together.  The registries hold the same rule sets in the same
order, and the second one may have handlers besides that always decline.  Then the runs make the
same replacements with the same rule sets, and end alike (`exists_agrees_expand`).
-/

namespace MacroExpansion

/-! ## Simulations -/

/-- What two runs may differ in, and how their counters go together.  Identifiers and counters are
compared after some replacements, by the scopes under which the runs made them, the oldest first.
In each call both runs take a scope, and these scopes stamp names alike; if the call replaces a
tree, they are added to those of the replacements. -/
structure Simulation where
  /-- Which identifiers stand for each other. -/
  ident : List (Scope × Scope) → String → String → Prop
  /-- Which spans stand for each other. -/
  span : Option Span → Option Span → Prop
  /-- How many scopes the runs have handed out. -/
  Counts : List (Scope × Scope) → Nat → Nat → Prop
  /-- How many scopes the runs may hand out. -/
  Fits : Nat → Nat → Prop
  /-- The handlers that only the second run has. -/
  Extra : Handler → Prop
  mono : ∀ {scopes name name'} later, ident scopes name name' → ident (scopes ++ later) name name'
  lawful : ∀ {scopes a b}, Counts scopes a b → Likeness.Lawful ⟨ident scopes, span⟩
  decline : ∀ {scopes a b}, Counts scopes a b → Counts scopes (a + 1) (b + 1)
  replace : ∀ {scopes a b}, Counts scopes a b → Fits (a + 1) (b + 1) →
    Counts (scopes ++ [(Scope.next a, Scope.next b)]) (a + 1) (b + 1)
  stamp : ∀ {scopes a b}, Counts scopes a b → ∀ name mainModule,
    Agree Eq (ident (scopes ++ [(Scope.next a, Scope.next b)]))
      (ScopedName.stamp name mainModule (Scope.next a))
      (ScopedName.stamp name mainModule (Scope.next b))
  fits_of_le : ∀ {a a' b b'}, Fits a' b' → a ≤ a' → b ≤ b' → Fits a b
  extra_declines : ∀ {handler}, Extra handler → ∀ tree cx, handler.Declines tree cx
  wait : ∀ {handler scopes a b b'}, Extra handler → Counts scopes a b → b ≤ b' →
    Counts scopes a b'

/-- Two lists of handlers: the second one has those of the first in order, and extra ones between
them. -/
inductive Interleaved (Extra : Handler → Prop) : List Handler → List Handler → Prop
  | nil : Interleaved Extra [] []
  | both (handler : Handler) {handlers handlers' : List Handler} :
      Interleaved Extra handlers handlers' →
      Interleaved Extra (handler :: handlers) (handler :: handlers')
  | extra {handler : Handler} {handlers handlers' : List Handler} :
      Extra handler → Interleaved Extra handlers handlers' →
      Interleaved Extra handlers (handler :: handlers')

theorem Interleaved.refl (Extra : Handler → Prop) (handlers : List Handler) :
    Interleaved Extra handlers handlers := by
  induction handlers with
  | nil => exact .nil
  | cons handler handlers ih => exact .both handler ih

theorem Interleaved.mem {Extra : Handler → Prop} {handlers handlers' : List Handler}
    (h : Interleaved Extra handlers handlers') :
    ∀ handler ∈ handlers', handler ∈ handlers ∨ Extra handler := by
  induction h with
  | nil => exact fun _ hmem => absurd hmem List.not_mem_nil
  | both handler _ ih =>
    refine List.forall_mem_cons.2 ⟨.inl List.mem_cons_self, fun other hmem => ?_⟩
    exact (ih other hmem).imp_left (List.mem_cons_of_mem _)
  | extra hextra _ ih => exact List.forall_mem_cons.2 ⟨.inr hextra, ih⟩

/-- A replacement of each run, by the same handler and for the same kind. -/
structure ReplacementPair where
  first : Replacement
  second : Replacement
  handler_eq : first.handler = second.handler
  kind_eq : first.kind = second.kind

/-- The scopes of pairs of replacements. -/
def scopesOf (ps : List ReplacementPair) : List (Scope × Scope) :=
  ps.map fun p => (p.first.scope, p.second.scope)

theorem scopesOf_append (ps ps' : List ReplacementPair) :
    scopesOf (ps ++ ps') = scopesOf ps ++ scopesOf ps' :=
  List.map_append

/-- What is recorded of some replacements. -/
def traceOf (tracing : Bool) (rs : List Replacement) : Option (List Replacement) :=
  if tracing then some rs.reverse else none

theorem map_cons_traceOf (tracing : Bool) (rs : List Replacement) (r : Replacement) :
    (traceOf tracing rs).map (r :: ·) = traceOf tracing (rs ++ [r]) := by
  cases tracing with
  | false => rfl
  | true => simp [traceOf]

theorem replacements_of_traceOf {s : ExpanderState} {tracing : Bool} {rs : List Replacement}
    (h : s.trace = traceOf tracing rs) : s.replacements = if tracing then rs else [] := by
  rw [ExpanderState.replacements, h]
  cases tracing with
  | false => rfl
  | true => simp [traceOf]

/-- Results of expanding something that are related, with the same flag. -/
inductive Expanded.Alike {α : Type} (value : α → α → Prop) : Expanded α → Expanded α → Prop
  | mk {a a' : α} (changed : Bool) : value a a' → Alike value ⟨a, changed⟩ ⟨a', changed⟩

namespace Simulation

variable {sim : Simulation} {tracing : Bool} {ps : List ReplacementPair} {s s' : ExpanderState}

/-- What trees may differ in after replacements under some scopes. -/
def like (sim : Simulation) (scopes : List (Scope × Scope)) : Likeness :=
  ⟨sim.ident scopes, sim.span⟩

theorem alike_append {scopes : List (Scope × Scope)} {tree tree' : Tree}
    (h : tree.Alike (sim.like scopes) tree') (later : List (Scope × Scope)) :
    tree.Alike (sim.like (scopes ++ later)) tree' := by
  have hident (name name' : String) (hname : (sim.like scopes).ident name name') :
      (sim.like (scopes ++ later)).ident name name' := sim.mono later hname
  exact h.imp hident fun _ _ hspan => hspan

theorem alike_later {tree tree' : Tree} (h : tree.Alike (sim.like (scopesOf ps)) tree')
    (later : List ReplacementPair) : tree.Alike (sim.like (scopesOf (ps ++ later))) tree' := by
  rw [scopesOf_append]
  exact alike_append h _

/-! ## Steps -/

/-- Where the runs are after some pairs of replacements. -/
structure Holds (sim : Simulation) (tracing : Bool) (ps : List ReplacementPair)
    (s s' : ExpanderState) : Prop where
  mainModule : s.context.mainModule = s'.context.mainModule
  span : sim.span s.context.span? s'.context.span?
  counts : sim.Counts (scopesOf ps) s.context.allocated s'.context.allocated
  trace : s.trace = traceOf tracing (ps.map (·.first))
  trace' : s'.trace = traceOf tracing (ps.map (·.second))

/-- How two computations end: after some more pairs of replacements, with values that are alike or
with reports that are. -/
inductive Agrees {α : Type} (sim : Simulation) (tracing : Bool) (value : Likeness → α → α → Prop)
    (ps : List ReplacementPair) :
    Except Report α × ExpanderState → Except Report α × ExpanderState → Prop
  | after (later : List ReplacementPair) {r r' : Except Report α} {s s' : ExpanderState} :
      sim.Holds tracing (ps ++ later) s s' →
      Agree (Report.Alike sim.span) (value (sim.like (scopesOf (ps ++ later)))) r r' →
      Agrees sim tracing value ps (r, s) (r', s')

theorem Agrees.now {α : Type} {value : Likeness → α → α → Prop} {r r' : Except Report α}
    (h : sim.Holds tracing ps s s')
    (hr : Agree (Report.Alike sim.span) (value (sim.like (scopesOf ps))) r r') :
    sim.Agrees tracing value ps (r, s) (r', s') :=
  .after [] (by rwa [List.append_nil]) (by rwa [List.append_nil])

theorem Agrees.of_append {α : Type} {value : Likeness → α → α → Prop}
    {later : List ReplacementPair} {x x' : Except Report α × ExpanderState}
    (h : sim.Agrees tracing value (ps ++ later) x x') : sim.Agrees tracing value ps x x' := by
  obtain ⟨last, hholds, hagree⟩ := h
  rw [List.append_assoc] at hholds hagree
  exact .after (later ++ last) hholds hagree

namespace Holds

theorem lawful (h : sim.Holds tracing ps s s') : (sim.like (scopesOf ps)).Lawful :=
  sim.lawful h.counts

/-- What is the same in each pair of replacements is recorded alike. -/
theorem map_replacements {β : Type} {f : Replacement → β} (h : sim.Holds tracing ps s s')
    (hf : ∀ p ∈ ps, f p.first = f p.second) :
    s.replacements.map f = s'.replacements.map f := by
  rw [replacements_of_traceOf h.trace, replacements_of_traceOf h.trace']
  cases tracing with
  | false => rfl
  | true =>
    rw [if_pos rfl, if_pos rfl, List.map_map, List.map_map]
    exact List.map_congr_left hf

theorem scopesOf_eq (h : sim.Holds true ps s s') :
    scopesOf ps = (s.replacements.map (·.scope)).zip (s'.replacements.map (·.scope)) := by
  rw [replacements_of_traceOf h.trace, replacements_of_traceOf h.trace', if_pos rfl, if_pos rfl,
    List.map_map, List.map_map, List.zip_map']
  rfl

theorem decline (h : sim.Holds tracing ps s s') :
    sim.Holds tracing ps
      { s with context := { s.context with allocated := s.context.allocated + 1 } }
      { s' with context := { s'.context with allocated := s'.context.allocated + 1 } } :=
  ⟨h.mainModule, h.span, sim.decline h.counts, h.trace, h.trace'⟩

/-- Both runs have replaced a tree, under the scopes that they took for it. -/
theorem replace (h : sim.Holds tracing ps s s')
    (hfits : sim.Fits (s.context.allocated + 1) (s'.context.allocated + 1)) {p : ReplacementPair}
    (hfirst : p.first.scope = Scope.next s.context.allocated)
    (hsecond : p.second.scope = Scope.next s'.context.allocated) :
    sim.Holds tracing (ps ++ [p])
      (ExpanderState.record
        { s with context := { s.context with allocated := s.context.allocated + 1 } } p.first)
      (ExpanderState.record
        { s' with context := { s'.context with allocated := s'.context.allocated + 1 } }
        p.second) := by
  refine ⟨h.mainModule, h.span, ?_, ?_, ?_⟩
  · have hscopes : scopesOf [p] =
        [(Scope.next s.context.allocated, Scope.next s'.context.allocated)] := by
      rw [scopesOf, List.map_singleton, hfirst, hsecond]
    rw [scopesOf_append, hscopes]
    exact sim.replace h.counts hfits
  · rw [List.map_append, List.map_singleton, ← map_cons_traceOf, ← h.trace]
    rfl
  · rw [List.map_append, List.map_singleton, ← map_cons_traceOf, ← h.trace']
    rfl

/-- The second run has called a handler of its own. -/
theorem wait (h : sim.Holds tracing ps s s') {handler : Handler} (hextra : sim.Extra handler)
    {cx : Context} (hcx : s'.context.Reaches cx) :
    sim.Holds tracing ps s { s' with context := cx } := by
  refine ⟨h.mainModule.trans hcx.mainModule.symm, ?_, sim.wait hextra h.counts hcx.allocated,
    h.trace, h.trace'⟩
  rw [Context.span?, Context.span?, hcx.refs]
  exact h.span

end Holds

/-- In a call, the scopes that the runs take for it stamp names alike. -/
theorem Holds.inCall (h : sim.Holds tracing ps s s') {tree tree' : Tree}
    (htree : tree.Alike (sim.like (scopesOf ps)) tree') :
    (s.context.inCall tree).Alike
      (sim.like (scopesOf ps ++ [(Scope.next s.context.allocated,
        Scope.next s'.context.allocated)])) (s'.context.inCall tree') := by
  refine ⟨?_, Scope.next s.context.allocated, Scope.next s'.context.allocated, rfl, rfl, ?_⟩
  · rw [Context.span?_inCall, Context.span?_inCall]
    exact h.lawful.span_or htree.span h.span
  · intro name
    rw [Context.inCall, Context.inCall, ← h.mainModule]
    exact sim.stamp h.counts name s.context.mainModule

/-- Rule sets take alike trees alike, and the extra handlers of the second run do not matter. -/
theorem agrees_offerTo {handlers handlers' : List Handler}
    (hall : Interleaved sim.Extra handlers handlers')
    (hrules : ∀ handler ∈ handlers, ∃ set : RuleSet, handler = set.handler) {tree tree' : Tree}
    (htree : tree.Alike (sim.like (scopesOf ps)) tree') (h : sim.Holds tracing ps s s')
    (hfits : sim.Fits (offerTo tree handlers s).2.context.allocated
      (offerTo tree' handlers' s').2.context.allocated) :
    sim.Agrees tracing Outcome.Alike ps (offerTo tree handlers s)
      (offerTo tree' handlers' s') := by
  induction hall generalizing s s' with
  | nil => exact .now h (.ok .declined)
  | @extra handler _ _ hextra _ ih =>
    have hcall : (handler.call tree').run s'.context =
        (.ok .declined, ((handler.call tree').run s'.context).2) :=
      Prod.ext (Handler.fst_call_eq_ok_iff.2 (sim.extra_declines hextra _ _)) rfl
    rw [offerTo_cons_of_declined hcall] at hfits ⊢
    exact ih hrules (h.wait hextra (Handler.reaches_of_call hcall)) hfits
  | @both handler handlers handlers' _ ih =>
    obtain ⟨⟨set, rfl⟩, hrest⟩ := List.forall_mem_cons.1 hrules
    have hcalls : sim.Fits (s.context.allocated + 1) (s'.context.allocated + 1) :=
      sim.fits_of_le hfits (allocated_lt_offerTo_cons tree _ _ s)
        (allocated_lt_offerTo_cons tree' _ _ s')
    -- The scopes of this call are added before it is known whether it replaces the tree: only with
    -- them are the results alike.
    have hlawful := sim.lawful (sim.replace h.counts hcalls)
    have happly := RuleSet.apply_alike hlawful set.rules (alike_append htree _) (h.inCall htree)
    have hspan := (h.inCall htree).span
    rw [offerTo, offerTo, set.run_call, set.run_call] at hfits ⊢
    generalize RuleSet.apply set.rules tree _ = r, RuleSet.apply set.rules tree' _ = r'
      at happly hfits ⊢
    cases happly with
    | error hreport => exact .now h.decline (.error (hreport.orAt hlawful hspan))
    | ok houtcome =>
      cases houtcome with
      | declined => exact ih hrest h.decline hfits
      | @replaced output output' houtput =>
        let p : ReplacementPair :=
          ⟨⟨set.name, tree.kind, Scope.next s.context.allocated, tree, output⟩,
            ⟨set.name, tree'.kind, Scope.next s'.context.allocated, tree', output'⟩,
            rfl, htree.kind_eq⟩
        refine .after [p] (h.replace hcalls rfl rfl) (.ok (.replaced ?_))
        rw [scopesOf_append]
        exact houtput

/-! ## Runs -/

/-- Expanders with the same limit and the same rule sets, but for the extra handlers of the second
one. -/
structure Relates (sim : Simulation) (e e' : Expander) : Prop where
  limit : e.limit = e'.limit
  rules : e.registry.OnlyRules
  handlers : ∀ kind, Interleaved sim.Extra (e.registry.lookup kind) (e'.registry.lookup kind)

variable {e e' : Expander}

open Expander

theorem agrees_offer (he : sim.Relates e e') {tree tree' : Tree}
    (htree : tree.Alike (sim.like (scopesOf ps)) tree') (h : sim.Holds tracing ps s s')
    (hfits : sim.Fits (e.registry.offer tree s).2.context.allocated
      (e'.registry.offer tree' s').2.context.allocated) :
    sim.Agrees tracing Outcome.Alike ps (e.registry.offer tree s) (e'.registry.offer tree' s') := by
  rw [Registry.offer, Registry.offer, ← htree.kind_eq] at hfits ⊢
  exact agrees_offerTo (he.handlers tree.kind) (he.rules tree.kind) htree h hfits

theorem Relates.decidesByTree (he : sim.Relates e e') : e.registry.DecidesByTree := by
  intro kind handler hmem
  obtain ⟨set, rfl⟩ := he.rules kind handler hmem
  exact set.decidesByTree

/-- The extra handlers of the second expander decide by the tree too: they always decline. -/
theorem Relates.decidesByTree' (he : sim.Relates e e') : e'.registry.DecidesByTree := by
  intro kind handler hmem
  rcases (he.handlers kind).mem handler hmem with hmem | hextra
  · exact he.decidesByTree kind handler hmem
  · exact fun _ _ _ _ => sim.extra_declines hextra _ _

/-- The run of the first expander that ends with this result has one of the second beside it: on any
tree that is like this one, the second run ends alike. -/
def RunsAlike (sim : Simulation) (tracing : Bool) (e' : Expander) (budget : Nat)
    (origin : Option Span) (changed : Bool) (tree : Tree) (s : ExpanderState)
    (result : Except Report (Expanded Tree) × ExpanderState) : Prop :=
  ∀ ⦃origin' tree' ps s' result'⦄, sim.span origin origin' →
    tree.Alike (sim.like (scopesOf ps)) tree' → sim.Holds tracing ps s s' →
    e'.expandTree budget origin' changed tree' s' = some result' →
    sim.Fits result.2.context.allocated result'.2.context.allocated →
    sim.Agrees tracing (fun like => Expanded.Alike (Tree.Alike like)) ps result result'

/-- So it is for trees that are expanded from left to right. -/
def RunsAllAlike (sim : Simulation) (tracing : Bool) (e' : Expander) (budget : Nat)
    (trees : List Tree) (s : ExpanderState)
    (result : Except Report (Expanded (List Tree)) × ExpanderState) : Prop :=
  ∀ ⦃trees' ps s' result'⦄, List.Forall₂ (Tree.Alike (sim.like (scopesOf ps))) trees trees' →
    sim.Holds tracing ps s s' → e'.expandList budget trees' s' = some result' →
    sim.Fits result.2.context.allocated result'.2.context.allocated →
    sim.Agrees tracing (fun like => Expanded.Alike (List.Forall₂ (Tree.Alike like))) ps result
      result'

section

variable {budget a : Nat} {origin origin' : Option Span} {changed : Bool} {tree tree' : Tree}
  {s₁ : ExpanderState} {result result' : Except Report (Expanded Tree) × ExpanderState}

/-- When a run of the first expander begins with an offer, one of the second begins with an offer
that ends alike. -/
theorem exists_offer (he : sim.Relates e e') {x : Except Report Outcome}
    (hoffer : e.registry.offer tree s = (x, s₁)) (hle : s₁.context.allocated ≤ a)
    (htree : tree.Alike (sim.like (scopesOf ps)) tree') (h : sim.Holds tracing ps s s')
    (hrun : e'.expandTree budget origin' changed tree' s' = some result')
    (hfits : sim.Fits a result'.2.context.allocated) :
    ∃ later x' s₁', e'.registry.offer tree' s' = (x', s₁') ∧
      sim.Holds tracing (ps ++ later) s₁ s₁' ∧
      Agree (Report.Alike sim.span) (Outcome.Alike (sim.like (scopesOf (ps ++ later)))) x x' := by
  obtain ⟨calls, hruns⟩ := expandTree_eq_some_iff.1 hrun
  have hagrees := agrees_offer he htree h
    (sim.fits_of_le hfits (hoffer ▸ hle) hruns.offer_reaches.allocated)
  rw [hoffer] at hagrees
  generalize hoffer' : e'.registry.offer tree' s' = offered at hagrees
  obtain ⟨later, hholds, hagree⟩ := hagrees
  exact ⟨later, _, _, rfl, hholds, hagree⟩

theorem RunsAlike.of_failed (he : sim.Relates e e') {report : Report}
    (hoffer : e.registry.offer tree s = (.error report, s₁)) :
    sim.RunsAlike tracing e' budget origin changed tree s (.error report, s₁) := by
  intro origin' tree' ps s' result' _ htree h hrun hfits
  obtain ⟨later, x', s₁', hoffer', h₁, hagree⟩ :=
    exists_offer he hoffer (Nat.le_refl _) htree h hrun hfits
  cases hagree with
  | error hreport =>
    rw [expandTree_of_error hoffer'] at hrun
    cases hrun
    exact .after later h₁ (.error hreport)

theorem RunsAlike.of_exhausted (he : sim.Relates e e') {output : Tree}
    (hoffer : e.registry.offer tree s = (.ok (.replaced output), s₁)) :
    sim.RunsAlike tracing e' 0 origin changed tree s
      (.error (.at? origin (.recursionLimit e.limit output.kind)), s₁) := by
  intro origin' tree' ps s' result' horigin htree h hrun hfits
  obtain ⟨later, x', s₁', hoffer', h₁, hagree⟩ :=
    exists_offer he hoffer (Nat.le_refl _) htree h hrun hfits
  cases hagree with
  | ok houtcome =>
    cases houtcome with
    | replaced houtput =>
      rw [expandTree_zero hoffer'] at hrun
      cases hrun
      refine .after later h₁ (.error ?_)
      rw [he.limit, houtput.kind_eq]
      exact Report.at?_alike horigin _

theorem RunsAlike.of_replaced (he : sim.Relates e e') {output : Tree}
    (hoffer : e.registry.offer tree s = (.ok (.replaced output), s₁))
    (hle : s₁.context.allocated ≤ result.2.context.allocated)
    (hout : sim.RunsAlike tracing e' budget origin true output s₁ result) :
    sim.RunsAlike tracing e' (budget + 1) origin changed tree s result := by
  intro origin' tree' ps s' result' horigin htree h hrun hfits
  obtain ⟨later, x', s₁', hoffer', h₁, hagree⟩ := exists_offer he hoffer hle htree h hrun hfits
  cases hagree with
  | ok houtcome =>
    cases houtcome with
    | replaced houtput =>
      rw [expandTree_succ hoffer'] at hrun
      exact (hout horigin houtput h₁ hrun hfits).of_append

theorem RunsAlike.of_leaf (he : sim.Relates e e') {l : Leaf} {span : Option Span}
    (hoffer : e.registry.offer (.leaf l span) s = (.ok .declined, s₁)) :
    sim.RunsAlike tracing e' budget origin changed (.leaf l span) s
      (.ok ⟨.leaf l span, changed⟩, s₁) := by
  intro origin' tree' ps s' result' _ htree h hrun hfits
  obtain ⟨later, x', s₁', hoffer', h₁, hagree⟩ :=
    exists_offer he hoffer (Nat.le_refl _) htree h hrun hfits
  replace htree := alike_later htree later
  cases hagree with
  | ok houtcome =>
    cases houtcome with
    | declined =>
      cases htree with
      | leaf hleaf hspan =>
        rw [expandTree_leaf hoffer'] at hrun
        cases hrun
        exact .after later h₁ (.ok (.mk _ (.leaf hleaf hspan)))

/-- When the first expander declines a node and expands its children, so does the second, and the
children end alike; what becomes of the second node depends on its children. -/
theorem exists_inside (he : sim.Relates e e') {kind : String} {children : List Tree}
    {span : Option Span} {inside : Except Report (Expanded (List Tree)) × ExpanderState}
    (hoffer : e.registry.offer (.node kind children span) s = (.ok .declined, s₁))
    (hreaches : s₁.context.Reaches inside.2.context)
    (hinside : sim.RunsAllAlike tracing e' budget children s₁ inside)
    (hle : inside.2.context.allocated ≤ a)
    (htree : (Tree.node kind children span).Alike (sim.like (scopesOf ps)) tree')
    (h : sim.Holds tracing ps s s')
    (hrun : e'.expandTree budget origin' changed tree' s' = some result')
    (hfits : sim.Fits a result'.2.context.allocated) :
    ∃ children' span' later r s₂', tree' = .node kind children' span' ∧
      List.Forall₂ (Tree.Alike (sim.like (scopesOf (ps ++ later)))) children children' ∧
      sim.span span span' ∧ sim.Holds tracing (ps ++ later) inside.2 s₂' ∧
      Agree (Report.Alike sim.span)
        (Expanded.Alike (List.Forall₂ (Tree.Alike (sim.like (scopesOf (ps ++ later))))))
        inside.1 r ∧
      e'.AfterChildren budget origin' changed kind children' span' result' (r, s₂') := by
  obtain ⟨first, x', s₁', hoffer', h₁, hagree⟩ :=
    exists_offer he hoffer (hreaches.allocated.trans hle) htree h hrun hfits
  cases hagree with
  | ok houtcome =>
    cases houtcome with
    | declined =>
      cases htree with
      | node hchildren hspan =>
        obtain ⟨inside', hlist, hreaches', hgiven⟩ := exists_children_of_expandTree hoffer' hrun
        obtain ⟨last, h₂, hagree⟩ := hinside
          (hchildren.imp fun _ _ hchild => alike_later hchild first) h₁ hlist
          (sim.fits_of_le hfits hle hreaches'.allocated)
        rw [List.append_assoc] at h₂ hagree
        refine ⟨_, _, first ++ last, _, _, rfl, ?_, hspan, h₂, hagree, hgiven⟩
        exact hchildren.imp fun _ _ hchild => alike_later hchild _

section

variable {kind : String} {children : List Tree} {span : Option Span} {s₂ : ExpanderState}

theorem RunsAlike.of_failedInside (he : sim.Relates e e') {report : Report}
    (hoffer : e.registry.offer (.node kind children span) s = (.ok .declined, s₁))
    (hreaches : s₁.context.Reaches s₂.context)
    (hinside : sim.RunsAllAlike tracing e' budget children s₁ (.error report, s₂)) :
    sim.RunsAlike tracing e' budget origin changed (.node kind children span) s
      (.error report, s₂) := by
  intro origin' tree' ps s' result' _ htree h hrun hfits
  obtain ⟨children', span', later, r, s₂', rfl, -, -, h₂, hagree, hgiven⟩ :=
    exists_inside he hoffer hreaches hinside (Nat.le_refl _) htree h hrun hfits
  cases hagree with
  | error hreport =>
    cases hgiven
    exact .after later h₂ (.error hreport)

theorem RunsAlike.of_left (he : sim.Relates e e') {outs : List Tree}
    (hoffer : e.registry.offer (.node kind children span) s = (.ok .declined, s₁))
    (hreaches : s₁.context.Reaches s₂.context)
    (hinside : sim.RunsAllAlike tracing e' budget children s₁ (.ok ⟨outs, false⟩, s₂)) :
    sim.RunsAlike tracing e' budget origin changed (.node kind children span) s
      (.ok ⟨.node kind children span, changed⟩, s₂) := by
  intro origin' tree' ps s' result' _ htree h hrun hfits
  obtain ⟨children', span', later, r, s₂', rfl, hchildren, hspan, h₂, hagree, hgiven⟩ :=
    exists_inside he hoffer hreaches hinside (Nat.le_refl _) htree h hrun hfits
  cases hagree with
  | ok houts =>
    cases houts
    cases hgiven
    exact .after later h₂ (.ok (.mk _ (.node hchildren hspan)))

theorem RunsAlike.of_revisited (he : sim.Relates e e') {outs : List Tree}
    (hoffer : e.registry.offer (.node kind children span) s = (.ok .declined, s₁))
    (hreaches : s₁.context.Reaches s₂.context)
    (hinside : sim.RunsAllAlike tracing e' budget children s₁ (.ok ⟨outs, true⟩, s₂))
    (hle : s₂.context.allocated ≤ result.2.context.allocated)
    (hout : sim.RunsAlike tracing e' budget origin true (.node kind outs span) s₂ result) :
    sim.RunsAlike tracing e' budget origin changed (.node kind children span) s result := by
  intro origin' tree' ps s' result' horigin htree h hrun hfits
  obtain ⟨children', span', later, r, s₂', rfl, -, hspan, h₂, hagree, hgiven⟩ :=
    exists_inside he hoffer hreaches hinside hle htree h hrun hfits
  cases hagree with
  | ok houts =>
    obtain ⟨-, houts⟩ := houts
    exact (hout horigin (.node houts hspan) h₂ hgiven hfits).of_append

end

/-- When the first expander expands a tree and then others, so does the second, and the first trees
end alike. -/
theorem exists_head {rest trees' : List Tree}
    {result' : Except Report (Expanded (List Tree)) × ExpanderState}
    {head : Except Report (Expanded Tree) × ExpanderState}
    (hhead : sim.RunsAlike tracing e' budget tree.span false tree s head)
    (hle : head.2.context.allocated ≤ a)
    (htrees : List.Forall₂ (Tree.Alike (sim.like (scopesOf ps))) (tree :: rest) trees')
    (h : sim.Holds tracing ps s s') (hrun : e'.expandList budget trees' s' = some result')
    (hfits : sim.Fits a result'.2.context.allocated) :
    ∃ tree' rest' later r s₁', trees' = tree' :: rest' ∧
      List.Forall₂ (Tree.Alike (sim.like (scopesOf (ps ++ later)))) rest rest' ∧
      e'.expandTree budget tree'.span false tree' s' = some (r, s₁') ∧
      sim.Holds tracing (ps ++ later) head.2 s₁' ∧
      Agree (Report.Alike sim.span)
        (Expanded.Alike (Tree.Alike (sim.like (scopesOf (ps ++ later))))) head.1 r ∧
      e'.AfterHead budget s'.context tree' rest' result' (r, s₁') := by
  cases htrees with
  | cons htree hrest =>
    obtain ⟨head', htree', hreaches, hgiven⟩ := exists_head_of_expandList hrun
    obtain ⟨later, h₁, hagree⟩ :=
      hhead htree.span htree h htree' (sim.fits_of_le hfits hle hreaches.allocated)
    exact ⟨_, _, later, _, _, rfl, hrest.imp fun _ _ hother => alike_later hother later, htree', h₁,
      hagree, hgiven⟩

section

variable {trees : List Tree}

theorem RunsAllAlike.of_nil : sim.RunsAllAlike tracing e' budget [] s (.ok ⟨[], false⟩, s) := by
  intro trees' ps s' result' htrees h hrun _
  cases htrees
  rw [expandList_nil] at hrun
  cases hrun
  exact .now h (.ok (.mk _ .nil))

theorem RunsAllAlike.of_failed {report : Report}
    (hhead : sim.RunsAlike tracing e' budget tree.span false tree s (.error report, s₁)) :
    sim.RunsAllAlike tracing e' budget (tree :: trees) s (.error report, s₁) := by
  intro trees' ps s' result' htrees h hrun hfits
  obtain ⟨tree', rest', later, r, s₁', rfl, -, -, h₁, hagree, hgiven⟩ :=
    exists_head hhead (Nat.le_refl _) htrees h hrun hfits
  cases hagree with
  | error hreport =>
    cases hgiven
    exact .after later h₁ (.error hreport)

theorem RunsAllAlike.of_failedLater {out : Expanded Tree} {s₂ : ExpanderState} {report : Report}
    (hhead : sim.RunsAlike tracing e' budget tree.span false tree s (.ok out, s₁))
    (hle : s₁.context.allocated ≤ s₂.context.allocated)
    (hrest : sim.RunsAllAlike tracing e' budget trees s₁ (.error report, s₂)) :
    sim.RunsAllAlike tracing e' budget (tree :: trees) s (.error report, s₂) := by
  intro trees' ps s' result' htrees h hrun hfits
  obtain ⟨tree', rest', first, r, s₁', rfl, hrestAlike, -, h₁, hagree, hgiven⟩ :=
    exists_head hhead hle htrees h hrun hfits
  cases hagree with
  | ok hout =>
    obtain ⟨later, hlater, rfl⟩ := hgiven
    obtain ⟨last, h₂, hagree⟩ := hrest hrestAlike h₁ hlater hfits
    rw [List.append_assoc] at h₂ hagree
    cases hagree with
    | error hreport => exact .after _ h₂ (.error hreport)

/-- The flags agree because handlers that decide by the tree leave no choice of objects. -/
theorem RunsAllAlike.of_cons (he : sim.Relates e e') {out : Expanded Tree}
    {outs : Expanded (List Tree)} {s₂ : ExpanderState}
    (hrun : e.expandTree budget tree.span false tree s = some (.ok out, s₁))
    (hhead : sim.RunsAlike tracing e' budget tree.span false tree s (.ok out, s₁))
    (hle : s₁.context.allocated ≤ s₂.context.allocated)
    (hrest : sim.RunsAllAlike tracing e' budget trees s₁ (.ok outs, s₂)) :
    sim.RunsAllAlike tracing e' budget (tree :: trees) s (.ok ⟨out.value :: outs.value,
      e.registry.moved s.context s₁.context tree out || outs.changed⟩, s₂) := by
  intro trees' ps s' result' htrees h hrun' hfits
  obtain ⟨tree', rest', first, r, s₁', rfl, hrestAlike, htree', h₁, hagree, hgiven⟩ :=
    exists_head hhead hle htrees h hrun' hfits
  cases hagree with
  | @ok _ out' hout =>
    obtain ⟨later, hlater, rfl⟩ := hgiven
    obtain ⟨last, h₂, hagree⟩ := hrest hrestAlike h₁ hlater hfits
    rw [List.append_assoc] at h₂ hagree
    rw [moved_eq_changed he.decidesByTree hrun]
    cases hagree with
    | @ok _ outs' houts =>
      rw [moved_eq_changed he.decidesByTree' htree']
      obtain ⟨flag, hvalue⟩ := hout
      obtain ⟨flag', hvalues⟩ := houts
      have hvalue' := alike_later hvalue last
      rw [List.append_assoc] at hvalue'
      exact .after _ h₂ (.ok (.mk _ (.cons hvalue' hvalues)))

end

end

mutual

/-- Runs on trees that are alike end alike. -/
theorem runsAlike (he : sim.Relates e e') {budget calls : Nat} {origin : Option Span}
    {changed : Bool} {tree : Tree} {s : ExpanderState}
    {result : Except Report (Expanded Tree) × ExpanderState} :
    e.Runs budget origin changed tree s calls result →
      sim.RunsAlike tracing e' budget origin changed tree s result
  | .failed hoffer => .of_failed he hoffer
  | .exhausted hoffer => .of_exhausted he hoffer
  | .replaced hoffer hout => .of_replaced he hoffer hout.reaches.allocated (runsAlike he hout)
  | .leaf hoffer => .of_leaf he hoffer
  | .failedInside hoffer hchildren =>
    .of_failedInside he hoffer hchildren.reaches (runsAllAlike he hchildren)
  | .left hoffer hchildren => .of_left he hoffer hchildren.reaches (runsAllAlike he hchildren)
  | .revisited hoffer hchildren hout =>
    .of_revisited he hoffer hchildren.reaches (runsAllAlike he hchildren) hout.reaches.allocated
      (runsAlike he hout)

theorem runsAllAlike (he : sim.Relates e e') {budget calls : Nat} {trees : List Tree}
    {s : ExpanderState} {result : Except Report (Expanded (List Tree)) × ExpanderState} :
    e.RunsAll budget trees s calls result → sim.RunsAllAlike tracing e' budget trees s result
  | .nil => .of_nil
  | .failed htree => .of_failed (runsAlike he htree)
  | .failedLater htree hrest =>
    .of_failedLater (runsAlike he htree) hrest.reaches.allocated (runsAllAlike he hrest)
  | .cons htree hrest =>
    .of_cons he htree.expandTree_eq (runsAlike he htree) hrest.reaches.allocated
      (runsAllAlike he hrest)

end

theorem holds_initial {a b : Nat} (h : sim.Counts [] a b) (mainModule : String) (tracing : Bool) :
    sim.Holds tracing [] (.initial mainModule a tracing) (.initial mainModule b tracing) :=
  ⟨rfl, (sim.lawful h).span_refl none, h, rfl, rfl⟩

/-- Expansions of trees that are alike, from counters that go together, end, and end alike. -/
theorem exists_agrees_expand (he : sim.Relates e e') {tree tree' : Tree} {a b : Nat}
    (mainModule : String) (tracing : Bool) (htree : tree.Alike (sim.like []) tree')
    (hcounts : sim.Counts [] a b) :
    ∃ run run', e.expand tree (.initial mainModule a tracing) = some run ∧
      e'.expand tree' (.initial mainModule b tracing) = some run' ∧
      (sim.Fits run.2.context.allocated run'.2.context.allocated →
        sim.Agrees tracing (fun like => Expanded.Alike (Tree.Alike like)) [] run run') := by
  obtain ⟨calls, run, hends⟩ :=
    exists_ends he.decidesByTree tree (.initial mainModule a tracing)
  obtain ⟨calls', run', hends'⟩ :=
    exists_ends he.decidesByTree' tree' (.initial mainModule b tracing)
  refine ⟨run, run', hends.expandTree_eq, hends'.expandTree_eq, fun hfits => ?_⟩
  have hrun' := hends'.expandTree_eq
  rw [← he.limit] at hrun'
  exact runsAlike he hends htree.span htree (holds_initial hcounts mainModule tracing) hrun' hfits

end Simulation

end MacroExpansion
