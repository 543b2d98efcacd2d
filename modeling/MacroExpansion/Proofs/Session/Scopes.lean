import MacroExpansion.Session
import MacroExpansion.Proofs.Expansion.Termination
import MacroExpansion.Proofs.Handler.Activations
import MacroExpansion.Proofs.Registry.Lookup

/-!
# Scopes of whole runs

Sessions may share one counter of scopes.  The calls of handlers that a run of jobs makes are listed
in order, each with the activations that it opens, and these are all the activations there are: one
for each scope that the counter hands out from the beginning of the run to its end
(`exists_callsOf`).  So the scopes of the calls increase, whichever sessions, trees and expanders
they belong to and whether they fail or not, and since the scope of an activation can be read off
the identifiers that it makes, no two activations make the same one (`scopes_distinct`).
-/

namespace MacroExpansion

/-! ## Libraries of macros -/

/-- Macros registered for kinds, the latest first, and the trees that they share. -/
structure Library where
  entries : List (String × Macro)
  sharing : Context → Context → Tree → Bool

namespace Library

/-- The registry after all registrations. -/
def registry (lib : Library) : Registry :=
  lib.entries.foldr (fun entry r => r.register entry.1 entry.2.handler) ⟨[], lib.sharing⟩

/-- The macros for a kind, the latest first. -/
def macros (lib : Library) (kind : String) : List Macro :=
  (lib.entries.filter (kind = ·.1)).map (·.2)

theorem sorted_registry (lib : Library) : lib.registry.Sorted := by
  obtain ⟨entries, sharing⟩ := lib
  induction entries with
  | nil => exact List.Pairwise.nil
  | cons entry entries ih => exact Registry.Sorted.register ih entry.1 entry.2.handler

theorem lookup_registry (lib : Library) (kind : String) :
    lib.registry.lookup kind = (lib.macros kind).map Macro.handler := by
  obtain ⟨entries, sharing⟩ := lib
  induction entries with
  | nil => rfl
  | cons entry entries ih =>
    refine (Registry.lookup_register (sorted_registry ⟨entries, sharing⟩) entry.1 kind _).trans ?_
    rw [macros, List.filter_cons]
    split
    case isTrue h =>
      rw [if_pos (decide_eq_true h), ih]
      rfl
    case isFalse h =>
      rw [if_neg (by simpa using h), ih]
      rfl

end Library

/-! ## Calls -/

/-- A call of a macro on a tree, in the context at that time. -/
structure Call where
  callee : Macro
  tree : Tree
  context : Context

namespace Call

/-- The scope under which the handler is called. -/
def scope (call : Call) : Scope := Scope.next call.context.allocated

/-- The activations that the call opens, its own first. -/
def activations (call : Call) : List Activation := call.callee.activations call.tree call.context

/-- What the call gives, and the context after it. -/
def result (call : Call) : Except Report Outcome × Context :=
  (call.callee.handler.call call.tree).run call.context

/-- The activations of some calls are those of all scopes that are handed out while the counter goes
from one number to another. -/
def Recorded (before : Nat) (calls : List Call) (after : Nat) : Prop :=
  Opened before (calls.flatMap activations) after

variable {before between after : Nat} {calls later : List Call}

theorem Recorded.nil (allocated : Nat) : Recorded allocated [] allocated := Opened.nil allocated

theorem Recorded.append (h : Recorded before calls between) (h' : Recorded between later after) :
    Recorded before (calls ++ later) after := by
  rw [Recorded, List.flatMap_append]
  exact Opened.append h h'

theorem recorded_singleton (call : Call) :
    Recorded call.context.allocated [call] call.result.2.allocated := by
  rw [Recorded, List.flatMap_singleton]
  exact call.callee.opened_activations call.tree call.context

theorem sublist_map_scope (calls : List Call) :
    (calls.map scope).Sublist ((calls.flatMap activations).map (·.scope)) := by
  induction calls with
  | nil => exact List.Sublist.refl _
  | cons call calls ih =>
    rw [List.flatMap_cons, List.map_append]
    exact .cons_cons call.scope (ih.trans (List.sublist_append_right _ _))

end Call

/-! ## Calls of an expander -/

/-- The calls that are made when a tree is offered to some macros: up to the first of them that does
not decline. -/
def offerCalls (tree : Tree) : List Macro → Context → List Call
  | [], _ => []
  | callee :: rest, cx =>
    ⟨callee, tree, cx⟩ ::
      match (callee.handler.call tree).run cx with
      | (.ok .declined, cx) => offerCalls tree rest cx
      | _ => []

theorem recorded_offerCalls (tree : Tree) (macros : List Macro) (s : ExpanderState) :
    Call.Recorded s.context.allocated (offerCalls tree macros s.context)
      (offerTo tree (macros.map Macro.handler) s).2.context.allocated := by
  induction macros generalizing s with
  | nil => exact .nil _
  | cons callee rest ih =>
    have hcall := Call.recorded_singleton ⟨callee, tree, s.context⟩
    rw [offerCalls, List.map_cons, offerTo]
    rw [Call.result] at hcall
    generalize (callee.handler.call tree).run s.context = result at hcall ⊢
    obtain ⟨report | _ | output, cx⟩ := result
    · exact hcall
    · exact hcall.append (ih { s with context := cx })
    · exact hcall

namespace Library

def expander (lib : Library) (limit : Nat) : Expander := ⟨lib.registry, limit⟩

end Library

namespace Expander

section

variable (lib : Library) (limit : Nat)

mutual

/-- The calls that are made on a visit of a tree, also if it fails. -/
def Visit.calls (visit : Visit) : ReaderT ExpanderState Option (List Call) := fun s =>
  let calls := offerCalls visit.tree (lib.macros visit.tree.kind) s.context
  match (lib.expander limit).registry.offer visit.tree s with
  | (.error _, _) => some calls
  | (.ok (.replaced output), s) =>
    match visit.budget with
    | 0 => some calls
    | budget + 1 => do
      let later ← (Visit.mk budget visit.origin true output).calls.run s
      return calls ++ later
  | (.ok .declined, s) =>
    match visit.tree with
    | .leaf _ _ => some calls
    | .node kind children span => do
      let inside ← (Visits.mk visit.budget children).calls.run s
      match ← (lib.expander limit).expandList visit.budget children s with
      | (.ok ⟨children', true⟩, s) =>
        let later ←
          (Visit.mk visit.budget visit.origin true (.node kind children' span)).calls.run s
        return calls ++ (inside ++ later)
      | _ => return calls ++ inside
partial_fixpoint

/-- The calls that are made when trees are expanded from left to right. -/
def Visits.calls (visits : Visits) : ReaderT ExpanderState Option (List Call) := fun s =>
  match visits.trees with
  | [] => some []
  | tree :: rest => do
    let calls ← (Visit.mk visits.budget tree.span false tree).calls.run s
    match ← (lib.expander limit).expandTree visits.budget tree.span false tree s with
    | (.ok _, s) =>
      let later ← (Visits.mk visits.budget rest).calls.run s
      return calls ++ later
    | (.error _, _) => return calls
partial_fixpoint

end

theorem Visits.calls_cons {lib : Library} {limit budget : Nat} {tree : Tree} {trees : List Tree}
    {out : Expanded Tree} {s s₁ : ExpanderState} {calls later : List Call}
    (hcalls : ((Visit.mk budget tree.span false tree).calls lib limit).run s = some calls)
    (htree : (lib.expander limit).expandTree budget tree.span false tree s = some (.ok out, s₁))
    (hlater : ((Visits.mk budget trees).calls lib limit).run s₁ = some later) :
    ((Visits.mk budget (tree :: trees)).calls lib limit).run s = some (calls ++ later) := by
  rw [ReaderT.run, Visits.calls]
  dsimp only
  rw [hcalls, htree]
  simp only [Option.bind_eq_bind, Option.bind_some, hlater]
  rfl

end

end Expander

namespace Library

theorem recorded_offer (lib : Library) (tree : Tree) (s : ExpanderState) :
    Call.Recorded s.context.allocated (offerCalls tree (lib.macros tree.kind) s.context)
      (lib.registry.offer tree s).2.context.allocated := by
  rw [Registry.offer, lib.lookup_registry]
  exact recorded_offerCalls tree (lib.macros tree.kind) s

theorem recorded_of_offer {lib : Library} {limit : Nat} {tree : Tree} {s s' : ExpanderState}
    {result : Except Report Outcome}
    (h : (lib.expander limit).registry.offer tree s = (result, s')) :
    Call.Recorded s.context.allocated (offerCalls tree (lib.macros tree.kind) s.context)
      s'.context.allocated := by
  have hoffer := lib.recorded_offer tree s
  rw [expander] at h
  rwa [h] at hoffer

mutual

/-- A run makes the calls that are listed, and they open all its activations. -/
theorem exists_visit_calls {lib : Library} {limit budget count : Nat} {origin : Option Span}
    {changed : Bool} {tree : Tree} {s : ExpanderState}
    {result : Except Report (Expanded Tree) × ExpanderState} :
    (lib.expander limit).Runs budget origin changed tree s count result →
      ∃ calls, ((Expander.Visit.mk budget origin changed tree).calls lib limit).run s =
          some calls ∧
        Call.Recorded s.context.allocated calls result.2.context.allocated
  | .failed hoffer => by
    refine ⟨_, ?_, recorded_of_offer hoffer⟩
    rw [ReaderT.run, Expander.Visit.calls, hoffer]
  | .exhausted hoffer => by
    refine ⟨_, ?_, recorded_of_offer hoffer⟩
    rw [ReaderT.run, Expander.Visit.calls, hoffer]
  | .replaced hoffer hout => by
    obtain ⟨later, hlater, hrecorded⟩ := exists_visit_calls hout
    refine ⟨_, ?_, (recorded_of_offer hoffer).append hrecorded⟩
    rw [ReaderT.run, Expander.Visit.calls, hoffer]
    dsimp only
    rw [hlater]
    rfl
  | .leaf hoffer => by
    refine ⟨_, ?_, recorded_of_offer hoffer⟩
    rw [ReaderT.run, Expander.Visit.calls, hoffer]
  | .failedInside hoffer hchildren => by
    obtain ⟨inside, hinside, hrecorded⟩ := exists_visits_calls hchildren
    refine ⟨_, ?_, (recorded_of_offer hoffer).append hrecorded⟩
    rw [ReaderT.run, Expander.Visit.calls, hoffer]
    dsimp only
    rw [hinside, hchildren.expandList_eq]
    rfl
  | .left hoffer hchildren => by
    obtain ⟨inside, hinside, hrecorded⟩ := exists_visits_calls hchildren
    refine ⟨_, ?_, (recorded_of_offer hoffer).append hrecorded⟩
    rw [ReaderT.run, Expander.Visit.calls, hoffer]
    dsimp only
    rw [hinside, hchildren.expandList_eq]
    rfl
  | .revisited hoffer hchildren hout => by
    obtain ⟨inside, hinside, hrecorded⟩ := exists_visits_calls hchildren
    obtain ⟨later, hlater, hrecorded'⟩ := exists_visit_calls hout
    refine ⟨_, ?_, (recorded_of_offer hoffer).append (hrecorded.append hrecorded')⟩
    rw [ReaderT.run, Expander.Visit.calls, hoffer]
    dsimp only
    rw [hinside, hchildren.expandList_eq]
    simp only [Option.bind_eq_bind, Option.bind_some, hlater]
    rfl

theorem exists_visits_calls {lib : Library} {limit budget count : Nat} {trees : List Tree}
    {s : ExpanderState} {result : Except Report (Expanded (List Tree)) × ExpanderState} :
    (lib.expander limit).RunsAll budget trees s count result →
      ∃ calls, ((Expander.Visits.mk budget trees).calls lib limit).run s = some calls ∧
        Call.Recorded s.context.allocated calls result.2.context.allocated
  | .nil => by
    refine ⟨[], ?_, .nil _⟩
    rw [ReaderT.run, Expander.Visits.calls]
  | .failed htree => by
    obtain ⟨calls, hcalls, hrecorded⟩ := exists_visit_calls htree
    refine ⟨calls, ?_, hrecorded⟩
    rw [ReaderT.run, Expander.Visits.calls]
    dsimp only
    rw [hcalls, htree.expandTree_eq]
    rfl
  | .failedLater htree htrees => by
    obtain ⟨calls, hcalls, hrecorded⟩ := exists_visit_calls htree
    obtain ⟨later, hlater, hrecorded'⟩ := exists_visits_calls htrees
    exact ⟨calls ++ later, Expander.Visits.calls_cons hcalls htree.expandTree_eq hlater,
      hrecorded.append hrecorded'⟩
  | .cons htree htrees => by
    obtain ⟨calls, hcalls, hrecorded⟩ := exists_visit_calls htree
    obtain ⟨later, hlater, hrecorded'⟩ := exists_visits_calls htrees
    exact ⟨calls ++ later, Expander.Visits.calls_cons hcalls htree.expandTree_eq hlater,
      hrecorded.append hrecorded'⟩

end

/-- The calls that are made when a tree is expanded completely. -/
def expandCalls (lib : Library) (limit : Nat) (tree : Tree) (s : ExpanderState) :
    Option (List Call) :=
  ((Expander.Visit.mk limit tree.span false tree).calls lib limit).run s

theorem decidesByTree_registry (lib : Library) : lib.registry.DecidesByTree := by
  intro kind handler hmem
  rw [lookup_registry] at hmem
  obtain ⟨callee, -, rfl⟩ := List.mem_map.1 hmem
  cases callee with
  | rules set => exact set.decidesByTree
  | script name script => exact script.decidesByTree name

/-- Macros decide by the tree, so that each expansion by them ends. -/
theorem exists_expandCalls (lib : Library) (limit : Nat) (tree : Tree) (s : ExpanderState) :
    ∃ calls run, lib.expandCalls limit tree s = some calls ∧
      (lib.expander limit).expand tree s = some run ∧
      Call.Recorded s.context.allocated calls run.2.context.allocated := by
  obtain ⟨count, run, hends⟩ :=
    Expander.exists_ends (e := lib.expander limit) lib.decidesByTree_registry tree s
  obtain ⟨calls, hcalls, hrecorded⟩ := exists_visit_calls hends
  exact ⟨calls, run, hcalls, hends.expandTree_eq, hrecorded⟩

/-- The calls that are made when trees are expanded by one expander. -/
def eachCalls (lib : Library) (limit : Nat) : List Tree → ExpanderState → Option (List Call)
  | [], _ => some []
  | tree :: rest, s => do
    let calls ← lib.expandCalls limit tree s
    let (_, s) ← (lib.expander limit).expand tree s
    return calls ++ (← lib.eachCalls limit rest s)

theorem exists_eachCalls (lib : Library) (limit : Nat) (trees : List Tree) (s : ExpanderState) :
    ∃ calls run, lib.eachCalls limit trees s = some calls ∧
      (lib.expander limit).expandEach trees s = some run ∧
      Call.Recorded s.context.allocated calls run.2.context.allocated := by
  induction trees generalizing s with
  | nil => exact ⟨[], ([], s), rfl, rfl, .nil _⟩
  | cons tree rest ih =>
    obtain ⟨calls, ⟨result, s₁⟩, hcalls, hexpand, hrecorded⟩ :=
      lib.exists_expandCalls limit tree s
    obtain ⟨later, ⟨results, s₂⟩, hlater, heach, hrecorded'⟩ := ih s₁
    refine ⟨calls ++ later, (result :: results, s₂), ?_, Expander.expandEach_cons hexpand heach,
      hrecorded.append hrecorded'⟩
    rw [eachCalls, hcalls, hexpand]
    simp only [Option.bind_eq_bind, Option.bind_some, hlater]
    rfl

/-- The calls that one step makes. -/
def stepCalls (lib : Library) : Progress → ExpanderState → List Call
  | .pending tree, s => offerCalls tree (lib.macros tree.kind) s.context
  | .replaced tree, s => offerCalls tree (lib.macros tree.kind) s.context
  | .stuck _, _ => []
  | .failed _, _ => []

theorem recorded_tryTree (lib : Library) (tree : Tree) (s : ExpanderState) :
    Call.Recorded s.context.allocated (offerCalls tree (lib.macros tree.kind) s.context)
      (lib.registry.tryTree tree s).2.context.allocated := by
  have hoffer := lib.recorded_offer tree s
  rw [Registry.tryTree]
  generalize lib.registry.offer tree s = offered at hoffer ⊢
  obtain ⟨report | _ | output, s₁⟩ := offered
  · exact hoffer
  · exact hoffer
  · exact hoffer

theorem recorded_stepCalls (lib : Library) (progress : Progress) (s : ExpanderState) :
    Call.Recorded s.context.allocated (lib.stepCalls progress s)
      (lib.registry.step progress s).2.context.allocated := by
  cases progress with
  | pending tree => exact lib.recorded_tryTree tree s
  | replaced tree => exact lib.recorded_tryTree tree s
  | stuck tree => exact .nil _
  | failed report => exact .nil _

end Library

/-! ## Jobs -/

/-- What a session can be asked to do. -/
inductive Task where
  | expand (tree : Tree)
  | trace (tree : Tree)
  | expandAll (trees : List Tree)
  /-- Expand trees by one expander. -/
  | expander (trees : List Tree)
  /-- Take some number of steps from a node's progress. -/
  | step (progress : Progress) (count : Nat)

/-- A task for a session, whose handlers are those of a library. -/
structure Job where
  settings : Settings
  library : Library
  task : Task

namespace Job

def session (job : Job) : Session := ⟨job.settings, job.library.registry⟩

/-- The counter after a job. -/
def after (job : Job) (allocated : Nat) : Option Nat :=
  match job.task with
  | .expand tree => (job.session.expand allocated tree).map (·.2)
  | .trace tree => (job.session.expandTraced allocated tree).map (·.2)
  | .expandAll trees => (job.session.expandAll allocated trees).map (·.2)
  | .expander trees =>
    (job.session.expander.expandEach trees (job.session.start allocated)).map
      (·.2.context.allocated)
  | .step progress count =>
    some (job.session.steps count progress (job.session.start allocated)).2.context.allocated

/-- The calls that are made when trees are expanded, each on its own. -/
def expandAllCalls (job : Job) : Nat → List Tree → Option (List Call)
  | _, [] => some []
  | allocated, tree :: trees => do
    let calls ← job.library.expandCalls job.settings.maxDepth tree (job.session.start allocated)
    let (_, allocated) ← job.session.expand allocated tree
    return calls ++ (← job.expandAllCalls allocated trees)

/-- The calls that some number of steps make. -/
def stepsCalls (job : Job) : Nat → Progress → ExpanderState → List Call
  | 0, _, _ => []
  | count + 1, progress, s =>
    job.library.stepCalls progress s ++
      job.stepsCalls count (job.session.registry.step progress s).1
        (job.session.registry.step progress s).2

/-- The calls of a job, in order. -/
def calls (job : Job) (allocated : Nat) : Option (List Call) :=
  match job.task with
  | .expand tree =>
    job.library.expandCalls job.settings.maxDepth tree (job.session.start allocated)
  | .trace tree =>
    job.library.expandCalls job.settings.maxDepth tree
      (.initial job.settings.mainModule allocated true)
  | .expandAll trees => job.expandAllCalls allocated trees
  | .expander trees =>
    job.library.eachCalls job.settings.maxDepth trees (job.session.start allocated)
  | .step progress count => some (job.stepsCalls count progress (job.session.start allocated))

theorem exists_expandAllCalls (job : Job) (allocated : Nat) (trees : List Tree) :
    ∃ calls results after, job.expandAllCalls allocated trees = some calls ∧
      job.session.expandAll allocated trees = some (results, after) ∧
      Call.Recorded allocated calls after := by
  induction trees generalizing allocated with
  | nil => exact ⟨[], [], allocated, rfl, rfl, .nil _⟩
  | cons tree trees ih =>
    obtain ⟨calls, run, hcalls, hrun, hrecorded⟩ :=
      job.library.exists_expandCalls job.settings.maxDepth tree (job.session.start allocated)
    have hexpand : job.session.expand allocated tree = some (run.1, run.2.context.allocated) :=
      Session.expand_of_run hrun
    obtain ⟨later, results, after, hlater, hall, hrecorded'⟩ := ih run.2.context.allocated
    refine ⟨calls ++ later, run.1 :: results, after, ?_, Session.expandAll_cons hexpand hall,
      hrecorded.append hrecorded'⟩
    rw [expandAllCalls, hcalls, hexpand]
    simp only [Option.bind_eq_bind, Option.bind_some, hlater]
    rfl

theorem recorded_stepsCalls (job : Job) (count : Nat) (progress : Progress) (s : ExpanderState) :
    Call.Recorded s.context.allocated (job.stepsCalls count progress s)
      (job.session.steps count progress s).2.context.allocated := by
  induction count generalizing progress s with
  | zero => exact .nil _
  | succ count ih => exact (job.library.recorded_stepCalls progress s).append (ih _ _)

theorem exists_calls (job : Job) (allocated : Nat) :
    ∃ calls after, job.calls allocated = some calls ∧ job.after allocated = some after ∧
      Call.Recorded allocated calls after := by
  rw [calls, after]
  cases job.task with
  | expand tree =>
    obtain ⟨calls, run, hcalls, hrun, hrecorded⟩ :=
      job.library.exists_expandCalls job.settings.maxDepth tree (job.session.start allocated)
    have hexpand : job.session.expand allocated tree = some (run.1, run.2.context.allocated) :=
      Session.expand_of_run hrun
    exact ⟨calls, _, hcalls, congrArg (·.map (·.2)) hexpand, hrecorded⟩
  | trace tree =>
    obtain ⟨calls, run, hcalls, hrun, hrecorded⟩ :=
      job.library.exists_expandCalls job.settings.maxDepth tree
        (.initial job.settings.mainModule allocated true)
    have htraced : job.session.expandTraced allocated tree =
        some (run.1.map (·, run.2.replacements), run.2.context.allocated) :=
      Session.expandTraced_of_run hrun
    exact ⟨calls, _, hcalls, congrArg (·.map (·.2)) htraced, hrecorded⟩
  | expandAll trees =>
    obtain ⟨calls, results, after, hcalls, hall, hrecorded⟩ :=
      job.exists_expandAllCalls allocated trees
    exact ⟨calls, after, hcalls, congrArg (·.map (·.2)) hall, hrecorded⟩
  | expander trees =>
    obtain ⟨calls, run, hcalls, heach, hrecorded⟩ :=
      job.library.exists_eachCalls job.settings.maxDepth trees (job.session.start allocated)
    exact ⟨calls, _, hcalls, congrArg (·.map (·.2.context.allocated)) heach, hrecorded⟩
  | step progress count =>
    exact ⟨_, _, rfl, rfl, job.recorded_stepsCalls count progress (job.session.start allocated)⟩

/-- The counter after some jobs, one after the other. -/
def afterAll : List Job → Nat → Option Nat
  | [], allocated => some allocated
  | job :: jobs, allocated => do afterAll jobs (← job.after allocated)

/-- The calls of some jobs, in order. -/
def callsOf : List Job → Nat → Option (List Call)
  | [], _ => some []
  | job :: jobs, allocated => do
    let calls ← job.calls allocated
    return calls ++ (← callsOf jobs (← job.after allocated))

theorem exists_callsOf (jobs : List Job) (allocated : Nat) :
    ∃ calls after, callsOf jobs allocated = some calls ∧ afterAll jobs allocated = some after ∧
      Call.Recorded allocated calls after := by
  induction jobs generalizing allocated with
  | nil => exact ⟨[], allocated, rfl, rfl, .nil _⟩
  | cons job jobs ih =>
    obtain ⟨calls, between, hcalls, hbetween, hrecorded⟩ := job.exists_calls allocated
    obtain ⟨later, after, hlater, hafter, hrecorded'⟩ := ih between
    refine ⟨calls ++ later, after, ?_, ?_, hrecorded.append hrecorded'⟩
    · rw [callsOf, hcalls, hbetween]
      simp only [Option.bind_eq_bind, Option.bind_some, hlater]
      rfl
    · rw [afterAll, hbetween]
      exact hafter

/-- Every run of jobs ends.  If the counter has not gone past the last scope by then, the scopes
under which handlers are called increase along the run, and no two activations of the run make the
same identifier.  The activations are those of all scopes handed out, and what a call returns is
made by them unless it is in the tree or in the text of the macro. -/
theorem scopes_distinct (jobs : List Job) (allocated : Nat) :
    ∃ calls after, callsOf jobs allocated = some calls ∧ afterAll jobs allocated = some after ∧
      (after < UInt64.size →
        (calls.map Call.scope).Pairwise (· < ·) ∧
        (calls.flatMap Call.activations).Pairwise
          (fun a b => ∀ x ∈ a.idents, ∀ y ∈ b.idents, x ≠ y) ∧
        (calls.flatMap Call.activations).map (·.scope.toNat) =
          List.range' (allocated + 1) (after - allocated) ∧
        ∀ call ∈ calls, ∀ output, call.result.1 = .ok (.replaced output) →
          ∀ name ∈ output.idents, name ∈ call.tree.idents ∨ name ∈ call.callee.literals ∨
            ∃ a ∈ call.activations, name ∈ a.idents) := by
  obtain ⟨calls, after, hcalls, hafter, hrecorded⟩ := exists_callsOf jobs allocated
  refine ⟨calls, after, hcalls, hafter, fun hlt => ?_⟩
  have hopened : Opened allocated (calls.flatMap Call.activations) after := hrecorded
  have hscopes := hopened.pairwise_scope hlt
  refine ⟨?_, ?_, hopened.map_toNat_scope hlt, fun call _ output => Macro.mem_idents_of_call⟩
  · exact (List.pairwise_map.2 hscopes).sublist (Call.sublist_map_scope _)
  · refine hscopes.imp_of_mem fun {a b} ha hb hab => ?_
    exact (hopened.stamped a ha).ne_of_scope_ne (hopened.stamped b hb) (UInt64.ne_of_lt hab)

/-- Rules with an identifier of their own, `tmp`. -/
def binder : RuleSet where
  name := "binder"
  kind := "bind"
  rules := [⟨.node "bind" [] none, .template (.node "let" [.leaf (.ident "tmp") none] none)⟩]
  nonempty := by decide
  checked := by rfl

/-- Macros that make `tmp` in their own scope or in one inside of it, that decline, and that fail
inside of a scope. -/
def shelf : Library where
  entries := [("twin", .script "idle" .decline),
    ("twin", .script "twin" (.fresh (.twice "tmp" "pair"))),
    ("stop", .script "stop" (.fresh (.fail "no"))), ("bind", .rules binder)]
  sharing _ _ _ := false

/-- Two sessions take turns, and a tree of the first one fails. -/
def turns : List Job :=
  let twin : Tree := .node "twin" [] none
  let bind : Tree := .node "bind" [] none
  let stop : Tree := .node "stop" [] none
  [⟨⟨"Main", 1, false⟩, shelf, .expandAll [.node "block" [twin, stop, twin] none, bind]⟩,
    ⟨⟨"Lib", 1, true⟩, shelf, .step (.pending twin) 2⟩,
    ⟨⟨"Main", 1, false⟩, shelf, .trace bind⟩]

theorem scopes_distinct_turns :
    ∃ calls, callsOf turns 0 = some calls ∧ afterAll turns 0 = some 10 ∧
      calls.map Call.scope = [1, 2, 4, 6, 7, 8, 10] ∧
      calls.flatMap Call.activations =
        [⟨1, []⟩, ⟨2, []⟩, ⟨3, ["tmp._@.Main._hyg.3"]⟩, ⟨4, []⟩, ⟨5, []⟩,
          ⟨6, ["tmp._@.Main._hyg.6"]⟩, ⟨7, []⟩, ⟨8, []⟩, ⟨9, ["tmp._@.Lib._hyg.9"]⟩,
          ⟨10, ["tmp._@.Main._hyg.10"]⟩] ∧
      (calls.map Call.scope).Pairwise (· < ·) ∧
      (calls.flatMap Call.activations).Pairwise
        (fun a b => ∀ x ∈ a.idents, ∀ y ∈ b.idents, x ≠ y) := by
  obtain ⟨listed, hlisted, hscopes, hactivations⟩ : ∃ calls, callsOf turns 0 = some calls ∧
      calls.map Call.scope = [1, 2, 4, 6, 7, 8, 10] ∧
      calls.flatMap Call.activations =
        [⟨1, []⟩, ⟨2, []⟩, ⟨3, ["tmp._@.Main._hyg.3"]⟩, ⟨4, []⟩, ⟨5, []⟩,
          ⟨6, ["tmp._@.Main._hyg.6"]⟩, ⟨7, []⟩, ⟨8, []⟩, ⟨9, ["tmp._@.Lib._hyg.9"]⟩,
          ⟨10, ["tmp._@.Main._hyg.10"]⟩] := ⟨_, by cbv, by cbv, by cbv⟩
  have hten : afterAll turns 0 = some 10 := by cbv
  obtain ⟨calls, after, hcalls, hafter, hspec⟩ := scopes_distinct turns 0
  obtain rfl := Option.some.inj (hlisted.symm.trans hcalls)
  obtain rfl := Option.some.inj (hten.symm.trans hafter)
  obtain ⟨hincreasing, hdistinct, -⟩ := hspec (by decide)
  exact ⟨listed, hlisted, hten, hscopes, hactivations, hincreasing, hdistinct⟩

end Job

end MacroExpansion
