import MacroExpansion.Proofs.Expansion.Reach
import MacroExpansion.Proofs.Handler.Activations

/-!
# Programs

A program is a computation written down in the operations of the context.  It asks for something,
runs a body in a scope of its own or under a tree, and goes on with what comes of that, a failure
of the body included.  In the end it gives a value or fails.

The scopes that are active increase from the outermost to the innermost, and all of them have been
handed out.  Whatever a program does, this remains so (`orderly_of_mem_moments`), each scope is
popped where it was pushed (`scope?_of_pops`), and both stacks are in the end what they were at the
beginning (`balanced_run`).
-/

namespace MacroExpansion

/-- What a program can ask the context for. -/
inductive Query : Type → Type
  /-- What is active. -/
  | look : Query Context
  | quote (template : Tree) (bindings : Bindings) : Query (Except Report Tree)
  | freshIdent (base : String) : Query (Except Report Tree)
  /-- A complaint about the tree being worked on. -/
  | complain (text : String) : Query Report
  | complainAt (tree : Tree) (text : String) : Query Report

/-- What the context answers. -/
def Query.answer {β : Type} : Query β → Context → β
  | look, cx => cx
  | quote template bindings, cx => cx.fill template bindings
  | freshIdent base, cx => cx.freshIdent base
  | complain text, cx => cx.complain (.stated text)
  | complainAt tree text, cx => cx.complainAt tree (.stated text)

/-- A computation of a macro.  What comes next may depend on what has come of the operations before,
and a body that fails does so for itself alone. -/
inductive Program : Type → Type 1
  | give {α : Type} (value : α) : Program α
  | fail {α : Type} (report : Report) : Program α
  | ask {α β : Type} (query : Query β) (next : β → Program α) : Program α
  /-- Runs a body in a scope of its own. -/
  | fresh {α β : Type} (body : Program β) (next : Except Report β → Program α) : Program α
  /-- Runs a body with a tree as the one being worked on. -/
  | under {α β : Type} (tree : Tree) (body : Program β) (next : Except Report β → Program α) :
      Program α

/-! ## Contexts -/

namespace Context

/-- The context without its innermost scope. -/
def outOfScope (cx : Context) : Context := { cx with scopes := cx.scopes.tail }

/-- The context without the tree being worked on. -/
def fromBeneath (cx : Context) : Context := { cx with refs := cx.refs.tail }

/-- The active scopes increase from the outermost to the innermost, and have been handed out. -/
structure Orderly (cx : Context) : Prop where
  increasing : cx.scopes.Pairwise fun inner outer => outer < inner
  allocated : ∀ scope ∈ cx.scopes, scope.toNat ≤ cx.allocated

variable {cx cx' : Context}

theorem Reaches.outOfScope (h : cx.inScope.Reaches cx') : cx.Reaches cx'.outOfScope where
  mainModule := h.mainModule
  scopes := congrArg List.tail h.scopes
  refs := h.refs
  allocated := Nat.le_of_succ_le h.allocated

theorem Reaches.fromBeneath {tree : Tree} (h : (cx.beneath tree).Reaches cx') :
    cx.Reaches cx'.fromBeneath where
  mainModule := h.mainModule
  scopes := h.scopes
  refs := congrArg List.tail h.refs
  allocated := h.allocated

namespace Orderly

theorem reaches (h : cx.Orderly) (hreaches : cx.Reaches cx') : cx'.Orderly where
  increasing := hreaches.scopes ▸ h.increasing
  allocated scope hscope :=
    (h.allocated scope (hreaches.scopes ▸ hscope)).trans hreaches.allocated

theorem beneath (h : cx.Orderly) (tree : Tree) : (cx.beneath tree).Orderly :=
  ⟨h.increasing, h.allocated⟩

/-- A scope that is handed out comes after all that were handed out before. -/
theorem inScope (h : cx.Orderly) (hlt : cx.allocated + 1 < UInt64.size) :
    cx.inScope.Orderly where
  increasing := by
    refine List.pairwise_cons.2 ⟨fun scope hscope => ?_, h.increasing⟩
    rw [UInt64.lt_iff_toNat_lt, Scope.toNat_next hlt]
    exact Nat.lt_succ_of_le (h.allocated scope hscope)
  allocated := by
    refine List.forall_mem_cons.2 ⟨(Scope.toNat_next hlt).le, fun scope hscope => ?_⟩
    exact (h.allocated scope hscope).trans (Nat.le_succ _)

end Orderly

end Context

/-! ## Running -/

/-- A moment of a run. -/
inductive Moment where
  | reached (cx : Context)
  /-- A body ends in this context, and with it the scope that was pushed for the body. -/
  | pops (pushed : Scope) (cx : Context)

namespace Program

/-- Runs a program. -/
def run {α : Type} : Program α → HandlerM α
  | give value => .ofContext fun _ => .ok value
  | fail report => .ofContext fun _ => .error report
  | ask query next => ExceptT.mk fun cx => (next (query.answer cx)).run.run cx
  | fresh body next => ExceptT.mk fun cx =>
    let (result, cx) := Context.inFreshScope body.run.run cx
    (next result).run.run cx
  | under tree body next => ExceptT.mk fun cx =>
    let (result, cx) := Context.under tree body.run.run cx
    (next result).run.run cx

/-- The moments of a run, in order. -/
def moments {α : Type} : Program α → Context → List Moment
  | give _, cx => [.reached cx]
  | fail _, cx => [.reached cx]
  | ask query next, cx => .reached cx :: (next (query.answer cx)).moments cx
  | fresh body next, cx =>
    let inside := body.run.run cx.inScope
    .reached cx :: .reached (Context.allocate cx).2 ::
      (body.moments cx.inScope ++
        .pops (Scope.next cx.allocated) inside.2 :: (next inside.1).moments inside.2.outOfScope)
  | under tree body next, cx =>
    let inside := body.run.run (cx.beneath tree)
    .reached cx ::
      (body.moments (cx.beneath tree) ++ (next inside.1).moments inside.2.fromBeneath)

variable {α : Type}

theorem reaches_run (p : Program α) (cx : Context) : cx.Reaches (p.run.run cx).2 := by
  induction p generalizing cx with
  | give => exact .refl cx
  | fail => exact .refl cx
  | ask query next ih => exact ih _ cx
  | fresh body next ihBody ihNext => exact (ihBody cx.inScope).outOfScope.trans (ihNext _ _)
  | under tree body next ihBody ihNext =>
    exact (ihBody (cx.beneath tree)).fromBeneath.trans (ihNext _ _)

/-- A program leaves the stacks as they were, whether it fails or not. -/
theorem balanced_run (p : Program α) : Context.Balanced p.run.run where
  mainModule cx := (p.reaches_run cx).mainModule
  scopes cx := (p.reaches_run cx).scopes
  refs cx := (p.reaches_run cx).refs
  allocated cx := (p.reaches_run cx).allocated

/-- A run begins with the context that it is given. -/
theorem head?_moments (p : Program α) (cx : Context) :
    (p.moments cx).head? = some (.reached cx) := by
  cases p <;> rfl

/-- A run ends with the context that it returns. -/
theorem getLast?_moments (p : Program α) (cx : Context) :
    (p.moments cx).getLast? = some (.reached (p.run.run cx).2) := by
  induction p generalizing cx with
  | give => rfl
  | fail => rfl
  | ask query next ih =>
    rw [moments, List.getLast?_cons, ih]
    rfl
  | fresh body next ihBody ihNext =>
    simp only [moments, List.getLast?_cons, List.getLast?_append, ihNext]
    rfl
  | under tree body next ihBody ihNext =>
    simp only [moments, List.getLast?_cons, List.getLast?_append, ihNext]
    rfl

/-- The scope that is popped when a body ends is the one that was pushed for it. -/
theorem scope?_of_pops {p : Program α} {cx cx' : Context} {pushed : Scope}
    (h : .pops pushed cx' ∈ p.moments cx) : cx'.scope? = some pushed := by
  induction p generalizing cx with
  | give => cases List.mem_singleton.1 h
  | fail => cases List.mem_singleton.1 h
  | ask query next ih =>
    rw [moments, List.mem_cons] at h
    exact ih _ (h.resolve_left nofun)
  | fresh body next ihBody ihNext =>
    simp only [moments, List.mem_cons, List.mem_append] at h
    obtain ⟨⟨⟩⟩ | ⟨⟨⟩⟩ | hbody | hpops | hnext := h
    · exact ihBody hbody
    · cases hpops
      exact congrArg List.head? (body.reaches_run cx.inScope).scopes
    · exact ihNext _ hnext
  | under tree body next ihBody ihNext =>
    simp only [moments, List.mem_cons, List.mem_append] at h
    obtain ⟨⟨⟩⟩ | hbody | hnext := h
    · exact ihBody hbody
    · exact ihNext _ hnext

/-- The scopes remain orderly as long as the counter does not go past the last of them. -/
theorem orderly_of_mem_moments {p : Program α} {cx cx' : Context}
    (hcx : cx.allocated < UInt64.size → cx.Orderly) (h : .reached cx' ∈ p.moments cx)
    (hlt : cx'.allocated < UInt64.size) : cx'.Orderly := by
  induction p generalizing cx with
  | give =>
    cases List.mem_singleton.1 h
    exact hcx hlt
  | fail =>
    cases List.mem_singleton.1 h
    exact hcx hlt
  | ask query next ih =>
    rw [moments, List.mem_cons] at h
    obtain ⟨⟨⟩⟩ | hnext := h
    · exact hcx hlt
    · exact ih _ hcx hnext
  | fresh body next ihBody ihNext =>
    have hreaches := (body.reaches_run cx.inScope).outOfScope
    simp only [moments, List.mem_cons, List.mem_append] at h
    obtain ⟨⟨⟩⟩ | ⟨⟨⟩⟩ | hbody | ⟨⟨⟩⟩ | hnext := h
    · exact hcx hlt
    · exact (hcx (Nat.lt_of_succ_lt hlt)).reaches (Context.Balanced.allocate.reaches cx)
    · exact ihBody (fun hlt => (hcx (Nat.lt_of_succ_lt hlt)).inScope hlt) hbody
    · exact ihNext _ (fun hlt => (hcx (hreaches.allocated.trans_lt hlt)).reaches hreaches) hnext
  | under tree body next ihBody ihNext =>
    have hreaches := (body.reaches_run (cx.beneath tree)).fromBeneath
    simp only [moments, List.mem_cons, List.mem_append] at h
    obtain ⟨⟨⟩⟩ | hbody | hnext := h
    · exact hcx hlt
    · refine ihBody (fun hlt => ?_) hbody
      exact (hcx hlt).beneath tree
    · exact ihNext _ (fun hlt => (hcx (hreaches.allocated.trans_lt hlt)).reaches hreaches) hnext

/-- A macro whose computations are programs. -/
def handler (name : String) (p : Tree → Program Outcome) : Handler where
  name := name
  attempt tree := (p tree).run
  balanced tree := (p tree).balanced_run

end Program

/-! ## Expanders -/

/-- What an expander is asked for. -/
inductive Request where
  | expand (tree : Tree)
  | step (progress : Progress)

namespace Expander

/-- The state after a request, whether it failed or not. -/
def serve (e : Expander) (s : ExpanderState) : Request → Option ExpanderState
  | .expand tree => (e.expand tree s).map (·.2)
  | .step progress => some (e.registry.step progress s).2

/-- The state after requests in order. -/
def serveAll (e : Expander) (requests : List Request) (s : ExpanderState) : Option ExpanderState :=
  requests.foldlM e.serve s

variable {e : Expander} {s s' : ExpanderState}

theorem reaches_of_serve {request : Request} (h : e.serve s request = some s') :
    s.context.Reaches s'.context := by
  cases request with
  | expand tree =>
    obtain ⟨run, hrun, rfl⟩ := Option.map_eq_some_iff.1 h
    exact reaches_of_expand hrun
  | step progress =>
    cases h
    exact e.registry.reaches_step progress s

theorem reaches_of_serveAll {requests : List Request} (h : e.serveAll requests s = some s') :
    s.context.Reaches s'.context := by
  induction requests generalizing s with
  | nil =>
    cases h
    exact .refl _
  | cons request requests ih =>
    rw [serveAll, List.foldlM_cons] at h
    obtain ⟨s₁, hserve, hrest⟩ := Option.bind_eq_some_iff.1 h
    exact (reaches_of_serve hserve).trans (ih hrest)

end Expander

namespace Program

/-- Programs keep to the discipline of the stacks: the scopes are orderly all along, each of them is
popped where it was pushed, and in the end the stacks are what they were.  So programs are handlers,
and an expander has empty stacks between any two requests. -/
theorem run_restores_stacks :
    (∀ {α : Type} (p : Program α) (cx : Context),
      ((p.moments cx).head? = some (.reached cx) ∧
        (p.moments cx).getLast? = some (.reached (p.run.run cx).2)) ∧
      (cx.Orderly → ∀ cx', .reached cx' ∈ p.moments cx → cx'.allocated < UInt64.size →
        cx'.Orderly) ∧
      (∀ pushed cx', .pops pushed cx' ∈ p.moments cx → cx'.scope? = some pushed) ∧
      (p.run.run cx).2.scopes = cx.scopes ∧ (p.run.run cx).2.refs = cx.refs ∧
      cx.allocated ≤ (p.run.run cx).2.allocated) ∧
    (∀ name (p : Tree → Program Outcome),
      ∃ h : Handler, h.name = name ∧ ∀ tree, h.attempt tree = (p tree).run) ∧
    ∀ (e : Expander) mainModule allocated tracing (requests : List Request) s,
      e.serveAll requests (.initial mainModule allocated tracing) = some s →
      s.context.scopes = [] ∧ s.context.refs = [] := by
  refine ⟨fun p cx => ?_, fun name p => ?_, fun e mainModule allocated tracing requests s h => ?_⟩
  · have hreaches := p.reaches_run cx
    exact ⟨⟨p.head?_moments cx, p.getLast?_moments cx⟩,
      fun hcx cx' hmem hlt => orderly_of_mem_moments (fun _ => hcx) hmem hlt,
      fun pushed cx' hmem => scope?_of_pops hmem,
      hreaches.scopes, hreaches.refs, hreaches.allocated⟩
  · exact ⟨handler name p, rfl, fun tree => rfl⟩
  · have hreaches := Expander.reaches_of_serveAll h
    exact ⟨hreaches.scopes, hreaches.refs⟩

/-- Gives or fails as a body did. -/
def relay : Except Report Outcome → Program Outcome
  | .ok outcome => .give outcome
  | .error report => .fail report

/-- A program that fails two scopes deep under a tree, and declines the tree after that. -/
def recovering (tree : Tree) : Program Outcome :=
  let inner : Program Outcome := .ask (.complain "no") .fail
  .fresh (.under tree (.fresh inner relay) relay) fun _ => .give .declined

/-- An expander with a macro that recovers and one that fails. -/
def failing : Expander where
  registry := (Registry.empty.register "stop" ((Script.fail "no").handler "stop")).register "stop"
    (handler "recovering" recovering)
  limit := 1

/-- A node that both macros take. -/
def stop : Tree := .node "stop" [] none

theorem run_restores_stacks_recovering :
    ((recovering stop).run.run ⟨"Main", [5, 2], [], 7⟩ = (.ok .declined, ⟨"Main", [5, 2], [], 9⟩) ∧
      .reached ⟨"Main", [9, 8, 5, 2], [stop], 9⟩ ∈
        (recovering stop).moments ⟨"Main", [5, 2], [], 7⟩ ∧
      Context.Orderly ⟨"Main", [9, 8, 5, 2], [stop], 9⟩) ∧
    (failing.registry.step (.pending stop) (.initial "Main" 0 false)).1 =
      .failed (.of (.expansion (.stated "no"))) ∧
    ∃ s, failing.serveAll [.expand stop, .step (.pending stop)] (.initial "Main" 0 false) = some s ∧
      s.context.scopes = [] := by
  have hbefore : Context.Orderly ⟨"Main", [5, 2], [], 7⟩ := ⟨by decide, by simp⟩
  have hmoment : ((recovering stop).moments ⟨"Main", [5, 2], [], 7⟩)[5]? =
      some (.reached ⟨"Main", [9, 8, 5, 2], [stop], 9⟩) := rfl
  have hinside := List.mem_of_getElem? hmoment
  have hlt : 9 < UInt64.size := by decide
  have hstep : (failing.registry.step (.pending stop) (.initial "Main" 0 false)).1 =
      .failed (.of (.expansion (.stated "no"))) := by cbv
  obtain ⟨s, hserved⟩ : ∃ s, failing.serveAll [.expand stop, .step (.pending stop)]
      (.initial "Main" 0 false) = some s := ⟨_, by cbv⟩
  obtain ⟨hprogram, -, hexpander⟩ := run_restores_stacks
  obtain ⟨-, horderly, -⟩ := hprogram (recovering stop) ⟨"Main", [5, 2], [], 7⟩
  exact ⟨⟨rfl, hinside, horderly hbefore _ hinside hlt⟩, hstep, s, hserved,
    (hexpander failing "Main" 0 false _ s hserved).1⟩

end Program

end MacroExpansion
