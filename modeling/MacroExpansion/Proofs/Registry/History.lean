import MacroExpansion.Proofs.Registry.Lookup

/-!
# The history of a registry

A registry is what a sequence of registrations makes of the empty one.  Some of them ask for a name
that is not taken in their kind, and are refused otherwise.  So the handlers of a kind are those of
its registrations that were not refused, the latest first (`lookup_performAll_empty`).
-/

namespace MacroExpansion

/-- A handler to be registered for a kind. -/
structure Registration where
  kind : String
  handler : Handler
  /-- Whether it is refused when its kind has a handler of that name. -/
  once : Bool

namespace Registration

/-- The handlers of a kind, the latest first, after one more registration for it. -/
def addTo (x : Registration) (handlers : List Handler) : List Handler :=
  if x.once ∧ x.handler.name ∈ handlers.map Handler.name then handlers else x.handler :: handlers

/-- The handlers, the latest first, that registrations leave to a kind; the earliest registration
comes first. -/
def handlersFor (kind : String) (xs : List Registration) : List Handler :=
  (xs.filter (·.kind = kind)).foldl (fun handlers x => x.addTo handlers) []

theorem mem_foldl_addTo {xs : List Registration} {handlers : List Handler} {h : Handler}
    (hmem : h ∈ xs.foldl (fun handlers x => x.addTo handlers) handlers) :
    h ∈ handlers ∨ ∃ x ∈ xs, x.handler = h := by
  induction xs generalizing handlers with
  | nil => exact .inl hmem
  | cons x xs ih =>
    rcases ih hmem with hfirst | ⟨y, hy, hhandler⟩
    · change h ∈ x.addTo handlers at hfirst
      rw [addTo] at hfirst
      split at hfirst
      case isTrue => exact .inl hfirst
      case isFalse =>
        rcases List.mem_cons.1 hfirst with rfl | hfirst
        · exact .inr ⟨x, List.mem_cons_self, rfl⟩
        · exact .inl hfirst
    · exact .inr ⟨y, List.mem_cons_of_mem _ hy, hhandler⟩

theorem exists_of_mem_handlersFor {kind : String} {xs : List Registration} {h : Handler}
    (hmem : h ∈ handlersFor kind xs) : ∃ x ∈ xs, x.handler = h := by
  obtain ⟨x, hx, hhandler⟩ := (mem_foldl_addTo hmem).resolve_left List.not_mem_nil
  exact ⟨x, (List.mem_filter.1 hx).1, hhandler⟩

end Registration

namespace Registry

/-- Performs a registration; one that is refused leaves the registry as it is. -/
def perform (r : Registry) (x : Registration) : Registry :=
  if x.once then
    match r.registerOnce x.kind x.handler with
    | .ok registered => registered
    | .error _ => r
  else r.register x.kind x.handler

/-- Performs registrations in order. -/
def performAll (r : Registry) (xs : List Registration) : Registry := xs.foldl perform r

variable {r : Registry}

/-- A registration is refused, or it puts its handler in front. -/
theorem perform_eq (r : Registry) (x : Registration) :
    r.perform x = if x.once ∧ x.handler.name ∈ (r.lookup x.kind).map Handler.name then r
      else r.register x.kind x.handler := by
  have htaken : (r.lookup x.kind).any (·.name == x.handler.name) = true ↔
      x.handler.name ∈ (r.lookup x.kind).map Handler.name := by
    simp [List.mem_map]
  rw [perform, registerOnce]
  by_cases honce : x.once = true
  · by_cases hname : x.handler.name ∈ (r.lookup x.kind).map Handler.name
    · rw [if_pos honce, if_pos (htaken.2 hname), if_pos ⟨honce, hname⟩]
    · rw [if_pos honce, if_neg (hname ∘ htaken.1), if_neg (hname ·.2)]
  · rw [if_neg honce, if_neg (honce ·.1)]

theorem Sorted.perform (h : r.Sorted) (x : Registration) : (r.perform x).Sorted := by
  rw [perform_eq]
  split
  case isTrue => exact h
  case isFalse => exact h.register x.kind x.handler

theorem lookup_perform (h : r.Sorted) (x : Registration) (kind : String) :
    (r.perform x).lookup kind =
      if x.kind = kind then x.addTo (r.lookup kind) else r.lookup kind := by
  rw [perform_eq, Registration.addTo]
  by_cases hkind : x.kind = kind
  · subst hkind
    rw [if_pos rfl]
    split
    case isTrue => rfl
    case isFalse => rw [lookup_register h, if_pos rfl]
  · rw [if_neg hkind]
    split
    case isTrue => rfl
    case isFalse => rw [lookup_register h, if_neg (Ne.symm hkind)]

theorem lookup_performAll (h : r.Sorted) (xs : List Registration) (kind : String) :
    (r.performAll xs).lookup kind =
      (xs.filter (·.kind = kind)).foldl (fun handlers x => x.addTo handlers) (r.lookup kind) := by
  induction xs generalizing r with
  | nil => rfl
  | cons x xs ih =>
    refine (ih (h.perform x)).trans ?_
    rw [lookup_perform h, List.filter_cons]
    by_cases hkind : x.kind = kind
    · rw [if_pos hkind, if_pos (decide_eq_true hkind), List.foldl_cons]
    · rw [if_neg hkind, if_neg (by simpa using hkind)]

/-- The handlers of a kind are those of its registrations. -/
theorem lookup_performAll_empty (xs : List Registration) (kind : String) :
    (empty.performAll xs).lookup kind = Registration.handlersFor kind xs := by
  have hsorted : empty.Sorted := List.Pairwise.nil
  exact lookup_performAll hsorted xs kind

end Registry

end MacroExpansion
