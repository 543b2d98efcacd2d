import MacroExpansion.Handler

/-!
# Registries

A registry holds the handlers of each kind, the latest first, so that a new handler is tried before
those registered earlier.  Kinds are kept in increasing order, and each of them has a handler.

Trees are values here, but a program that expands them shares objects, and looks at whether it got
back the very object that it started with.  Which object a handler gives back is up to the handler,
and the trees do not tell, so this is part of the registry (`sharing`).
-/

namespace MacroExpansion

/-- The handlers of each kind. -/
structure Registry where
  entries : List (String × List Handler)
  /-- Whether handlers that were called between two contexts, and came back to an equal tree, gave
  back the tree itself and not a copy. -/
  sharing : Context → Context → Tree → Bool

namespace Registry

/-- A registry without handlers, so that none gives anything back. -/
def empty : Registry := ⟨[], fun _ _ _ => false⟩

/-- Puts a handler in front of those of its kind. -/
def insertEntry (kind : String) (handler : Handler) :
    List (String × List Handler) → List (String × List Handler)
  | [] => [(kind, [handler])]
  | (k, handlers) :: rest =>
    if kind = k then (k, handler :: handlers) :: rest
    else if kind < k then (kind, [handler]) :: (k, handlers) :: rest
    else (k, handlers) :: insertEntry kind handler rest

/-- Registers a handler for a kind. -/
def register (r : Registry) (kind : String) (handler : Handler) : Registry :=
  { r with entries := insertEntry kind handler r.entries }

/-- The handlers for a kind, the latest first. -/
def lookup (r : Registry) (kind : String) : List Handler := (r.entries.lookup kind).getD []

/-- Registers a handler, unless its kind has one of that name. -/
def registerOnce (r : Registry) (kind : String) (handler : Handler) : Except Report Registry :=
  if (r.lookup kind).any (·.name == handler.name) then
    .error (.of (.registry (.alreadyRegistered handler.name kind)))
  else .ok (r.register kind handler)

def contains (r : Registry) (kind : String) : Bool := !(r.lookup kind).isEmpty

/-- The number of handlers. -/
def size (r : Registry) : Nat := (r.entries.flatMap (·.2)).length

def isEmpty (r : Registry) : Bool := r.entries.isEmpty

/-- The kinds that have a handler, in increasing order. -/
def kinds (r : Registry) : List String := r.entries.map (·.1)

end Registry

end MacroExpansion
