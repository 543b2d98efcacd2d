/-!
# Scopes

A scope is the number of one macro invocation.  Scopes are handed out in increasing order by a
counter that is shared by every expansion of a run, so that no two invocations get the same one.
-/

namespace MacroExpansion

/-- The number of one macro invocation. -/
abbrev Scope := UInt64

namespace Scope

/-- The scope handed out when `allocated` scopes have been handed out before.  After the last
machine word the numbers start again. -/
def next (allocated : Nat) : Scope := UInt64.ofNat (allocated + 1)

/-- The decimal digits of a scope. -/
def digits (s : Scope) : List Char := Nat.toDigits 10 s.toNat

/-- A scope as text. -/
def render (s : Scope) : String := String.ofList s.digits

/-- Scopes in order, with `separator` between them. -/
def joinDigits (separator : List Char) (scopes : List Scope) : List Char :=
  separator.intercalate (scopes.map digits)

end Scope

end MacroExpansion
