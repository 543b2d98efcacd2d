import MacroExpansion.Proofs.Expansion.Simulation

/-!
# Spans and expansion

Expansion by rules does not look at spans.  Trees that are equal up to spans are expanded side by
side: the same rule sets replace the same parts under the same scopes, and the results are equal up
to spans again, or the failures are.
-/

namespace MacroExpansion

/-- Two runs in step that differ in spans alone. -/
def Simulation.upToSpans : Simulation where
  ident _ := Eq
  span _ _ := True
  Counts scopes a b := a = b ∧ ∀ p ∈ scopes, p.1 = p.2
  Fits _ _ := True
  Extra _ := False
  mono _ h := h
  lawful _ := Likeness.upToSpans_lawful
  decline h := ⟨congrArg (· + 1) h.1, h.2⟩
  replace := by
    rintro scopes a _ ⟨rfl, hscopes⟩ -
    exact ⟨rfl, List.forall_mem_append.2 ⟨hscopes, List.forall_mem_singleton.2 rfl⟩⟩
  stamp := by
    rintro scopes a _ ⟨rfl, -⟩ name mainModule
    cases ScopedName.stamp name mainModule (Scope.next a) with
    | ok stamped => exact .ok rfl
    | error fault => exact .error rfl
  fits_of_le _ _ _ := trivial
  extra_declines h := h.elim
  wait h := h.elim

namespace Expander

end Expander

end MacroExpansion
