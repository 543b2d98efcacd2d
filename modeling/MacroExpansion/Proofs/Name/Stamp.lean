import MacroExpansion.Proofs.Name.RoundTrip

/-!
# Stamped names

Whatever a name was before, stamping it gives a name of the stamping module whose last scope is the
new one (`exists_decode_of_stamp`).  A valid module can stamp every name that has a valid base
(`exists_stamp_iff`).
-/

namespace MacroExpansion.ScopedName

theorem mainModule_addScope (n : ScopedName) (mainModule : String) (scope : Scope) :
    (n.addScope mainModule scope).mainModule = mainModule := by
  rw [addScope]
  split
  case isTrue h => exact h
  case isFalse => rfl

theorem getLast?_scopes_addScope (n : ScopedName) (mainModule : String) (scope : Scope) :
    (n.addScope mainModule scope).scopes.getLast? = some scope := by
  rw [addScope]
  split
  case isTrue => exact List.getLast?_concat
  case isFalse => rfl

/-- A stamped name is a written one: the old name with a scope more, or a plain name with its first
scope. -/
theorem stamp_eq_ok_iff {name mainModule stamped : String} {scope : Scope} :
    stamp name mainModule scope = .ok stamped ↔
      (hasScopes name = true ∧ ∃ n, decode name = .ok n ∧
        (n.addScope mainModule scope).encode = .ok stamped) ∨
      (hasScopes name = false ∧ encode ⟨name, [], mainModule, [scope]⟩ = .ok stamped) := by
  rw [stamp]
  cases hs : hasScopes name with
  | true =>
    rw [if_pos rfl, bind_eq_ok_iff]
    simp only [true_and, Bool.true_eq_false, false_and, or_false]
  | false =>
    rw [if_neg Bool.false_ne_true]
    simp only [Bool.false_eq_true, false_and, true_and, false_or]

theorem exists_decode_of_stamp {name mainModule stamped : String} {scope : Scope}
    (h : stamp name mainModule scope = .ok stamped) :
    ∃ n, decode stamped = .ok n ∧ n.mainModule = mainModule ∧ n.scopes.getLast? = some scope := by
  rcases stamp_eq_ok_iff.1 h with ⟨-, n, -, hencode⟩ | ⟨-, hencode⟩
  · exact ⟨_, decode_of_encode hencode, mainModule_addScope n _ _, getLast?_scopes_addScope n _ _⟩
  · exact ⟨_, decode_of_encode hencode, rfl, rfl⟩

/-! ## Names that can be stamped -/

/-- A scoped name that can be read and has a valid base, or a plain name that is a valid base. -/
def Stampable (name : String) : Prop :=
  (hasScopes name = true ∧ ∃ n, decode name = .ok n ∧ ValidBase n.base) ∨
    (hasScopes name = false ∧ ValidBase name)

theorem base_addScope (n : ScopedName) (mainModule : String) (scope : Scope) :
    (n.addScope mainModule scope).base = n.base := by
  rw [addScope]
  split
  case isTrue => rfl
  case isFalse => rfl

/-- Only its base can keep a name that was read from being written. -/
theorem wellFormed_of_decode {name : String} {n : ScopedName} (h : decode name = .ok n)
    (hbase : ValidBase n.base) : n.WellFormed := by
  obtain ⟨w, -, rfl⟩ := exists_spelling_of_decode h
  have hscopes : w.name.scopes ≠ [] := by simpa [Spelling.name] using w.numerals_ne_nil
  refine ⟨hbase, fun segment hsegment => ?_, w.valid, hscopes⟩
  obtain ⟨group, -, rfl⟩ := List.mem_map.1 hsegment
  exact ⟨group.valid, by simpa [Group.segment] using group.numerals_ne_nil⟩

theorem WellFormed.addScope {n : ScopedName} (h : n.WellFormed) {mainModule : String}
    (hmodule : ValidModule mainModule) (scope : Scope) :
    (n.addScope mainModule scope).WellFormed := by
  rw [ScopedName.addScope]
  split
  case isTrue => exact ⟨h.base, h.imported, h.mainModule, by simp⟩
  case isFalse =>
    refine ⟨h.base, List.forall_mem_append.2 ⟨h.imported, ?_⟩, hmodule, List.cons_ne_nil _ _⟩
    exact List.forall_mem_singleton.2 ⟨h.mainModule, h.scopes⟩

/-- Whether stamping succeeds does not depend on the scope, and on the module only in that it has to
be valid. -/
theorem exists_stamp_iff {name mainModule : String} {scope : Scope} :
    (∃ stamped, stamp name mainModule scope = .ok stamped) ↔
      ValidModule mainModule ∧ Stampable name := by
  constructor
  · rintro ⟨stamped, h⟩
    rcases stamp_eq_ok_iff.1 h with ⟨hscopes, n, hdecode, hencode⟩ | ⟨hscopes, hencode⟩
    · have hformed := wellFormed_of_encode hencode
      rw [← mainModule_addScope n mainModule scope]
      exact ⟨hformed.mainModule,
        .inl ⟨hscopes, n, hdecode, base_addScope n mainModule scope ▸ hformed.base⟩⟩
    · have hformed := wellFormed_of_encode hencode
      exact ⟨hformed.mainModule, .inr ⟨hscopes, hformed.base⟩⟩
  · rintro ⟨hmodule, ⟨hscopes, n, hdecode, hbase⟩ | ⟨hscopes, hbase⟩⟩
    · have hformed := (wellFormed_of_decode hdecode hbase).addScope hmodule scope
      obtain ⟨stamped, hencode⟩ := (exists_encode_iff _).2 hformed
      exact ⟨stamped, stamp_eq_ok_iff.2 (.inl ⟨hscopes, n, hdecode, hencode⟩)⟩
    · have hformed : WellFormed ⟨name, [], mainModule, [scope]⟩ :=
        ⟨hbase, fun _ h => absurd h List.not_mem_nil, hmodule, List.cons_ne_nil _ _⟩
      obtain ⟨stamped, hencode⟩ := (exists_encode_iff _).2 hformed
      exact ⟨stamped, stamp_eq_ok_iff.2 (.inr ⟨hscopes, hencode⟩)⟩

end MacroExpansion.ScopedName
