/-!
# Results that may fail

When a composed computation succeeds, so do its parts.  A computation yields a value with some
property, or it fails for a reason with some property.  Two computations agree when both succeed
with related values, or both fail for related reasons.
-/

namespace MacroExpansion

theorem bind_eq_ok_iff {ε α β : Type} {x : Except ε α} {f : α → Except ε β} {b : β} :
    x >>= f = .ok b ↔ ∃ a, x = .ok a ∧ f a = .ok b := by
  cases x with
  | error e => exact iff_of_false (fun h => by cases h) (fun ⟨_, h, _⟩ => by cases h)
  | ok a => exact ⟨fun h => ⟨a, rfl, h⟩, fun ⟨_, ha, h⟩ => Except.ok.inj ha ▸ h⟩

theorem map_eq_ok_iff {ε α β : Type} {x : Except ε α} {f : α → β} {b : β} :
    x.map f = .ok b ↔ ∃ a, x = .ok a ∧ f a = b := by
  cases x with
  | error e => exact iff_of_false (fun h => by cases h) (fun ⟨_, h, _⟩ => by cases h)
  | ok a =>
    constructor
    · intro h
      exact ⟨a, rfl, Except.ok.inj h⟩
    · rintro ⟨_, ha, rfl⟩
      cases ha
      rfl

/-- A result that has a value with a property, or none for a reason with a property. -/
inductive Yields {ε α : Type} (reason : ε → Prop) (value : α → Prop) : Except ε α → Prop
  | ok {a : α} : value a → Yields reason value (.ok a)
  | error {e : ε} : reason e → Yields reason value (.error e)

/-- Two results with related values, or without a value for related reasons. -/
inductive Agree {ε α : Type} (reason : ε → ε → Prop) (value : α → α → Prop) :
    Except ε α → Except ε α → Prop
  | ok {a a' : α} : value a a' → Agree reason value (.ok a) (.ok a')
  | error {e e' : ε} : reason e e' → Agree reason value (.error e) (.error e')

end MacroExpansion
