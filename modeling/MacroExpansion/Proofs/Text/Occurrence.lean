import Mathlib.Data.List.Infix
import MacroExpansion.Text.Split

/-!
# First and last occurrences

`occurs` decides whether one text is an infix of another.  `splitFirst?` and `splitLast?` cut a
text exactly where the separator occurs first and last: the piece before a first occurrence,
followed by all of the separator but its last character, holds no separator
(`splitFirst?_eq_some_iff`), and so on the other side for a last occurrence
(`splitLast?_eq_some_iff`).
-/

namespace MacroExpansion.Text

variable {separator text before after : List Char}

theorem occurs_iff (pattern text : List Char) : occurs pattern text = true ↔ pattern <:+: text := by
  induction text with
  | nil => simp [occurs]
  | cons c cs ih =>
    rw [occurs, Bool.or_eq_true, List.isPrefixOf_iff_prefix, ih, List.infix_cons_iff]

/-! ## The first occurrence -/

theorem not_infix_dropLast (h : separator ≠ []) : ¬ separator <:+: separator.dropLast := by
  intro hi
  have hle := hi.length_le
  have hpos := List.length_pos_iff.2 h
  rw [List.length_dropLast] at hle
  omega

/-- A separator at the front of a text whose first occurrence is recorded further on would be an
earlier occurrence. -/
theorem infix_append_dropLast {c : Char}
    (h : separator <+: c :: before ++ separator ++ after) :
    separator <:+: c :: before ++ separator.dropLast := by
  have hs : separator.dropLast <+: separator := separator.dropLast_prefix
  have hp : c :: before ++ separator.dropLast <+: c :: before ++ separator ++ after :=
    ((List.prefix_append_right_inj _).2 hs).trans (List.prefix_append _ _)
  refine (List.prefix_of_prefix_length_le h hp ?_).isInfix
  rw [List.length_append, List.length_cons, List.length_dropLast]
  omega

theorem splitFirst?_eq_some_iff (h : separator ≠ []) :
    splitFirst? separator text = some (before, after) ↔
      text = before ++ separator ++ after ∧ ¬ separator <:+: before ++ separator.dropLast := by
  induction text generalizing before with
  | nil =>
    rw [splitFirst?]
    refine iff_of_false (by simp) ?_
    rintro ⟨e, -⟩
    simp [h] at e
  | cons c cs ih =>
    rw [splitFirst?]
    split
    case h_1 rest hrest =>
      rw [List.isPrefixOf?_eq_some_iff_append_eq] at hrest
      constructor
      · intro e
        obtain ⟨rfl, rfl⟩ := Prod.mk.inj (Option.some.inj e)
        exact ⟨hrest.symm, not_infix_dropLast h⟩
      · rintro ⟨e, hno⟩
        cases before with
        | nil =>
          rw [← hrest, List.nil_append] at e
          rw [List.append_cancel_left e]
        | cons b before =>
          have hp : separator <+: b :: before ++ separator ++ after := ⟨rest, hrest.trans e⟩
          exact absurd (infix_append_dropLast hp) hno
    case h_2 hnone =>
      have hprefix : ¬ separator <+: c :: cs := by
        rintro ⟨rest, hrest⟩
        rw [List.isPrefixOf?_eq_some_iff_append_eq.2 hrest] at hnone
        cases hnone
      rw [Option.map_eq_some_iff]
      constructor
      · rintro ⟨⟨b, a⟩, hba, e⟩
        obtain ⟨rfl, rfl⟩ := Prod.mk.inj e
        obtain ⟨rfl, hno⟩ := ih.1 hba
        refine ⟨rfl, fun hi => ?_⟩
        rcases List.infix_cons_iff.1 hi with hp | hi
        · have hs : separator.dropLast <+: separator ++ a :=
            separator.dropLast_prefix.trans (List.prefix_append _ _)
          have hcs : c :: b ++ separator.dropLast <+: c :: b ++ (separator ++ a) :=
            (List.prefix_append_right_inj _).2 hs
          rw [← List.append_assoc] at hcs
          exact hprefix (hp.trans hcs)
        · exact hno hi
      · rintro ⟨e, hno⟩
        cases before with
        | nil => exact absurd ⟨after, e.symm⟩ hprefix
        | cons b before =>
          obtain ⟨rfl, hcs⟩ := List.cons.inj e
          refine ⟨(before, after), ih.2 ⟨hcs, fun hi => hno ?_⟩, rfl⟩
          exact List.infix_cons_iff.2 (.inr hi)

/-! ## The last occurrence -/

theorem splitLast?_eq_none_iff (h : separator ≠ []) :
    splitLast? separator text = none ↔ ¬ separator <:+: text := by
  induction text with
  | nil => simp [splitLast?, h]
  | cons c cs ih =>
    rw [splitLast?, List.infix_cons_iff, not_or, ← ih]
    split
    case h_1 hsome => simp [hsome]
    case h_2 hnone =>
      rw [hnone, Option.map_eq_none_iff, and_iff_left rfl, ← Option.not_isSome_iff_eq_none,
        List.isSome_isPrefixOf?_eq_isPrefixOf, List.isPrefixOf_iff_prefix]

theorem splitLast?_eq_some_iff (h : separator ≠ []) :
    splitLast? separator text = some (before, after) ↔
      text = before ++ separator ++ after ∧ ¬ separator <:+: separator.tail ++ after := by
  induction text generalizing before after with
  | nil =>
    rw [splitLast?]
    refine iff_of_false (by simp) ?_
    rintro ⟨e, -⟩
    simp [h] at e
  | cons c cs ih =>
    obtain ⟨d, ds, rfl⟩ := List.exists_cons_of_ne_nil h
    rw [splitLast?]
    split
    case h_1 b a hba =>
      obtain ⟨hcs, hno⟩ := ih.1 hba
      constructor
      · intro e
        obtain ⟨rfl, rfl⟩ := Prod.mk.inj (Option.some.inj e)
        exact ⟨congrArg (c :: ·) hcs, hno⟩
      · rintro ⟨e, hno'⟩
        cases before with
        | nil =>
          -- The later occurrence in `cs` would lie inside the end of this one.
          obtain ⟨rfl, hds⟩ := List.cons.inj e
          have hi : c :: ds <:+: ds ++ after := by
            rw [← List.append_eq, ← hds, hcs]
            exact List.infix_append _ _ _
          exact absurd hi hno'
        | cons b' before =>
          obtain ⟨rfl, hcs'⟩ := List.cons.inj e
          have hsome := ih.2 ⟨hcs', hno'⟩
          rw [hba] at hsome
          obtain ⟨rfl, rfl⟩ := Prod.mk.inj (Option.some.inj hsome)
          rfl
    case h_2 hnone =>
      have hcs := (splitLast?_eq_none_iff h).1 hnone
      rw [Option.map_eq_some_iff]
      constructor
      · rintro ⟨rest, hrest, e⟩
        obtain ⟨rfl, rfl⟩ := Prod.mk.inj e
        rw [List.isPrefixOf?_eq_some_iff_append_eq] at hrest
        obtain ⟨rfl, rfl⟩ := List.cons.inj hrest
        exact ⟨rfl, hcs⟩
      · rintro ⟨e, -⟩
        cases before with
        | nil => exact ⟨after, List.isPrefixOf?_eq_some_iff_append_eq.2 e.symm, rfl⟩
        | cons b before =>
          obtain ⟨rfl, rfl⟩ := List.cons.inj e
          exact absurd (List.infix_append _ _ _) hcs

end MacroExpansion.Text
