import Mathlib.Data.List.Nodup
import Mathlib.Data.List.Perm.Basic

/-!
# Lists of keys and values

Where each key is listed once, looking a key up finds its entry, and does not depend on the order
of the list.
-/

namespace MacroExpansion.Association

variable {α β : Type} [BEq α] [LawfulBEq α] {entries entries' : List (α × β)}

theorem lookup_eq_some_iff_mem (h : (entries.map Prod.fst).Nodup) {key : α} {value : β} :
    entries.lookup key = some value ↔ (key, value) ∈ entries := by
  induction entries with
  | nil => simp
  | cons entry entries ih =>
    obtain ⟨k, v⟩ := entry
    obtain ⟨hfirst, hrest⟩ := List.nodup_cons.1 h
    rw [List.lookup_cons, List.mem_cons, Prod.mk.injEq]
    by_cases hkey : key = k
    · subst hkey
      have hnot : (key, value) ∉ entries := fun hmem =>
        hfirst (List.mem_map.2 ⟨_, hmem, rfl⟩)
      simp [hnot, eq_comm]
    · rw [beq_eq_false_iff_ne.2 hkey, or_iff_right (hkey ·.1)]
      exact ih hrest

theorem lookup_of_perm (h : (entries.map Prod.fst).Nodup) (hperm : entries.Perm entries')
    (key : α) : entries.lookup key = entries'.lookup key := by
  have h' : (entries'.map Prod.fst).Nodup := (hperm.map Prod.fst).nodup_iff.1 h
  apply Option.ext
  intro value
  rw [lookup_eq_some_iff_mem h, lookup_eq_some_iff_mem h', hperm.mem_iff]

end MacroExpansion.Association
