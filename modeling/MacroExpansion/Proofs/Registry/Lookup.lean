import MacroExpansion.Registry

/-!
# Looking handlers up

What is looked up after a registration is the new handler or was there before, so that a property
of all handlers of a registry is kept when a handler with that property is registered.  More
exactly, the new handler is in front of those of its kind, and the other kinds keep theirs
(`lookup_register`).
-/

namespace MacroExpansion.Registry

theorem mem_lookup_insertEntry {entries : List (String × List Handler)} {kind k : String}
    {handler h : Handler} (hmem : h ∈ ((insertEntry kind handler entries).lookup k).getD []) :
    h = handler ∨ h ∈ (entries.lookup k).getD [] := by
  induction entries with
  | nil =>
    rw [insertEntry, List.lookup_cons] at hmem
    split at hmem
    · exact .inl (List.mem_singleton.1 hmem)
    · exact .inr hmem
  | cons entry entries ih =>
    obtain ⟨k', handlers⟩ := entry
    rw [insertEntry] at hmem
    split at hmem
    · -- The kind is there: its entry grows by the new handler.
      rw [List.lookup_cons] at hmem ⊢
      split at hmem
      · exact List.mem_cons.1 hmem
      · exact .inr hmem
    · split at hmem
      · -- The kind comes first: its entry is new.
        rw [List.lookup_cons] at hmem
        split at hmem
        · exact .inl (List.mem_singleton.1 hmem)
        · exact .inr hmem
      · rw [List.lookup_cons] at hmem ⊢
        split at hmem
        · exact .inr hmem
        · exact ih hmem

theorem forall_mem_lookup_empty {P : Handler → Prop} (kind : String) :
    ∀ h ∈ empty.lookup kind, P h :=
  fun _ hmem => absurd hmem List.not_mem_nil

theorem forall_mem_lookup_register {P : Handler → Prop} {r : Registry} {kind : String}
    {handler : Handler} (h : ∀ k, ∀ h ∈ r.lookup k, P h) (hhandler : P handler) (k : String) :
    ∀ h ∈ (r.register kind handler).lookup k, P h := by
  intro h' hmem
  rcases mem_lookup_insertEntry hmem with rfl | hmem
  · exact hhandler
  · exact h k h' hmem

/-! ## Registering in front -/

/-- The kinds are in increasing order, each with one entry. -/
def Sorted (r : Registry) : Prop := r.entries.Pairwise fun x y => x.1 < y.1

theorem fst_of_mem_insertEntry {entries : List (String × List Handler)} {kind : String}
    {handler : Handler} {entry : String × List Handler}
    (h : entry ∈ insertEntry kind handler entries) :
    entry.1 = kind ∨ ∃ old ∈ entries, old.1 = entry.1 := by
  induction entries with
  | nil =>
    rw [insertEntry, List.mem_singleton] at h
    exact .inl (congrArg Prod.fst h)
  | cons old entries ih =>
    obtain ⟨k, handlers⟩ := old
    rw [insertEntry] at h
    split at h
    case isTrue hkind =>
      rcases List.mem_cons.1 h with rfl | h
      · exact .inl hkind.symm
      · exact .inr ⟨entry, List.mem_cons_of_mem _ h, rfl⟩
    case isFalse =>
      split at h
      case isTrue =>
        rcases List.mem_cons.1 h with rfl | h
        · exact .inl rfl
        · exact .inr ⟨entry, h, rfl⟩
      case isFalse =>
        rcases List.mem_cons.1 h with rfl | h
        · exact .inr ⟨_, List.mem_cons_self, rfl⟩
        · refine (ih h).imp_right ?_
          rintro ⟨old, hold, heq⟩
          exact ⟨old, List.mem_cons_of_mem _ hold, heq⟩

theorem Sorted.register {r : Registry} (h : r.Sorted) (kind : String) (handler : Handler) :
    (r.register kind handler).Sorted := by
  obtain ⟨entries⟩ := r
  change (insertEntry kind handler entries).Pairwise fun x y => x.1 < y.1
  replace h : entries.Pairwise fun x y => x.1 < y.1 := h
  induction entries with
  | nil => exact List.pairwise_singleton _ _
  | cons old entries ih =>
    obtain ⟨k, handlers⟩ := old
    obtain ⟨hfirst, hrest⟩ := List.pairwise_cons.1 h
    rw [insertEntry]
    split
    case isTrue => exact List.pairwise_cons.2 ⟨hfirst, hrest⟩
    case isFalse hne =>
      split
      case isTrue hlt =>
        refine List.pairwise_cons.2 ⟨List.forall_mem_cons.2 ⟨hlt, fun entry hentry => ?_⟩, h⟩
        exact String.lt_trans hlt (hfirst entry hentry)
      case isFalse hnlt =>
        have hlt : k < kind := Std.lt_of_le_of_ne (String.not_lt.1 hnlt) (Ne.symm hne)
        refine List.pairwise_cons.2 ⟨fun entry hentry => ?_, ih hrest⟩
        rcases fst_of_mem_insertEntry hentry with heq | ⟨old, hold, heq⟩
        · rwa [heq]
        · rw [← heq]
          exact hfirst old hold

theorem lookup_insertEntry_of_ne {k kind : String} (h : k ≠ kind) (handler : Handler)
    (entries : List (String × List Handler)) :
    (insertEntry kind handler entries).lookup k = entries.lookup k := by
  have hbeq : (k == kind) = false := beq_eq_false_iff_ne.2 h
  induction entries with
  | nil => rw [insertEntry, List.lookup_cons, hbeq]
  | cons old entries ih =>
    obtain ⟨k', handlers⟩ := old
    rw [insertEntry]
    split
    case isTrue heq =>
      subst heq
      rw [List.lookup_cons, List.lookup_cons, hbeq]
    case isFalse =>
      split
      case isTrue => rw [List.lookup_cons, hbeq]
      case isFalse => rw [List.lookup_cons, List.lookup_cons, ih]

theorem lookup_insertEntry_self {kind : String} (handler : Handler)
    {entries : List (String × List Handler)} (h : entries.Pairwise fun x y => x.1 < y.1) :
    ((insertEntry kind handler entries).lookup kind).getD [] =
      handler :: (entries.lookup kind).getD [] := by
  induction entries with
  | nil => simp [insertEntry]
  | cons old entries ih =>
    obtain ⟨k, handlers⟩ := old
    obtain ⟨hfirst, hrest⟩ := List.pairwise_cons.1 h
    rw [insertEntry]
    split
    case isTrue heq =>
      subst heq
      simp
    case isFalse hne =>
      split
      case isTrue hlt =>
        -- All kinds come after the new one, so that none of them is the same.
        have hnone : ((k, handlers) :: entries).lookup kind = none := by
          refine List.lookup_eq_none_iff.2 (List.forall_mem_cons.2 ⟨?_, fun entry hentry => ?_⟩)
          · exact bne_iff_ne.2 hne
          · rw [bne_iff_ne]
            rintro rfl
            exact String.lt_irrefl _ (String.lt_trans hlt (hfirst entry hentry))
        rw [hnone]
        simp
      case isFalse =>
        have hbeq : (kind == k) = false := beq_eq_false_iff_ne.2 hne
        rw [List.lookup_cons, List.lookup_cons, hbeq]
        exact ih hrest

/-- A new handler is in front of those of its kind. -/
theorem lookup_register {r : Registry} (h : r.Sorted) (kind k : String) (handler : Handler) :
    (r.register kind handler).lookup k =
      if k = kind then handler :: r.lookup k else r.lookup k := by
  split
  case isTrue heq =>
    subst heq
    exact lookup_insertEntry_self handler h
  case isFalse hne => exact congrArg (·.getD []) (lookup_insertEntry_of_ne hne handler r.entries)

end MacroExpansion.Registry
