import MacroExpansion.Proofs.Name.History

/-!
# The scan of a name

`hasScopes` walks back over the bytes of a name and cuts the name where it stops.  A cut succeeds
exactly between two characters (`isSome_takeBytes?_iff`), and every offset that the walk passes is
one of those (`isValid_of_tailStart_le`), so that no cut ever fails.  What the walk tells of a name
is then exact, and agrees with what is read from it (`hasScopes_exact`).
-/

namespace MacroExpansion.ScopedName

/-! ## Cuts -/

/-- A cut within a name fails exactly if it goes through a character. -/
theorem isSome_takeBytes?_iff {name : String} {n : Nat} (h : n ≤ name.utf8ByteSize) :
    (takeBytes? name n).isSome = true ↔ String.Pos.Raw.IsValid name ⟨n⟩ := by
  have hle : (⟨n⟩ : String.Pos.Raw) ≤ name.rawEndPos := h
  rw [takeBytes?, String.fromUTF8?, String.Pos.Raw.isValid_iff_isValidUTF8_extract_zero,
    and_iff_right hle]
  split
  case isTrue hvalid => exact iff_of_true rfl hvalid
  case isFalse hvalid => exact iff_of_false (by simp) hvalid

namespace TailCut

variable {name : String} {front tail : List Char}

theorem utf8ByteSize_eq (h : TailCut name front tail) :
    name.utf8ByteSize = tailStart name + tail.length := by
  rw [← String.ofList_toList (s := name), utf8ByteSize_ofList, String.ofList_toList, h.name_eq,
    List.flatMap_append, flatMap_encode_of_tail h.tail_all, List.length_append, List.length_map,
    h.tailStart_eq]

/-- The characters of the tail are single bytes, so that all offsets in it are between two of
them. -/
theorem isValid (h : TailCut name front tail) {n : Nat} (hstart : tailStart name ≤ n)
    (hend : n ≤ name.utf8ByteSize) : String.Pos.Raw.IsValid name ⟨n⟩ := by
  obtain ⟨k, rfl⟩ := Nat.exists_eq_add_of_le hstart
  have hk : k ≤ tail.length := by
    rw [h.utf8ByteSize_eq] at hend
    omega
  rw [String.Pos.Raw.isValid_iff_exists_append]
  refine ⟨String.ofList (front ++ tail.take k), String.ofList (tail.drop k), ?_, ?_⟩
  · rw [← String.ofList_append, List.append_assoc, List.take_append_drop, ← h.name_eq,
      String.ofList_toList]
  · have htake : ∀ c ∈ tail.take k, isTailChar c = true := fun c hc =>
      h.tail_all c (List.mem_of_mem_take hc)
    have hsize : (String.ofList (front ++ tail.take k)).utf8ByteSize = tailStart name + k := by
      rw [utf8ByteSize_ofList, List.flatMap_append, flatMap_encode_of_tail htake,
        List.length_append, List.length_map, List.length_take_of_le hk, h.tailStart_eq]
    rw [← hsize]
    rfl

end TailCut

theorem tailStart_le (name : String) : tailStart name ≤ name.utf8ByteSize := by
  obtain ⟨front, tail, h⟩ := exists_tailCut name
  rw [h.utf8ByteSize_eq]
  omega

/-- Where the scan stops, and wherever it passes, a character begins or the name ends. -/
theorem isValid_of_tailStart_le {name : String} {n : Nat} (hstart : tailStart name ≤ n)
    (hend : n ≤ name.utf8ByteSize) : String.Pos.Raw.IsValid name ⟨n⟩ := by
  obtain ⟨front, tail, h⟩ := exists_tailCut name
  exact h.isValid hstart hend

/-! ## The verdict -/

/-- A name carries scopes exactly if it ends in the marker and a nonempty text of digits and dots
that ends in a digit. -/
theorem hasScopes_iff_append (name : String) :
    hasScopes name = true ↔ ∃ front tail : String, name = front ++ "._hyg." ++ tail ∧ tail ≠ "" ∧
      (∀ c ∈ tail.toList, c.isDigit = true ∨ c = '.') ∧
      ∃ last ∈ tail.toList.getLast?, last.isDigit = true := by
  have hmarker : "._hyg.".toList = marker := by decide
  rw [hasScopes_iff]
  constructor
  · rintro ⟨front, tail, last, hname, htail, hlast⟩
    have hlist : (String.ofList (tail ++ [last])).toList = tail ++ [last] := String.toList_ofList
    refine ⟨String.ofList front, String.ofList (tail ++ [last]), ?_, ?_, ?_, ?_⟩
    · apply String.toList_injective
      rw [hname, String.toList_append, String.toList_append, hmarker, String.toList_ofList, hlist,
        List.append_assoc _ tail]
    · intro hempty
      rw [hempty] at hlist
      simp at hlist
    · intro c hc
      rw [hlist, List.mem_append, List.mem_singleton] at hc
      rcases hc with hc | rfl
      · simpa [isTailChar] using htail c hc
      · exact .inl hlast
    · exact ⟨last, by simp, hlast⟩
  · rintro ⟨front, tail, rfl, -, htail, last, hlast, hdigit⟩
    obtain ⟨middle, hmiddle⟩ := List.getLast?_eq_some_iff.1 hlast
    refine ⟨front.toList, middle, last, ?_, ?_, hdigit⟩
    · rw [String.toList_append, String.toList_append, hmarker, hmiddle, List.append_assoc _ middle]
    · intro c hc
      simpa [isTailChar] using htail c (by simp [hmiddle, hc])

/-- The scan is exact, it cuts a name between two characters only, and what it tells agrees with
what is read from the name. -/
theorem hasScopes_exact (name : String) :
    (hasScopes name = true ↔ ∃ front tail : String, name = front ++ "._hyg." ++ tail ∧
      tail ≠ "" ∧ (∀ c ∈ tail.toList, c.isDigit = true ∨ c = '.') ∧
      ∃ last ∈ tail.toList.getLast?, last.isDigit = true) ∧
    (tailStart name ≤ name.utf8ByteSize ∧
      ∀ n, tailStart name ≤ n → n ≤ name.utf8ByteSize →
        String.Pos.Raw.IsValid name ⟨n⟩ ∧ (takeBytes? name n).isSome = true) ∧
    ∀ parts, decode name = .ok parts → hasScopes name = true ∧ eraseScopes name = parts.base := by
  refine ⟨hasScopes_iff_append name, ⟨tailStart_le name, fun n hstart hend => ?_⟩,
    fun parts hdecode => ?_⟩
  · have hvalid := isValid_of_tailStart_le hstart hend
    exact ⟨hvalid, (isSome_takeBytes?_iff hend).2 hvalid⟩
  · exact ⟨hasScopes_of_decode hdecode, eraseScopes_of_decode hdecode⟩

/-- A name that begins with a character of two bytes, and whose base ends like the marker. -/
theorem hasScopes_exact_accented :
    let name := "é._hyg._@.M._hyg.07"
    takeBytes? name 1 = none ∧ tailStart name = 17 ∧ (takeBytes? name 17).isSome = true ∧
      decode name = .ok ⟨"é._hyg", [], "M", [7]⟩ ∧ hasScopes name = true ∧
      eraseScopes name = "é._hyg" := by
  intro name
  have hdecode : decode name = .ok ⟨"é._hyg", [], "M", [7]⟩ := by cbv
  have hstart : tailStart name = 17 := by cbv
  obtain ⟨-, ⟨hend, hcut⟩, hread⟩ := hasScopes_exact name
  rw [hstart] at hend hcut
  exact ⟨by cbv, hstart, (hcut 17 (Nat.le_refl _) hend).2, hdecode, hread _ hdecode⟩

end MacroExpansion.ScopedName
