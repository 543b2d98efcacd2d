import Mathlib.Data.List.DropRight
import MacroExpansion.Name.Decode

/-!
# The tail of a name

`hasScopes` scans the bytes of a name backwards.  Since a byte of a digit or of a dot is never part
of a longer character, the scan stops between two characters (`takeBytes?_tailStart`), and its
verdict can be read off the characters: a name carries scopes exactly if it ends in the marker and
a text of digits and dots whose last character is a digit (`hasScopes_iff`).
-/

namespace MacroExpansion.ScopedName

/-- A digit or a dot. -/
def isTailChar (c : Char) : Bool := c.isDigit || c == '.'

/-! ## Bytes and characters -/

/-- What a byte array has left to list comes after what has been listed. -/
theorem toList_loop (bytes : ByteArray) (i : Nat) (listed : List UInt8) :
    ByteArray.toList.loop bytes i listed = listed.reverse ++ bytes.data.toList.drop i := by
  fun_induction ByteArray.toList.loop bytes i listed with
  | case1 i listed h ih =>
    have hget : bytes.get! i = bytes.data.toList.get ⟨i, h⟩ := getElem!_pos bytes.data i h
    rw [ih, hget, List.reverse_cons, List.append_assoc, List.singleton_append]
    exact congrArg _ (List.drop_eq_getElem_cons h).symm
  | case2 i listed h =>
    rw [List.drop_eq_nil_of_le (Nat.le_of_not_lt h), List.append_nil]

theorem toList_toUTF8 (name : String) :
    name.toUTF8.toList = name.toList.flatMap String.utf8EncodeChar := by
  rw [ByteArray.toList, toList_loop, String.toUTF8_eq_toByteArray, ← String.utf8Encode_toList,
    List.utf8Encode, List.toList_data_toByteArray]
  rfl

theorem utf8ByteSize_ofList (cs : List Char) :
    (String.ofList cs).utf8ByteSize = (cs.flatMap String.utf8EncodeChar).length := by
  rw [← String.size_toByteArray, String.toByteArray_ofList, List.utf8Encode,
    List.size_toByteArray]

theorem toNat_toUInt8 {c : Char} (h : c.utf8Size = 1) : c.toUInt8.toNat = c.toNat := by
  have hc : c.val.toNat ≤ 127 := UInt32.le_iff_toNat_le.1 (Char.utf8Size_eq_one_iff.1 h)
  rw [Char.toUInt8, UInt32.toNat_toUInt8, Nat.mod_eq_of_lt (by omega)]
  rfl

theorem isDigitByte_toUInt8 {c : Char} (h : c.utf8Size = 1) :
    isDigitByte c.toUInt8 = c.isDigit := by
  rw [Bool.eq_iff_iff, Char.isDigit_iff_toNat, isDigitByte, Bool.and_eq_true, decide_eq_true_iff,
    decide_eq_true_iff, UInt8.le_iff_toNat_le, UInt8.le_iff_toNat_le, toNat_toUInt8 h]
  rfl

theorem beq_dot_toUInt8 {c : Char} (h : c.utf8Size = 1) : (c.toUInt8 == 46) = (c == '.') := by
  rw [Bool.eq_iff_iff, beq_iff_eq, beq_iff_eq, ← UInt8.toNat_inj, toNat_toUInt8 h, ← Char.toNat_inj]
  rfl

theorem isTailByte_toUInt8 {c : Char} (h : c.utf8Size = 1) :
    isTailByte c.toUInt8 = isTailChar c := by
  rw [isTailByte, isTailChar, isDigitByte_toUInt8 h, beq_dot_toUInt8 h]

theorem utf8Size_of_isTailChar {c : Char} (h : isTailChar c = true) : c.utf8Size = 1 := by
  rw [isTailChar, Bool.or_eq_true, Char.isDigit_iff_toNat, beq_iff_eq] at h
  rw [Char.utf8Size_eq_one_iff, UInt32.le_iff_toNat_le]
  have hnine : '9'.toNat = 57 := rfl
  have hval : c.val.toNat = c.toNat := rfl
  rcases h with h | rfl
  · show c.val.toNat ≤ 127
    omega
  · decide

theorem isUTF8FirstByte_of_isTailByte {b : UInt8} (h : isTailByte b = true) :
    b.IsUTF8FirstByte := by
  have checked : ∀ n < 256,
      isTailByte (UInt8.ofNat n) = true → (UInt8.ofNat n).IsUTF8FirstByte := by
    decide +kernel
  have hb := checked b.toNat b.toNat_lt
  rw [UInt8.ofNat_toNat] at hb
  exact hb h

/-- The last byte of a character is a digit or a dot only if the character is. -/
theorem isTailByte_getLast_encode (c : Char) :
    isTailByte ((String.utf8EncodeChar c).getLast String.utf8EncodeChar_ne_nil) = isTailChar c := by
  by_cases h : c.utf8Size = 1
  · simp only [String.utf8EncodeChar_eq_singleton h, List.getLast_singleton]
    exact isTailByte_toUInt8 h
  · have hpos := c.utf8Size_pos
    have hc : isTailChar c = false := by
      by_contra hne
      exact h (utf8Size_of_isTailChar (Bool.not_eq_false _ ▸ hne))
    rw [hc, List.getLast_eq_getElem, Bool.eq_false_iff]
    intro hb
    have hfirst := isUTF8FirstByte_of_isTailByte hb
    rw [UInt8.isUTF8FirstByte_getElem_utf8EncodeChar, String.length_utf8EncodeChar] at hfirst
    omega

/-! ## Where the tail begins -/

/-- A name cut where the digits and dots at its end begin. -/
structure TailCut (name : String) (front tail : List Char) : Prop where
  name_eq : name.toList = front ++ tail
  tail_all : ∀ c ∈ tail, isTailChar c = true
  front_last : ∀ c ∈ front.getLast?, isTailChar c = false

theorem exists_tailCut (name : String) : ∃ front tail, TailCut name front tail := by
  refine ⟨name.toList.rdropWhile isTailChar, name.toList.rtakeWhile isTailChar, ?_, ?_, ?_⟩
  · exact List.rdropWhile_append_rtakeWhile.symm
  · intro c hc
    exact List.mem_rtakeWhile_imp hc
  · intro c hc
    obtain ⟨hne, rfl⟩ := List.mem_getLast?_eq_getLast hc
    exact Bool.eq_false_iff.2 (List.rdropWhile_last_not _ _ hne)

theorem flatMap_encode_of_tail {tail : List Char} (h : ∀ c ∈ tail, isTailChar c = true) :
    tail.flatMap String.utf8EncodeChar = tail.map fun c => c.toUInt8 := by
  induction tail with
  | nil => rfl
  | cons c cs ih =>
    have hc := utf8Size_of_isTailChar (h c List.mem_cons_self)
    rw [List.flatMap_cons, String.utf8EncodeChar_eq_singleton hc, List.map_cons,
      ih fun d hd => h d (List.mem_cons_of_mem _ hd)]
    rfl

theorem isTailByte_getLast?_front {front : List Char}
    (h : ∀ c ∈ front.getLast?, isTailChar c = false) :
    ∀ b ∈ (front.flatMap String.utf8EncodeChar).getLast?, isTailByte b = false := by
  rcases List.eq_nil_or_concat' front with rfl | ⟨cs, c, rfl⟩
  · simp
  · intro b hb
    rw [List.flatMap_append, List.flatMap_singleton, List.getLast?_append,
      List.getLast?_eq_some_getLast String.utf8EncodeChar_ne_nil, Option.some_or] at hb
    obtain rfl := Option.some.inj hb
    rw [isTailByte_getLast_encode]
    exact h c (by simp)

namespace TailCut

variable {name : String} {front tail : List Char}

theorem tailStart_eq (h : TailCut name front tail) :
    tailStart name = (front.flatMap String.utf8EncodeChar).length := by
  have hkeep : (front.flatMap String.utf8EncodeChar).reverse.dropWhile isTailByte =
      (front.flatMap String.utf8EncodeChar).reverse := by
    have hlast := isTailByte_getLast?_front h.front_last
    rw [← List.head?_reverse] at hlast
    cases hb : (front.flatMap String.utf8EncodeChar).reverse with
    | nil => rfl
    | cons b bs =>
      rw [hb] at hlast
      rw [List.dropWhile_cons_of_neg (by simp [hlast b rfl])]
  have hskip : ∀ b ∈ (tail.map fun c => c.toUInt8).reverse, isTailByte b = true := by
    intro b hb
    rw [List.mem_reverse, List.mem_map] at hb
    obtain ⟨c, hc, rfl⟩ := hb
    rw [isTailByte_toUInt8 (utf8Size_of_isTailChar (h.tail_all c hc))]
    exact h.tail_all c hc
  rw [tailStart, toList_toUTF8, h.name_eq, List.flatMap_append, flatMap_encode_of_tail h.tail_all,
    List.reverse_append, List.dropWhile_append_of_pos hskip, hkeep, List.length_reverse]

/-- The scan stops between two characters. -/
theorem takeBytes?_tailStart (h : TailCut name front tail) :
    takeBytes? name (tailStart name) = some (String.ofList front) := by
  have hsize : tailStart name = front.utf8Encode.size := by
    rw [h.tailStart_eq, List.utf8Encode, List.size_toByteArray]
  have hcut : name.toUTF8.extract 0 (tailStart name) = front.utf8Encode := by
    rw [String.toUTF8_eq_toByteArray, ← String.utf8Encode_toList, h.name_eq,
      List.utf8Encode_append, ByteArray.extract_append_eq_left hsize]
  rw [takeBytes?, hcut, String.fromUTF8?, dif_pos ByteArray.isValidUTF8_utf8Encode]
  rfl

theorem toList_toUTF8_eq (h : TailCut name front tail) :
    name.toUTF8.toList =
      front.flatMap String.utf8EncodeChar ++ tail.map fun c => c.toUInt8 := by
  rw [toList_toUTF8, h.name_eq, List.flatMap_append, flatMap_encode_of_tail h.tail_all]

theorem getElem?_tailStart (h : TailCut name front tail) :
    (name.toUTF8.toList[tailStart name]? == some 46) = (tail.head? == some '.') := by
  rw [h.tailStart_eq, h.toList_toUTF8_eq, List.getElem?_append_right le_rfl, Nat.sub_self,
    ← List.head?_eq_getElem?, List.head?_map]
  cases tail with
  | nil => rfl
  | cons c cs =>
    have hc := utf8Size_of_isTailChar (h.tail_all c List.mem_cons_self)
    exact beq_dot_toUInt8 hc

theorem any_isDigitByte_getLast? (h : TailCut name front tail) :
    name.toUTF8.toList.getLast?.any isDigitByte = tail.getLast?.any Char.isDigit := by
  rw [h.toList_toUTF8_eq, List.getLast?_append, List.getLast?_map]
  cases hd : tail.getLast? with
  | none =>
    rw [Option.map_none, Option.none_or, Option.any_none, Option.any_eq_false]
    intro b hb
    have hb' := isTailByte_getLast?_front h.front_last b hb
    rw [isTailByte, Bool.or_eq_false_iff] at hb'
    simp [hb'.1]
  | some d =>
    have hsize := utf8Size_of_isTailChar (h.tail_all d (List.mem_of_getLast? hd))
    exact isDigitByte_toUInt8 hsize

theorem hasScopes_eq (h : TailCut name front tail) :
    hasScopes name = (tail.getLast?.any Char.isDigit && tail.head? == some '.' &&
      markerStem.isSuffixOf front) := by
  have hunfold : hasScopes name = (name.toUTF8.toList.getLast?.any isDigitByte &&
      name.toUTF8.toList[tailStart name]? == some 46 &&
      (takeBytes? name (tailStart name)).any fun s => markerStem.isSuffixOf s.toList) := by
    rw [hasScopes]
    cases name.toUTF8.toList.getLast? with
    | none => rfl
    | some b =>
      cases takeBytes? name (tailStart name) with
      | none => rfl
      | some s => rfl
  rw [hunfold, h.any_isDigitByte_getLast?, h.getElem?_tailStart, h.takeBytes?_tailStart,
    Option.any_some, String.toList_ofList]

end TailCut

/-! ## Names that carry scopes -/

/-- A name carries scopes exactly if it ends in the marker and a text of digits and dots whose last
character is a digit. -/
theorem hasScopes_iff (name : String) :
    hasScopes name = true ↔ ∃ front tail last, name.toList = front ++ marker ++ tail ++ [last] ∧
      (∀ c ∈ tail, isTailChar c = true) ∧ last.isDigit = true := by
  constructor
  · intro hs
    obtain ⟨front, tail, h⟩ := exists_tailCut name
    rw [h.hasScopes_eq, Bool.and_eq_true, Bool.and_eq_true, Option.any_eq_true, beq_iff_eq,
      List.isSuffixOf_iff_suffix] at hs
    obtain ⟨⟨⟨last, hlast, hdigit⟩, hdot⟩, front', rfl⟩ := hs
    obtain ⟨rest, rfl⟩ := List.head?_eq_some_iff.1 hdot
    have hne : rest ≠ [] := by
      rintro rfl
      obtain rfl := Option.some.inj hlast
      exact absurd hdigit (by decide)
    obtain ⟨middle, last', rfl⟩ := (List.eq_nil_or_concat' rest).resolve_left hne
    rw [← List.cons_append, List.getLast?_concat] at hlast
    obtain rfl := Option.some.inj hlast
    refine ⟨front', middle, last', ?_, fun c hc => h.tail_all c (by simp [hc]), hdigit⟩
    rw [h.name_eq]
    simp [marker, markerStem]
  · rintro ⟨front, tail, last, hname, htail, hlast⟩
    have h : TailCut name (front ++ markerStem) ('.' :: (tail ++ [last])) := by
      refine ⟨?_, ?_, ?_⟩
      · rw [hname]
        simp [marker, markerStem]
      · intro c hc
        rw [List.mem_cons, List.mem_append, List.mem_singleton] at hc
        rcases hc with rfl | hc | rfl
        · rfl
        · exact htail c hc
        · rw [isTailChar, hlast, Bool.true_or]
      · intro c hc
        rw [List.getLast?_append_of_ne_nil _ (by decide)] at hc
        obtain rfl := Option.some.inj hc
        decide
    rw [h.hasScopes_eq, ← List.cons_append, List.getLast?_concat, Option.any_some, hlast,
      List.isSuffixOf_iff_suffix.2 (List.suffix_append _ _)]
    rfl

end MacroExpansion.ScopedName
