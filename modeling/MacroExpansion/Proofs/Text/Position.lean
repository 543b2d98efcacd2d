import Mathlib.Data.List.DropRight
import MacroExpansion.Proofs.Name.Tail
import MacroExpansion.Text.Position

/-!
# Lines, columns and offsets

An offset counts bytes and may fall inside a character, while the lines of a text are lists of
characters.  The two meet in the bytes before the offset: the newlines among them number the lines
that have ended, and those lines take all of the bytes up to the last newline (`lineStart_count`).
What is left is the column, so that `offsetOf?` leads back to the offset (`offsetOf?_inverts`).

Lines and columns are machine words, and so is their sum before it is held to the length of the
text.  It does not wrap for the places of a text that fits into memory.
-/

namespace MacroExpansion.Text

/-- The byte of a newline. -/
def newline : UInt8 := 10

/-! ## Bytes -/

theorem byteLength_eq (text : List Char) :
    byteLength text = (text.flatMap String.utf8EncodeChar).length := by
  induction text with
  | nil => rfl
  | cons c cs ih => simp [byteLength, String.length_utf8EncodeChar, ih]

theorem byteLength_toList (source : String) : byteLength source.toList = source.utf8ByteSize := by
  rw [byteLength_eq, ← ScopedName.utf8ByteSize_ofList, String.ofList_toList]

theorem encode_newline : String.utf8EncodeChar '\n' = [newline] := rfl

/-- No other character has the byte of a newline in it: the bytes of a longer one are all at least
`128`. -/
theorem newline_notMem_encode {c : Char} (h : c ≠ '\n') : newline ∉ String.utf8EncodeChar c := by
  have hval : c.val.toNat ≠ 10 := fun e => h (Char.toNat_inj.1 e)
  simp only [String.utf8EncodeChar]
  split_ifs
  all_goals
    simp only [List.mem_cons, List.not_mem_nil, or_false, newline, ← UInt8.toNat_inj,
      UInt8.toNat_ofNat', UInt8.reduceToNat]
    omega

/-! ## Whole lines -/

/-- The lines that end among some bytes: all of the bytes up to the last newline. -/
def wholeLines (bytes : List UInt8) : List UInt8 := bytes.rdropWhile (· ≠ newline)

theorem length_wholeLines_add (bytes : List UInt8) :
    (wholeLines bytes).length + (bytes.rtakeWhile (· ≠ newline)).length = bytes.length := by
  rw [← List.length_append, wholeLines, List.rdropWhile_append_rtakeWhile]

theorem wholeLines_of_notMem {bytes : List UInt8} (h : newline ∉ bytes) :
    wholeLines bytes = [] := by
  rw [wholeLines, List.rdropWhile_eq_nil_iff]
  intro b hb
  simpa using ne_of_mem_of_not_mem hb h

theorem wholeLines_append_of_mem (front : List UInt8) {rest : List UInt8} (h : newline ∈ rest) :
    wholeLines (front ++ rest) = front ++ wholeLines rest := by
  unfold wholeLines List.rdropWhile
  rw [List.reverse_append, List.dropWhile_append, if_neg, List.reverse_append, List.reverse_reverse]
  simpa using h

theorem wholeLines_cons_newline (rest : List UInt8) :
    wholeLines (newline :: rest) = newline :: wholeLines rest := by
  by_cases h : newline ∈ rest
  · exact wholeLines_append_of_mem [newline] h
  · have hdrop : rest.reverse.dropWhile (· ≠ newline) = [] := by
      simpa [wholeLines, List.rdropWhile] using wholeLines_of_notMem h
    rw [wholeLines_of_notMem h, wholeLines, List.rdropWhile, List.reverse_cons,
      List.dropWhile_append, hdrop]
    rfl

/-! ## The start of a line -/

/-- The number of bytes in the first `n` lines of a text. -/
def lineStart (text : List Char) (n : Nat) : Nat := byteLength ((lines text).take n).flatten

theorem lineStart_zero (text : List Char) : lineStart text 0 = 0 := rfl

theorem lineStart_cons_newline (cs : List Char) (n : Nat) :
    lineStart ('\n' :: cs) (n + 1) = lineStart cs n + 1 := by
  rw [lineStart, lines, if_pos rfl, List.take_succ_cons, List.flatten_cons, List.singleton_append,
    byteLength, Nat.add_comm]
  rfl

theorem lineStart_cons {c : Char} (h : c ≠ '\n') (cs : List Char) (n : Nat) :
    lineStart (c :: cs) (n + 1) = c.utf8Size + lineStart cs (n + 1) := by
  unfold lineStart
  rw [lines, if_neg h]
  cases lines cs with
  | nil => simp [byteLength]
  | cons line rest => simp [byteLength]

/-- As many lines as have ended among the first bytes of a text take these bytes up to the last
newline. -/
theorem lineStart_count {text : List Char} {before : List UInt8}
    (h : before <+: text.flatMap String.utf8EncodeChar) :
    lineStart text (before.count newline) = (wholeLines before).length := by
  induction text generalizing before with
  | nil =>
    obtain rfl := List.prefix_nil.1 h
    rfl
  | cons c cs ih =>
    rw [List.flatMap_cons] at h
    by_cases hc : c = '\n'
    · subst hc
      rw [encode_newline, List.singleton_append] at h
      cases before with
      | nil => rfl
      | cons b after =>
        obtain ⟨rfl, hafter⟩ := List.cons_prefix_cons.1 h
        rw [List.count_cons_self, lineStart_cons_newline, ih hafter, wholeLines_cons_newline,
          List.length_cons]
    · have hencode : newline ∉ String.utf8EncodeChar c := newline_notMem_encode hc
      by_cases hmem : newline ∈ before
      · -- A newline comes only after all bytes of `c`, which belong to the line that it ends.
        rcases List.prefix_or_prefix_of_prefix h (List.prefix_append _ _) with hin | ⟨after, rfl⟩
        · exact absurd (hin.subset hmem) hencode
        have hafter : newline ∈ after := (List.mem_append.1 hmem).resolve_left hencode
        have hstart := ih ((List.prefix_append_right_inj _).1 h)
        obtain ⟨n, hn⟩ := Nat.exists_eq_add_one.2 (List.count_pos_iff.2 hafter)
        rw [hn] at hstart
        rw [List.count_append, List.count_eq_zero.2 hencode, Nat.zero_add, hn, lineStart_cons hc,
          hstart, wholeLines_append_of_mem _ hafter, List.length_append,
          String.length_utf8EncodeChar]
      · rw [List.count_eq_zero.2 hmem, lineStart_zero, wholeLines_of_notMem hmem, List.length_nil]

/-- The lines of a text make it up. -/
theorem flatten_lines (text : List Char) : (lines text).flatten = text := by
  induction text with
  | nil => rfl
  | cons c cs ih =>
    rw [lines]
    split
    case isTrue => rw [List.flatten_cons, ih, List.singleton_append]
    case isFalse =>
      cases hlines : lines cs with
      | nil =>
        rw [hlines] at ih
        rw [← ih, List.flatten_singleton, List.flatten_nil]
      | cons line rest =>
        rw [hlines] at ih
        rw [← ih, List.flatten_cons, List.flatten_cons, List.cons_append]

theorem byteLength_append (cs cs' : List Char) :
    byteLength (cs ++ cs') = byteLength cs + byteLength cs' := by
  simp [byteLength_eq]

theorem lineStart_le (text : List Char) (n : Nat) : lineStart text n ≤ byteLength text := by
  have hparts : ((lines text).take n).flatten ++ ((lines text).drop n).flatten = text := by
    rw [← List.flatten_append, List.take_append_drop, flatten_lines]
  have hlength := congrArg byteLength hparts
  rw [byteLength_append] at hlength
  rw [lineStart]
  omega

/-! ## Offsets -/

theorem toNat_min (a b : UInt64) : (min a b).toNat = min a.toNat b.toNat := by
  show (if a ≤ b then a else b).toNat = _
  split
  case isTrue h => exact (Nat.min_eq_left (UInt64.le_iff_toNat_le.1 h)).symm
  case isFalse h =>
    have hle : b.toNat ≤ a.toNat := Nat.le_of_not_le fun hle => h (UInt64.le_iff_toNat_le.2 hle)
    exact (Nat.min_eq_right hle).symm

theorem one_le_of_ne_zero {a : UInt64} (h : a ≠ 0) : 1 ≤ a := by
  have hne : a.toNat ≠ 0 := fun hzero => h (UInt64.toNat_inj.1 hzero)
  exact UInt64.le_iff_toNat_le.2 (Nat.one_le_iff_ne_zero.2 hne)

/-- A column counts from one, and a column `0` is as good as the first one. -/
theorem toNat_column (column : UInt64) :
    (if column = 0 then 0 else column - 1).toNat = column.toNat - 1 := by
  split
  case isTrue h =>
    rw [h]
    rfl
  case isFalse h =>
    rw [UInt64.toNat_sub_of_le _ _ (one_le_of_ne_zero h)]
    rfl

section

variable {text : List Char} {line column : UInt64}

theorem offsetOf?_of_ne_zero (h : line ≠ 0) (column : UInt64) :
    offsetOf? text line column =
      some (min (.ofNat (lineStart text (line.toNat - 1)) + if column = 0 then 0 else column - 1)
        (.ofNat (byteLength text))) := by
  rw [offsetOf?, if_neg h, UInt64.toNat_sub_of_le _ _ (one_le_of_ne_zero h)]
  rfl

/-- As long as the sum does not wrap, it is the offset, unless it is beyond the end. -/
theorem offsetOf?_of_lt (h : line ≠ 0)
    (hsum : lineStart text (line.toNat - 1) + (column.toNat - 1) < UInt64.size)
    (hsize : byteLength text < UInt64.size) :
    offsetOf? text line column = some (.ofNat
      (min (lineStart text (line.toNat - 1) + (column.toNat - 1)) (byteLength text))) := by
  have hstart : lineStart text (line.toNat - 1) < UInt64.size :=
    Nat.lt_of_le_of_lt (lineStart_le _ _) hsize
  rw [offsetOf?_of_ne_zero h, Option.some.injEq, ← UInt64.toNat_inj, toNat_min, UInt64.toNat_add,
    toNat_column, UInt64.toNat_ofNat_of_lt' hstart, UInt64.toNat_ofNat_of_lt' hsize,
    UInt64.toNat_ofNat_of_lt' (Nat.lt_of_le_of_lt (Nat.min_le_right _ _) hsize),
    Nat.mod_eq_of_lt hsum]

theorem offsetOf?_eq_none_iff (text : List Char) (line column : UInt64) :
    offsetOf? text line column = none ↔ line = 0 := by
  by_cases h : line = 0
  · exact iff_of_true (if_pos h) h
  · rw [offsetOf?_of_ne_zero h]
    exact iff_of_false nofun h

/-- Even a sum that wraps is held to the length of the text. -/
theorem exists_offsetOf?_le (h : line ≠ 0) (column : UInt64) :
    ∃ offset, offset.toNat ≤ byteLength text ∧ offsetOf? text line column = some offset := by
  refine ⟨_, ?_, offsetOf?_of_ne_zero h column⟩
  rw [toNat_min]
  exact (Nat.min_le_right _ _).trans (Nat.mod_le _ _)

end

/-- The line and the column that the first bytes of a text end at lead back to their number. -/
theorem offsetOf?_of_isPrefix {text : List Char} {before : List UInt8}
    (h : before <+: text.flatMap String.utf8EncodeChar)
    (hsize : byteLength text + 1 < UInt64.size) :
    offsetOf? text (.ofNat (1 + before.count newline))
      (.ofNat (1 + (before.rtakeWhile (· ≠ newline)).length)) = some (.ofNat before.length) := by
  have hle : before.length ≤ byteLength text := by
    rw [byteLength_eq]
    exact h.length_le
  have hlength := length_wholeLines_add before
  have hcount : before.count newline ≤ before.length := List.count_le_length
  have hline : (UInt64.ofNat (1 + before.count newline)).toNat = 1 + before.count newline :=
    UInt64.toNat_ofNat_of_lt' (by omega)
  have hcolumn : (UInt64.ofNat (1 + (before.rtakeWhile (· ≠ newline)).length)).toNat =
      1 + (before.rtakeWhile (· ≠ newline)).length := UInt64.toNat_ofNat_of_lt' (by omega)
  have hne : UInt64.ofNat (1 + before.count newline) ≠ 0 := by
    intro hzero
    rw [hzero, UInt64.toNat_zero] at hline
    omega
  have hsum : lineStart text ((UInt64.ofNat (1 + before.count newline)).toNat - 1) +
      ((UInt64.ofNat (1 + (before.rtakeWhile (· ≠ newline)).length)).toNat - 1) =
        before.length := by
    rw [hline, hcolumn, Nat.add_sub_cancel_left, Nat.add_sub_cancel_left, lineStart_count h,
      hlength]
  rw [offsetOf?_of_lt hne (by omega) (by omega), hsum, Nat.min_eq_left hle]

/-- The line of an offset is one more than the newlines before it, and its column one more than the
bytes since the last of them.  They lead back to the offset, if the text fits into memory.  Whatever
the line and the column, the result is an offset into the text or its end, unless the line is not
known; and it is what the numbers say, as long as their sum is a machine word. -/
theorem offsetOf?_inverts (source : String) :
    (source.utf8ByteSize + 1 < UInt64.size → ∀ p ≤ source.utf8ByteSize,
      let before := source.toUTF8.toList.take p
      offsetOf? source.toList (.ofNat (1 + before.count newline))
        (.ofNat (1 + (before.rtakeWhile (· ≠ newline)).length)) = some (.ofNat p)) ∧
    ∀ line column,
      (offsetOf? source.toList line column = none ↔ line = 0) ∧
      (line ≠ 0 → ∃ offset, offset.toNat ≤ source.utf8ByteSize ∧
        offsetOf? source.toList line column = some offset) ∧
      (line ≠ 0 → source.utf8ByteSize < UInt64.size →
        lineStart source.toList (line.toNat - 1) + (column.toNat - 1) < UInt64.size →
        offsetOf? source.toList line column = some (.ofNat
          (min (lineStart source.toList (line.toNat - 1) + (column.toNat - 1))
            source.utf8ByteSize))) := by
  rw [← byteLength_toList]
  refine ⟨fun hsize p hp => ?_, fun line column => ⟨offsetOf?_eq_none_iff _ line column,
    fun hline => exists_offsetOf?_le hline column, fun hline hsize hsum => ?_⟩⟩
  · intro before
    have hprefix : before <+: source.toList.flatMap String.utf8EncodeChar := by
      rw [← ScopedName.toList_toUTF8]
      exact List.take_prefix p _
    have hlength : before.length = p := by
      apply List.length_take_of_le
      rwa [ScopedName.toList_toUTF8, ← byteLength_eq]
    rw [offsetOf?_of_isPrefix hprefix hsize, hlength]
  · exact offsetOf?_of_lt hline hsum hsize

-- The sum wraps around.
example : offsetOf? "ab\ncd".toList 2 18446744073709551615 = some 1 := by decide

/-- Offsets inside a character, on an empty line and after the newline at the end, a line that the
text does not have, and a column that leads around to the beginning. -/
theorem offsetOf?_inverts_accented :
    let source := "é\n\nab\n"
    source.utf8ByteSize = 7 ∧ offsetOf? source.toList 1 2 = some 1 ∧
      offsetOf? source.toList 2 1 = some 3 ∧ offsetOf? source.toList 4 1 = some 7 ∧
      offsetOf? source.toList 9 5 = some 7 ∧
      ∃ offset : UInt64, offset.toNat ≤ 7 ∧
        offsetOf? source.toList 2 18446744073709551615 = some offset := by
  intro source
  have hbytes : source.toUTF8.toList = [195, 169, 10, 10, 97, 98, 10] := by
    rw [ScopedName.toList_toUTF8]
    decide
  have hsize : source.utf8ByteSize = 7 := by decide
  obtain ⟨hplace, hany⟩ := offsetOf?_inverts source
  rw [hbytes, hsize] at hplace
  rw [hsize] at hany
  replace hplace := hplace (by decide)
  have hlater : offsetOf? source.toList 9 5 = some 7 :=
    ((hany 9 5).2.2 (by decide) (by decide) (by decide)).trans (by decide)
  exact ⟨hsize, hplace 1 (by decide), hplace 3 (by decide), hplace 7 (by decide), hlater,
    (hany 2 18446744073709551615).2.1 (by decide)⟩

end MacroExpansion.Text
