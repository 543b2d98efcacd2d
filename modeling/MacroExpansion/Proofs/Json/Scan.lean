import MacroExpansion.Json.Scan
import MacroExpansion.Json.Write
import MacroExpansion.Proofs.Name.Numeral

/-!
# Scanning what was written

A written string is scanned as the string (`stringFrom_flatMap_writeChar`), and a written number as
the number (`number_writeWord`), with the text after them left over.  A number only ends where the
text after it cannot go on with it, as after every value in an array or an object.
-/

namespace MacroExpansion.Json

open Text (byteLength)

/-- A text that may follow a value: it is at its end, or a comma or a closing bracket comes. -/
def Follows (rest : List Char) : Prop := ∀ c ∈ rest.head?, c = ',' ∨ c = ']' ∨ c = '}'

theorem follows_nil : Follows [] := fun _ h => by cases h

theorem follows_cons {c : Char} (h : c = ',' ∨ c = ']' ∨ c = '}') (rest : List Char) :
    Follows (c :: rest) := by
  intro d hd
  obtain rfl := Option.some.inj hd
  exact h

/-! ## Strings -/

theorem hexDigit?_hexChar : ∀ n < 16, hexDigit? (hexChar n) = some n := by decide

theorem length_le_byteLength (cs : List Char) : cs.length ≤ byteLength cs := by
  induction cs with
  | nil => exact Nat.le_refl 0
  | cons c cs ih =>
    have hsize : 0 < c.utf8Size := c.utf8Size_pos
    rw [byteLength, List.length_cons]
    omega

theorem hexCode_control {n : Nat} (hn : n < 0x20) (cs : List Char) :
    hexCode ('0' :: '0' :: hexChar (n / 16) :: hexChar (n % 16) :: cs) = .ok n := by
  have hlength : ¬ byteLength ('0' :: '0' :: hexChar (n / 16) :: hexChar (n % 16) :: cs) < 4 := by
    have hle := length_le_byteLength ('0' :: '0' :: hexChar (n / 16) :: hexChar (n % 16) :: cs)
    simp only [List.length_cons] at hle
    omega
  have hzero : hexDigit? '0' = some 0 := by decide
  have hhigh := hexDigit?_hexChar (n / 16) (by omega)
  have hlow := hexDigit?_hexChar (n % 16) (by omega)
  have hcode : ((0 * 16 + 0) * 16 + n / 16) * 16 + n % 16 = n := by omega
  rw [hexCode, if_neg hlength]
  simp only [List.take_succ_cons, List.take_zero, List.mapM_cons, List.mapM_nil, hzero, hhigh, hlow,
    Option.pure_def, Option.bind_eq_bind, Option.bind_some, hcode]

theorem escape_control {n : Nat} (hn : n < 0x20) (cs : List Char) :
    escape ('u' :: '0' :: '0' :: hexChar (n / 16) :: hexChar (n % 16) :: cs) =
      .ok (Char.ofNat n, 5) := by
  rw [escape, codeEscape, hexCode_control hn]
  have hlow : ¬ (0xDC00 ≤ n ∧ n ≤ 0xDFFF) := by omega
  have hhigh : n < 0xD800 ∨ 0xDBFF < n := by omega
  simp [hlow, hhigh, bind, Except.bind, pure, Except.pure]

/-- Whether a character is escaped or not, it is read as itself. -/
theorem stringFrom_writeChar (c : Char) (cs : List Char) :
    stringFrom 0 (writeChar c ++ cs) =
      (stringFrom 0 cs).map fun (text, rest) => (c :: text, rest) := by
  unfold writeChar
  split
  case h_8 hquote hbackslash _ _ _ _ _ =>
    split
    case isTrue hcontrol =>
      have hescape := escape_control hcontrol cs
      rw [Char.ofNat_toNat] at hescape
      simp only [List.cons_append, List.nil_append]
      rw [stringFrom, if_neg (by decide), if_pos rfl, hescape]
      rfl
    case isFalse hcontrol =>
      rw [List.singleton_append, stringFrom, if_neg hquote, if_neg hbackslash, if_neg hcontrol]
  all_goals rfl

theorem stringFrom_flatMap_writeChar (cs rest : List Char) :
    stringFrom 0 (cs.flatMap writeChar ++ '"' :: rest) = .ok (cs, rest) := by
  induction cs with
  | nil => rfl
  | cons c cs ih =>
    rw [List.flatMap_cons, List.append_assoc, stringFrom_writeChar, ih]
    rfl

theorem writeString_append (s : String) (rest : List Char) :
    writeString s ++ rest = '"' :: (s.toList.flatMap writeChar ++ '"' :: rest) := by
  simp [writeString]

/-! ## Numbers -/

theorem le_ofDigitChars (ds : List Char) (value : Nat) :
    value ≤ Nat.ofDigitChars 10 ds value := by
  have hpow : 0 < 10 ^ ds.length := Nat.pow_pos (by decide)
  have hmul := Nat.le_mul_of_pos_left value hpow
  rw [Nat.ofDigitChars_eq_ofDigitChars_zero]
  omega

/-- Digits that denote a number below the bound all fit. -/
theorem gather_eq {bound : Nat} {ds : List Char} {value : Nat}
    (h : Nat.ofDigitChars 10 ds value < bound) :
    gather bound value ds = (Nat.ofDigitChars 10 ds value, []) := by
  induction ds generalizing value with
  | nil => rfl
  | cons d ds ih =>
    rw [Nat.ofDigitChars_cons, Nat.mul_comm] at h ⊢
    rw [gather, if_pos (Nat.lt_of_le_of_lt (le_ofDigitChars ds _) h), ih h]

theorem roundToFloat_le (n : Nat) : roundToFloat n ≤ 2 * n := by
  rcases Nat.eq_zero_or_pos n with rfl | hpos
  · decide
  · have hunit : Nat.pow 2 (n.log2 + 1 - 53) ≤ n := by
      have hexponent : n.log2 + 1 - 53 ≤ n.log2 := by omega
      exact Nat.le_trans (Nat.pow_le_pow_right (by decide) hexponent) (Nat.log2_self_le (by omega))
    rw [roundToFloat]
    generalize Nat.pow 2 (n.log2 + 1 - 53) = unit at hunit
    have hquotient : n / unit * unit ≤ n := Nat.div_mul_le_self n unit
    split
    case isTrue => rw [Nat.add_one_mul]; omega
    case isFalse => omega

/-- A number of 64 bits is far from being too great for a float. -/
theorem isFinite_of_lt {n : Nat} (h : n < UInt64.size) : Decimal.isFinite ⟨n, 0⟩ = true := by
  have hlt (k : Nat) (hk : 66 < k) :
      roundToFloat (roundToFloat n * roundToFloat (Nat.pow 10 0)) < Nat.pow 2 k := by
    have hone : roundToFloat (Nat.pow 10 0) = 1 := by decide
    have hsize : 4 * UInt64.size = 2 ^ 66 := by decide
    have hpow : 2 ^ 66 < Nat.pow 2 k := Nat.pow_lt_pow_right (by decide) hk
    have hfirst := roundToFloat_le n
    have hsecond := roundToFloat_le (roundToFloat n)
    rw [hone, Nat.mul_one]
    omega
  have hpower : (0 : Int).toNat ≤ Decimal.maxPower := by decide
  rw [Decimal.isFinite, Bool.or_eq_true, Bool.and_eq_true, decide_eq_true_iff, decide_eq_true_iff]
  -- The bound of floats is left as a power: evaluated, it has a thousand bits.
  have hbits : 66 < 1024 := by decide
  generalize 1024 = bits at hbits ⊢
  exact .inr ⟨hpower, hlt bits hbits⟩

theorem isDigit_of_mem_toDigits {n : Nat} {c : Char} (h : c ∈ Nat.toDigits 10 n) :
    c.isDigit = true :=
  Nat.isDigit_of_mem_toDigits (by decide) (by decide) h

theorem exists_cons_toDigits (n : Nat) : ∃ d ds, Nat.toDigits 10 n = d :: ds :=
  List.exists_cons_of_ne_nil Nat.toDigits_ne_nil

/-- The digits of a number do not begin with a zero, unless this is the only one. -/
theorem toDigits_ne_zero_cons (n : Nat) (d : Char) (ds : List Char) :
    Nat.toDigits 10 n ≠ '0' :: d :: ds := by
  intro h
  have hlength (cs : List Char) : (stripZeros cs).length ≤ cs.length := by
    fun_induction stripZeros cs with
    | case1 d ds ih => exact Nat.le_succ_of_le ih
    | case2 => exact Nat.le_refl _
  have hstrip :=
    toDigits_eq_stripZeros (Nat.toDigits_ne_nil (n := n)) fun _ => isDigit_of_mem_toDigits
  rw [Nat.ofDigitChars_ten_toDigits, h, stripZeros] at hstrip
  have hle := hlength (d :: ds)
  rw [← hstrip, List.length_cons] at hle
  omega

theorem isDigit_of_follows {c : Char} {rest : List Char} (h : Follows (c :: rest)) :
    c.isDigit = false := by
  rcases h c rfl with rfl | rfl | rfl <;> rfl

theorem takeWhile_isDigit {ds rest : List Char} (hds : ∀ c ∈ ds, c.isDigit = true)
    (h : Follows rest) : (ds ++ rest).takeWhile Char.isDigit = ds := by
  rw [List.takeWhile_append_of_pos hds]
  cases rest with
  | nil => rw [List.takeWhile_nil, List.append_nil]
  | cons c rest => rw [List.takeWhile_cons, isDigit_of_follows h, if_neg Bool.false_ne_true,
      List.append_nil]

theorem dropWhile_isDigit {ds rest : List Char} (hds : ∀ c ∈ ds, c.isDigit = true)
    (h : Follows rest) : (ds ++ rest).dropWhile Char.isDigit = rest := by
  rw [List.dropWhile_append_of_pos hds]
  cases rest with
  | nil => rfl
  | cons c rest => rw [List.dropWhile_cons, isDigit_of_follows h, if_neg Bool.false_ne_true]

theorem wholePart_toDigits (skipping : Bool) (n : Nat) {rest : List Char} (h : Follows rest) :
    wholePart skipping (Nat.toDigits 10 n ++ rest) = .ok (Nat.toDigits 10 n, rest) := by
  have hdigits (c : Char) (hc : c ∈ Nat.toDigits 10 n) : c.isDigit = true :=
    isDigit_of_mem_toDigits hc
  have hzero := toDigits_ne_zero_cons n
  obtain ⟨d, ds, hn⟩ := exists_cons_toDigits n
  rw [hn] at hdigits hzero ⊢
  by_cases hd : d = '0'
  · -- A zero stands alone, so that the text after the number comes next.
    subst hd
    cases ds with
    | cons e es => exact absurd rfl (hzero e es)
    | nil =>
      cases rest with
      | nil => rfl
      | cons c rest =>
        simp only [List.singleton_append, wholePart, isDigit_of_follows h,
          if_neg Bool.false_ne_true]
  · have htake := takeWhile_isDigit hdigits h
    have hdrop := dropWhile_isDigit hdigits h
    rw [wholePart, digits, htake, hdrop]
    rintro rest' heq
    exact hd (List.cons.inj heq).1

theorem fraction_of_follows (skipping : Bool) {rest : List Char} (h : Follows rest) :
    fraction skipping rest = .ok ([], rest) := by
  cases rest with
  | nil => rfl
  | cons c rest => rcases h c rfl with rfl | rfl | rfl <;> rfl

theorem exponent_of_follows (skipping : Bool) {rest : List Char} (h : Follows rest) :
    exponent skipping rest = .ok (none, rest) := by
  cases rest with
  | nil => rfl
  | cons c rest => rcases h c rfl with rfl | rfl | rfl <;> rfl

theorem checkRange_toDigits {n : Nat} (h : n < UInt64.size) (rest : List Char) :
    checkRange (.ofDigits (Nat.toDigits 10 n) []) none rest = .ok () := by
  have hgather : gather UInt64.size 0 (Nat.toDigits 10 n) = (n, []) := by
    rw [gather_eq (by rw [Nat.ofDigitChars_ten_toDigits]; exact h), Nat.ofDigitChars_ten_toDigits]
  have hdigits : Decimal.ofDigits (Nat.toDigits 10 n) [] = ⟨n, 0⟩ := by
    rw [Decimal.ofDigits, hgather]
    rfl
  rw [checkRange, hdigits]
  dsimp only
  rw [isFinite_of_lt h, if_pos rfl]

/-- A written number is scanned as the number, where the text can go on after it. -/
theorem number_writeWord (n : UInt64) {rest : List Char} (h : Follows rest) :
    number false (writeWord n ++ rest) = .ok (.natural n.toNat, rest) := by
  have hwhole := wholePart_toDigits false n.toNat h
  have hrange := checkRange_toDigits n.toNat_lt_size rest
  rw [writeWord, number]
  · simp only [hwhole, fraction_of_follows false h, exponent_of_follows false h, hrange,
      Nat.ofDigitChars_ten_toDigits, bind, Except.bind, pure, Except.pure]
    rfl
  · -- A minus sign is no digit.
    intro rest' hsign
    obtain ⟨d, ds, hn⟩ := exists_cons_toDigits n.toNat
    rw [hn] at hsign
    have hdigit := isDigit_of_mem_toDigits (hn ▸ List.mem_cons_self)
    rw [(List.cons.inj hsign).1] at hdigit
    exact absurd hdigit (by decide)

end MacroExpansion.Json
