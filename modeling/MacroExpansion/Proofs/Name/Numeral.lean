import Mathlib.Data.List.Induction
import MacroExpansion.Name.Decode
import MacroExpansion.Proofs.Result

/-!
# Written scopes

A numeral is a text of digits that denotes a number below `2 ^ 64`.  `readScope` accepts exactly
the numerals (`readScope_eq_ok_iff`).  Writing the scope that a numeral denotes gives the numeral
without its leading zeros (`digits_scope`), so that a numeral is written back as it was read unless
it has any.
-/

namespace MacroExpansion

/-- A written scope. -/
structure Numeral where
  digits : List Char
  digits_ne_nil : digits ≠ []
  isDigit_of_mem : ∀ c ∈ digits, c.isDigit = true
  value_lt : Nat.ofDigitChars 10 digits 0 < UInt64.size

/-- Digits without the zeros in front; the last digit stays. -/
def stripZeros : List Char → List Char
  | '0' :: d :: ds => stripZeros (d :: ds)
  | ds => ds

/-! ## Decimal digits -/

theorem sub_lt_ten_of_isDigit {c : Char} (h : c.isDigit = true) : c.toNat - '0'.toNat < 10 := by
  rw [Char.isDigit_iff_toNat] at h
  have hzero : '0'.toNat = 48 := rfl
  have hnine : '9'.toNat = 57 := rfl
  omega

theorem toDigits_digit {c : Char} (h : c.isDigit = true) :
    Nat.toDigits 10 (c.toNat - '0'.toNat) = [c] := by
  have hlt := sub_lt_ten_of_isDigit h
  rw [Nat.toDigits_of_lt_base hlt, List.singleton_inj, ← Char.toNat_inj,
    Nat.toNat_digitChar_of_lt_ten hlt]
  rw [Char.isDigit_iff_toNat] at h
  have hzero : '0'.toNat = 48 := rfl
  omega

theorem ofDigitChars_pos {c : Char} {cs : List Char} (h : c.isDigit = true) (hc : c ≠ '0') :
    0 < Nat.ofDigitChars 10 (c :: cs) 0 := by
  have hpos : 0 < c.toNat - '0'.toNat := by
    rw [Char.isDigit_iff_toNat] at h
    rw [Ne, ← Char.toNat_inj] at hc
    omega
  rw [Nat.ofDigitChars_cons, Nat.mul_zero, Nat.zero_add, Nat.ofDigitChars_eq_ofDigitChars_zero]
  have hpow : 0 < 10 ^ cs.length := Nat.pow_pos (by decide)
  have hmul := Nat.mul_pos hpow hpos
  omega

/-- A number is written with the digits that denote it, unless they begin with a zero. -/
theorem toDigits_ofDigitChars {c : Char} {cs : List Char} (h : ∀ d ∈ c :: cs, d.isDigit = true)
    (hc : c ≠ '0') : Nat.toDigits 10 (Nat.ofDigitChars 10 (c :: cs) 0) = c :: cs := by
  induction cs using List.reverseRecOn with
  | nil =>
    rw [Nat.ofDigitChars_cons, Nat.ofDigitChars_nil, Nat.mul_zero, Nat.zero_add]
    exact toDigits_digit (h c List.mem_cons_self)
  | append_singleton cs d ih =>
    have hcs : ∀ d ∈ c :: cs, d.isDigit = true := fun x hx =>
      h x (List.mem_append_left [d] hx)
    have hd : d.isDigit = true := h d (List.mem_append_right (c :: cs) List.mem_cons_self)
    have hpos : 0 < Nat.ofDigitChars 10 (c :: cs) 0 := ofDigitChars_pos (h c List.mem_cons_self) hc
    rw [← List.cons_append, Nat.ofDigitChars_append, Nat.ofDigitChars_cons, Nat.ofDigitChars_nil,
      ← Nat.toDigits_append_toDigits (by decide) hpos (sub_lt_ten_of_isDigit hd), ih hcs,
      toDigits_digit hd]

theorem toDigits_eq_stripZeros {digits : List Char} (hne : digits ≠ [])
    (h : ∀ c ∈ digits, c.isDigit = true) :
    Nat.toDigits 10 (Nat.ofDigitChars 10 digits 0) = stripZeros digits := by
  fun_induction stripZeros digits with
  | case1 d ds ih =>
    rw [Nat.ofDigitChars_cons, Nat.mul_zero, Nat.sub_self]
    exact ih (List.cons_ne_nil _ _) fun c hc => h c (List.mem_cons_of_mem _ hc)
  | case2 digits hzero =>
    obtain ⟨c, cs, rfl⟩ := List.exists_cons_of_ne_nil hne
    by_cases hc : c = '0'
    · -- A zero that is not stripped is the only digit.
      cases cs with
      | nil => rw [hc]; rfl
      | cons d ds => exact (hzero d ds (by rw [hc])).elim
    · exact toDigits_ofDigitChars h hc

/-! ## Numerals and scopes -/

namespace Numeral

@[ext]
theorem ext {m n : Numeral} (h : m.digits = n.digits) : m = n := by
  cases m
  cases n
  cases h
  rfl

/-- The scope that a numeral denotes. -/
def scope (n : Numeral) : Scope := UInt64.ofNat (Nat.ofDigitChars 10 n.digits 0)

/-- A scope as it is written. -/
def ofScope (s : Scope) : Numeral where
  digits := s.digits
  digits_ne_nil := Nat.toDigits_ne_nil
  isDigit_of_mem c hc := Nat.isDigit_of_mem_toDigits (by decide) (by decide) hc
  value_lt := by
    rw [Scope.digits, Nat.ofDigitChars_ten_toDigits]
    exact s.toNat_lt_size

theorem toNat_scope (n : Numeral) : n.scope.toNat = Nat.ofDigitChars 10 n.digits 0 :=
  UInt64.toNat_ofNat_of_lt' n.value_lt

@[simp]
theorem scope_ofScope (s : Scope) : (ofScope s).scope = s := by
  rw [← UInt64.toNat_inj, toNat_scope]
  exact Nat.ofDigitChars_ten_toDigits

/-- The scope of a numeral is written without the leading zeros of the numeral. -/
theorem digits_scope (n : Numeral) : n.scope.digits = stripZeros n.digits := by
  rw [Scope.digits, toNat_scope, toDigits_eq_stripZeros n.digits_ne_nil n.isDigit_of_mem]

/-- A numeral without its leading zeros. -/
def strip (n : Numeral) : Numeral where
  digits := stripZeros n.digits
  digits_ne_nil := n.digits_scope ▸ (ofScope n.scope).digits_ne_nil
  isDigit_of_mem := n.digits_scope ▸ (ofScope n.scope).isDigit_of_mem
  value_lt := n.digits_scope ▸ (ofScope n.scope).value_lt

theorem ofScope_scope (n : Numeral) : ofScope n.scope = n.strip := ext n.digits_scope

theorem isScopeComponent_digits (n : Numeral) : ScopedName.isScopeComponent n.digits = true := by
  rw [ScopedName.isScopeComponent, Bool.and_eq_true, Bool.not_eq_true', List.isEmpty_eq_false_iff,
    List.all_eq_true]
  exact ⟨n.digits_ne_nil, n.isDigit_of_mem⟩

theorem dot_notMem_digits (n : Numeral) : '.' ∉ n.digits := fun h =>
  absurd (n.isDigit_of_mem _ h) (by decide)

end Numeral

namespace ScopedName

theorem readScope_eq_ok_iff {name : String} {part : List Char} {scope : Scope} :
    readScope name part = .ok scope ↔ ∃ n : Numeral, n.digits = part ∧ n.scope = scope := by
  constructor
  · intro h
    rw [readScope] at h
    split at h
    case isTrue hpart =>
      rw [isScopeComponent, Bool.and_eq_true, Bool.not_eq_true', List.isEmpty_eq_false_iff,
        List.all_eq_true] at hpart
      dsimp only at h
      split at h
      case isTrue hlt => exact ⟨⟨part, hpart.1, hpart.2, hlt⟩, rfl, Except.ok.inj h⟩
      case isFalse => cases h
    case isFalse => cases h
  · rintro ⟨n, rfl, rfl⟩
    rw [readScope, if_pos n.isScopeComponent_digits]
    exact if_pos n.value_lt

theorem mapM_readScope_eq_ok_iff {name : String} {parts : List (List Char)} {scopes : List Scope} :
    parts.mapM (readScope name) = .ok scopes ↔
      ∃ ns : List Numeral, ns.map Numeral.digits = parts ∧ ns.map Numeral.scope = scopes := by
  induction parts generalizing scopes with
  | nil =>
    constructor
    · intro h
      exact ⟨[], rfl, Except.ok.inj h⟩
    · rintro ⟨ns, hparts, rfl⟩
      rw [List.map_eq_nil_iff.1 hparts]
      rfl
  | cons part parts ih =>
    rw [List.mapM_cons, bind_eq_ok_iff]
    constructor
    · rintro ⟨scope, hscope, h⟩
      obtain ⟨rest, hrest, h⟩ := bind_eq_ok_iff.1 h
      obtain ⟨n, rfl, rfl⟩ := readScope_eq_ok_iff.1 hscope
      obtain ⟨ns, rfl, rfl⟩ := ih.1 hrest
      exact ⟨n :: ns, rfl, Except.ok.inj h⟩
    · rintro ⟨ns, hparts, rfl⟩
      obtain ⟨n, ns, rfl, rfl, hns⟩ := List.map_eq_cons_iff.1 hparts
      exact ⟨n.scope, readScope_eq_ok_iff.2 ⟨n, rfl, rfl⟩,
        bind_eq_ok_iff.2 ⟨ns.map Numeral.scope, ih.2 ⟨ns, hns, rfl⟩, rfl⟩⟩

end ScopedName

end MacroExpansion
