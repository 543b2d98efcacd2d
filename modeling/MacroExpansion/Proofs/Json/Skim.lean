import MacroExpansion.Json.Skim
import MacroExpansion.Proofs.Json.Nesting

/-!
# Passing over compact texts

A compact text that does not nest too deep is passed over to its end (`skim_of_compact`).
-/

namespace MacroExpansion.Json

/-! ## How a text begins -/

/-- A text begins neither with a blank nor with the end of an array. -/
def Begins (text : List Char) : Prop := ∃ c cs, text = c :: cs ∧ isBlank c = false ∧ c ≠ ']'

theorem isBlank_of_isDigit {c : Char} (h : c.isDigit = true) : isBlank c = false := by
  rw [Bool.eq_false_iff]
  intro hblank
  simp only [isBlank, Bool.or_eq_true, beq_iff_eq] at hblank
  rcases hblank with ((rfl | rfl) | rfl) | rfl <;> exact absurd h (by decide)

theorem skipBlanks_cons {c : Char} (h : isBlank c = false) (cs : List Char) :
    skipBlanks (c :: cs) = c :: cs := by
  rw [skipBlanks, List.dropWhile_cons, h, if_neg Bool.false_ne_true]

theorem Begins.skipBlanks {text : List Char} (h : Begins text) (rest : List Char) :
    skipBlanks (text ++ rest) = text ++ rest := by
  obtain ⟨c, cs, rfl, hblank, -⟩ := h
  exact skipBlanks_cons hblank _

theorem Compact.begins {text : List Char} (h : Compact text) : Begins text := by
  cases h with
  | null => exact ⟨_, _, rfl, rfl, by decide⟩
  | string s => exact ⟨_, _, rfl, rfl, by decide⟩
  | word n =>
    obtain ⟨d, ds, hn⟩ := exists_cons_toDigits n.toNat
    have hdigit := isDigit_of_mem_toDigits (hn ▸ List.mem_cons_self)
    refine ⟨d, ds, hn, isBlank_of_isDigit hdigit, ?_⟩
    rintro rfl
    exact absurd hdigit (by decide)
  | array => exact ⟨_, _, rfl, rfl, by decide⟩
  | object => exact ⟨_, _, rfl, rfl, by decide⟩

/-! ## Values -/

/-- Inside of `frames`, a text is passed over and what is open goes on after it.  Each character
pays for one step, so that the steps that are `needed` later are left. -/
def Skims (levels : Nat) (frames : List Frame) (text : List Char) : Prop :=
  ∀ fuel needed rest, text.length + needed ≤ fuel → Follows rest →
    ∃ fuel', needed ≤ fuel' ∧
      skimValue false levels fuel frames (text ++ rest) = skimRest false levels fuel' frames rest

variable {levels : Nat} {frames : List Frame}

theorem skims_of_scalar {c : Char} {cs : List Char} (hblank : isBlank c = false) (harray : c ≠ '[')
    (hobject : c ≠ '{')
    (h : ∀ rest, Follows rest → scalar false (c :: cs ++ rest) = .ok rest) :
    Skims levels frames (c :: cs) := by
  intro fuel needed rest hfuel hrest
  obtain ⟨fuel, rfl⟩ : ∃ fuel', fuel = fuel' + 1 := ⟨fuel - 1, by
    rw [List.length_cons] at hfuel
    omega⟩
  refine ⟨fuel, by rw [List.length_cons] at hfuel; omega, ?_⟩
  rw [skimValue, List.cons_append, skipBlanks_cons hblank]
  split
  case h_1 heq => cases heq
  case h_2 heq => exact absurd (List.cons.inj heq).1 harray
  case h_3 heq => exact absurd (List.cons.inj heq).1 hobject
  case h_4 => rw [← List.cons_append, h rest hrest]

theorem skims_null : Skims levels frames ['n', 'u', 'l', 'l'] :=
  skims_of_scalar rfl (by decide) (by decide) fun _ _ => rfl

theorem scalar_writeString (s : String) (rest : List Char) :
    scalar false (writeString s ++ rest) = .ok rest := by
  rw [writeString_append, scalar, stringFrom_flatMap_writeChar]
  rfl

theorem skims_writeString (s : String) : Skims levels frames (writeString s) :=
  skims_of_scalar rfl (by decide) (by decide) fun rest _ => scalar_writeString s rest

theorem scalar_writeWord (n : UInt64) {rest : List Char} (h : Follows rest) :
    scalar false (writeWord n ++ rest) = .ok rest := by
  have hnumber := number_writeWord n h
  obtain ⟨d, ds, hn⟩ := exists_cons_toDigits n.toNat
  have hdigit := isDigit_of_mem_toDigits (hn ▸ List.mem_cons_self)
  rw [writeWord, hn, List.cons_append] at hnumber ⊢
  unfold scalar
  split
  case h_1 heq => cases heq
  case h_6 heq =>
    cases heq
    rw [if_pos (.inr hdigit), hnumber]
    rfl
  all_goals
    next heq =>
      obtain ⟨rfl, -⟩ := List.cons.inj heq
      exact absurd hdigit (by decide)

theorem skims_writeWord (n : UInt64) : Skims levels frames (writeWord n) := by
  have hscalar (rest : List Char) (h : Follows rest) := scalar_writeWord n h
  obtain ⟨d, ds, hn⟩ := exists_cons_toDigits n.toNat
  have hdigit := isDigit_of_mem_toDigits (hn ▸ List.mem_cons_self)
  rw [writeWord, hn] at hscalar ⊢
  refine skims_of_scalar (isBlank_of_isDigit hdigit) ?_ ?_ hscalar
  · rintro rfl
    exact absurd hdigit (by decide)
  · rintro rfl
    exact absurd hdigit (by decide)

/-! ## Arrays and objects -/

theorem follows_parts {close : Char} (hclose : close = ']' ∨ close = '}')
    (parts : List (List Char)) (rest : List Char) :
    Follows (parts.flatMap (',' :: ·) ++ close :: rest) := by
  cases parts with
  | nil => exact follows_cons (.inr hclose) rest
  | cons part parts => exact follows_cons (.inl rfl) _

/-- An item or a member is passed over, together with the comma before it. -/
def SkimsPart (levels : Nat) (frame : Frame) (frames : List Frame) (part : List Char) : Prop :=
  ∀ fuel needed rest, part.length + needed ≤ fuel → Follows rest →
    ∃ fuel', needed ≤ fuel' ∧
      skimRest false levels (fuel + 1) (frame :: frames) (',' :: part ++ rest) =
        skimRest false levels fuel' (frame :: frames) rest

/-- All parts but the first are passed over, and so is the end of what they are parts of. -/
theorem skimRest_parts {frame : Frame} {close : Char} (hclose : close = ']' ∨ close = '}')
    (hend : ∀ fuel rest, skimRest false levels (fuel + 1) (frame :: frames) (close :: rest) =
      skimRest false levels fuel frames rest)
    {parts : List (List Char)} (h : ∀ part ∈ parts, SkimsPart levels frame frames part)
    {fuel needed : Nat} (rest : List Char)
    (hfuel : (parts.flatMap (',' :: ·)).length + 1 + needed ≤ fuel) :
    ∃ fuel', needed ≤ fuel' ∧
      skimRest false levels fuel (frame :: frames) (parts.flatMap (',' :: ·) ++ close :: rest) =
        skimRest false levels fuel' frames rest := by
  induction parts generalizing fuel with
  | nil =>
    obtain ⟨fuel, rfl⟩ : ∃ fuel', fuel = fuel' + 1 := ⟨fuel - 1, by omega⟩
    rw [List.flatMap_nil, List.length_nil] at hfuel
    exact ⟨fuel, by omega, hend fuel rest⟩
  | cons part parts ih =>
    obtain ⟨fuel, rfl⟩ : ∃ fuel', fuel = fuel' + 1 := ⟨fuel - 1, by omega⟩
    obtain ⟨hpart, hparts⟩ := List.forall_mem_cons.1 h
    rw [List.flatMap_cons, List.cons_append, List.length_cons, List.length_append] at hfuel
    obtain ⟨fuel₁, hfuel₁, hskim₁⟩ := hpart fuel
      ((parts.flatMap (',' :: ·)).length + 1 + needed) _ (by omega)
      (follows_parts hclose parts rest)
    obtain ⟨fuel₂, hfuel₂, hskim₂⟩ := ih hparts hfuel₁
    exact ⟨fuel₂, hfuel₂, by rw [List.flatMap_cons, List.append_assoc, hskim₁, hskim₂]⟩

/-- Brackets around one part and others: the value of the first part is passed over, then the other
parts and the end. -/
theorem skims_bracketed {frame : Frame} {left right : Char} (hright : right = ']' ∨ right = '}')
    (hend : ∀ fuel rest, skimRest false levels (fuel + 1) (frame :: frames) (right :: rest) =
      skimRest false levels fuel frames rest)
    {part value : List Char} (hvalue : Skims levels (frame :: frames) value)
    (hlength : value.length ≤ part.length)
    (hopen : ∀ fuel rest, skimValue false levels (fuel + 1) frames (left :: part ++ rest) =
      skimValue false levels fuel (frame :: frames) (value ++ rest))
    {parts : List (List Char)} (h : ∀ part ∈ parts, SkimsPart levels frame frames part) :
    Skims levels frames (left :: [','].intercalate (part :: parts) ++ [right]) := by
  intro fuel needed rest hfuel _
  obtain ⟨fuel, rfl⟩ : ∃ fuel', fuel = fuel' + 1 := ⟨fuel - 1, by
    rw [List.cons_append, List.length_cons] at hfuel
    omega⟩
  rw [intercalate_comma] at hfuel ⊢
  simp only [List.cons_append, List.length_cons, List.length_append, List.length_nil] at hfuel
  obtain ⟨fuel₁, hfuel₁, hskim₁⟩ := hvalue fuel ((parts.flatMap (',' :: ·)).length + 1 + needed) _
    (by omega) (follows_parts hright parts rest)
  obtain ⟨fuel₂, hfuel₂, hskim₂⟩ := skimRest_parts hright hend h rest hfuel₁
  refine ⟨fuel₂, hfuel₂, ?_⟩
  rw [← List.cons_append, List.append_assoc, List.append_assoc, List.singleton_append, hopen,
    hskim₁, hskim₂]

theorem skims_empty {left right : Char}
    (hopen : ∀ fuel rest, skimValue false levels (fuel + 1) frames (left :: right :: rest) =
      skimRest false levels fuel frames rest) :
    Skims levels frames [left, right] := by
  intro fuel needed rest hfuel _
  simp only [List.length_cons, List.length_nil] at hfuel
  obtain ⟨fuel, rfl⟩ : ∃ fuel', fuel = fuel' + 1 := ⟨fuel - 1, by omega⟩
  exact ⟨fuel, by omega, hopen fuel rest⟩

theorem skims_writeArray {items : List (List Char)} (hlevels : frames.length < levels)
    (hbegins : ∀ item ∈ items, Begins item)
    (h : ∀ item ∈ items, Skims levels (.array :: frames) item) :
    Skims levels frames (writeArray items) := by
  have hdepth : (!false && decide (levels ≤ frames.length)) = false := by simpa using hlevels
  cases items with
  | nil =>
    refine skims_empty fun fuel rest => ?_
    simp only [skimValue, skipBlanks_cons (c := '[') rfl, hdepth, skipBlanks_cons (c := ']') rfl]
    rfl
  | cons item items =>
    obtain ⟨hitem, hitems⟩ := List.forall_mem_cons.1 h
    obtain ⟨c, cs, rfl, hblank, hclose⟩ := hbegins item List.mem_cons_self
    refine skims_bracketed (.inl rfl) (fun _ _ => rfl) hitem (Nat.le_refl _) ?_ hitems
    intro fuel rest
    simp only [List.cons_append, skimValue, skipBlanks_cons (c := '[') rfl, hdepth,
      if_neg Bool.false_ne_true, skipBlanks_cons hblank]
    split
    case h_1 heq => exact absurd (List.cons.inj heq).1 hclose
    case h_2 => rfl

theorem skimKey_writeString (key : String) (rest : List Char) :
    skimKey false (writeString key ++ ':' :: rest) = .ok rest := by
  have hscalar := scalar_writeString key (':' :: rest)
  rw [writeString_append] at hscalar ⊢
  rw [skimKey, hscalar]
  rfl

theorem writeMember_append (key : String) (text rest : List Char) :
    writeMember key text ++ rest = writeString key ++ ':' :: (text ++ rest) := by
  rw [writeMember, List.append_assoc, List.cons_append]

theorem length_writeMember (key : String) (text : List Char) :
    text.length ≤ (writeMember key text).length := by
  rw [writeMember, List.length_append, List.length_cons]
  omega

theorem skimKey_writeMember (key : String) (text rest : List Char) :
    skimKey false (skipBlanks (writeMember key text ++ rest)) = .ok (text ++ rest) := by
  rw [writeMember_append, (Compact.string key).begins.skipBlanks, skimKey_writeString]

/-- At the opening of an object the key of the first member is read too. -/
theorem skimValue_writeMember (hlevels : frames.length < levels) (key : String)
    (text rest : List Char) (fuel : Nat) :
    skimValue false levels (fuel + 1) frames ('{' :: writeMember key text ++ rest) =
      skimValue false levels fuel (.object :: frames) (text ++ rest) := by
  have hdepth : (!false && decide (levels ≤ frames.length)) = false := by simpa using hlevels
  have hkey := skimKey_writeMember key text rest
  rw [List.cons_append, skimValue, skipBlanks_cons (c := '{') rfl]
  rw [writeMember_append, writeString_append] at hkey ⊢
  rw [skipBlanks_cons (c := '"') rfl] at hkey
  simp only [hdepth, if_neg Bool.false_ne_true, skipBlanks_cons (c := '"') rfl]
  split
  case h_1 heq => exact absurd (List.cons.inj heq).1 (by decide)
  case h_2 => rw [hkey]

theorem skimsPart_writeMember (key : String) {text : List Char}
    (h : Skims levels (.object :: frames) text) :
    SkimsPart levels .object frames (writeMember key text) := by
  intro fuel needed rest hfuel hrest
  have hlength := length_writeMember key text
  obtain ⟨fuel', hneeded, hskim⟩ := h fuel needed rest (by omega) hrest
  refine ⟨fuel', hneeded, ?_⟩
  rw [List.cons_append, skimRest, skipBlanks_cons (c := ',') rfl]
  simp only [skimKey_writeMember, hskim]

theorem skims_writeObject {members : List (String × List Char)} (hlevels : frames.length < levels)
    (h : ∀ m ∈ members, Skims levels (.object :: frames) m.2) :
    Skims levels frames (writeObject (writeMembers members)) := by
  cases members with
  | nil =>
    have hdepth : (!false && decide (levels ≤ frames.length)) = false := by simpa using hlevels
    refine skims_empty fun fuel rest => ?_
    simp only [skimValue, skipBlanks_cons (c := '{') rfl, hdepth, skipBlanks_cons (c := '}') rfl]
    rfl
  | cons m members =>
    obtain ⟨hm, hmembers⟩ := List.forall_mem_cons.1 h
    refine skims_bracketed (.inr rfl) (fun _ _ => rfl) hm (length_writeMember m.1 m.2)
      (fun fuel rest => skimValue_writeMember hlevels m.1 m.2 rest fuel) fun part hpart => ?_
    obtain ⟨m', hm', rfl⟩ := List.mem_map.1 hpart
    exact skimsPart_writeMember m'.1 (hmembers m' hm')

theorem Compact.skims {text : List Char} (h : Compact text) {frames : List Frame}
    (hlevels : frames.length + nesting text ≤ levels) : Skims levels frames text := by
  induction h generalizing frames with
  | null => exact skims_null
  | string s => exact skims_writeString s
  | word n => exact skims_writeWord n
  | array hitems ih =>
    rw [nesting_writeArray hitems] at hlevels
    refine skims_writeArray (by omega) (fun item hitem => (hitems item hitem).begins) ?_
    intro item hitem
    have hle := nesting_le_nestingAll hitem
    exact ih item hitem (by rw [List.length_cons]; omega)
  | object hmembers ih =>
    rw [nesting_writeObject hmembers] at hlevels
    refine skims_writeObject (by omega) ?_
    intro m hm
    have hle := nesting_le_nestingAll (List.mem_map_of_mem (f := (·.2)) hm)
    exact ih m hm (by rw [List.length_cons]; omega)

/-- A compact text that nests to the given depth at most is passed over as a whole. -/
theorem skim_of_compact {text : List Char} (h : Compact text) (hlevels : nesting text ≤ levels) :
    skim false levels text = .ok [] := by
  have hskims : Skims levels [] text := h.skims (by rwa [List.length_nil, Nat.zero_add])
  obtain ⟨fuel, -, hskim⟩ := hskims (text.length + 1) 0 [] (by omega) follows_nil
  rw [List.append_nil] at hskim
  rw [skim, hskim, skimRest]

end MacroExpansion.Json
