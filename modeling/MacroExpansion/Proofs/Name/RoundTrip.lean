import MacroExpansion.Proofs.Name.Spelling

/-!
# Writing scoped names and reading them back

A name can be written exactly if its base, its modules and its lists of scopes are well formed
(`exists_encode_iff`), and what is written is then read as the same name (`decode_of_encode`).
Conversely, a name that was read is written as it was spelled, except for the zeros in front of its
scopes (`encode_name`).
-/

namespace MacroExpansion

open ScopedName

/-! ## Leading zeros -/

theorem Numeral.scope_strip (n : Numeral) : n.strip.scope = n.scope := by
  rw [← n.ofScope_scope, scope_ofScope]

theorem joinDigits_scopes (ns : List Numeral) :
    Scope.joinDigits ['.'] (ns.map Numeral.scope) = Numeral.join (ns.map Numeral.strip) := by
  rw [Scope.joinDigits, Numeral.join, List.map_map, List.map_map]
  exact congrArg _ (List.map_congr_left fun n _ => n.digits_scope)

theorem map_scope_ofScope (scopes : List Scope) :
    (scopes.map Numeral.ofScope).map Numeral.scope = scopes := by
  rw [List.map_map]
  exact (List.map_congr_left fun s _ => Numeral.scope_ofScope s).trans scopes.map_id

/-- A group without the leading zeros of its scopes. -/
def Group.strip (g : Group) : Group where
  moduleName := g.moduleName
  valid := g.valid
  numerals := g.numerals.map Numeral.strip
  numerals_ne_nil := by simpa using g.numerals_ne_nil

/-- A spelling without the leading zeros of its scopes. -/
def Spelling.strip (w : Spelling) : Spelling where
  base := w.base
  separator_notIn := w.separator_notIn
  groups := w.groups.map Group.strip
  mainModule := w.mainModule
  valid := w.valid
  numerals := w.numerals.map Numeral.strip
  numerals_ne_nil := by simpa using w.numerals_ne_nil

theorem map_scope_strip (ns : List Numeral) :
    (ns.map Numeral.strip).map Numeral.scope = ns.map Numeral.scope := by
  rw [List.map_map]
  exact List.map_congr_left fun n _ => n.scope_strip

theorem Group.segment_strip (g : Group) : g.strip.segment = g.segment := by
  rw [segment, segment, strip, map_scope_strip]

theorem Spelling.name_strip (w : Spelling) : w.strip.name = w.name := by
  have hgroups : (w.groups.map Group.strip).map Group.segment = w.groups.map Group.segment := by
    rw [List.map_map]
    exact List.map_congr_left fun g _ => g.segment_strip
  rw [name, name, strip, hgroups, map_scope_strip]

/-! ## Bases -/

namespace ScopedName

/-- A base is not empty and holds no delimiter. -/
def ValidBase (base : String) : Prop :=
  base ≠ "" ∧ ¬ separatorStem <:+: base.toList ∧ ¬ markerStem <:+: base.toList

instance (base : String) : Decidable (ValidBase base) :=
  decidable_of_iff (base ≠ "" ∧ Text.occurs separatorStem base.toList = false ∧
    Text.occurs markerStem base.toList = false) <| by
      simp only [ValidBase, ← Text.occurs_iff, Bool.not_eq_true]

theorem checkBase_eq_ok_iff (base : String) : checkBase base = .ok () ↔ ValidBase base := by
  rw [checkBase, ValidBase]
  split
  case isTrue h =>
    rw [String.isEmpty_iff] at h
    exact iff_of_false (fun h => by cases h) fun hv => hv.1 h
  case isFalse h =>
    rw [String.isEmpty_iff] at h
    split
    case isTrue hocc =>
      rw [Bool.or_eq_true, Text.occurs_iff, Text.occurs_iff] at hocc
      exact iff_of_false (fun h => by cases h) fun hv => hocc.elim hv.2.1 hv.2.2
    case isFalse hocc =>
      rw [Bool.or_eq_true, Text.occurs_iff, Text.occurs_iff, not_or] at hocc
      exact iff_of_true rfl ⟨h, hocc⟩

/-- No separator arises where a base and the separator after it meet. -/
theorem ValidBase.separator_notIn {base : String} (h : ValidBase base) :
    ¬ separator <:+: base.toList ++ separatorStem := by
  have hstem : separatorStem <+: separator := by decide
  intro hi
  rcases List.infix_append_iff.1 hi with hbase | hin | ⟨front, back, hsplit, hfront, hback⟩
  · exact h.2.1 (hstem.isInfix.trans hbase)
  · exact absurd hin (by decide)
  · rcases Nat.lt_or_ge front.length 3 with hlt | hge
    · -- Up to two characters in the base: the rest would have to begin like the stem.
      match front, hlt with
      | [], _ =>
        rw [List.nil_append] at hsplit
        rw [← hsplit] at hback
        exact absurd hback (by decide)
      | [_], _ =>
        obtain ⟨-, rfl⟩ := List.cons.inj hsplit
        exact absurd hback (by decide)
      | [_, _], _ =>
        obtain ⟨-, hsplit⟩ := List.cons.inj hsplit
        obtain ⟨-, rfl⟩ := List.cons.inj hsplit
        exact absurd hback (by decide)
    · have hpre : separatorStem <+: front := by
        refine List.prefix_of_prefix_length_le hstem ?_ hge
        rw [hsplit]
        exact List.prefix_append _ _
      exact h.2.1 (hpre.isInfix.trans hfront.isInfix)

/-! ## Writing -/

theorem encodeImported_cons {segment : Segment} {segments : List Segment} {path : List Char} :
    encodeImported (segment :: segments) = .ok path ↔
      ValidModule segment.moduleName ∧ segment.scopes ≠ [] ∧
        ∃ rest, encodeImported segments = .ok rest ∧
          segment.moduleName.toList ++ '.' :: Scope.joinDigits ['.'] segment.scopes ++ '.' :: rest =
            path := by
  rw [encodeImported, bind_eq_ok_iff]
  constructor
  · rintro ⟨⟨⟩, hmodule, h⟩
    split at h
    case isTrue => cases h
    case isFalse hscopes =>
      obtain ⟨rest, hrest, h⟩ := bind_eq_ok_iff.1 h
      exact ⟨(checkModule_eq_ok_iff _).1 hmodule, by simpa using hscopes, rest, hrest,
        Except.ok.inj h⟩
  · rintro ⟨hmodule, hscopes, rest, hrest, rfl⟩
    refine ⟨(), (checkModule_eq_ok_iff _).2 hmodule, ?_⟩
    rw [if_neg (by simpa using hscopes)]
    exact bind_eq_ok_iff.2 ⟨rest, hrest, rfl⟩

theorem encodeImported_segments (groups : List Group) :
    encodeImported (groups.map Group.segment) =
      .ok ((groups.map Group.strip).flatMap Group.text) := by
  induction groups with
  | nil => rfl
  | cons g groups ih =>
    refine encodeImported_cons.2 ⟨g.valid, ?_, _, ih, ?_⟩
    · simpa [Group.segment] using g.numerals_ne_nil
    · rw [Group.segment, joinDigits_scopes]
      simp [Group.text, Group.strip]

/-- The parts of a name that can be written. -/
structure WellFormed (n : ScopedName) : Prop where
  base : ValidBase n.base
  imported : ∀ segment ∈ n.imported, ValidModule segment.moduleName ∧ segment.scopes ≠ []
  mainModule : ValidModule n.mainModule
  scopes : n.scopes ≠ []

theorem forall_of_encodeImported {segments : List Segment} {path : List Char}
    (h : encodeImported segments = .ok path) :
    ∀ segment ∈ segments, ValidModule segment.moduleName ∧ segment.scopes ≠ [] := by
  induction segments generalizing path with
  | nil => exact fun _ hmem => absurd hmem List.not_mem_nil
  | cons segment segments ih =>
    obtain ⟨hmodule, hscopes, rest, hrest, -⟩ := encodeImported_cons.1 h
    exact List.forall_mem_cons.2 ⟨⟨hmodule, hscopes⟩, ih hrest⟩

theorem wellFormed_of_encode {n : ScopedName} {name : String} (h : n.encode = .ok name) :
    n.WellFormed := by
  obtain ⟨⟨⟩, hbase, h⟩ := bind_eq_ok_iff.1 h
  obtain ⟨⟨⟩, hmodule, h⟩ := bind_eq_ok_iff.1 h
  split at h
  case isTrue => cases h
  case isFalse hscopes =>
    obtain ⟨path, hpath, -⟩ := bind_eq_ok_iff.1 h
    exact ⟨(checkBase_eq_ok_iff _).1 hbase, forall_of_encodeImported hpath,
      (checkModule_eq_ok_iff _).1 hmodule, by simpa using hscopes⟩

theorem exists_groups {segments : List Segment}
    (h : ∀ segment ∈ segments, ValidModule segment.moduleName ∧ segment.scopes ≠ []) :
    ∃ groups : List Group, groups.map Group.segment = segments := by
  induction segments with
  | nil => exact ⟨[], rfl⟩
  | cons segment segments ih =>
    obtain ⟨groups, hgroups⟩ := ih fun s hs => h s (List.mem_cons_of_mem _ hs)
    obtain ⟨hmodule, hscopes⟩ := h segment List.mem_cons_self
    refine ⟨⟨segment.moduleName, hmodule, segment.scopes.map Numeral.ofScope, ?_⟩ :: groups, ?_⟩
    · simpa using hscopes
    · rw [List.map_cons, hgroups, Group.segment, map_scope_ofScope]

/-- A well-formed name has a spelling. -/
theorem WellFormed.exists_spelling {n : ScopedName} (h : n.WellFormed) :
    ∃ w : Spelling, w.name = n := by
  obtain ⟨groups, hgroups⟩ := exists_groups h.imported
  refine ⟨⟨n.base.toList, h.base.separator_notIn, groups, n.mainModule, h.mainModule,
    n.scopes.map Numeral.ofScope, ?_⟩, ?_⟩
  · simpa using h.scopes
  · rw [Spelling.name, hgroups, map_scope_ofScope, String.ofList_toList]

/-- A name is written like any of its spellings, without leading zeros. -/
theorem encode_name (w : Spelling) (h : ValidBase (String.ofList w.base)) :
    w.name.encode = .ok (String.ofList w.strip.text) := by
  have hmodule : checkModule w.name.mainModule = .ok () := (checkModule_eq_ok_iff _).2 w.valid
  have hscopes : ¬ w.name.scopes.isEmpty = true := by
    simpa [Spelling.name] using w.numerals_ne_nil
  refine bind_eq_ok_iff.2 ⟨(), (checkBase_eq_ok_iff _).2 h, bind_eq_ok_iff.2 ⟨(), hmodule, ?_⟩⟩
  rw [if_neg hscopes]
  refine bind_eq_ok_iff.2 ⟨_, encodeImported_segments w.groups, ?_⟩
  rw [Spelling.name, joinDigits_scopes, Spelling.text, Spelling.path, String.toList_ofList]
  simp only [List.append_assoc]
  rfl

theorem exists_spelling_of_encode {n : ScopedName} {name : String} (h : n.encode = .ok name) :
    ∃ w : Spelling, w.name = n ∧ name.toList = w.strip.text := by
  have hformed := wellFormed_of_encode h
  obtain ⟨w, rfl⟩ := hformed.exists_spelling
  rw [encode_name w hformed.base] at h
  exact ⟨w, rfl, by rw [← Except.ok.inj h, String.toList_ofList]⟩

theorem exists_encode_iff (n : ScopedName) :
    (∃ name, n.encode = .ok name) ↔ n.WellFormed := by
  constructor
  · rintro ⟨name, h⟩
    exact wellFormed_of_encode h
  · intro h
    obtain ⟨w, rfl⟩ := h.exists_spelling
    exact ⟨_, encode_name w h.base⟩

theorem decode_of_encode {n : ScopedName} {name : String} (h : n.encode = .ok name) :
    decode name = .ok n := by
  obtain ⟨w, rfl, htext⟩ := exists_spelling_of_encode h
  rw [decode_of_toList_eq htext, w.name_strip]

/-- The well-formed names are those that can be written, and a written name is read as itself. -/
theorem decode_encode (n : ScopedName) :
    ((∃ name, n.encode = .ok name) ↔ n.WellFormed) ∧
      ∀ name, n.encode = .ok name →
        hasScopes name = true ∧ eraseScopes name = n.base ∧ decode name = .ok n := by
  refine ⟨exists_encode_iff n, fun name h => ⟨?_, ?_, decode_of_encode h⟩⟩
  · obtain ⟨w, -, htext⟩ := exists_spelling_of_encode h
    exact hasScopes_of_toList_eq htext
  · obtain ⟨w, rfl, htext⟩ := exists_spelling_of_encode h
    exact (eraseScopes_of_toList_eq htext).trans rfl

/-- A base that ends like a delimiter, a dotted module and a segment of another module. -/
theorem decode_encode_seams :
    ScopedName.encode ⟨"x._", [⟨"Std.Data", [3, 0]⟩], "_@x.App", [7, 18446744073709551615]⟩ =
        .ok "x._._@.Std.Data.3.0._@x.App._hyg.7.18446744073709551615" ∧
      decode "x._._@.Std.Data.3.0._@x.App._hyg.7.18446744073709551615" =
        .ok ⟨"x._", [⟨"Std.Data", [3, 0]⟩], "_@x.App", [7, 18446744073709551615]⟩ := by
  have h : ScopedName.encode
      ⟨"x._", [⟨"Std.Data", [3, 0]⟩], "_@x.App", [7, 18446744073709551615]⟩ =
        .ok "x._._@.Std.Data.3.0._@x.App._hyg.7.18446744073709551615" := by decide
  exact ⟨h, ((decode_encode _).2 _ h).2.2⟩

/-! ## Writing what was read -/

end ScopedName

/-- Whether a numeral is written with a zero that its scope is not written with. -/
def Numeral.HasLeadingZero (n : Numeral) : Prop :=
  n.digits.head? = some '0' ∧ 1 < n.digits.length

instance (n : Numeral) : Decidable n.HasLeadingZero := inferInstanceAs (Decidable (_ ∧ _))

/-- All scopes of a spelling, as they are written. -/
def Spelling.allNumerals (w : Spelling) : List Numeral :=
  w.groups.flatMap Group.numerals ++ w.numerals

theorem Numeral.strip_of_not_hasLeadingZero {n : Numeral} (h : ¬ n.HasLeadingZero) :
    n.strip = n := by
  ext1
  show stripZeros n.digits = n.digits
  generalize hdigits : n.digits = digits
  fun_cases stripZeros digits with
  | case1 d ds => exact absurd ⟨by rw [hdigits]; rfl, by simp [hdigits]⟩ h
  | case2 => rfl

theorem Numeral.map_strip {ns : List Numeral} (h : ∀ n ∈ ns, ¬ n.HasLeadingZero) :
    ns.map strip = ns :=
  (List.map_congr_left fun n hn => strip_of_not_hasLeadingZero (h n hn)).trans ns.map_id

theorem Group.strip_of_not_hasLeadingZero {g : Group} (h : ∀ n ∈ g.numerals, ¬ n.HasLeadingZero) :
    g.strip = g := by
  cases g
  simp only [strip, Numeral.map_strip h]

theorem Spelling.strip_of_not_hasLeadingZero {w : Spelling}
    (h : ∀ n ∈ w.allNumerals, ¬ n.HasLeadingZero) : w.strip = w := by
  have hgroups : w.groups.map Group.strip = w.groups := by
    refine (List.map_congr_left fun g hg => ?_).trans w.groups.map_id
    refine Group.strip_of_not_hasLeadingZero fun n hn => h n (List.mem_append_left _ ?_)
    exact List.mem_flatMap.2 ⟨g, hg, hn⟩
  have hnumerals := Numeral.map_strip fun n hn => h n (List.mem_append_right _ hn)
  cases w
  simp only [strip, hgroups, hnumerals]

namespace ScopedName

/-- `decode` accepts the spellings of names.  What was read can be written again unless its base
was bad, and is then spelled as before without leading zeros. -/
theorem encode_decode (name : String) (n : ScopedName) :
    (decode name = .ok n ↔ ∃ w : Spelling, name.toList = w.text ∧ w.name = n) ∧
      ∀ w : Spelling, name.toList = w.text → w.name = n →
        ((∃ written, n.encode = .ok written) ↔ ValidBase (String.ofList w.base)) ∧
        (∀ written, n.encode = .ok written → written.toList = w.strip.text) ∧
        ((∀ numeral ∈ w.allNumerals, ¬ numeral.HasLeadingZero) →
          ∀ written, n.encode = .ok written → written = name) := by
  refine ⟨decode_eq_ok_iff, ?_⟩
  rintro w hname rfl
  have hwritten : ∀ written, w.name.encode = .ok written → written.toList = w.strip.text := by
    intro written h
    rw [encode_name w (wellFormed_of_encode h).base] at h
    rw [← Except.ok.inj h, String.toList_ofList]
  refine ⟨⟨?_, fun h => ⟨_, encode_name w h⟩⟩, hwritten, fun hzero written h => ?_⟩
  · rintro ⟨written, h⟩
    exact (wellFormed_of_encode h).base
  · rw [← String.toList_inj, hwritten written h, Spelling.strip_of_not_hasLeadingZero hzero, hname]

/-- A spelling with zeros in front of its scopes. -/
def paddedSpelling : Spelling where
  base := ['x']
  separator_notIn := by decide
  groups := [⟨"Lib", by decide, [⟨['0', '3'], by decide, by simp, by decide⟩], by decide⟩]
  mainModule := "App"
  valid := by decide
  numerals := [⟨['0', '0', '7'], by decide, by simp, by decide⟩]
  numerals_ne_nil := by decide

theorem encode_decode_padded :
    decode "x._@.Lib.03.App._hyg.007" = .ok paddedSpelling.name ∧
      paddedSpelling.name.encode = .ok "x._@.Lib.3.App._hyg.7" ∧
      ∀ written, paddedSpelling.strip.name.encode = .ok written →
        written = "x._@.Lib.3.App._hyg.7" := by
  have hpadded := encode_decode "x._@.Lib.03.App._hyg.007" paddedSpelling.name
  have hstripped := encode_decode "x._@.Lib.3.App._hyg.7" paddedSpelling.strip.name
  refine ⟨hpadded.1.2 ⟨paddedSpelling, by decide, rfl⟩, ?_,
    (hstripped.2 paddedSpelling.strip (by decide) rfl).2.2 (by decide)⟩
  obtain ⟨hvalid, htext, -⟩ := hpadded.2 paddedSpelling (by decide) rfl
  obtain ⟨written, h⟩ := hvalid.2 (by decide)
  have hwritten : written = "x._@.Lib.3.App._hyg.7" := by
    rw [← String.toList_inj, htext written h]
    decide
  rw [h, hwritten]

end ScopedName

end MacroExpansion
