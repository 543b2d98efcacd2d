import MacroExpansion.Proofs.Text.Occurrence
import MacroExpansion.Proofs.Name.Path
import MacroExpansion.Proofs.Name.Tail

/-!
# Spellings of scoped names

A spelling is a text of the form

`base ._@. (module . scopes .)* module ._hyg. scopes`

together with its parts.  `decode` accepts exactly the texts of spellings, and gives back the name
that a spelling denotes (`decode_eq_ok_iff`).
-/

namespace MacroExpansion

open ScopedName

/-- A written name, with its parts.  The first separator is the one after the base. -/
structure Spelling where
  base : List Char
  separator_notIn : ¬ separator <:+: base ++ separatorStem
  groups : List Group
  mainModule : String
  valid : ValidModule mainModule
  numerals : List Numeral
  numerals_ne_nil : numerals ≠ []

namespace Spelling

/-- What stands between the separator and the marker. -/
def path (w : Spelling) : List Char := w.groups.flatMap Group.text ++ w.mainModule.toList

def text (w : Spelling) : List Char :=
  w.base ++ separator ++ w.path ++ marker ++ Numeral.join w.numerals

/-- What a spelling denotes. -/
def name (w : Spelling) : ScopedName :=
  ⟨String.ofList w.base, w.groups.map Group.segment, w.mainModule, w.numerals.map Numeral.scope⟩

end Spelling

/-! ## The scopes at the end -/

theorem isTailChar_of_mem_join {ns : List Numeral} {c : Char} (h : c ∈ Numeral.join ns) :
    isTailChar c = true := by
  induction ns with
  | nil => cases h
  | cons n ns ih =>
    have hn : ∀ c ∈ n.digits, isTailChar c = true := fun c hc => by
      rw [isTailChar, n.isDigit_of_mem c hc, Bool.true_or]
    cases ns with
    | nil =>
      rw [Numeral.join, List.map_singleton, List.intercalate_singleton] at h
      exact hn c h
    | cons m ns =>
      rw [Numeral.join, List.map_cons, List.map_cons, List.intercalate_cons_cons, List.append_assoc,
        List.mem_append, List.mem_append, List.mem_singleton] at h
      rcases h with h | rfl | h
      · exact hn c h
      · rfl
      · exact ih h

/-- Joined numerals end in a digit. -/
theorem exists_join_eq_concat {ns : List Numeral} (h : ns ≠ []) :
    ∃ tail last, Numeral.join ns = tail ++ [last] ∧ last.isDigit = true := by
  induction ns with
  | nil => exact absurd rfl h
  | cons n ns ih =>
    cases ns with
    | nil =>
      obtain ⟨tail, last, hdigits⟩ := (List.eq_nil_or_concat' n.digits).resolve_left n.digits_ne_nil
      refine ⟨tail, last, ?_, n.isDigit_of_mem last (by simp [hdigits])⟩
      rw [Numeral.join, List.map_singleton, List.intercalate_singleton, hdigits]
    | cons m ns =>
      obtain ⟨tail, last, hjoin, hlast⟩ := ih (List.cons_ne_nil _ _)
      refine ⟨n.digits ++ '.' :: tail, last, ?_, hlast⟩
      rw [Numeral.join, List.map_cons, List.map_cons, List.intercalate_cons_cons,
        ← List.map_cons, ← Numeral.join, hjoin]
      simp

/-- No marker reaches from the end of one marker into the scopes after it. -/
theorem marker_notIn_scopes {scopes : List Char} (h : ∀ c ∈ scopes, isTailChar c = true) :
    ¬ marker <:+: marker.tail ++ scopes := by
  intro hi
  have hscopes : '_' ∉ scopes := fun hmem => absurd (h _ hmem) (by decide)
  rcases List.infix_cons_iff.1 hi with hp | hi
  · exact absurd (List.cons_prefix_cons.1 hp).1 (by decide)
  · have hmem : '_' ∈ marker := by decide
    have := hi.mem hmem
    simp [hscopes] at this

namespace ScopedName

/-- What `decode` does, step by step. -/
theorem decode_eq_ok_iff_exists {name : String} {n : ScopedName} :
    decode name = .ok n ↔ hasScopes name = true ∧
      ∃ base rest path final, Text.splitFirst? separator name.toList = some (base, rest) ∧
        Text.splitLast? marker rest = some (path, final) ∧
        (final.splitOn '.').mapM (readScope name) = .ok n.scopes ∧
        readPath name (path.splitOn '.') [] [] [] = .ok (n.imported, n.mainModule) ∧
        String.ofList base = n.base := by
  rw [decode]
  cases hs : hasScopes name with
  | false => exact iff_of_false (fun h => by cases h) (fun h => by cases h.1)
  | true =>
    rw [Bool.not_true, if_neg (by decide)]
    constructor
    · intro h
      refine ⟨rfl, ?_⟩
      split at h
      case h_1 => cases h
      case h_2 base rest hfirst =>
        split at h
        case h_1 => cases h
        case h_2 path final hlast =>
          obtain ⟨scopes, hscopes, h⟩ := bind_eq_ok_iff.1 h
          obtain ⟨⟨imported, mainModule⟩, hpath, h⟩ := bind_eq_ok_iff.1 h
          obtain rfl := Except.ok.inj h
          exact ⟨base, rest, path, final, hfirst, hlast, hscopes, hpath, rfl⟩
    · rintro ⟨-, base, rest, path, final, hfirst, hlast, hscopes, hpath, hbase⟩
      rw [hfirst]
      dsimp only
      rw [hlast]
      refine bind_eq_ok_iff.2 ⟨n.scopes, hscopes, bind_eq_ok_iff.2 ⟨_, hpath, ?_⟩⟩
      rw [hbase]
      rfl

/-! ## Reading and spelling -/

theorem hasScopes_of_toList_eq {name : String} {w : Spelling} (h : name.toList = w.text) :
    hasScopes name = true := by
  obtain ⟨tail, last, hjoin, hlast⟩ := exists_join_eq_concat w.numerals_ne_nil
  refine (hasScopes_iff name).2 ⟨w.base ++ separator ++ w.path, tail, last, ?_, ?_, hlast⟩
  · rw [h, Spelling.text, hjoin, List.append_assoc _ tail]
  · intro c hc
    apply isTailChar_of_mem_join
    rw [hjoin]
    exact List.mem_append_left _ hc

theorem splitFirst?_of_toList_eq {name : String} {w : Spelling} (h : name.toList = w.text) :
    Text.splitFirst? separator name.toList =
      some (w.base, w.path ++ marker ++ Numeral.join w.numerals) := by
  refine (Text.splitFirst?_eq_some_iff (by decide)).2 ⟨?_, w.separator_notIn⟩
  rw [h, Spelling.text]
  simp only [List.append_assoc]

/-- The text of a spelling is read as what it denotes. -/
theorem decode_of_toList_eq {name : String} {w : Spelling} (h : name.toList = w.text) :
    decode name = .ok w.name := by
  refine decode_eq_ok_iff_exists.2 ⟨hasScopes_of_toList_eq h, w.base, _, w.path,
    Numeral.join w.numerals, splitFirst?_of_toList_eq h, ?_, ?_, ?_, rfl⟩
  · refine (Text.splitLast?_eq_some_iff (by decide)).2 ⟨rfl, ?_⟩
    exact marker_notIn_scopes fun c hc => isTailChar_of_mem_join hc
  · rw [splitOn_join w.numerals_ne_nil]
    exact mapM_readScope_eq_ok_iff.2 ⟨w.numerals, rfl, rfl⟩
  · rw [Spelling.path, splitOn_path]
    exact readPath_path w.groups w.valid

/-- Whatever is read is the text of a spelling. -/
theorem exists_spelling_of_decode {name : String} {n : ScopedName} (h : decode name = .ok n) :
    ∃ w : Spelling, name.toList = w.text ∧ w.name = n := by
  obtain ⟨-, base, rest, path, final, hfirst, hlast, hscopes, hpath, hbase⟩ :=
    decode_eq_ok_iff_exists.1 h
  obtain ⟨hname, hno⟩ := (Text.splitFirst?_eq_some_iff (by decide)).1 hfirst
  obtain ⟨hrest, -⟩ := (Text.splitLast?_eq_some_iff (by decide)).1 hlast
  obtain ⟨ns, hfinal, hns⟩ := mapM_readScope_eq_ok_iff.1 hscopes
  obtain ⟨hmain, groups, hgroups, hsplit⟩ :=
    (readPath_eq_ok_iff fun c hc => dot_notMem_of_mem_splitOn hc).1 hpath
  have hne : ns ≠ [] := by
    rintro rfl
    exact List.splitOn_ne_nil '.' final hfinal.symm
  refine ⟨⟨base, hno, groups, n.mainModule, hmain, ns, hne⟩, ?_, ?_⟩
  · have hpath : path = groups.flatMap Group.text ++ n.mainModule.toList :=
      calc path = ['.'].intercalate (path.splitOn '.') := (List.intercalate_splitOn '.').symm
        _ = ['.'].intercalate ((groups.flatMap Group.text ++ n.mainModule.toList).splitOn '.') := by
          rw [hsplit, splitOn_path]
        _ = groups.flatMap Group.text ++ n.mainModule.toList := List.intercalate_splitOn '.'
    have hfinal' : final = Numeral.join ns := by
      rw [Numeral.join, hfinal, List.intercalate_splitOn]
    rw [hname, hrest, hpath, hfinal', Spelling.text, Spelling.path]
    simp only [List.append_assoc]
  · rw [Spelling.name, hbase, hns, ← hgroups]

theorem decode_eq_ok_iff {name : String} {n : ScopedName} :
    decode name = .ok n ↔ ∃ w : Spelling, name.toList = w.text ∧ w.name = n := by
  constructor
  · exact exists_spelling_of_decode
  · rintro ⟨w, h, rfl⟩
    exact decode_of_toList_eq h

theorem eraseScopes_of_toList_eq {name : String} {w : Spelling} (h : name.toList = w.text) :
    eraseScopes name = String.ofList w.base := by
  rw [eraseScopes, if_pos (hasScopes_of_toList_eq h), splitFirst?_of_toList_eq h]

end ScopedName

end MacroExpansion
