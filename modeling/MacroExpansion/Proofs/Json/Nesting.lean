import MacroExpansion.Proofs.Json.Scan

/-!
# Compact texts and how deep they nest

The nesting of a JSON text is the greatest number of arrays and objects that are open at once.  In a
compact text, which is built from null, strings and numbers by writing arrays and objects, an array
nests one level deeper than its deepest item and an object one level deeper than its deepest member
(`nesting_writeArray`, `nesting_writeObject`).
-/

namespace MacroExpansion.Json

/-- The greatest number of arrays and objects that are open at once in a text, when `depth` of them
are open before it.  Brackets in a string, where `quoted` is set, do not count. -/
def deepest : (quoted : Bool) → (depth : Nat) → List Char → Nat
  | _, depth, [] => depth
  | true, depth, '\\' :: _ :: cs => deepest true depth cs
  | true, depth, c :: cs => deepest (c != '"') depth cs
  | false, depth, c :: cs =>
    if c = '[' ∨ c = '{' then deepest false (depth + 1) cs
    else if c = ']' ∨ c = '}' then max depth (deepest false (depth - 1) cs)
    else deepest (c == '"') depth cs

/-- How deep arrays and objects nest in a text. -/
def nesting (text : List Char) : Nat := deepest false 0 text

/-- A text of `n` levels, after which the reading goes on as if it were not there. -/
def Nests (n : Nat) (text : List Char) : Prop :=
  ∀ depth rest, deepest false depth (text ++ rest) = max (depth + n) (deepest false depth rest)

theorem le_deepest (quoted : Bool) (depth : Nat) (cs : List Char) :
    depth ≤ deepest quoted depth cs := by
  fun_induction deepest quoted depth cs with
  | case1 => exact Nat.le_refl _
  | case2 _ _ _ ih => exact ih
  | case3 _ _ _ _ ih => exact ih
  | case4 _ _ _ _ ih => exact Nat.le_trans (Nat.le_succ _) ih
  | case5 => exact Nat.le_max_left _ _
  | case6 _ _ _ _ _ ih => exact ih

/-! ## Parts of a text -/

namespace Nests

variable {m n : Nat} {text text' : List Char}

theorem nesting_eq (h : Nests n text) : nesting text = n := by
  have heq := h 0 []
  rw [List.append_nil] at heq
  rw [nesting, heq, deepest, Nat.zero_add, Nat.max_zero]

theorem self (h : Nests n text) : Nests (nesting text) text := by
  rwa [h.nesting_eq]

/-- A text after which reading goes on at the same depth has no levels. -/
theorem of_deepest_eq (h : ∀ depth rest, deepest false depth (text ++ rest) =
    deepest false depth rest) : Nests 0 text := by
  intro depth rest
  rw [h, Nat.add_zero, Nat.max_eq_right (le_deepest false depth rest)]

theorem append (h : Nests m text) (h' : Nests n text') : Nests (max m n) (text ++ text') := by
  intro depth rest
  rw [List.append_assoc, h, h']
  omega

theorem nil : Nests 0 [] := of_deepest_eq fun _ _ => rfl

theorem comma : Nests 0 [','] := of_deepest_eq fun _ _ => rfl

theorem colon : Nests 0 [':'] := of_deepest_eq fun _ _ => rfl

theorem brackets {left right : Char} (hleft : left = '[' ∨ left = '{')
    (hright : right = ']' ∨ right = '}') (h : Nests n text) :
    Nests (n + 1) (left :: text ++ [right]) := by
  have hopen : ¬ (right = '[' ∨ right = '{') := by rcases hright with rfl | rfl <;> decide
  intro depth rest
  rw [List.cons_append, List.cons_append, deepest, if_pos hleft, List.append_assoc,
    List.singleton_append, h, deepest, if_neg hopen, if_pos hright, Nat.add_sub_cancel]
  have hle := le_deepest false depth rest
  omega

end Nests

/-! ## Scalars -/

theorem deepest_quoted {c : Char} (hbackslash : c ≠ '\\') (hquote : c ≠ '"') (depth : Nat)
    (cs : List Char) : deepest true depth (c :: cs) = deepest true depth cs := by
  rw [deepest, bne_iff_ne.2 hquote]
  rintro d cs' heq -
  exact hbackslash heq

theorem deepest_writeChar (depth : Nat) (c : Char) (cs : List Char) :
    deepest true depth (writeChar c ++ cs) = deepest true depth cs := by
  unfold writeChar
  split
  case h_8 hquote hbackslash _ _ _ _ _ =>
    split
    case isTrue hcontrol =>
      have hplain : ∀ n < 16, hexChar n ≠ '\\' ∧ hexChar n ≠ '"' := by decide
      obtain ⟨hhigh, hhigh'⟩ := hplain (c.toNat / 16) (by omega)
      obtain ⟨hlow, hlow'⟩ := hplain (c.toNat % 16) (by omega)
      simp only [List.cons_append, List.nil_append]
      rw [deepest, deepest_quoted (by decide) (by decide), deepest_quoted (by decide) (by decide),
        deepest_quoted hhigh hhigh', deepest_quoted hlow hlow']
    case isFalse => exact deepest_quoted hbackslash hquote depth cs
  all_goals rfl

theorem deepest_flatMap_writeChar (depth : Nat) (cs rest : List Char) :
    deepest true depth (cs.flatMap writeChar ++ '"' :: rest) = deepest false depth rest := by
  induction cs with
  | nil => rfl
  | cons c cs ih => rw [List.flatMap_cons, List.append_assoc, deepest_writeChar, ih]

theorem nests_writeString (s : String) : Nests 0 (writeString s) := by
  refine .of_deepest_eq fun depth rest => ?_
  rw [writeString_append]
  exact deepest_flatMap_writeChar depth s.toList rest

theorem deepest_of_isDigit {c : Char} (h : c.isDigit = true) (depth : Nat) (cs : List Char) :
    deepest false depth (c :: cs) = deepest false depth cs := by
  have hopen : ¬ (c = '[' ∨ c = '{') := by rintro (rfl | rfl) <;> exact absurd h (by decide)
  have hclose : ¬ (c = ']' ∨ c = '}') := by rintro (rfl | rfl) <;> exact absurd h (by decide)
  have hquote : (c == '"') = false := by
    rw [beq_eq_false_iff_ne]
    rintro rfl
    exact absurd h (by decide)
  rw [deepest, if_neg hopen, if_neg hclose, hquote]

theorem nests_writeWord (n : UInt64) : Nests 0 (writeWord n) := by
  have hdigits (ds : List Char) (hds : ∀ c ∈ ds, c.isDigit = true) : Nests 0 ds := by
    refine .of_deepest_eq fun depth rest => ?_
    induction ds with
    | nil => rfl
    | cons d ds ih =>
      obtain ⟨hd, hds⟩ := List.forall_mem_cons.1 hds
      rw [List.cons_append, deepest_of_isDigit hd, ih hds]
  exact hdigits _ fun _ => isDigit_of_mem_toDigits

/-! ## Arrays and objects -/

/-- Items with commas between them: all but the first come after one. -/
theorem intercalate_comma (item : List Char) (items : List (List Char)) :
    [','].intercalate (item :: items) = item ++ items.flatMap (',' :: ·) := by
  induction items generalizing item with
  | nil => rw [List.intercalate_singleton, List.flatMap_nil, List.append_nil]
  | cons next items ih =>
    rw [List.intercalate_cons_cons, ih, List.flatMap_cons, List.append_assoc, List.singleton_append,
      List.cons_append]

/-- How deep the deepest of some texts nests. -/
def nestingAll (texts : List (List Char)) : Nat := (texts.map nesting).foldr max 0

theorem nestingAll_cons (text : List Char) (texts : List (List Char)) :
    nestingAll (text :: texts) = max (nesting text) (nestingAll texts) := rfl

theorem nesting_le_nestingAll {texts : List (List Char)} {text : List Char} (h : text ∈ texts) :
    nesting text ≤ nestingAll texts := by
  induction texts with
  | nil => exact absurd h List.not_mem_nil
  | cons other texts ih =>
    rw [nestingAll_cons]
    rcases List.mem_cons.1 h with rfl | h
    · exact Nat.le_max_left _ _
    · exact Nat.le_trans (ih h) (Nat.le_max_right _ _)

theorem nests_flatMap_comma {items : List (List Char)}
    (h : ∀ item ∈ items, Nests (nesting item) item) :
    Nests (nestingAll items) (items.flatMap (',' :: ·)) := by
  induction items with
  | nil => exact .nil
  | cons item items ih =>
    obtain ⟨hitem, hitems⟩ := List.forall_mem_cons.1 h
    have hall := (Nests.comma.append hitem).append (ih hitems)
    rwa [Nat.zero_max] at hall

theorem nests_intercalate {items : List (List Char)}
    (h : ∀ item ∈ items, Nests (nesting item) item) :
    Nests (nestingAll items) ([','].intercalate items) := by
  cases items with
  | nil => exact .nil
  | cons item items =>
    obtain ⟨hitem, hitems⟩ := List.forall_mem_cons.1 h
    rw [intercalate_comma]
    exact hitem.append (nests_flatMap_comma hitems)

/-- Brackets around items nest one level deeper than the deepest item. -/
theorem nests_bracketed {left right : Char} (hleft : left = '[' ∨ left = '{')
    (hright : right = ']' ∨ right = '}') {items : List (List Char)}
    (h : ∀ item ∈ items, Nests (nesting item) item) :
    Nests (nestingAll items + 1) (left :: [','].intercalate items ++ [right]) :=
  (nests_intercalate h).brackets hleft hright

theorem nests_writeMember (key : String) {text : List Char} (h : Nests (nesting text) text) :
    Nests (nesting text) (writeMember key text) := by
  have hmember : Nests (max 0 (max 0 (nesting text))) (writeMember key text) :=
    (nests_writeString key).append (Nests.colon.append h)
  rwa [Nat.zero_max, Nat.zero_max] at hmember

/-- The texts of the members of an object. -/
abbrev writeMembers (members : List (String × List Char)) : List (List Char) :=
  members.map fun m => writeMember m.1 m.2

theorem nests_writeMembers {members : List (String × List Char)}
    (h : ∀ m ∈ members, Nests (nesting m.2) m.2) :
    ∀ text ∈ writeMembers members, Nests (nesting text) text := by
  intro text htext
  obtain ⟨m, hm, rfl⟩ := List.mem_map.1 htext
  exact (nests_writeMember m.1 (h m hm)).self

/-! ## Compact texts -/

/-- A text that is written without blanks.  A member of an object is a key and a text. -/
inductive Compact : List Char → Prop
  | null : Compact ['n', 'u', 'l', 'l']
  | string (s : String) : Compact (writeString s)
  | word (n : UInt64) : Compact (writeWord n)
  | array {items : List (List Char)} :
      (∀ item ∈ items, Compact item) → Compact (writeArray items)
  | object {members : List (String × List Char)} :
      (∀ m ∈ members, Compact m.2) →
      Compact (writeObject (writeMembers members))

theorem Compact.object_one {text : List Char} (key : String) (h : Compact text) :
    Compact (writeObject [writeMember key text]) :=
  @object [(key, text)] (List.forall_mem_singleton.2 h)

theorem Compact.object_two {text text' : List Char} (key key' : String) (h : Compact text)
    (h' : Compact text') : Compact (writeObject [writeMember key text, writeMember key' text']) :=
  @object [(key, text), (key', text')]
    (List.forall_mem_cons.2 ⟨h, List.forall_mem_singleton.2 h'⟩)

theorem Compact.nests {text : List Char} (h : Compact text) : Nests (nesting text) text := by
  induction h with
  | null =>
    have hnull : Nests 0 ['n', 'u', 'l', 'l'] := .of_deepest_eq fun _ _ => rfl
    exact hnull.self
  | string s => exact (nests_writeString s).self
  | word n => exact (nests_writeWord n).self
  | array _ ih => exact (nests_bracketed (.inl rfl) (.inl rfl) ih).self
  | object _ ih => exact (nests_bracketed (.inr rfl) (.inr rfl) (nests_writeMembers ih)).self

theorem nesting_writeArray {items : List (List Char)} (h : ∀ item ∈ items, Compact item) :
    nesting (writeArray items) = nestingAll items + 1 :=
  (nests_bracketed (.inl rfl) (.inl rfl) fun item hitem => (h item hitem).nests).nesting_eq

theorem nesting_writeObject {members : List (String × List Char)} (h : ∀ m ∈ members, Compact m.2) :
    nesting (writeObject (writeMembers members)) = nestingAll (members.map (·.2)) + 1 := by
  have hnests (m : String × List Char) (hm : m ∈ members) := (h m hm).nests
  have hmembers : (writeMembers members).map nesting = (members.map (·.2)).map nesting := by
    rw [List.map_map, List.map_map]
    exact List.map_congr_left fun m hm => (nests_writeMember m.1 (hnests m hm)).nesting_eq
  rw [nestingAll, ← hmembers]
  exact (nests_bracketed (.inr rfl) (.inr rfl) (nests_writeMembers hnests)).nesting_eq

theorem nesting_object_one {text : List Char} (key : String) (h : Compact text) :
    nesting (writeObject [writeMember key text]) = nesting text + 1 := by
  have hobject := @nesting_writeObject [(key, text)] (List.forall_mem_singleton.2 h)
  rwa [List.map_singleton, nestingAll_cons, nestingAll, List.map_nil, List.foldr_nil,
    Nat.max_zero] at hobject

theorem nesting_object_two {text text' : List Char} (key key' : String) (h : Compact text)
    (h' : Compact text') :
    nesting (writeObject [writeMember key text, writeMember key' text']) =
      max (nesting text) (nesting text') + 1 := by
  have hobject := @nesting_writeObject [(key, text), (key', text')]
    (List.forall_mem_cons.2 ⟨h, List.forall_mem_singleton.2 h'⟩)
  rwa [List.map_cons, List.map_singleton, nestingAll_cons, nestingAll_cons, nestingAll,
    List.map_nil, List.foldr_nil, Nat.max_zero] at hobject

/-! ## Levels that are left -/

section Levels

variable {levels : Nat} {text text' : List Char} {key key' : String}

/-- Of the levels that are left for an array, one is its own. -/
theorem exists_levels_array {items : List (List Char)} (h : ∀ item ∈ items, Compact item)
    (hlevels : nesting (writeArray items) ≤ levels) :
    ∃ levels', levels = levels' + 1 ∧ ∀ item ∈ items, nesting item ≤ levels' := by
  rw [nesting_writeArray h] at hlevels
  refine ⟨levels - 1, by omega, fun item hitem => ?_⟩
  have hle := nesting_le_nestingAll hitem
  omega

theorem exists_levels_object_one (h : Compact text)
    (hlevels : nesting (writeObject [writeMember key text]) ≤ levels) :
    ∃ levels', levels = levels' + 1 ∧ nesting text ≤ levels' := by
  rw [nesting_object_one key h] at hlevels
  exact ⟨levels - 1, by omega, by omega⟩

theorem exists_levels_object_two (h : Compact text) (h' : Compact text')
    (hlevels : nesting (writeObject [writeMember key text, writeMember key' text']) ≤ levels) :
    ∃ levels', levels = levels' + 1 ∧ nesting text ≤ levels' ∧ nesting text' ≤ levels' := by
  rw [nesting_object_two key key' h h'] at hlevels
  exact ⟨levels - 1, by omega, by omega, by omega⟩

end Levels

end MacroExpansion.Json
