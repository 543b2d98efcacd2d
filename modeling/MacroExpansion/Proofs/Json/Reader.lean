import MacroExpansion.Json.Reader
import MacroExpansion.Proofs.Json.Skim

/-!
# Readers on compact texts

What each reader gives on a text that was written for it, with the text after it left over.  A
reader is followed bind by bind (`Takes.bind`), and one that reads a whole value is stated for every
text that may follow the value (`Reads`).
-/

namespace MacroExpansion.Json

variable {α β σ : Type}

namespace Reader

/-- With some levels of nesting left, a reader takes `cs` to a value and leaves `rest`. -/
def Takes (r : Reader α) (levels : Nat) (cs : List Char) (a : α) (rest : List Char) : Prop :=
  (r.run levels).run cs = .ok (a, rest)

/-- A reader takes a text for a value, whatever follows the text. -/
def Reads (r : Reader α) (levels : Nat) (text : List Char) (a : α) : Prop :=
  ∀ rest, Follows rest → Takes r levels (text ++ rest) a rest

variable {levels : Nat} {cs rest : List Char}

/-! ## Moving through the text -/

theorem Takes.pure (a : α) : Takes (Pure.pure a) levels cs a cs := rfl

theorem Takes.bind {r : Reader α} {f : α → Reader β} {rest' : List Char} {a : α} {b : β}
    (h : Takes r levels cs a rest) (h' : Takes (f a) levels rest b rest') :
    Takes (r >>= f) levels cs b rest' := by
  rw [Takes, ReaderT.run_bind, StateT.run_bind, h]
  exact h'

theorem Takes.map {r : Reader α} {a : α} (f : α → β) (h : Takes r levels cs a rest) :
    Takes (f <$> r) levels cs (f a) rest := by
  rw [map_eq_pure_bind]
  exact h.bind (.pure _)

theorem Reads.map {r : Reader α} {text : List Char} {a : α} (f : α → β)
    (h : Reads r levels text a) : Reads (f <$> r) levels text (f a) :=
  fun rest hrest => (h rest hrest).map f

theorem Reads.bind_pure {r : Reader α} {text : List Char} {a : α} {f : α → β}
    (h : Reads r levels text a) : Reads (do return f (← r)) levels text (f a) :=
  fun rest hrest => (h rest hrest).bind (.pure _)

theorem takes_peek {c : Char} (h : isBlank c = false) :
    Takes peek levels (c :: cs) (c :: cs) (c :: cs) := by
  have hskip := skipBlanks_cons h cs
  show Except.ok (skipBlanks (c :: cs), skipBlanks (c :: cs)) = _
  rw [hskip]

theorem takes_require {c : Char} (h : isBlank c = false) :
    Takes (require c) levels (c :: cs) () cs := by
  refine (takes_peek h).bind ?_
  dsimp only
  rw [if_pos rfl]
  rfl

theorem takes_nested {r : Reader α} {c : Char} {a : α} (h : Takes r levels cs a rest) :
    Takes (nested r) (levels + 1) (c :: cs) a rest := h

theorem takes_ofScan {scan : List Char → Except Stop (α × List Char)} {a : α}
    (h : scan cs = .ok (a, rest)) : Takes (ofScan scan) levels cs a rest := by
  refine Takes.bind (a := cs) rfl ?_
  rw [h]
  rfl

/-! ## Scalars -/

theorem takes_string (s : String) : Takes string levels (writeString s ++ rest) s rest := by
  have hscan : Takes (ofScan (stringFrom 0)) levels (s.toList.flatMap writeChar ++ '"' :: rest)
      s.toList rest := takes_ofScan (stringFrom_flatMap_writeChar s.toList rest)
  have hstring : Takes string levels (writeString s ++ rest) (String.ofList s.toList) rest := by
    rw [writeString_append]
    exact (takes_peek rfl).bind (Takes.bind (a := ()) rfl (hscan.bind (.pure _)))
  rwa [String.ofList_toList] at hstring

theorem reads_string (s : String) : Reads string levels (writeString s) s :=
  fun _ _ => takes_string s

theorem takes_natural {n bound : Nat} {d : Char} (hdigit : d.isDigit = true) (hn : n < bound)
    (h : number false (d :: cs) = .ok (.natural n, rest)) :
    Takes (natural bound) levels (d :: cs) n rest := by
  refine (takes_peek (isBlank_of_isDigit hdigit)).bind ?_
  dsimp only
  rw [if_pos (.inr hdigit)]
  refine (takes_ofScan h).bind ?_
  dsimp only
  rw [if_pos hn]
  rfl

theorem reads_word (n : UInt64) : Reads word levels (writeWord n) n := by
  intro rest hrest
  have hnumber := number_writeWord n hrest
  obtain ⟨d, ds, hn⟩ := exists_cons_toDigits n.toNat
  have hdigit := isDigit_of_mem_toDigits (hn ▸ List.mem_cons_self)
  rw [writeWord, hn, List.cons_append] at hnumber ⊢
  have hword : Takes word levels (d :: (ds ++ rest)) (UInt64.ofNat n.toNat) rest :=
    (takes_natural hdigit n.toNat_lt_size hnumber).bind (.pure _)
  rwa [UInt64.ofNat_toNat] at hword

theorem reads_nullable_null (r : Reader α) :
    Reads (nullable r) levels ['n', 'u', 'l', 'l'] none := fun _ _ => rfl

theorem reads_nullable {r : Reader α} {c : Char} {a : α} (hblank : isBlank c = false)
    (hn : c ≠ 'n') (h : Reads r levels (c :: cs) a) :
    Reads (nullable r) levels (c :: cs) (some a) := by
  intro rest hrest
  refine (takes_peek hblank).bind ?_
  split
  case h_1 heq => exact absurd (List.cons.inj heq).1 hn
  case h_2 => exact (h rest hrest).map some

/-! ## Arrays -/

theorem takes_endItems : Takes endItems levels (']' :: rest) () rest := rfl

theorem takes_item?_none (first : Bool) (r : Reader α) :
    Takes (item? first r) levels (']' :: rest) none (']' :: rest) := rfl

section Items

variable {r : Reader α} {text : List Char} {a : α}

theorem takes_moreItems_true (h : Begins text) :
    Takes (moreItems true) levels (text ++ rest) true (text ++ rest) := by
  obtain ⟨c, cs, rfl, hblank, hclose⟩ := h
  refine (takes_peek hblank).bind ?_
  split
  case h_1 heq => cases heq
  case h_2 heq => exact absurd (List.cons.inj heq).1 hclose
  case h_3 => rfl

theorem takes_moreItems_false (h : Begins text) :
    Takes (moreItems false) levels (',' :: text ++ rest) true (text ++ rest) := by
  obtain ⟨c, cs, rfl, hblank, hclose⟩ := h
  refine (takes_peek rfl).bind (Takes.bind (a := ()) rfl ((takes_peek hblank).bind ?_))
  split
  case h_1 heq => cases heq
  case h_2 heq => exact absurd (List.cons.inj heq).1 hclose
  case h_3 => rfl

/-- The first item. -/
theorem takes_item?_true (hbegins : Begins text) (h : Reads r levels text a)
    (hrest : Follows rest) : Takes (item? true r) levels (text ++ rest) (some a) rest :=
  (takes_moreItems_true hbegins).bind ((h rest hrest).map some)

/-- An item after others. -/
theorem takes_item?_false (hbegins : Begins text) (h : Reads r levels text a)
    (hrest : Follows rest) : Takes (item? false r) levels (',' :: text ++ rest) (some a) rest :=
  (takes_moreItems_false hbegins).bind ((h rest hrest).map some)

theorem takes_item {first : Bool} (h : Takes (item? first r) levels cs (some a) rest) :
    Takes (item first r) levels cs a rest :=
  h.bind (.pure a)

end Items

theorem takes_items_false {r : Reader α} {texts : List (List Char)} {values : List α}
    (hbegins : ∀ text ∈ texts, Begins text) (h : List.Forall₂ (Reads r levels) texts values)
    {fuel : Nat} (hfuel : texts.length < fuel) :
    Takes (items r fuel false) levels (texts.flatMap (',' :: ·) ++ ']' :: rest) values
      (']' :: rest) := by
  induction h generalizing fuel with
  | nil =>
    obtain ⟨fuel, rfl⟩ := Nat.exists_eq_add_one.2 (Nat.zero_lt_of_lt hfuel)
    exact (takes_item?_none false r).bind (.pure [])
  | @cons text a texts values hread _ ih =>
    obtain ⟨fuel, rfl⟩ := Nat.exists_eq_add_one.2 (Nat.zero_lt_of_lt hfuel)
    obtain ⟨htext, htexts⟩ := List.forall_mem_cons.1 hbegins
    rw [List.length_cons] at hfuel
    rw [List.flatMap_cons, List.append_assoc]
    have hitem := takes_item?_false htext hread (follows_parts (.inl rfl) texts rest)
    exact hitem.bind ((ih htexts (by omega)).bind (.pure _))

theorem takes_items_true {r : Reader α} {texts : List (List Char)} {values : List α}
    (hbegins : ∀ text ∈ texts, Begins text) (h : List.Forall₂ (Reads r levels) texts values)
    {fuel : Nat} (hfuel : texts.length < fuel) :
    Takes (items r fuel true) levels ([','].intercalate texts ++ ']' :: rest) values
      (']' :: rest) := by
  obtain ⟨fuel, rfl⟩ := Nat.exists_eq_add_one.2 (Nat.zero_lt_of_lt hfuel)
  cases h with
  | nil => exact (takes_item?_none true r).bind (.pure [])
  | @cons text a texts values hread hreads =>
    obtain ⟨htext, htexts⟩ := List.forall_mem_cons.1 hbegins
    rw [List.length_cons] at hfuel
    rw [intercalate_comma, List.append_assoc]
    have hitem := takes_item?_true htext hread (follows_parts (.inl rfl) texts rest)
    exact hitem.bind ((takes_items_false htexts hreads (by omega)).bind (.pure _))

theorem length_le_flatMap_comma (texts : List (List Char)) :
    texts.length ≤ (texts.flatMap (',' :: ·)).length := by
  induction texts with
  | nil => exact Nat.le_refl 0
  | cons text texts ih =>
    rw [List.flatMap_cons, List.cons_append, List.length_cons, List.length_cons, List.length_append]
    omega

/-- In brackets there is a character for each part at least. -/
theorem length_parts_lt (texts : List (List Char)) (close : Char) (rest : List Char) :
    texts.length < ([','].intercalate texts ++ close :: rest).length + 1 := by
  cases texts with
  | nil => exact Nat.succ_pos _
  | cons text texts =>
    have hle := length_le_flatMap_comma texts
    rw [intercalate_comma, List.length_cons, List.length_append, List.length_append,
      List.length_cons]
    omega

theorem bracketed_append (left right : Char) (parts rest : List Char) :
    (left :: parts ++ [right]) ++ rest = left :: (parts ++ right :: rest) := by
  rw [List.append_assoc, List.singleton_append, List.cons_append]

theorem reads_array {r : Reader α} {texts : List (List Char)} {values : List α}
    (hbegins : ∀ text ∈ texts, Begins text) (h : List.Forall₂ (Reads r levels) texts values) :
    Reads (array r) (levels + 1) (writeArray texts) values := by
  intro rest _
  rw [writeArray, bracketed_append]
  refine (takes_peek rfl).bind (takes_nested ?_)
  exact (takes_items_true hbegins h (length_parts_lt texts ']' rest)).bind
    (takes_endItems.bind (.pure values))

theorem reads_tuple {r : Reader α} {texts : List (List Char)} {a : α}
    (h : ∀ rest, Takes r levels ([','].intercalate texts ++ ']' :: rest) a (']' :: rest)) :
    Reads (tuple r) (levels + 1) (writeArray texts) a := by
  intro rest _
  rw [writeArray, bracketed_append]
  refine (takes_peek rfl).bind (takes_nested ?_)
  exact (h rest).bind (takes_endItems.bind (.pure a))

/-- An array of two items. -/
theorem reads_pair {r : Reader α} {r' : Reader β} {f : α → β → σ} {text text' : List Char} {a : α}
    {b : β} (hbegins : Begins text) (h : Reads r levels text a) (hbegins' : Begins text')
    (h' : Reads r' levels text' b) :
    Reads (tuple do return f (← item true r) (← item false r')) (levels + 1)
      (writeArray [text, text']) (f a b) := by
  refine reads_tuple fun rest => ?_
  have hfirst := takes_item (takes_item?_true hbegins h (follows_parts (.inl rfl) [text'] rest))
  have hsecond := takes_item (takes_item?_false hbegins' h' (follows_cons (.inr (.inl rfl)) rest))
  rw [intercalate_comma, List.append_assoc]
  rw [List.flatMap_cons, List.flatMap_nil, List.append_nil] at hfirst ⊢
  exact hfirst.bind (hsecond.bind (.pure _))

/-! ## Objects -/

/-- The members of an object take what was read so far to what is read after them. -/
inductive Gathers (field : σ → String → Reader σ) (levels : Nat) :
    σ → List (String × List Char) → σ → Prop
  | nil (s : σ) : Gathers field levels s [] s
  | cons {s s' s'' : σ} {key : String} {text : List Char} {members : List (String × List Char)} :
      Reads (field s key) levels (':' :: text) s' → Gathers field levels s' members s'' →
      Gathers field levels s ((key, text) :: members) s''

theorem reads_member {r : Reader α} {text : List Char} {a : α} (h : Reads r levels text a) :
    Reads (member r) levels (':' :: text) a :=
  fun rest hrest => (takes_require rfl).bind (h rest hrest)

theorem reads_once {r : Reader α} {text : List Char} {a : α} (h : Reads r levels text a) :
    Reads (once none r) levels (':' :: text) (some a) :=
  (reads_member h).map some

theorem takes_moreKeys_true (key : String) (text : List Char) :
    Takes (moreKeys true) levels (writeMember key text ++ rest) true
      (writeMember key text ++ rest) := by
  rw [writeMember_append, writeString_append]
  exact (takes_peek rfl).bind rfl

theorem takes_moreKeys_false (key : String) (text : List Char) :
    Takes (moreKeys false) levels (',' :: writeMember key text ++ rest) true
      (writeMember key text ++ rest) := by
  rw [List.cons_append, writeMember_append, writeString_append]
  exact (takes_peek rfl).bind (Takes.bind (a := ()) rfl ((takes_peek rfl).bind rfl))

theorem takes_members_false {field : σ → String → Reader σ} {s s' : σ}
    {parts : List (String × List Char)} (h : Gathers field levels s parts s') {fuel : Nat}
    (hfuel : parts.length < fuel) :
    Takes (members field fuel false s) levels
      ((writeMembers parts).flatMap (',' :: ·) ++ '}' :: rest) s' ('}' :: rest) := by
  induction h generalizing fuel with
  | nil s =>
    obtain ⟨fuel, rfl⟩ := Nat.exists_eq_add_one.2 (Nat.zero_lt_of_lt hfuel)
    exact Takes.bind (a := false) rfl (.pure s)
  | @cons s s' s'' key text parts hfield _ ih =>
    obtain ⟨fuel, rfl⟩ := Nat.exists_eq_add_one.2 (Nat.zero_lt_of_lt hfuel)
    rw [List.length_cons] at hfuel
    rw [writeMembers, List.map_cons, List.flatMap_cons, List.append_assoc]
    refine (takes_moreKeys_false key text).bind ?_
    rw [writeMember_append, ← List.cons_append]
    have hvalue := hfield _ (follows_parts (.inr rfl) (writeMembers parts) rest)
    exact (takes_string key).bind (hvalue.bind (ih (by omega)))

theorem takes_members_true {field : σ → String → Reader σ} {s s' : σ}
    {parts : List (String × List Char)} (h : Gathers field levels s parts s') {fuel : Nat}
    (hfuel : parts.length < fuel) :
    Takes (members field fuel true s) levels
      ([','].intercalate (writeMembers parts) ++ '}' :: rest) s' ('}' :: rest) := by
  obtain ⟨fuel, rfl⟩ := Nat.exists_eq_add_one.2 (Nat.zero_lt_of_lt hfuel)
  cases h with
  | nil => exact Takes.bind (a := false) rfl (.pure s)
  | @cons _ s' _ key text parts hfield hfields =>
    rw [List.length_cons] at hfuel
    rw [writeMembers, List.map_cons, intercalate_comma, List.append_assoc]
    refine (takes_moreKeys_true key text).bind ?_
    rw [writeMember_append, ← List.cons_append]
    have hvalue := hfield _ (follows_parts (.inr rfl) (writeMembers parts) rest)
    exact (takes_string key).bind (hvalue.bind (takes_members_false hfields (by omega)))

theorem reads_object {field : σ → String → Reader σ} {start s : σ} {finish : σ → Reader α} {a : α}
    {parts : List (String × List Char)} (h : Gathers field levels start parts s)
    (hfinish : finish s = pure a) :
    Reads (object field start finish) (levels + 1) (writeObject (writeMembers parts)) a := by
  intro rest _
  rw [writeObject, bracketed_append]
  have hfuel := length_parts_lt (writeMembers parts) '}' rest
  rw [List.length_map] at hfuel
  refine (takes_peek rfl).bind (takes_nested ((takes_members_true h hfuel).bind ?_))
  rw [hfinish]
  exact (Takes.pure a).bind ((takes_require rfl).bind (.pure a))

theorem reads_record {ofItems : Reader α} {field : σ → String → Reader σ} {start s : σ}
    {finish : σ → Reader α} {a : α} {parts : List (String × List Char)}
    (h : Gathers field levels start parts s) (hfinish : finish s = pure a) :
    Reads (record ofItems field start finish) (levels + 1) (writeObject (writeMembers parts)) a :=
  fun rest hrest => (takes_peek rfl).bind (reads_object h hfinish rest hrest)

theorem reads_variant_string {plain : String → Option α} {payload : String → Option (Reader α)}
    {name : String} {a : α} (h : plain name = some a) :
    Reads (variant plain payload) levels (writeString name) a := by
  intro rest _
  have hstring : Takes string levels (writeString name ++ rest) name rest := takes_string name
  rw [writeString_append] at hstring ⊢
  refine (takes_peek rfl).bind (hstring.bind ?_)
  rw [h]
  exact .pure a

theorem reads_variant_object {plain : String → Option α} {payload : String → Option (Reader α)}
    {key : String} {r : Reader α} {text : List Char} {a : α} (hpayload : payload key = some r)
    (h : Reads r levels text a) :
    Reads (variant plain payload) (levels + 1) (writeObject [writeMember key text]) a := by
  intro rest _
  have hkey : Takes Reader.key levels (writeMember key text ++ '}' :: rest) key
      (':' :: text ++ '}' :: rest) := by
    have hstring : Takes string levels (writeMember key text ++ '}' :: rest) key
        (':' :: text ++ '}' :: rest) := by
      rw [writeMember_append]
      exact takes_string key
    rw [writeMember_append, writeString_append] at hstring ⊢
    exact (takes_peek rfl).bind hstring
  have hvalue := reads_member h ('}' :: rest) (follows_cons (.inr (.inr rfl)) rest)
  rw [writeObject, List.intercalate_singleton, bracketed_append]
  refine (takes_peek rfl).bind (takes_nested (hkey.bind ?_))
  rw [hpayload]
  exact hvalue.bind ((takes_peek rfl).bind (Takes.bind (a := ()) rfl (.pure a)))

/-! ## Whole texts -/

theorem Reads.takes {r : Reader α} {text : List Char} {a : α} (h : Reads r levels text a) :
    Takes r levels text a [] := by
  have htakes := h [] follows_nil
  rwa [List.append_nil] at htakes

theorem takes_text (h : skim false levels cs = .ok rest) : Takes text levels cs cs rest := by
  refine Takes.bind (a := cs) rfl (Takes.bind (a := levels) rfl ?_)
  rw [h]
  rfl

theorem takes_attempt_some {r : Reader α} {a : α} {cs' : List Char}
    (h : Takes r levels cs a rest) : Takes (attempt r cs) levels cs' (some a) cs' := by
  refine Takes.bind (a := levels) rfl ?_
  rw [h]
  rfl

theorem takes_attempt_none {r : Reader α} {e : Stop} {cs' : List Char}
    (h : (r.run levels).run cs = .error e) : Takes (attempt r cs) levels cs' none cs' := by
  refine Takes.bind (a := levels) rfl ?_
  rw [h]
  rfl

/-- An object is no array. -/
theorem run_array_object (r : Reader α) :
    ((array r).run levels).run ('{' :: cs) = .error .mismatched := rfl

end Reader

theorem decode_of_takes {r : Reader α} {a : α} {text : List Char}
    (h : r.Takes maxLevels text a []) : decode r (String.ofList text) = .ok a := by
  rw [decode, String.toList_ofList, h]
  rfl

end MacroExpansion.Json
