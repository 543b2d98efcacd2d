import MacroExpansion.Json.Skim

/-!
# Reading JSON into values

A reader turns JSON text into a value of a wanted shape while it goes along, so that a value of the
wrong shape is noticed before a mistake in the text after it.  Arrays and objects may nest to a
given depth.

A record is written as an object or as the array of its fields in order, and fields that nobody
asked for are skipped.  A variant is written as an object with one key.
-/

namespace MacroExpansion.Json

/-- Readers: they know the levels of nesting that are left, consume text, and may stop. -/
abbrev Reader := ReaderT Nat (StateT (List Char) (Except Stop))

namespace Reader

variable {α σ : Type}

/-! ## Moving through the text -/

def stop (s : Stop) : Reader α := throw s

/-- The text that is left, without the blanks in front of it. -/
def peek : Reader (List Char) := do
  let rest := skipBlanks (← get)
  set rest
  return rest

/-- Takes a scanner for a reader. -/
def ofScan (scan : List Char → Except Stop (α × List Char)) : Reader α := do
  match scan (← get) with
  | .error e => stop e
  | .ok (a, rest) =>
    set rest
    return a

/-- Passes over the one character that has to come next. -/
def require (c : Char) : Reader Unit := do
  match ← peek with
  | [] => stop .truncated
  | d :: rest => if d = c then set rest else stop (stopAt (d :: rest))

/-- Passes over an opening bracket, and reads on one level deeper. -/
def nested (body : Reader α) : Reader α := do
  match ← read with
  | 0 => stop (stopAt (← get))
  | levels + 1 =>
    modify List.tail
    withReader (fun _ => levels) body

/-- Skips a value that nobody asked for. -/
def skip : Reader Unit := do
  match skim true 0 (← get) with
  | .error e => stop e
  | .ok rest => set rest

/-- The text of a value, which is passed over. -/
def text : Reader (List Char) := do
  let cs ← get
  match skim false (← read) cs with
  | .error e => stop e
  | .ok rest =>
    set rest
    return cs

/-- Runs a reader on a text of its own, at the same depth; `none` if it does not take it. -/
def attempt (r : Reader α) (cs : List Char) : Reader (Option α) := do
  match (r.run (← read)).run cs with
  | .error _ => return none
  | .ok (a, _) => return some a

/-- A value of the wrong shape.  What is not an array or an object has to be well formed. -/
def mismatch : Reader α := do
  match ← peek with
  | '[' :: _ => stop .mismatched
  | '{' :: _ => stop .mismatched
  | cs =>
    match scalar false cs with
    | .error e => stop e
    | .ok _ => stop .mismatched

/-! ## Scalars -/

def string : Reader String := do
  match ← peek with
  | '"' :: rest =>
    set rest
    return String.ofList (← ofScan (stringFrom 0))
  | _ => mismatch

/-- An unsigned integer below a bound. -/
def natural (bound : Nat) : Reader Nat := do
  match ← peek with
  | [] => stop .truncated
  | c :: _ =>
    if c = '-' ∨ c.isDigit then
      match ← ofScan (number false) with
      | .natural value => if value < bound then return value else stop .mismatched
      | .other => stop .mismatched
    else mismatch

/-- An unsigned integer of 64 bits. -/
def word : Reader UInt64 := do return UInt64.ofNat (← natural UInt64.size)

def boolean : Reader Bool := do
  match ← peek with
  | 't' :: rest => ofScan fun _ => (literal ['r', 'u', 'e'] rest).map (true, ·)
  | 'f' :: rest => ofScan fun _ => (literal ['a', 'l', 's', 'e'] rest).map (false, ·)
  | _ => mismatch

def null : Reader Unit := do
  match ← peek with
  | 'n' :: rest => ofScan fun _ => (literal ['u', 'l', 'l'] rest).map ((), ·)
  | _ => mismatch

/-- A value, or null. -/
def nullable (r : Reader α) : Reader (Option α) := do
  match ← peek with
  | 'n' :: _ =>
    null
    return none
  | _ => some <$> r

/-! ## Arrays -/

/-- Whether another item comes; passes over the comma in front of it. -/
def moreItems (first : Bool) : Reader Bool := do
  match ← peek with
  | [] => stop .truncated
  | ']' :: _ => return false
  | c :: rest =>
    if first then return true
    else if c = ',' then
      set rest
      match ← peek with
      | [] => stop .truncated
      | ']' :: rest => stop (stopAt (']' :: rest))
      | _ => return true
    else stop (stopAt (c :: rest))

/-- The next item, if there is one. -/
def item? (first : Bool) (r : Reader α) : Reader (Option α) := do
  if ← moreItems first then some <$> r else return none

/-- The next item, which must be there. -/
def item (first : Bool) (r : Reader α) : Reader α := do
  match ← item? first r with
  | some a => return a
  | none => stop .mismatched

/-- The items of an array; `fuel` bounds their number. -/
def items (r : Reader α) : (fuel : Nat) → (first : Bool) → Reader (List α)
  | 0, _ => stop .truncated
  | fuel + 1, first => do
    match ← item? first r with
    | none => return []
    | some a => return a :: (← items r fuel false)

/-- The end of an array of a fixed length. -/
def endItems : Reader Unit := do
  match ← peek with
  | ']' :: rest => set rest
  | ',' :: rest =>
    set rest
    match ← peek with
    | [] => stop (.malformed 0)
    | cs => stop (stopAt cs)
  | cs => stop (stopAt cs)

/-- An array of any length. -/
def array (r : Reader α) : Reader (List α) := do
  match ← peek with
  | '[' :: rest => nested do
    let values ← items r (rest.length + 1) true
    endItems
    return values
  | _ => mismatch

/-- An array of a fixed length. -/
def tuple (body : Reader α) : Reader α := do
  match ← peek with
  | '[' :: _ => nested do
    let value ← body
    endItems
    return value
  | _ => mismatch

/-! ## Objects -/

/-- Whether another key comes; passes over the comma in front of it. -/
def moreKeys (first : Bool) : Reader Bool := do
  match ← peek with
  | [] => stop .truncated
  | '}' :: _ => return false
  | c :: rest =>
    if first then
      if c = '"' then return true else stop (stopAt (c :: rest))
    else if c = ',' then
      set rest
      match ← peek with
      | '"' :: _ => return true
      | cs => stop (stopAt cs)
    else stop (stopAt (c :: rest))

/-- A key, which must be there. -/
def key : Reader String := do
  match ← peek with
  | '"' :: _ => string
  | cs => stop (stopAt cs)

/-- The colon after a key, and the value. -/
def member (r : Reader α) : Reader α := do
  require ':'
  r

/-- The value of a key that may only be given once. -/
def once (slot : Option α) (r : Reader α) : Reader (Option α) :=
  if slot.isSome then stop .mismatched else some <$> member r

/-- The members of an object: `field` reads the value of each key into what was read so far.
`fuel` bounds the number of keys. -/
def members (field : σ → String → Reader σ) : (fuel : Nat) → (first : Bool) → σ → Reader σ
  | 0, _, _ => stop .truncated
  | fuel + 1, first, read => do
    if ← moreKeys first then
      let key ← string
      members field fuel false (← field read key)
    else return read

/-- An object whose members are gathered, and then checked by `finish`. -/
def object (field : σ → String → Reader σ) (start : σ) (finish : σ → Reader α) : Reader α := do
  match ← peek with
  | '{' :: rest => nested do
    let value ← finish (← members field (rest.length + 1) true start)
    require '}'
    return value
  | _ => mismatch

/-- A record, as an object or as an array. -/
def record (ofItems : Reader α) (field : σ → String → Reader σ) (start : σ)
    (finish : σ → Reader α) : Reader α := do
  match ← peek with
  | '[' :: _ => tuple ofItems
  | _ => object field start finish

/-- Null, or an object without members. -/
def nullOrEmpty : Reader Unit := do
  match ← peek with
  | '{' :: _ => nested (require '}')
  | _ => null

/-- What must have been given. -/
def given : Option α → Reader α
  | some a => return a
  | none => stop .mismatched

/-- A variant: an object with one key, by which `payload` reads the value, or a string that is one
of the plain variants. -/
def variant (plain : String → Option α) (payload : String → Option (Reader α)) : Reader α := do
  match ← peek with
  | '{' :: _ => nested do
    match payload (← key) with
    | none => stop .mismatched
    | some r =>
      let value ← member r
      match ← peek with
      | [] => stop .truncated
      | '}' :: rest =>
        set rest
        return value
      | cs => stop (.malformed (Text.byteLength cs))
  | '"' :: _ => given (plain (← string))
  | cs => stop (stopAt cs)

end Reader

/-! ## Whole texts -/

/-- How deep arrays and objects may nest. -/
def maxLevels : Nat := 127

/-- Why a text is refused, and the byte offset at which it goes wrong. -/
structure Failure where
  fault : JsonFault
  offset : Option UInt64
  deriving DecidableEq, Repr

/-- The failure of a text that is `left` bytes from its end. -/
def Failure.leaving (text : List Char) (fault : JsonFault) (left : Nat) : Failure :=
  let (line, column) := Text.lineColumn text (Text.byteLength text - left)
  ⟨fault, Text.offsetOf? text (.ofNat line) (.ofNat column)⟩

/-- Where a text stops.  A line and a column name the place, and an empty line has no columns. -/
def Stop.failure (text : List Char) : Stop → Failure
  | malformed left => .leaving text .malformed left
  | truncated => .leaving text .truncated 0
  | mismatched => ⟨.mismatched, none⟩

/-- Reads a whole text, after which only blanks may come. -/
def decode {α : Type} (r : Reader α) (source : String) : Except Failure α :=
  match (r.run maxLevels).run source.toList with
  | .error e => .error (e.failure source.toList)
  | .ok (a, rest) =>
    match skipBlanks rest with
    | [] => .ok a
    | rest => .error ((stopAt rest).failure source.toList)

end MacroExpansion.Json
