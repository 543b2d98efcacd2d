import MacroExpansion.Fault
import MacroExpansion.Json.Decimal
import MacroExpansion.Text.Position

/-!
# Scanning JSON

The words of JSON: blanks, literals, strings and numbers.  A scanner takes the text that is left
and gives what it read with the text after it, or tells where the text stops being JSON.

Strings and numbers are scanned in one of two ways.  A value that is read is scanned in full.  A
value that is skipped is only followed to its end: an escaped half of a surrogate pair and a number
out of range go unnoticed there.
-/

namespace MacroExpansion.Json

/-- Why reading stops. -/
inductive Stop where
  /-- The text cannot go on as JSON; `left` bytes are left after the place. -/
  | malformed (left : Nat)
  /-- The text is at its end. -/
  | truncated
  /-- The value does not have the wanted shape. -/
  | mismatched
  deriving DecidableEq, Repr

open Text (byteLength)

/-- Stops at the first character of the text that is left. -/
def stopAt : List Char → Stop
  | [] => .truncated
  | cs => .malformed (byteLength cs - 1)

/-! ## Blanks and literals -/

def isBlank (c : Char) : Bool := c == ' ' || c == '\n' || c == '\t' || c == '\r'

def skipBlanks (cs : List Char) : List Char := cs.dropWhile isBlank

/-- Reads the letters of a literal. -/
def literal : List Char → List Char → Except Stop (List Char)
  | [], cs => .ok cs
  | _ :: _, [] => .error .truncated
  | expected :: word, c :: cs =>
    if c = expected then literal word cs else .error (stopAt (c :: cs))

/-! ## Strings -/

/-- The value of a hexadecimal digit. -/
def hexDigit? (c : Char) : Option Nat :=
  if '0' ≤ c ∧ c ≤ '9' then some (c.toNat - '0'.toNat)
  else if 'a' ≤ c ∧ c ≤ 'f' then some (c.toNat - 'a'.toNat + 10)
  else if 'A' ≤ c ∧ c ≤ 'F' then some (c.toNat - 'A'.toNat + 10)
  else none

/-- The code of an escape of four hexadecimal digits.  Four bytes are looked at together, so that
a wrong one stops at the last of them. -/
def hexCode (cs : List Char) : Except Stop Nat :=
  if byteLength cs < 4 then .error .truncated
  else
    match (cs.take 4).mapM hexDigit? with
    | some [a, b, c, d] => .ok (((a * 16 + b) * 16 + c) * 16 + d)
    | _ => .error (.malformed (byteLength cs - 4))

/-- The character of an escape with a code, and the number of characters after the backslash.
A character beyond the basic plane takes two codes, the halves of a surrogate pair. -/
def codeEscape (cs : List Char) : Except Stop (Char × Nat) := do
  let code ← hexCode cs
  if 0xDC00 ≤ code ∧ code ≤ 0xDFFF then throw (.malformed (byteLength cs - 4))
  if code < 0xD800 ∨ 0xDBFF < code then return (Char.ofNat code, 5)
  match cs.drop 4 with
  | '\\' :: 'u' :: rest =>
    let low ← hexCode rest
    if low < 0xDC00 ∨ 0xDFFF < low then throw (.malformed (byteLength rest - 4))
    return (Char.ofNat (0x10000 + (code - 0xD800) * 0x400 + (low - 0xDC00)), 11)
  | '\\' :: rest => throw (stopAt rest)
  | rest => throw (stopAt rest)

/-- The character of an escape of one letter. -/
def letterEscape? : Char → Option Char
  | '"' => some '"'
  | '\\' => some '\\'
  | '/' => some '/'
  | 'b' => some '\x08'
  | 'f' => some '\x0c'
  | 'n' => some '\n'
  | 'r' => some '\r'
  | 't' => some '\t'
  | _ => none

/-- The character of an escape, and the number of characters after the backslash. -/
def escape (cs : List Char) : Except Stop (Char × Nat) :=
  match cs with
  | [] => .error .truncated
  | 'u' :: rest => codeEscape rest
  | c :: _ =>
    match letterEscape? c with
    | some char => .ok (char, 1)
    | none => .error (stopAt cs)

/-- Reads a string after its opening quote, with the first `skip` characters already read. -/
def stringFrom : (skip : Nat) → List Char → Except Stop (List Char × List Char)
  | _, [] => .error .truncated
  | skip + 1, _ :: cs => stringFrom skip cs
  | 0, c :: cs =>
    if c = '"' then .ok ([], cs)
    else if c = '\\' then
      match escape cs with
      | .error e => .error e
      | .ok (char, skip) => (stringFrom skip cs).map fun (text, rest) => (char :: text, rest)
    else if c.toNat < 0x20 then .error (stopAt (c :: cs))
    else (stringFrom 0 cs).map fun (text, rest) => (c :: text, rest)

/-- Skips a string after its opening quote, of which the first `skip` characters have been looked
at.  A control character is not counted as read. -/
def skipStringFrom : (skip : Nat) → List Char → Except Stop (List Char)
  | _, [] => .error .truncated
  | skip + 1, _ :: cs => skipStringFrom skip cs
  | 0, c :: cs =>
    if c = '"' then .ok cs
    else if c = '\\' then
      match cs with
      | [] => .error .truncated
      | 'u' :: rest =>
        match hexCode rest with
        | .error e => .error e
        | .ok _ => skipStringFrom 5 cs
      | d :: _ => if (letterEscape? d).isSome then skipStringFrom 1 cs else .error (stopAt cs)
    else if c.toNat < 0x20 then .error (.malformed (byteLength (c :: cs)))
    else skipStringFrom 0 cs

/-! ## Numbers -/

/-- A number, as far as it matters: an unsigned integer, or anything else. -/
inductive Number where
  | natural (value : Nat)
  | other
  deriving DecidableEq, Repr

/-- Stops in a number.  In a skipped number the end of the text is a wrong character too. -/
def stopInNumber (skipping : Bool) : List Char → Stop
  | [] => if skipping then .malformed 0 else .truncated
  | cs => stopAt cs

/-- One digit or more. -/
def digits (skipping : Bool) (cs : List Char) : Except Stop (List Char × List Char) :=
  match cs.takeWhile Char.isDigit with
  | [] => .error (stopInNumber skipping cs)
  | ds => .ok (ds, cs.dropWhile Char.isDigit)

/-- The digits before a point: a zero stands alone. -/
def wholePart (skipping : Bool) : List Char → Except Stop (List Char × List Char)
  | '0' :: rest =>
    match rest with
    | [] => .ok (['0'], [])
    | c :: _ => if c.isDigit then .error (stopAt rest) else .ok (['0'], rest)
  | cs => digits skipping cs

/-- The digits after a point; none without a point. -/
def fraction (skipping : Bool) : List Char → Except Stop (List Char × List Char)
  | '.' :: rest => digits skipping rest
  | cs => .ok ([], cs)

/-- The exponent of a number: its digits, and whether it is negative. -/
structure Exponent where
  negative : Bool
  digits : List Char

/-- The exponent of a number; none without a mark. -/
def exponent (skipping : Bool) : List Char → Except Stop (Option Exponent × List Char)
  | c :: rest =>
    if c = 'e' ∨ c = 'E' then
      let (negative, rest) :=
        match rest with
        | '+' :: rest => (false, rest)
        | '-' :: rest => (true, rest)
        | rest => (false, rest)
      (digits skipping rest).map fun (ds, rest) => (some ⟨negative, ds⟩, rest)
    else .ok (none, c :: rest)
  | [] => .ok (none, [])

/-- The bound on exponents, which have 31 bits. -/
def exponentBound : Nat := Nat.pow 2 31

/-- Checks that a number is in range, with `rest` after it.  A number out of range stops at its
last digit, but at the digit with which its exponent is out of range if there is one. -/
def checkRange (number : Decimal) (power : Option Exponent) (rest : List Char) :
    Except Stop Unit :=
  let check (number : Decimal) : Except Stop Unit :=
    if number.isFinite then .ok () else .error (.malformed (byteLength rest))
  match power with
  | none => check number
  | some ⟨negative, ds⟩ =>
    match gather exponentBound 0 ds with
    | (value, []) => check (number.shift (if negative then -value else value))
    | (_, _ :: unread) =>
      if negative || number.significand == 0 then .ok ()
      else .error (.malformed (unread.length + byteLength rest))

/-- Scans a number.  One that is read must be in range. -/
def number (skipping : Bool) (cs : List Char) : Except Stop (Number × List Char) := do
  let (negative, cs) :=
    match cs with
    | '-' :: rest => (true, rest)
    | cs => (false, cs)
  let (whole, cs) ← wholePart skipping cs
  let (places, cs) ← fraction skipping cs
  let (power, cs) ← exponent skipping cs
  if !skipping then checkRange (.ofDigits whole places) power cs
  if negative || !places.isEmpty || power.isSome then return (.other, cs)
  return (.natural (Nat.ofDigitChars 10 whole 0), cs)

/-! ## Scalars -/

/-- Passes over a value that is neither an array nor an object. -/
def scalar (skipping : Bool) (cs : List Char) : Except Stop (List Char) :=
  match cs with
  | [] => .error .truncated
  | '"' :: rest =>
    if skipping then skipStringFrom 0 rest else (stringFrom 0 rest).map (·.2)
  | 'n' :: rest => literal ['u', 'l', 'l'] rest
  | 't' :: rest => literal ['r', 'u', 'e'] rest
  | 'f' :: rest => literal ['a', 'l', 's', 'e'] rest
  | c :: _ =>
    if c = '-' ∨ c.isDigit then (number skipping cs).map (·.2) else .error (stopAt cs)

end MacroExpansion.Json
