import MacroExpansion.Scope

/-!
# Writing JSON

The compact form: no blanks, and only what must be escaped is.
-/

namespace MacroExpansion.Json

/-- The lowercase hexadecimal digit of a number below sixteen. -/
def hexChar (n : Nat) : Char := Nat.digitChar n

/-- A character inside a string. -/
def writeChar (c : Char) : List Char :=
  match c with
  | '"' => ['\\', '"']
  | '\\' => ['\\', '\\']
  | '\x08' => ['\\', 'b']
  | '\x0c' => ['\\', 'f']
  | '\n' => ['\\', 'n']
  | '\r' => ['\\', 'r']
  | '\t' => ['\\', 't']
  | c =>
    if c.toNat < 0x20 then ['\\', 'u', '0', '0', hexChar (c.toNat / 16), hexChar (c.toNat % 16)]
    else [c]

/-- A string, in quotes. -/
def writeString (s : String) : List Char := '"' :: s.toList.flatMap writeChar ++ ['"']

/-- An unsigned integer of 64 bits. -/
def writeWord (n : UInt64) : List Char := Nat.toDigits 10 n.toNat

/-- A member of an object. -/
def writeMember (key : String) (value : List Char) : List Char := writeString key ++ ':' :: value

/-- An object with its members in order. -/
def writeObject (members : List (List Char)) : List Char :=
  '{' :: [','].intercalate members ++ ['}']

/-- An array. -/
def writeArray (items : List (List Char)) : List Char := '[' :: [','].intercalate items ++ [']']

end MacroExpansion.Json
