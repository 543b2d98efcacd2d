/-!
# Positions in a text

A place in a text is a byte offset, or a line and a column.  Lines and columns count from one, a
column counts bytes, and a newline belongs to the line that it ends.
-/

namespace MacroExpansion.Text

/-- The number of bytes of a list of characters. -/
def byteLength : List Char → Nat
  | [] => 0
  | c :: cs => c.utf8Size + byteLength cs

/-- The lines of a text, each with the newline that ends it; an empty text has none. -/
def lines : List Char → List (List Char)
  | [] => []
  | c :: cs =>
    if c = '\n' then [c] :: lines cs
    else
      match lines cs with
      | [] => [[c]]
      | line :: rest => (c :: line) :: rest

/-- The byte offset of a line and a column, at most the length of the text.  Line `0` means that
the line is not known.  The numbers are machine words, so that a column far beyond the end of its
line may lead around to the beginning. -/
def offsetOf? (text : List Char) (line column : UInt64) : Option UInt64 :=
  if line = 0 then none
  else
    let lineStart := UInt64.ofNat (byteLength ((lines text).take (line - 1).toNat).flatten)
    let inLine := if column = 0 then 0 else column - 1
    some (min (lineStart + inLine) (.ofNat (byteLength text)))

/-- The line and the column of the place after the first `n` bytes: one more than the newlines
among them, and the bytes since the last newline. -/
def lineColumn (text : List Char) (n : Nat) : Nat × Nat :=
  go text n 1 0
where
  /-- Reads on with `n` bytes to go, at `column` bytes into `line`. -/
  go : List Char → Nat → Nat → Nat → Nat × Nat
    | [], n, line, column => (line, column + n)
    | c :: cs, n, line, column =>
      if n < c.utf8Size then (line, column + n)
      else if c = '\n' then go cs (n - 1) (line + 1) 0
      else go cs (n - c.utf8Size) line (column + c.utf8Size)

end MacroExpansion.Text
