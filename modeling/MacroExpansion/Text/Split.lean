/-!
# Searching and splitting text

Texts are searched as lists of characters.  `splitFirst?` and `splitLast?` cut a text at the first
and at the last occurrence of a separator, and `occurs` tells whether there is one.
-/

namespace MacroExpansion.Text

/-- Whether `pattern` occurs in the text. -/
def occurs (pattern : List Char) : List Char → Bool
  | [] => pattern.isEmpty
  | c :: cs => pattern.isPrefixOf (c :: cs) || occurs pattern cs

/-- The text before and after the first occurrence of a nonempty separator. -/
def splitFirst? (separator : List Char) : List Char → Option (List Char × List Char)
  | [] => none
  | c :: cs =>
    match separator.isPrefixOf? (c :: cs) with
    | some rest => some ([], rest)
    | none => (splitFirst? separator cs).map fun (before, after) => (c :: before, after)

/-- The text before and after the last occurrence of a nonempty separator. -/
def splitLast? (separator : List Char) : List Char → Option (List Char × List Char)
  | [] => none
  | c :: cs =>
    match splitLast? separator cs with
    | some (before, after) => some (c :: before, after)
    | none => (separator.isPrefixOf? (c :: cs)).map fun rest => ([], rest)

end MacroExpansion.Text
