import MacroExpansion.Tree.Basic
import MacroExpansion.Json.Reader
import MacroExpansion.Json.Write

/-!
# Trees as JSON

A tree is a record of a value and an optional span.  The value is a variant: a token, an
identifier, a node with its kind and children, or a hole.
-/

namespace MacroExpansion

open Json Json.Reader

/-! ## Reading -/

/-- Reads a span. -/
def Span.reader : Reader Span :=
  record
    (do return ⟨← item true word, ← item false word⟩)
    (fun (start, stop) key =>
      match key with
      | "start" => return (← once start word, stop)
      | "end" => return (start, ← once stop word)
      | _ => do
        member skip
        return (start, stop))
    ((none, none) : Option UInt64 × Option UInt64)
    (fun (start, stop) => do return ⟨← given start, ← given stop⟩)

namespace Category

/-- The category of a name; a kind needs more. -/
def ofName? : String → Option Category
  | "any" => some any
  | "ident" => some ident
  | "atom" => some atom
  | "num" => some num
  | _ => none

/-- Reads a category.  One that is no kind may be written as a key too, with what `nothing`
reads for its value. -/
def reader (nothing : Reader Unit) : Reader Category :=
  variant ofName? fun key =>
    if key = "kind" then some (kind <$> string)
    else (ofName? key).map fun category => (fun _ => category) <$> nothing

end Category

/-- Reads a hole; without a category it accepts anything. -/
def Hole.reader (nothing : Reader Unit) : Reader Hole :=
  record
    (do
      let var ← item true string
      let category ← item? false (Category.reader nothing)
      return ⟨var, category.getD .any⟩)
    (fun (var, category) key =>
      match key with
      | "var" => return (← once var string, category)
      | "category" => return (var, ← once category (Category.reader nothing))
      | _ => do
        member skip
        return (var, category))
    ((none, none) : Option String × Option Category)
    (fun (var, category) => do return ⟨← given var, category.getD .any⟩)

namespace Tree

/-- A tree's value, to be put at a place. -/
abbrev Value := Option Span → Tree

/-- Reads the value of a tree, given a reader for children. -/
def valueReader (nothing : Reader Unit) (child : Reader Tree) : Reader Value :=
  variant (fun _ => none) fun key =>
    match key with
    | "Atom" => some (do return leaf (.atom (← string)))
    | "Ident" => some (do return leaf (.ident (← string)))
    | "Node" => some (tuple do return node (← item true string) (← item false (array child)))
    | "Antiquot" => some (do return leaf (.antiquot (← Hole.reader nothing)))
    | "Splice" => some (do return leaf (.splice (← Hole.reader nothing)))
    | _ => none

/-- Reads a tree of at most `height` nested trees. -/
def readerOfHeight (nothing : Reader Unit) : (height : Nat) → Reader Tree
  | 0 => stop .truncated
  | height + 1 =>
    let value := valueReader nothing (readerOfHeight nothing height)
    record
      (do
        let value ← item true value
        let span ← item? false (nullable Span.reader)
        return value (span.getD none))
      (fun (read, span) key =>
        match key with
        | "value" => return (← once read value, span)
        | "span" => return (read, ← once span (nullable Span.reader))
        | _ => do
          member skip
          return (read, span))
      ((none, none) : Option Value × Option (Option Span))
      (fun (read, span) => do return (← given read) (span.getD none))

/-- Reads a tree, with what `nothing` reads where a category has no value.  Every tree takes a
level of nesting at least. -/
def readerWith (nothing : Reader Unit) : Reader Tree := do readerOfHeight nothing ((← read) + 1)

/-- Reads a tree. -/
def reader : Reader Tree := readerWith null

/-- Reads the template of a rule, where an empty object may stand for null. -/
def templateReader : Reader Tree := readerWith nullOrEmpty

/-- Reads an array of trees, or one tree.  The value is passed over first, so that a mistake in the
text comes before one in its shape. -/
def listReader : Reader (List Tree) := do
  let _ ← peek
  let cs ← text
  match ← attempt (array reader) cs with
  | some trees => return trees
  | none =>
    match ← attempt reader cs with
    | some tree => return [tree]
    | none => stop .mismatched

end Tree

/-! ## Writing -/

/-- Writes a span. -/
def Span.toJson (s : Span) : List Char :=
  writeObject [writeMember "start" (writeWord s.start), writeMember "end" (writeWord s.stop)]

/-- Writes a category. -/
def Category.toJson : Category → List Char
  | kind name => writeObject [writeMember "kind" (writeString name)]
  | category => writeString category.render

/-- Writes a hole. -/
def Hole.toJson (hole : Hole) : List Char :=
  writeObject
    [writeMember "var" (writeString hole.var), writeMember "category" hole.category.toJson]

/-- Writes the value of a leaf. -/
def Leaf.toJson : Leaf → List Char
  | atom text => writeObject [writeMember "Atom" (writeString text)]
  | ident name => writeObject [writeMember "Ident" (writeString name)]
  | antiquot hole => writeObject [writeMember "Antiquot" hole.toJson]
  | splice hole => writeObject [writeMember "Splice" hole.toJson]

namespace Tree

/-- Writes a value at an optional span. -/
def writeSpanned (value : List Char) (span : Option Span) : List Char :=
  let place :=
    match span with
    | some span => span.toJson
    | none => ['n', 'u', 'l', 'l']
  writeObject [writeMember "value" value, writeMember "span" place]

mutual

/-- Writes a tree. -/
def toJson : Tree → List Char
  | leaf l span => writeSpanned l.toJson span
  | node kind children span =>
    writeSpanned
      (writeObject
        [writeMember "Node" (writeArray [writeString kind, writeArray (toJsonList children)])])
      span

/-- Writes trees, one by one. -/
def toJsonList : List Tree → List (List Char)
  | [] => []
  | t :: ts => toJson t :: toJsonList ts

end

end Tree

end MacroExpansion
