import MacroExpansion.Json.Scan

/-!
# Passing over JSON values

`skim` goes through a value of any shape and gives the text after it.  It keeps the arrays and
objects that are open as a list, so that nesting costs nothing; a value that is read may only nest
to a given depth.
-/

namespace MacroExpansion.Json

/-- An array or an object that is open. -/
inductive Frame where
  | array
  | object
  deriving DecidableEq, Repr

/-- Reads a key and the colon after it. -/
def skimKey (skipping : Bool) (cs : List Char) : Except Stop (List Char) :=
  match cs with
  | '"' :: _ =>
    match scalar skipping cs with
    | .error e => .error e
    | .ok rest =>
      match skipBlanks rest with
      | ':' :: rest => .ok rest
      | rest => .error (stopAt rest)
  | cs => .error (stopAt cs)

mutual

/-- Goes through a value and on to the end of what is open.  Every call but the last one reads a
character at least, which `fuel` counts. -/
def skimValue (skipping : Bool) (levels : Nat) :
    (fuel : Nat) → List Frame → List Char → Except Stop (List Char)
  | 0, _, _ => .error .truncated
  | fuel + 1, frames, cs =>
    match skipBlanks cs with
    | [] => .error .truncated
    | '[' :: rest =>
      if !skipping && levels ≤ frames.length then .error (stopAt ('[' :: rest))
      else
        match skipBlanks rest with
        | ']' :: rest => skimRest skipping levels fuel frames rest
        | rest => skimValue skipping levels fuel (.array :: frames) rest
    | '{' :: rest =>
      if !skipping && levels ≤ frames.length then .error (stopAt ('{' :: rest))
      else
        match skipBlanks rest with
        | '}' :: rest => skimRest skipping levels fuel frames rest
        | rest =>
          match skimKey skipping rest with
          | .error e => .error e
          | .ok rest => skimValue skipping levels fuel (.object :: frames) rest
    | cs =>
      match scalar skipping cs with
      | .error e => .error e
      | .ok rest => skimRest skipping levels fuel frames rest

/-- Goes on after a value to the end of what is open. -/
def skimRest (skipping : Bool) (levels : Nat) :
    (fuel : Nat) → List Frame → List Char → Except Stop (List Char)
  | _, [], cs => .ok cs
  | 0, _ :: _, _ => .error .truncated
  | fuel + 1, .array :: frames, cs =>
    match skipBlanks cs with
    | ',' :: rest => skimValue skipping levels fuel (.array :: frames) rest
    | ']' :: rest => skimRest skipping levels fuel frames rest
    | cs => .error (stopAt cs)
  | fuel + 1, .object :: frames, cs =>
    match skipBlanks cs with
    | ',' :: rest =>
      match skimKey skipping (skipBlanks rest) with
      | .error e => .error e
      | .ok rest => skimValue skipping levels fuel (.object :: frames) rest
    | '}' :: rest => skimRest skipping levels fuel frames rest
    | cs => .error (stopAt cs)

end

/-- Passes over a value.  One that is read nests to at most `levels` levels. -/
def skim (skipping : Bool) (levels : Nat) (cs : List Char) : Except Stop (List Char) :=
  skimValue skipping levels (cs.length + 1) [] cs

end MacroExpansion.Json
