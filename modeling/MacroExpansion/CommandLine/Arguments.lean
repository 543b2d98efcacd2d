/-!
# Command-line arguments

The four commands and their options.  An option takes its value from the same argument or from the
next one, options and operands may be mixed, and after two dashes everything is an operand.
-/

namespace MacroExpansion.CommandLine

/-- What to expand, and how. -/
structure ExpandOptions where
  input : String
  rules : List String
  config : Option String
  mainModule : Option String
  maxDepth : Option Nat
  erase : Bool
  source : Option String
  deriving DecidableEq, Repr

/-- What to do. -/
inductive Command where
  | expand (options : ExpandOptions)
  | trace (options : ExpandOptions)
  | decode (name : String)
  | check (rules : List String)
  | version
  deriving DecidableEq, Repr

/-- The options of `expand` and `trace`. -/
inductive OptionName where
  | rules
  | config
  | mainModule
  | maxDepth
  | source
  | erase
  deriving DecidableEq, Repr

namespace OptionName

/-- The option with a long name. -/
def ofLong? : String → Option OptionName
  | "rules" => some rules
  | "config" => some config
  | "module" => some mainModule
  | "max-depth" => some maxDepth
  | "source" => some source
  | "erase" => some erase
  | _ => none

/-- Whether the value of an option is a path, which is never empty. -/
def isPath : OptionName → Bool
  | rules => true
  | config => true
  | source => true
  | _ => false

end OptionName

/-- Arguments sorted into options with their values and operands. -/
structure Sorted where
  options : List (OptionName × String)
  operands : List String

/-- Whether an argument is an option rather than an operand or a value: it begins with a dash, and
is not the dash alone. -/
def isOption (argument : String) : Bool :=
  argument.toList.head? == some '-' && argument != "-"

/-- What an argument that is an option stands for: an option, with the value in the same argument
if there is one. -/
def readOption? (argument : String) : Option (OptionName × Option String) :=
  match argument.toList with
  | '-' :: '-' :: name =>
    match name.span (· != '=') with
    | (name, []) => (OptionName.ofLong? (String.ofList name)).map (·, none)
    | (name, _ :: value) =>
      (OptionName.ofLong? (String.ofList name)).map (·, some (String.ofList value))
  | ['-', 'r'] => some (.rules, none)
  | '-' :: 'r' :: '=' :: value => some (.rules, some (String.ofList value))
  | '-' :: 'r' :: value => some (.rules, some (String.ofList value))
  | _ => none

/-- Sorts arguments; `none` if one is not understood. -/
def sort : List String → Option Sorted
  | [] => some ⟨[], []⟩
  | argument :: rest =>
    if argument = "--" then some ⟨[], rest⟩
    else if !isOption argument then
      (sort rest).map fun s => { s with operands := argument :: s.operands }
    else
      match readOption? argument, rest with
      | none, _ => none
      | some (.erase, some _), _ => none
      | some (.erase, none), rest =>
        (sort rest).map fun s => { s with options := (.erase, "") :: s.options }
      | some (option, some value), rest =>
        (sort rest).map fun s => { s with options := (option, value) :: s.options }
      | some (_, none), [] => none
      | some (option, none), value :: rest =>
        if isOption value then none
        else (sort rest).map fun s => { s with options := (option, value) :: s.options }

/-- An unsigned number of 64 bits, with an optional plus sign. -/
def readDepth? (text : String) : Option Nat :=
  let digits :=
    match text.toList with
    | '+' :: digits => digits
    | digits => digits
  if digits.isEmpty || !digits.all Char.isDigit then none
  else
    let value := Nat.ofDigitChars 10 digits 0
    if value < UInt64.size then some value else none

namespace Sorted

/-- The values given for an option, in order. -/
def values (s : Sorted) (option : OptionName) : List String :=
  s.options.filterMap fun (name, value) => if name = option then some value else none

/-- Whether every option but the rules is given once at most, and paths are not empty. -/
def isProper (s : Sorted) : Bool :=
  [OptionName.config, .mainModule, .maxDepth, .source, .erase].all
      (fun option => (s.values option).length ≤ 1)
    && s.options.all (fun (option, value) => !option.isPath || !value.isEmpty)

/-- The options of `expand` and `trace`, with one operand. -/
def expandOptions? (s : Sorted) : Option ExpandOptions :=
  match s.operands, s.isProper, (s.values .maxDepth).mapM readDepth? with
  | [input], true, some depths =>
    if input.isEmpty then none
    else some
      { input
        rules := s.values .rules
        config := (s.values .config).head?
        mainModule := (s.values .mainModule).head?
        maxDepth := depths.head?
        erase := !(s.values .erase).isEmpty
        source := (s.values .source).head? }
  | _, _, _ => none

end Sorted

/-- The command that some arguments ask for; `none` if they are not understood. -/
def parse : List String → Option Command
  | "expand" :: rest => ((sort rest).bind Sorted.expandOptions?).map .expand
  | "trace" :: rest => ((sort rest).bind Sorted.expandOptions?).map .trace
  | "decode" :: rest =>
    match sort rest with
    | some ⟨[], [name]⟩ => some (.decode name)
    | _ => none
  | "check" :: rest =>
    match sort rest with
    | some ⟨[], paths⟩ =>
      if paths.isEmpty || paths.any String.isEmpty then none else some (.check paths)
    | _ => none
  | argument :: _ =>
    if ['-', 'V'].isPrefixOf argument.toList ∨ argument = "--version" then some .version else none
  | [] => none

end MacroExpansion.CommandLine
