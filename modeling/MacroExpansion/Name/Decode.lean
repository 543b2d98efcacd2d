import MacroExpansion.Name.Basic

/-!
# Reading scoped names

`hasScopes` recognises a scoped name by its tail alone, `decode` reads its parts, `stamp` adds one
scope, and `eraseScopes` gives back the base.
-/

namespace MacroExpansion.ScopedName

/-! ## The tail of a name -/

/-- An ASCII digit, as a byte. -/
def isDigitByte (b : UInt8) : Bool := 48 ≤ b && b ≤ 57

/-- A digit or a dot, as a byte. -/
def isTailByte (b : UInt8) : Bool := isDigitByte b || b == 46

/-- The byte offset at which the digits and dots at the end of a name begin. -/
def tailStart (name : String) : Nat :=
  (name.toUTF8.toList.reverse.dropWhile isTailByte).length

/-- The first `n` bytes of a name, if the cut is between two characters. -/
def takeBytes? (name : String) (n : Nat) : Option String :=
  String.fromUTF8? (name.toUTF8.extract 0 n)

/-- Whether a name carries scopes: it ends in a digit, and the digits and dots at its end begin
with the last dot of the marker. -/
def hasScopes (name : String) : Bool :=
  let bytes := name.toUTF8.toList
  match bytes.getLast? with
  | none => false
  | some last =>
    isDigitByte last && bytes[tailStart name]? == some 46 &&
      match takeBytes? name (tailStart name) with
      | some front => markerStem.isSuffixOf front.toList
      | none => false

/-- The base of a scoped name; a name without scopes is its own base. -/
def eraseScopes (name : String) : String :=
  if hasScopes name then
    match Text.splitFirst? separator name.toList with
    | some (base, _) => String.ofList base
    | none => name
  else name

/-! ## The parts of a name -/

/-- Reads one scope. -/
def readScope (name : String) (part : List Char) : Except NameFault Scope :=
  if isScopeComponent part then
    let value := Nat.ofDigitChars 10 part 0
    if value < UInt64.size then .ok (UInt64.ofNat value)
    else .error (.scopeOutOfRange name (String.ofList part))
  else .error (.malformedScope name (String.ofList part))

/-- Reads the dotted path between the separator and the marker.  Components gather in `current`
until scopes follow them; a component after scopes begins the next module, and the module left
over at the end is the main one. -/
def readPath (name : String) : List (List Char) → (done : List Segment) →
    (current : List (List Char)) → (scopes : List Scope) → Except NameFault (List Segment × String)
  | [], done, current, scopes =>
    if !scopes.isEmpty || current.isEmpty then .error (.noMainModule name)
    else
      let main := String.ofList (['.'].intercalate current)
      match checkModule main with
      | .error e => .error e
      | .ok () => .ok (done, main)
  | part :: parts, done, current, scopes =>
    if isScopeComponent part then
      if current.isEmpty then .error (.scopeWithoutModule name)
      else
        match readScope name part with
        | .error e => .error e
        | .ok scope => readPath name parts done current (scopes ++ [scope])
    else if scopes.isEmpty then readPath name parts done (current ++ [part]) []
    else
      let owner := String.ofList (['.'].intercalate current)
      match checkModule owner with
      | .error e => .error e
      | .ok () => readPath name parts (done ++ [⟨owner, scopes⟩]) [part] []

/-- Reads the parts of a scoped name: the base ends at the first separator, and the scopes of the
main module follow the last marker. -/
def decode (name : String) : Except NameFault ScopedName := do
  if !hasScopes name then throw (.notScoped name)
  match Text.splitFirst? separator name.toList with
  | none => throw (.noSeparator name)
  | some (base, rest) =>
    match Text.splitLast? marker rest with
    | none => throw (.noMarker name)
    | some (path, final) =>
      let scopes ← (final.splitOn '.').mapM (readScope name)
      let (imported, mainModule) ← readPath name (path.splitOn '.') [] [] []
      return ⟨String.ofList base, imported, mainModule, scopes⟩

/-! ## Stamping -/

/-- Adds a scope on behalf of `mainModule`.  Scopes of another module become a segment of their
own, so that the numbers of two modules are never mixed up. -/
def addScope (n : ScopedName) (mainModule : String) (scope : Scope) : ScopedName :=
  if n.mainModule = mainModule then { n with scopes := n.scopes ++ [scope] }
  else ⟨n.base, n.imported ++ [⟨n.mainModule, n.scopes⟩], mainModule, [scope]⟩

/-- Adds a scope to a written name, plain or scoped. -/
def stamp (name mainModule : String) (scope : Scope) : Except NameFault String := do
  if hasScopes name then
    let parts ← decode name
    (parts.addScope mainModule scope).encode
  else encode ⟨name, [], mainModule, [scope]⟩

end MacroExpansion.ScopedName
