import MacroExpansion.Scope
import MacroExpansion.Text.Split

/-!
# Scoped names

An identifier that a macro introduces remembers the invocations that introduced it.  Its parts
are a base name, segments of scopes from other modules, and the scopes of the module that expands
now.  Written out, these parts are one plain name:

`base ._@. (module . scopes .)* module ._hyg. scopes`

for instance `x._@.Lib.3.App._hyg.7.9`.  A module may be dotted (`Std.Data`), and a component of
digits is a scope.
-/

namespace MacroExpansion

/-- Scopes recorded on behalf of one module. -/
structure Segment where
  moduleName : String
  scopes : List Scope
  deriving DecidableEq, Repr

/-- The parts of a scoped name. -/
structure ScopedName where
  base : String
  imported : List Segment
  mainModule : String
  scopes : List Scope
  deriving DecidableEq, Repr

/-- Why a name cannot be written or read. -/
inductive NameFault where
  | emptyBase
  | reservedBase (base : String)
  | emptyModule
  | badComponent (moduleName component : String)
  | noScopes (base : String)
  | segmentWithoutScopes (moduleName : String)
  | notScoped (name : String)
  | noSeparator (name : String)
  | noMarker (name : String)
  | malformedScope (name part : String)
  | scopeOutOfRange (name part : String)
  | scopeWithoutModule (name : String)
  | noMainModule (name : String)
  /-- Any other complaint about a name, in its own words. -/
  | stated (text : String)
  deriving DecidableEq, Repr

namespace NameFault

/-- The wording of a fault. -/
def message : NameFault → String
  | emptyBase => "base name must not be empty"
  | reservedBase base => s!"base name `{base}` contains a reserved hygiene delimiter"
  | emptyModule => "module name must not be empty"
  | badComponent moduleName component =>
    s!"module name `{moduleName}` has invalid component `{component}`"
  | noScopes base => s!"cannot encode `{base}` without at least one macro scope"
  | segmentWithoutScopes moduleName => s!"imported segment for module `{moduleName}` has no scopes"
  | notScoped name => s!"`{name}` is not a hygienic name"
  | noSeparator name => s!"`{name}` is missing the `._@.` separator"
  | noMarker name => s!"`{name}` is missing the `._hyg.` marker"
  | malformedScope name part => s!"`{name}` has malformed scope `{part}`"
  | scopeOutOfRange name part => s!"`{name}` has out-of-range scope `{part}`"
  | scopeWithoutModule name => s!"`{name}` has a scope without a module"
  | noMainModule name => s!"`{name}` has no main module"
  | stated text => text

end NameFault

namespace ScopedName

/-- Stands between the base and the scopes. -/
def separator : List Char := ['.', '_', '@', '.']

/-- Stands before the scopes of the main module. -/
def marker : List Char := ['.', '_', 'h', 'y', 'g', '.']

/-- The separator without its last dot. -/
def separatorStem : List Char := ['.', '_', '@']

/-- The marker without its last dot. -/
def markerStem : List Char := ['.', '_', 'h', 'y', 'g']

/-- A component of digits is a scope. -/
def isScopeComponent (component : List Char) : Bool :=
  !component.isEmpty && component.all Char.isDigit

/-- Whether a component may occur in the name of a module. -/
def isModuleComponent (component : List Char) : Bool :=
  !component.isEmpty && !isScopeComponent component
    && component != ['_', 'h', 'y', 'g'] && component != ['_', '@']

/-- A base is not empty, and holds neither of the two delimiters. -/
def checkBase (base : String) : Except NameFault Unit :=
  if base.isEmpty then .error .emptyBase
  else if Text.occurs separatorStem base.toList || Text.occurs markerStem base.toList then
    .error (.reservedBase base)
  else .ok ()

/-- A module is a dotted list of components that can be told from scopes and delimiters. -/
def checkModule (moduleName : String) : Except NameFault Unit :=
  if moduleName.isEmpty then .error .emptyModule
  else
    match (moduleName.toList.splitOn '.').find? (!isModuleComponent ·) with
    | some component => .error (.badComponent moduleName (String.ofList component))
    | none => .ok ()

/-- The segments of other modules, each followed by a dot. -/
def encodeImported : List Segment → Except NameFault (List Char)
  | [] => .ok []
  | segment :: rest => do
    checkModule segment.moduleName
    if segment.scopes.isEmpty then throw (.segmentWithoutScopes segment.moduleName)
    let tail ← encodeImported rest
    return segment.moduleName.toList ++ '.' :: Scope.joinDigits ['.'] segment.scopes ++ '.' :: tail

/-- Writes the parts of a name as one plain name. -/
def encode (n : ScopedName) : Except NameFault String := do
  checkBase n.base
  checkModule n.mainModule
  if n.scopes.isEmpty then throw (.noScopes n.base)
  let path ← encodeImported n.imported
  return String.ofList (n.base.toList ++ separator ++ path ++ n.mainModule.toList ++ marker
    ++ Scope.joinDigits ['.'] n.scopes)

/-- The scopes of one module, as shown to a reader. -/
def renderScopes (moduleName : String) (scopes : List Scope) : String :=
  let shown := String.ofList (Scope.joinDigits [',', ' '] scopes)
  s!" [{moduleName}: {shown}]"

/-- A name as shown to a reader: the base, then the scopes of each module. -/
def render (n : ScopedName) : String :=
  n.base ++ String.join (n.imported.map fun s => renderScopes s.moduleName s.scopes)
    ++ renderScopes n.mainModule n.scopes

end ScopedName

end MacroExpansion
