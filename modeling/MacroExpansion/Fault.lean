import MacroExpansion.Name.Basic
import MacroExpansion.Tree.Basic

/-!
# Faults

Every way in which expanding or loading can fail, by cause.  `Fault.message` gives the wording and
`Fault.topic` the area that a fault belongs to.
-/

namespace MacroExpansion

/-- Why expanding a tree fails. -/
inductive ExpansionFault where
  /-- A handler complained, in its own words. -/
  | stated (text : String)
  /-- An identifier was asked for outside of every macro invocation. -/
  | noScopeFor (base : String)
  deriving DecidableEq, Repr

/-- Why a template or a rule is refused. -/
inductive TemplateFault where
  /-- A template was filled outside of every macro invocation. -/
  | noScope
  | spliceOutsideList (var : String)
  | unbound (var : String)
  | sequenceAsSingle (var : String)
  | singleAsSplice (var : String)
  | noRules (name : String)
  | wrongKind (index : Nat) (name found expected : String)
  | manySplices (index : Nat) (name : String) (count : Nat) (kind : String)
  | bothForms (index : Nat) (name var : String)
  | unboundUse (index : Nat) (name var : String)
  | formMismatch (index : Nat) (name var : String) (used bound : HoleForm)
  | stated (text : String)
  deriving DecidableEq, Repr

/-- Why a handler is not registered. -/
inductive RegistryFault where
  | alreadyRegistered (name kind : String)
  | stated (text : String)
  deriving DecidableEq, Repr

/-- Why a file cannot be read. -/
inductive FileFault where
  | notFound
  | notADirectory
  | isADirectory
  | notText
  deriving DecidableEq, Repr

/-- Why a text is refused as JSON.  Only the kind of mistake is kept, and not how a parser words
it. -/
inductive JsonFault where
  /-- The text cannot be continued to a JSON text. -/
  | malformed
  /-- The text ends too early. -/
  | truncated
  /-- The value does not have the wanted shape. -/
  | mismatched
  deriving DecidableEq, Repr

/-- Why rules, trees or settings are not loaded. -/
inductive LoadFault where
  | cannotRead (path : String) (fault : FileFault)
  | cannotReadConfig (path : String) (fault : FileFault)
  | cannotWalk (path : String) (fault : FileFault)
  | invalidJson (origin : String) (fault : JsonFault)
  | invalidConfig (path : String) (fault : JsonFault)
  | duplicateName (name origin : String)
  | stated (text : String)
  deriving DecidableEq, Repr

/-- A cause of failure. -/
inductive Fault where
  | expansion (fault : ExpansionFault)
  /-- A chain of replacements went past the limit; `kind` is that of the last output. -/
  | recursionLimit (limit : Nat) (kind : String)
  | template (fault : TemplateFault)
  | name (fault : NameFault)
  | registry (fault : RegistryFault)
  | load (fault : LoadFault)
  deriving DecidableEq, Repr

/-- The area that a fault belongs to. -/
inductive Topic where
  | expansion
  | recursionLimit
  | template
  | name
  | registry
  | load
  deriving DecidableEq, Repr

/-! ## Wording -/

def ExpansionFault.message : ExpansionFault → String
  | stated text => text
  | noScopeFor base => s!"cannot create hygienic `{base}` outside a macro scope"

def TemplateFault.message : TemplateFault → String
  | noScope => "quotation instantiated outside of a macro scope"
  | spliceOutsideList var => s!"splice `${var}` used outside of a child list"
  | unbound var => s!"unbound pattern variable `${var}`"
  | sequenceAsSingle var =>
    s!"sequence variable `${var}` used where a single syntax tree is expected"
  | singleAsSplice var => s!"single variable `${var}` used as a splice"
  | noRules name => s!"macro `{name}` has no rules"
  | wrongKind index name found expected =>
    s!"rule {index} of `{name}` matches `{found}` but the macro expands `{expected}`"
  | manySplices index name count kind =>
    s!"rule {index} of `{name}` has {count} splices under `{kind}`; at most one is allowed"
  | bothForms index name var =>
    s!"rule {index} of `{name}` binds `${var}` both as a single subtree and as a splice"
  | unboundUse index name var =>
    s!"rule {index} of `{name}` uses `${var}` which its pattern does not bind"
  | formMismatch index name var used bound =>
    s!"rule {index} of `{name}` uses `${var}` as a {used.describe} "
      ++ s!"but its pattern binds a {bound.describe}"
  | stated text => text

def RegistryFault.message : RegistryFault → String
  | alreadyRegistered name kind => s!"macro `{name}` is already registered for `{kind}`"
  | stated text => text

def FileFault.message : FileFault → String
  | notFound => "No such file or directory (os error 2)"
  | notADirectory => "Not a directory (os error 20)"
  | isADirectory => "Is a directory (os error 21)"
  | notText => "stream did not contain valid UTF-8"

/-- What a parser has to say about a text of JSON is left out. -/
def LoadFault.message : LoadFault → String
  | cannotRead path fault => s!"cannot read {path}: {fault.message}"
  | cannotReadConfig path fault => s!"cannot read config {path}: {fault.message}"
  | cannotWalk path fault =>
    s!"failed to walk {path}: IO error for operation on {path}: {fault.message}"
  | invalidJson origin _ => s!"invalid JSON in {origin}"
  | invalidConfig path _ => s!"invalid config {path}"
  | duplicateName name origin => s!"duplicate macro name `{name}` in {origin}"
  | stated text => text

namespace Fault

/-- The wording of a fault. -/
def message : Fault → String
  | expansion fault => fault.message
  | recursionLimit limit kind =>
    s!"Maximum macro recursion depth ({limit}) exceeded while expanding `{kind}`"
  | template fault => fault.message
  | name fault => fault.message
  | registry fault => fault.message
  | load fault => fault.message

def topic : Fault → Topic
  | expansion _ => .expansion
  | recursionLimit _ _ => .recursionLimit
  | template _ => .template
  | name _ => .name
  | registry _ => .registry
  | load _ => .load

/-- The wording of a fault, headed by its area; the recursion limit speaks for itself. -/
def display (fault : Fault) : String :=
  match fault.topic with
  | .expansion => "Macro error: " ++ fault.message
  | .recursionLimit => fault.message
  | .template => "Template error: " ++ fault.message
  | .name => "Name error: " ++ fault.message
  | .registry => "Registry error: " ++ fault.message
  | .load => "Load error: " ++ fault.message

end Fault

/-- The code under which faults of an area are reported. -/
def Topic.code : Topic → String
  | expansion => "hygiene::expansion"
  | recursionLimit => "hygiene::recursion_limit"
  | template => "hygiene::template"
  | name => "hygiene::name"
  | registry => "hygiene::registry"
  | load => "hygiene::load"

end MacroExpansion
