import MacroExpansion.Handler

/-!
# Rules

A rule set is a macro given by patterns: the first rule whose pattern matches decides, by a
template to fill or by an error to report.  Rules are checked when the set is made, so that a
template only uses what its pattern binds.
-/

namespace MacroExpansion

/-- What a rule does with a tree that its pattern matches. -/
inductive RuleAction where
  | template (tree : Tree)
  | error (text : String)
  deriving DecidableEq

/-- A pattern, and what to do with a tree that it matches. -/
structure Rule where
  pattern : Tree
  action : RuleAction
  deriving DecidableEq

namespace RuleAction

/-- The template of a rule; an error has none. -/
def template? : RuleAction → Option Tree
  | template tree => some tree
  | error _ => none

end RuleAction

namespace Rule

/-! ## Checking -/

mutual

/-- Refuses a list of children with more than one splice, at any depth. -/
def checkSplices (index : Nat) (name : String) : Tree → Except Report Unit
  | .leaf _ _ => .ok ()
  | .node kind children span =>
    let count := children.countP (·.splice?.isSome)
    if count > 1 then .error (.at? span (.template (.manySplices index name count kind)))
    else checkSplicesList index name children

/-- Refuses more than one splice below each of some trees. -/
def checkSplicesList (index : Nat) (name : String) : List Tree → Except Report Unit
  | [] => .ok ()
  | t :: ts =>
    match checkSplices index name t with
    | .error e => .error e
    | .ok () => checkSplicesList index name ts

end

/-- The form in which each variable of a pattern is bound.  A variable may occur more than once,
but only in one form. -/
def boundForms (index : Nat) (name : String) (span : Option Span) :
    List (Hole × HoleForm) → List (String × HoleForm) → Except Report (List (String × HoleForm))
  | [], bound => .ok bound
  | (hole, form) :: rest, bound =>
    match bound.lookup hole.var with
    | none => boundForms index name span rest ((hole.var, form) :: bound)
    | some previous =>
      if previous = form then boundForms index name span rest bound
      else .error (.at? span (.template (.bothForms index name hole.var)))

/-- Refuses a template that uses a variable which is not bound, or bound in another form. -/
def checkUses (index : Nat) (name : String) (span : Option Span)
    (bound : List (String × HoleForm)) : List (Hole × HoleForm) → Except Report Unit
  | [] => .ok ()
  | (hole, form) :: rest =>
    match bound.lookup hole.var with
    | none => .error (.at? span (.template (.unboundUse index name hole.var)))
    | some expected =>
      if expected = form then checkUses index name span bound rest
      else .error (.at? span (.template (.formMismatch index name hole.var form expected)))

/-- Checks the rule at `index` of the macro `name` for nodes of a kind. -/
def check (name kind : String) (index : Nat) (rule : Rule) : Except Report Unit := do
  if rule.pattern.kind ≠ kind then
    throw (.at? rule.pattern.span (.template (.wrongKind index name rule.pattern.kind kind)))
  checkSplices index name rule.pattern
  match rule.action with
  | .error _ =>
    let _ ← boundForms index name rule.pattern.span rule.pattern.holes []
  | .template tree =>
    checkSplices index name tree
    let bound ← boundForms index name rule.pattern.span rule.pattern.holes []
    checkUses index name tree.span bound tree.holes

/-- Checks rules in order, the first of them being at `index`. -/
def checkFrom (name kind : String) (index : Nat) : List Rule → Except Report Unit
  | [] => .ok ()
  | rule :: rules => do
    check name kind index rule
    checkFrom name kind (index + 1) rules

end Rule

/-- A checked macro given by rules for nodes of one kind. -/
structure RuleSet where
  name : String
  kind : String
  rules : List Rule
  nonempty : rules ≠ []
  checked : Rule.checkFrom name kind 0 rules = .ok ()

namespace RuleSet

/-- Checks some rules, of which there must be one at least. -/
def ofRules (name kind : String) (rules : List Rule) : Except Report RuleSet :=
  if nonempty : rules = [] then .error (.of (.template (.noRules name)))
  else
    match checked : Rule.checkFrom name kind 0 rules with
    | .error e => .error e
    | .ok () => .ok ⟨name, kind, rules, nonempty, checked⟩

/-! ## Running -/

/-- The first rule whose pattern matches a tree, with the bindings. -/
def firstMatch? (rules : List Rule) (tree : Tree) : Option (Rule × Bindings) :=
  rules.findSome? fun rule => (rule.pattern.match? tree).map (rule, ·)

/-- What some rules make of a tree in a context. -/
def apply (rules : List Rule) (tree : Tree) (cx : Context) : Except Report Outcome :=
  match firstMatch? rules tree with
  | none => .ok .declined
  | some (⟨_, .error text⟩, _) => .error (cx.complain (.stated text))
  | some (⟨_, .template template⟩, bindings) => (cx.fill template bindings).map .replaced

/-- A rule set as a handler. -/
def handler (set : RuleSet) : Handler where
  name := set.name
  attempt tree := HandlerM.ofContext (apply set.rules tree)
  balanced _ := .read _

end RuleSet

end MacroExpansion
