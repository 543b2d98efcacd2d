import MacroExpansion.Rule.Basic
import MacroExpansion.Proofs.Expansion.Derivation
import MacroExpansion.Proofs.Template.Alike

/-!
# Rules and trees that are alike

A rule set takes alike trees alike: the same rule decides, and what it makes of the trees is alike,
or it complains twice in the same words (`apply_alike`).
-/

namespace MacroExpansion

variable {like : Likeness}

/-- Outcomes that are alike. -/
inductive Outcome.Alike (like : Likeness) : Outcome → Outcome → Prop
  | declined : Alike like .declined .declined
  | replaced {tree tree' : Tree} :
      tree.Alike like tree' → Alike like (.replaced tree) (.replaced tree')

/-- Contexts of invocations whose scopes stamp names alike. -/
structure Context.Alike (like : Likeness) (cx cx' : Context) : Prop where
  span : like.span cx.span? cx'.span?
  stamp : ∃ scope scope', cx.scope? = some scope ∧ cx'.scope? = some scope' ∧
    ∀ name, Agree Eq like.ident (ScopedName.stamp name cx.mainModule scope)
      (ScopedName.stamp name cx'.mainModule scope')

theorem Context.Alike.fill {cx cx' : Context} (hlawful : like.Lawful) (h : cx.Alike like cx')
    (template : Tree) {bindings bindings' : Bindings} (hbindings : bindings.Alike like bindings') :
    Agree (Report.Alike like.span) (Tree.Alike like) (cx.fill template bindings)
      (cx'.fill template bindings') := by
  obtain ⟨scope, scope', hscope, hscope', hstamp⟩ := h.stamp
  have hfilling : Filling.Alike like ⟨bindings, cx.mainModule, scope, cx.span?⟩
      ⟨bindings', cx'.mainModule, scope', cx'.span?⟩ := ⟨hbindings, h.span, hstamp⟩
  rw [Context.fill, Context.fill, hscope, hscope']
  exact Filling.fill_alike hlawful hfilling template

namespace RuleSet

theorem firstMatch?_alike (hlawful : like.Lawful) (rules : List Rule) {tree tree' : Tree}
    (htree : tree.Alike like tree') :
    Option.Rel (fun m m' => m.1 = m'.1 ∧ m.2.Alike like m'.2) (firstMatch? rules tree)
      (firstMatch? rules tree') := by
  induction rules with
  | nil => exact .none
  | cons rule rules ih =>
    have hmatch := Tree.match?_alike hlawful rule.pattern htree
    rw [firstMatch?, firstMatch?, List.findSome?_cons, List.findSome?_cons]
    generalize rule.pattern.match? tree = bound, rule.pattern.match? tree' = bound' at hmatch ⊢
    cases hmatch with
    | none => exact ih
    | some hbindings => exact .some ⟨rfl, hbindings⟩

/-- Rules take alike trees alike. -/
theorem apply_alike (hlawful : like.Lawful) (rules : List Rule) {tree tree' : Tree}
    {cx cx' : Context} (htree : tree.Alike like tree') (hcx : cx.Alike like cx') :
    Agree (Report.Alike like.span) (Outcome.Alike like) (apply rules tree cx)
      (apply rules tree' cx') := by
  have hmatch := firstMatch?_alike hlawful rules htree
  rw [apply, apply]
  generalize firstMatch? rules tree = found, firstMatch? rules tree' = found' at hmatch ⊢
  cases hmatch with
  | none => exact .ok .declined
  | @some m m' hm =>
    obtain ⟨⟨pattern, action⟩, bindings⟩ := m
    obtain ⟨rule', bindings'⟩ := m'
    obtain ⟨rfl, hbindings⟩ := hm
    cases action with
    | error text => exact .error (Report.at?_alike hcx.span _)
    | template template =>
      have hfill := hcx.fill hlawful template hbindings
      dsimp only
      generalize cx.fill template bindings = filled, cx'.fill template bindings' = filled'
        at hfill ⊢
      cases hfill with
      | ok htree => exact .ok (.replaced htree)
      | error hreport => exact .error hreport

/-- A call of a rule set takes one scope, and gives a complaint the place of the tree. -/
theorem run_call (set : RuleSet) (tree : Tree) (cx : Context) :
    (set.handler.call tree).run cx =
      ((apply set.rules tree (cx.inCall tree)).mapError (·.orAt (cx.inCall tree).span?),
        { cx with allocated := cx.allocated + 1 }) := by
  have hattempt : (set.handler.attempt tree).run (cx.inCall tree) =
      (apply set.rules tree (cx.inCall tree), cx.inCall tree) := rfl
  rw [Context.inCall] at hattempt ⊢
  simp only [Handler.call, HandlerM.inFreshScope, HandlerM.under, HandlerM.located, ExceptT.run_mk,
    Context.inFreshScope, Context.under, Context.allocate, hattempt]
  cases apply set.rules tree _ <;> rfl

end RuleSet

end MacroExpansion
