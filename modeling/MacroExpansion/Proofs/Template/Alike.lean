import MacroExpansion.Template.Fill
import MacroExpansion.Proofs.Result
import MacroExpansion.Proofs.Tree.Alike

/-!
# Templates and trees that are alike

A template takes alike trees alike.  It matches both or neither, and what it binds is alike
(`match?_alike`).  Filled by bindings that are alike, it gives trees that are alike, or it fails
twice for the same reason (`fill_alike`), provided that the scopes of the two invocations stamp
names alike.
-/

namespace MacroExpansion

/-! ## Bindings -/

/-- Bindings that are alike. -/
inductive Binding.Alike (like : Likeness) : Binding → Binding → Prop
  | one {tree tree' : Tree} : tree.Alike like tree' → Alike like (.one tree) (.one tree')
  | many {trees trees' : List Tree} :
      List.Forall₂ (Tree.Alike like) trees trees' → Alike like (.many trees) (.many trees')

/-- Bindings of the same variables in the same order that are alike. -/
def Bindings.Alike (like : Likeness) : Bindings → Bindings → Prop :=
  List.Forall₂ fun b b' => b.1 = b'.1 ∧ b.2.Alike like b'.2

variable {like : Likeness}

theorem Binding.sameUpToSpans_congr (hlawful : like.Lawful) {a a' b b' : Binding}
    (ha : a.Alike like a') (hb : b.Alike like b') : a.sameUpToSpans b = a'.sameUpToSpans b' := by
  cases ha with
  | one htree =>
    cases hb with
    | one hother => exact Tree.sameUpToSpans_congr hlawful htree hother
    | many => rfl
  | many htrees =>
    cases hb with
    | one => rfl
    | many hothers =>
      exact Tree.sameUpToSpansList_congr
        (htrees.imp fun _ _ h _ _ hother => Tree.sameUpToSpans_congr hlawful h hother) hothers

namespace Bindings

theorem Alike.lookup {bindings bindings' : Bindings} (h : bindings.Alike like bindings')
    (var : String) :
    Option.Rel (Binding.Alike like) (bindings.lookup var) (bindings'.lookup var) := by
  induction h with
  | nil => exact .none
  | @cons b b' _ _ hb _ ih =>
    obtain ⟨v, value⟩ := b
    obtain ⟨v', value'⟩ := b'
    obtain ⟨rfl, hvalue⟩ : v = v' ∧ value.Alike like value' := hb
    rw [List.lookup_cons, List.lookup_cons]
    split
    case h_1 => exact .some hvalue
    case h_2 => exact ih

theorem Alike.bind? (hlawful : like.Lawful) {bindings bindings' : Bindings}
    (h : bindings.Alike like bindings') (var : String) {value value' : Binding}
    (hvalue : value.Alike like value') :
    Option.Rel (Bindings.Alike like) (bindings.bind? var value) (bindings'.bind? var value') := by
  have hlookup := h.lookup var
  rw [Bindings.bind?, Bindings.bind?]
  generalize bindings.lookup var = bound, bindings'.lookup var = bound' at hlookup ⊢
  cases hlookup with
  | none => exact .some (.cons ⟨rfl, hvalue⟩ h)
  | some hbound =>
    dsimp only
    rw [Binding.sameUpToSpans_congr hlawful hbound hvalue]
    split
    case isTrue => exact .some h
    case isFalse => exact .none

end Bindings

/-! ## Matching -/

namespace Tree

theorem all_accepts_congr (category : Category) {trees trees' : List Tree}
    (h : List.Forall₂ (Alike like) trees trees') :
    trees.all category.accepts = trees'.all category.accepts := by
  induction h with
  | nil => rfl
  | cons htree _ ih => rw [List.all_cons, List.all_cons, category.accepts_congr htree, ih]

theorem matchChildren_cons_nil {pattern : Tree} {patterns : List Tree} {bindings : Bindings}
    (h : ¬ ∃ hole span, pattern = .leaf (.splice hole) span) :
    matchChildren (pattern :: patterns) [] bindings = none := by
  rw [matchChildren]
  exact fun hole span hpattern => h ⟨hole, span, hpattern⟩

theorem matchChildren_cons_cons {pattern input : Tree} {patterns inputs : List Tree}
    {bindings : Bindings} (h : ¬ ∃ hole span, pattern = .leaf (.splice hole) span) :
    matchChildren (pattern :: patterns) (input :: inputs) bindings =
      (pattern.matchInto input bindings).bind (matchChildren patterns inputs) := by
  rw [matchChildren]
  · cases pattern.matchInto input bindings <;> rfl
  · exact fun hole span hpattern => h ⟨hole, span, hpattern⟩

mutual

theorem matchInto_alike (hlawful : like.Lawful) (template : Tree) {input input' : Tree}
    {bindings bindings' : Bindings} (hinput : input.Alike like input')
    (h : bindings.Alike like bindings') :
    Option.Rel (Bindings.Alike like) (template.matchInto input bindings)
      (template.matchInto input' bindings') := by
  match template with
  | .leaf (.antiquot hole) span =>
    rw [matchInto, matchInto, hole.category.accepts_congr hinput]
    split
    case isTrue => exact h.bind? hlawful hole.var (.one hinput)
    case isFalse => exact .none
  | .leaf (.splice hole) span => exact .none
  | .leaf (.atom expected) span =>
    cases hinput with
    | node => exact .none
    | leaf hleaf =>
      cases hleaf with
      | atom actual =>
        rw [matchInto, matchInto]
        split
        case isTrue => exact .some h
        case isFalse => exact .none
      | _ => exact .none
  | .leaf (.ident expected) span =>
    cases hinput with
    | node => exact .none
    | leaf hleaf =>
      cases hleaf with
      | ident hname =>
        rw [matchInto, matchInto, hlawful.eraseScopes_eq hname]
        split
        case isTrue => exact .some h
        case isFalse => exact .none
      | _ => exact .none
  | .node kind patterns span =>
    cases hinput with
    | leaf => exact .none
    | node hinputs =>
      rw [matchInto, matchInto]
      split
      case isTrue => exact matchChildren_alike hlawful patterns hinputs h
      case isFalse => exact .none

theorem matchChildren_alike (hlawful : like.Lawful) (patterns : List Tree)
    {inputs inputs' : List Tree} {bindings bindings' : Bindings}
    (hinputs : List.Forall₂ (Alike like) inputs inputs') (h : bindings.Alike like bindings') :
    Option.Rel (Bindings.Alike like) (matchChildren patterns inputs bindings)
      (matchChildren patterns inputs' bindings') := by
  match patterns with
  | [] =>
    cases hinputs with
    | nil => exact .some h
    | cons => exact .none
  | pattern :: patterns =>
    by_cases hsplice : ∃ hole span, pattern = .leaf (.splice hole) span
    · obtain ⟨hole, span, rfl⟩ := hsplice
      rw [matchChildren, matchChildren, hinputs.length_eq]
      split
      case isTrue => exact .none
      case isFalse =>
        -- Both runs begin after the same number of children, since there are equally many.
        have hpairs := matchPairs_alike hlawful patterns
          (List.forall₂_drop (inputs'.length - patterns.length) hinputs) h
        have hrun := List.forall₂_take (inputs'.length - patterns.length) hinputs
        generalize matchPairs patterns _ bindings = result,
          matchPairs patterns _ bindings' = result' at hpairs ⊢
        cases hpairs with
        | none => exact .none
        | some hbindings =>
          dsimp only
          rw [all_accepts_congr hole.category hrun]
          split
          case isTrue => exact hbindings.bind? hlawful hole.var (.many hrun)
          case isFalse => exact .none
    · cases hinputs with
      | nil =>
        rw [matchChildren_cons_nil hsplice, matchChildren_cons_nil hsplice]
        exact .none
      | cons hinput hinputs =>
        have hinto := matchInto_alike hlawful pattern hinput h
        rw [matchChildren_cons_cons hsplice, matchChildren_cons_cons hsplice]
        generalize pattern.matchInto _ bindings = result, pattern.matchInto _ bindings' = result'
          at hinto ⊢
        cases hinto with
        | none => exact .none
        | some hbindings => exact matchChildren_alike hlawful patterns hinputs hbindings

theorem matchPairs_alike (hlawful : like.Lawful) (patterns : List Tree)
    {inputs inputs' : List Tree} {bindings bindings' : Bindings}
    (hinputs : List.Forall₂ (Alike like) inputs inputs') (h : bindings.Alike like bindings') :
    Option.Rel (Bindings.Alike like) (matchPairs patterns inputs bindings)
      (matchPairs patterns inputs' bindings') := by
  match patterns with
  | [] => exact .some h
  | pattern :: patterns =>
    cases hinputs with
    | nil => exact .some h
    | cons hinput hinputs =>
      have hinto := matchInto_alike hlawful pattern hinput h
      rw [matchPairs, matchPairs]
      generalize pattern.matchInto _ bindings = result, pattern.matchInto _ bindings' = result'
        at hinto ⊢
      cases hinto with
      | none => exact .none
      | some hbindings => exact matchPairs_alike hlawful patterns hinputs hbindings

end

/-- A template matches alike trees alike. -/
theorem match?_alike (hlawful : like.Lawful) (template : Tree) {input input' : Tree}
    (hinput : input.Alike like input') :
    Option.Rel (Bindings.Alike like) (template.match? input) (template.match? input') :=
  matchInto_alike hlawful template hinput .nil

end Tree

/-! ## Filling -/

/-- Reports that differ in nothing but their spans, which are related. -/
structure Report.Alike (R : Option Span → Option Span → Prop) (report report' : Report) : Prop where
  span : R report.span report'.span
  rest : { report with span := none } = { report' with span := none }

namespace Report

theorem Alike.eq {report report' : Report} (h : report.Alike Eq report') :
    report = report' := by
  obtain ⟨fault, span, help, related, source⟩ := report
  obtain ⟨hspan, hrest⟩ := h
  cases hspan
  cases hrest
  rfl

theorem at?_alike {R : Option Span → Option Span → Prop} {span span' : Option Span}
    (h : R span span') (fault : Fault) : Alike R (.at? span fault) (.at? span' fault) :=
  ⟨h, rfl⟩

theorem Alike.orAt (hlawful : like.Lawful) {report report' : Report}
    (h : report.Alike like.span report') {span span' : Option Span}
    (hspan : like.span span span') : (report.orAt span).Alike like.span (report'.orAt span') :=
  ⟨hlawful.span_or h.span hspan, h.rest⟩

end Report

namespace Filling

/-- Fillings with bindings that are alike, and with scopes that stamp names alike. -/
structure Alike (like : Likeness) (f f' : Filling) : Prop where
  bindings : f.bindings.Alike like f'.bindings
  span : like.span f.span f'.span
  stamp : ∀ name, Agree Eq like.ident (ScopedName.stamp name f.mainModule f.scope)
    (ScopedName.stamp name f'.mainModule f'.scope)

variable {f f' : Filling}

theorem Alike.span_or (hlawful : like.Lawful) (h : f.Alike like f') (span : Option Span) :
    like.span (span.or f.span) (span.or f'.span) :=
  hlawful.span_or (hlawful.span_refl span) h.span

theorem Alike.single (hlawful : like.Lawful) (h : f.Alike like f') (hole : Hole)
    (span : Option Span) :
    Agree (Report.Alike like.span) (Tree.Alike like) (f.single hole span)
      (f'.single hole span) := by
  have hlookup := h.bindings.lookup hole.var
  rw [Filling.single, Filling.single]
  generalize f.bindings.lookup hole.var = bound, f'.bindings.lookup hole.var = bound'
    at hlookup ⊢
  cases hlookup with
  | none => exact .error (Report.at?_alike (h.span_or hlawful span) _)
  | some hbound =>
    cases hbound with
    | one htree => exact .ok htree
    | many => exact .error (Report.at?_alike (h.span_or hlawful span) _)

theorem Alike.sequence (hlawful : like.Lawful) (h : f.Alike like f') (hole : Hole)
    (span : Option Span) :
    Agree (Report.Alike like.span) (List.Forall₂ (Tree.Alike like)) (f.sequence hole span)
      (f'.sequence hole span) := by
  have hlookup := h.bindings.lookup hole.var
  rw [Filling.sequence, Filling.sequence]
  generalize f.bindings.lookup hole.var = bound, f'.bindings.lookup hole.var = bound'
    at hlookup ⊢
  cases hlookup with
  | none => exact .error (Report.at?_alike (h.span_or hlawful span) _)
  | some hbound =>
    cases hbound with
    | one => exact .error (Report.at?_alike (h.span_or hlawful span) _)
    | many htrees => exact .ok htrees

theorem Alike.ident (hlawful : like.Lawful) (h : f.Alike like f') (name : String)
    (span : Option Span) :
    Agree (Report.Alike like.span) (Tree.Alike like) (f.ident name span) (f'.ident name span) := by
  have hstamp := h.stamp name
  rw [Filling.ident, Filling.ident]
  generalize ScopedName.stamp name f.mainModule f.scope = stamped,
    ScopedName.stamp name f'.mainModule f'.scope = stamped' at hstamp ⊢
  cases hstamp with
  | ok hname => exact .ok (.leaf (.ident hname) (h.span_or hlawful span))
  | error hfault =>
    subst hfault
    exact .error (Report.at?_alike (h.span_or hlawful span) _)

theorem fillList_cons {template : Tree} {rest : List Tree}
    (h : ¬ ∃ hole span, template = .leaf (.splice hole) span) :
    f.fillList (template :: rest) =
      (f.fill template).bind fun tree => (f.fillList rest).map (tree :: ·) := by
  rw [fillList]
  · cases f.fill template with
    | error e => rfl
    | ok tree => cases f.fillList rest <;> rfl
  · exact fun hole span htemplate => h ⟨hole, span, htemplate⟩

mutual

theorem fill_alike (hlawful : like.Lawful) (h : f.Alike like f') (template : Tree) :
    Agree (Report.Alike like.span) (Tree.Alike like) (f.fill template) (f'.fill template) := by
  match template with
  | .leaf (.antiquot hole) span => exact h.single hlawful hole span
  | .leaf (.splice hole) span => exact .error (Report.at?_alike (h.span_or hlawful span) _)
  | .leaf (.ident name) span => exact h.ident hlawful name span
  | .leaf (.atom text) span => exact .ok (.leaf (.atom text) (h.span_or hlawful span))
  | .node kind children span =>
    have hchildren := fillList_alike hlawful h children
    rw [fill, fill]
    generalize f.fillList children = filled, f'.fillList children = filled' at hchildren ⊢
    cases hchildren with
    | ok htrees => exact .ok (.node htrees (h.span_or hlawful span))
    | error hreport => exact .error hreport

theorem fillList_alike (hlawful : like.Lawful) (h : f.Alike like f') (templates : List Tree) :
    Agree (Report.Alike like.span) (List.Forall₂ (Tree.Alike like)) (f.fillList templates)
      (f'.fillList templates) := by
  match templates with
  | [] => exact .ok .nil
  | template :: rest =>
    have hrest := fillList_alike hlawful h rest
    by_cases hsplice : ∃ hole span, template = .leaf (.splice hole) span
    · obtain ⟨hole, span, rfl⟩ := hsplice
      have hrun := h.sequence hlawful hole span
      rw [fillList, fillList]
      generalize f.sequence hole span = run, f'.sequence hole span = run' at hrun ⊢
      generalize f.fillList rest = filled, f'.fillList rest = filled' at hrest ⊢
      cases hrun with
      | error hreport => exact .error hreport
      | ok hrun =>
        cases hrest with
        | error hreport => exact .error hreport
        | ok hfilled => exact .ok (List.rel_append hrun hfilled)
    · have htree := fill_alike hlawful h template
      rw [fillList_cons hsplice, fillList_cons hsplice]
      generalize f.fill template = tree, f'.fill template = tree' at htree ⊢
      generalize f.fillList rest = filled, f'.fillList rest = filled' at hrest ⊢
      cases htree with
      | error hreport => exact .error hreport
      | ok htree =>
        cases hrest with
        | error hreport => exact .error hreport
        | ok hfilled => exact .ok (.cons htree hfilled)

end

end Filling

end MacroExpansion
