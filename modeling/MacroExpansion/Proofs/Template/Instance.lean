import MacroExpansion.Proofs.Template.Holes
import MacroExpansion.Proofs.Tree.Parts
import MacroExpansion.Proofs.Tree.Skeleton

/-!
# Instances of a pattern

What a pattern means is said without an order of matching: a tree is an instance of a pattern under
an assignment if the variables can stand where the holes are.  Matching finds such an assignment
exactly if there is one (`match?_finds_instance`).  The bindings that it gives are defined on the
variables of the pattern, and every other assignment agrees with them up to spans.

Patterns with more than one splice among the children of a node are left out: a run may be divided
between two splices in many ways, and such a pattern matches nothing.
-/

namespace MacroExpansion

/-- What variables stand for, where they stand for something. -/
abbrev Assignment := String → Option Binding

/-- Bindings, as what the variables stand for. -/
def Bindings.assignment (bindings : Bindings) : Assignment := fun var => bindings.lookup var

namespace Tree

mutual

/-- A tree is an instance of a pattern under an assignment. -/
inductive IsInstance (assignment : Assignment) : (pattern tree : Tree) → Prop
  | hole {hole : Hole} {span : Option Span} {tree value : Tree} :
      hole.category.accepts tree = true → assignment hole.var = some (.one value) →
      tree.sameUpToSpans value = true → IsInstance assignment (leaf (.antiquot hole) span) tree
  | atom {text : String} {span span' : Option Span} :
      IsInstance assignment (leaf (.atom text) span) (leaf (.atom text) span')
  | ident {name name' : String} {span span' : Option Span} :
      ScopedName.eraseScopes name = ScopedName.eraseScopes name' →
      IsInstance assignment (leaf (.ident name) span) (leaf (.ident name') span')
  | node {kind : String} {patterns trees : List Tree} {span span' : Option Span} :
      AreInstances assignment patterns trees →
      IsInstance assignment (node kind patterns span) (node kind trees span')

/-- Children are instances of patterns in order, where a splice stands for a run of them. -/
inductive AreInstances (assignment : Assignment) : (patterns trees : List Tree) → Prop
  | nil : AreInstances assignment [] []
  | splice {hole : Hole} {span : Option Span} {run values patterns trees : List Tree} :
      run.all hole.category.accepts = true → assignment hole.var = some (.many values) →
      sameUpToSpansList run values = true → AreInstances assignment patterns trees →
      AreInstances assignment (leaf (.splice hole) span :: patterns) (run ++ trees)
  | cons {pattern tree : Tree} {patterns trees : List Tree} :
      IsInstance assignment pattern tree → AreInstances assignment patterns trees →
      AreInstances assignment (pattern :: patterns) (tree :: trees)

end

/-- The variables of a pattern. -/
def vars (pattern : Tree) : List String := pattern.holes.map fun hole => hole.1.var

/-- No node of a pattern has more than one splice among its children. -/
def SingleSplices (pattern : Tree) : Prop :=
  ∀ kind children span, IsPart (node kind children span) pattern →
    children.countP (·.splice?.isSome) ≤ 1

theorem SingleSplices.child {kind : String} {children : List Tree} {span : Option Span}
    (h : (node kind children span).SingleSplices) {child : Tree} (hchild : child ∈ children) :
    child.SingleSplices :=
  fun kind' children' span' hpart => h kind' children' span' (.child hchild hpart)

end Tree

/-! ## Agreement -/

namespace Bindings

/-- Whatever the bindings give a variable, an assignment gives it too, up to spans. -/
def AgreesWith (bindings : Bindings) (assignment : Assignment) : Prop :=
  ∀ var value, bindings.lookup var = some value →
    ∃ value', assignment var = some value' ∧ value.sameUpToSpans value' = true

variable {bindings bindings' : Bindings} {assignment : Assignment} {var : String} {value : Binding}

theorem agreesWith_nil (assignment : Assignment) : AgreesWith [] assignment :=
  fun _ _ h => by cases h

theorem agreesWith_assignment (bindings : Bindings) : bindings.AgreesWith bindings.assignment :=
  fun _ value h => ⟨value, h, Binding.sameUpToSpans_iff_skeleton.2 rfl⟩

theorem Gains.agreesWith {holes : List (Hole × HoleForm)} (h : Gains bindings bindings' holes)
    (hagrees : bindings'.AgreesWith assignment) : bindings.AgreesWith assignment :=
  fun var value hvalue => hagrees var value (h.keeps var value hvalue)

theorem lookup_of_bind? (h : bindings.bind? var value = some bindings') :
    ∃ bound, bindings'.lookup var = some bound ∧ bound.sameUpToSpans value = true := by
  rw [bind?] at h
  split at h
  case h_1 bound hbound =>
    split at h
    case isTrue hsame => exact ⟨bound, Option.some.inj h ▸ hbound, hsame⟩
    case isFalse => cases h
  case h_2 =>
    obtain rfl := Option.some.inj h
    exact ⟨value, List.lookup_cons_self, Binding.sameUpToSpans_iff_skeleton.2 rfl⟩

/-- After a variable has been bound, an assignment that agrees gives it the same. -/
theorem AgreesWith.of_bind? (h : bindings.bind? var value = some bindings')
    (hagrees : bindings'.AgreesWith assignment) :
    ∃ value', assignment var = some value' ∧ value.sameUpToSpans value' = true := by
  obtain ⟨bound, hbound, hsame⟩ := lookup_of_bind? h
  obtain ⟨value', hvalue', hsame'⟩ := hagrees var bound hbound
  rw [Binding.sameUpToSpans_iff_skeleton] at hsame hsame'
  exact ⟨value', hvalue', Binding.sameUpToSpans_iff_skeleton.2 (hsame.symm.trans hsame')⟩

/-- A variable can be bound to what an assignment gives it, if the bindings agree with that. -/
theorem AgreesWith.exists_bind? (hagrees : bindings.AgreesWith assignment) {value' : Binding}
    (hvalue' : assignment var = some value') (hsame : value.sameUpToSpans value' = true) :
    ∃ bindings', bindings.bind? var value = some bindings' ∧ bindings'.AgreesWith assignment := by
  rw [bind?]
  cases hlookup : bindings.lookup var with
  | some bound =>
    obtain ⟨value'', hvalue'', hbound⟩ := hagrees var bound hlookup
    obtain rfl := Option.some.inj (hvalue'.symm.trans hvalue'')
    rw [Binding.sameUpToSpans_iff_skeleton] at hsame hbound
    have hvalues := Binding.sameUpToSpans_iff_skeleton.2 (hbound.trans hsame.symm)
    exact ⟨bindings, if_pos hvalues, hagrees⟩
  | none =>
    refine ⟨(var, value) :: bindings, rfl, fun other bound hbound => ?_⟩
    rw [List.lookup_cons] at hbound
    split at hbound
    case h_1 hother =>
      obtain rfl := beq_iff_eq.1 hother
      exact Option.some.inj hbound ▸ ⟨value', hvalue', hsame⟩
    case h_2 => exact hagrees other bound hbound

end Bindings

namespace Tree

open Bindings

variable {assignment : Assignment}

/-! ## What a match finds is an instance -/

mutual

theorem isInstance_of_matchInto {pattern tree : Tree} {bindings bindings' : Bindings}
    (h : pattern.matchInto tree bindings = some bindings')
    (hagrees : bindings'.AgreesWith assignment) : IsInstance assignment pattern tree := by
  unfold matchInto at h
  split at h
  case h_1 hole _ _ =>
    split at h
    case isTrue haccepts =>
      obtain ⟨value, hvalue, hsame⟩ := hagrees.of_bind? h
      cases value with
      | one value => exact .hole haccepts hvalue hsame
      | many values => cases hsame
    case isFalse => cases h
  case h_2 =>
    split at h
    case isTrue htext => exact htext ▸ .atom
    case isFalse => cases h
  case h_3 =>
    split at h
    case isTrue hname => exact .ident hname
    case isFalse => cases h
  case h_4 =>
    split at h
    case isTrue hkind => exact hkind ▸ .node (areInstances_of_matchChildren h hagrees)
    case isFalse => cases h
  case h_5 => cases h

theorem areInstances_of_matchChildren {patterns trees : List Tree} {bindings bindings' : Bindings}
    (h : matchChildren patterns trees bindings = some bindings')
    (hagrees : bindings'.AgreesWith assignment) : AreInstances assignment patterns trees := by
  unfold matchChildren at h
  split at h
  case h_1 => exact .nil
  case h_2 => cases h
  case h_3 hole span patterns =>
    dsimp only at h
    split at h
    case isTrue => cases h
    case isFalse hlength =>
      split at h
      case h_1 => cases h
      case h_2 bindings₁ hpairs =>
        split at h
        case isTrue haccepts =>
          obtain ⟨value, hvalue, hsame⟩ := hagrees.of_bind? h
          have hsplice : Gains bindings₁ bindings' [(hole, .sequence)] := .of_bind? h rfl rfl
          have hrest := areInstances_of_matchPairs hpairs (by rw [List.length_drop]; omega)
            (hsplice.agreesWith hagrees)
          cases value with
          | one value => cases hsame
          | many values =>
            rw [← List.take_append_drop (trees.length - patterns.length) trees]
            exact .splice haccepts hvalue hsame hrest
        case isFalse => cases h
  case h_4 => cases h
  case h_5 pattern patterns tree trees _ =>
    split at h
    case h_1 => cases h
    case h_2 bindings₁ hinto =>
      exact .cons (isInstance_of_matchInto hinto ((gains_of_matchChildren h).agreesWith hagrees))
        (areInstances_of_matchChildren h hagrees)

theorem areInstances_of_matchPairs {patterns trees : List Tree} {bindings bindings' : Bindings}
    (h : matchPairs patterns trees bindings = some bindings')
    (hlength : patterns.length = trees.length) (hagrees : bindings'.AgreesWith assignment) :
    AreInstances assignment patterns trees := by
  match patterns, trees with
  | [], [] => exact .nil
  | pattern :: patterns, tree :: trees =>
    have hlength : patterns.length = trees.length := Nat.succ.inj hlength
    rw [matchPairs] at h
    split at h
    case h_1 => cases h
    case h_2 bindings₁ hinto =>
      have hgains := gains_of_matchPairs h (Nat.le_of_eq hlength)
      exact .cons (isInstance_of_matchInto hinto (hgains.agreesWith hagrees))
        (areInstances_of_matchPairs h hlength hagrees)

end

/-! ## Every instance is found -/

/-- Without a splice, every pattern stands for one child. -/
theorem AreInstances.length_eq {patterns trees : List Tree}
    (h : AreInstances assignment patterns trees)
    (hsplices : patterns.countP (·.splice?.isSome) = 0) : patterns.length = trees.length := by
  induction patterns generalizing trees with
  | nil =>
    cases h
    rfl
  | cons pattern patterns ih =>
    rw [List.countP_cons, Nat.add_eq_zero_iff] at hsplices
    cases h with
    | splice => exact absurd hsplices.2 (by simp [splice?])
    | cons _ hrest => rw [List.length_cons, List.length_cons, ih hrest hsplices.1]

mutual

theorem exists_matchInto {pattern tree : Tree} {bindings : Bindings}
    (h : IsInstance assignment pattern tree) (hsingle : pattern.SingleSplices)
    (hagrees : bindings.AgreesWith assignment) :
    ∃ bindings', pattern.matchInto tree bindings = some bindings' ∧
      bindings'.AgreesWith assignment := by
  match pattern with
  | leaf (.antiquot hole) span =>
    cases h with
    | hole haccepts hvalue hsame =>
      rw [matchInto, if_pos haccepts]
      exact hagrees.exists_bind? hvalue hsame
  | leaf (.splice hole) span => cases h
  | leaf (.atom text) span =>
    cases h with
    | atom => exact ⟨bindings, by rw [matchInto, if_pos rfl], hagrees⟩
  | leaf (.ident name) span =>
    cases h with
    | ident hname => exact ⟨bindings, by rw [matchInto, if_pos hname], hagrees⟩
  | node kind patterns span =>
    cases h with
    | node hchildren =>
      rw [matchInto, if_pos rfl]
      exact exists_matchChildren hchildren (hsingle kind patterns span (.self _))
        (fun _ => hsingle.child) hagrees

theorem exists_matchChildren {patterns trees : List Tree} {bindings : Bindings}
    (h : AreInstances assignment patterns trees)
    (hsplices : patterns.countP (·.splice?.isSome) ≤ 1)
    (hsingle : ∀ pattern ∈ patterns, pattern.SingleSplices)
    (hagrees : bindings.AgreesWith assignment) :
    ∃ bindings', matchChildren patterns trees bindings = some bindings' ∧
      bindings'.AgreesWith assignment := by
  match patterns with
  | [] =>
    cases h
    exact ⟨bindings, by rw [matchChildren], hagrees⟩
  | pattern :: patterns =>
    obtain ⟨hfirst, hothers⟩ := List.forall_mem_cons.1 hsingle
    rw [List.countP_cons] at hsplices
    cases h with
    | @splice hole span run values patterns rest haccepts hvalue hsame hrest =>
      -- The one splice of the list is here, so the number of patterns after it fixes the run.
      have hnone : patterns.countP (·.splice?.isSome) = 0 := by simpa [splice?] using hsplices
      have hlength := hrest.length_eq hnone
      have hrun : (run ++ rest).length - patterns.length = run.length := by
        rw [List.length_append]
        omega
      obtain ⟨bindings₁, hpairs, hagrees₁⟩ := exists_matchPairs hrest hnone hothers hagrees
      rw [matchChildren, hrun, List.drop_left, List.take_left, hpairs]
      rw [if_neg (by rw [List.length_append]; omega)]
      simp only [if_pos haccepts]
      exact hagrees₁.exists_bind? hvalue hsame
    | cons htree hrest =>
      obtain ⟨bindings₁, hinto, hagrees₁⟩ := exists_matchInto htree hfirst hagrees
      obtain ⟨bindings₂, hchildren, hagrees₂⟩ :=
        exists_matchChildren hrest (by omega) hothers hagrees₁
      refine ⟨bindings₂, ?_, hagrees₂⟩
      rw [matchChildren, hinto]
      · exact hchildren
      · rintro hole span rfl
        cases htree

theorem exists_matchPairs {patterns trees : List Tree} {bindings : Bindings}
    (h : AreInstances assignment patterns trees)
    (hsplices : patterns.countP (·.splice?.isSome) = 0)
    (hsingle : ∀ pattern ∈ patterns, pattern.SingleSplices)
    (hagrees : bindings.AgreesWith assignment) :
    ∃ bindings', matchPairs patterns trees bindings = some bindings' ∧
      bindings'.AgreesWith assignment := by
  match patterns with
  | [] =>
    cases h
    exact ⟨bindings, rfl, hagrees⟩
  | pattern :: patterns =>
    obtain ⟨hfirst, hothers⟩ := List.forall_mem_cons.1 hsingle
    rw [List.countP_cons, Nat.add_eq_zero_iff] at hsplices
    cases h with
    | splice => exact absurd hsplices.2 (by simp [splice?])
    | cons htree hrest =>
      obtain ⟨bindings₁, hinto, hagrees₁⟩ := exists_matchInto htree hfirst hagrees
      rw [matchPairs, hinto]
      exact exists_matchPairs hrest hsplices.1 hothers hagrees₁

end

/-! ## Only the variables of the pattern count -/

mutual

theorem IsInstance.congr {assignment' : Assignment} {pattern tree : Tree}
    (h : IsInstance assignment pattern tree)
    (heq : ∀ hole ∈ pattern.holes, assignment hole.1.var = assignment' hole.1.var) :
    IsInstance assignment' pattern tree := by
  match pattern with
  | leaf (.antiquot hole) span =>
    cases h with
    | hole haccepts hvalue hsame =>
      exact .hole haccepts ((heq _ List.mem_cons_self).symm.trans hvalue) hsame
  | leaf (.splice hole) span => cases h
  | leaf (.atom text) span =>
    cases h with
    | atom => exact .atom
  | leaf (.ident name) span =>
    cases h with
    | ident hname => exact .ident hname
  | node kind patterns span =>
    cases h with
    | node hchildren => exact .node (hchildren.congr heq)

theorem AreInstances.congr {assignment' : Assignment} {patterns trees : List Tree}
    (h : AreInstances assignment patterns trees)
    (heq : ∀ hole ∈ holesList patterns, assignment hole.1.var = assignment' hole.1.var) :
    AreInstances assignment' patterns trees := by
  match patterns with
  | [] =>
    cases h
    exact .nil
  | pattern :: patterns =>
    obtain ⟨hfirst, hothers⟩ := List.forall_mem_append.1 heq
    cases h with
    | splice haccepts hvalue hsame hrest =>
      exact .splice haccepts ((hfirst _ List.mem_cons_self).symm.trans hvalue) hsame
        (hrest.congr hothers)
    | cons htree hrest => exact .cons (htree.congr hfirst) (hrest.congr hothers)

end

/-! ## Matching -/

theorem isInstance_of_match? {pattern tree : Tree} {bindings : Bindings}
    (h : pattern.match? tree = some bindings) : IsInstance bindings.assignment pattern tree :=
  isInstance_of_matchInto h bindings.agreesWith_assignment

theorem exists_match? {pattern tree : Tree} (hsingle : pattern.SingleSplices)
    (h : IsInstance assignment pattern tree) :
    ∃ bindings, pattern.match? tree = some bindings ∧ bindings.AgreesWith assignment :=
  exists_matchInto h hsingle (agreesWith_nil assignment)

/-- A match binds nothing but the variables of its pattern. -/
theorem mem_vars_of_match? {pattern tree : Tree} {bindings : Bindings} {var : String}
    {value : Binding} (hsingle : pattern.SingleSplices)
    (h : pattern.match? tree = some bindings) (hvalue : bindings.lookup var = some value) :
    var ∈ pattern.vars := by
  -- The tree is an instance even when all other variables stand for nothing.
  have hvars : IsInstance (fun var => if var ∈ pattern.vars then bindings.lookup var else none)
      pattern tree := by
    refine (isInstance_of_match? h).congr fun hole hhole => ?_
    exact (if_pos (List.mem_map_of_mem hhole)).symm
  obtain ⟨bindings', hmatch, hagrees⟩ := exists_match? hsingle hvars
  obtain rfl := Option.some.inj (h.symm.trans hmatch)
  obtain ⟨value', hvalue', -⟩ := hagrees var value hvalue
  dsimp only at hvalue'
  split at hvalue'
  case isTrue hvar => exact hvar
  case isFalse => cases hvalue'

/-- A pattern matches a tree exactly if the tree is an instance of it.  The bindings are defined on
the variables of the pattern, make the tree an instance, and agree with every assignment that
does. -/
theorem match?_finds_instance {pattern : Tree} (hsingle : pattern.SingleSplices) (tree : Tree) :
    ((∃ bindings, pattern.match? tree = some bindings) ↔
        ∃ assignment, IsInstance assignment pattern tree) ∧
      ∀ bindings, pattern.match? tree = some bindings →
        (∀ var, (∃ value, bindings.lookup var = some value) ↔ var ∈ pattern.vars) ∧
        IsInstance bindings.assignment pattern tree ∧
        ∀ assignment, IsInstance assignment pattern tree → bindings.AgreesWith assignment := by
  refine ⟨⟨?_, ?_⟩, fun bindings hmatch => ⟨fun var => ⟨?_, ?_⟩, ?_, ?_⟩⟩
  · rintro ⟨bindings, hmatch⟩
    exact ⟨bindings.assignment, isInstance_of_match? hmatch⟩
  · rintro ⟨assignment, h⟩
    obtain ⟨bindings, hmatch, -⟩ := exists_match? hsingle h
    exact ⟨bindings, hmatch⟩
  · rintro ⟨value, hvalue⟩
    exact mem_vars_of_match? hsingle hmatch hvalue
  · intro hvar
    obtain ⟨hole, hhole, rfl⟩ := List.mem_map.1 hvar
    obtain ⟨value, hvalue, -⟩ := binds_of_match? hmatch hole hhole
    exact ⟨value, hvalue⟩
  · exact isInstance_of_match? hmatch
  · intro assignment h
    obtain ⟨bindings', hmatch', hagrees⟩ := exists_match? hsingle h
    exact Option.some.inj (hmatch.symm.trans hmatch') ▸ hagrees

/-- A sequence of numerals between two trees that are the same. -/
def ringPattern : Tree :=
  .node "seq" [.leaf (.antiquot ⟨"x", .any⟩) none, .leaf (.splice ⟨"xs", .num⟩) none,
    .leaf (.antiquot ⟨"x", .ident⟩) none] none

/-- Two numerals between two places of one identifier. -/
def ring : Tree :=
  .node "seq" [.leaf (.ident "a") (some ⟨0, 1⟩), .leaf (.atom "1") none, .leaf (.atom "22") none,
    .leaf (.ident "a") none] none

theorem match?_finds_instance_ring :
    ringPattern.SingleSplices ∧
      ∃ bindings, ringPattern.match? ring = some bindings ∧
        ∀ var, (∃ value, bindings.lookup var = some value) ↔ var ∈ ["x", "xs", "x"] := by
  have hsingle : ringPattern.SingleSplices := by
    intro kind children span hpart
    simp only [ringPattern, isPart_node_iff, List.mem_cons, List.not_mem_nil, or_false,
      exists_eq_or_imp, exists_eq_left, isPart_leaf_iff, reduceCtorEq, node.injEq] at hpart
    obtain ⟨-, rfl, -⟩ := hpart
    decide
  have hring : IsInstance (fun var => if var = "x" then some (.one (.leaf (.ident "a") none))
      else some (.many [.leaf (.atom "1") none, .leaf (.atom "22") none])) ringPattern ring := by
    refine .node (.cons (.hole rfl rfl rfl) ?_)
    change AreInstances _ _ ([.leaf (.atom "1") none, .leaf (.atom "22") none] ++ _)
    exact .splice rfl rfl rfl (.cons (.hole rfl rfl rfl) .nil)
  obtain ⟨hiff, hbindings⟩ := match?_finds_instance hsingle ring
  obtain ⟨bindings, hmatch⟩ := hiff.2 ⟨_, hring⟩
  exact ⟨hsingle, bindings, hmatch, (hbindings bindings hmatch).1⟩

end Tree

end MacroExpansion
