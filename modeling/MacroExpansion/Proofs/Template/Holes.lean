import MacroExpansion.Template.Fill

/-!
# Holes of templates

A successful match binds every hole of its template, in the form of the hole (`binds_of_match?`):
an antiquotation to one tree and a splice to a run.  Conversely, a template whose holes are all
bound in their forms is filled unless one of its identifiers cannot be stamped (`fill_outcome`).
Only a template that is a splice itself is refused whatever the bindings are.
-/

namespace MacroExpansion

/-! ## Forms of bindings -/

/-- The form of the holes that a binding fits. -/
def Binding.form : Binding → HoleForm
  | one _ => .single
  | many _ => .sequence

theorem Binding.form_eq_of_sameUpToSpans {a b : Binding} (h : a.sameUpToSpans b = true) :
    a.form = b.form := by
  cases a with
  | one a =>
    cases b with
    | one b => rfl
    | many bs => cases h
  | many as =>
    cases b with
    | one b => cases h
    | many bs => rfl

namespace Bindings

/-- A hole is bound, in its own form. -/
def Binds (bindings : Bindings) (hole : Hole × HoleForm) : Prop :=
  ∃ value, bindings.lookup hole.1.var = some value ∧ value.form = hole.2

/-- Bindings that have come to bind some holes, and kept what they were. -/
structure Gains (bindings bindings' : Bindings) (holes : List (Hole × HoleForm)) : Prop where
  keeps : ∀ var value, bindings.lookup var = some value → bindings'.lookup var = some value
  binds : ∀ hole ∈ holes, bindings'.Binds hole

namespace Gains

variable {bindings bindings₁ bindings₂ : Bindings} {holes holes' : List (Hole × HoleForm)}

theorem refl (bindings : Bindings) : Gains bindings bindings [] :=
  ⟨fun _ _ h => h, fun _ h => absurd h List.not_mem_nil⟩

theorem append (h : Gains bindings bindings₁ holes) (h' : Gains bindings₁ bindings₂ holes') :
    Gains bindings bindings₂ (holes ++ holes') where
  keeps var value hvalue := h'.keeps var value (h.keeps var value hvalue)
  binds hole hhole := by
    rcases List.mem_append.1 hhole with hhole | hhole
    · obtain ⟨value, hvalue, hform⟩ := h.binds hole hhole
      exact ⟨value, h'.keeps _ _ hvalue, hform⟩
    · exact h'.binds hole hhole

theorem mono (h : Gains bindings bindings₁ holes) (hsub : holes' ⊆ holes) :
    Gains bindings bindings₁ holes' :=
  ⟨h.keeps, fun hole hhole => h.binds hole (hsub hhole)⟩

theorem of_bind? {var : String} {value : Binding} {hole : Hole × HoleForm}
    (h : bindings.bind? var value = some bindings₁) (hvar : hole.1.var = var)
    (hform : hole.2 = value.form) : Gains bindings bindings₁ [hole] := by
  subst hvar
  rw [bind?] at h
  split at h
  case h_1 bound hbound =>
    split at h
    case isTrue hsame =>
      obtain rfl := Option.some.inj h
      refine ⟨fun _ _ h => h, List.forall_mem_singleton.2 ⟨bound, hbound, ?_⟩⟩
      rw [hform, Binding.form_eq_of_sameUpToSpans hsame]
    case isFalse => cases h
  case h_2 hnone =>
    obtain rfl := Option.some.inj h
    have hbinds : Binds ((hole.1.var, value) :: bindings) hole :=
      ⟨value, List.lookup_cons_self, hform.symm⟩
    refine ⟨fun v x hx => ?_, List.forall_mem_singleton.2 hbinds⟩
    have hne : (v == hole.1.var) = false := by
      rw [beq_eq_false_iff_ne]
      rintro rfl
      rw [hnone] at hx
      cases hx
    rw [List.lookup_cons, hne]
    exact hx

end Gains

end Bindings

/-! ## Matching -/

namespace Tree

open Bindings

mutual

theorem gains_of_matchInto {template input : Tree} {bindings bindings' : Bindings}
    (h : template.matchInto input bindings = some bindings') :
    Gains bindings bindings' template.holes := by
  unfold matchInto at h
  split at h
  case h_1 hole _ _ =>
    split at h
    case isTrue => exact .of_bind? h rfl rfl
    case isFalse => cases h
  case h_2 =>
    split at h
    case isTrue =>
      obtain rfl := Option.some.inj h
      exact .refl _
    case isFalse => cases h
  case h_3 =>
    split at h
    case isTrue =>
      obtain rfl := Option.some.inj h
      exact .refl _
    case isFalse => cases h
  case h_4 =>
    split at h
    case isTrue => exact gains_of_matchChildren h
    case isFalse => cases h
  case h_5 => cases h

theorem gains_of_matchChildren {patterns inputs : List Tree} {bindings bindings' : Bindings}
    (h : matchChildren patterns inputs bindings = some bindings') :
    Gains bindings bindings' (holesList patterns) := by
  unfold matchChildren at h
  split at h
  case h_1 =>
    obtain rfl := Option.some.inj h
    exact .refl _
  case h_2 => cases h
  case h_3 hole span patterns =>
    dsimp only at h
    split at h
    case isTrue => cases h
    case isFalse hlength =>
      split at h
      case h_1 => cases h
      case h_2 bindings₁ hpairs =>
        split at h
        case isTrue =>
          -- The splice is bound last, but it comes before the patterns after it.
          have hrest := gains_of_matchPairs hpairs (by rw [List.length_drop]; omega)
          have hsplice : Gains bindings₁ bindings' (holes (leaf (.splice hole) span)) :=
            .of_bind? h rfl rfl
          exact (hrest.append hsplice).mono List.perm_append_comm.subset
        case isFalse => cases h
  case h_4 => cases h
  case h_5 pattern patterns input inputs _ =>
    split at h
    case h_1 => cases h
    case h_2 bindings₁ hinto => exact (gains_of_matchInto hinto).append (gains_of_matchChildren h)

theorem gains_of_matchPairs {patterns inputs : List Tree} {bindings bindings' : Bindings}
    (h : matchPairs patterns inputs bindings = some bindings')
    (hlength : patterns.length ≤ inputs.length) :
    Gains bindings bindings' (holesList patterns) := by
  unfold matchPairs at h
  split at h
  case h_1 pattern patterns input inputs =>
    split at h
    case h_1 => cases h
    case h_2 bindings₁ hinto =>
      exact (gains_of_matchInto hinto).append
        (gains_of_matchPairs h (Nat.le_of_succ_le_succ hlength))
  case h_2 hshort =>
    obtain rfl := Option.some.inj h
    match patterns, inputs with
    | [], _ => exact .refl _
    | pattern :: patterns, input :: inputs => exact (hshort _ _ _ _ rfl rfl).elim

end

/-- A match binds every hole of its template, in the form of the hole. -/
theorem binds_of_match? {template input : Tree} {bindings : Bindings}
    (h : template.match? input = some bindings) :
    ∀ hole ∈ template.holes, bindings.Binds hole :=
  (gains_of_matchInto h).binds

end Tree

/-! ## Filling -/

/-- Why a name cannot be stamped, if it cannot. -/
def ScopedName.stampFault? (mainModule : String) (scope : Scope) (name : String) :
    Option NameFault :=
  match stamp name mainModule scope with
  | .ok _ => none
  | .error fault => some fault

theorem Tree.splice?_eq_none {tree : Tree}
    (h : ∀ hole span, tree = .leaf (.splice hole) span → False) : tree.splice? = none := by
  unfold splice?
  split
  case h_1 hole span => exact (h hole span rfl).elim
  case h_2 => rfl

/-- A result that is there, or is missing because a name has this fault. -/
inductive UnlessFault {α : Type} : Option NameFault → Except Report α → Prop
  | ok (a : α) : UnlessFault none (.ok a)
  | error (span : Option Span) (fault : NameFault) :
      UnlessFault (some fault) (.error (.at? span (.name fault)))

namespace Filling

variable {f : Filling}

/-- The fault of the first of some names that cannot be stamped. -/
def firstFault? (f : Filling) (names : List String) : Option NameFault :=
  names.findSome? (ScopedName.stampFault? f.mainModule f.scope)

theorem exists_single {hole : Hole} (h : f.bindings.Binds (hole, .single)) (span : Option Span) :
    ∃ tree, f.single hole span = .ok tree := by
  obtain ⟨value, hvalue, hform⟩ := h
  cases value with
  | one tree => exact ⟨tree, by rw [single, hvalue]⟩
  | many trees => cases hform

theorem exists_sequence {hole : Hole} (h : f.bindings.Binds (hole, .sequence))
    (span : Option Span) : ∃ trees, f.sequence hole span = .ok trees := by
  obtain ⟨value, hvalue, hform⟩ := h
  cases value with
  | one tree => cases hform
  | many trees => exact ⟨trees, by rw [sequence, hvalue]⟩

theorem firstFault?_append (names names' : List String) :
    f.firstFault? (names ++ names') = (f.firstFault? names).or (f.firstFault? names') :=
  List.findSome?_append

theorem ident_outcome (name : String) (span : Option Span) :
    UnlessFault (f.firstFault? [name]) (f.ident name span) := by
  rw [firstFault?, List.findSome?_singleton, ScopedName.stampFault?, ident]
  cases ScopedName.stamp name f.mainModule f.scope with
  | ok stamped => exact .ok _
  | error fault => exact .error _ _

mutual

/-- A template whose holes are bound is filled, unless one of its identifiers cannot be stamped. -/
theorem fill_outcome (template : Tree) (hbinds : ∀ hole ∈ template.holes, f.bindings.Binds hole)
    (hsplice : template.splice? = none) :
    UnlessFault (f.firstFault? template.idents) (f.fill template) := by
  match template with
  | .leaf (.antiquot hole) span =>
    obtain ⟨tree, htree⟩ := exists_single (hbinds _ List.mem_cons_self) span
    rw [fill, htree]
    exact .ok tree
  | .leaf (.splice hole) span => cases hsplice
  | .leaf (.ident name) span =>
    rw [fill]
    exact ident_outcome name span
  | .leaf (.atom text) span => exact .ok _
  | .node kind children span =>
    have hchildren := fillList_outcome children hbinds
    rw [fill, Tree.idents]
    generalize f.fillList children = filled, f.firstFault? (Tree.identsList children) = fault
      at hchildren ⊢
    cases hchildren with
    | ok => exact .ok _
    | error => exact .error _ _

theorem fillList_outcome (templates : List Tree)
    (hbinds : ∀ hole ∈ Tree.holesList templates, f.bindings.Binds hole) :
    UnlessFault (f.firstFault? (Tree.identsList templates)) (f.fillList templates) := by
  unfold fillList
  split
  case h_1 => exact .ok []
  case h_2 hole span rest =>
    obtain ⟨hhole, hrest⟩ := List.forall_mem_append.1 hbinds
    obtain ⟨run, hrun⟩ := exists_sequence (hhole _ List.mem_cons_self) span
    have htail := fillList_outcome rest hrest
    rw [hrun, Tree.identsList, Tree.idents, List.nil_append]
    · generalize f.fillList rest = filled, f.firstFault? (Tree.identsList rest) = fault at htail ⊢
      cases htail with
      | ok => exact .ok _
      | error => exact .error _ _
    · intro name h
      cases h
  case h_3 template rest hne =>
    obtain ⟨htemplate, hrest⟩ := List.forall_mem_append.1 hbinds
    have hhead := fill_outcome template htemplate (Tree.splice?_eq_none hne)
    have htail := fillList_outcome rest hrest
    rw [Tree.identsList, firstFault?_append]
    generalize f.fill template = tree, f.firstFault? template.idents = fault at hhead ⊢
    generalize f.fillList rest = filled, f.firstFault? (Tree.identsList rest) = fault' at htail ⊢
    -- The first fault counts: the rest is not looked at after one.
    cases hhead with
    | error => exact .error _ _
    | ok =>
      cases htail with
      | ok => exact .ok _
      | error => exact .error _ _

end

end Filling

end MacroExpansion
