import MacroExpansion.Template.Fill
import MacroExpansion.Proofs.Template.Parts

/-!
# Identifiers in templates

Matching binds parts of its input, so that no identifier gets into the bindings from elsewhere
(`mem_idents_of_match?`).  An identifier of a filled template is one of the template, stamped, or
comes from the bindings (`mem_idents_of_fill`).
-/

namespace MacroExpansion

/-! ## Matching -/

/-- The identifiers of what a variable stands for. -/
def Binding.idents : Binding → List String
  | one tree => tree.idents
  | many trees => Tree.identsList trees

namespace Bindings

/-- The identifiers of what all variables stand for. -/
def idents (bindings : Bindings) : List String := bindings.flatMap fun b => b.2.idents

theorem mem_idents_of_lookup {bindings : Bindings} {var name : String} {value : Binding}
    (h : bindings.lookup var = some value) (hname : name ∈ value.idents) :
    name ∈ bindings.idents := by
  obtain ⟨before, after, rfl, -⟩ := List.lookup_eq_some_iff.1 h
  exact List.mem_flatMap.2 ⟨(var, value), List.mem_append_right _ List.mem_cons_self, hname⟩

theorem exists_mem_trees_of_mem_idents {bindings : Bindings} {name : String}
    (h : name ∈ bindings.idents) : ∃ tree ∈ bindings.trees, name ∈ tree.idents := by
  obtain ⟨⟨var, value⟩, hmem, hname⟩ := List.mem_flatMap.1 h
  cases value with
  | one tree => exact ⟨tree, List.mem_flatMap.2 ⟨_, hmem, List.mem_cons_self⟩, hname⟩
  | many trees =>
    obtain ⟨tree, htree, hname⟩ := Tree.mem_identsList.1 hname
    exact ⟨tree, List.mem_flatMap.2 ⟨_, hmem, htree⟩, hname⟩

end Bindings

namespace Tree

theorem identsList_append (trees trees' : List Tree) :
    identsList (trees ++ trees') = identsList trees ++ identsList trees' := by
  induction trees with
  | nil => rfl
  | cons tree trees ih => rw [List.cons_append, identsList, ih, identsList, List.append_assoc]

theorem IsPart.idents_subset {part tree : Tree} (h : part.IsPart tree) :
    part.idents ⊆ tree.idents := by
  induction h with
  | self => exact List.Subset.refl _
  | child hchild _ ih => exact fun name hname => mem_identsList.2 ⟨_, hchild, ih hname⟩

/-- The identifiers that a match binds are in its input. -/
theorem mem_idents_of_match? {template input : Tree} {bindings : Bindings} {name : String}
    (h : template.match? input = some bindings) (hname : name ∈ bindings.idents) :
    name ∈ input.idents := by
  obtain ⟨tree, htree, hname⟩ := Bindings.exists_mem_trees_of_mem_idents hname
  exact (isPart_of_match? h tree htree).idents_subset hname

end Tree

/-! ## Filling -/

namespace Filling

/-- Where an identifier of a filled template comes from: it is one of the template's own, stamped,
or the bindings have it. -/
def Source (f : Filling) (own : List String) (name : String) : Prop :=
  (∃ n ∈ own, ScopedName.stamp n f.mainModule f.scope = .ok name) ∨ name ∈ f.bindings.idents

variable {f : Filling}

theorem Source.mono {own own' : List String} {name : String} (h : f.Source own name)
    (hsub : own ⊆ own') : f.Source own' name :=
  h.imp_left fun ⟨n, hn, hstamp⟩ => ⟨n, hsub hn, hstamp⟩

theorem source_of_single {hole : Hole} {span : Option Span} {tree : Tree} {name : String}
    (h : f.single hole span = .ok tree) (hname : name ∈ tree.idents) : f.Source [] name := by
  rw [single] at h
  split at h
  case h_1 hlookup =>
    obtain rfl := Except.ok.inj h
    exact .inr (Bindings.mem_idents_of_lookup hlookup hname)
  case h_2 => cases h
  case h_3 => cases h

theorem source_of_sequence {hole : Hole} {span : Option Span} {trees : List Tree} {name : String}
    (h : f.sequence hole span = .ok trees) (hname : name ∈ Tree.identsList trees) :
    f.Source [] name := by
  rw [sequence] at h
  split at h
  case h_1 hlookup =>
    obtain rfl := Except.ok.inj h
    exact .inr (Bindings.mem_idents_of_lookup hlookup hname)
  case h_2 => cases h
  case h_3 => cases h

theorem source_of_ident {own name : String} {span : Option Span} {tree : Tree}
    (h : f.ident own span = .ok tree) (hname : name ∈ tree.idents) : f.Source [own] name := by
  rw [ident] at h
  split at h
  case h_1 stamped hstamp =>
    obtain rfl := Except.ok.inj h
    obtain rfl := List.mem_singleton.1 hname
    exact .inl ⟨own, List.mem_cons_self, hstamp⟩
  case h_2 => cases h

mutual

theorem mem_idents_of_fill {template tree : Tree} {name : String} (h : f.fill template = .ok tree)
    (hname : name ∈ tree.idents) : f.Source template.idents name := by
  unfold fill at h
  split at h
  case h_1 => exact source_of_single h hname
  case h_2 => cases h
  case h_3 => exact source_of_ident h hname
  case h_4 =>
    obtain rfl := Except.ok.inj h
    cases hname
  case h_5 kind children span =>
    split at h
    case h_1 filled hfilled =>
      obtain rfl := Except.ok.inj h
      exact mem_identsList_of_fillList hfilled hname
    case h_2 => cases h

theorem mem_identsList_of_fillList {templates trees : List Tree} {name : String}
    (h : f.fillList templates = .ok trees) (hname : name ∈ Tree.identsList trees) :
    f.Source (Tree.identsList templates) name := by
  unfold fillList at h
  split at h
  case h_1 =>
    obtain rfl := Except.ok.inj h
    cases hname
  case h_2 hole span rest =>
    split at h
    case h_1 => cases h
    case h_2 run hrun =>
      split at h
      case h_1 filled hfilled =>
        obtain rfl := Except.ok.inj h
        rw [Tree.identsList_append, List.mem_append] at hname
        rcases hname with hname | hname
        · exact (source_of_sequence hrun hname).mono (List.nil_subset _)
        · exact (mem_identsList_of_fillList hfilled hname).mono (List.subset_append_right _ _)
      case h_2 => cases h
  case h_3 t rest _ =>
    split at h
    case h_1 => cases h
    case h_2 tree htree =>
      split at h
      case h_1 filled hfilled =>
        obtain rfl := Except.ok.inj h
        rw [Tree.identsList, List.mem_append] at hname
        rcases hname with hname | hname
        · exact (mem_idents_of_fill htree hname).mono (List.subset_append_left _ _)
        · exact (mem_identsList_of_fillList hfilled hname).mono (List.subset_append_right _ _)
      case h_2 => cases h

end

end Filling

end MacroExpansion
