import MacroExpansion.Template.Match
import MacroExpansion.Proofs.Tree.Parts

/-!
# What a match binds

A variable stands for trees that the match came across, so that every tree in the bindings is a part
of the input (`isPart_of_match?`).  What all parts of the input have in common, all bound trees
have.
-/

namespace MacroExpansion

/-- The trees that a variable stands for. -/
def Binding.trees : Binding → List Tree
  | one tree => [tree]
  | many trees => trees

namespace Bindings

/-- The trees that all variables stand for. -/
def trees (bindings : Bindings) : List Tree := bindings.flatMap fun b => b.2.trees

theorem mem_trees_of_lookup {bindings : Bindings} {var : String} {value : Binding} {tree : Tree}
    (h : bindings.lookup var = some value) (htree : tree ∈ value.trees) :
    tree ∈ bindings.trees := by
  obtain ⟨before, after, rfl, -⟩ := List.lookup_eq_some_iff.1 h
  exact List.mem_flatMap.2 ⟨(var, value), List.mem_append_right _ List.mem_cons_self, htree⟩

theorem mem_trees_of_bind? {bindings bindings' : Bindings} {var : String} {value : Binding}
    {tree : Tree} (h : bindings.bind? var value = some bindings') (htree : tree ∈ bindings'.trees) :
    tree ∈ bindings.trees ∨ tree ∈ value.trees := by
  rw [bind?] at h
  split at h
  case h_1 =>
    split at h
    case isTrue =>
      obtain rfl := Option.some.inj h
      exact .inl htree
    case isFalse => cases h
  case h_2 =>
    obtain rfl := Option.some.inj h
    rw [trees, List.flatMap_cons, List.mem_append] at htree
    exact htree.symm

end Bindings

namespace Tree

mutual

theorem mem_trees_of_matchInto {template input tree : Tree} {bindings bindings' : Bindings}
    (h : template.matchInto input bindings = some bindings') (htree : tree ∈ bindings'.trees) :
    tree ∈ bindings.trees ∨ tree.IsPart input := by
  unfold matchInto at h
  split at h
  case h_1 =>
    split at h
    case isTrue =>
      refine (Bindings.mem_trees_of_bind? h htree).imp_right fun hinput => ?_
      rw [List.mem_singleton.1 hinput]
      exact .self _
    case isFalse => cases h
  case h_2 =>
    split at h
    case isTrue => exact .inl (Option.some.inj h ▸ htree)
    case isFalse => cases h
  case h_3 =>
    split at h
    case isTrue => exact .inl (Option.some.inj h ▸ htree)
    case isFalse => cases h
  case h_4 =>
    split at h
    case isTrue =>
      refine (mem_trees_of_matchChildren h htree).imp_right ?_
      rintro ⟨child, hchild, hpart⟩
      exact .child hchild hpart
    case isFalse => cases h
  case h_5 => cases h

theorem mem_trees_of_matchChildren {patterns inputs : List Tree} {tree : Tree}
    {bindings bindings' : Bindings} (h : matchChildren patterns inputs bindings = some bindings')
    (htree : tree ∈ bindings'.trees) :
    tree ∈ bindings.trees ∨ ∃ input ∈ inputs, tree.IsPart input := by
  unfold matchChildren at h
  split at h
  case h_1 => exact .inl (Option.some.inj h ▸ htree)
  case h_2 => cases h
  case h_3 hole span patterns =>
    dsimp only at h
    split at h
    case isTrue => cases h
    case isFalse =>
      split at h
      case h_1 => cases h
      case h_2 bindings₁ hpairs =>
        split at h
        case isTrue =>
          rcases Bindings.mem_trees_of_bind? h htree with htree | hrun
          · refine (mem_trees_of_matchPairs hpairs htree).imp_right ?_
            rintro ⟨input, hinput, hpart⟩
            exact ⟨input, List.mem_of_mem_drop hinput, hpart⟩
          · exact .inr ⟨tree, List.mem_of_mem_take hrun, .self _⟩
        case isFalse => cases h
  case h_4 => cases h
  case h_5 pattern patterns input inputs _ =>
    split at h
    case h_1 => cases h
    case h_2 bindings₁ hinto =>
      simp only [List.mem_cons, exists_eq_or_imp]
      rcases mem_trees_of_matchChildren h htree with htree | hpart
      · exact (mem_trees_of_matchInto hinto htree).imp_right .inl
      · exact .inr (.inr hpart)

theorem mem_trees_of_matchPairs {patterns inputs : List Tree} {tree : Tree}
    {bindings bindings' : Bindings} (h : matchPairs patterns inputs bindings = some bindings')
    (htree : tree ∈ bindings'.trees) :
    tree ∈ bindings.trees ∨ ∃ input ∈ inputs, tree.IsPart input := by
  unfold matchPairs at h
  split at h
  case h_1 pattern patterns input inputs =>
    split at h
    case h_1 => cases h
    case h_2 bindings₁ hinto =>
      simp only [List.mem_cons, exists_eq_or_imp]
      rcases mem_trees_of_matchPairs h htree with htree | hpart
      · exact (mem_trees_of_matchInto hinto htree).imp_right .inl
      · exact .inr (.inr hpart)
  case h_2 => exact .inl (Option.some.inj h ▸ htree)

end

/-- Whatever a match binds is part of its input. -/
theorem isPart_of_match? {template input : Tree} {bindings : Bindings}
    (h : template.match? input = some bindings) : ∀ tree ∈ bindings.trees, tree.IsPart input :=
  fun _ htree => (mem_trees_of_matchInto h htree).resolve_left List.not_mem_nil

end Tree

end MacroExpansion
