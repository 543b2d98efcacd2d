import MacroExpansion.Tree.Render
import MacroExpansion.Proofs.Expansion.Simulation
import MacroExpansion.Proofs.Name.History
import MacroExpansion.Proofs.Registry.Lookup

/-!
# The numbering of scopes

Which numbers the scopes of a run get depends on where its counter starts, and on handlers that are
called in vain.  Nothing else does: two runs of the same rule sets that differ in this make the same
replacements, and their results are the same but for the numbers.  The last scope of each scoped
identifier is that of a replacement of the first run in one result, and that of the same replacement
of the second run in the other (`Renamed`).
-/

namespace MacroExpansion

/-! ## Renaming the last scope of a name -/

namespace ScopedName

/-- A name with another scope in the place of its last one. -/
def withLast (n : ScopedName) (scope : Scope) : ScopedName :=
  { n with scopes := n.scopes.dropLast ++ [scope] }

theorem getLast?_scopes_withLast (n : ScopedName) (scope : Scope) :
    (n.withLast scope).scopes.getLast? = some scope :=
  List.getLast?_concat

theorem withLast_withLast {n : ScopedName} {scope : Scope} (h : n.scopes.getLast? = some scope)
    (scope' : Scope) : (n.withLast scope').withLast scope = n := by
  obtain ⟨base, imported, mainModule, scopes⟩ := n
  obtain ⟨earlier, rfl⟩ := List.getLast?_eq_some_iff.1 h
  simp [withLast]

theorem withLast_addScope (n : ScopedName) (mainModule : String) (scope scope' : Scope) :
    (n.addScope mainModule scope).withLast scope' = n.addScope mainModule scope' := by
  rw [addScope, addScope]
  split
  case isTrue => simp [withLast]
  case isFalse => simp [withLast]

/-- Whether a name can be written, and why not, does not depend on its last scope. -/
theorem agree_encode_withLast {n : ScopedName} (h : n.scopes ≠ []) (scope : Scope) :
    Agree Eq (fun _ _ => True) n.encode (n.withLast scope).encode := by
  have hempty : n.scopes.isEmpty = false := List.isEmpty_eq_false_iff.2 h
  have hempty' : (n.withLast scope).scopes.isEmpty = false := by simp [withLast]
  rw [encode, encode, hempty, hempty', withLast]
  cases checkBase n.base with
  | error fault => exact .error rfl
  | ok =>
    cases checkModule n.mainModule with
    | error fault => exact .error rfl
    | ok =>
      cases encodeImported n.imported with
      | error fault => exact .error rfl
      | ok path => exact .ok trivial

end ScopedName

open ScopedName

/-- One name becomes another when scopes are renamed: a plain name stays, and the last scope of a
scoped name is replaced by the one beside it. -/
inductive Renamed (scopes : List (Scope × Scope)) : String → String → Prop
  | plain {name : String} : hasScopes name = false → Renamed scopes name name
  | stamped {n : ScopedName} {scope scope' : Scope} {name name' : String} :
      (scope, scope') ∈ scopes → n.scopes.getLast? = some scope → n.encode = .ok name →
      (n.withLast scope').encode = .ok name' → Renamed scopes name name'

namespace Renamed

variable {scopes : List (Scope × Scope)} {name name' other other' : String}

theorem mono {scopes' : List (Scope × Scope)} (h : Renamed scopes name name')
    (hsub : scopes ⊆ scopes') : Renamed scopes' name name' := by
  cases h with
  | plain hplain => exact .plain hplain
  | stamped hmem hlast hname hname' => exact .stamped (hsub hmem) hlast hname hname'

theorem symm (h : Renamed scopes name name') : Renamed (scopes.map Prod.swap) name' name := by
  cases h with
  | plain hplain => exact .plain hplain
  | @stamped n scope scope' _ _ hmem hlast hname hname' =>
    refine .stamped (List.mem_map_of_mem hmem) (getLast?_scopes_withLast n scope') hname' ?_
    rw [withLast_withLast hlast]
    exact hname

theorem hasScopes_eq (h : Renamed scopes name name') : hasScopes name = hasScopes name' := by
  cases h with
  | plain => rfl
  | stamped _ _ hname hname' => rw [hasScopes_of_encode hname, hasScopes_of_encode hname']

theorem eraseScopes_eq (h : Renamed scopes name name') : eraseScopes name = eraseScopes name' := by
  cases h with
  | plain => rfl
  | stamped _ _ hname hname' =>
    rw [eraseScopes_of_encode hname, eraseScopes_of_encode hname']
    rfl

/-- A name becomes one other name, if a scope becomes one other scope. -/
theorem unique (hfun : ∀ p ∈ scopes, ∀ q ∈ scopes, p.1 = q.1 → p.2 = q.2)
    (h : Renamed scopes name name') (h' : Renamed scopes name other') : name' = other' := by
  cases h with
  | plain hplain =>
    cases h' with
    | plain => rfl
    | stamped _ _ hname =>
      rw [hasScopes_of_encode hname] at hplain
      cases hplain
  | @stamped n scope scope' _ _ hmem hlast hname hname' =>
    cases h' with
    | plain hplain =>
      rw [hasScopes_of_encode hname] at hplain
      cases hplain
    | @stamped m other other' _ _ hmem' hlast' hname₁ hname₁' =>
      have hdecode := decode_of_encode hname
      rw [decode_of_encode hname₁] at hdecode
      obtain rfl := Except.ok.inj hdecode
      rw [hlast] at hlast'
      obtain rfl := Option.some.inj hlast'
      obtain rfl : scope' = other' := hfun _ hmem _ hmem' rfl
      rw [hname'] at hname₁'
      exact Except.ok.inj hname₁'

/-- Renaming keeps names apart, if it keeps scopes apart. -/
theorem eq_iff (hscopes : ∀ p ∈ scopes, ∀ q ∈ scopes, p.1 = q.1 ↔ p.2 = q.2)
    (h : Renamed scopes name name') (h' : Renamed scopes other other') :
    name = other ↔ name' = other' := by
  constructor
  · rintro rfl
    exact unique (fun p hp q hq => (hscopes p hp q hq).1) h h'
  · rintro rfl
    refine unique (List.forall_mem_map.2 fun p hp => List.forall_mem_map.2 fun q hq => ?_) h.symm
      h'.symm
    exact (hscopes p hp q hq).2

theorem agree_encode {n : ScopedName} {scope scope' : Scope} (hmem : (scope, scope') ∈ scopes)
    (hlast : n.scopes.getLast? = some scope) :
    Agree Eq (Renamed scopes) n.encode (n.withLast scope').encode := by
  have hne : n.scopes ≠ [] := by
    intro hnil
    rw [hnil] at hlast
    cases hlast
  have hagree := agree_encode_withLast hne scope'
  generalize hx : n.encode = x, hx' : (n.withLast scope').encode = x' at hagree ⊢
  cases hagree with
  | error hfault => exact .error hfault
  | ok => exact .ok (.stamped hmem hlast hx hx')

/-- Two scopes stamp names alike, but for the scopes. -/
theorem agree_stamp {scope scope' : Scope} (hmem : (scope, scope') ∈ scopes)
    (name mainModule : String) :
    Agree Eq (Renamed scopes) (stamp name mainModule scope) (stamp name mainModule scope') := by
  rw [stamp, stamp]
  split
  case isTrue =>
    cases decode name with
    | error fault => exact .error rfl
    | ok n =>
      show Agree Eq (Renamed scopes) (n.addScope mainModule scope).encode
        (n.addScope mainModule scope').encode
      rw [← withLast_addScope n mainModule scope scope']
      exact agree_encode hmem (getLast?_scopes_addScope n mainModule scope)
  case isFalse => exact agree_encode hmem rfl

end Renamed

/-! ## Runs that differ in the numbering -/

/-- The scopes of replacements of two runs that have handed out `a` and `b` scopes: a scope of one
run always stands beside the same scope of the other. -/
structure Matched (scopes : List (Scope × Scope)) (a b : Nat) : Prop where
  first_le : ∀ p ∈ scopes, p.1.toNat ≤ a
  second_le : ∀ p ∈ scopes, p.2.toNat ≤ b
  eq_iff : ∀ p ∈ scopes, ∀ q ∈ scopes, p.1 = q.1 ↔ p.2 = q.2

namespace Matched

variable {scopes : List (Scope × Scope)} {a b : Nat}

theorem nil (a b : Nat) : Matched [] a b :=
  ⟨List.forall_mem_nil _, List.forall_mem_nil _, List.forall_mem_nil _⟩

theorem mono (h : Matched scopes a b) {a' b' : Nat} (ha : a ≤ a') (hb : b ≤ b') :
    Matched scopes a' b' :=
  ⟨fun p hp => (h.first_le p hp).trans ha, fun p hp => (h.second_le p hp).trans hb, h.eq_iff⟩

/-- The next scopes are new in both runs. -/
theorem concat (h : Matched scopes a b) (ha : a + 1 < UInt64.size) (hb : b + 1 < UInt64.size) :
    Matched (scopes ++ [(Scope.next a, Scope.next b)]) (a + 1) (b + 1) := by
  have hfirst := Scope.toNat_next ha
  have hsecond := Scope.toNat_next hb
  have hnew (p : Scope × Scope) (hp : p ∈ scopes) : p.1 ≠ Scope.next a ∧ p.2 ≠ Scope.next b := by
    have hle := h.first_le p hp
    have hle' := h.second_le p hp
    constructor
    · intro heq
      rw [heq] at hle
      omega
    · intro heq
      rw [heq] at hle'
      omega
  refine ⟨List.forall_mem_append.2 ⟨fun p hp => ?_, List.forall_mem_singleton.2 hfirst.le⟩,
    List.forall_mem_append.2 ⟨fun p hp => ?_, List.forall_mem_singleton.2 hsecond.le⟩, ?_⟩
  · exact (h.first_le p hp).trans (Nat.le_succ a)
  · exact (h.second_le p hp).trans (Nat.le_succ b)
  · intro p hp q hq
    rcases List.mem_append.1 hp with hp | hp
    · rcases List.mem_append.1 hq with hq | hq
      · exact h.eq_iff p hp q hq
      · rw [List.mem_singleton.1 hq]
        exact iff_of_false (hnew p hp).1 (hnew p hp).2
    · rw [List.mem_singleton.1 hp]
      rcases List.mem_append.1 hq with hq | hq
      · exact iff_of_false (hnew q hq).1.symm (hnew q hq).2.symm
      · rw [List.mem_singleton.1 hq]
        exact iff_of_true rfl rfl

end Matched

/-- Two runs that differ in the numbers of their scopes.  The second one may have handlers that
always decline. -/
def Simulation.renaming : Simulation where
  ident := Renamed
  span := Eq
  Counts := Matched
  Fits a b := a < UInt64.size ∧ b < UInt64.size
  Extra handler := ∀ tree cx, handler.Declines tree cx
  mono later h := h.mono (List.subset_append_left _ later)
  lawful h := {
    eraseScopes_eq := Renamed.eraseScopes_eq
    eq_iff := Renamed.eq_iff h.eq_iff
    span_refl := fun _ => rfl
    span_or := fun hspan hother => hspan ▸ hother ▸ rfl }
  decline h := h.mono (Nat.le_succ _) (Nat.le_succ _)
  replace h hfits := h.concat hfits.1 hfits.2
  stamp _ := Renamed.agree_stamp (List.mem_append_right _ List.mem_cons_self)
  fits_of_le h ha hb := ⟨ha.trans_lt h.1, hb.trans_lt h.2⟩
  extra_declines h := h
  wait _ h hb := h.mono (Nat.le_refl _) hb

/-- Registries of rule sets: the second one has the rule sets of the first, registered in the same
order, and handlers that always decline, registered at any time and for any kind.  The objects that
they share do not matter. -/
inductive Registry.Padded : Registry → Registry → Prop
  | empty (sharing sharing' : Context → Context → Tree → Bool) : Padded ⟨[], sharing⟩ ⟨[], sharing'⟩
  | rules {r r' : Registry} (kind : String) (set : RuleSet) :
      Padded r r' → Padded (r.register kind set.handler) (r'.register kind set.handler)
  | pad {r r' : Registry} (kind : String) {handler : Handler} :
      (∀ tree cx, handler.Declines tree cx) → Padded r r' → Padded r (r'.register kind handler)

namespace Registry.Padded

variable {r r' : Registry}

theorem sorted (h : Padded r r') : r.Sorted ∧ r'.Sorted := by
  induction h with
  | empty => exact ⟨.nil, .nil⟩
  | rules kind set _ ih => exact ⟨ih.1.register kind set.handler, ih.2.register kind set.handler⟩
  | pad kind _ _ ih => exact ⟨ih.1, ih.2.register kind _⟩

theorem onlyRules (h : Padded r r') : r.OnlyRules := by
  induction h with
  | empty => exact Registry.forall_mem_lookup_empty
  | rules kind set _ ih => exact Registry.forall_mem_lookup_register ih ⟨set, rfl⟩
  | pad _ _ _ ih => exact ih

theorem interleaved (h : Padded r r') (kind : String) :
    Interleaved Simulation.renaming.Extra (r.lookup kind) (r'.lookup kind) := by
  induction h with
  | empty => exact .nil
  | rules k set hpadded ih =>
    obtain ⟨hsorted, hsorted'⟩ := hpadded.sorted
    rw [lookup_register hsorted, lookup_register hsorted']
    split
    case isTrue => exact .both set.handler ih
    case isFalse => exact ih
  | pad k hdeclines hpadded ih =>
    rw [lookup_register hpadded.sorted.2]
    split
    case isTrue => exact .extra hdeclines ih
    case isFalse => exact ih

theorem relates (h : Padded r r') (limit : Nat) :
    Simulation.renaming.Relates ⟨r, limit⟩ ⟨r', limit⟩ :=
  ⟨rfl, h.onlyRules, h.interleaved⟩

end Registry.Padded

/-! ## Erased text -/

theorem Tree.renderList_congr {erase : Bool} {trees trees' : List Tree}
    (h : List.Forall₂ (fun tree tree' => tree.render erase = tree'.render erase) trees trees') :
    renderList erase trees = renderList erase trees' := by
  induction h with
  | nil => rfl
  | cons htree _ ih => rw [renderList, renderList, htree, ih]

/-- Alike trees are shown alike, if their identifiers are. -/
theorem Tree.Alike.render_eq {like : Likeness} {erase : Bool} {tree tree' : Tree}
    (h : tree.Alike like tree')
    (hident : ∀ name name', like.ident name name' →
      (Leaf.ident name).render erase = (Leaf.ident name').render erase) :
    tree.render erase = tree'.render erase := by
  induction tree using Tree.inductionOn generalizing tree' with
  | leaf l span =>
    cases h with
    | leaf hleaf =>
      cases hleaf with
      | ident hname => exact hident _ _ hname
      | _ => rfl
  | node kind children span ih =>
    cases h with
    | node hchildren =>
      have hall := forall₂_imp_of_mem hchildren fun child hchild _ => ih child hchild
      rw [render, render, renderList_congr hall]

theorem Renamed.render_eq {scopes : List (Scope × Scope)} {name name' : String}
    (h : Renamed scopes name name') :
    (Leaf.ident name).render true = (Leaf.ident name').render true := by
  have heq := h.hasScopes_eq
  have herase := h.eraseScopes_eq
  cases h with
  | plain => rfl
  | stamped _ _ hname =>
    rw [hasScopes_of_encode hname] at heq
    rw [Leaf.render, Leaf.render, hasScopes_of_encode hname, ← heq, herase]
    rfl

namespace Expander

/-- The numbers of scopes do not matter.  When the counter starts elsewhere, and when handlers that
always decline take scopes too, an expansion by rules fails with the same report, or it makes the
same replacements and ends with the same tree, up to renaming the scopes of these replacements. -/
theorem expand_renames_scopes (r r' : Registry) (hpadded : r.Padded r') (limit : Nat)
    (mainModule : String) (allocated allocated' : Nat) (tree : Tree)
    (hplain : ∀ name ∈ tree.idents, hasScopes name = false) :
    ∃ run run', expand ⟨r, limit⟩ tree (.initial mainModule allocated true) = some run ∧
      expand ⟨r', limit⟩ tree (.initial mainModule allocated' true) = some run' ∧
      (run.2.context.allocated < UInt64.size → run'.2.context.allocated < UInt64.size →
        (run.2.replacements.map fun r => (r.handler, r.kind)) =
            run'.2.replacements.map (fun r => (r.handler, r.kind)) ∧
          Agree Eq
            (fun x x' => x.changed = x'.changed ∧ x.value.render true = x'.value.render true ∧
              x.value.Alike ⟨Renamed ((run.2.replacements.map (·.scope)).zip
                (run'.2.replacements.map (·.scope))), Eq⟩ x'.value)
            run.1 run'.1) := by
  obtain ⟨run, run', hrun, hrun', hagrees⟩ :=
    Simulation.exists_agrees_expand (hpadded.relates limit) mainModule true
      (.refl (fun _ => rfl) fun name hname => .plain (hplain name hname))
      (Matched.nil allocated allocated')
  refine ⟨run, run', hrun, hrun', fun hlt hlt' => ?_⟩
  obtain ⟨ps, hholds, hagree⟩ := hagrees ⟨hlt, hlt'⟩
  refine ⟨hholds.map_replacements fun p _ => ?_, ?_⟩
  · rw [p.handler_eq, p.kind_eq]
  · rw [← hholds.scopesOf_eq]
    cases hagree with
    | error hreport => exact .error hreport.eq
    | ok hexpanded =>
      obtain ⟨changed, hvalue⟩ := hexpanded
      exact .ok ⟨rfl, hvalue.render_eq fun _ _ => Renamed.render_eq, hvalue⟩

/-- A macro that stands for a name of its own. -/
def freshName : RuleSet where
  name := "fresh"
  kind := "name"
  rules := [⟨.node "name" [] none, .template (.leaf (.ident "t") none)⟩]
  nonempty := List.cons_ne_nil _ _
  checked := by rfl

theorem expand_renames_scopes_twice :
    let r := Registry.empty.register "name" freshName.handler
    let r' := r.register "name" (.declining "idle")
    let tree : Tree := .node "both" [.node "name" [] none, .node "name" [] none] none
    ∃ s out s', expand ⟨r, 1⟩ tree (.initial "Main" 0 true) =
        some (.ok ⟨.node "both" [.leaf (.ident "t._@.Main._hyg.1") none,
          .leaf (.ident "t._@.Main._hyg.2") none] none, true⟩, s) ∧
      expand ⟨r', 1⟩ tree (.initial "Main" 5 true) = some (.ok ⟨out, true⟩, s') ∧
      out.render true = "(both t✝ t✝)" ∧
      Tree.Alike ⟨Renamed [(1, 7), (2, 9)], Eq⟩
        (.node "both" [.leaf (.ident "t._@.Main._hyg.1") none,
          .leaf (.ident "t._@.Main._hyg.2") none] none) out := by
  intro r r' tree
  have hpadded : r.Padded r' :=
    .pad "name" (fun _ _ => rfl) (.rules "name" freshName (.empty _ _))
  obtain ⟨s, hexpand, hallocated, hscopes⟩ : ∃ s,
      expand ⟨r, 1⟩ tree (.initial "Main" 0 true) =
        some (.ok ⟨.node "both" [.leaf (.ident "t._@.Main._hyg.1") none,
          .leaf (.ident "t._@.Main._hyg.2") none] none, true⟩, s) ∧
      s.context.allocated = 2 ∧ s.replacements.map (·.scope) = [1, 2] :=
    ⟨_, by cbv, by cbv, by cbv⟩
  obtain ⟨run', hexpand', hallocated', hscopes'⟩ : ∃ run',
      expand ⟨r', 1⟩ tree (.initial "Main" 5 true) = some run' ∧
      run'.2.context.allocated = 9 ∧ run'.2.replacements.map (·.scope) = [7, 9] :=
    ⟨_, by cbv, by cbv, by cbv⟩
  obtain ⟨first, second, hrun, hrun', hagrees⟩ :=
    expand_renames_scopes r r' hpadded 1 "Main" 0 5 tree (by decide)
  obtain rfl := Option.some.inj (hexpand.symm.trans hrun)
  obtain rfl := Option.some.inj (hexpand'.symm.trans hrun')
  have hagree := (hagrees (by rw [hallocated]; decide) (by rw [hallocated']; decide)).2
  rw [hscopes, hscopes'] at hagree
  obtain ⟨result, s'⟩ := run'
  cases hagree with
  | @ok _ expanded hvalue =>
    obtain ⟨out, changed⟩ := expanded
    obtain ⟨rfl, hrender, halike⟩ := hvalue
    refine ⟨s, out, s', hexpand, hrun', ?_, halike⟩
    rw [← hrender]
    cbv

end Expander

end MacroExpansion
