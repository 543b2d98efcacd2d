import MacroExpansion.Proofs.Name.Numeral

/-!
# The path of a written name

Between the separator and the marker stand groups, each of a module and its scopes, and then the
main module.  Cut at its dots, such a path is the components of the groups and of the main module
in order (`splitOn_path`).  `readPath` accepts exactly these lists of components
(`readPath_eq_ok_iff`): no component of a module can be taken for a scope, and so a scope after
a component ends a module, and a component after a scope begins the next one.
-/

namespace MacroExpansion

namespace ScopedName

/-! ## Modules -/

/-- A dotted list of components, none of which is empty, a scope or part of a delimiter. -/
def ValidModule (moduleName : String) : Prop :=
  moduleName ≠ "" ∧ ∀ component ∈ moduleName.toList.splitOn '.',
    component ≠ [] ∧ ¬ (∀ c ∈ component, c.isDigit = true) ∧
      component ≠ ['_', 'h', 'y', 'g'] ∧ component ≠ ['_', '@']

theorem isModuleComponent_iff (component : List Char) :
    isModuleComponent component = true ↔
      component ≠ [] ∧ ¬ (∀ c ∈ component, c.isDigit = true) ∧
        component ≠ ['_', 'h', 'y', 'g'] ∧ component ≠ ['_', '@'] := by
  rw [isModuleComponent, Bool.and_eq_true, Bool.and_eq_true, Bool.and_eq_true, bne_iff_ne,
    bne_iff_ne, Bool.not_eq_true', List.isEmpty_eq_false_iff, and_assoc, and_assoc]
  refine and_congr_right fun hne => and_congr_left' ?_
  rw [isScopeComponent, List.isEmpty_eq_false_iff.2 hne, Bool.not_false, Bool.true_and,
    Bool.not_eq_true', ← Bool.not_eq_true, List.all_eq_true]

theorem isScopeComponent_of_isModuleComponent {component : List Char}
    (h : isModuleComponent component = true) : isScopeComponent component = false := by
  rw [isModuleComponent, Bool.and_eq_true, Bool.and_eq_true, Bool.and_eq_true,
    Bool.not_eq_true'] at h
  exact Bool.not_eq_true' _ ▸ h.1.1.2

theorem checkModule_eq_ok_iff (moduleName : String) :
    checkModule moduleName = .ok () ↔ ValidModule moduleName := by
  rw [checkModule, ValidModule]
  split
  case isTrue h =>
    rw [String.isEmpty_iff] at h
    exact iff_of_false (by simp) fun hv => hv.1 h
  case isFalse h =>
    rw [String.isEmpty_iff] at h
    simp only [ne_eq, h, not_false_eq_true, true_and, ← isModuleComponent_iff]
    split
    case h_1 component hc =>
      have hmem := List.mem_of_find?_eq_some hc
      have hbad := List.find?_some hc
      refine iff_of_false (by simp) fun hv => ?_
      rw [hv component hmem] at hbad
      cases hbad
    case h_2 hnone =>
      rw [List.find?_eq_none] at hnone
      refine iff_of_true rfl fun component hc => ?_
      simpa using hnone component hc

instance (moduleName : String) : Decidable (ValidModule moduleName) :=
  decidable_of_iff (moduleName ≠ "" ∧
    (moduleName.toList.splitOn '.').all isModuleComponent = true) <| by
      simp only [ValidModule, List.all_eq_true, isModuleComponent_iff]

theorem ValidModule.isScopeComponent {moduleName : String} (h : ValidModule moduleName) :
    ∀ component ∈ moduleName.toList.splitOn '.', isScopeComponent component = false :=
  fun component hc =>
    isScopeComponent_of_isModuleComponent ((isModuleComponent_iff component).2 (h.2 component hc))

theorem dot_notMem_of_mem_splitOn {text component : List Char} (h : component ∈ text.splitOn '.') :
    '.' ∉ component := by
  induction text generalizing component with
  | nil =>
    rw [List.splitOn_nil, List.mem_singleton] at h
    rw [h]
    exact List.not_mem_nil
  | cons c cs ih =>
    rw [List.splitOn_cons_eq_if_modifyHead] at h
    split at h
    case isTrue =>
      rcases List.mem_cons.1 h with rfl | h
      · exact List.not_mem_nil
      · exact ih h
    case isFalse hc =>
      obtain ⟨first, rest, hsplit⟩ := List.exists_cons_of_ne_nil (List.splitOn_ne_nil '.' cs)
      rw [hsplit, List.modifyHead_cons] at h
      rw [hsplit] at ih
      rcases List.mem_cons.1 h with rfl | h
      · rw [List.mem_cons, not_or]
        exact ⟨fun e => hc (beq_iff_eq.2 e.symm), ih List.mem_cons_self⟩
      · exact ih (List.mem_cons_of_mem _ h)

end ScopedName

/-! ## Groups -/

/-- Numerals with dots between them. -/
def Numeral.join (ns : List Numeral) : List Char := ['.'].intercalate (ns.map Numeral.digits)

/-- A module and its scopes, as they are written in a path. -/
structure Group where
  moduleName : String
  valid : ScopedName.ValidModule moduleName
  numerals : List Numeral
  numerals_ne_nil : numerals ≠ []

namespace Group

def text (g : Group) : List Char :=
  g.moduleName.toList ++ '.' :: Numeral.join g.numerals ++ ['.']

/-- What a group is cut into at its dots. -/
def components (g : Group) : List (List Char) :=
  g.moduleName.toList.splitOn '.' ++ g.numerals.map Numeral.digits

/-- What a group denotes. -/
def segment (g : Group) : Segment := ⟨g.moduleName, g.numerals.map Numeral.scope⟩

end Group

theorem splitOn_join {ns : List Numeral} (h : ns ≠ []) :
    (Numeral.join ns).splitOn '.' = ns.map Numeral.digits := by
  refine List.splitOn_intercalate '.' ?_ (by simpa using h)
  intro digits hd
  obtain ⟨n, -, rfl⟩ := List.mem_map.1 hd
  exact n.dot_notMem_digits

theorem splitOn_path (groups : List Group) (rest : List Char) :
    (groups.flatMap Group.text ++ rest).splitOn '.' =
      groups.flatMap Group.components ++ rest.splitOn '.' := by
  induction groups with
  | nil => rfl
  | cons g gs ih =>
    have htext : (g :: gs).flatMap Group.text ++ rest =
        g.moduleName.toList ++ '.' :: (Numeral.join g.numerals ++
          '.' :: (gs.flatMap Group.text ++ rest)) := by
      simp [Group.text]
    rw [htext, List.splitOn_append_cons_self, List.splitOn_append_cons_self,
      splitOn_join g.numerals_ne_nil, ih, List.flatMap_cons, Group.components]
    simp only [List.append_assoc]

/-! ## Reading a path -/

namespace ScopedName

variable {name mainModule : String} {done imported : List Segment}
  {current parts rest : List (List Char)} {scopes : List Scope}

/-! What one component does. -/

theorem readPath_component {part : List Char} (h : isScopeComponent part = false) :
    readPath name (part :: parts) done current [] =
      readPath name parts done (current ++ [part]) [] := by
  simp [readPath, h]

theorem readPath_numeral (n : Numeral) (h : current ≠ []) :
    readPath name (n.digits :: parts) done current scopes =
      readPath name parts done current (scopes ++ [n.scope]) := by
  have hread : readScope name n.digits = .ok n.scope := readScope_eq_ok_iff.2 ⟨n, rfl, rfl⟩
  simp [readPath, n.isScopeComponent_digits, h, hread]

/-- A component after scopes closes the module before it, and reading goes on as at the start. -/
theorem readPath_close {part : List Char} (hpart : isScopeComponent part = false)
    (hmodule : ValidModule mainModule) (hscopes : scopes ≠ []) :
    readPath name (part :: parts) done (mainModule.toList.splitOn '.') scopes =
      readPath name (part :: parts) (done ++ [⟨mainModule, scopes⟩]) [] [] := by
  have hcheck := (checkModule_eq_ok_iff mainModule).2 hmodule
  rw [readPath_component hpart]
  simp [readPath, hpart, hscopes, hcheck]

theorem readPath_end (hmain : ValidModule mainModule) :
    readPath name [] done (mainModule.toList.splitOn '.') [] = .ok (done, mainModule) := by
  have hcheck := (checkModule_eq_ok_iff mainModule).2 hmain
  simp [readPath, hcheck]

/-! What a module and its scopes do. -/

theorem readPath_components (h : ∀ c ∈ parts, isScopeComponent c = false) :
    readPath name (parts ++ rest) done current [] =
      readPath name rest done (current ++ parts) [] := by
  induction parts generalizing current with
  | nil => rw [List.nil_append, List.append_nil]
  | cons part parts ih =>
    rw [List.cons_append, readPath_component (h part List.mem_cons_self),
      ih fun c hc => h c (List.mem_cons_of_mem _ hc), List.append_assoc, List.singleton_append]

theorem readPath_numerals (ns : List Numeral) (h : current ≠ []) :
    readPath name (ns.map Numeral.digits ++ rest) done current scopes =
      readPath name rest done current (scopes ++ ns.map Numeral.scope) := by
  induction ns generalizing scopes with
  | nil => rw [List.map_nil, List.map_nil, List.nil_append, List.append_nil]
  | cons n ns ih =>
    rw [List.map_cons, List.cons_append, readPath_numeral n h, ih, List.map_cons, List.append_assoc,
      List.singleton_append]

/-- The first component of a path belongs to a module. -/
theorem exists_cons_path (groups : List Group) (hmain : ValidModule mainModule) :
    ∃ part parts, isScopeComponent part = false ∧
      groups.flatMap Group.components ++ mainModule.toList.splitOn '.' = part :: parts := by
  have first : ∀ {m : String}, ValidModule m → ∀ rest, ∃ part parts,
      isScopeComponent part = false ∧ m.toList.splitOn '.' ++ rest = part :: parts := by
    intro m hm rest
    obtain ⟨part, parts, hsplit⟩ := List.exists_cons_of_ne_nil (List.splitOn_ne_nil '.' m.toList)
    exact ⟨part, parts ++ rest, hm.isScopeComponent part (hsplit ▸ List.mem_cons_self),
      by rw [hsplit, List.cons_append]⟩
  cases groups with
  | nil => simpa using first hmain []
  | cons g gs =>
    rw [List.flatMap_cons, Group.components, List.append_assoc, List.append_assoc]
    exact first g.valid _

/-- Reading the components of some groups and of a main module gives them back. -/
theorem readPath_path (groups : List Group) (hmain : ValidModule mainModule) :
    readPath name (groups.flatMap Group.components ++ mainModule.toList.splitOn '.') done [] [] =
      .ok (done ++ groups.map Group.segment, mainModule) := by
  induction groups generalizing done with
  | nil =>
    rw [List.flatMap_nil, List.nil_append, ← List.append_nil (mainModule.toList.splitOn '.'),
      readPath_components hmain.isScopeComponent, List.nil_append, readPath_end hmain,
      List.map_nil, List.append_nil]
  | cons g gs ih =>
    obtain ⟨part, parts, hpart, hrest⟩ := exists_cons_path gs hmain
    have hscopes : g.numerals.map Numeral.scope ≠ [] := by simpa using g.numerals_ne_nil
    rw [List.flatMap_cons, Group.components, List.append_assoc, List.append_assoc,
      readPath_components g.valid.isScopeComponent, List.nil_append,
      readPath_numerals _ (List.splitOn_ne_nil _ _), List.nil_append, hrest,
      readPath_close hpart g.valid hscopes, ← hrest, ih, List.append_assoc]
    rfl

theorem splitOn_ofList_intercalate {components : List (List Char)} (hne : components ≠ [])
    (h : ∀ c ∈ components, '.' ∉ c) :
    (String.ofList (['.'].intercalate components)).toList.splitOn '.' = components := by
  rw [String.toList_ofList, List.splitOn_intercalate '.' h hne]

/-- What has been read when `readPath` succeeds.  The induction keeps the numerals that the scopes
were read from, so that the module being read and its scopes are given back as one group. -/
theorem exists_groups_of_readPath (ns : List Numeral) (hcurrent : ∀ c ∈ current, '.' ∉ c)
    (hparts : ∀ c ∈ parts, '.' ∉ c) (howner : ns ≠ [] → current ≠ [])
    (h : readPath name parts done current (ns.map Numeral.scope) = .ok (imported, mainModule)) :
    ValidModule mainModule ∧ ∃ groups : List Group, imported = done ++ groups.map Group.segment ∧
      current ++ ns.map Numeral.digits ++ parts =
        groups.flatMap Group.components ++ mainModule.toList.splitOn '.' := by
  induction parts generalizing done current ns with
  | nil =>
    rw [readPath] at h
    split at h
    case isTrue => cases h
    case isFalse hend =>
      rw [Bool.or_eq_true, not_or, Bool.not_eq_true', Bool.not_eq_false, List.isEmpty_iff,
        List.map_eq_nil_iff, List.isEmpty_iff] at hend
      obtain ⟨rfl, hne⟩ := hend
      dsimp only at h
      split at h
      case h_1 => cases h
      case h_2 hcheck =>
        obtain ⟨rfl, rfl⟩ := Prod.mk.inj (Except.ok.inj h)
        refine ⟨(checkModule_eq_ok_iff _).1 hcheck, [], (List.append_nil _).symm, ?_⟩
        rw [splitOn_ofList_intercalate hne hcurrent]
        simp
  | cons part parts ih =>
    obtain ⟨hpart, hrest⟩ := List.forall_mem_cons.1 hparts
    rw [readPath] at h
    split at h
    case isTrue hscope =>
      split at h
      case isTrue => cases h
      case isFalse hne =>
        split at h
        case h_1 => cases h
        case h_2 scope hread =>
          obtain ⟨n, rfl, rfl⟩ := readScope_eq_ok_iff.1 hread
          have hns : (ns ++ [n]).map Numeral.scope = ns.map Numeral.scope ++ [n.scope] := by simp
          rw [← hns] at h
          obtain ⟨hmain, groups, himp, heq⟩ :=
            ih (ns ++ [n]) hcurrent hrest (fun _ => by simpa using hne) h
          refine ⟨hmain, groups, himp, ?_⟩
          rw [← heq]
          simp
    case isFalse hscope =>
      split at h
      case isTrue hns =>
        rw [List.isEmpty_iff, List.map_eq_nil_iff] at hns
        subst hns
        have hcurrent' : ∀ c ∈ current ++ [part], '.' ∉ c :=
          List.forall_mem_append.2 ⟨hcurrent, List.forall_mem_singleton.2 hpart⟩
        obtain ⟨hmain, groups, himp, heq⟩ := ih [] hcurrent' hrest (by simp) h
        refine ⟨hmain, groups, himp, ?_⟩
        rw [← heq]
        simp
      case isFalse hns =>
        rw [List.isEmpty_iff, List.map_eq_nil_iff] at hns
        dsimp only at h
        split at h
        case h_1 => cases h
        case h_2 hcheck =>
          obtain ⟨hmain, groups, himp, heq⟩ :=
            ih [] (List.forall_mem_singleton.2 hpart) hrest (by simp) h
          have hsplit := splitOn_ofList_intercalate (howner hns) hcurrent
          refine ⟨hmain, ⟨_, (checkModule_eq_ok_iff _).1 hcheck, ns, hns⟩ :: groups, ?_, ?_⟩
          · rw [himp, List.append_assoc]
            rfl
          · rw [List.flatMap_cons, Group.components, hsplit,
              List.append_assoc _ _ (mainModule.toList.splitOn '.'), ← heq]
            simp

theorem readPath_eq_ok_iff (hdot : ∀ c ∈ parts, '.' ∉ c) :
    readPath name parts [] [] [] = .ok (imported, mainModule) ↔
      ValidModule mainModule ∧ ∃ groups : List Group, imported = groups.map Group.segment ∧
        parts = groups.flatMap Group.components ++ mainModule.toList.splitOn '.' := by
  constructor
  · intro h
    exact exists_groups_of_readPath [] (List.forall_mem_nil _) hdot (absurd rfl) h
  · rintro ⟨hmain, groups, rfl, rfl⟩
    exact readPath_path groups hmain

end ScopedName

end MacroExpansion
