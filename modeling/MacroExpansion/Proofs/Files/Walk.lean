import MacroExpansion.Files.Basic
import MacroExpansion.Proofs.Association

/-!
# Walking a tree of files

The nodes of a file system are listed in the order in which a walk comes across them.  If each place
is listed once, the order does not matter: the same texts are read (`SameFiles.readText_eq`), and
the same rule files are found in the same order (`SameFiles.ruleFiles_eq`).  Which files these are
is said without a walk by `RuleFiles`, and `ruleFiles_eq_ok_iff` shows that these are the ones
found.
-/

namespace MacroExpansion.FileTree

variable {files files' : FileTree}

/-- Each place of the file system is listed once. -/
def Proper (files : FileTree) : Prop := (files.nodes.map Prod.fst).Nodup

/-! ## Building -/

theorem Proper.add (h : files.Proper) (names : List String) (node : FileNode) :
    (files.add names node).Proper := by
  rw [FileTree.add]
  split
  case h_1 => exact h
  case h_2 hnone =>
    have hnew : names ∉ files.nodes.map Prod.fst := by
      cases names with
      | nil => cases hnone
      | cons name names =>
        intro hmem
        obtain ⟨entry, hentry, heq⟩ := List.mem_map.1 hmem
        have hlookup := List.lookup_eq_none_iff.1 hnone entry hentry
        simp [heq] at hlookup
    simp only [Proper, List.map_append, List.map_cons, List.map_nil]
    exact List.nodup_append.2 ⟨h, List.nodup_singleton _, by
      intro a ha b hb
      rw [List.mem_singleton.1 hb]
      rintro rfl
      exact hnew ha⟩

theorem Proper.addParents (h : files.Proper) (reached names : List String) :
    (files.addParents reached names).Proper := by
  fun_induction FileTree.addParents files reached names with
  | case1 => exact h
  | case2 => exact h
  | case3 files reached name names _ ih => exact ih (h.add _ _)

theorem Proper.insert (h : files.Proper) (names : List String) (node : FileNode) :
    (files.insert names node).Proper :=
  (h.addParents [] names).add names node

/-- A file system that is built from paths lists each place once. -/
theorem proper_ofList (workingDirectory : List String) (entries : List (String × FileNode)) :
    (ofList workingDirectory entries).Proper := by
  have hnone : Proper ⟨[], workingDirectory⟩ := List.nodup_nil
  rw [ofList]
  refine List.foldlRecOn entries _ (hnone.insert workingDirectory .directory) ?_
  rintro files h ⟨path, node⟩ -
  exact h.insert _ node

/-! ## Reading -/

/-- A file that holds the bytes of a text is read as that text. -/
theorem readText_of_find {path text : String} {names : List String}
    (hfind : files.find path = .ok (names, .file text.toUTF8)) :
    files.readText path = .ok text := by
  have hutf8 : String.fromUTF8? text.toUTF8 = some text := dif_pos text.isValidUTF8
  rw [readText, hfind]
  dsimp only
  rw [hutf8]

/-! ## The order of paths -/

/-- Paths are ordered name by name, as lists are. -/
theorem precedes_iff {as bs : List String} :
    precedes as bs = true ↔ ¬ List.Lex (· < ·) bs as := by
  induction as generalizing bs with
  | nil => simp [precedes]
  | cons a as ih =>
    cases bs with
    | nil => simp [precedes]
    | cons b bs =>
      rw [precedes, Bool.or_eq_true, decide_eq_true_iff, Bool.and_eq_true, beq_iff_eq, ih,
        List.cons_lex_cons_iff]
      rcases Std.lt_trichotomy a b with hlt | rfl | hlt
      · simp [hlt, String.lt_asymm hlt, (Std.ne_of_lt hlt).symm]
      · simp
      · simp [hlt, String.lt_asymm hlt, (Std.ne_of_lt hlt).symm]

theorem precedes_total (as bs : List String) : (precedes as bs || precedes bs as) = true := by
  rw [Bool.or_eq_true, precedes_iff, precedes_iff]
  exact List.le_total as bs

theorem precedes_trans (as bs cs : List String) (h : precedes as bs = true)
    (h' : precedes bs cs = true) : precedes as cs = true :=
  precedes_iff.2 (List.le_trans (precedes_iff.1 h) (precedes_iff.1 h'))

theorem precedes_antisymm {as bs : List String} (h : precedes as bs = true)
    (h' : precedes bs as = true) : as = bs :=
  List.le_antisymm (precedes_iff.1 h) (precedes_iff.1 h')

/-- Sorted paths do not depend on the order in which they were found. -/
theorem mergeSort_of_perm {paths paths' : List (List String)} (h : paths.Perm paths') :
    paths.mergeSort precedes = paths'.mergeSort precedes := by
  have hperm : (paths.mergeSort precedes).Perm (paths'.mergeSort precedes) :=
    (List.mergeSort_perm _ _).trans (h.trans (List.mergeSort_perm _ _).symm)
  exact hperm.eq_of_pairwise (fun _ _ _ _ => precedes_antisymm)
    (List.pairwise_mergeSort precedes_trans precedes_total _)
    (List.pairwise_mergeSort precedes_trans precedes_total _)

/-! ## The files that are found -/

/-- The names that lead from a directory to an entry, if it is a JSON file below. -/
def jsonFile? (directory : List String) : List String × FileNode → Option (List String)
  | (names, node) =>
    match node, directory.isPrefixOf? names with
    | .file _, some below =>
      match below.getLast? with
      | some name => if isJsonName name then some below else none
      | none => none
    | _, _ => none

theorem jsonFiles_eq (files : FileTree) (directory : List String) :
    files.jsonFiles directory = files.nodes.filterMap (jsonFile? directory) := rfl

theorem jsonFile?_eq_some_iff {directory below : List String} {entry : List String × FileNode} :
    jsonFile? directory entry = some below ↔ entry.1 = directory ++ below ∧
      (∃ bytes, entry.2 = .file bytes) ∧ ∃ name ∈ below.getLast?, isJsonName name = true := by
  obtain ⟨names, node⟩ := entry
  unfold jsonFile?
  dsimp only
  constructor
  · intro h
    split at h
    case h_1 bytes below' hbelow =>
      rw [List.isPrefixOf?_eq_some_iff_append_eq] at hbelow
      split at h
      case h_1 name hname =>
        split at h
        case isTrue hjson =>
          obtain rfl := Option.some.inj h
          exact ⟨hbelow.symm, ⟨bytes, rfl⟩, name, hname, hjson⟩
        case isFalse => cases h
      case h_2 => cases h
    case h_2 => cases h
  · rintro ⟨rfl, ⟨bytes, rfl⟩, name, hname, hjson⟩
    rw [List.isPrefixOf?_eq_some_iff_append_eq.2 rfl]
    dsimp only
    rw [Option.mem_def.1 hname]
    exact if_pos hjson

/-- A JSON file below a directory, as the names that lead to it from there. -/
def IsRuleFile (files : FileTree) (directory below : List String) : Prop :=
  (∃ bytes, (directory ++ below, FileNode.file bytes) ∈ files.nodes) ∧
    ∃ name ∈ below.getLast?, isJsonName name = true

theorem mem_jsonFiles_iff {directory below : List String} :
    below ∈ files.jsonFiles directory ↔ files.IsRuleFile directory below := by
  rw [jsonFiles_eq, List.mem_filterMap]
  constructor
  · rintro ⟨⟨names, node⟩, hmem, hfile⟩
    obtain ⟨rfl, ⟨bytes, rfl⟩, hname⟩ := jsonFile?_eq_some_iff.1 hfile
    exact ⟨⟨bytes, hmem⟩, hname⟩
  · rintro ⟨⟨bytes, hmem⟩, hname⟩
    exact ⟨_, hmem, jsonFile?_eq_some_iff.2 ⟨rfl, ⟨bytes, rfl⟩, hname⟩⟩

theorem Proper.nodup_jsonFiles (h : files.Proper) (directory : List String) :
    (files.jsonFiles directory).Nodup := by
  rw [jsonFiles_eq]
  refine List.Pairwise.filterMap _ ?_ (List.pairwise_map.1 h)
  rintro entry entry' hne below hbelow _ hbelow' rfl
  exact hne ((jsonFile?_eq_some_iff.1 hbelow).1.trans (jsonFile?_eq_some_iff.1 hbelow').1.symm)

/-- The rule files that a path stands for: a file itself, or the JSON files below a directory, in
increasing order of the names that lead to them. -/
inductive RuleFiles (files : FileTree) (root : String) : List String → Prop
  | file {names : List String} {bytes : ByteArray} :
      files.find root = .ok (names, .file bytes) → RuleFiles files root [root]
  | directory {names : List String} {found : List (List String)} :
      files.find root = .ok (names, .directory) → found.Pairwise (List.Lex (· < ·)) →
      (∀ below, below ∈ found ↔ files.IsRuleFile names below) →
      RuleFiles files root (found.map (joinPath root))

/-- Paths in increasing order are those that sorting puts out. -/
theorem mergeSort_eq_iff {paths found : List (List String)} (h : paths.Nodup) :
    paths.mergeSort precedes = found ↔
      found.Pairwise (List.Lex (· < ·)) ∧ ∀ below, below ∈ found ↔ below ∈ paths := by
  constructor
  · rintro rfl
    refine ⟨?_, fun below => List.mem_mergeSort⟩
    have hsorted := List.pairwise_mergeSort precedes_trans precedes_total paths
    have hnodup : (paths.mergeSort precedes).Nodup := (List.mergeSort_perm _ _).nodup_iff.2 h
    -- In order and without repetition is in strict order.
    exact hsorted.imp₂ (fun _ _ hle hne =>
      List.not_le.1 fun hge => hne (List.le_antisymm (precedes_iff.1 hle) hge)) hnodup
  · rintro ⟨hsorted, hmem⟩
    have hle : found.Pairwise fun as bs => precedes as bs = true :=
      hsorted.imp fun hlt => precedes_iff.2 (List.lt_asymm hlt)
    have hnodup : found.Nodup := by
      refine hsorted.imp ?_
      rintro as _ hlt rfl
      exact List.lt_irrefl _ hlt
    have hperm : (paths.mergeSort precedes).Perm found :=
      (List.mergeSort_perm _ _).trans ((List.perm_ext_iff_of_nodup h hnodup).2 fun below =>
        (hmem below).symm)
    exact hperm.eq_of_pairwise (fun _ _ _ _ => precedes_antisymm)
      (List.pairwise_mergeSort precedes_trans precedes_total _) hle

/-- What is found is what a path stands for. -/
theorem ruleFiles_eq_ok_iff (h : files.Proper) {root : String} {paths : List String} :
    files.ruleFiles root = .ok paths ↔ files.RuleFiles root paths := by
  rw [ruleFiles]
  constructor
  · intro hrun
    split at hrun
    case h_1 => cases hrun
    case h_2 names bytes hfind =>
      cases hrun
      exact .file hfind
    case h_3 names hfind =>
      cases hrun
      obtain ⟨hsorted, hmem⟩ := (mergeSort_eq_iff (h.nodup_jsonFiles names)).1 rfl
      exact .directory hfind hsorted fun below => (hmem below).trans mem_jsonFiles_iff
  · intro hfiles
    cases hfiles with
    | file hfind => rw [hfind]
    | @directory names found hfind hsorted hmem =>
      have hfound : (files.jsonFiles names).mergeSort precedes = found :=
        (mergeSort_eq_iff (h.nodup_jsonFiles names)).2
          ⟨hsorted, fun below => (hmem below).trans mem_jsonFiles_iff.symm⟩
      rw [hfind]
      dsimp only
      rw [hfound]

/-! ## The order of a walk -/

/-- Two lists of the same file system, in the orders of two walks. -/
structure SameFiles (files files' : FileTree) : Prop where
  nodes : files.nodes.Perm files'.nodes
  workingDirectory : files.workingDirectory = files'.workingDirectory

namespace SameFiles

theorem node?_eq (hsame : files.SameFiles files') (h : files.Proper) :
    files'.node? = files.node? := by
  funext names
  cases names with
  | nil => rfl
  | cons name names => exact (Association.lookup_of_perm h hsame.nodes _).symm

/-- Following a path looks at the nodes only. -/
theorem find_eq (hsame : files.SameFiles files') (h : files.Proper) : files'.find = files.find := by
  have hnode := hsame.node?_eq h
  have hfollow : ∀ here names, files'.follow here names = files.follow here names := by
    intro here names
    induction names generalizing here with
    | nil => rfl
    | cons name names ih => rw [follow, follow, hnode, ih, ih, ih]
  funext path
  rw [find, find, resolve, resolve, hnode, hfollow, hfollow, hsame.workingDirectory]

theorem readText_eq (hsame : files.SameFiles files') (h : files.Proper) :
    files'.readText = files.readText := by
  funext path
  rw [readText, readText, hsame.find_eq h]

theorem ruleFiles_eq (hsame : files.SameFiles files') (h : files.Proper) :
    files'.ruleFiles = files.ruleFiles := by
  have hsort (directory : List String) : (files'.jsonFiles directory).mergeSort precedes =
      (files.jsonFiles directory).mergeSort precedes := by
    rw [jsonFiles_eq, jsonFiles_eq]
    exact mergeSort_of_perm (hsame.nodes.filterMap _).symm
  funext root
  rw [ruleFiles, ruleFiles, hsame.find_eq h]
  simp only [hsort]

end SameFiles

end MacroExpansion.FileTree
