import Mathlib.Data.List.Forall2
import MacroExpansion.Load
import MacroExpansion.Proofs.Files.Walk
import MacroExpansion.Proofs.Registry.Views
import MacroExpansion.Proofs.Result

/-!
# Loading rules

What paths stand for is a list of macros: `Holds` says which ones a file holds, and `Finds` puts
those of all files under all paths in order.  Loading succeeds exactly if there is such a list and
no name occurs twice in it, within a file or across files (`loadRules_eq_ok_iff`), and it yields
that list.  A session takes up the whole list or nothing (`Session.load_atomic`).
-/

namespace MacroExpansion

/-! ## Names -/

/-- No two macros have the same name. -/
def RuleSet.Distinct (sets : List RuleSet) : Prop := (sets.map RuleSet.name).Nodup

theorem RuleSet.distinct_nil : Distinct [] := List.nodup_nil

theorem RuleSet.distinct_append_iff {sets rest : List RuleSet} :
    Distinct (sets ++ rest) ↔ Distinct sets ∧ Distinct rest ∧
      ∀ set ∈ rest, set.name ∉ sets.map RuleSet.name := by
  rw [Distinct, List.map_append, List.nodup_append]
  refine and_congr_right fun _ => and_congr_right fun _ => ?_
  constructor
  · intro h set hset hmem
    exact h _ hmem _ (List.mem_map_of_mem hset) rfl
  · rintro h name hname _ hrest rfl
    obtain ⟨set, hset, rfl⟩ := List.mem_map.1 hrest
    exact h set hset hname

/-- Names are distinct, and not among those seen before, if the first is such and the others are
once it has been seen. -/
theorem RuleSet.distinct_cons_fresh_iff {seen : List String} {set : RuleSet}
    {rest : List RuleSet} :
    (Distinct (set :: rest) ∧ ∀ other ∈ set :: rest, other.name ∉ seen) ↔
      set.name ∉ seen ∧ Distinct rest ∧ ∀ other ∈ rest, other.name ∉ set.name :: seen := by
  rw [List.forall_mem_cons]
  simp only [Distinct, List.map_cons, List.nodup_cons, List.mem_map, List.mem_cons, not_or,
    not_exists, not_and]
  constructor
  · rintro ⟨⟨hfirst, hrest⟩, hset, hseen⟩
    exact ⟨hset, hrest, fun other hother => ⟨hfirst other hother, hseen other hother⟩⟩
  · rintro ⟨hset, hrest, hboth⟩
    exact ⟨⟨fun other hother => (hboth other hother).1, hrest⟩, hset,
      fun other hother => (hboth other hother).2⟩

theorem RuleSet.name_eq_of_ofRules {name kind : String} {rules : List Rule} {set : RuleSet}
    (h : ofRules name kind rules = .ok set) : set.name = name := by
  rw [ofRules] at h
  split at h
  case isTrue => cases h
  case isFalse =>
    split at h
    case h_1 => cases h
    case h_2 =>
      cases h
      rfl

namespace Load

variable {files files' : FileTree}

/-! ## Files -/

/-- The rules of a definition pass the check, and make up a macro. -/
def Checks (definition : Definition) (set : RuleSet) : Prop :=
  RuleSet.ofRules definition.name definition.kind definition.rules = .ok set

/-- A file holds macros: its text is read as definitions which make up those macros, in order. -/
def Holds (files : FileTree) (path : String) (sets : List RuleSet) : Prop :=
  ∃ text definitions, files.readText path = .ok text ∧
    Json.decode Definition.fileReader text = .ok definitions ∧
    List.Forall₂ Checks definitions sets

/-- The first definition is checked with the names before it, and its own name is one of those for
the others. -/
theorem checkAll_cons_eq_ok_iff {origin source : String} {seen : List String}
    {definition : Definition} {definitions : List Definition} {sets : List RuleSet} :
    Definition.checkAll origin source seen (definition :: definitions) = .ok sets ↔
      ∃ set rest, Checks definition set ∧ set.name ∉ seen ∧
        Definition.checkAll origin source (set.name :: seen) definitions = .ok rest ∧
        set :: rest = sets := by
  obtain ⟨name, kind, rules⟩ := definition
  rw [Definition.checkAll]
  constructor
  · intro h
    split at h
    case isTrue => cases h
    case isFalse hseen =>
      split at h
      case h_1 => cases h
      case h_2 set hset =>
        obtain rfl := RuleSet.name_eq_of_ofRules hset
        split at h
        case h_1 => cases h
        case h_2 rest hrest =>
          exact ⟨set, rest, hset, by simpa using hseen, hrest, Except.ok.inj h⟩
  · rintro ⟨set, rest, hset, hseen, hrest, rfl⟩
    obtain rfl := RuleSet.name_eq_of_ofRules hset
    replace hset : RuleSet.ofRules set.name kind rules = .ok set := hset
    rw [if_neg (by simpa using hseen), hset]
    dsimp only
    rw [hrest]

/-- The definitions of a file pass if their rules do and their names differ, also from those
before. -/
theorem checkAll_eq_ok_iff {origin source : String} {seen : List String}
    {definitions : List Definition} {sets : List RuleSet} :
    Definition.checkAll origin source seen definitions = .ok sets ↔
      List.Forall₂ Checks definitions sets ∧ RuleSet.Distinct sets ∧
        ∀ set ∈ sets, set.name ∉ seen := by
  induction definitions generalizing seen sets with
  | nil =>
    rw [Definition.checkAll, List.forall₂_nil_left_iff, Except.ok.injEq, eq_comm]
    refine (and_iff_left_of_imp ?_).symm
    rintro rfl
    exact ⟨RuleSet.distinct_nil, fun _ h => absurd h List.not_mem_nil⟩
  | cons definition definitions ih =>
    rw [checkAll_cons_eq_ok_iff, List.forall₂_cons_left_iff]
    constructor
    · rintro ⟨set, rest, hset, hseen, hrest, rfl⟩
      obtain ⟨hchecks, hfresh⟩ := ih.1 hrest
      exact ⟨⟨set, rest, hset, hchecks, rfl⟩,
        RuleSet.distinct_cons_fresh_iff.2 ⟨hseen, hfresh⟩⟩
    · rintro ⟨⟨set, rest, hset, hchecks, rfl⟩, hfresh⟩
      obtain ⟨hseen, hfresh⟩ := RuleSet.distinct_cons_fresh_iff.1 hfresh
      exact ⟨set, rest, hset, hseen, ih.2 ⟨hchecks, hfresh⟩, rfl⟩

theorem rulesOfFile_eq_ok_iff {path : String} {sets : List RuleSet} :
    rulesOfFile files path = .ok sets ↔ Holds files path sets ∧ RuleSet.Distinct sets := by
  rw [rulesOfFile, bind_eq_ok_iff]
  constructor
  · rintro ⟨text, htext, hparse⟩
    rw [readSource] at htext
    split at htext
    case h_1 => cases htext
    case h_2 text' hread =>
      cases htext
      rw [parseRules] at hparse
      split at hparse
      case h_1 => cases hparse
      case h_2 definitions hdecode =>
        obtain ⟨hchecks, hdistinct, -⟩ := checkAll_eq_ok_iff.1 hparse
        exact ⟨⟨text, definitions, hread, hdecode, hchecks⟩, hdistinct⟩
  · rintro ⟨⟨text, definitions, hread, hdecode, hchecks⟩, hdistinct⟩
    refine ⟨text, ?_, ?_⟩
    · rw [readSource, hread]
    · rw [parseRules, hdecode]
      exact checkAll_eq_ok_iff.2 ⟨hchecks, hdistinct, fun _ _ => List.not_mem_nil⟩

theorem checkNames_eq_ok_iff {seen : List String} {path : String} {sets : List RuleSet} :
    checkNames seen path sets = .ok () ↔ ∀ set ∈ sets, set.name ∉ seen := by
  induction sets with
  | nil => exact iff_of_true rfl fun _ h => absurd h List.not_mem_nil
  | cons set sets ih =>
    rw [checkNames, List.forall_mem_cons]
    split
    case isTrue hseen =>
      exact iff_of_false nofun fun h => h.1 (by simpa using hseen)
    case isFalse hseen => rw [ih, and_iff_right (by simpa using hseen)]

/-! ## Adding macros -/

/-- The macros that items hold, those of each item in its place. -/
inductive Gathers (holds : String → List RuleSet → Prop) : List String → List RuleSet → Prop
  | nil : Gathers holds [] []
  | cons {item : String} {items : List String} {sets rest : List RuleSet} :
      holds item sets → Gathers holds items rest → Gathers holds (item :: items) (sets ++ rest)

/-- Adding an item adds the macros that it holds, and refuses a name that is taken. -/
def Adds (add : List RuleSet → String → Except Report (List RuleSet))
    (holds : String → List RuleSet → Prop) : Prop :=
  ∀ loaded item all, RuleSet.Distinct loaded → (add loaded item = .ok all ↔
    ∃ sets, holds item sets ∧ all = loaded ++ sets ∧ RuleSet.Distinct all)

/-- Adding items one after the other adds the macros that they hold together. -/
theorem Adds.foldlM {add : List RuleSet → String → Except Report (List RuleSet)}
    {holds : String → List RuleSet → Prop} (hadd : Adds add holds) {items : List String}
    {loaded all : List RuleSet} (hloaded : RuleSet.Distinct loaded) :
    items.foldlM add loaded = .ok all ↔
      ∃ sets, Gathers holds items sets ∧ all = loaded ++ sets ∧ RuleSet.Distinct all := by
  induction items generalizing loaded with
  | nil =>
    rw [List.foldlM_nil]
    constructor
    · intro h
      cases h
      exact ⟨[], .nil, (List.append_nil _).symm, hloaded⟩
    · rintro ⟨_, ⟨⟩, rfl, -⟩
      rw [List.append_nil]
      rfl
  | cons item items ih =>
    rw [List.foldlM_cons, bind_eq_ok_iff]
    constructor
    · rintro ⟨loaded', hitem, hitems⟩
      obtain ⟨sets, hsets, rfl, hdistinct⟩ := (hadd _ _ _ hloaded).1 hitem
      obtain ⟨rest, hrest, rfl, hall⟩ := (ih hdistinct).1 hitems
      exact ⟨sets ++ rest, .cons hsets hrest, List.append_assoc _ _ _, hall⟩
    · rintro ⟨all', hgathers, rfl, hall⟩
      cases hgathers with
      | @cons _ _ sets rest hsets hrest =>
        have hassoc : loaded ++ (sets ++ rest) = (loaded ++ sets) ++ rest :=
          (List.append_assoc _ _ _).symm
        -- Names that are distinct in the end have been so after the first item.
        have hdistinct : RuleSet.Distinct (loaded ++ sets) :=
          (RuleSet.distinct_append_iff.1 (hassoc ▸ hall)).1
        exact ⟨loaded ++ sets, (hadd _ _ _ hloaded).2 ⟨sets, hsets, rfl, hdistinct⟩,
          (ih hdistinct).2 ⟨rest, hrest, hassoc, hall⟩⟩

/-- Adds the macros of a file. -/
def addFile (files : FileTree) (loaded : List RuleSet) (path : String) :
    Except Report (List RuleSet) := do
  let sets ← rulesOfFile files path
  checkNames (loaded.map (·.name)) path sets
  return loaded ++ sets

/-- Adds the macros under a path. -/
def addRoot (files : FileTree) (loaded : List RuleSet) (root : String) :
    Except Report (List RuleSet) := do
  let paths ← discover files root
  loadFiles files loaded paths

theorem loadFiles_eq (files : FileTree) (loaded : List RuleSet) (paths : List String) :
    loadFiles files loaded paths = paths.foldlM (addFile files) loaded := by
  induction paths generalizing loaded with
  | nil => rfl
  | cons path paths ih =>
    rw [loadFiles, List.foldlM_cons, addFile]
    simp only [ih, bind_assoc, pure_bind]

theorem loadPaths_eq (files : FileTree) (loaded : List RuleSet) (roots : List String) :
    loadPaths files loaded roots = roots.foldlM (addRoot files) loaded := by
  induction roots generalizing loaded with
  | nil => rfl
  | cons root roots ih =>
    rw [loadPaths, List.foldlM_cons, addRoot]
    simp only [ih, bind_assoc]

theorem adds_addFile (files : FileTree) : Adds (addFile files) (Holds files) := by
  intro loaded path all hloaded
  rw [addFile, bind_eq_ok_iff]
  refine exists_congr fun sets => ?_
  rw [rulesOfFile_eq_ok_iff, bind_eq_ok_iff]
  constructor
  · rintro ⟨⟨hholds, hdistinct⟩, ⟨⟩, hnames, hall⟩
    cases hall
    exact ⟨hholds, rfl, RuleSet.distinct_append_iff.2
      ⟨hloaded, hdistinct, checkNames_eq_ok_iff.1 hnames⟩⟩
  · rintro ⟨hholds, rfl, hall⟩
    obtain ⟨-, hdistinct, hnames⟩ := RuleSet.distinct_append_iff.1 hall
    exact ⟨⟨hholds, hdistinct⟩, (), checkNames_eq_ok_iff.2 hnames, rfl⟩

/-- The macros under a path: those of its rule files, in order. -/
def Under (files : FileTree) (root : String) (sets : List RuleSet) : Prop :=
  ∃ paths, files.RuleFiles root paths ∧ Gathers (Holds files) paths sets

theorem discover_eq_ok_iff {root : String} {paths : List String} :
    discover files root = .ok paths ↔ files.ruleFiles root = .ok paths := by
  rw [discover]
  split
  case h_1 fault hfault =>
    rw [hfault]
    exact iff_of_false nofun nofun
  case h_2 found hfound => rw [hfound, Except.ok.injEq, Except.ok.injEq]

theorem adds_addRoot (h : files.Proper) : Adds (addRoot files) (Under files) := by
  intro loaded root all hloaded
  rw [addRoot, bind_eq_ok_iff]
  simp only [discover_eq_ok_iff, FileTree.ruleFiles_eq_ok_iff h, loadFiles_eq,
    (adds_addFile files).foldlM hloaded, Under]
  constructor
  · rintro ⟨paths, hpaths, sets, hsets, hall⟩
    exact ⟨sets, ⟨paths, hpaths, hsets⟩, hall⟩
  · rintro ⟨sets, ⟨paths, hpaths, hsets⟩, hall⟩
    exact ⟨paths, hpaths, sets, hsets, hall⟩

/-- The macros under paths, in the order of loading. -/
def Finds (files : FileTree) (roots : List String) (sets : List RuleSet) : Prop :=
  Gathers (Under files) roots sets

/-- Loading yields the macros under the paths, unless two of them have the same name. -/
theorem loadRules_eq_ok_iff (h : files.Proper) {roots : List String} {sets : List RuleSet} :
    loadRules files roots = .ok sets ↔ Finds files roots sets ∧ RuleSet.Distinct sets := by
  rw [loadRules, loadPaths_eq, (adds_addRoot h).foldlM RuleSet.distinct_nil]
  constructor
  · rintro ⟨found, hfound, rfl, hdistinct⟩
    exact ⟨hfound, hdistinct⟩
  · rintro ⟨hfound, hdistinct⟩
    exact ⟨sets, hfound, rfl, hdistinct⟩

/-! ## The order of a walk -/

/-- Loading looks at texts and at the rule files that are found, and so it does not depend on the
order in which a walk comes across them. -/
theorem loadRules_of_sameFiles (h : files.Proper) (hsame : files.SameFiles files') :
    loadRules files' = loadRules files := by
  have hfile : rulesOfFile files' = rulesOfFile files := by
    funext path
    rw [rulesOfFile, rulesOfFile, readSource, readSource, hsame.readText_eq h]
  have hadd : addFile files' = addFile files := by
    funext loaded path
    rw [addFile, addFile, hfile]
  have hroot : addRoot files' = addRoot files := by
    funext loaded root
    rw [addRoot, addRoot, discover, discover, hsame.ruleFiles_eq h]
    simp only [loadFiles_eq, hadd]
  funext roots
  rw [loadRules, loadRules, loadPaths_eq, loadPaths_eq, hroot]

end Load

/-! ## Sessions -/

namespace Session

/-- Loading as an operation on a session, which goes on with the session as it is then, also when
loading fails. -/
def load (files : FileTree) (roots : List String) : ExceptT Report (StateM Session) Nat := do
  let sets ← ExceptT.mk (pure (Load.loadRules files roots))
  modify (·.registerAll sets)
  return sets.length

theorem run_load (files : FileTree) (roots : List String) (s : Session) :
    (load files roots).run s =
      match s.loadRules files roots with
      | .error report => (.error report, s)
      | .ok (s', count) => (.ok count, s') := by
  rw [loadRules]
  cases hrun : Load.loadRules files roots with
  | error report =>
    rw [load, hrun]
    rfl
  | ok sets =>
    rw [load, hrun]
    rfl

/-- The registrations that a list of macros stands for. -/
def registrations (sets : List RuleSet) : List Registration :=
  sets.map fun set => ⟨set.kind, set.handler, false⟩

theorem registerAll_eq (s : Session) (sets : List RuleSet) :
    s.registerAll sets = { s with registry := s.registry.registers (registrations sets) } := by
  induction sets generalizing s with
  | nil => rfl
  | cons set sets ih => exact ih (s.register set.kind set.handler)

theorem latestFirst_registrations (kind : String) (sets : List RuleSet) :
    Registration.latestFirst kind (registrations sets) =
      ((sets.filter (·.kind = kind)).map RuleSet.handler).reverse := by
  simp [Registration.latestFirst, registrations, List.filter_map, Function.comp_def]

/-- Macros that are taken up come before the handlers that were there, the last one first. -/
theorem lookup_registerAll {s : Session} {done : List Registration} (h : s.registry.Holds done)
    (sets : List RuleSet) (kind : String) :
    (s.registerAll sets).registry.lookup kind =
      ((sets.filter (·.kind = kind)).map RuleSet.handler).reverse ++ s.registry.lookup kind := by
  rw [registerAll_eq, (h.registers _).lookup_eq, Registration.latestFirst_append, ← h.lookup_eq,
    latestFirst_registrations]

/-- Loading takes up the macros under all paths in order, unless something is wrong with a file or
two macros have the same name.  Then it takes up nothing.  The order in which a walk comes across
the files does not matter. -/
theorem load_atomic (settings : Settings) (history : List Registration)
    (sharing : Context → Context → Tree → Bool) (files : FileTree) (hfiles : files.Proper)
    (roots : List String) :
    let s : Session := ⟨settings, ⟨(Registry.empty.performAll history).entries, sharing⟩⟩
    (load files roots).run s = (match s.loadRules files roots with
      | .error report => (.error report, s)
      | .ok (s', count) => (.ok count, s')) ∧
    (∀ count s', (load files roots).run s = (.ok count, s') ↔
      ∃ sets, Load.Finds files roots sets ∧ (sets.map RuleSet.name).Nodup ∧
        count = sets.length ∧ s' = s.registerAll sets) ∧
    (∀ sets kind, (s.registerAll sets).registry.lookup kind =
      ((sets.filter (·.kind = kind)).map RuleSet.handler).reverse ++ s.registry.lookup kind) ∧
    (∀ report s', (load files roots).run s = (.error report, s') → s' = s) ∧
    ∀ files', files.SameFiles files' → load files' roots = load files roots := by
  intro s
  refine ⟨run_load files roots s, fun count s' => ?_,
    lookup_registerAll (Registry.holds_performAll history).withSharing, fun report s' hrun => ?_,
    fun files' hsame => ?_⟩
  · rw [run_load, loadRules]
    constructor
    · intro hrun
      cases hload : Load.loadRules files roots with
      | error report =>
        rw [hload] at hrun
        cases hrun
      | ok sets =>
        rw [hload] at hrun
        cases hrun
        obtain ⟨hfinds, hdistinct⟩ := (Load.loadRules_eq_ok_iff hfiles).1 hload
        exact ⟨sets, hfinds, hdistinct, rfl, rfl⟩
    · rintro ⟨sets, hfinds, hdistinct, rfl, rfl⟩
      rw [(Load.loadRules_eq_ok_iff hfiles).2 ⟨hfinds, hdistinct⟩]
  · rw [run_load] at hrun
    split at hrun
    case h_1 => exact (congrArg Prod.snd hrun).symm
    case h_2 => cases hrun
  · rw [load, load, Load.loadRules_of_sameFiles hfiles hsame]

/-- A macro that refuses the nodes without children of one kind. -/
def refusing (name : String) : RuleSet where
  name := name
  kind := "k"
  rules := [⟨.node "k" [] none, .error "x"⟩]
  nonempty := List.cons_ne_nil _ _
  checked := rfl

/-- The text of a rule file which holds that macro. -/
def refusingText (name : String) : String :=
  "[[[\"" ++ name ++
    "\",\"k\",[\x7b\"pattern\":[\x7b\"Node\":[\"k\",[]]\x7d],\"error\":\"x\"\x7d]]]]"

/-- Two rule files below the working directory, of which a walk comes across the later one first. -/
def scattered : FileTree where
  nodes := [(["srv"], .directory), (["srv", "rules"], .directory),
    (["srv", "rules", "a-b.json"], .file (refusingText "m").toUTF8),
    (["srv", "rules", "a"], .directory),
    (["srv", "rules", "a", "z.json"], .file (refusingText "n").toUTF8)]
  workingDirectory := ["srv"]

theorem proper_scattered : scattered.Proper := by
  simp [scattered, FileTree.Proper]

/-- The two rule files below a directory, of which the walk comes across the second one first. -/
theorem ruleFiles_pair {files : FileTree} {root : String} {names first second : List String}
    (hfind : files.find root = .ok (names, .directory))
    (hjson : files.jsonFiles names = [second, first]) (hlt : List.Lex (· < ·) first second) :
    files.RuleFiles root [FileTree.joinPath root first, FileTree.joinPath root second] := by
  refine .directory hfind (List.pairwise_pair.2 hlt) fun below => ?_
  rw [← FileTree.mem_jsonFiles_iff, hjson]
  exact (List.Perm.swap _ _ _).mem_iff

theorem holds_refusing {files : FileTree} {path name : String} {names : List String}
    (hfind : files.find path = .ok (names, .file (refusingText name).toUTF8))
    (hdecode : Json.decode Definition.fileReader (refusingText name) =
      .ok [⟨name, "k", (refusing name).rules⟩]) : Load.Holds files path [refusing name] :=
  ⟨_, _, FileTree.readText_of_find hfind, hdecode, .cons rfl .nil⟩

set_option maxRecDepth 4000 in
theorem decode_refusingText {name : String} (h : name = "m" ∨ name = "n") :
    Json.decode Definition.fileReader (refusingText name) =
      .ok [⟨name, "k", (refusing name).rules⟩] := by
  rcases h with rfl | rfl
  · cbv
  · cbv

theorem under_scattered : Load.Under scattered "rules" [refusing "n", refusing "m"] := by
  have hrules : scattered.find "rules" = .ok (["srv", "rules"], .directory) := rfl
  have hbelow : scattered.jsonFiles ["srv", "rules"] = [["a-b.json"], ["a", "z.json"]] := rfl
  have hlate : scattered.find "rules/a-b.json" =
      .ok (["srv", "rules", "a-b.json"], .file (refusingText "m").toUTF8) := rfl
  have hearly : scattered.find "rules/a/z.json" =
      .ok (["srv", "rules", "a", "z.json"], .file (refusingText "n").toUTF8) := rfl
  have hpaths : scattered.RuleFiles "rules" ["rules/a/z.json", "rules/a-b.json"] :=
    ruleFiles_pair hrules hbelow (.rel (by decide))
  exact ⟨_, hpaths, .cons (holds_refusing hearly (decode_refusingText (.inr rfl)))
    (.cons (holds_refusing hlate (decode_refusingText (.inl rfl))) .nil)⟩

theorem distinct_refusing : RuleSet.Distinct [refusing "n", refusing "m"] := by
  simp [RuleSet.Distinct, refusing]

/-- A walk from the root comes across the files below the working directory again. -/
theorem loadRules_scattered_above : Load.loadRules scattered ["rules", ".."] =
    .error (.of (.load (.duplicateName "n" "../srv/rules/a/z.json"))) := by
  have hroot : scattered.find ".." = .ok ([], .directory) := rfl
  have hbelow : scattered.jsonFiles [] =
      [["srv", "rules", "a-b.json"], ["srv", "rules", "a", "z.json"]] := rfl
  have hagain : scattered.find "../srv/rules/a/z.json" =
      .ok (["srv", "rules", "a", "z.json"], .file (refusingText "n").toUTF8) := rfl
  have hpaths : scattered.RuleFiles ".." ["../srv/rules/a/z.json", "../srv/rules/a-b.json"] :=
    ruleFiles_pair hroot hbelow (.cons (.cons (.rel (by decide))))
  have hdiscover := Load.discover_eq_ok_iff.2
    ((FileTree.ruleFiles_eq_ok_iff proper_scattered).2 hpaths)
  have hfile : Load.rulesOfFile scattered "../srv/rules/a/z.json" = .ok [refusing "n"] :=
    Load.rulesOfFile_eq_ok_iff.2
      ⟨holds_refusing hagain (decode_refusingText (.inr rfl)), List.nodup_singleton _⟩
  have hfirst : Load.addRoot scattered [] "rules" = .ok [refusing "n", refusing "m"] :=
    (Load.adds_addRoot proper_scattered _ _ _ RuleSet.distinct_nil).2
      ⟨_, under_scattered, rfl, distinct_refusing⟩
  have hsecond : Load.addRoot scattered [refusing "n", refusing "m"] ".." =
      .error (.of (.load (.duplicateName "n" "../srv/rules/a/z.json"))) := by
    rw [Load.addRoot, hdiscover]
    simp only [bind, Except.bind]
    rw [Load.loadFiles, hfile]
    rfl
  rw [Load.loadRules, Load.loadPaths_eq, List.foldlM_cons, hfirst]
  simp only [bind, Except.bind]
  rw [List.foldlM_cons, hsecond]
  rfl

theorem load_atomic_scattered :
    let s : Session := ⟨{}, Registry.empty⟩
    let s' := s.registerAll [refusing "n", refusing "m"]
    (load scattered ["rules"]).run s = (.ok 2, s') ∧
      (s'.registry.lookup "k").map Handler.name = ["m", "n"] ∧
      load { scattered with nodes := scattered.nodes.reverse } ["rules"] =
        load scattered ["rules"] ∧
      (load scattered ["rules", ".."]).run s =
        (.error (.of (.load (.duplicateName "n" "../srv/rules/a/z.json"))), s) := by
  intro s s'
  obtain ⟨-, hok, hlookup, -, hsame⟩ :=
    load_atomic {} [] (fun _ _ _ => false) scattered proper_scattered ["rules"]
  obtain ⟨hrun, -⟩ :=
    load_atomic {} [] (fun _ _ _ => false) scattered proper_scattered ["rules", ".."]
  rw [loadRules, loadRules_scattered_above] at hrun
  have hfinds : Load.Finds scattered ["rules"] ([refusing "n", refusing "m"] ++ []) :=
    .cons under_scattered .nil
  refine ⟨(hok 2 _).2 ⟨_, hfinds, distinct_refusing, rfl, rfl⟩, ?_, ?_, hrun⟩
  · exact congrArg (List.map Handler.name) (hlookup _ "k")
  · exact hsame _ ⟨(List.reverse_perm _).symm, rfl⟩

end Session

end MacroExpansion
