import MacroExpansion.Load
import MacroExpansion.Proofs.Json.Reader

/-!
# Trees read back from their text

The JSON text of a tree is read as the tree, spans included, if it does not nest too deep
(`reads_toJson`).  So an array of trees is loaded as these trees, and the text of one tree as this
tree alone (`parseTrees_toJson`).  A node takes four levels of nesting around its children
(`nesting_toJson_node`), which tells how many nodes may stand inside of each other.
-/

namespace MacroExpansion

open Json Json.Reader

variable {levels : Nat}

/-! ## Spans, categories and holes -/

theorem Span.compact_toJson (s : Span) : Compact s.toJson :=
  .object_two "start" "end" (.word s.start) (.word s.stop)

theorem Span.reads_toJson (s : Span) (hlevels : nesting s.toJson ≤ levels) :
    Reads Span.reader levels s.toJson s := by
  obtain ⟨levels, rfl, -⟩ := exists_levels_object_two (.word s.start) (.word s.stop) hlevels
  show Reads Span.reader (levels + 1)
    (writeObject (writeMembers [("start", writeWord s.start), ("end", writeWord s.stop)])) s
  exact reads_record (.cons (reads_once (reads_word s.start)).bind_pure
    (.cons (reads_once (reads_word s.stop)).bind_pure (.nil _))) rfl

theorem Category.compact_toJson (category : Category) : Compact category.toJson := by
  cases category with
  | kind name => exact .object_one "kind" (.string name)
  | any => exact .string _
  | ident => exact .string _
  | atom => exact .string _
  | num => exact .string _

theorem Category.reads_toJson (nothing : Reader Unit) (category : Category)
    (hlevels : nesting category.toJson ≤ levels) :
    Reads (Category.reader nothing) levels category.toJson category := by
  cases category with
  | kind name =>
    obtain ⟨levels, rfl, -⟩ := exists_levels_object_one (.string name) hlevels
    exact reads_variant_object (if_pos rfl) ((reads_string name).map kind)
  | any => exact reads_variant_string rfl
  | ident => exact reads_variant_string rfl
  | atom => exact reads_variant_string rfl
  | num => exact reads_variant_string rfl

theorem Hole.compact_toJson (hole : Hole) : Compact hole.toJson :=
  .object_two "var" "category" (.string hole.var) hole.category.compact_toJson

theorem Hole.reads_toJson (nothing : Reader Unit) (hole : Hole)
    (hlevels : nesting hole.toJson ≤ levels) :
    Reads (Hole.reader nothing) levels hole.toJson hole := by
  obtain ⟨levels, rfl, -, hcategory⟩ :=
    exists_levels_object_two (.string hole.var) hole.category.compact_toJson hlevels
  have hread := hole.category.reads_toJson nothing hcategory
  show Reads (Hole.reader nothing) (levels + 1) (writeObject
    (writeMembers [("var", writeString hole.var), ("category", hole.category.toJson)])) hole
  exact reads_record (.cons (reads_once (reads_string hole.var)).bind_pure
    (.cons (reads_once hread).bind_pure (.nil _))) rfl

/-! ## Values -/

theorem Leaf.compact_toJson (l : Leaf) : Compact l.toJson := by
  cases l with
  | atom text => exact .object_one "Atom" (.string text)
  | ident name => exact .object_one "Ident" (.string name)
  | antiquot hole => exact .object_one "Antiquot" hole.compact_toJson
  | splice hole => exact .object_one "Splice" hole.compact_toJson

namespace Tree

variable {nothing : Reader Unit} {child : Reader Tree}

theorem reads_valueReader_leaf (l : Leaf) (hlevels : nesting l.toJson ≤ levels) :
    Reads (valueReader nothing child) levels l.toJson (leaf l) := by
  cases l with
  | atom text =>
    obtain ⟨levels, rfl, -⟩ := exists_levels_object_one (.string text) hlevels
    exact reads_variant_object rfl (reads_string text).bind_pure
  | ident name =>
    obtain ⟨levels, rfl, -⟩ := exists_levels_object_one (.string name) hlevels
    exact reads_variant_object rfl (reads_string name).bind_pure
  | antiquot hole =>
    obtain ⟨levels, rfl, hhole⟩ := exists_levels_object_one hole.compact_toJson hlevels
    exact reads_variant_object rfl (hole.reads_toJson nothing hhole).bind_pure
  | splice hole =>
    obtain ⟨levels, rfl, hhole⟩ := exists_levels_object_one hole.compact_toJson hlevels
    exact reads_variant_object rfl (hole.reads_toJson nothing hhole).bind_pure

/-- The text of the value of a node. -/
abbrev nodeToJson (kind : String) (texts : List (List Char)) : List Char :=
  writeObject [writeMember "Node" (writeArray [writeString kind, writeArray texts])]

theorem compact_pair (kind : String) {texts : List (List Char)}
    (h : ∀ text ∈ texts, Compact text) :
    ∀ item ∈ [writeString kind, writeArray texts], Compact item :=
  List.forall_mem_cons.2 ⟨.string kind, List.forall_mem_singleton.2 (.array h)⟩

theorem compact_nodeToJson (kind : String) {texts : List (List Char)}
    (h : ∀ text ∈ texts, Compact text) : Compact (nodeToJson kind texts) :=
  .object_one "Node" (.array (compact_pair kind h))

theorem reads_valueReader_node {kind : String} {children : List Tree} {texts : List (List Char)}
    (hcompact : ∀ text ∈ texts, Compact text)
    (hlevels : nesting (nodeToJson kind texts) ≤ levels)
    (h : ∀ levels' < levels, (∀ text ∈ texts, nesting text ≤ levels') →
      List.Forall₂ (Reads child levels') texts children) :
    Reads (valueReader nothing child) levels (nodeToJson kind texts) (node kind children) := by
  have hpair := compact_pair kind hcompact
  obtain ⟨levels, rfl, hobject⟩ := exists_levels_object_one (.array hpair) hlevels
  obtain ⟨levels, rfl, harray⟩ := exists_levels_array hpair hobject
  have hchildren := harray _ (List.mem_cons_of_mem _ List.mem_cons_self)
  obtain ⟨levels, rfl, htexts⟩ := exists_levels_array hcompact hchildren
  have hread : Reads (array child) (levels + 1) (writeArray texts) children :=
    reads_array (fun text htext => (hcompact text htext).begins) (h levels (by omega) htexts)
  exact reads_variant_object rfl (reads_pair (Compact.string kind).begins (reads_string kind)
    (Compact.array hcompact).begins hread)

/-! ## Trees -/

/-- What stands for the span in the text of a tree takes at most one level, and is read as the
span. -/
theorem exists_writeSpanned (text : List Char) (span : Option Span) :
    ∃ place, writeSpanned text span = writeObject [writeMember "value" text,
        writeMember "span" place] ∧ Compact place ∧ nesting place ≤ 1 ∧
      ∀ levels, nesting place ≤ levels → Reads (nullable Span.reader) levels place span := by
  cases span with
  | none => exact ⟨_, rfl, .null, by decide, fun levels _ => reads_nullable_null Span.reader⟩
  | some span =>
    refine ⟨span.toJson, rfl, span.compact_toJson, ?_, fun levels hlevels => ?_⟩
    · rw [Span.toJson, nesting_object_two _ _ (.word span.start) (.word span.stop),
        (nests_writeWord span.start).nesting_eq, (nests_writeWord span.stop).nesting_eq]
      decide
    · exact reads_nullable rfl (by decide) (span.reads_toJson hlevels)

theorem compact_writeSpanned {text : List Char} (h : Compact text) (span : Option Span) :
    Compact (writeSpanned text span) := by
  obtain ⟨place, heq, hplace, -, -⟩ := exists_writeSpanned text span
  rw [heq]
  exact .object_two "value" "span" h hplace

theorem reads_writeSpanned {text : List Char} {span : Option Span} {value : Value} {height : Nat}
    (hcompact : Compact text) (hlevels : nesting (writeSpanned text span) ≤ levels)
    (h : ∀ levels' < levels, nesting text ≤ levels' →
      Reads (valueReader nothing (readerOfHeight nothing height)) levels' text value) :
    Reads (readerOfHeight nothing (height + 1)) levels (writeSpanned text span) (value span) := by
  obtain ⟨place, heq, hplace, -, hspan⟩ := exists_writeSpanned text span
  rw [heq] at hlevels ⊢
  obtain ⟨levels, rfl, htext, hle⟩ := exists_levels_object_two hcompact hplace hlevels
  have hvalue := h levels (by omega) htext
  show Reads (readerOfHeight nothing (height + 1)) (levels + 1)
    (writeObject (writeMembers [("value", text), ("span", place)])) (value span)
  exact reads_record (.cons (reads_once hvalue).bind_pure
    (.cons (reads_once (hspan levels hle)).bind_pure (.nil _))) rfl

mutual

theorem compact_toJson (tree : Tree) : Compact tree.toJson := by
  match tree with
  | leaf l span => exact compact_writeSpanned l.compact_toJson span
  | node kind children span =>
    exact compact_writeSpanned (compact_nodeToJson kind (compact_toJsonList children)) span

theorem compact_toJsonList (trees : List Tree) : ∀ text ∈ toJsonList trees, Compact text := by
  match trees with
  | [] => exact List.forall_mem_nil _
  | tree :: trees =>
    exact List.forall_mem_cons.2 ⟨compact_toJson tree, compact_toJsonList trees⟩

end

/-- A value that takes a level nests as deep as its span at least. -/
theorem nesting_writeSpanned {text : List Char} (h : Compact text) (hpos : 0 < nesting text)
    (span : Option Span) : nesting (writeSpanned text span) = nesting text + 1 := by
  obtain ⟨place, heq, hplace, hle, -⟩ := exists_writeSpanned text span
  rw [heq, nesting_object_two _ _ h hplace]
  omega

/-- A node takes four levels around its children. -/
theorem nesting_toJson_node (kind : String) (children : List Tree) (span : Option Span) :
    nesting (node kind children span).toJson = nestingAll (toJsonList children) + 4 := by
  have hcompact := compact_toJsonList children
  have hpair := compact_pair kind hcompact
  have hnode : nesting (nodeToJson kind (toJsonList children)) =
      nestingAll (toJsonList children) + 3 := by
    rw [nesting_object_one _ (.array hpair), nesting_writeArray hpair, nestingAll_cons,
      nestingAll_cons, (nests_writeString kind).nesting_eq, nesting_writeArray hcompact]
    exact congrArg (· + 2) (Nat.zero_max _)
  rw [toJson, nesting_writeSpanned (compact_nodeToJson kind hcompact) (by omega), hnode]

mutual

theorem reads_readerOfHeight (tree : Tree) {levels height : Nat}
    (hlevels : nesting tree.toJson ≤ levels) (hheight : levels < height) :
    Reads (readerOfHeight nothing height) levels tree.toJson tree := by
  obtain ⟨height, rfl⟩ := Nat.exists_eq_add_one.2 (Nat.zero_lt_of_lt hheight)
  match tree with
  | leaf l span =>
    exact reads_writeSpanned l.compact_toJson hlevels fun _ _ => reads_valueReader_leaf l
  | node kind children span =>
    have hcompact := compact_nodeToJson kind (compact_toJsonList children)
    -- On the way to a child the height goes down by one and the levels by more, so that the height
    -- stays above.
    refine reads_writeSpanned hcompact hlevels fun levels' hlt hnode => ?_
    refine reads_valueReader_node (compact_toJsonList children) hnode fun levels'' hlt' htexts => ?_
    exact forall_reads_readerOfHeight children htexts (by omega)

theorem forall_reads_readerOfHeight (trees : List Tree) {levels height : Nat}
    (hlevels : ∀ text ∈ toJsonList trees, nesting text ≤ levels) (hheight : levels < height) :
    List.Forall₂ (Reads (readerOfHeight nothing height) levels) (toJsonList trees) trees := by
  match trees with
  | [] => exact .nil
  | tree :: trees =>
    obtain ⟨htree, htrees⟩ := List.forall_mem_cons.1 hlevels
    exact .cons (reads_readerOfHeight tree htree hheight)
      (forall_reads_readerOfHeight trees htrees hheight)

end

/-- A tree whose text does not nest too deep is read back. -/
theorem reads_toJson (nothing : Reader Unit) (tree : Tree)
    (hlevels : nesting tree.toJson ≤ levels) :
    Reads (readerWith nothing) levels tree.toJson tree :=
  fun rest hrest => Takes.bind (a := levels) rfl
    (reads_readerOfHeight tree hlevels (Nat.lt_succ_self levels) rest hrest)

theorem forall_reads_toJson (nothing : Reader Unit) (trees : List Tree)
    (hlevels : ∀ text ∈ toJsonList trees, nesting text ≤ levels) :
    List.Forall₂ (Reads (readerWith nothing) levels) (toJsonList trees) trees := by
  induction trees with
  | nil => exact .nil
  | cons tree trees ih =>
    obtain ⟨htree, htrees⟩ := List.forall_mem_cons.1 hlevels
    exact .cons (reads_toJson nothing tree htree) (ih htrees)

/-! ## Texts with trees -/

/-- An array of trees is read as the trees. -/
theorem takes_listReader_array (trees : List Tree)
    (hlevels : nesting (writeArray (toJsonList trees)) ≤ levels) :
    Takes listReader levels (writeArray (toJsonList trees)) trees [] := by
  have hcompact := compact_toJsonList trees
  have htext := takes_text (skim_of_compact (.array hcompact) hlevels)
  have hread : Reads (array reader) levels (writeArray (toJsonList trees)) trees := by
    obtain ⟨levels, rfl, htexts⟩ := exists_levels_array hcompact hlevels
    exact reads_array (fun text htext => (hcompact text htext).begins)
      (forall_reads_toJson null trees htexts)
  refine (takes_peek rfl).bind (htext.bind ?_)
  exact (takes_attempt_some hread.takes).bind (.pure trees)

/-- The text of one tree, which is no array, is read as this tree. -/
theorem takes_listReader_tree (tree : Tree) (hlevels : nesting tree.toJson ≤ levels) :
    Takes listReader levels tree.toJson [tree] [] := by
  have htext := takes_text (skim_of_compact (compact_toJson tree) hlevels)
  have hread := (reads_toJson null tree hlevels).takes
  obtain ⟨cs, hcs⟩ : ∃ cs, tree.toJson = '{' :: cs := by
    cases tree <;> exact ⟨_, rfl⟩
  rw [hcs] at htext hread ⊢
  -- The attempt at an array comes first, and an object is refused at once.
  have harray : Takes (attempt (array reader) ('{' :: cs)) levels [] none [] :=
    takes_attempt_none (run_array_object reader)
  refine (takes_peek rfl).bind (htext.bind (harray.bind ?_))
  exact (takes_attempt_some hread).bind (.pure [tree])

end Tree

namespace Load

theorem parseTrees_of_takes {text : List Char} {trees : List Tree}
    (h : Takes Tree.listReader maxLevels text trees []) (origin : String) :
    parseTrees (String.ofList text) origin = .ok trees := by
  rw [parseTrees, decode_of_takes h]

/-- Trees are loaded back from their text, spans included: as many as there are from an array of
them, and one alone from its own text. -/
theorem parseTrees_toJson (origin : String) :
    (∀ trees : List Tree, nesting (writeArray (Tree.toJsonList trees)) ≤ 127 →
      parseTrees (String.ofList (writeArray (Tree.toJsonList trees))) origin = .ok trees) ∧
    ∀ tree : Tree, nesting tree.toJson ≤ 127 →
      parseTrees (String.ofList tree.toJson) origin = .ok [tree] := by
  constructor
  · intro trees hlevels
    exact parseTrees_of_takes (Tree.takes_listReader_array trees hlevels) origin
  · intro tree hlevels
    exact parseTrees_of_takes (Tree.takes_listReader_tree tree hlevels) origin

/-- A tree inside of groups. -/
def grouped (tree : Tree) : (groups : Nat) → Tree
  | 0 => tree
  | groups + 1 => .node "group" [grouped tree groups] none

theorem nesting_grouped (tree : Tree) (groups : Nat) :
    nesting (grouped tree groups).toJson = nesting tree.toJson + 4 * groups := by
  induction groups with
  | zero => rfl
  | succ groups ih =>
    rw [grouped, Tree.nesting_toJson_node, Tree.toJsonList, nestingAll_cons, ih]
    exact congrArg (· + 4) (Nat.max_zero _)

/-- Up to the last level: an array with a token that needs escapes and has the greatest span, and a
hole alone, both in groups. -/
theorem parseTrees_toJson_grouped :
    let token := Tree.leaf (.atom "[\x7b\"\\\n\x01é") (some ⟨0, 18446744073709551615⟩)
    let hole := Tree.leaf (.splice ⟨"xs", .num⟩) none
    (nesting (writeArray (Tree.toJsonList [grouped token 31])) = 127 ∧
      parseTrees (String.ofList (writeArray (Tree.toJsonList [grouped token 31]))) "t.json" =
        .ok [grouped token 31]) ∧
    nesting (grouped hole 31).toJson = 127 ∧
      parseTrees (String.ofList (grouped hole 31).toJson) "t.json" = .ok [grouped hole 31] := by
  intro token hole
  have hmany : nesting (writeArray (Tree.toJsonList [grouped token 31])) = 127 := by
    have htoken : nesting token.toJson = 2 := by decide +kernel
    rw [nesting_writeArray (Tree.compact_toJsonList _), Tree.toJsonList, nestingAll_cons,
      nesting_grouped, htoken]
    rfl
  have hone : nesting (grouped hole 31).toJson = 127 := by
    have hhole : nesting hole.toJson = 3 := by decide +kernel
    rw [nesting_grouped, hhole]
  exact ⟨⟨hmany, (parseTrees_toJson "t.json").1 _ (Nat.le_of_eq hmany)⟩,
    hone, (parseTrees_toJson "t.json").2 _ (Nat.le_of_eq hone)⟩

end Load

end MacroExpansion
