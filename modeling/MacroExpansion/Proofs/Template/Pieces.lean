import Mathlib
import MacroExpansion.Context
import MacroExpansion.Proofs.Template.Holes
import MacroExpansion.Proofs.Template.Idents

/-!
# What filling gives

Read from left to right, a tree is a list of pieces: its leaves, and where its nodes begin and end.
The pieces determine the tree (`pieces_injective`).  Filling a template replaces each piece by
others and does nothing else (`Filled`): a part of the template stays where it is and takes the
place of use if it has no span, an identifier is stamped, and a hole gives way to the pieces of the
trees that it stands for, as they are.  `fill_gives` says so, and when a template can be filled.
-/

namespace MacroExpansion

/-- What is met when a tree is read from left to right. -/
inductive Piece where
  | atom (text : String) (span : Option Span)
  | ident (name : String) (span : Option Span)
  | hole (hole : Hole) (form : HoleForm) (span : Option Span)
  /-- The children of a node follow. -/
  | enter (kind : String) (span : Option Span)
  /-- The children of a node are over. -/
  | leave
  deriving DecidableEq

namespace Piece

def idents : Piece → List String
  | ident name _ => [name]
  | _ => []

def holes : Piece → List (Hole × HoleForm)
  | hole h form _ => [(h, form)]
  | _ => []

end Piece

/-- A leaf at a place, as a piece. -/
def Leaf.piece (span : Option Span) : Leaf → Piece
  | atom text => .atom text span
  | ident name => .ident name span
  | antiquot hole => .hole hole .single span
  | splice hole => .hole hole .sequence span

namespace Tree

mutual

/-- The pieces of a tree. -/
def pieces : Tree → List Piece
  | leaf l span => [l.piece span]
  | node kind children span => .enter kind span :: (piecesList children ++ [.leave])

/-- The pieces of trees, one tree after the other. -/
def piecesList : List Tree → List Piece
  | [] => []
  | t :: ts => pieces t ++ piecesList ts

end

theorem piecesList_append (trees trees' : List Tree) :
    piecesList (trees ++ trees') = piecesList trees ++ piecesList trees' := by
  induction trees with
  | nil => rfl
  | cons tree trees ih => rw [List.cons_append, piecesList, ih, piecesList, List.append_assoc]

mutual

theorem flatMap_idents_pieces (tree : Tree) : tree.pieces.flatMap Piece.idents = tree.idents := by
  match tree with
  | leaf l span => cases l <;> rfl
  | node kind children span =>
    simp [pieces, idents, Piece.idents, flatMap_idents_piecesList children]

theorem flatMap_idents_piecesList (trees : List Tree) :
    (piecesList trees).flatMap Piece.idents = identsList trees := by
  match trees with
  | [] => rfl
  | tree :: trees =>
    rw [piecesList, List.flatMap_append, flatMap_idents_pieces tree,
      flatMap_idents_piecesList trees, identsList]

end

mutual

theorem flatMap_holes_pieces (tree : Tree) : tree.pieces.flatMap Piece.holes = tree.holes := by
  match tree with
  | leaf l span => cases l <;> rfl
  | node kind children span =>
    simp [pieces, holes, Piece.holes, flatMap_holes_piecesList children]

theorem flatMap_holes_piecesList (trees : List Tree) :
    (piecesList trees).flatMap Piece.holes = holesList trees := by
  match trees with
  | [] => rfl
  | tree :: trees =>
    rw [piecesList, List.flatMap_append, flatMap_holes_pieces tree,
      flatMap_holes_piecesList trees, holesList]

end

theorem mem_idents_iff {tree : Tree} {name : String} :
    name ∈ tree.idents ↔ ∃ span, .ident name span ∈ tree.pieces := by
  rw [← flatMap_idents_pieces, List.mem_flatMap]
  constructor
  · rintro ⟨piece, hpiece, hname⟩
    cases piece with
    | ident name' span => exact ⟨span, List.mem_singleton.1 hname ▸ hpiece⟩
    | _ => cases hname
  · rintro ⟨span, hpiece⟩
    exact ⟨_, hpiece, List.mem_cons_self⟩

theorem mem_holes_iff {tree : Tree} {hole : Hole × HoleForm} :
    hole ∈ tree.holes ↔ ∃ span, .hole hole.1 hole.2 span ∈ tree.pieces := by
  rw [← flatMap_holes_pieces, List.mem_flatMap]
  constructor
  · rintro ⟨piece, hpiece, hhole⟩
    cases piece with
    | hole hole' form span => exact ⟨span, List.mem_singleton.1 hhole ▸ hpiece⟩
    | _ => cases hhole
  · rintro ⟨span, hpiece⟩
    exact ⟨_, hpiece, List.mem_cons_self⟩

/-! ## Pieces determine the tree -/

theorem piece_inj {l l' : Leaf} {span span' : Option Span} (h : l.piece span = l'.piece span') :
    leaf l span = leaf l' span' := by
  cases l <;> cases l' <;> cases h <;> rfl

theorem piece_ne_enter (l : Leaf) (span : Option Span) (kind : String) (span' : Option Span) :
    l.piece span ≠ .enter kind span' := by
  cases l <;> exact fun h => by cases h

theorem pieces_ne_leave (tree : Tree) (rest rest' : List Piece) :
    tree.pieces ++ rest ≠ .leave :: rest' := by
  intro h
  match tree with
  | leaf l span => cases l <;> cases h
  | node kind children span => cases h

mutual

/-- The end of a tree is told by its pieces, whatever follows. -/
theorem pieces_append_inj {tree tree' : Tree} {rest rest' : List Piece}
    (h : tree.pieces ++ rest = tree'.pieces ++ rest') : tree = tree' ∧ rest = rest' := by
  match tree, tree' with
  | leaf l span, leaf l' span' =>
    obtain ⟨hpiece, hrest⟩ := List.cons.inj h
    exact ⟨piece_inj hpiece, hrest⟩
  | leaf l span, node kind children span' =>
    exact absurd (List.cons.inj h).1 (piece_ne_enter _ _ _ _)
  | node kind children span, leaf l span' =>
    exact absurd (List.cons.inj h).1.symm (piece_ne_enter _ _ _ _)
  | node kind children span, node kind' children' span' =>
    simp only [pieces, List.cons_append, List.append_assoc, List.nil_append, List.cons.injEq,
      Piece.enter.injEq] at h
    obtain ⟨⟨rfl, rfl⟩, hchildren⟩ := h
    obtain ⟨rfl, hrest⟩ := piecesList_append_inj hchildren
    exact ⟨rfl, hrest⟩

theorem piecesList_append_inj {trees trees' : List Tree} {rest rest' : List Piece}
    (h : piecesList trees ++ .leave :: rest = piecesList trees' ++ .leave :: rest') :
    trees = trees' ∧ rest = rest' := by
  match trees, trees' with
  | [], [] => exact ⟨rfl, (List.cons.inj h).2⟩
  | [], tree' :: trees' =>
    rw [piecesList, piecesList, List.append_assoc] at h
    exact absurd h.symm (pieces_ne_leave _ _ _)
  | tree :: trees, [] =>
    rw [piecesList, piecesList, List.append_assoc] at h
    exact absurd h (pieces_ne_leave _ _ _)
  | tree :: trees, tree' :: trees' =>
    rw [piecesList, piecesList, List.append_assoc, List.append_assoc] at h
    obtain ⟨rfl, hothers⟩ := pieces_append_inj h
    obtain ⟨rfl, hrest⟩ := piecesList_append_inj hothers
    exact ⟨rfl, hrest⟩

end

theorem pieces_injective {tree tree' : Tree} (h : tree.pieces = tree'.pieces) : tree = tree' := by
  have happend : tree.pieces ++ [] = tree'.pieces ++ [] := by rw [h]
  exact (pieces_append_inj happend).1

end Tree

/-! ## Filling, piece by piece -/

namespace Filling

/-- What a piece of a template becomes. -/
def piecesOf (f : Filling) : Piece → List Piece
  | .atom text span => [.atom text (span.or f.span)]
  | .ident name span =>
    match ScopedName.stamp name f.mainModule f.scope with
    | .ok stamped => [.ident stamped (span.or f.span)]
    | .error _ => []
  | .hole hole _ _ =>
    match f.bindings.lookup hole.var with
    | some value => Tree.piecesList value.trees
    | none => []
  | .enter kind span => [.enter kind (span.or f.span)]
  | .leave => [.leave]

/-- The identifiers that a piece of a template becomes: a stamped one, or those of the trees that
a hole stands for. -/
def identsOf (f : Filling) : Piece → List String
  | .ident name _ =>
    match ScopedName.stamp name f.mainModule f.scope with
    | .ok stamped => [stamped]
    | .error _ => []
  | .hole hole _ _ =>
    match f.bindings.lookup hole.var with
    | some value => value.idents
    | none => []
  | _ => []

/-- Nothing keeps a piece of a template from being filled: an identifier can be stamped, and a hole
is bound in its form. -/
def Takes (f : Filling) : Piece → Prop
  | .ident name _ => ∃ stamped, ScopedName.stamp name f.mainModule f.scope = .ok stamped
  | .hole hole form _ => f.bindings.Binds (hole, form)
  | _ => True

/-- Some pieces of a template that can be filled, and what they become. -/
structure Filled (f : Filling) (pieces filled : List Piece) : Prop where
  takes : ∀ piece ∈ pieces, f.Takes piece
  eq : filled = pieces.flatMap f.piecesOf

variable {f : Filling}

namespace Filled

theorem nil : f.Filled [] [] := ⟨fun _ h => absurd h List.not_mem_nil, rfl⟩

theorem singleton {piece : Piece} {filled : List Piece} (htakes : f.Takes piece)
    (heq : filled = f.piecesOf piece) : f.Filled [piece] filled :=
  ⟨List.forall_mem_singleton.2 htakes, heq.trans (List.flatMap_singleton _ _).symm⟩

theorem append {pieces pieces' filled filled' : List Piece} (h : f.Filled pieces filled)
    (h' : f.Filled pieces' filled') : f.Filled (pieces ++ pieces') (filled ++ filled') :=
  ⟨List.forall_mem_append.2 ⟨h.takes, h'.takes⟩, by rw [h.eq, h'.eq, List.flatMap_append]⟩

theorem node {pieces filled : List Piece} (h : f.Filled pieces filled) (kind : String)
    (span : Option Span) :
    f.Filled (.enter kind span :: (pieces ++ [.leave]))
      (.enter kind (span.or f.span) :: (filled ++ [.leave])) := by
  have henter : f.Filled [.enter kind span] [.enter kind (span.or f.span)] := .singleton trivial rfl
  have hleave : f.Filled [.leave] [.leave] := .singleton trivial rfl
  exact henter.append (h.append hleave)

end Filled

theorem single_eq_ok_iff {hole : Hole} {span : Option Span} {tree : Tree} :
    f.single hole span = .ok tree ↔ f.bindings.lookup hole.var = some (.one tree) := by
  rw [single]
  cases f.bindings.lookup hole.var with
  | none => simp
  | some value => cases value <;> simp

theorem sequence_eq_ok_iff {hole : Hole} {span : Option Span} {trees : List Tree} :
    f.sequence hole span = .ok trees ↔ f.bindings.lookup hole.var = some (.many trees) := by
  rw [sequence]
  cases f.bindings.lookup hole.var with
  | none => simp
  | some value => cases value <;> simp

theorem ident_eq_ok_iff {name : String} {span : Option Span} {tree : Tree} :
    f.ident name span = .ok tree ↔
      ∃ stamped, ScopedName.stamp name f.mainModule f.scope = .ok stamped ∧
        .leaf (.ident stamped) (span.or f.span) = tree := by
  rw [ident]
  cases ScopedName.stamp name f.mainModule f.scope with
  | ok stamped => simp
  | error fault => simp

theorem fill_node_eq_ok_iff {kind : String} {children : List Tree} {span : Option Span}
    {tree : Tree} :
    f.fill (.node kind children span) = .ok tree ↔
      ∃ filled, f.fillList children = .ok filled ∧ .node kind filled (span.or f.span) = tree := by
  rw [fill]
  cases f.fillList children with
  | ok filled => simp
  | error e => simp

theorem fillList_splice_eq_ok_iff {hole : Hole} {span : Option Span} {rest trees : List Tree} :
    f.fillList (.leaf (.splice hole) span :: rest) = .ok trees ↔
      ∃ run filled, f.sequence hole span = .ok run ∧ f.fillList rest = .ok filled ∧
        run ++ filled = trees := by
  rw [fillList]
  cases f.sequence hole span with
  | error e => simp
  | ok run => cases f.fillList rest <;> simp

theorem fillList_cons_eq_ok_iff {template : Tree} {rest trees : List Tree}
    (h : ∀ hole span, template ≠ .leaf (.splice hole) span) :
    f.fillList (template :: rest) = .ok trees ↔
      ∃ tree filled, f.fill template = .ok tree ∧ f.fillList rest = .ok filled ∧
        tree :: filled = trees := by
  rw [fillList]
  · cases f.fill template with
    | error e => simp
    | ok tree => cases f.fillList rest <;> simp
  · exact h

theorem filled_of_single {hole : Hole} {span : Option Span} {tree : Tree}
    (h : f.single hole span = .ok tree) : f.Filled [.hole hole .single span] tree.pieces := by
  rw [single_eq_ok_iff] at h
  refine .singleton ⟨.one tree, h, rfl⟩ ?_
  rw [piecesOf, h]
  exact (List.append_nil _).symm

theorem filled_of_sequence {hole : Hole} {span : Option Span} {trees : List Tree}
    (h : f.sequence hole span = .ok trees) :
    f.Filled [.hole hole .sequence span] (Tree.piecesList trees) := by
  rw [sequence_eq_ok_iff] at h
  refine .singleton ⟨.many trees, h, rfl⟩ ?_
  rw [piecesOf, h]
  rfl

theorem filled_of_ident {name : String} {span : Option Span} {tree : Tree}
    (h : f.ident name span = .ok tree) : f.Filled [.ident name span] tree.pieces := by
  obtain ⟨stamped, hstamp, rfl⟩ := ident_eq_ok_iff.1 h
  refine .singleton ⟨stamped, hstamp⟩ ?_
  rw [piecesOf, hstamp]
  rfl

mutual

theorem filled_of_fill {template tree : Tree} (h : f.fill template = .ok tree) :
    f.Filled template.pieces tree.pieces := by
  match template with
  | .leaf (.antiquot hole) span => exact filled_of_single h
  | .leaf (.splice hole) span => cases h
  | .leaf (.ident name) span => exact filled_of_ident h
  | .leaf (.atom text) span =>
    obtain rfl := Except.ok.inj h
    exact .singleton trivial rfl
  | .node kind children span =>
    obtain ⟨filled, hfilled, rfl⟩ := fill_node_eq_ok_iff.1 h
    exact (filled_of_fillList hfilled).node kind span

theorem filled_of_fillList {templates trees : List Tree} (h : f.fillList templates = .ok trees) :
    f.Filled (Tree.piecesList templates) (Tree.piecesList trees) := by
  match templates with
  | [] =>
    obtain rfl := Except.ok.inj h
    exact .nil
  | template :: rest =>
    by_cases hsplice : ∃ hole span, template = .leaf (.splice hole) span
    · obtain ⟨hole, span, rfl⟩ := hsplice
      obtain ⟨run, filled, hrun, hfilled, rfl⟩ := fillList_splice_eq_ok_iff.1 h
      rw [Tree.piecesList_append]
      exact (filled_of_sequence hrun).append (filled_of_fillList hfilled)
    · obtain ⟨tree, filled, htree, hfilled, rfl⟩ :=
        (fillList_cons_eq_ok_iff fun hole span heq => hsplice ⟨hole, span, heq⟩).1 h
      exact (filled_of_fill htree).append (filled_of_fillList hfilled)

end

theorem flatMap_idents_piecesOf (f : Filling) (piece : Piece) :
    (f.piecesOf piece).flatMap Piece.idents = f.identsOf piece := by
  cases piece with
  | ident name span =>
    rw [piecesOf, identsOf]
    cases ScopedName.stamp name f.mainModule f.scope <;> rfl
  | hole hole form span =>
    rw [piecesOf, identsOf]
    cases f.bindings.lookup hole.var with
    | none => rfl
    | some value =>
      dsimp only
      rw [Tree.flatMap_idents_piecesList]
      cases value with
      | one tree => exact List.append_nil _
      | many trees => rfl
  | _ => rfl

theorem splice?_of_fill {template tree : Tree} (h : f.fill template = .ok tree) :
    template.splice? = none := by
  refine Tree.splice?_eq_none ?_
  rintro hole span rfl
  cases h

end Filling

/-! ## Filling in a context -/

namespace Context

/-- What it takes to fill a template: a scope, a template that is no splice, holes that are bound
in their forms, and identifiers that can be stamped. -/
structure CanFill (cx : Context) (template : Tree) (bindings : Bindings) (scope : Scope) :
    Prop where
  scope? : cx.scope? = some scope
  splice? : template.splice? = none
  binds : ∀ hole ∈ template.holes, bindings.Binds hole
  stamps : ∀ name ∈ template.idents, ∃ stamped,
    ScopedName.stamp name cx.mainModule scope = .ok stamped

/-- What filling in a context depends on. -/
def filling (cx : Context) (bindings : Bindings) (scope : Scope) : Filling :=
  ⟨bindings, cx.mainModule, scope, cx.span?⟩

variable {cx : Context} {template : Tree} {bindings : Bindings} {scope : Scope}

theorem exists_fill_of_scope? {tree : Tree} (h : cx.fill template bindings = .ok tree) :
    ∃ scope, cx.scope? = some scope ∧ (cx.filling bindings scope).fill template = .ok tree := by
  rw [fill] at h
  split at h
  case h_1 => cases h
  case h_2 scope hscope => exact ⟨scope, hscope, h⟩

theorem canFill_of_fill {tree : Tree} (hscope : cx.scope? = some scope)
    (h : (cx.filling bindings scope).fill template = .ok tree) :
    cx.CanFill template bindings scope := by
  have htakes := (Filling.filled_of_fill h).takes
  refine ⟨hscope, Filling.splice?_of_fill h, fun hole hhole => ?_, fun name hname => ?_⟩
  · obtain ⟨span, hpiece⟩ := Tree.mem_holes_iff.1 hhole
    exact htakes _ hpiece
  · obtain ⟨span, hpiece⟩ := Tree.mem_idents_iff.1 hname
    exact htakes _ hpiece

theorem CanFill.exists_fill (h : cx.CanFill template bindings scope) :
    ∃ tree, cx.fill template bindings = .ok tree := by
  have hfault : (cx.filling bindings scope).firstFault? template.idents = none := by
    rw [Filling.firstFault?, List.findSome?_eq_none_iff]
    intro name hname
    obtain ⟨stamped, hstamp⟩ := h.stamps name hname
    rw [ScopedName.stampFault?, filling, hstamp]
  have houtcome := Filling.fill_outcome (f := cx.filling bindings scope) template h.binds h.splice?
  rw [hfault] at houtcome
  rw [fill, h.scope?]
  change ∃ tree, (cx.filling bindings scope).fill template = .ok tree
  generalize (cx.filling bindings scope).fill template = result at houtcome ⊢
  cases houtcome with
  | ok tree => exact ⟨tree, rfl⟩

theorem CanFill.pieces_eq (h : cx.CanFill template bindings scope) {tree : Tree}
    (hfill : cx.fill template bindings = .ok tree) :
    tree.pieces = template.pieces.flatMap (cx.filling bindings scope).piecesOf := by
  obtain ⟨scope', hscope', hfill⟩ := exists_fill_of_scope? hfill
  obtain rfl := Option.some.inj (h.scope?.symm.trans hscope')
  exact (Filling.filled_of_fill hfill).eq

/-- Exactly the templates that can be filled are filled, piece by piece. -/
theorem fill_gives (cx : Context) (template : Tree) (bindings : Bindings) :
    ((∃ tree, cx.fill template bindings = .ok tree) ↔
        ∃ scope, cx.CanFill template bindings scope) ∧
      ∀ scope, cx.CanFill template bindings scope → ∀ tree,
        (cx.fill template bindings = .ok tree ↔
          tree.pieces = template.pieces.flatMap (cx.filling bindings scope).piecesOf) ∧
        (cx.fill template bindings = .ok tree →
          tree.idents = template.pieces.flatMap (cx.filling bindings scope).identsOf) := by
  refine ⟨⟨?_, ?_⟩, fun scope hcan tree => ⟨⟨hcan.pieces_eq, ?_⟩, ?_⟩⟩
  · rintro ⟨tree, hfill⟩
    obtain ⟨scope, hscope, hfill⟩ := exists_fill_of_scope? hfill
    exact ⟨scope, canFill_of_fill hscope hfill⟩
  · rintro ⟨scope, hcan⟩
    exact hcan.exists_fill
  · intro hpieces
    obtain ⟨tree', hfill⟩ := hcan.exists_fill
    rw [hfill, Tree.pieces_injective ((hcan.pieces_eq hfill).trans hpieces.symm)]
  · intro hfill
    rw [← Tree.flatMap_idents_pieces, hcan.pieces_eq hfill, List.flatMap_assoc]
    simp only [Filling.flatMap_idents_piecesOf]

/-- A template that names the first of some trees and keeps the others, filled for an addition. -/
theorem fill_gives_sum :
    let template : Tree := .node "let" [.leaf (.ident "x") none, .leaf (.antiquot ⟨"a", .any⟩) none,
      .leaf (.atom "in") (some ⟨8, 10⟩), .node "sum" [.leaf (.splice ⟨"bs", .any⟩) none] none] none
    let bindings : Bindings :=
      [("a", .one (.leaf (.ident "y") none)),
        ("bs", .many [.leaf (.ident "z") (some ⟨4, 5⟩), .leaf (.atom "1") none])]
    let cx : Context := ⟨"Main", [7, 2], [.leaf (.atom "+") (some ⟨0, 6⟩)], 7⟩
    cx.CanFill template bindings 7 ∧
      ∃ tree, cx.fill template bindings = .ok tree ∧ tree.idents = ["x._@.Main._hyg.7", "y", "z"] ∧
        tree.pieces =
          [.enter "let" (some ⟨0, 6⟩), .ident "x._@.Main._hyg.7" (some ⟨0, 6⟩), .ident "y" none,
            .atom "in" (some ⟨8, 10⟩), .enter "sum" (some ⟨0, 6⟩), .ident "z" (some ⟨4, 5⟩),
            .atom "1" none, .leave, .leave] := by
  intro template bindings cx
  have hstamp : ScopedName.stamp "x" "Main" 7 = .ok "x._@.Main._hyg.7" := by cbv
  have hcan : cx.CanFill template bindings 7 := by
    refine ⟨rfl, rfl, ?_, ?_⟩
    · exact List.forall_mem_cons.2 ⟨⟨_, rfl, rfl⟩, List.forall_mem_singleton.2 ⟨_, rfl, rfl⟩⟩
    · exact List.forall_mem_singleton.2 ⟨_, hstamp⟩
  obtain ⟨hexists, hgives⟩ := fill_gives cx template bindings
  obtain ⟨tree, hfill⟩ := hexists.2 ⟨7, hcan⟩
  obtain ⟨hpieces, hidents⟩ := hgives 7 hcan tree
  refine ⟨hcan, tree, hfill, (hidents hfill).trans ?_, (hpieces.1 hfill).trans ?_⟩
  · cbv
  · cbv

end Context

end MacroExpansion
