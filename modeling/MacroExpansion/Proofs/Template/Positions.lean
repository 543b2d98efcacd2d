import MacroExpansion.Proofs.Result
import MacroExpansion.Proofs.Template.Alike
import MacroExpansion.Proofs.Template.Parts

/-!
# Positions in templates

A tree is placed if every part of it has a span.  A part of a template without a span takes the one
at which the template is used, and bound trees keep theirs.  So a filled template is placed wherever
the bound trees are, and if filling fails the report has a span (`fill_yields`).  All of these spans
come from the template, from the bound trees or from the place of use.  A report takes the place of
use by itself, so that giving it that place once more changes nothing (`orAt_of_fill`).
-/

namespace MacroExpansion

/-! ## Placed trees -/

/-- A span that is known, and has a property. -/
def Span.KnownIn (P : Span → Prop) (span : Option Span) : Prop := ∃ s, span = some s ∧ P s

variable {P : Span → Prop}

theorem Span.KnownIn.or {span other : Option Span} (hother : KnownIn P other)
    (h : ∀ s, span = some s → P s) : KnownIn P (span.or other) := by
  cases span with
  | none => exact hother
  | some s => exact ⟨s, rfl, h s rfl⟩

theorem Span.KnownIn.or_left {span : Option Span} (h : KnownIn P span) (other : Option Span) :
    KnownIn P (span.or other) := by
  obtain ⟨s, rfl, hs⟩ := h
  exact ⟨s, rfl, hs⟩

theorem Report.orAt_at?_or (span other : Option Span) (fault : Fault) :
    (at? (span.or other) fault).orAt other = at? (span.or other) fault := by
  cases span with
  | none => cases other <;> rfl
  | some => rfl

namespace Tree

/-- A span of one of the parts of a tree. -/
def HasSpan (tree : Tree) (span : Span) : Prop := ∃ part, IsPart part tree ∧ part.span = some span

/-- Every part of a tree has a span with a property. -/
def PlacedIn (P : Span → Prop) (tree : Tree) : Prop :=
  ∀ part, IsPart part tree → Span.KnownIn P part.span

/-- Every part of a tree has a span. -/
def Placed (tree : Tree) : Prop := tree.PlacedIn fun _ => True

theorem placedIn_iff {tree : Tree} :
    tree.PlacedIn P ↔ tree.Placed ∧ ∀ span, tree.HasSpan span → P span := by
  constructor
  · intro h
    refine ⟨fun part hpart => ?_, ?_⟩
    · obtain ⟨s, hs, -⟩ := h part hpart
      exact ⟨s, hs, trivial⟩
    · rintro span ⟨part, hpart, hspan⟩
      obtain ⟨s, hs, hP⟩ := h part hpart
      rw [hs] at hspan
      exact Option.some.inj hspan ▸ hP
  · rintro ⟨hplaced, hspans⟩ part hpart
    obtain ⟨s, hs, -⟩ := hplaced part hpart
    exact ⟨s, hs, hspans s ⟨part, hpart, hs⟩⟩

theorem PlacedIn.span {tree : Tree} (h : tree.PlacedIn P) : Span.KnownIn P tree.span :=
  h tree (.self tree)

theorem PlacedIn.isPart {part tree : Tree} (h : tree.PlacedIn P) (hpart : IsPart part tree) :
    part.PlacedIn P := by
  induction hpart with
  | self => exact h
  | child hchild _ ih => exact ih fun part hpart => h part (.child hchild hpart)

theorem placedIn_leaf {l : Leaf} {span : Option Span} (h : Span.KnownIn P span) :
    (leaf l span).PlacedIn P := by
  intro part hpart
  rw [isPart_leaf_iff.1 hpart]
  exact h

theorem placedIn_node {kind : String} {children : List Tree} {span : Option Span}
    (h : Span.KnownIn P span) (hchildren : ∀ child ∈ children, child.PlacedIn P) :
    (node kind children span).PlacedIn P := by
  intro part hpart
  rcases isPart_node_iff.1 hpart with rfl | ⟨child, hchild, hpart⟩
  · exact h
  · exact hchildren child hchild part hpart

theorem hasSpan_self {tree : Tree} {span : Span} (h : tree.span = some span) :
    tree.HasSpan span :=
  ⟨tree, .self tree, h⟩

theorem HasSpan.node {kind : String} {children : List Tree} {span : Option Span} {child : Tree}
    {s : Span} (hchild : child ∈ children) (h : child.HasSpan s) :
    (node kind children span).HasSpan s := by
  obtain ⟨part, hpart, hspan⟩ := h
  exact ⟨part, .child hchild hpart, hspan⟩

end Tree

/-! ## Filling -/

namespace Filling

/-- The bound trees of a filling are placed, and so is its place of use. -/
structure Places (P : Span → Prop) (f : Filling) : Prop where
  bindings : ∀ tree ∈ f.bindings.trees, tree.PlacedIn P
  span : Span.KnownIn P f.span

variable {f : Filling}

theorem Places.single (h : f.Places P) (hole : Hole) (span : Option Span)
    (hspan : ∀ s, span = some s → P s) :
    Yields (fun report => Span.KnownIn P report.span) (Tree.PlacedIn P) (f.single hole span) := by
  rw [Filling.single]
  split
  case h_1 hlookup =>
    exact .ok (h.bindings _ (Bindings.mem_trees_of_lookup hlookup List.mem_cons_self))
  case h_2 => exact .error (h.span.or hspan)
  case h_3 => exact .error (h.span.or hspan)

theorem Places.sequence (h : f.Places P) (hole : Hole) (span : Option Span)
    (hspan : ∀ s, span = some s → P s) :
    Yields (fun report => Span.KnownIn P report.span)
      (fun trees => ∀ tree ∈ trees, tree.PlacedIn P) (f.sequence hole span) := by
  rw [Filling.sequence]
  split
  case h_1 hlookup =>
    exact .ok fun tree htree => h.bindings tree (Bindings.mem_trees_of_lookup hlookup htree)
  case h_2 => exact .error (h.span.or hspan)
  case h_3 => exact .error (h.span.or hspan)

theorem Places.ident (h : f.Places P) (name : String) (span : Option Span)
    (hspan : ∀ s, span = some s → P s) :
    Yields (fun report => Span.KnownIn P report.span) (Tree.PlacedIn P) (f.ident name span) := by
  rw [Filling.ident]
  split
  case h_1 => exact .ok (Tree.placedIn_leaf (h.span.or hspan))
  case h_2 => exact .error (h.span.or hspan)

mutual

theorem fill_yields (h : f.Places P) (template : Tree)
    (hspans : ∀ span, template.HasSpan span → P span) :
    Yields (fun report => Span.KnownIn P report.span) (Tree.PlacedIn P) (f.fill template) := by
  have hspan (s : Span) (hs : template.span = some s) : P s := hspans s (Tree.hasSpan_self hs)
  match template with
  | .leaf (.antiquot hole) span => exact h.single hole span hspan
  | .leaf (.splice hole) span => exact .error (h.span.or hspan)
  | .leaf (.ident name) span => exact h.ident name span hspan
  | .leaf (.atom text) span => exact .ok (Tree.placedIn_leaf (h.span.or hspan))
  | .node kind children span =>
    have hchildren := fillList_yields h children fun child hchild s hs => hspans s (hs.node hchild)
    rw [fill]
    generalize f.fillList children = filled at hchildren ⊢
    cases hchildren with
    | ok htrees => exact .ok (Tree.placedIn_node (h.span.or hspan) htrees)
    | error hreport => exact .error hreport

theorem fillList_yields (h : f.Places P) (templates : List Tree)
    (hspans : ∀ template ∈ templates, ∀ span, template.HasSpan span → P span) :
    Yields (fun report => Span.KnownIn P report.span)
      (fun trees => ∀ tree ∈ trees, tree.PlacedIn P) (f.fillList templates) := by
  match templates with
  | [] => exact .ok fun _ htree => absurd htree List.not_mem_nil
  | template :: rest =>
    obtain ⟨hfirst, hothers⟩ := List.forall_mem_cons.1 hspans
    have hrest := fillList_yields h rest hothers
    by_cases hsplice : ∃ hole span, template = .leaf (.splice hole) span
    · obtain ⟨hole, span, rfl⟩ := hsplice
      have hrun := h.sequence hole span fun s hs => hfirst s (Tree.hasSpan_self hs)
      rw [fillList]
      generalize f.sequence hole span = run at hrun ⊢
      generalize f.fillList rest = filled at hrest ⊢
      cases hrun with
      | error hreport => exact .error hreport
      | ok hrun =>
        cases hrest with
        | error hreport => exact .error hreport
        | ok hfilled => exact .ok (List.forall_mem_append.2 ⟨hrun, hfilled⟩)
    · have htree := fill_yields h template hfirst
      rw [fillList_cons hsplice]
      generalize f.fill template = tree at htree ⊢
      generalize f.fillList rest = filled at hrest ⊢
      cases htree with
      | error hreport => exact .error hreport
      | ok htree =>
        cases hrest with
        | error hreport => exact .error hreport
        | ok hfilled => exact .ok (List.forall_mem_cons.2 ⟨htree, hfilled⟩)

end

/-! ## Places of reports -/

theorem orAt_complain (f : Filling) (span : Option Span) (fault : TemplateFault) :
    (f.complain span fault).orAt f.span = f.complain span fault := by
  rw [complain, Report.orAt_at?_or]

variable {report : Report}

theorem orAt_of_single {hole : Hole} {span : Option Span} (h : f.single hole span = .error report) :
    report.orAt f.span = report := by
  rw [Filling.single] at h
  split at h
  case h_1 => cases h
  case h_2 =>
    cases h
    exact f.orAt_complain span _
  case h_3 =>
    cases h
    exact f.orAt_complain span _

theorem orAt_of_sequence {hole : Hole} {span : Option Span}
    (h : f.sequence hole span = .error report) : report.orAt f.span = report := by
  rw [Filling.sequence] at h
  split at h
  case h_1 => cases h
  case h_2 =>
    cases h
    exact f.orAt_complain span _
  case h_3 =>
    cases h
    exact f.orAt_complain span _

theorem orAt_of_ident {name : String} {span : Option Span} (h : f.ident name span = .error report) :
    report.orAt f.span = report := by
  rw [Filling.ident] at h
  split at h
  case h_1 => cases h
  case h_2 =>
    cases h
    exact Report.orAt_at?_or _ _ _

mutual

/-- A template that cannot be filled is reported at its own span, or else at the place of use. -/
theorem orAt_of_fill {template : Tree} (h : f.fill template = .error report) :
    report.orAt f.span = report := by
  unfold fill at h
  split at h
  case h_1 => exact orAt_of_single h
  case h_2 =>
    cases h
    exact f.orAt_complain _ _
  case h_3 => exact orAt_of_ident h
  case h_4 => cases h
  case h_5 kind children span =>
    split at h
    case h_1 => cases h
    case h_2 e hchildren =>
      cases h
      exact orAt_of_fillList hchildren

theorem orAt_of_fillList {templates : List Tree} (h : f.fillList templates = .error report) :
    report.orAt f.span = report := by
  unfold fillList at h
  split at h
  case h_1 => cases h
  case h_2 hole span rest =>
    split at h
    case h_1 e hrun =>
      cases h
      exact orAt_of_sequence hrun
    case h_2 =>
      split at h
      case h_1 => cases h
      case h_2 e hrest =>
        cases h
        exact orAt_of_fillList hrest
  case h_3 template rest _ =>
    split at h
    case h_1 e htemplate =>
      cases h
      exact orAt_of_fill htemplate
    case h_2 =>
      split at h
      case h_1 => cases h
      case h_2 e hrest =>
        cases h
        exact orAt_of_fillList hrest

end

end Filling

end MacroExpansion
