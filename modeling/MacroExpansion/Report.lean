import MacroExpansion.Fault

/-!
# Reports

A report is a fault together with where it was found and what helps to understand it.
-/

namespace MacroExpansion

/-- A named text that spans refer to. -/
structure Source where
  name : String
  text : String
  deriving DecidableEq, Repr

/-- A remark at a span. -/
structure Remark where
  span : Span
  text : String
  deriving DecidableEq, Repr

/-- A fault, with its place and what was added to it. -/
structure Report where
  fault : Fault
  span : Option Span
  help : Option String
  related : List Remark
  source : Option Source
  deriving DecidableEq, Repr

/-- A piece of source to point at: an offset, a length of at least one byte, and a remark. -/
structure Label where
  offset : Nat
  length : Nat
  text : String
  deriving DecidableEq, Repr

namespace Remark

/-- Where to point for a remark. -/
def label (r : Remark) : Label := ⟨r.span.start.toNat, max r.span.length 1, r.text⟩

end Remark

namespace Report

/-- A fault at a place, if one is known. -/
def at? (span : Option Span) (fault : Fault) : Report := ⟨fault, span, none, [], none⟩

/-- A fault without a place. -/
def of (fault : Fault) : Report := at? none fault

/-- Gives a report a place, unless it has one. -/
def orAt (r : Report) (span : Option Span) : Report := { r with span := r.span.or span }

def withHelp (r : Report) (help : String) : Report := { r with help := some help }

def withRemark (r : Report) (span : Span) (text : String) : Report :=
  { r with related := r.related ++ [⟨span, text⟩] }

def withSource (r : Report) (source : Source) : Report := { r with source := some source }

def message (r : Report) : String := r.fault.message

def code (r : Report) : String := r.fault.topic.code

/-- The pieces of source to point at: the place of the fault first. -/
def labels (r : Report) : List Label :=
  (r.span.map fun span => Remark.label ⟨span, r.message⟩).toList ++ r.related.map Remark.label

def isRecursionLimit (r : Report) : Bool := r.fault.topic == .recursionLimit

end Report

end MacroExpansion
