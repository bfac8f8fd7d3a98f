import MarkupStream.Span

/-!
Tags and what stands inside them, as spans of the document. Between the name of an open tag and its
end every byte belongs to exactly one part.
-/
namespace MarkupStream

/-- What follows the name of an attribute: the `=` with the whitespace around it, the value with its
quotes and the value without. -/
structure Assignment where
  operator : Span
  outer : Span
  value : Span
  deriving DecidableEq, Repr

structure Attribute where
  name : Span
  assigned : Option Assignment
  deriving DecidableEq, Repr

/-- From the name to the end of the value. -/
def Attribute.span (a : Attribute) : Span :=
  match a.assigned with
  | some s => ⟨a.name.start, s.outer.stop⟩
  | none => a.name

/-- The bytes of the value; an attribute without one has the empty value. -/
def Attribute.valueBytes (a : Attribute) (input : Bytes) : Bytes :=
  match a.assigned with
  | some s => s.value.slice input
  | none => []

/-- An attribute, or whitespace between attributes, where HTML counts a stray slash as such. -/
inductive TagPart where
  | attr (a : Attribute)
  | whitespace (span : Span)
  deriving DecidableEq, Repr

def TagPart.span : TagPart → Span
  | .attr a => a.span
  | .whitespace span => span

def TagPart.attribute? : TagPart → Option Attribute
  | .attr a => some a
  | .whitespace _ => none

def attributesOf (parts : List TagPart) : List Attribute := parts.filterMap TagPart.attribute?

/-- The first attribute of a given name. -/
def findAttribute? (parts : List TagPart) (input name : Bytes) (ignoreCase : Bool) :
    Option Attribute :=
  (attributesOf parts).find? fun a => Bytes.sameName ignoreCase (a.name.slice input) name

/-- The first name that equals an earlier one, given how names are read and those already met. -/
def firstRepeated? (text : Span → Bytes) (ignoreCase : Bool) (seen : List Bytes) :
    List Attribute → Option Span
  | [] => none
  | a :: rest =>
    let name := text a.name
    if seen.any (Bytes.sameName ignoreCase · name) then some a.name
    else firstRepeated? text ignoreCase (name :: seen) rest

/-- The name of the first attribute that repeats an earlier one of the same tag. -/
def duplicateName? (parts : List TagPart) (input : Bytes) (ignoreCase : Bool) : Option Span :=
  firstRepeated? (Span.slice · input) ignoreCase [] (attributesOf parts)

/-- An open tag: `start` is the `<` with the name, `close` the `>` or the `/>`. -/
structure OpenTag where
  start : Span
  name : Span
  parts : List TagPart
  close : Span
  selfClosing : Bool
  deriving DecidableEq, Repr

/-- A close tag: `start` is the `</` with the name, `close` the `>`. -/
structure CloseTag where
  start : Span
  name : Span
  whitespace : Option Span
  close : Span
  deriving DecidableEq, Repr

end MarkupStream
