import MarkupStream.Event
import MarkupStream.Selector.Predicate

/-!
Paths as they are written: steps down the tree, each with a test on the node, conditions on its
attributes and at most one position among its siblings.
-/
namespace MarkupStream.Selector

/-- Where a step goes from the one before it: to children or to all descendants. -/
inductive Axis where
  | child | descendant
  deriving DecidableEq, Repr

def Axis.text : Axis → String
  | child => "/"
  | descendant => "//"

/-- Nodes that are not elements, by kind, or every child node, elements included. -/
inductive PseudoNode where
  | ofKind (kind : NodeKind)
  | content
  deriving DecidableEq, Repr

namespace PseudoNode

def name : PseudoNode → String
  | ofKind .text => "text"
  | ofKind .comment => "comment"
  | ofKind .cdata => "cdata"
  | ofKind .doctype => "doctype"
  | ofKind .xmlDeclaration => "xmldecl"
  | ofKind .instruction => "procinstr"
  | content => "content"

def all : List PseudoNode :=
  [ofKind .text, ofKind .comment, ofKind .cdata, ofKind .doctype, ofKind .xmlDeclaration,
    ofKind .instruction, content]

def ofName? (name : String) : Option PseudoNode := all.find? (·.name == name)

def text (p : PseudoNode) : String := p.name ++ "()"

@[simp] theorem ofName_name (p : PseudoNode) : ofName? p.name = some p := by
  rcases p with (_ | _) | _ <;> rfl

end PseudoNode

inductive NodeTest where
  | any
  | named (name : String)
  | pseudo (p : PseudoNode)
  deriving DecidableEq, Repr

namespace NodeTest

def text : NodeTest → String
  | any => "*"
  | named name => name
  | pseudo p => p.text

def isPseudo : NodeTest → Bool
  | pseudo _ => true
  | _ => false

end NodeTest

/-- A condition on the position among the siblings that pass the same test, counted from one. -/
inductive PositionFilter where
  | nth (n : Nat)
  | even
  | odd
  deriving DecidableEq, Repr

namespace PositionFilter

/-- The greatest position that a selector can name. -/
def greatest : Nat := 4294967295

def accepts (filter : PositionFilter) (position : Nat) : Bool :=
  match filter with
  | nth n => position == n
  | even => position % 2 == 0
  | odd => position % 2 == 1

def text : PositionFilter → String
  | nth n => "[" ++ toString n ++ "]"
  | even => "[even()]"
  | odd => "[odd()]"

end PositionFilter

/-- A predicate, or a reference to a fragment with the offset of its sign. -/
inductive Condition where
  | predicate (p : Predicate)
  | reference (name : String) (offset : Nat)
  deriving DecidableEq, Repr

/-- A step as written, with the offset where it begins. -/
structure StepExpr where
  axis : Axis
  node : NodeTest
  conditions : List Condition
  filter : Option PositionFilter
  offset : Nat
  deriving DecidableEq, Repr

abbrev PathExpr := List StepExpr

end MarkupStream.Selector
