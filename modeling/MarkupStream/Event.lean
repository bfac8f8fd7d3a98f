import MarkupStream.Token

/-!
The events that a document is delivered as. The span of an event covers exactly the source text that
it stands for; the two ends of the document and of an implied close cover none.
-/
namespace MarkupStream

/-- The edges of the tags of an element. An open tag has parts between its start and its end; a
standalone element has no content, and `minimized` tells `/>` from `>`; an implied close has no
source of its own; an unmatched close has no element. -/
inductive ElementEdge where
  | openStart | openEnd
  | standaloneStart | standaloneEnd (minimized : Bool)
  | closeStart | closeEnd
  | autoCloseStart | autoCloseEnd
  | unmatchedStart | unmatchedEnd
  deriving DecidableEq, Repr

inductive Event where
  | documentStart
  | documentEnd (length : Nat)
  | element (edge : ElementEdge) (span name : Span)
  | attr (a : Attribute)
  | innerWhitespace (span : Span)
  | text (span : Span)
  | comment (span content : Span)
  | cdata (span content : Span)
  | doctype (doctype : Doctype)
  | xmlDeclaration (declaration : XmlDeclaration)
  | instruction (span target : Span) (content : Option Span)
  deriving DecidableEq, Repr

/-- The kinds of node that are not elements. -/
inductive NodeKind where
  | text | comment | cdata | doctype | xmlDeclaration | instruction
  deriving DecidableEq, Repr

namespace ElementEdge

/-- The element is open from this edge on. -/
def isStart : ElementEdge → Bool
  | openStart | standaloneStart => true
  | _ => false

/-- The element is closed after this edge. -/
def isEnd : ElementEdge → Bool
  | closeEnd | autoCloseEnd | standaloneEnd _ => true
  | _ => false

end ElementEdge

namespace Event

def span : Event → Span
  | documentStart => Span.empty 0
  | documentEnd length => Span.empty length
  | element _ span _ | innerWhitespace span | text span | comment span _ | cdata span _
  | instruction span _ _ => span
  | attr a => a.span
  | doctype d => d.span
  | xmlDeclaration d => d.span

def isElementStart : Event → Bool
  | element edge _ _ => edge.isStart
  | _ => false

def isElementEnd : Event → Bool
  | element edge _ _ => edge.isEnd
  | _ => false

/-- The kind of an event that is a node of its own and not part of a tag. -/
def nodeKind? : Event → Option NodeKind
  | text _ => some .text
  | comment _ _ => some .comment
  | cdata _ _ => some .cdata
  | doctype _ => some .doctype
  | xmlDeclaration _ => some .xmlDeclaration
  | instruction _ _ _ => some .instruction
  | _ => none

def isNode (event : Event) : Bool := event.nodeKind?.isSome

def ofPart : TagPart → Event
  | .attr a => attr a
  | .whitespace span => innerWhitespace span

@[simp] theorem span_ofPart (part : TagPart) : (ofPart part).span = part.span := by
  cases part <;> rfl

end Event

end MarkupStream
