import MarkupStream.Diagnostic
import MarkupStream.Element.Catalog
import MarkupStream.Event
import MarkupStream.Options
import MarkupStream.Utf8

/-!
The nesting of elements. Tokens become events against the stack of open elements: a close tag ends
the innermost element, or some outer one with the elements inside it closed by implication, or
nothing, as the policy has it. In HTML the element catalog adds void elements, raw text and implied
closes of siblings.
-/
namespace MarkupStream

/-- An open element, by the span and the bytes of its name. -/
structure Frame where
  span : Span
  name : Bytes
  deriving DecidableEq, Repr

/-- The open elements, innermost first, and the greatest depth so far. -/
structure Nesting where
  input : Bytes
  dialect : Dialect
  policy : Policy
  stack : List Frame
  maxDepth : Nat
  deriving Repr

namespace Nesting

/-- What a token comes to: the nesting after it, its events and warnings, and the name of a raw text
element that it opens. -/
structure Step where
  nesting : Nesting
  events : List Event
  warnings : List Warning
  rawText : Option Span
  deriving Repr

def ofInput (input : Bytes) (dialect : Dialect) (policy : Policy) : Nesting :=
  ⟨input, dialect, policy, [], 0⟩

def depth (n : Nesting) : Nat := n.stack.length

/-- The open elements, outermost first, each with the index of the one around it. -/
def links (n : Nesting) : List (Span × Option Nat) :=
  n.stack.reverse.zipIdx.map fun (frame, i) => (frame.span, if i == 0 then none else some (i - 1))

/-- XML has no catalog: to it all elements are alike. -/
def spec? (n : Nesting) (name : Bytes) : Option ElementSpec :=
  match n.dialect with
  | .xml => none
  | .html => Catalog.html.lookup name

/-- The events of an implied close at an offset. -/
def autoCloseEvents (offset : Nat) (frames : List Frame) : List Event :=
  frames.flatMap fun frame =>
    [.element .autoCloseStart (Span.empty offset) frame.span,
      .element .autoCloseEnd (Span.empty offset) frame.span]

/-- How many elements a sibling rule closes: up to the outermost one that it names below its first
limit. -/
def siblingCount (rule : SiblingRule) : List Frame → Nat
  | [] => 0
  | frame :: outer =>
    if rule.isLimit frame.name then 0
    else
      match siblingCount rule outer with
      | 0 => if rule.closesName frame.name then 1 else 0
      | count + 1 => count + 2

/-- How many elements an open tag closes. Only automatic closing knows implied closes. -/
def impliedCount (n : Nesting) (spec : Option ElementSpec) : Nat :=
  match spec.bind (·.sibling), n.policy with
  | some rule, .autoClose => siblingCount rule n.stack
  | _, _ => 0

def openElement (n : Nesting) (tag : OpenTag) : Step :=
  let name := tag.name.slice n.input
  let spec := n.spec? name
  let count := n.impliedCount spec
  let implied := autoCloseEvents tag.start.start (n.stack.take count)
  let outer := n.stack.drop count
  let parts := tag.parts.map Event.ofPart
  let maxDepth := max n.maxDepth (outer.length + 1)
  if tag.selfClosing || spec.any (·.void) then
    ⟨{ n with stack := outer, maxDepth },
      implied ++ .element .standaloneStart tag.start tag.name ::
        (parts ++ [.element (.standaloneEnd tag.selfClosing) tag.close tag.name]),
      [], none⟩
  else
    ⟨{ n with stack := ⟨tag.name, name⟩ :: outer, maxDepth },
      implied ++ .element .openStart tag.start tag.name ::
        (parts ++ [.element .openEnd tag.close tag.name]),
      [], if spec.any (·.rawText) then some tag.name else none⟩

/-- The events of a close tag between the given edges. -/
def closeEvents (tag : CloseTag) (first last : ElementEdge) : List Event :=
  .element first tag.start tag.name ::
    (tag.whitespace.toList.map Event.innerWhitespace ++ [.element last tag.close tag.name])

/-- A warning about each of the frames, all at one position. -/
def frameWarnings (kind : WarningKind) (position : Position) (frames : List Frame) : List Warning :=
  frames.map fun frame => ⟨kind, Utf8.decodeLossy frame.name, position⟩

/-- Closes the element that has `count` others open inside it. -/
def closeMatched (n : Nesting) (locate : Nat → Position) (tag : CloseTag) (count : Nat) : Step :=
  let inner := n.stack.take count
  let offset := tag.start.start
  ⟨{ n with stack := n.stack.drop (count + 1) },
    autoCloseEvents offset inner ++ closeEvents tag .closeStart .closeEnd,
    if n.dialect.isStrict then frameWarnings .autoClosed (locate offset) inner else [], none⟩

def closeUnmatched (n : Nesting) (locate : Nat → Position) (tag : CloseTag) : Step :=
  let name := Utf8.decodeLossy (tag.name.slice n.input)
  ⟨n, closeEvents tag .unmatchedStart .unmatchedEnd,
    [⟨.unmatchedClose, name, locate tag.start.start⟩], none⟩

/-- The number of elements inside the innermost one of a name. -/
def innerCount? (n : Nesting) (name : Bytes) : Option Nat :=
  n.stack.findIdx? fun frame => Bytes.sameName n.dialect.ignoresCase frame.name name

def closeElement (n : Nesting) (locate : Nat → Position) (tag : CloseTag) :
    Except ParseError Step :=
  let name := tag.name.slice n.input
  match n.innerCount? name, n.policy with
  | some 0, _ => .ok (n.closeMatched locate tag 0)
  | some count, .autoClose => .ok (n.closeMatched locate tag count)
  | _, .requireBalanced =>
    .error (.unbalancedClose (Utf8.decodeLossy name) (locate tag.start.start))
  | _, _ => .ok (n.closeUnmatched locate tag)

/-- The events of a token; `locate` gives the positions that a diagnostic needs. -/
def accept (n : Nesting) (locate : Nat → Position) : Token → Except ParseError Step
  | .text span => .ok ⟨n, [.text span], [], none⟩
  | .comment span content => .ok ⟨n, [.comment span content], [], none⟩
  | .cdata span content => .ok ⟨n, [.cdata span content], [], none⟩
  | .doctype d => .ok ⟨n, [.doctype d], [], none⟩
  | .xmlDeclaration d => .ok ⟨n, [.xmlDeclaration d], [], none⟩
  | .instruction span target content => .ok ⟨n, [.instruction span target content], [], none⟩
  | .openTag tag => .ok (n.openElement tag)
  | .closeTag tag => n.closeElement locate tag

/-- What becomes of the elements that are still open at the end of the document. -/
def finish (n : Nesting) (locate : Nat → Position) : Except ParseError Step :=
  let length := n.input.length
  match n.stack, n.policy with
  | [], _ => .ok ⟨n, [], [], none⟩
  | _, .noBalancing => .ok ⟨n, [], [], none⟩
  | _, .requireBalanced =>
    .error (.unclosedElements (n.stack.reverse.map (Utf8.decodeLossy ·.name)) (locate length))
  | _, .autoClose =>
    .ok ⟨{ n with stack := [] }, autoCloseEvents length n.stack,
      if n.dialect.isStrict then frameWarnings .unclosedAtEnd (locate length) n.stack else [], none⟩

end Nesting

end MarkupStream
