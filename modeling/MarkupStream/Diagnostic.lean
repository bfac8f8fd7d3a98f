import MarkupStream.Position
import MarkupStream.Span

/-!
What can be wrong with a document. A fault is what scanning finds at an offset; a parse error ends
the reading and a warning does not, and both say where in lines and columns.
-/
namespace MarkupStream

/-- The kinds of construct that can be left unfinished. -/
inductive Construct where
  | openTag | closeTag | comment | cdata | doctype | xmlDeclaration | instruction
  | attributeValue | rawText
  deriving DecidableEq, Repr

def Construct.text : Construct → String
  | openTag => "open tag"
  | closeTag => "close tag"
  | comment => "comment"
  | cdata => "CDATA section"
  | doctype => "DOCTYPE"
  | xmlDeclaration => "XML declaration"
  | instruction => "processing instruction"
  | attributeValue => "attribute value"
  | rawText => "raw text element"

/-- What strict XML does not allow inside a tag. -/
inductive TagFlaw where
  | straySlash | missingSeparator | missingValue | lessThanInValue | unquotedValue | closeTagContent
  deriving DecidableEq, Repr

def TagFlaw.text : TagFlaw → String
  | straySlash => "unexpected '/' inside tag"
  | missingSeparator => "attributes must be preceded by whitespace"
  | missingValue => "attribute value required"
  | lessThanInValue => "'<' not allowed in attribute value"
  | unquotedValue => "attribute value must be quoted"
  | closeTagContent => "close tag cannot contain attributes"

/-- Why the bytes at a `<` are not a construct, with the offset to blame. -/
inductive Fault where
  | unterminated (construct : Construct) (offset : Nat)
  | invalidName (offset : Nat)
  | malformed (flaw : TagFlaw) (offset : Nat)
  | unseparatedContent (offset : Nat)
  | misplacedDeclaration (offset : Nat)
  deriving DecidableEq, Repr

/-- A fault found in a construct that is complete in itself leaves the parts of the last tag alone. -/
def Fault.keepsParts : Fault → Bool
  | .malformed .closeTagContent _ | .unseparatedContent _ | .misplacedDeclaration _ => true
  | _ => false

inductive ParseError where
  | unterminated (construct : Construct) (position : Position)
  | invalidName (position : Position)
  | malformed (flaw : TagFlaw) (position : Position)
  | duplicateAttribute (name : String) (position : Position)
  | misplacedDeclaration (position : Position)
  | unbalancedClose (name : String) (position : Position)
  | unclosedElements (names : List String) (position : Position)
  | inputTooLarge (length : Nat)
  | handler (message : String)
  | io (message : String)
  deriving DecidableEq, Repr

/-- The error that a fault amounts to once its offset is located. -/
def Fault.toError (locate : Nat → Position) : Fault → ParseError
  | .unterminated construct offset => .unterminated construct (locate offset)
  | .invalidName offset => .invalidName (locate offset)
  | .malformed flaw offset => .malformed flaw (locate offset)
  | .unseparatedContent offset => .invalidName (locate offset)
  | .misplacedDeclaration offset => .misplacedDeclaration (locate offset)

namespace ParseError

def position? : ParseError → Option Position
  | unterminated _ p | invalidName p | malformed _ p | duplicateAttribute _ p
  | misplacedDeclaration p | unbalancedClose _ p | unclosedElements _ p => some p
  | inputTooLarge _ | handler _ | io _ => none

def message : ParseError → String
  | unterminated construct p => "unterminated " ++ construct.text ++ " starting at " ++ p.text
  | invalidName p => "illegal character in name at " ++ p.text
  | malformed flaw p => "malformed attribute at " ++ p.text ++ ": " ++ flaw.text
  | duplicateAttribute name p => "duplicate attribute '" ++ name ++ "' at " ++ p.text
  | misplacedDeclaration p => "misplaced or malformed XML declaration at " ++ p.text
  | unbalancedClose name p =>
    "close tag '" ++ name ++ "' at " ++ p.text ++ " does not match the open element"
  | unclosedElements names p =>
    "document ended with unclosed elements [" ++ ", ".intercalate names ++ "] at " ++ p.text
  | inputTooLarge length =>
    "input of " ++ toString length ++ " bytes exceeds the " ++ toString Span.maxInputLength ++
      " byte limit"
  | handler message => "event handler failed: " ++ message
  | io message => "IO error: " ++ message

end ParseError

inductive WarningKind where
  | unmatchedClose | autoClosed | duplicateAttribute | unclosedAtEnd
  deriving DecidableEq, Repr

structure Warning where
  kind : WarningKind
  name : String
  position : Position
  deriving DecidableEq, Repr

def Warning.message (w : Warning) : String :=
  match w.kind with
  | .unmatchedClose => "unmatched close tag '" ++ w.name ++ "' at " ++ w.position.text
  | .autoClosed => "element '" ++ w.name ++ "' auto-closed at " ++ w.position.text
  | .duplicateAttribute => "duplicate attribute '" ++ w.name ++ "' at " ++ w.position.text
  | .unclosedAtEnd =>
    "element '" ++ w.name ++ "' still open at end of document (" ++ w.position.text ++ ")"

end MarkupStream
