import MarkupStream.Repetition
import MarkupStream.Token.Scan

/-!
Tokens as they are held, each of their spans in words. Most of a token is read from the document where the
reader stands. The target of an instruction and the names in a declaration, though, are looked up again by
the spans that are held, so when a document is too long they may be found anywhere in it.
-/
namespace MarkupStream

section MapSpans

variable (f : Span → Span)

def Assignment.mapSpans (s : Assignment) : Assignment := ⟨f s.operator, f s.outer, f s.value⟩

def Attribute.mapSpans (a : Attribute) : Attribute := ⟨f a.name, a.assigned.map (Assignment.mapSpans f)⟩

def TagPart.mapSpans : TagPart → TagPart
  | .attr a => .attr (a.mapSpans f)
  | .whitespace span => .whitespace (f span)

def OpenTag.mapSpans (tag : OpenTag) : OpenTag :=
  ⟨f tag.start, f tag.name, tag.parts.map (TagPart.mapSpans f), f tag.close, tag.selfClosing⟩

def CloseTag.mapSpans (tag : CloseTag) : CloseTag :=
  ⟨f tag.start, f tag.name, tag.whitespace.map f, f tag.close⟩

def Doctype.mapSpans (d : Doctype) : Doctype :=
  ⟨f d.span, f d.keyword, d.root.map f, d.kind.map f, d.publicId.map f, d.systemId.map f,
    d.internalSubset.map f⟩

def XmlDeclaration.mapSpans (d : XmlDeclaration) : XmlDeclaration :=
  ⟨f d.span, f d.keyword, d.version.map f, d.encoding.map f, d.standalone.map f⟩

/-- The token with each of the spans that it holds replaced. -/
def Token.mapSpans : Token → Token
  | text span => text (f span)
  | comment span content => comment (f span) (f content)
  | cdata span content => cdata (f span) (f content)
  | doctype d => doctype (d.mapSpans f)
  | xmlDeclaration d => xmlDeclaration (d.mapSpans f)
  | instruction span target content => instruction (f span) (f target) (content.map f)
  | openTag tag => openTag (tag.mapSpans f)
  | closeTag tag => closeTag (tag.mapSpans f)

end MapSpans

def OpenTag.inWords (tag : OpenTag) : OpenTag := tag.mapSpans Span.inWords

/-- What becomes of a token that is held in words. -/
def Token.inWords (token : Token) : Token := token.mapSpans Span.inWords

namespace Token

open Byte

/-- The pseudo-attributes from a cursor on, with the names that the words for them name. -/
def readPseudoAttributesInWords (doc : Repetition) (c : Cursor) : List (Bytes × Span) × Bool :=
  if c.skipWhitespace.rest.isEmpty then ([], true)
  else
    match _h : readPseudoAttribute? c with
    | none => ([], false)
    | some (name, value, next) =>
      let held := (Span.ofLength c.skipWhitespace.offset name.length).inWords
      let (found, complete) := readPseudoAttributesInWords doc next
      ((doc.slice held, value) :: found, complete)
termination_by c.rest.length
decreasing_by exact length_readPseudoAttribute_lt _h

/-- The pseudo-attributes between two offsets of a document. Bytes that do not begin with whitespace hold
none, however many they are. -/
def readBodyInWords (doc : Repetition) (start stop : Nat) : List (Bytes × Span) × Bool :=
  let body := doc.between start stop
  match body.head? with
  | none => ([], true)
  | some b =>
    if isWhitespace b then readPseudoAttributesInWords doc ⟨start, body.bytes⟩ else ([], false)

/-- A processing instruction, or the XML declaration when the words for its target name an `xml`. Its
pseudo-attributes are read from where these words end. -/
def readInstructionInWords (dialect : Dialect) (doc : Repetition) (c : Cursor) :
    Except Refusal (Token × Cursor) :=
  let target := c.advance 2
  match target.afterName? with
  | none => target.refuse (.invalidName target.offset)
  | some named =>
    let held := (target.upTo named).inWords
    let isDeclaration := Bytes.sameName dialect.ignoresCase (doc.slice held) (Bytes.ofString "xml")
    readBehindTarget dialect c named isDeclaration fun stop =>
      let (found, complete) := readBodyInWords doc held.stop stop.offset
      makeDeclaration dialect c named stop found complete

/-- The construct at a `<`, with what the words for its spans are looked up for. -/
def readMarkupInWords (dialect : Dialect) (doc : Repetition) (c : Cursor) :
    Except Refusal (Token × Cursor) :=
  if c.startsWith (Bytes.ofString "<?") then readInstructionInWords dialect doc c
  else readMarkup dialect c

theorem length_readMarkupInWords_lt {dialect : Dialect} {doc : Repetition} {c next : Cursor} {token : Token}
    (hc : c.rest ≠ []) (h : readMarkupInWords dialect doc c = .ok (token, next)) :
    next.rest.length < c.rest.length := by
  rw [readMarkupInWords] at h
  split at h
  · rw [readInstructionInWords] at h
    split at h
    · cases h
    · rename_i named hnamed
      exact length_readBehindTarget_lt hc hnamed (fun stop hmade => (makeDeclaration_eq_ok hmade).2.1) h
  · exact length_readMarkup_lt hc h

end Token

end MarkupStream
