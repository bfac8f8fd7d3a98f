import MarkupStream.Tag

/-!
The constructs that a document is a sequence of. A token holds spans only; the spans of the tokens of
a document, in order, tile it.
-/
namespace MarkupStream

/-- The keyword is `DOCTYPE` as written, the kind `PUBLIC` or `SYSTEM` as written; the subset stands
between the brackets. -/
structure Doctype where
  span : Span
  keyword : Span
  root : Option Span
  kind : Option Span
  publicId : Option Span
  systemId : Option Span
  internalSubset : Option Span
  deriving DecidableEq, Repr

structure XmlDeclaration where
  span : Span
  keyword : Span
  version : Option Span
  encoding : Option Span
  standalone : Option Span
  deriving DecidableEq, Repr

inductive Token where
  | text (span : Span)
  | comment (span content : Span)
  | cdata (span content : Span)
  | doctype (doctype : Doctype)
  | xmlDeclaration (declaration : XmlDeclaration)
  | instruction (span target : Span) (content : Option Span)
  | openTag (tag : OpenTag)
  | closeTag (tag : CloseTag)
  deriving DecidableEq, Repr

def OpenTag.span (tag : OpenTag) : Span := tag.start.join tag.close

def CloseTag.span (tag : CloseTag) : Span := tag.start.join tag.close

namespace Token

def span : Token → Span
  | text span | comment span _ | cdata span _ | instruction span _ _ => span
  | doctype d => d.span
  | xmlDeclaration d => d.span
  | openTag tag => tag.span
  | closeTag tag => tag.span

@[simp] theorem span_text (s : Span) : (text s).span = s := rfl
@[simp] theorem span_comment (s content : Span) : (comment s content).span = s := rfl
@[simp] theorem span_cdata (s content : Span) : (cdata s content).span = s := rfl
@[simp] theorem span_instruction (s target : Span) (content : Option Span) :
    (instruction s target content).span = s := rfl
@[simp] theorem span_doctype (d : Doctype) : (doctype d).span = d.span := rfl
@[simp] theorem span_xmlDeclaration (d : XmlDeclaration) : (xmlDeclaration d).span = d.span := rfl
@[simp] theorem span_openTag (tag : OpenTag) : (openTag tag).span = tag.span := rfl
@[simp] theorem span_closeTag (tag : CloseTag) : (closeTag tag).span = tag.span := rfl

end Token

end MarkupStream
