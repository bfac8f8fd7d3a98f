import Mathlib.Data.List.Chain
import MarkupStream.Token

/-!
Documents as they are written down: constructs that hold their names and contents as bytes, the source
text of each, and the construct that a token stands for in the document it was read from.
-/
namespace MarkupStream

open Byte

namespace Bytes

/-- A byte that a name may start with, and then bytes that it may go on with. -/
def isWellFormedName : Bytes → Bool
  | [] => false
  | b :: rest => isNameStart b && rest.all isName

/-- A space, and a literal between double quotes. -/
def quoted (literal : Bytes) : Bytes := [0x20] ++ ([0x22] ++ (literal ++ [0x22]))

end Bytes

/-- An attribute with its value between two quotes. -/
structure WrittenAttribute where
  name : Bytes
  quote : UInt8
  value : Bytes
  deriving DecidableEq, Repr

namespace WrittenAttribute

def source (a : WrittenAttribute) : Bytes :=
  [0x20] ++ (a.name ++ ([equals] ++ ([a.quote] ++ (a.value ++ [a.quote]))))

/-- The value holds neither the quote around it nor a `<`. -/
structure Valid (a : WrittenAttribute) : Prop where
  name : a.name.isWellFormedName
  quote : isQuote a.quote
  notQuote : a.quote ∉ a.value
  notLessThan : lessThan ∉ a.value

instance (a : WrittenAttribute) : Decidable a.Valid :=
  decidable_of_iff (a.name.isWellFormedName ∧ isQuote a.quote ∧ a.quote ∉ a.value ∧
    lessThan ∉ a.value) ⟨fun h => ⟨h.1, h.2.1, h.2.2.1, h.2.2.2⟩,
      fun h => ⟨h.name, h.quote, h.notQuote, h.notLessThan⟩⟩

/-- An attribute that was read, if it has a value. -/
def ofAttribute? (input : Bytes) (a : Attribute) : Option WrittenAttribute :=
  a.assigned.bind fun s => (s.outer.slice input).head?.map fun quote =>
    ⟨a.name.slice input, quote, s.value.slice input⟩

end WrittenAttribute

/-- The literals that a DOCTYPE names what lies outside the document by. -/
inductive ExternalId where
  | published (publicId systemId : Bytes)
  | system (systemId : Bytes)
  deriving DecidableEq, Repr

namespace ExternalId

def source : ExternalId → Bytes
  | published publicId systemId =>
    [0x20] ++ (Bytes.ofString "PUBLIC" ++ (publicId.quoted ++ systemId.quoted))
  | system systemId => [0x20] ++ (Bytes.ofString "SYSTEM" ++ systemId.quoted)

def literals : ExternalId → List Bytes
  | published publicId systemId => [publicId, systemId]
  | system systemId => [systemId]

/-- The identifier made of a keyword and the literals after it. -/
def ofLiterals? (kind : Bytes) : Option Bytes → Option Bytes → Option ExternalId
  | some publicId, some systemId =>
    if kind = Bytes.ofString "PUBLIC" then some (published publicId systemId) else none
  | none, some systemId => if kind = Bytes.ofString "SYSTEM" then some (system systemId) else none
  | _, none => none

end ExternalId

/-- A construct of a document, with everything that it says. -/
inductive Markup where
  | text (content : Bytes)
  | comment (content : Bytes)
  | cdata (content : Bytes)
  | doctype (root : Bytes) (externalId : Option ExternalId)
  | instruction (target : Bytes) (content : Option Bytes)
  | openTag (name : Bytes) (attributes : List WrittenAttribute) (selfClosing : Bool)
  | closeTag (name : Bytes)
  deriving DecidableEq, Repr

namespace Markup

/-- What ends an open tag. -/
def closing (selfClosing : Bool) : Bytes :=
  if selfClosing then [slash, greaterThan] else [greaterThan]

def source : Markup → Bytes
  | text content => content
  | comment content => Bytes.ofString "<!--" ++ (content ++ Bytes.ofString "-->")
  | cdata content => Bytes.ofString "<![CDATA[" ++ (content ++ Bytes.ofString "]]>")
  | doctype root externalId =>
    Bytes.ofString "<!DOCTYPE" ++ ([0x20] ++ (root ++
      (externalId.elim [] ExternalId.source ++ [greaterThan])))
  | instruction target content =>
    Bytes.ofString "<?" ++ (target ++ (content.elim [] (0x20 :: ·) ++ Bytes.ofString "?>"))
  | openTag name attributes selfClosing =>
    [lessThan] ++ (name ++ (attributes.flatMap WrittenAttribute.source ++ closing selfClosing))
  | closeTag name => Bytes.ofString "</" ++ (name ++ [greaterThan])

/-- The construct reads as itself: names are well formed, no content holds what ends it, and no
instruction is an XML declaration. -/
def Valid : Markup → Prop
  | text content => content ≠ [] ∧ lessThan ∉ content
  | comment content => ¬ Bytes.ofString "-->" <:+: content
  | cdata content => ¬ Bytes.ofString "]]>" <:+: content
  | doctype root externalId =>
    root.isWellFormedName ∧ ∀ literal ∈ externalId.elim [] ExternalId.literals, 0x22 ∉ literal
  | instruction target content =>
    target.isWellFormedName ∧ ¬ Bytes.sameName true target (Bytes.ofString "xml") ∧
      ∀ inside ∈ content, inside ≠ [] ∧ ¬ inside.head?.any isWhitespace ∧
        ¬ Bytes.ofString "?>" <:+: inside
  | openTag name attributes _ =>
    name.isWellFormedName ∧ (∀ a ∈ attributes, a.Valid) ∧
      attributes.Pairwise fun a a' => ¬ Bytes.sameName true a.name a'.name
  | closeTag name => name.isWellFormedName

instance : DecidablePred Valid
  | text content => inferInstanceAs (Decidable (content ≠ [] ∧ lessThan ∉ content))
  | comment content => inferInstanceAs (Decidable (¬ Bytes.ofString "-->" <:+: content))
  | cdata content => inferInstanceAs (Decidable (¬ Bytes.ofString "]]>" <:+: content))
  | doctype root externalId => inferInstanceAs (Decidable (root.isWellFormedName ∧
      ∀ literal ∈ externalId.elim [] ExternalId.literals, 0x22 ∉ literal))
  | instruction target content => inferInstanceAs (Decidable (target.isWellFormedName ∧
      ¬ Bytes.sameName true target (Bytes.ofString "xml") ∧
      ∀ inside ∈ content, inside ≠ [] ∧ ¬ inside.head?.any isWhitespace ∧
        ¬ Bytes.ofString "?>" <:+: inside))
  | openTag name attributes _ => inferInstanceAs (Decidable (name.isWellFormedName ∧
      (∀ a ∈ attributes, a.Valid) ∧
      attributes.Pairwise fun a a' => ¬ Bytes.sameName true a.name a'.name))
  | closeTag name => inferInstanceAs (Decidable (name.isWellFormedName = true))

/-- The external identifier of a DOCTYPE, or that it has none. -/
def externalId? (input : Bytes) (d : Doctype) : Option (Option ExternalId) :=
  match d.kind with
  | none => if d.publicId.isNone && d.systemId.isNone then some none else none
  | some kind =>
    (ExternalId.ofLiterals? (kind.slice input) (d.publicId.map (·.slice input))
      (d.systemId.map (·.slice input))).map some

/-- What a token stands for in the document it was read from. An XML declaration, a DOCTYPE with a
subset and a tag with a bare attribute are nothing that is written here. -/
def ofToken? (input : Bytes) : Token → Option Markup
  | .text span => some (text (span.slice input))
  | .comment _ content => some (comment (content.slice input))
  | .cdata _ content => some (cdata (content.slice input))
  | .doctype d =>
    if d.internalSubset.isNone then
      d.root.bind fun root => (externalId? input d).map (doctype (root.slice input))
    else none
  | .xmlDeclaration _ => none
  | .instruction _ target content =>
    some (instruction (target.slice input) (content.map (·.slice input)))
  | .openTag tag =>
    ((attributesOf tag.parts).mapM (WrittenAttribute.ofAttribute? input)).map fun attributes =>
      openTag (tag.name.slice input) attributes tag.selfClosing
  | .closeTag tag => some (closeTag (tag.name.slice input))

end Markup

end MarkupStream
