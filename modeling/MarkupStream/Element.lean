import MarkupStream.Byte

/-!
What HTML says about element names: which elements never have content, which hold literal text, and
which imply the close of an open sibling.
-/
namespace MarkupStream

def Bytes.ofStrings (names : List String) : List Bytes := names.map Bytes.ofString

/-- Opening an element with this rule closes an open element named in `closes`, unless one named in
`limits` is open above it. -/
structure SiblingRule where
  closes : List Bytes
  limits : List Bytes
  deriving DecidableEq, Repr

namespace SiblingRule

def closesName (rule : SiblingRule) (name : Bytes) : Bool :=
  rule.closes.any (Bytes.sameName true · name)

def isLimit (rule : SiblingRule) (name : Bytes) : Bool :=
  rule.limits.any (Bytes.sameName true · name)

def listItem : SiblingRule := ⟨Bytes.ofStrings ["li"], Bytes.ofStrings ["ul", "ol"]⟩

def description : SiblingRule := ⟨Bytes.ofStrings ["dt", "dd"], Bytes.ofStrings ["dl"]⟩

def row : SiblingRule :=
  ⟨Bytes.ofStrings ["tr"], Bytes.ofStrings ["table", "thead", "tbody", "tfoot"]⟩

def cell : SiblingRule :=
  ⟨Bytes.ofStrings ["td", "th"], Bytes.ofStrings ["tr", "table", "thead", "tbody", "tfoot"]⟩

def tableSection : SiblingRule :=
  ⟨Bytes.ofStrings ["thead", "tbody", "tfoot", "tr", "td", "th"], Bytes.ofStrings ["table"]⟩

def option : SiblingRule :=
  ⟨Bytes.ofStrings ["option"], Bytes.ofStrings ["select", "optgroup", "datalist"]⟩

def optionGroup : SiblingRule :=
  ⟨Bytes.ofStrings ["optgroup", "option"], Bytes.ofStrings ["select"]⟩

def ruby : SiblingRule := ⟨Bytes.ofStrings ["rt", "rp"], Bytes.ofStrings ["ruby"]⟩

/-- A block closes an open paragraph. -/
def block : SiblingRule :=
  ⟨Bytes.ofStrings ["p"],
    Bytes.ofStrings ["button", "caption", "object", "table", "td", "th", "template"]⟩

end SiblingRule

/-- A void element stands alone; the content of a raw text element is literal up to its close tag. -/
structure ElementSpec where
  name : Bytes
  void : Bool
  rawText : Bool
  sibling : Option SiblingRule
  deriving DecidableEq, Repr

namespace ElementSpec

def ofVoid (name : String) : ElementSpec := ⟨Bytes.ofString name, true, false, none⟩

def ofRawText (name : String) : ElementSpec := ⟨Bytes.ofString name, false, true, none⟩

def ofRule (name : String) (rule : SiblingRule) : ElementSpec :=
  ⟨Bytes.ofString name, false, false, some rule⟩

/-- The elements that HTML treats specially, sorted by name. -/
def all : List ElementSpec := [
  ofRule "address" .block, ofVoid "area", ofRule "article" .block, ofRule "aside" .block,
  ofVoid "base", ofRule "blockquote" .block, ofVoid "br",
  ofVoid "col", ofVoid "command",
  ofRule "dd" .description, ofRule "details" .block, ofRule "dialog" .block, ofRule "div" .block,
  ofRule "dl" .block, ofRule "dt" .description,
  ofVoid "embed",
  ofRule "fieldset" .block, ofRule "figcaption" .block, ofRule "figure" .block,
  ofRule "footer" .block, ofRule "form" .block,
  ofRule "h1" .block, ofRule "h2" .block, ofRule "h3" .block, ofRule "h4" .block,
  ofRule "h5" .block, ofRule "h6" .block, ofRule "header" .block, ofRule "hgroup" .block,
  ⟨Bytes.ofString "hr", true, false, some .block⟩,
  ofRawText "iframe", ofVoid "img", ofVoid "input",
  ofVoid "keygen",
  ofRule "li" .listItem, ofVoid "link",
  ofRule "main" .block, ofRule "menu" .block, ofVoid "meta",
  ofRule "nav" .block, ofRawText "noembed", ofRawText "noframes",
  ofRule "ol" .block, ofRule "optgroup" .optionGroup, ofRule "option" .option,
  ofRule "p" .block, ofVoid "param", ofRule "pre" .block,
  ofRule "rp" .ruby, ofRule "rt" .ruby,
  ofRawText "script", ofRule "section" .block, ofVoid "source", ofRawText "style",
  ofRule "table" .block, ofRule "tbody" .tableSection, ofRule "td" .cell, ofRawText "textarea",
  ofRule "tfoot" .tableSection, ofRule "th" .cell, ofRule "thead" .tableSection,
  ofRawText "title", ofRule "tr" .row, ofVoid "track",
  ofRule "ul" .block,
  ofVoid "wbr",
  ofRawText "xmp"]

end ElementSpec

end MarkupStream
