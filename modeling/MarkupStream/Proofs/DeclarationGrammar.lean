import Mathlib.Data.List.Infix
import Mathlib.Data.List.TakeWhile
import MarkupStream.Proofs.AttributeGrammar
import MarkupStream.Proofs.Collecting

/-!
The grammar of XML declarations in strict XML. Between `<?xml` and the first `?>` there are attributes, each
with whitespace in front of it, and whitespace. They give a version, and may give an encoding and a
standalone flag. The strict reader hands out a declaration just if the document starts with the source text
of one. It does not look for names that are given twice: the last value of a name is the one that counts.
-/
namespace MarkupStream

open Byte Cursor

/-- The value of the last attribute of a name among attributes that begin at an offset. -/
inductive GivesLast (name : Bytes) : Nat → List SpacedAttribute → Span → Prop
  | here {offset : Nat} {a : SpacedAttribute} {rest : List SpacedAttribute} : a.name = name →
      (∀ a' ∈ rest, a'.name ≠ name) → GivesLast name offset (a :: rest) (a.valueSpan offset)
  | further {offset : Nat} {a : SpacedAttribute} {rest : List SpacedAttribute} {span : Span} :
      GivesLast name (offset + a.source.length) rest span → GivesLast name offset (a :: rest) span

/-- An XML declaration as it is written. -/
structure DeclarationText where
  attributes : List SpacedAttribute
  trailing : Bytes
  deriving DecidableEq, Repr

namespace DeclarationText

/-- What stands between the keyword and the `?>`. -/
def body (w : DeclarationText) : Bytes := w.attributes.flatMap SpacedAttribute.source ++ w.trailing

def source (w : DeclarationText) : Bytes :=
  Bytes.ofString "<?" ++ (Bytes.ofString "xml" ++ (w.body ++ Bytes.ofString "?>"))

/-- Every part of the declaration is well formed, its names are those that a declaration may use, and one
of them is the version. Behind the keyword there is whitespace, so that the target is read to its end. -/
structure Spelled (w : DeclarationText) : Prop where
  attributes : ∀ a ∈ w.attributes, a.WellFormed ∧ a.name ∈ Token.pseudoNames
  trailing : w.trailing.IsSpace
  unclosed : ¬ Bytes.ofString "?>" <:+: w.body
  version : Bytes.ofString "version" ∈ w.attributes.map (·.name)

instance (w : DeclarationText) : Decidable w.Spelled :=
  decidable_of_iff ((∀ a ∈ w.attributes, a.WellFormed ∧ a.name ∈ Token.pseudoNames) ∧
    w.trailing.IsSpace ∧ ¬ Bytes.ofString "?>" <:+: w.body ∧
    Bytes.ofString "version" ∈ w.attributes.map (·.name))
    ⟨fun ⟨h₁, h₂, h₃, h₄⟩ => ⟨h₁, h₂, h₃, h₄⟩, fun h => ⟨h.1, h.2, h.3, h.4⟩⟩

/-- The declaration is spelled well and gives no name twice. -/
structure WellFormed (w : DeclarationText) : Prop extends Spelled w where
  distinct : (w.attributes.map (·.name)).Nodup

/-- The spans that the declaration stands for at the start of a document. -/
structure Declares (w : DeclarationText) (d : XmlDeclaration) : Prop where
  span : d.span = ⟨0, w.source.length⟩
  keyword : d.keyword = ⟨2, 5⟩
  version : ∀ span, d.version = some span ↔ GivesLast (Bytes.ofString "version") 5 w.attributes span
  encoding : ∀ span, d.encoding = some span ↔ GivesLast (Bytes.ofString "encoding") 5 w.attributes span
  standalone : ∀ span,
    d.standalone = some span ↔ GivesLast (Bytes.ofString "standalone") 5 w.attributes span

end DeclarationText

section Values

variable {name : Bytes} {offset : Nat} {attributes : List SpacedAttribute} {span : Span}

theorem GivesLast.exists_mem (h : GivesLast name offset attributes span) :
    ∃ a ∈ attributes, a.name = name := by
  induction h with
  | here hname _ => exact ⟨_, List.mem_cons_self, hname⟩
  | further _ ih =>
    obtain ⟨a, hmem, hname⟩ := ih
    exact ⟨a, List.mem_cons_of_mem _ hmem, hname⟩

theorem exists_givesLast (h : ∃ a ∈ attributes, a.name = name) (offset : Nat) :
    ∃ span, GivesLast name offset attributes span := by
  induction attributes generalizing offset with
  | nil =>
    obtain ⟨a, hmem, -⟩ := h
    cases hmem
  | cons a rest ih =>
    by_cases hrest : ∃ a' ∈ rest, a'.name = name
    · obtain ⟨span, hspan⟩ := ih hrest (offset + a.source.length)
      exact ⟨span, .further hspan⟩
    · obtain ⟨a', hmem, hname⟩ := h
      have hnone : ∀ a' ∈ rest, a'.name ≠ name := fun a' hmem hname => hrest ⟨a', hmem, hname⟩
      rcases List.mem_cons.1 hmem with rfl | hmem
      · exact ⟨_, .here hname hnone⟩
      · exact absurd hname (hnone a' hmem)

/-- The names and the values of attributes that begin at an offset. -/
def valuesFrom (offset : Nat) : List SpacedAttribute → List (Bytes × Span)
  | [] => []
  | a :: rest => (a.name, a.valueSpan offset) :: valuesFrom (offset + a.source.length) rest

theorem names_valuesFrom (offset : Nat) (attributes : List SpacedAttribute) :
    (valuesFrom offset attributes).map (·.1) = attributes.map (·.name) := by
  induction attributes generalizing offset with
  | nil => rfl
  | cons a rest ih => rw [valuesFrom, List.map_cons, List.map_cons, ih]

namespace Token

theorem lastValue?_cons (given : Bytes) (value : Span) (found : List (Bytes × Span)) (name : String) :
    lastValue? ((given, value) :: found) name =
      (lastValue? found name).or (if given = Bytes.ofString name then some value else none) := by
  rw [lastValue?, lastValue?, List.reverse_cons, List.find?_append, Option.map_or]
  congr 1
  by_cases hname : given = Bytes.ofString name
  · have hgiven : (given == Bytes.ofString name) = true := beq_iff_eq.2 hname
    rw [if_pos hname, List.find?_singleton, if_pos hgiven]
    rfl
  · have hgiven : ¬ (given == Bytes.ofString name) = true := mt beq_iff_eq.1 hname
    rw [if_neg hname, List.find?_singleton, if_neg hgiven]
    rfl

/-- The value of a name is that of its last attribute. -/
theorem lastValue?_eq_some_iff {name : String} :
    lastValue? (valuesFrom offset attributes) name = some span ↔
      GivesLast (Bytes.ofString name) offset attributes span := by
  induction attributes generalizing offset span with
  | nil => exact ⟨nofun, nofun⟩
  | cons a rest ih =>
    rw [valuesFrom, lastValue?_cons]
    cases hrest : lastValue? (valuesFrom (offset + a.source.length) rest) name with
    | some value =>
      have hlater := ih.1 hrest
      constructor
      · intro h
        obtain rfl : value = span := Option.some.inj h
        exact .further hlater
      · intro h
        cases h with
        | here _ hnone =>
          obtain ⟨a', hmem, hname⟩ := hlater.exists_mem
          exact absurd hname (hnone a' hmem)
        | further h => rw [← hrest, ih.2 h, Option.some_or]
    | none =>
      have hnone : ∀ a' ∈ rest, a'.name ≠ Bytes.ofString name := by
        intro a' hmem hname
        obtain ⟨span, hspan⟩ := exists_givesLast ⟨a', hmem, hname⟩ (offset + a.source.length)
        rw [ih.2 hspan] at hrest
        cases hrest
      rw [Option.none_or]
      constructor
      · intro h
        obtain ⟨hname, rfl⟩ := by simpa only [Option.ite_none_right_eq_some, Option.some.injEq] using h
        exact .here hname hnone
      · intro h
        cases h with
        | here hname _ => exact if_pos hname
        | further h =>
          obtain ⟨a', hmem, hname⟩ := h.exists_mem
          exact absurd hname (hnone a' hmem)

theorem isSome_lastValue?_iff {name : String} :
    (lastValue? (valuesFrom offset attributes) name).isSome ↔
      Bytes.ofString name ∈ attributes.map (·.name) := by
  rw [Option.isSome_iff_exists, List.mem_map]
  constructor
  · rintro ⟨span, h⟩
    exact (lastValue?_eq_some_iff.1 h).exists_mem
  · intro h
    obtain ⟨span, hspan⟩ := exists_givesLast h offset
    exact ⟨span, lastValue?_eq_some_iff.2 hspan⟩

end Token

namespace DeclarationText

/-- The declaration as the reader puts it together. -/
def declaration (w : DeclarationText) : XmlDeclaration :=
  let found := valuesFrom 5 w.attributes
  ⟨⟨0, w.source.length⟩, ⟨2, 5⟩, Token.lastValue? found "version", Token.lastValue? found "encoding",
    Token.lastValue? found "standalone"⟩

theorem declares_iff {w : DeclarationText} {d : XmlDeclaration} : w.Declares d ↔ d = w.declaration := by
  constructor
  · intro h
    have hvalue : ∀ {name : String} {v : Option Span},
        (∀ span, v = some span ↔ GivesLast (Bytes.ofString name) 5 w.attributes span) →
        v = Token.lastValue? (valuesFrom 5 w.attributes) name :=
      fun hv => Option.ext fun span => (hv span).trans Token.lastValue?_eq_some_iff.symm
    obtain ⟨span, keyword, version, encoding, standalone⟩ := d
    obtain ⟨rfl, rfl, hversion, hencoding, hstandalone⟩ := h
    dsimp only at hversion hencoding hstandalone
    rw [hvalue hversion, hvalue hencoding, hvalue hstandalone]
    rfl
  · rintro rfl
    exact ⟨rfl, rfl, fun _ => Token.lastValue?_eq_some_iff, fun _ => Token.lastValue?_eq_some_iff,
      fun _ => Token.lastValue?_eq_some_iff⟩

end DeclarationText

end Values

section Reading

open SpacedAttribute

namespace DeclarationText

variable {c next : Cursor} {w : DeclarationText}

theorem over_source : c.Over w.source next ↔
    ∃ opened named stop, c.Over (Bytes.ofString "<?") opened ∧
      opened.Over (Bytes.ofString "xml") named ∧ named.Over w.body stop ∧
      stop.Over (Bytes.ofString "?>") next := by
  constructor
  · intro h
    obtain ⟨opened, hopening, h⟩ := over_append.1 h
    obtain ⟨named, htarget, h⟩ := over_append.1 h
    obtain ⟨stop, hbody, hclosing⟩ := over_append.1 h
    exact ⟨opened, named, stop, hopening, htarget, hbody, hclosing⟩
  · rintro ⟨opened, named, stop, hopening, htarget, hbody, hclosing⟩
    refine over_append.2 ⟨opened, hopening, over_append.2 ⟨named, htarget, ?_⟩⟩
    exact over_append.2 ⟨stop, hbody, hclosing⟩

/-- Behind the keyword there is no byte of a name. -/
theorem Spelled.ends (hw : w.Spelled) (h : c.Over w.body next) :
    ∀ b, c.peek? = some b → ¬ isName b := by
  obtain ⟨a, ha, -⟩ := List.mem_map.1 hw.version
  obtain ⟨first, more, hattributes⟩ := List.exists_cons_of_ne_nil (List.ne_nil_of_mem ha)
  have hfirst := (hw.attributes first (hattributes ▸ List.mem_cons_self)).1
  rw [body, hattributes, List.flatMap_cons, List.append_assoc] at h
  obtain ⟨b, hb, hspace⟩ := exists_peek?_of_source hfirst h
  intro b' hb'
  rw [hb] at hb'
  rw [← Option.some.inj hb']
  exact (isSpace_table hspace).1

end DeclarationText

namespace Token

variable {c next : Cursor}

/-- What is read as an attribute of a declaration is the source text of one. -/
theorem exists_over_of_readPseudoAttribute? {name : Bytes} {value : Span}
    (h : readPseudoAttribute? c = some (name, value, next)) :
    ∃ a : SpacedAttribute, a.WellFormed ∧ c.Over a.source next := by
  obtain ⟨named, hnamed, hapart, hoperator, hquoted, -⟩ := exists_of_readPseudoAttribute h
  obtain ⟨quote, close, hopening, hquote, hclosing, -, rfl⟩ := readQuoted?_eq_some_iff.1 hquoted
  obtain ⟨before, hbefore, hspace, -⟩ := c.exists_over_skipWhitespace
  have hne : before ≠ [] := by
    rintro rfl
    rw [over_nil.1 hbefore] at hapart
    exact absurd hapart (Nat.lt_irrefl _)
  have hfound : Found c.skipWhitespace named _ close quote :=
    ⟨hnamed, hoperator, rfl, hopening, hquote, hclosing⟩
  obtain ⟨a, ha, hpassed⟩ := hfound.exists_passed hbefore hne hspace
  exact ⟨a, ha, over_source.2 ⟨_, _, _, _, _, hpassed⟩⟩

/-- The source text of an attribute is read as its name and its value. -/
theorem readPseudoAttribute?_of_over {a : SpacedAttribute} (ha : a.WellFormed) (h : c.Over a.source next) :
    readPseudoAttribute? c = some (a.name, a.valueSpan c.offset, next) := by
  obtain ⟨first, named, valued, inner, close, hpassed⟩ := over_source.1 h
  obtain ⟨hfound, hfirst, rfl, rfl⟩ := hpassed.found ha
  have hapart : c.offset < first.offset := by
    have := List.length_pos_iff.2 ha.apart
    rw [hpassed.before.offset]
    omega
  have hquoted : readQuoted? valued = some ((valued.advance 1).upTo close, close.advance 1) :=
    readQuoted?_eq_some_iff.2
      ⟨a.quote, close, hfound.opening, hfound.quoted, hfound.closing, rfl, rfl⟩
  rw [readPseudoAttribute?, hfirst, hfound.name]
  dsimp only
  rw [if_pos (Bool.and_eq_true_iff.2 ⟨decide_eq_true hapart, beq_iff_eq.2 hfound.operator⟩),
    hfound.behind, hquoted, Option.map_some, hpassed.name.bytesUpTo, hpassed.valueSpan_eq]

theorem isEmpty_iff_isSpace : c.skipWhitespace.rest.isEmpty ↔ Bytes.IsSpace c.rest :=
  List.isEmpty_iff.trans List.dropWhile_eq_nil_iff

/-- In front of an attribute there is not just whitespace. -/
theorem not_isEmpty_of_over {a : SpacedAttribute} (ha : a.WellFormed) (h : c.Over a.source next) :
    ¬ c.skipWhitespace.rest.isEmpty := by
  obtain ⟨first, named, valued, inner, close, hpassed⟩ := over_source.1 h
  obtain ⟨hfound, hfirst, -⟩ := hpassed.found ha
  have hlt := length_afterName_lt hfound.name
  rw [hfirst, List.isEmpty_iff]
  intro hnil
  rw [hnil] at hlt
  exact Nat.not_lt_zero _ hlt

/-- What is read to the end is the source text of attributes and whitespace. -/
theorem exists_rest_of_readPseudoAttributes {found : List (Bytes × Span)}
    (h : readPseudoAttributes c = (found, true)) :
    ∃ (attributes : List SpacedAttribute) (trailing : Bytes), (∀ a ∈ attributes, a.WellFormed) ∧
      trailing.IsSpace ∧ c.rest = attributes.flatMap SpacedAttribute.source ++ trailing := by
  fun_induction readPseudoAttributes c generalizing found with
  | case1 c hend => exact ⟨[], c.rest, nofun, isEmpty_iff_isSpace.1 hend, rfl⟩
  | case2 => cases h
  | case3 c hend name value after hread more complete hmore ih =>
    obtain ⟨-, rfl⟩ := Prod.mk.inj h
    obtain ⟨a, ha, hover⟩ := exists_over_of_readPseudoAttribute? hread
    obtain ⟨attributes, trailing, hattributes, htrailing, hrest⟩ := ih hmore
    refine ⟨a :: attributes, trailing, List.forall_mem_cons.2 ⟨ha, hattributes⟩, htrailing, ?_⟩
    rw [hover.rest, hrest, List.flatMap_cons, List.append_assoc]

theorem readPseudoAttributes_of_rest {attributes : List SpacedAttribute} {trailing : Bytes}
    (hattributes : ∀ a ∈ attributes, a.WellFormed) (htrailing : trailing.IsSpace)
    (h : c.rest = attributes.flatMap SpacedAttribute.source ++ trailing) :
    readPseudoAttributes c = (valuesFrom c.offset attributes, true) := by
  induction attributes generalizing c with
  | nil =>
    rw [readPseudoAttributes, if_pos (isEmpty_iff_isSpace.2 (h ▸ htrailing))]
    rfl
  | cons a rest ih =>
    obtain ⟨ha, hrest⟩ := List.forall_mem_cons.1 hattributes
    rw [List.flatMap_cons, List.append_assoc] at h
    have hover : c.Over a.source ⟨c.offset + a.source.length, _⟩ := ⟨h, rfl⟩
    have hread := readPseudoAttribute?_of_over ha hover
    rw [readPseudoAttributes, if_neg (not_isEmpty_of_over ha hover)]
    split
    · rename_i hnone
      rw [hread] at hnone
      cases hnone
    · rename_i hsome
      obtain ⟨rfl, rfl, rfl⟩ : a.name = _ ∧ a.valueSpan c.offset = _ ∧ _ = _ := by
        simpa using hread.symm.trans hsome
      rw [ih hrest rfl]
      rfl

theorem all_valuesFrom_iff {offset : Nat} {attributes : List SpacedAttribute} :
    (valuesFrom offset attributes).all (pseudoNames.contains ·.1) ↔
      ∀ a ∈ attributes, a.name ∈ pseudoNames := by
  have hnames : (valuesFrom offset attributes).all (pseudoNames.contains ·.1) =
      (attributes.map (·.name)).all (pseudoNames.contains ·) := by
    rw [← names_valuesFrom offset, List.all_map]
    rfl
  rw [hnames, List.all_eq_true, List.forall_mem_map]
  simp only [List.contains_iff_mem]

variable {named stop : Cursor} {token : Token} {body : Bytes}

/-- What is read as a declaration stands at the start and holds what a declaration may hold. -/
theorem exists_body_of_readDeclaration (hbody : named.Over body stop)
    (h : readDeclaration .xml c named stop = .ok (token, next)) :
    c.offset = 0 ∧ next = stop.advance 2 ∧ ∃ w : DeclarationText, w.body = body ∧
      (∀ a ∈ w.attributes, a.WellFormed ∧ a.name ∈ pseudoNames) ∧ w.trailing.IsSpace ∧
      Bytes.ofString "version" ∈ w.attributes.map (·.name) := by
  obtain ⟨found, complete, hread, hadmitted, rfl, -⟩ := exists_of_readDeclaration h
  obtain ⟨hstart, rfl, hnames, hversion⟩ := hadmitted rfl
  rw [hbody.bytesUpTo] at hread
  obtain ⟨attributes, trailing, hattributes, htrailing, hrest⟩ :=
    exists_rest_of_readPseudoAttributes hread
  rw [readPseudoAttributes_of_rest hattributes htrailing hrest] at hread
  obtain ⟨rfl, -⟩ := Prod.mk.inj hread
  exact ⟨hstart, rfl, ⟨attributes, trailing⟩, hrest.symm,
    fun a ha => ⟨hattributes a ha, all_valuesFrom_iff.1 hnames a ha⟩, htrailing,
    isSome_lastValue?_iff.1 hversion⟩

/-- What has the target `xml` is read as a declaration or not at all. -/
theorem readMarkup_of_xml {opened : Cursor} (hopening : c.Over (Bytes.ofString "<?") opened)
    (htarget : opened.Over (Bytes.ofString "xml") named)
    (hend : ∀ b, named.peek? = some b → ¬ isName b) :
    readMarkup .xml c = match named.seekBytes? (Bytes.ofString "?>") with
      | none => named.refuse (.unterminated .xmlDeclaration c.offset)
      | some stop => readDeclaration .xml c named stop := by
  have hadvance : c.advance 2 = opened := hopening.advance
  rw [readMarkup_of_instruction hopening, readInstruction, hadvance,
    htarget.afterName?_of_ends (by decide) hend]
  dsimp only
  rw [htarget.bytesUpTo, Bytes.sameName_self, readBehindTarget]
  rfl

/-- The source text of a declaration at the start of a document is read as that declaration. -/
theorem readMarkup_of_declaration {w : DeclarationText} (hw : w.Spelled) (hstart : c.offset = 0)
    (h : c.Over w.source next) : readMarkup .xml c = .ok (.xmlDeclaration w.declaration, next) := by
  have hspan : c.upTo next = ⟨0, w.source.length⟩ := by
    rw [h.upTo_eq, hstart, Span.ofLength, Nat.zero_add]
  obtain ⟨opened, named, stop, hopening, htarget, hbody, hclosing⟩ := DeclarationText.over_source.1 h
  have hadvance : c.advance 2 = opened := hopening.advance
  have hnext : stop.advance 2 = next := hclosing.advance
  have hopened : opened.offset = 2 := by
    rw [hopening.offset, hstart]
    rfl
  have hnamed : named.offset = 5 := by
    rw [htarget.offset, hopened]
    rfl
  have hread := readPseudoAttributes_of_rest (c := ⟨named.offset, w.body⟩)
    (fun a ha => (hw.attributes a ha).1) hw.trailing rfl
  rw [readMarkup_of_xml hopening htarget (hw.ends hbody),
    hbody.seekBytes? hclosing greaterThan (by decide) (by decide) hw.unclosed]
  dsimp only
  rw [readDeclaration, hbody.bytesUpTo, hread]
  dsimp only
  rw [makeDeclaration, hnext, hspan, hadvance, upTo, hopened, hnamed, hstart]
  rw [all_valuesFrom_iff.2 fun a ha => (hw.attributes a ha).2, isSome_lastValue?_iff.2 hw.version]
  rfl

/-- Nothing but an instruction is read as a declaration. -/
theorem startsWith_of_declaration {d : XmlDeclaration}
    (h : readMarkup .xml c = .ok (.xmlDeclaration d, next)) :
    c.startsWith (Bytes.ofString "<?") ∧ readInstruction .xml c = .ok (.xmlDeclaration d, next) := by
  rw [readMarkup] at h
  split at h
  · obtain ⟨stop, -, -, htoken⟩ := exists_of_readDelimited h
    cases htoken
  split at h
  · obtain ⟨stop, -, -, htoken⟩ := exists_of_readDelimited h
    cases htoken
  split at h
  · obtain ⟨_, _, _, _, _, -, -, -, -, -, htoken⟩ := exists_of_readDoctype h
    cases htoken
  split at h
  · rename_i hstart
    exact ⟨hstart, h⟩
  split at h
  · obtain ⟨tag, htag, -⟩ := within_readCloseTag h
    cases htag
  · obtain ⟨tag, htag, -⟩ := opens_readOpenTag h
    cases htag

/-- The target of a declaration is `xml` and ends there. -/
theorem exists_named_of_declaration {d : XmlDeclaration}
    (h : readMarkup .xml c = .ok (.xmlDeclaration d, next)) :
    ∃ opened named, c.Over (Bytes.ofString "<?") opened ∧ opened.Over (Bytes.ofString "xml") named ∧
      ∀ b, named.peek? = some b → ¬ isName b := by
  obtain ⟨hstart, h⟩ := startsWith_of_declaration h
  have hopening : c.Over (Bytes.ofString "<?") (c.advance 2) := over_of_startsWith hstart
  obtain ⟨named, stop, hnamed, -, ⟨hxml, -⟩ | ⟨-, -, htoken⟩⟩ := exists_of_readInstruction h
  · obtain ⟨target, htarget, -, hend⟩ := exists_over_of_afterName? hnamed
    rw [htarget.bytesUpTo, Bytes.sameName_iff] at hxml
    obtain rfl : target = Bytes.ofString "xml" := hxml
    exact ⟨_, named, hopening, htarget, hend⟩
  · cases htoken

/-- What is read as a declaration is the source text of one at the start of a document. -/
theorem exists_over_of_xml {opened : Cursor} (hopening : c.Over (Bytes.ofString "<?") opened)
    (htarget : opened.Over (Bytes.ofString "xml") named)
    (hend : ∀ b, named.peek? = some b → ¬ isName b) (h : readMarkup .xml c = .ok (token, next)) :
    c.offset = 0 ∧ ∃ w : DeclarationText, w.Spelled ∧ c.Over w.source next := by
  rw [readMarkup_of_xml hopening htarget hend] at h
  split at h
  · cases h
  · rename_i stop hstop
    obtain ⟨body, hbody, hunclosed⟩ := exists_over_of_seekBytes? (by decide) hstop
    have hclosing : stop.Over (Bytes.ofString "?>") (stop.advance 2) :=
      over_of_startsWith (found_of_seek? hstop)
    obtain ⟨hstart, rfl, w, rfl, hattributes, htrailing, hversion⟩ :=
      exists_body_of_readDeclaration hbody h
    refine ⟨hstart, w, ⟨hattributes, htrailing, hunclosed, hversion⟩, ?_⟩
    exact DeclarationText.over_source.2 ⟨_, _, _, hopening, htarget, hbody, hclosing⟩

end Token

/-- The names in a declaration are told by its bytes. -/
theorem DeclarationText.Spelled.names_eq {c next next' : Cursor} {w w' : DeclarationText} (hw : w.Spelled)
    (hw' : w'.Spelled) (h : c.Over w.source next) (h' : c.Over w'.source next') :
    w.attributes.map (·.name) = w'.attributes.map (·.name) := by
  have hbodyOf : ∀ {w : DeclarationText} {next : Cursor}, w.Spelled → c.Over w.source next →
      ∃ stop, ((c.advance 2).advance 3).Over w.body stop ∧
        ((c.advance 2).advance 3).seekBytes? (Bytes.ofString "?>") = some stop := by
    intro w next hw h
    obtain ⟨opened, named, stop, hopening, htarget, hbody, hclosing⟩ :=
      DeclarationText.over_source.1 h
    have hopened : c.advance 2 = opened := hopening.advance
    have hnamed : opened.advance 3 = named := htarget.advance
    rw [hopened, hnamed]
    exact ⟨stop, hbody, hbody.seekBytes? hclosing greaterThan (by decide) (by decide) hw.unclosed⟩
  obtain ⟨stop, hbody, hseek⟩ := hbodyOf hw h
  obtain ⟨stop', hbody', hseek'⟩ := hbodyOf hw' h'
  obtain rfl := Option.some.inj (hseek.symm.trans hseek')
  have hsame : w.body = w'.body := hbody.bytesUpTo.symm.trans hbody'.bytesUpTo
  have hread := Token.readPseudoAttributes_of_rest (c := ⟨0, w.body⟩)
    (fun a ha => (hw.attributes a ha).1) hw.trailing rfl
  have hread' := Token.readPseudoAttributes_of_rest (c := ⟨0, w.body⟩)
    (fun a ha => (hw'.attributes a ha).1) hw'.trailing hsame
  obtain ⟨hvalues, -⟩ := Prod.mk.inj (hread.symm.trans hread')
  rw [← names_valuesFrom 0, ← names_valuesFrom 0, hvalues]

end Reading

namespace TokenStream

variable {s t : TokenStream} {next : Cursor} {d : XmlDeclaration}

/-- A declaration is read where the stream stands, and never in literal text, which ends at a close tag. -/
theorem readMarkup_of_next (hd : s.dialect = .xml) (h : s.next = (.ok (some (.xmlDeclaration d)), t)) :
    s.mode = .content ∧ ∃ next, Token.readMarkup .xml s.cursor = .ok (.xmlDeclaration d, next) := by
  have hread : ∃ next, Token.readMarkup .xml s.cursor = .ok (.xmlDeclaration d, next) := by
    cases outcome_of_next h with
    | node hread _ =>
      rw [hd] at hread
      exact ⟨_, hread⟩
  refine ⟨?_, hread⟩
  cases hm : s.mode with
  | content => rfl
  | done =>
    rw [TokenStream.next, hm] at h
    cases h
  | literal name =>
    cases hseek : s.cursor.seekCloseTag? name s.dialect.ignoresCase with
    | none =>
      rw [TokenStream.next, hm] at h
      dsimp only at h
      rw [nextLiteral, hseek] at h
      dsimp only at h
      rw [if_pos (by rw [hd]; rfl)] at h
      cases h
    | some found =>
      rw [next_of_literal hm hseek] at h
      split at h
      · cases h
      · rename_i hle
        obtain rfl := (reaches_seekCloseTag hseek).eq_of_offset_le (Nat.not_lt.1 hle)
        obtain ⟨rest, hrest⟩ := (closesIn_of_seekCloseTag hseek).exists_cons
        obtain ⟨next, hread⟩ := hread
        have hopening := over_of_startsWith (Token.startsWith_of_declaration hread).1
        have hsame := hrest.symm.trans hopening.rest
        exact absurd (List.cons.inj (List.cons.inj hsame).2).1 (by decide)

/-- At the start of the document the source text of a declaration is handed out as that declaration. -/
theorem next_of_declaration (hd : s.dialect = .xml) (hm : s.mode = .content) (hstart : s.offset = 0)
    {w : DeclarationText} (hw : w.Spelled) (h : s.cursor.Over w.source next) :
    s.next = (.ok (some (.xmlDeclaration w.declaration)), { s with cursor := next }) := by
  have hread := Token.readMarkup_of_declaration hw hstart h
  rw [← hd] at hread
  rw [next_of_lessThan hm (Over.peek? h), nextMarkup_of_node hread nofun]
  rfl

/-- The target `xml` makes the source text of a declaration at the start of the document, which is handed out,
or else reading fails. -/
theorem next_xmlDeclaration (hd : s.dialect = .xml) (hc : (start s.input).Reaches s.cursor) :
    (∀ d t, s.next = (.ok (some (.xmlDeclaration d)), t) ↔
      s.mode = .content ∧ s.cursor = start s.input ∧ ∃ (w : DeclarationText) (next : Cursor),
        w.Spelled ∧ s.cursor.Over w.source next ∧ w.Declares d ∧ t = { s with cursor := next }) ∧
    ∀ named, s.mode = .content → s.cursor.Over (Bytes.ofString "<?xml") named →
      (∀ b, named.peek? = some b → ¬ isName b) →
      (s.cursor = start s.input → ¬ ∃ (w : DeclarationText) (next : Cursor),
        w.Spelled ∧ s.cursor.Over w.source next) →
      ∃ e t, s.next = (.error e, t) := by
  refine ⟨fun d t => ⟨fun h => ?_, ?_⟩, fun named hm hover hend hnone => ?_⟩
  · obtain ⟨hm, next, hread⟩ := readMarkup_of_next hd h
    obtain ⟨opened, named, hopening, htarget, hend⟩ := Token.exists_named_of_declaration hread
    obtain ⟨hstart, w, hw, hover⟩ := Token.exists_over_of_xml hopening htarget hend hread
    rw [next_of_declaration hd hm hstart hw hover] at h
    obtain ⟨rfl, rfl⟩ : w.declaration = d ∧ _ = t := by simpa using h
    exact ⟨hm, hc.eq_of_offset_le (Nat.le_of_eq hstart), w, next, hw, hover,
      DeclarationText.declares_iff.2 rfl, rfl⟩
  · rintro ⟨hm, hstart, w, next, hw, hover, hdeclares, rfl⟩
    obtain rfl := DeclarationText.declares_iff.1 hdeclares
    exact next_of_declaration hd hm (congrArg Cursor.offset hstart) hw hover
  · obtain ⟨opened, hopening, htarget⟩ := over_append.1
      (show s.cursor.Over (Bytes.ofString "<?" ++ Bytes.ofString "xml") named from hover)
    rw [next_of_lessThan hm (Over.peek? hover)]
    cases hread : Token.readMarkup .xml s.cursor with
    | error refusal => exact fails_of_error hd hread
    | ok read =>
      obtain ⟨hstart, w, hw, hover⟩ := Token.exists_over_of_xml hopening htarget hend hread
      exact absurd ⟨w, _, hw, hover⟩ (hnone (hc.eq_of_offset_le (Nat.le_of_eq hstart)))

end TokenStream

end MarkupStream
