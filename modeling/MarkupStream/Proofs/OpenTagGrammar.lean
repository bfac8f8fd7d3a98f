import MarkupStream.Proofs.AttributeGrammar

/-!
The grammar of open tags in strict XML. Between its name and its end a tag holds attributes, each with
whitespace in front of it, and whitespace. No value holds a `<`, and no name is given twice. The strict
reader hands out an open tag just if the bytes in front of it are the source text of one, and it reports an
error otherwise.
-/
namespace MarkupStream

open Byte Cursor

/-- An open tag as it is written. -/
structure TagText where
  name : Bytes
  attributes : List SpacedAttribute
  trailing : Bytes
  selfClosing : Bool
  deriving DecidableEq, Repr

namespace TagText

/-- What stands behind the name. -/
def tail (attributes : List SpacedAttribute) (trailing : Bytes) (selfClosing : Bool) : Bytes :=
  attributes.flatMap SpacedAttribute.source ++ (trailing ++ Markup.closing selfClosing)

theorem tail_nil (trailing : Bytes) (selfClosing : Bool) :
    tail [] trailing selfClosing = trailing ++ Markup.closing selfClosing := rfl

theorem tail_cons (a : SpacedAttribute) (rest : List SpacedAttribute) (trailing : Bytes)
    (selfClosing : Bool) :
    tail (a :: rest) trailing selfClosing = a.source ++ tail rest trailing selfClosing := by
  rw [tail, List.flatMap_cons, List.append_assoc]
  rfl

def source (w : TagText) : Bytes :=
  [lessThan] ++ (w.name ++ tail w.attributes w.trailing w.selfClosing)

/-- An attribute that may stand in a tag. -/
structure Admits (a : SpacedAttribute) : Prop where
  wellFormed : a.WellFormed
  notLessThan : lessThan ∉ a.value

instance (a : SpacedAttribute) : Decidable (Admits a) :=
  decidable_of_iff (a.WellFormed ∧ lessThan ∉ a.value) ⟨fun ⟨h₁, h₂⟩ => ⟨h₁, h₂⟩, fun h => ⟨h.1, h.2⟩⟩

/-- Every part of the tag is well formed. Behind the name there is no byte of a name, so that it is read to
its end. -/
structure Spelled (w : TagText) : Prop where
  name : w.name.isWellFormedName
  attributes : ∀ a ∈ w.attributes, Admits a
  trailing : w.trailing.IsSpace

/-- The tag is spelled well and gives no name twice. -/
structure WellFormed (w : TagText) : Prop extends Spelled w where
  distinct : (w.attributes.map (·.name)).Nodup

instance (w : TagText) : Decidable w.WellFormed :=
  decidable_of_iff (w.name.isWellFormedName ∧ (∀ a ∈ w.attributes, Admits a) ∧ w.trailing.IsSpace ∧
    (w.attributes.map (·.name)).Nodup)
    ⟨fun ⟨h₁, h₂, h₃, h₄⟩ => ⟨⟨h₁, h₂, h₃⟩, h₄⟩, fun h => ⟨h.1.1, h.1.2, h.1.3, h.2⟩⟩

/-- Whitespace is a part of its own unless there is none. -/
def spaceParts (offset : Nat) (bytes : Bytes) : List TagPart :=
  if bytes = [] then [] else [.whitespace (.ofLength offset bytes.length)]

/-- The parts of a tag, given the offset behind its name. -/
def partsFrom (offset : Nat) (trailing : Bytes) : List SpacedAttribute → List TagPart
  | [] => spaceParts offset trailing
  | a :: rest => spaceParts offset a.before ++
      .attr (a.spans offset) :: partsFrom (offset + a.source.length) trailing rest

/-- The spans of the tag whose `<` stands at an offset. -/
def openTag (w : TagText) (offset : Nat) : OpenTag :=
  let named := offset + 1 + w.name.length
  let inside := named + (w.attributes.flatMap SpacedAttribute.source ++ w.trailing).length
  ⟨⟨offset, named⟩, .ofLength (offset + 1) w.name.length, partsFrom named w.trailing w.attributes,
    .ofLength inside (Markup.closing w.selfClosing).length, w.selfClosing⟩

/-- The places in front of the name and behind it. -/
theorem exists_named {c next : Cursor} {w : TagText} (h : c.Over w.source next) :
    ∃ opened named, c.Over [lessThan] opened ∧ opened.Over w.name named ∧
      named.Over (tail w.attributes w.trailing w.selfClosing) next ∧
      (w.openTag c.offset).name = opened.upTo named ∧
      (w.openTag c.offset).parts = partsFrom named.offset w.trailing w.attributes := by
  obtain ⟨opened, hopening, h⟩ := over_append.1 h
  obtain ⟨named, hname, htail⟩ := over_append.1 h
  have hopened : opened.offset = c.offset + 1 := hopening.offset
  have hnamed : named.offset = c.offset + 1 + w.name.length := by rw [hname.offset, hopened]
  refine ⟨opened, named, hopening, hname, htail, ?_, ?_⟩
  · rw [hname.upTo_eq, hopened]
    rfl
  · rw [hnamed]
    rfl

theorem spaceParts_of_over {c next : Cursor} {bytes : Bytes} (h : c.Over bytes next)
    (hne : bytes ≠ []) : spaceParts c.offset bytes = [.whitespace (c.upTo next)] := by
  rw [spaceParts, if_neg hne, h.upTo_eq]

end TagText

namespace Tag

open SpacedAttribute TagText

variable {tagStart : Nat} {c next : Cursor}

/-- A quoted value ends at the next quote of its kind, and before it there is no `<`. -/
theorem readValue_eq_ok_iff {outer value : Span} :
    readValue .xml tagStart c = .ok (outer, value, next) ↔
      ∃ quote close, c.peek? = some quote ∧ isQuote quote ∧
        (c.advance 1).seekByte? quote = some close ∧
        (∀ bad, (c.advance 1).seekByte? lessThan = some bad → close.offset ≤ bad.offset) ∧
        outer = c.upTo next ∧ value = (c.advance 1).upTo close ∧ next = close.advance 1 := by
  constructor
  · intro h
    rcases cases_readValue h with
      ⟨quote, close, hpeek, hquote, hclose, hbefore, hnext, houter, hvalue⟩ | ⟨_, hhtml, -⟩
    · exact ⟨quote, close, hpeek, hquote, hclose, hbefore rfl, houter, hvalue, hnext⟩
    · cases hhtml
  · rintro ⟨quote, close, hpeek, hquote, hclose, hbefore, rfl, rfl, rfl⟩
    rw [readValue, hpeek]
    dsimp only
    rw [if_pos hquote, hclose]
    dsimp only
    split
    · rename_i hbad
      exact if_neg (Nat.not_lt.2 (hbefore _ hbad))
    · rfl

theorem readAttribute_eq_ok_iff {found : Attribute} :
    readAttribute .xml tagStart c = .ok (found, next) ↔
      ∃ named valued close quote, Found c named valued close quote ∧
        (∀ bad, (valued.advance 1).seekByte? lessThan = some bad → close.offset ≤ bad.offset) ∧
        next = close.advance 1 ∧ found = ⟨c.upTo named,
          some ⟨named.upTo valued, valued.upTo next, (valued.advance 1).upTo close⟩⟩ := by
  constructor
  · intro h
    obtain ⟨named, hnamed, ⟨_, outer, value, hassigned, rfl, hvalue, rfl⟩ | ⟨hhtml, -⟩⟩ :=
      exists_of_readAttribute h
    · have hname := afterName?_of_readName hnamed
      obtain ⟨quote, close, hopening, hquote, hclosing, hbefore, rfl, rfl, rfl⟩ :=
        readValue_eq_ok_iff.1 hvalue
      exact ⟨named, _, close, quote, ⟨hname, hassigned, rfl, hopening, hquote, hclosing⟩, hbefore, rfl,
        rfl⟩
    · cases hhtml
  · rintro ⟨named, valued, close, quote, hfound, hbefore, rfl, rfl⟩
    have hvalue : readValue .xml tagStart valued =
        .ok (valued.upTo (close.advance 1), (valued.advance 1).upTo close, close.advance 1) :=
      readValue_eq_ok_iff.2
        ⟨quote, close, hfound.opening, hfound.quoted, hfound.closing, hbefore, rfl, rfl, rfl⟩
    rw [readAttribute, readName, hfound.name]
    dsimp only
    rw [if_pos (beq_iff_eq.2 hfound.operator), hfound.behind, hvalue]

/-- What is read as an attribute behind whitespace is the source text of one. -/
theorem exists_over_of_readAttribute {blank : Cursor} {before : Bytes} {found : Attribute}
    (h : readAttribute .xml tagStart c = .ok (found, next)) (hover : blank.Over before c)
    (hapart : before ≠ []) (hbefore : before.IsSpace) :
    ∃ a, Admits a ∧ blank.Over a.source next := by
  obtain ⟨named, valued, close, quote, hfound, hnone, rfl, -⟩ := readAttribute_eq_ok_iff.1 h
  obtain ⟨a, ha, hpassed⟩ := hfound.exists_passed hover hapart hbefore
  exact ⟨a, ⟨ha, hpassed.value.not_mem_iff.2 hnone⟩, over_source.2 ⟨_, _, _, _, _, hpassed⟩⟩

/-- The source text of an attribute is read as that attribute. -/
theorem readAttribute_of_over (tagStart : Nat) {a : SpacedAttribute} (ha : Admits a)
    (h : c.Over a.source next) :
    ∃ first b, c.Over a.before first ∧ c.skipWhitespace = first ∧
      first.peek? = some b ∧ isNameStart b ∧
      readAttribute .xml tagStart first = .ok (a.spans c.offset, next) := by
  obtain ⟨first, named, valued, inner, close, hpassed⟩ := over_source.1 h
  obtain ⟨hfound, hfirst, rfl, rfl⟩ := hpassed.found ha.wellFormed
  obtain ⟨b, hb, hstart⟩ := hpassed.name.exists_peek?_of_name ha.wellFormed.name
  refine ⟨first, b, hpassed.before, hfirst, hb, hstart, ?_⟩
  exact readAttribute_eq_ok_iff.2 ⟨named, valued, close, a.quote, hfound,
    hpassed.value.not_mem_iff.1 ha.notLessThan, rfl, hpassed.spans_eq⟩

/-- What is read as the rest of a tag is the source text of one. -/
theorem exists_over_of_readParts {separated selfClosing : Bool} {found : List TagPart} {close : Span}
    (h : readParts .xml tagStart separated c = .ok (found, close, selfClosing, next))
    {blank : Cursor} {before : Bytes} (hover : blank.Over before c) (hbefore : before.IsSpace)
    (hseparated : separated = decide (before ≠ []))
    (hstop : separated → ∀ b, c.peek? = some b → ¬ isWhitespace b) :
    ∃ attributes trailing, (∀ a ∈ attributes, Admits a) ∧ trailing.IsSpace ∧
      blank.Over (tail attributes trailing selfClosing) next := by
  -- The whitespace that has just been read belongs to what comes next, so it is carried along.
  fun_induction readParts .xml tagStart separated c generalizing found blank before with
  | case1 | case5 | case7 | case8 => cases h
  | case2 separated c b rest hc hspace =>
    rename_i ih
    obtain ⟨more, hmore, rfl⟩ := map_cons_eq_ok h
    have hpeek : c.peek? = some b := congrArg List.head? hc
    have hnot : separated = false := by
      cases separated with
      | false => rfl
      | true => exact absurd hspace (hstop rfl b hpeek)
    obtain rfl : before = [] := by simpa [hnot] using hseparated
    obtain rfl := over_nil.1 hover
    obtain ⟨bytes, hbytes, hall, hend⟩ := c.exists_over_skipWhitespace
    have hne : bytes ≠ [] := by
      rintro rfl
      rw [over_nil.1 hbytes] at hend
      exact hend b hpeek hspace
    exact ih hmore hbytes hall (by simpa using hne) fun _ => hend
  | case3 separated c b rest hc hspace hclose =>
    obtain ⟨rfl, -, rfl, rfl⟩ : [] = found ∧ _ ∧ false = selfClosing ∧ _ = next := by simpa using h
    obtain rfl := beq_iff_eq.1 hclose
    refine ⟨[], before, List.forall_mem_nil _, hbefore, ?_⟩
    rw [tail_nil]
    exact over_append.2 ⟨c, hover, over_of_peek? (congrArg List.head? hc)⟩
  | case4 separated c b rest hc hspace hclose hslash hend =>
    obtain ⟨rfl, -, rfl, rfl⟩ : [] = found ∧ _ ∧ true = selfClosing ∧ _ = next := by simpa using h
    obtain rfl := beq_iff_eq.1 hslash
    obtain ⟨more, rfl⟩ := List.head?_eq_some_iff.1 (beq_iff_eq.1 hend)
    refine ⟨[], before, List.forall_mem_nil _, hbefore, ?_⟩
    rw [tail_nil]
    have hstart : c.startsWith [slash, greaterThan] := by
      rw [startsWith, hc]
      rfl
    exact over_append.2 ⟨c, hover, over_of_startsWith hstart⟩
  | case6 _ _ _ _ _ _ _ _ _ hloose => exact absurd rfl hloose
  | case9 separated c b rest hc hspace hclose hslash hnot a after ha ih =>
    obtain ⟨more, hmore, rfl⟩ := map_cons_eq_ok h
    have hapart : before ≠ [] := by simpa [Dialect.isStrict, hseparated] using hnot
    obtain ⟨written, hadmits, hsource⟩ := exists_over_of_readAttribute ha hover hapart hbefore
    obtain ⟨attributes, trailing, hattributes, htrailing, htail⟩ :=
      ih hmore (over_nil.2 rfl) Bytes.isSpace_nil rfl (absurd · Bool.false_ne_true)
    refine ⟨written :: attributes, trailing, List.forall_mem_cons.2 ⟨hadmits, hattributes⟩,
      htrailing, ?_⟩
    rw [tail_cons]
    exact over_append.2 ⟨after, hsource, htail⟩

theorem exists_closing_eq_cons (selfClosing : Bool) :
    ∃ b more, Markup.closing selfClosing = b :: more ∧ ¬ isWhitespace b ∧ ¬ isName b := by
  cases selfClosing with
  | false => exact ⟨greaterThan, [], rfl, by decide, by decide⟩
  | true => exact ⟨slash, [greaterThan], rfl, by decide, by decide⟩

theorem readParts_closing {separated selfClosing : Bool} (h : c.Over (Markup.closing selfClosing) next) :
    readParts .xml tagStart separated c = .ok ([], c.upTo next, selfClosing, next) := by
  cases selfClosing with
  | false =>
    have hnext : c.advance 1 = next := h.advance
    have hrest : c.rest = greaterThan :: next.rest := h.rest
    rw [readParts_cons hrest, if_neg (by decide), if_pos (by decide), hnext]
  | true =>
    have hnext : c.advance 2 = next := h.advance
    have hrest : c.rest = slash :: greaterThan :: next.rest := h.rest
    rw [readParts_cons hrest, if_neg (by decide), if_neg (by decide), if_pos (by decide), hnext]
    exact if_pos rfl

/-- Whitespace and the end of a tag. -/
theorem readParts_trailing {trailing : Bytes} {selfClosing : Bool} (htrailing : trailing.IsSpace)
    {first : Cursor} (hover : c.Over trailing first) (h : first.Over (Markup.closing selfClosing) next) :
    readParts .xml tagStart false c =
      .ok (spaceParts c.offset trailing, first.upTo next, selfClosing, next) := by
  cases trailing with
  | nil =>
    obtain rfl := over_nil.1 hover
    exact readParts_closing h
  | cons b more =>
    have hskip : c.skipWhitespace = first := by
      obtain ⟨last, rest, hclosing, hspace, -⟩ := exists_closing_eq_cons selfClosing
      have hfirst := h
      rw [hclosing] at hfirst
      refine hover.skipSpace htrailing fun b' hb' => ?_
      rw [hfirst.peek?] at hb'
      rwa [← Option.some.inj hb']
    rw [readParts_cons hover.rest, if_pos (htrailing b List.mem_cons_self), hskip, readParts_closing h,
      spaceParts_of_over hover (List.cons_ne_nil b more)]
    rfl

/-- The source text of the rest of a tag is read as its parts. -/
theorem readParts_of_over {attributes : List SpacedAttribute} {trailing : Bytes} {selfClosing : Bool}
    (hattributes : ∀ a ∈ attributes, Admits a) (htrailing : trailing.IsSpace)
    (h : c.Over (tail attributes trailing selfClosing) next) :
    readParts .xml tagStart false c = .ok (partsFrom c.offset trailing attributes,
      .ofLength (c.offset + (attributes.flatMap SpacedAttribute.source ++ trailing).length)
        (Markup.closing selfClosing).length, selfClosing, next) := by
  induction attributes generalizing c with
  | nil =>
    rw [tail_nil] at h
    obtain ⟨first, hover, hclosing⟩ := over_append.1 h
    rw [readParts_trailing htrailing hover hclosing, hclosing.upTo_eq, hover.offset]
    rfl
  | cons a more ih =>
    obtain ⟨ha, hmore⟩ := List.forall_mem_cons.1 hattributes
    rw [tail_cons] at h
    obtain ⟨behind, hsource, hrest⟩ := over_append.1 h
    obtain ⟨first, b, hbefore, hskip, hpeek, hstart, hread⟩ := readAttribute_of_over tagStart ha hsource
    obtain ⟨b', spaces, hspaces⟩ := List.exists_cons_of_ne_nil ha.wellFormed.apart
    obtain ⟨rest, hfirst⟩ := List.head?_eq_some_iff.1 hpeek
    obtain ⟨hspace, hgreater, hslash, -⟩ := isNameStart_table hstart
    have hblank : isWhitespace b' := ha.wellFormed.before b' (hspaces ▸ List.mem_cons_self)
    have hc : c.rest = b' :: (spaces ++ first.rest) := by
      rw [hbefore.rest, hspaces]
      rfl
    rw [readParts_cons hc, if_pos hblank, hskip, readParts_cons hfirst, if_neg hspace,
      if_neg (mt beq_iff_eq.1 hgreater), if_neg (mt beq_iff_eq.1 hslash), if_neg (by simp), hread]
    dsimp only
    rw [ih hmore hrest, partsFrom, spaceParts_of_over hbefore ha.wellFormed.apart, ← hsource.offset,
      hsource.offset]
    simp only [List.flatMap_cons, List.length_append, Nat.add_assoc]
    rfl

/-- Behind its name a tag goes on with no byte of a name. -/
theorem exists_peek?_of_tail {attributes : List SpacedAttribute} {trailing : Bytes} {selfClosing : Bool}
    (hattributes : ∀ a ∈ attributes, Admits a) (htrailing : trailing.IsSpace)
    (h : c.Over (tail attributes trailing selfClosing) next) : ∃ b, c.peek? = some b ∧ ¬ isName b := by
  cases attributes with
  | nil =>
    obtain ⟨last, rest, hclosing, -, hlast⟩ := exists_closing_eq_cons selfClosing
    rw [tail_nil, hclosing] at h
    exact h.exists_peek?_of_isSpace htrailing (fun b hb => (isSpace_table hb).1) hlast
  | cons a more =>
    rw [tail_cons] at h
    obtain ⟨b, hb, hspace⟩ := exists_peek?_of_source (hattributes a List.mem_cons_self).wellFormed h
    exact ⟨b, hb, (isSpace_table hspace).1⟩

end Tag

namespace Token

open TagText

variable {c next : Cursor}

theorem readMarkup_of_isNameStart {dialect : Dialect} {b : UInt8} (h : c.Over [lessThan, b] next)
    (hb : isNameStart b) : readMarkup dialect c = readOpenTag dialect c := by
  obtain ⟨-, -, -, hbang, hslash, hquestion⟩ := isNameStart_table hb
  have hother : ∀ {x : UInt8} {more : Bytes}, toLower b ≠ x → toLower x = x →
      ¬ c.startsWithIgnoringCase (lessThan :: x :: more) := by
    intro x more hne hx
    refine h.not_startsWithIgnoringCase (fun hle => ?_) fun hle => ?_
    · have hsame := (List.cons_prefix_cons.1 (List.cons_prefix_cons.1 hle).2).1
      rw [hx] at hsame
      exact hne hsame.symm
    · have hsame := (List.cons_prefix_cons.1 (List.cons_prefix_cons.1 hle).2).1
      rw [hx] at hsame
      exact hne hsame
  have hexact : ∀ {x : UInt8} {more : Bytes}, toLower b ≠ x → toLower x = x →
      ¬ c.startsWith (lessThan :: x :: more) :=
    fun hne hx hstart => hother hne hx (startsWithIgnoringCase_of_startsWith hstart)
  have hcomment : ¬ c.startsWith (Bytes.ofString "<!--") := hexact hbang rfl
  have hcdata : ¬ c.startsWith (Bytes.ofString "<![CDATA[") := hexact hbang rfl
  have hdoctype : ¬ c.startsWithIgnoringCase (Bytes.ofString "<!DOCTYPE") := hother hbang rfl
  have hinstruction : ¬ c.startsWith (Bytes.ofString "<?") := hexact hquestion rfl
  have hclose : ¬ c.startsWith (Bytes.ofString "</") := hexact hslash rfl
  rw [readMarkup, if_neg hcomment, if_neg hcdata, if_neg hdoctype, if_neg hinstruction, if_neg hclose]

/-- The source text of a tag is read as that tag. -/
theorem readOpenTag_of_over {w : TagText} (hw : w.Spelled) (h : c.Over w.source next) :
    readOpenTag .xml c = .ok (.openTag (w.openTag c.offset), next) := by
  obtain ⟨opened, hopening, h⟩ := over_append.1 h
  obtain ⟨named, hname, htail⟩ := over_append.1 h
  have hadvance : c.advance 1 = opened := hopening.advance
  obtain ⟨b, hb, hnotName⟩ := Tag.exists_peek?_of_tail hw.attributes hw.trailing htail
  have hopened : opened.offset = c.offset + 1 := hopening.offset
  have hnamed : named.offset = c.offset + 1 + w.name.length := by rw [hname.offset, hopened]
  rw [readOpenTag, hadvance, hname.afterName? hw.name hb hnotName]
  dsimp only
  rw [Tag.readParts_of_over hw.attributes hw.trailing htail, hname.upTo_eq, upTo, hopened, hnamed]
  rfl

/-- What is read as an open tag is the source text of one. -/
theorem exists_over_of_readOpenTag {token : Token} (hc : c.peek? = some lessThan)
    (h : readOpenTag .xml c = .ok (token, next)) : ∃ w : TagText, w.Spelled ∧ c.Over w.source next := by
  obtain ⟨named, parts, close, selfClosing, hnamed, hparts, -⟩ := exists_of_readOpenTag h
  obtain ⟨name, hname, hwellFormed, -⟩ := exists_over_of_afterName? hnamed
  obtain ⟨attributes, trailing, hattributes, htrailing, htail⟩ :=
    Tag.exists_over_of_readParts hparts (over_nil.2 rfl) Bytes.isSpace_nil rfl
      (absurd · Bool.false_ne_true)
  exact ⟨⟨name, attributes, trailing, selfClosing⟩, ⟨hwellFormed, hattributes, htrailing⟩,
    over_append.2 ⟨_, over_of_peek? hc, over_append.2 ⟨_, hname, htail⟩⟩⟩

end Token

section Names

variable {input : Bytes} {c next : Cursor}

theorem attributesOf_partsFrom_nil (offset : Nat) (trailing : Bytes) :
    attributesOf (TagText.partsFrom offset trailing []) = [] := by
  rw [TagText.partsFrom, TagText.spaceParts]
  split <;> rfl

theorem attributesOf_partsFrom (offset : Nat) (trailing : Bytes) (a : SpacedAttribute)
    (rest : List SpacedAttribute) :
    attributesOf (TagText.partsFrom offset trailing (a :: rest)) =
      a.spans offset :: attributesOf (TagText.partsFrom (offset + a.source.length) trailing rest) := by
  rw [TagText.partsFrom, TagText.spaceParts]
  split <;> rfl

/-- The names of the attributes that are read are those that are written. -/
theorem names_partsFrom {attributes : List SpacedAttribute} {trailing : Bytes} {selfClosing : Bool}
    (hc : (start input).Reaches c) (h : c.Over (TagText.tail attributes trailing selfClosing) next) :
    (attributesOf (TagText.partsFrom c.offset trailing attributes)).map (·.name.slice input) =
      attributes.map (·.name) := by
  induction attributes generalizing c with
  | nil => rw [attributesOf_partsFrom_nil, List.map_nil, List.map_nil]
  | cons a more ih =>
    rw [TagText.tail_cons] at h
    obtain ⟨behind, hsource, htail⟩ := over_append.1 h
    obtain ⟨first, named, valued, inner, close, hpassed⟩ := SpacedAttribute.over_source.1 hsource
    have hname : (a.spans c.offset).name.slice input = a.name := by
      rw [hpassed.spans_eq]
      exact hpassed.name.slice (hc.trans hpassed.before.reaches)
    rw [attributesOf_partsFrom, List.map_cons, List.map_cons, hname, ← hsource.offset,
      ih (hc.trans hsource.reaches) htail]

/-- Names that differ from each other and from those already met are not repeated. -/
theorem firstRepeated?_eq_none {ignoreCase : Bool} {seen : List Bytes} {found : List Attribute}
    (hseen : ∀ name ∈ seen, ∀ a ∈ found, ¬ Bytes.sameName ignoreCase name (a.name.slice input))
    (hfound : found.Pairwise fun a a' =>
      ¬ Bytes.sameName ignoreCase (a.name.slice input) (a'.name.slice input)) :
    firstRepeated? (Span.slice · input) ignoreCase seen found = none := by
  induction found generalizing seen with
  | nil => rfl
  | cons a more ih =>
    obtain ⟨hfirst, hmore⟩ := List.pairwise_cons.1 hfound
    have hnew : ¬ seen.any (Bytes.sameName ignoreCase · (a.name.slice input)) := by
      intro hany
      obtain ⟨name, hmem, hsame⟩ := List.any_eq_true.1 hany
      exact hseen name hmem a List.mem_cons_self hsame
    rw [firstRepeated?, if_neg hnew]
    refine ih (fun name hmem a' hmem' => ?_) hmore
    rcases List.mem_cons.1 hmem with rfl | hmem
    · exact hfirst a' hmem'
    · exact hseen name hmem a' (List.mem_cons_of_mem _ hmem')

/-- If no name is repeated, the names differ from each other and from those already met. -/
theorem distinct_of_firstRepeated? {ignoreCase : Bool} {seen : List Bytes} {found : List Attribute}
    (h : firstRepeated? (Span.slice · input) ignoreCase seen found = none) :
    (∀ name ∈ seen, ∀ a ∈ found, ¬ Bytes.sameName ignoreCase name (a.name.slice input)) ∧
      found.Pairwise fun a a' =>
        ¬ Bytes.sameName ignoreCase (a.name.slice input) (a'.name.slice input) := by
  induction found generalizing seen with
  | nil => exact ⟨nofun, List.Pairwise.nil⟩
  | cons a more ih =>
    rw [firstRepeated?] at h
    split at h
    · cases h
    · rename_i hnew
      obtain ⟨hseen, hmore⟩ := ih h
      obtain ⟨hfirst, hseen⟩ := List.forall_mem_cons.1 hseen
      refine ⟨fun name hname => List.forall_mem_cons.2 ⟨fun hsame => ?_, hseen name hname⟩,
        List.pairwise_cons.2 ⟨hfirst, hmore⟩⟩
      exact hnew (List.any_eq_true.2 ⟨name, hname, hsame⟩)

theorem duplicateName?_eq_none_iff {parts : List TagPart} :
    duplicateName? parts input false = none ↔
      ((attributesOf parts).map (·.name.slice input)).Nodup := by
  have hsame : ∀ a a' : Attribute, a.name.slice input ≠ a'.name.slice input ↔
      ¬ Bytes.sameName false (a.name.slice input) (a'.name.slice input) := by
    intro a a'
    rw [Bytes.sameName_iff]
    rfl
  rw [List.Nodup, List.pairwise_map]
  simp only [hsame]
  exact ⟨fun h => (distinct_of_firstRepeated? h).2, fun h => firstRepeated?_eq_none nofun h⟩

end Names

namespace TokenStream

variable {s t : TokenStream} {next : Cursor} {b : UInt8} {rest : Bytes}

theorem readMarkup_of_isNameStart
    (hrest : s.cursor.rest = lessThan :: b :: rest) (hb : isNameStart b) :
    Token.readMarkup .xml s.cursor = Token.readOpenTag .xml s.cursor := by
  have hover : s.cursor.Over [lessThan, b] ⟨s.offset + 2, rest⟩ := ⟨hrest, rfl⟩
  exact Token.readMarkup_of_isNameStart hover hb

/-- A tag that is spelled well is handed out just if it gives no name twice. -/
theorem ReadsStrictly.nextMarkup_of_over (hs : s.ReadsStrictly)
    (hread : Token.readMarkup .xml s.cursor = Token.readOpenTag .xml s.cursor) {w : TagText}
    (hw : w.Spelled) (h : s.cursor.Over w.source next) :
    ((w.attributes.map (·.name)).Nodup ∧ s.nextMarkup = (.ok (some (.openTag (w.openTag s.offset))),
        { s with parts := (w.openTag s.offset).parts, cursor := next })) ∨
      (¬ (w.attributes.map (·.name)).Nodup ∧ ∃ e t, s.nextMarkup = (.error e, t)) := by
  have hnames : duplicateName? (w.openTag s.offset).parts s.input s.dialect.ignoresCase = none ↔
      (w.attributes.map (·.name)).Nodup := by
    obtain ⟨opened, named, hopening, hname, htail, -, hparts⟩ := TagText.exists_named h
    have hreach := hs.reaches.trans (hopening.reaches.trans hname.reaches)
    have hparts : (w.openTag s.offset).parts = TagText.partsFrom named.offset w.trailing w.attributes :=
      hparts
    rw [hs.dialect, hparts, ← names_partsFrom hreach htail]
    exact duplicateName?_eq_none_iff
  have hemit : s.nextMarkup = s.emitOpenTag (w.openTag s.offset) next := by
    have hopen := hread.trans (Token.readOpenTag_of_over hw h)
    rw [← hs.dialect] at hopen
    exact nextMarkup_of_openTag hopen
  rw [hemit, emitOpenTag]
  dsimp only
  split
  · rename_i hnone
    exact .inl ⟨hnames.1 hnone, rfl⟩
  · rename_i name hsome
    rw [if_pos (by rw [hs.dialect]; rfl)]
    refine .inr ⟨fun hdistinct => ?_, _, _, rfl⟩
    rw [hnames.2 hdistinct] at hsome
    cases hsome

/-- Either there is a well-formed tag or reading fails. -/
theorem ReadsStrictly.wellFormed_or_fails (hs : s.ReadsStrictly) (hpeek : s.cursor.peek? = some lessThan)
    (hread : Token.readMarkup .xml s.cursor = Token.readOpenTag .xml s.cursor) :
    (∃ (w : TagText) (next : Cursor), w.WellFormed ∧ s.cursor.Over w.source next) ∨
      ∃ e t, s.nextMarkup = (.error e, t) := by
  cases hopen : Token.readOpenTag .xml s.cursor with
  | error refusal => exact .inr (fails_of_error hs.dialect (hread.trans hopen))
  | ok read =>
    obtain ⟨token, next⟩ := read
    obtain ⟨w, hw, hover⟩ := Token.exists_over_of_readOpenTag hpeek hopen
    rcases hs.nextMarkup_of_over hread hw hover with ⟨hdistinct, -⟩ | ⟨-, hfails⟩
    · exact .inl ⟨w, next, ⟨hw, hdistinct⟩, hover⟩
    · exact .inr hfails

/-- At a `<` and a byte that a name may start with, either the source text of a well-formed tag is handed out
or reading fails. -/
theorem ReadsStrictly.next_openTag (hs : s.ReadsStrictly) (hrest : s.cursor.rest = lessThan :: b :: rest)
    (hb : isNameStart b) :
    (∀ tag t, s.next = (.ok (some (.openTag tag)), t) ↔
      ∃ (w : TagText) (next : Cursor), w.WellFormed ∧ s.cursor.Over w.source next ∧
        tag = w.openTag s.offset ∧ t = { s with parts := tag.parts, cursor := next }) ∧
    ((¬ ∃ (w : TagText) (next : Cursor), w.WellFormed ∧ s.cursor.Over w.source next) →
      ∃ e t, s.next = (.error e, t)) := by
  have hpeek : s.cursor.peek? = some lessThan := congrArg List.head? hrest
  have hnext := next_of_lessThan hs.content hpeek
  have hread := readMarkup_of_isNameStart hrest hb
  have hgives : ∀ {w : TagText} {next : Cursor}, w.WellFormed → s.cursor.Over w.source next →
      s.next = (.ok (some (.openTag (w.openTag s.offset))),
        { s with parts := (w.openTag s.offset).parts, cursor := next }) := by
    intro w next hw hover
    rcases hs.nextMarkup_of_over hread hw.toSpelled hover with ⟨-, heq⟩ | ⟨hnot, -⟩
    · rw [hnext, heq]
    · exact absurd hw.distinct hnot
  have hcases := hs.wellFormed_or_fails hpeek hread
  rw [← hnext] at hcases
  refine ⟨fun tag t => ⟨fun h => ?_, ?_⟩, hcases.resolve_left⟩
  · rcases hcases with ⟨w, next, hw, hover⟩ | ⟨e, t', hfails⟩
    · rw [hgives hw hover] at h
      obtain ⟨rfl, rfl⟩ : w.openTag s.offset = tag ∧ _ = t := by simpa using h
      exact ⟨w, next, hw, hover, rfl, rfl⟩
    · rw [hfails] at h
      cases h
  · rintro ⟨w, next, hw, hover, rfl, rfl⟩
    exact hgives hw hover

end TokenStream

end MarkupStream
