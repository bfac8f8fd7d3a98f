import Mathlib.Data.List.Pairwise
import MarkupStream.Proofs.DeclarationGrammar

/-!
The geometry of tokens. Whatever bytes are read and in whichever dialect, the spans of a token and of the
parts of a tag lie where the source text has what they are called after, inside of the token and clear of
each other. So none of them ever reads nothing because it does not fit.
-/
namespace MarkupStream

open Byte Cursor

/-- The spans follow one another between two offsets, with or without a gap. -/
def InOrder (start : Nat) : List Span → Nat → Prop
  | [], stop => start ≤ stop
  | span :: rest, stop => start ≤ span.start ∧ span.start ≤ span.stop ∧ InOrder span.stop rest stop

namespace InOrder

variable {start stop : Nat} {spans : List Span}

theorem le (h : InOrder start spans stop) : start ≤ stop := by
  induction spans generalizing start with
  | nil => exact h
  | cons span rest ih => exact Nat.le_trans h.1 (Nat.le_trans h.2.1 (ih h.2.2))

theorem mono (h : InOrder start spans stop) {first last : Nat} (hfirst : first ≤ start)
    (hlast : stop ≤ last) : InOrder first spans last := by
  induction spans generalizing first start with
  | nil => exact Nat.le_trans hfirst (Nat.le_trans h hlast)
  | cons span rest ih => exact ⟨Nat.le_trans hfirst h.1, h.2.1, ih h.2.2 (Nat.le_refl _)⟩

theorem append {middle : Nat} {first second : List Span} (h : InOrder start first middle)
    (h' : InOrder middle second stop) : InOrder start (first ++ second) stop := by
  induction first generalizing start with
  | nil => exact h'.mono h (Nat.le_refl _)
  | cons span rest ih => exact ⟨h.1, h.2.1, ih h.2.2⟩

theorem within (h : InOrder start spans stop) : ∀ span ∈ spans, span.Within start stop := by
  induction spans generalizing start with
  | nil => nofun
  | cons first rest ih =>
    obtain ⟨hstart, hle, hrest⟩ := h
    exact List.forall_mem_cons.2 ⟨⟨hstart, hle, hrest.le⟩,
      fun span hmem => (ih hrest span hmem).mono (Nat.le_trans hstart hle) (Nat.le_refl _)⟩

theorem pairwise (h : InOrder start spans stop) : spans.Pairwise fun a b => a.stop ≤ b.start := by
  induction spans generalizing start with
  | nil => exact List.Pairwise.nil
  | cons first rest ih =>
    exact List.pairwise_cons.2 ⟨fun span hmem => (h.2.2.within span hmem).start_le, ih h.2.2⟩

end InOrder

section Shapes

/-- Between an opening and the first terminator behind it. -/
structure Encloses (input opening terminator : Bytes) (outer inner : Span) : Prop where
  source : outer.slice input = opening ++ (inner.slice input ++ terminator)
  start : inner.start = outer.start + opening.length
  stop : inner.stop + terminator.length = outer.stop
  first : ¬ terminator <:+: inner.slice input

/-- The operator follows the name, the outer value the operator. The value is what the quotes enclose, or
all of the outer value if there are none. -/
structure Assignment.Shaped (input : Bytes) (name : Span) (s : Assignment) : Prop where
  operator : s.operator.start = name.stop
  outer : s.outer.start = s.operator.stop
  value : (∃ quote, isQuote quote ∧ Encloses input [quote] [quote] s.outer s.value) ∨
    (s.value = s.outer ∧ ∀ b, (s.outer.slice input).head? = some b → ¬ isQuote b)

def Assignment.spans (s : Assignment) : List Span := [s.operator, s.outer, s.value]

def TagPart.spans : TagPart → List Span
  | .attr a => a.span :: a.name :: a.assigned.toList.flatMap Assignment.spans
  | .whitespace span => [span]

/-- The spans of the part lie in it, those of an attribute each in its place. -/
structure TagPart.Shaped (input : Bytes) (part : TagPart) : Prop where
  within : ∀ span ∈ part.spans, span.Within part.span.start part.span.stop
  assigned : ∀ a s, part = .attr a → a.assigned = some s → s.Shaped input a.name

/-- The parts of a DOCTYPE that are present, as they are to follow one another. -/
def Doctype.pieces (d : Doctype) : List Span :=
  d.keyword :: (d.root.toList ++ (d.kind.toList ++ (d.publicId.toList ++ d.systemId.toList)) ++
    d.internalSubset.toList)

def XmlDeclaration.values (d : XmlDeclaration) : List Span :=
  d.version.toList ++ (d.encoding.toList ++ d.standalone.toList)

/-- The values lie apart from each other between the keyword and the end of the declaration. -/
structure XmlDeclaration.Shaped (input : Bytes) (d : XmlDeclaration) : Prop where
  apart : d.values.Pairwise Span.Apart
  inside : ∀ value ∈ d.values, d.keyword.stop ≤ value.start ∧ value.stop + 2 ≤ d.span.stop
  closing : (Span.mk (d.span.stop - 2) d.span.stop).slice input = Bytes.ofString "?>"

/-- The content of an instruction lies between its target and the first end behind that. -/
structure Instructs (input : Bytes) (span target content : Span) : Prop where
  behind : target.stop ≤ content.start
  stop : content.stop + 2 = span.stop
  first : ¬ Bytes.ofString "?>" <:+: content.slice input

namespace Token

/-- All the spans that a token consists of, itself included. -/
def spans : Token → List Span
  | text span => [span]
  | comment span content | cdata span content => [span, content]
  | doctype d => d.span :: d.pieces
  | xmlDeclaration d => d.span :: d.keyword :: d.values
  | instruction span target content => span :: target :: content.toList
  | openTag tag => tag.span :: tag.start :: tag.name :: tag.close :: tag.parts.flatMap TagPart.spans
  | closeTag tag => tag.span :: tag.start :: tag.name :: tag.close :: tag.whitespace.toList

/-- Where the spans of a token lie in it. -/
def Shaped (input : Bytes) : Token → Prop
  | text _ | closeTag _ => True
  | comment span content => Encloses input (Bytes.ofString "<!--") (Bytes.ofString "-->") span content
  | cdata span content => Encloses input (Bytes.ofString "<![CDATA[") (Bytes.ofString "]]>") span content
  | doctype d => d.pieces.Pairwise fun a b => a.stop ≤ b.start
  | xmlDeclaration d => d.Shaped input
  | instruction span target content => ∀ inside, content = some inside → Instructs input span target inside
  | openTag tag => ∀ part ∈ tag.parts, part.Shaped input

/-- A token that is read between two cursors: all its spans lie between them, each in its place. -/
structure Lies (input : Bytes) (c : Cursor) (token : Token) (next : Cursor) : Prop where
  within : ∀ span ∈ token.spans, span.Within c.offset next.offset
  shaped : token.Shaped input

end Token

end Shapes

namespace Cursor

variable {c middle next : Cursor}

theorem advance_advance (c : Cursor) (m n : Nat) : (c.advance m).advance n = c.advance (m + n) := by
  simp only [advance, List.take_add, List.length_append, List.drop_drop, Nat.add_assoc]

/-- A cursor that is passed on the way to another one cuts off a suffix of the passage. -/
theorem Over.exists_suffix {bytes : Bytes} (h : c.Over bytes next) (hmiddle : c.Reaches middle)
    (hle : middle.offset ≤ next.offset) : ∃ inside, middle.Over inside next ∧ inside <:+ bytes := by
  obtain ⟨before, hrest, hoffset⟩ := hmiddle
  have hnext := h.offset
  rcases List.append_eq_append_iff.1 (hrest.symm.trans h.rest) with ⟨inside, rfl, hinside⟩ | ⟨more, rfl, hmore⟩
  · rw [List.length_append] at hnext
    exact ⟨inside, ⟨hinside, by omega⟩, List.suffix_append before inside⟩
  · rw [List.length_append] at hoffset
    obtain rfl := List.eq_nil_of_length_eq_zero (l := more) (by omega)
    exact ⟨[], ⟨hmore.symm, by rw [List.length_nil] at hoffset ⊢; omega⟩, List.nil_suffix⟩

theorem upTo?_eq_some {span : Span} :
    c.upTo? next = some span ↔ c.offset < next.offset ∧ c.upTo next = span := by
  rw [Cursor.upTo?, Option.ite_none_right_eq_some, Option.some.injEq]

end Cursor

section Cursors

variable {c next : Cursor}

theorem inOrder_nil (h : c.Reaches next) : InOrder c.offset [] next.offset := h.offset_le

theorem inOrder_upTo (h : c.Reaches next) : InOrder c.offset [c.upTo next] next.offset :=
  ⟨Nat.le_refl _, h.offset_le, Nat.le_refl _⟩

theorem inOrder_upTo? (h : c.Reaches next) : InOrder c.offset (c.upTo? next).toList next.offset := by
  rw [Cursor.upTo?]
  split
  · exact inOrder_upTo h
  · exact inOrder_nil h

theorem encloses_of_over {input opening terminator content : Bytes} {first stop : Cursor}
    (hc : (start input).Reaches c) (hopening : c.Over opening first) (hcontent : first.Over content stop)
    (hterminator : stop.Over terminator next) (hfirst : ¬ terminator <:+: content) :
    Encloses input opening terminator (c.upTo next) (first.upTo stop) := by
  have hwhole : c.Over (opening ++ (content ++ terminator)) next :=
    over_append.2 ⟨first, hopening, over_append.2 ⟨stop, hcontent, hterminator⟩⟩
  have hinner : (first.upTo stop).slice input = content := hcontent.slice (hc.trans hopening.reaches)
  refine ⟨?_, hopening.offset, hterminator.offset.symm, ?_⟩
  · rw [hwhole.slice hc, hinner]
  · rwa [hinner]

end Cursors

namespace Token

variable {c next : Cursor}

theorem inOrder_readQuoted {span : Span} (h : readQuoted? c = some (span, next)) :
    InOrder c.offset [span] next.offset := by
  obtain ⟨quote, close, -, -, hclose, rfl, rfl⟩ := readQuoted?_eq_some_iff.1 h
  exact (inOrder_upTo (reaches_seek hclose)).mono (c.reaches_advance 1).offset_le
    (close.reaches_advance 1).offset_le

theorem inOrder_readOptionalQuoted (c : Cursor) :
    InOrder c.offset (readOptionalQuoted c).1.toList (readOptionalQuoted c).2.offset := by
  rw [readOptionalQuoted]
  split
  · rename_i span next hquoted
    exact inOrder_readQuoted hquoted
  · exact Nat.le_refl _

theorem inOrder_readExternalId (c : Cursor) :
    InOrder c.offset ((readExternalId c).1.toList ++ ((readExternalId c).2.1.toList ++
      (readExternalId c).2.2.1.toList)) (readExternalId c).2.2.2.offset := by
  have hkeyword := inOrder_upTo (c.reaches_advance 6)
  have hspace : ∀ d : Cursor, InOrder d.offset (readOptionalQuoted d.skipWhitespace).1.toList
      (readOptionalQuoted d.skipWhitespace).2.offset := fun d =>
    (inOrder_readOptionalQuoted d.skipWhitespace).mono d.reaches_skipWhitespace.offset_le (Nat.le_refl _)
  rw [readExternalId]
  split
  · exact hkeyword.append ((hspace _).append (hspace _))
  · split
    · exact hkeyword.append (hspace _)
    · exact Nat.le_refl _

theorem inOrder_readSubset {subset : Option Span} (h : readSubset? c = some (subset, next)) :
    InOrder c.offset subset.toList next.offset := by
  rcases cases_readSubset h with ⟨close, hclose, rfl, rfl⟩ | ⟨rfl, rfl⟩
  · exact (inOrder_upTo (reaches_seek hclose)).mono (c.reaches_advance 1).offset_le
      (close.reaches_advance 1).offset_le
  · exact Nat.le_refl _

theorem inOrder_readPseudoAttribute {name : Bytes} {value : Span}
    (h : readPseudoAttribute? c = some (name, value, next)) :
    c.Reaches next ∧ InOrder c.offset [value] next.offset := by
  obtain ⟨named, hnamed, -, -, hquoted, -⟩ := exists_of_readPseudoAttribute h
  have hbefore := c.reaches_skipWhitespace.trans ((reaches_afterName hnamed).trans
    (Tag.reaches_valued named))
  exact ⟨hbefore.trans (reaches_readQuoted hquoted),
    (inOrder_readQuoted hquoted).mono hbefore.offset_le (Nat.le_refl _)⟩

/-- The values of a declaration follow one another. -/
theorem inOrder_readPseudoAttributes (c : Cursor) :
    InOrder c.offset ((readPseudoAttributes c).1.map (·.2)) (c.offset + c.rest.length) := by
  fun_induction readPseudoAttributes c with
  | case1 | case2 => exact Nat.le_add_right _ _
  | case3 c hend name value next hread found complete hfound ih =>
    obtain ⟨hreaches, hvalue⟩ := inOrder_readPseudoAttribute hread
    rw [hfound, hreaches.length] at ih
    exact hvalue.append ih

theorem mem_of_lastValue? {found : List (Bytes × Span)} {name : String} {value : Span}
    (h : lastValue? found name = some value) : (Bytes.ofString name, value) ∈ found := by
  obtain ⟨⟨given, last⟩, hfind, rfl⟩ := Option.map_eq_some_iff.1 h
  have hname := List.find?_some hfind
  rw [← beq_iff_eq.1 hname]
  exact List.mem_reverse.1 (List.mem_of_find?_eq_some hfind)

variable {input : Bytes} {token : Token} {dialect : Dialect}

theorem lies_readDelimited {construct : Construct} {make : Span → Span → Token} {opening terminator : Bytes}
    (hspans : ∀ outer inner, (make outer inner).spans = [outer, inner])
    (hshaped : ∀ outer inner, (make outer inner).Shaped input ↔
      Encloses input opening terminator outer inner)
    (hterminator : terminator ≠ []) (hc : (start input).Reaches c) (hstarts : c.startsWith opening)
    (h : readDelimited construct make opening.length terminator c = .ok (token, next)) :
    token.Lies input c next := by
  obtain ⟨stop, hstop, rfl, rfl⟩ := exists_of_readDelimited h
  have hopening := over_of_startsWith hstarts
  obtain ⟨content, hcontent, hfirst⟩ := exists_over_of_seekBytes? hterminator hstop
  have hfound := found_of_seek? hstop
  have hclosing : stop.Over terminator (stop.advance terminator.length) := over_of_startsWith hfound
  refine ⟨?_, (hshaped _ _).2 (encloses_of_over hc hopening hcontent hclosing hfirst)⟩
  have hinner := (Span.within_upTo hcontent.reaches).mono hopening.reaches.offset_le
    hclosing.reaches.offset_le
  have houter := Span.within_upTo
    (hopening.reaches.trans (hcontent.reaches.trans hclosing.reaches))
  rw [hspans]
  exact List.forall_mem_cons.2 ⟨houter, List.forall_mem_singleton.2 hinner⟩

theorem lies_of_inOrder {d : Doctype} (hspan : d.span = c.upTo next)
    (h : InOrder c.offset d.pieces next.offset) : (doctype d).Lies input c next := by
  refine ⟨List.forall_mem_cons.2 ⟨?_, h.within⟩, h.pairwise⟩
  rw [hspan]
  exact ⟨Nat.le_refl _, h.le, Nat.le_refl _⟩

theorem lies_readDoctype (h : readDoctype c = .ok (token, next)) : token.Lies input c next := by
  obtain ⟨rootEnd, afterId, subset, afterSubset, close, hroot, hid, hsubset, hclose, rfl, rfl⟩ :=
    exists_of_readDoctype h
  have hkeyword : (c.advance 2).Reaches (c.advance 9) := by
    rw [← advance_advance c 2 7]
    exact (c.advance 2).reaches_advance 7
  have hnamed : InOrder (c.advance 9).skipWhitespace.offset
      ((c.advance 9).skipWhitespace.upTo? rootEnd).toList rootEnd.offset := by
    rw [hroot]
    exact inOrder_upTo? (reaches_getD_afterLooseName [0x5B] (Reaches.refl _))
  have hidentified := inOrder_readExternalId rootEnd.skipWhitespace
  have hinside := inOrder_readSubset hsubset
  rw [← hid] at hidentified
  have hend := ((reaches_seek hclose).trans (close.reaches_advance 1)).offset_le
  refine lies_of_inOrder rfl ?_
  have hfirst := (inOrder_upTo hkeyword).mono (c.reaches_advance 2).offset_le
    (c.advance 9).reaches_skipWhitespace.offset_le
  have hmiddle := (hnamed.mono (Nat.le_refl _) rootEnd.reaches_skipWhitespace.offset_le).append
    (hidentified.mono (Nat.le_refl _) afterId.reaches_skipWhitespace.offset_le)
  exact hfirst.append (hmiddle.append (hinside.mono (Nat.le_refl _) hend))

/-- The values of two names are two values, and so they lie apart. -/
theorem apart_of_lastValue? {found : List (Bytes × Span)} {name name' : String} {value value' : Span}
    (hfound : (found.map (·.2)).Pairwise fun a b => a.stop ≤ b.start)
    (hne : Bytes.ofString name ≠ Bytes.ofString name') (h : lastValue? found name = some value)
    (h' : lastValue? found name' = some value') : value.Apart value' := by
  have hsymmetric : Std.Symm fun a b : Bytes × Span => a.2.Apart b.2 := ⟨fun a b hab => hab.symm⟩
  have happart : found.Pairwise fun a b => a.2.Apart b.2 := (List.pairwise_map.1 hfound).imp .inl
  exact happart.forall (mem_of_lastValue? h) (mem_of_lastValue? h') fun heq => hne (congrArg Prod.fst heq)

theorem pairwise_toList {R : Span → Span → Prop} (value : Option Span) : value.toList.Pairwise R := by
  cases value with
  | none => exact List.Pairwise.nil
  | some span => exact List.pairwise_singleton R span

section Values

variable {d : XmlDeclaration} {found : List (Bytes × Span)}

/-- The values of a declaration are the last ones that are found for its names. -/
structure Takes (found : List (Bytes × Span)) (d : XmlDeclaration) : Prop where
  version : d.version = lastValue? found "version"
  encoding : d.encoding = lastValue? found "encoding"
  standalone : d.standalone = lastValue? found "standalone"

theorem Takes.mem_values (h : Takes found d) {value : Span} (hvalue : value ∈ d.values) :
    ∃ name, (name, value) ∈ found := by
  simp only [XmlDeclaration.values, List.mem_append, Option.mem_toList, h.version, h.encoding,
    h.standalone] at hvalue
  rcases hvalue with hvalue | hvalue | hvalue
  all_goals exact ⟨_, mem_of_lastValue? hvalue⟩

theorem Takes.pairwise_values (h : Takes found d)
    (hfound : (found.map (·.2)).Pairwise fun a b => a.stop ≤ b.start) : d.values.Pairwise Span.Apart := by
  have happart : ∀ {name name' : String}, Bytes.ofString name ≠ Bytes.ofString name' →
      ∀ a ∈ (lastValue? found name).toList, ∀ b ∈ (lastValue? found name').toList, a.Apart b :=
    fun hne a ha b hb => apart_of_lastValue? hfound hne (Option.mem_toList.1 ha) (Option.mem_toList.1 hb)
  rw [XmlDeclaration.values, h.version, h.encoding, h.standalone]
  refine List.pairwise_append.2 ⟨pairwise_toList _, List.pairwise_append.2
    ⟨pairwise_toList _, pairwise_toList _, happart (by decide)⟩, fun a ha b hb => ?_⟩
  rcases List.mem_append.1 hb with hb | hb
  · exact happart (by decide) a ha b hb
  · exact happart (by decide) a ha b hb

theorem Takes.lies (named : Cursor) {stop : Cursor} {body : Bytes} (h : Takes found d)
    (hfound : InOrder named.offset (found.map (·.2)) stop.offset) (hspan : d.span = c.upTo next)
    (hkeyword : d.keyword = (c.advance 2).upTo named) (hc : (start input).Reaches c)
    (hnamed : (c.advance 2).Reaches named) (hbody : named.Over body stop)
    (hclosing : stop.Over (Bytes.ofString "?>") next) : (xmlDeclaration d).Lies input c next := by
  have hoffset : next.offset = stop.offset + 2 := hclosing.offset
  have hopening := (c.reaches_advance 2).trans hnamed
  have hending := hbody.reaches.trans hclosing.reaches
  have hvalues : ∀ value ∈ d.values, value.Within named.offset stop.offset := by
    intro value hvalue
    obtain ⟨name, hmem⟩ := h.mem_values hvalue
    exact hfound.within _ (List.mem_map_of_mem hmem)
  refine ⟨?_, h.pairwise_values hfound.pairwise, fun value hvalue => ?_, ?_⟩
  · refine List.forall_mem_cons.2 ⟨?_, List.forall_mem_cons.2 ⟨?_, fun value hvalue => ?_⟩⟩
    · rw [hspan]
      exact Span.within_upTo (hopening.trans hending)
    · rw [hkeyword]
      exact (Span.within_upTo hnamed).mono (c.reaches_advance 2).offset_le hending.offset_le
    · exact (hvalues value hvalue).mono hopening.offset_le hclosing.reaches.offset_le
  · have hbounds := hvalues value hvalue
    rw [hkeyword, hspan]
    refine ⟨hbounds.start_le, ?_⟩
    rw [upTo, hoffset]
    exact Nat.add_le_add_right hbounds.stop_le 2
  · have hlast : Span.mk (d.span.stop - 2) d.span.stop = stop.upTo next := by
      rw [hspan, upTo, upTo, hoffset, Nat.add_sub_cancel]
    rw [hlast]
    exact hclosing.slice (hc.trans (hopening.trans hbody.reaches))

end Values

theorem lies_readInstruction (hc : (start input).Reaches c)
    (h : readInstruction dialect c = .ok (token, next)) : token.Lies input c next := by
  obtain ⟨named, stop, hnamed, hstop, hread⟩ := exists_of_readInstruction h
  have hname := reaches_afterName hnamed
  obtain ⟨body, hbody, hfirst⟩ := exists_over_of_seekBytes? (by decide) hstop
  have hfound := found_of_seek? hstop
  have hclosing : stop.Over (Bytes.ofString "?>") (stop.advance 2) := over_of_startsWith hfound
  rcases hread with ⟨-, hdeclaration⟩ | ⟨-, rfl, rfl⟩
  · obtain ⟨found, complete, hvalues, -, rfl, rfl⟩ := exists_of_readDeclaration hdeclaration
    have hinside := inOrder_readPseudoAttributes ⟨named.offset, named.bytesUpTo stop⟩
    rw [hvalues, hbody.bytesUpTo, ← hbody.offset] at hinside
    exact Takes.lies named ⟨rfl, rfl, rfl⟩ hinside rfl rfl hc hname hbody hclosing
  · have hspace := named.reaches_skipWhitespace
    have hopening := (c.reaches_advance 2).trans hname
    have hending := hclosing.reaches.offset_le
    refine ⟨?_, fun inside hinside => ?_⟩
    · refine List.forall_mem_cons.2 ⟨?_, List.forall_mem_cons.2 ⟨?_, fun inside hinside => ?_⟩⟩
      · exact Span.within_upTo (hopening.trans (hbody.reaches.trans hclosing.reaches))
      · exact (Span.within_upTo hname).mono (c.reaches_advance 2).offset_le
          (hbody.reaches.trans hclosing.reaches).offset_le
      · obtain ⟨hlt, rfl⟩ := upTo?_eq_some.1 (Option.mem_toList.1 hinside)
        exact ⟨(hopening.trans hspace).offset_le, Nat.le_of_lt hlt, hending⟩
    · obtain ⟨hlt, rfl⟩ := upTo?_eq_some.1 hinside
      obtain ⟨content, hcontent, hsuffix⟩ := hbody.exists_suffix hspace (Nat.le_of_lt hlt)
      refine ⟨hspace.offset_le, hclosing.offset.symm, fun hmatch => hfirst ?_⟩
      rw [hcontent.slice (hc.trans (hopening.trans hspace))] at hmatch
      exact hmatch.trans hsuffix.isInfix

theorem lies_readCloseTag (h : readCloseTag dialect c = .ok (token, next)) : token.Lies input c next := by
  have htiled := readCloseTag_tiled h
  obtain ⟨tag, rfl, hname⟩ := within_readCloseTag h
  refine ⟨?_, trivial⟩
  have hpieces := htiled.2.within
  have hspan : tag.span = c.upTo next := htiled.span_eq
  simp only [pieces, spans, hspan, List.forall_mem_cons, List.forall_mem_append] at hpieces ⊢
  exact ⟨Span.within_upTo htiled.1, hpieces.1, hname, hpieces.2.2.1, hpieces.2.1⟩

end Token

namespace Tag

variable {c next : Cursor} {input : Bytes} {dialect : Dialect} {tagStart : Nat}

theorem enclosed_or_bare {outer value : Span} (hc : (start input).Reaches c)
    (h : readValue dialect tagStart c = .ok (outer, value, next)) :
    (∃ quote, isQuote quote ∧ Encloses input [quote] [quote] outer value) ∨
      (value = outer ∧ ∀ b, (outer.slice input).head? = some b → ¬ isQuote b) := by
  rcases cases_readValue h with
    ⟨quote, close, hpeek, hquote, hclose, -, rfl, rfl, rfl⟩ | ⟨b, -, hpeek, hbare, rfl, rfl, rfl⟩
  · obtain ⟨content, hcontent, hfirst⟩ := exists_over_of_seekByte? hclose
    have hclosing := over_of_peek? (peek?_of_seekByte? hclose)
    exact .inl ⟨quote, hquote, encloses_of_over hc (over_of_peek? hpeek) hcontent hclosing
      fun hmatch => hfirst (hmatch.subset List.mem_cons_self)⟩
  · refine .inr ⟨rfl, fun first hfirst => ?_⟩
    obtain ⟨bytes, hover, -⟩ := c.exists_over_skip fun b => !(isWhitespace b || b == greaterThan)
    rw [hover.slice hc] at hfirst
    rw [peek?, hover.rest, List.head?_append, hfirst] at hpeek
    obtain rfl : first = b := Option.some.inj hpeek
    exact hbare

theorem shaped_readAttribute {a : Attribute} (hc : (start input).Reaches c)
    (h : readAttribute dialect tagStart c = .ok (a, next)) : (TagPart.attr a).Shaped input := by
  have hspan := (readAttribute_spec h).2
  have hlaidOut := laidOut_readAttribute h
  have hwhole : a.span.Within a.span.start a.span.stop := by
    rw [hspan]
    exact Span.within_upTo (readAttribute_spec h).1
  obtain ⟨named, hnamed, ⟨_, outer, value, -, rfl, hvalue, rfl⟩ | ⟨-, rfl, rfl⟩⟩ :=
    exists_of_readAttribute h
  · obtain ⟨hreaches, rfl⟩ := readValue_spec hvalue
    have hname := reaches_readName hnamed
    have hoperator := reaches_valued named
    have hvalued := (readValue_within hvalue).mono (hname.trans hoperator).offset_le (Nat.le_refl _)
    refine ⟨?_, ?_⟩
    · simp only [TagPart.spans, Option.toList_some, List.flatMap_singleton, Assignment.spans,
        List.forall_mem_cons]
      exact ⟨hwhole, hlaidOut.name, (Span.within_upTo hoperator).mono hname.offset_le hreaches.offset_le,
        (Span.within_upTo hreaches).mono (hname.trans hoperator).offset_le (Nat.le_refl _), hvalued,
        List.forall_mem_nil _⟩
    · rintro _ _ ⟨⟩ ⟨⟩
      exact ⟨rfl, rfl, enclosed_or_bare (hc.trans (hname.trans hoperator)) hvalue⟩
  · refine ⟨?_, ?_⟩
    · simp only [TagPart.spans, List.forall_mem_cons]
      exact ⟨hwhole, hlaidOut.name, List.forall_mem_nil _⟩
    · rintro _ _ ⟨⟩ ⟨⟩

theorem shaped_whitespace (h : c.Reaches next) : (TagPart.whitespace (c.upTo next)).Shaped input :=
  ⟨List.forall_mem_singleton.2 (Span.within_upTo h), nofun⟩

theorem shaped_readParts {separated : Bool} {parts : List TagPart} {tail : Span × Bool × Cursor}
    (hc : (start input).Reaches c) (h : readParts dialect tagStart separated c = .ok (parts, tail)) :
    ∀ part ∈ parts, part.Shaped input := by
  fun_induction readParts dialect tagStart separated c generalizing parts tail with
  | case1 | case5 | case7 | case8 => cases h
  | case2 separated c =>
    rename_i ih
    obtain ⟨rest, hrest, rfl⟩ := map_cons_eq_ok h
    exact List.forall_mem_cons.2 ⟨shaped_whitespace c.reaches_skipWhitespace,
      ih (hc.trans c.reaches_skipWhitespace) hrest⟩
  | case3 | case4 =>
    obtain ⟨rfl, -⟩ := Prod.mk.inj (Except.ok.inj h)
    exact List.forall_mem_nil _
  | case6 separated c =>
    rename_i ih
    obtain ⟨rest, hrest, rfl⟩ := map_cons_eq_ok h
    exact List.forall_mem_cons.2 ⟨shaped_whitespace (c.reaches_advance 1),
      ih (hc.trans (c.reaches_advance 1)) hrest⟩
  | case9 separated c _ _ _ _ _ _ _ a next ha ih =>
    obtain ⟨rest, hrest, rfl⟩ := map_cons_eq_ok h
    exact List.forall_mem_cons.2 ⟨shaped_readAttribute hc ha,
      ih (hc.trans (readAttribute_spec ha).1) hrest⟩

end Tag

namespace Token

variable {input : Bytes} {c next : Cursor} {token : Token} {dialect : Dialect}

theorem shaped_readOpenTag {tag : OpenTag} (hc : (start input).Reaches c)
    (h : readOpenTag dialect c = .ok (openTag tag, next)) : ∀ part ∈ tag.parts, part.Shaped input := by
  obtain ⟨named, parts, close, selfClosing, hnamed, hparts, htag⟩ := exists_of_readOpenTag h
  obtain rfl := openTag.inj htag
  exact Tag.shaped_readParts (hc.trans ((c.reaches_advance 1).trans (reaches_afterName hnamed))) hparts

theorem lies_readOpenTag (hc : (start input).Reaches c)
    (h : readOpenTag dialect c = .ok (token, next)) : token.Lies input c next := by
  have htiled := readOpenTag_tiled h
  obtain ⟨tag, rfl, hopens⟩ := opens_readOpenTag h
  have hshaped := shaped_readOpenTag hc h
  have hpieces := htiled.2.within
  have hspan : tag.span = c.upTo next := htiled.span_eq
  simp only [pieces, List.forall_mem_cons, List.forall_mem_append, List.forall_mem_map] at hpieces
  refine ⟨?_, hshaped⟩
  simp only [spans, hspan, List.forall_mem_cons, List.forall_mem_flatMap]
  refine ⟨Span.within_upTo htiled.1, hpieces.1, ?_, hpieces.2.2.1, fun part hpart span hmem => ?_⟩
  · exact hopens.name.mono (Nat.le_refl _) hopens.parts.le
  · have hinside := hpieces.2.1 part hpart
    exact ((hshaped part hpart).within span hmem).mono hinside.start_le hinside.stop_le

theorem lies_readMarkup (hc : (start input).Reaches c)
    (h : readMarkup dialect c = .ok (token, next)) : token.Lies input c next := by
  rw [readMarkup] at h
  split at h
  · rename_i hstarts
    exact lies_readDelimited (fun _ _ => rfl) (fun _ _ => Iff.rfl) (by decide) hc hstarts h
  split at h
  · rename_i hstarts
    exact lies_readDelimited (fun _ _ => rfl) (fun _ _ => Iff.rfl) (by decide) hc hstarts h
  split at h
  · exact lies_readDoctype h
  split at h
  · exact lies_readInstruction hc h
  split at h
  · exact lies_readCloseTag h
  exact lies_readOpenTag hc h

end Token

/-- A span that lies in a piece of the document covers all of its bytes. -/
theorem Span.Within.covers {input : Bytes} {first last : Nat} {span : Span} (h : span.Within first last)
    (hlast : last ≤ input.length) :
    span.slice input = (input.drop span.start).take span.length ∧
      (span.slice input).length = span.length := by
  have hstop := Nat.le_trans h.stop_le hlast
  have hslice : span.slice input = (input.drop span.start).take span.length := Span.slice_eq_of_le hstop
  refine ⟨hslice, ?_⟩
  rw [hslice, List.length_take, List.length_drop, Span.length]
  omega

namespace TokenStream

variable {input : Bytes} {s t : TokenStream} {token : Token}

theorem Outcome.lies (hc : (start input).Reaches s.cursor) (h : s.Outcome (.ok (some token), t)) :
    token.Lies input s.cursor t.cursor := by
  cases h with
  | text hreach => exact ⟨List.forall_mem_singleton.2 (Span.within_upTo hreach), trivial⟩
  | node hread | opened hread | repeated _ hread => exact Token.lies_readMarkup hc hread

end TokenStream

end MarkupStream
