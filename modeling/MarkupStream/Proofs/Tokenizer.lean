import MarkupStream.Proofs.Continuation
import MarkupStream.Proofs.Geometry
import MarkupStream.Token.Tokenizer

/-!
A tokenizer refines the token stream. As long as the document is not too long, every span that is read lies in
it and is held by its words, so that whatever is looked up by these words is what was read. Then a
tokenizer gives step by step what its stream gives, and so in every run.
-/
namespace MarkupStream

open Byte Cursor

section Held

variable {f : Span → Span}

theorem map_span_eq_self {span? : Option Span} (h : ∀ span ∈ span?.toList, f span = span) :
    span?.map f = span? := by
  cases span? with
  | none => rfl
  | some span => rw [Option.map_some, h span List.mem_cons_self]

theorem TagPart.mapSpans_eq_self {part : TagPart} (h : ∀ span ∈ part.spans, f span = span) :
    part.mapSpans f = part := by
  cases part with
  | whitespace span => rw [mapSpans, h span List.mem_cons_self]
  | attr a =>
    obtain ⟨name, assigned⟩ := a
    obtain ⟨-, h⟩ := List.forall_mem_cons.1 h
    obtain ⟨hname, hassigned⟩ := List.forall_mem_cons.1 h
    rw [mapSpans, Attribute.mapSpans, hname]
    cases assigned with
    | none => rfl
    | some s =>
      simp only [Option.toList_some, List.flatMap_singleton, Assignment.spans, List.forall_mem_cons] at hassigned
      obtain ⟨hoperator, houter, hvalue, -⟩ := hassigned
      rw [Option.map_some, Assignment.mapSpans, hoperator, houter, hvalue]

/-- A token whose spans all stay as they are stays as it is. -/
theorem Token.mapSpans_eq_self {token : Token} (h : ∀ span ∈ token.spans, f span = span) :
    token.mapSpans f = token := by
  cases token with
  | text span => rw [mapSpans, h span List.mem_cons_self]
  | comment span content | cdata span content =>
    simp only [spans, List.forall_mem_cons] at h
    rw [mapSpans, h.1, h.2.1]
  | doctype d =>
    simp only [spans, Doctype.pieces, List.forall_mem_cons, List.forall_mem_append] at h
    obtain ⟨hspan, hkeyword, ⟨hroot, hkind, hpublic, hsystem⟩, hsubset⟩ := h
    rw [mapSpans, Doctype.mapSpans, hspan, hkeyword, map_span_eq_self hroot, map_span_eq_self hkind,
      map_span_eq_self hpublic, map_span_eq_self hsystem, map_span_eq_self hsubset]
  | xmlDeclaration d =>
    simp only [spans, XmlDeclaration.values, List.forall_mem_cons, List.forall_mem_append] at h
    obtain ⟨hspan, hkeyword, hversion, hencoding, hstandalone⟩ := h
    rw [mapSpans, XmlDeclaration.mapSpans, hspan, hkeyword, map_span_eq_self hversion,
      map_span_eq_self hencoding, map_span_eq_self hstandalone]
  | instruction span target content =>
    simp only [spans, List.forall_mem_cons] at h
    obtain ⟨hspan, htarget, hcontent⟩ := h
    rw [mapSpans, hspan, htarget, map_span_eq_self hcontent]
  | openTag tag =>
    simp only [spans, List.forall_mem_cons, List.forall_mem_flatMap] at h
    obtain ⟨-, hstart, hname, hclose, hparts⟩ := h
    have hparts : tag.parts.map (TagPart.mapSpans f) = tag.parts :=
      (List.map_congr_left fun part hmem => TagPart.mapSpans_eq_self (hparts part hmem)).trans (List.map_id _)
    rw [mapSpans, OpenTag.mapSpans, hstart, hname, hclose, hparts]
  | closeTag tag =>
    simp only [spans, List.forall_mem_cons] at h
    obtain ⟨-, hstart, hname, hclose, hwhitespace⟩ := h
    rw [mapSpans, CloseTag.mapSpans, hstart, hname, hclose, map_span_eq_self hwhitespace]

/-- Words hold the spans of what is not too long. -/
theorem Span.Within.inWords {first last : Nat} {span : Span} (h : span.Within first last)
    (hlast : last ≤ maxInputLength) : span.inWords = span :=
  inWords_eq_self h.le (Nat.le_trans h.stop_le hlast)

theorem Token.Lies.inWords {input : Bytes} {c next : Cursor} {token : Token} (h : token.Lies input c next)
    (hnext : next.offset ≤ Span.maxInputLength) : token.inWords = token :=
  mapSpans_eq_self fun span hspan => (h.within span hspan).inWords hnext

end Held

namespace Token

variable {doc : Repetition} {c named stop next : Cursor} {dialect : Dialect}

/-- The names that the words for them name are those that were read. -/
theorem readPseudoAttributesInWords_eq {body tail : Bytes} (hdoc : doc.bytes = body ++ tail)
    (hlength : doc.length ≤ Span.maxInputLength) (hc : (start body).Reaches c) :
    readPseudoAttributesInWords doc c = readPseudoAttributes c := by
  fun_induction readPseudoAttributes c with
  | case1 c hend => rw [readPseudoAttributesInWords, if_pos hend]
  | case2 c hend hnone =>
    rw [readPseudoAttributesInWords, if_neg hend]
    split
    · rfl
    · rename_i hsome
      cases hnone.symm.trans hsome
  | case3 c hend name value next hread found complete hfound ih =>
    obtain ⟨named, hnamed, -, -, -, rfl⟩ := exists_of_readPseudoAttribute hread
    obtain ⟨hreaches, -⟩ := inOrder_readPseudoAttribute hread
    have hspace := hc.trans c.reaches_skipWhitespace
    obtain ⟨name, hname, -⟩ := exists_over_of_afterName? hnamed
    have hend : named.offset ≤ Span.maxInputLength := by
      have hbody := (hspace.trans hname.reaches).offset_le_length
      rw [← Repetition.length_bytes, hdoc, List.length_append] at hlength
      omega
    have hheld : (Span.ofLength c.skipWhitespace.offset name.length).inWords =
        c.skipWhitespace.upTo named := by
      rw [← hname.upTo_eq]
      exact (Span.within_upTo hname.reaches).inWords hend
    have hlookup : doc.slice (c.skipWhitespace.upTo named) = name := by
      have hbehind : (start (body ++ tail)).Reaches (c.skipWhitespace.withTail tail) := hspace.withTail
      have hslice := hname.withTail.slice hbehind
      rwa [Repetition.slice_eq, hdoc]
    rw [readPseudoAttributesInWords, if_neg ‹_›]
    split
    · rename_i hnone
      cases hnone.symm.trans hread
    · rename_i hsome
      obtain ⟨rfl, rfl, rfl⟩ : _ ∧ _ ∧ _ := by simpa using hread.symm.trans hsome
      rw [ih (hc.trans hreaches), hfound, hname.bytesUpTo, hheld]
      dsimp only
      rw [hlookup]

/-- What is looked up between a target and the end of its instruction is what was read there. -/
theorem readBodyInWords_eq {body : Bytes} (hlength : doc.length ≤ Span.maxInputLength)
    (hc : (start doc.bytes).Reaches named) (hbody : named.Over body stop) :
    readBodyInWords doc named.offset stop.offset = readPseudoAttributes ⟨named.offset, body⟩ := by
  have hbytes : (doc.between named.offset stop.offset).bytes = body := by
    rw [Repetition.bytes_between]
    exact (Span.slice_eq_of_le (hc.trans hbody.reaches).offset_le_length).symm.trans (hbody.slice hc)
  unfold readBodyInWords
  dsimp only
  rw [Repetition.head?_eq, hbytes]
  cases body with
  | nil =>
    rw [readPseudoAttributes]
    rfl
  | cons b body =>
    dsimp only [List.head?_cons]
    split
    · obtain ⟨before, hbefore, hoffset⟩ := hc
      have hdoc : doc.bytes = (before ++ b :: body) ++ stop.rest := by
        rw [List.append_assoc, ← hbody.rest]
        exact hbefore
      exact readPseudoAttributesInWords_eq hdoc hlength ⟨before, rfl, hoffset⟩
    · rename_i hplain
      have hstay : skipWhitespace ⟨named.offset, b :: body⟩ = ⟨named.offset, b :: body⟩ :=
        skipWhitespace_eq_self rfl hplain
      rw [readPseudoAttributes, hstay, if_neg (show ¬ (b :: body).isEmpty from Bool.false_ne_true)]
      split
      · rfl
      · rename_i hread
        obtain ⟨-, -, hapart, -⟩ := exists_of_readPseudoAttribute hread
        rw [hstay] at hapart
        exact absurd hapart (Nat.lt_irrefl _)

theorem readBehindTarget_congr {isDeclaration : Bool} {f g : Cursor → Except Refusal (Token × Cursor)}
    (h : ∀ stop, named.seekBytes? (Bytes.ofString "?>") = some stop → f stop = g stop) :
    readBehindTarget dialect c named isDeclaration f = readBehindTarget dialect c named isDeclaration g := by
  unfold readBehindTarget
  split
  · rfl
  · rename_i stop hstop
    rw [h stop hstop]

theorem readInstructionInWords_eq (hlength : doc.length ≤ Span.maxInputLength)
    (hc : (start doc.bytes).Reaches c) :
    readInstructionInWords dialect doc c = readInstruction dialect c := by
  unfold readInstructionInWords readInstruction
  dsimp only
  cases hnamed : (c.advance 2).afterName? with
  | none => rfl
  | some named =>
    dsimp only
    obtain ⟨target, htarget, -⟩ := exists_over_of_afterName? hnamed
    have hopened := hc.trans (c.reaches_advance 2)
    have hreach := hopened.trans htarget.reaches
    have hbound : named.offset ≤ Span.maxInputLength :=
      Nat.le_trans hreach.offset_le_length (Nat.le_trans (Nat.le_of_eq doc.length_bytes) hlength)
    have hheld : ((c.advance 2).upTo named).inWords = (c.advance 2).upTo named :=
      (Span.within_upTo htarget.reaches).inWords hbound
    have hlookup : doc.slice ((c.advance 2).upTo named) = (c.advance 2).bytesUpTo named := by
      rw [Repetition.slice_eq, htarget.slice hopened, htarget.bytesUpTo]
    rw [hheld, hlookup]
    refine readBehindTarget_congr fun stop hstop => ?_
    obtain ⟨body, hbody, -⟩ := exists_over_of_seekBytes? (by decide) hstop
    have hstop : (named.bytesUpTo stop) = body := hbody.bytesUpTo
    have hvalues := readBodyInWords_eq hlength hreach hbody
    rw [readDeclaration, hstop, ← hvalues]
    rfl

theorem readMarkupInWords_eq (hlength : doc.length ≤ Span.maxInputLength)
    (hc : (start doc.bytes).Reaches c) : readMarkupInWords dialect doc c = readMarkup dialect c := by
  rw [readMarkupInWords]
  split
  · rename_i hstarts
    rw [readInstructionInWords_eq hlength hc, readMarkup_of_instruction (over_of_startsWith hstarts)]
  · rfl

theorem reaches_readMarkupInWords {token : Token} (h : readMarkupInWords dialect doc c = .ok (token, next)) :
    c.Reaches next := by
  rw [readMarkupInWords] at h
  split at h
  · rw [readInstructionInWords] at h
    split at h
    · cases h
    · rename_i named hnamed
      obtain ⟨stop, hstop, hread⟩ := exists_of_readBehindTarget h
      have hnext : next = stop.advance 2 := by
        rcases hread with ⟨-, hmade⟩ | ⟨-, hnext, -⟩
        · exact (makeDeclaration_eq_ok hmade).2.1
        · exact hnext
      rw [hnext]
      exact ((c.reaches_advance 2).trans (reaches_afterName hnamed)).trans
        ((reaches_seek hstop).trans (stop.reaches_advance 2))
  · exact (readMarkup_tiled h).1

end Token

namespace Tokenizer

variable {t u : Tokenizer} {token : Token}

section Advance

/-!
What a step can do in a document of any length.
-/

/-- A step reads on in the document and gives a token, or it is the last one. -/
def Result.Advances (t : Tokenizer) (r : Result) : Prop :=
  ((∃ token, r.1 = .ok (some token)) ∧ r.2.doc = t.doc ∧ t.cursor.Reaches r.2.cursor) ∨
    ((∀ token, r.1 ≠ .ok (some token)) ∧ r.2.mode = .done)

theorem advances_fail (t u : Tokenizer) (e : ParseError) : (u.fail e).Advances t := .inr ⟨nofun, rfl⟩

theorem advances_emit {next : Place} (hdoc : u.doc = t.doc) (h : t.cursor.Reaches next.cursor) :
    (u.emit token next).Advances t := .inl ⟨⟨_, rfl⟩, hdoc, h⟩

theorem advances_emit_ofCursor {next : Cursor} (hdoc : u.doc = t.doc) (h : t.cursor.Reaches next) :
    (u.emit token (.ofCursor next)).Advances t :=
  advances_emit hdoc (by rwa [Place.cursor_ofCursor])

theorem advances_emit_skip (inClass : UInt8 → Bool) (hdoc : u.doc = t.doc) :
    (u.emit token (t.place.skip inClass)).Advances t :=
  advances_emit hdoc (by
    rw [Place.cursor_skip]
    exact t.cursor.reaches_skip _)

theorem advances_nextMarkup (t : Tokenizer) : t.nextMarkup.Advances t := by
  unfold nextMarkup
  split
  · rename_i hread
    have hreaches := Token.reaches_readMarkupInWords hread
    unfold emitOpenTag
    dsimp only
    split
    · exact advances_emit_ofCursor rfl hreaches
    · split
      · exact advances_fail _ _ _
      · exact advances_emit_ofCursor rfl hreaches
  · rename_i hread
    exact advances_emit_ofCursor rfl (Token.reaches_readMarkupInWords hread)
  · unfold reject
    split
    · exact advances_fail _ _ _
    · exact advances_emit_ofCursor rfl ((t.cursor.reaches_advance 1).trans (Cursor.reaches_nextTag _))

theorem advances_nextContent (t : Tokenizer) : t.nextContent.Advances t := by
  unfold nextContent
  split
  · exact .inr ⟨nofun, rfl⟩
  · split
    · exact advances_nextMarkup t
    · exact advances_emit_skip _ rfl

theorem advances_nextLiteral (t : Tokenizer) (name : Bytes) : (t.nextLiteral name).Advances t := by
  have hcontent : Result.Advances t (nextContent { t with mode := .content }) := advances_nextContent _
  unfold nextLiteral
  dsimp only
  split
  · rename_i stop hstop
    split
    · exact advances_emit_ofCursor rfl (reaches_seekCloseTag hstop)
    · exact hcontent
  · split
    · exact advances_fail _ _ _
    · split
      · exact advances_emit_skip _ rfl
      · exact hcontent

theorem advances_next (t : Tokenizer) : t.next.Advances t := by
  unfold next
  split
  · rename_i hdone
    exact .inr ⟨nofun, hdone⟩
  · exact advances_nextLiteral t _
  · exact advances_nextContent t

/-- A token takes at least one byte. -/
theorem reaches_next (h : t.next = (.ok (some token), u)) :
    u.doc = t.doc ∧ t.cursor.Reaches u.cursor ∧ t.offset < u.offset := by
  have hless := length_next_lt h
  have hadvances := advances_next t
  rw [h] at hadvances
  obtain ⟨-, hdoc, hreaches⟩ | ⟨hnone, -⟩ := hadvances
  · have hsum : u.offset + u.cursor.rest.length = t.offset + t.cursor.rest.length := hreaches.length
    exact ⟨hdoc, hreaches, by omega⟩
  · exact absurd rfl (hnone token)

/-- A tokenizer that gave no token is done, be it that the document ended or that reading failed. -/
theorem mode_next (h : ∀ token, t.next.1 ≠ .ok (some token)) : t.next.2.mode = .done := by
  obtain ⟨⟨token, htoken⟩, -⟩ | ⟨-, hdone⟩ := advances_next t
  · exact absurd htoken (h token)
  · exact hdone

end Advance

section Step

variable (hlength : t.doc.length ≤ Span.maxInputLength) (hc : (start t.doc.bytes).Reaches t.cursor)

include hlength hc

/-- A token that lies in the document is handed out as it is. -/
theorem stream_emit_of_lies {next : Place} (hnext : t.cursor.Reaches next.cursor)
    (hlies : token.Lies t.doc.bytes t.cursor next.cursor) :
    (t.emit token next).stream = t.stream.emit token next.cursor := by
  rw [stream_emit, hlies.inWords]
  exact Nat.le_trans (hc.trans hnext).offset_le_length
    (Nat.le_trans (Nat.le_of_eq t.doc.length_bytes) hlength)

theorem stream_emit_text {next : Place} (hnext : t.cursor.Reaches next.cursor) :
    (t.emit (.text (t.place.upTo next)) next).stream =
      t.stream.emit (.text (t.cursor.upTo next.cursor)) next.cursor :=
  stream_emit_of_lies hlength hc hnext ⟨List.forall_mem_singleton.2 (Span.within_upTo hnext), trivial⟩

theorem stream_reject (refusal : Refusal) : (t.reject refusal).stream = t.stream.reject refusal := by
  have hlocate : t.locate = t.stream.locate := funext t.locate_eq
  have hnext : t.cursor.Reaches (Place.ofCursor (t.cursor.advance 1).nextTag).cursor := by
    rw [Place.cursor_ofCursor]
    exact (t.cursor.reaches_advance 1).trans (Cursor.reaches_nextTag _)
  have htext := stream_emit_text (t := { t with parts := [] }) hlength hc hnext
  rw [Place.cursor_ofCursor] at htext
  rw [reject, TokenStream.reject, apply_ite Result.stream]
  dsimp only
  rw [htext, hlocate, stream_fail, stream, cursor, Place.cursor_ofCursor]
  rfl

theorem stream_nextMarkup : t.nextMarkup.stream = t.stream.nextMarkup := by
  have hbound : ∀ {next : Cursor}, t.cursor.Reaches next → next.offset ≤ Span.maxInputLength := by
    intro next hnext
    exact Nat.le_trans (hc.trans hnext).offset_le_length
      (Nat.le_trans (Nat.le_of_eq t.doc.length_bytes) hlength)
  rw [nextMarkup, Token.readMarkupInWords_eq hlength hc]
  split
  · rename_i tag next hread
    have hheld := (Token.lies_readMarkup hc hread).inWords (hbound (Token.readMarkup_tiled hread).1)
    have htag : tag.inWords = tag := Token.openTag.inj hheld
    rw [stream_emitOpenTag, htag, Place.cursor_ofCursor, TokenStream.nextMarkup_of_openTag hread]
  · rename_i token next hnot hread
    have hheld := (Token.lies_readMarkup hc hread).inWords (hbound (Token.readMarkup_tiled hread).1)
    rw [stream_emit, hheld, Place.cursor_ofCursor, TokenStream.nextMarkup_of_node (s := t.stream) hread hnot]
  · rename_i refusal hread
    have hmarkup : Token.readMarkup t.stream.dialect t.stream.cursor = .error refusal := hread
    rw [stream_reject hlength hc, TokenStream.nextMarkup, hmarkup]

theorem stream_nextContent : t.nextContent.stream = t.stream.nextContent := by
  have hreaches : t.cursor.Reaches (t.place.skip (· != lessThan)).cursor := by
    rw [Place.cursor_skip]
    exact t.cursor.reaches_skip _
  have htext := stream_emit_text hlength hc hreaches
  rw [Place.cursor_skip] at htext
  rw [nextContent, TokenStream.nextContent, Place.peek?_eq, show t.stream.cursor = t.place.cursor from rfl]
  cases t.place.cursor.peek? with
  | none => rfl
  | some b =>
    dsimp only
    rw [apply_ite Result.stream, stream_nextMarkup hlength hc, htext]
    rfl

theorem stream_nextLiteral (name : Bytes) : (t.nextLiteral name).stream = t.stream.nextLiteral name := by
  have hcontent := stream_nextContent (t := { t with mode := .content }) hlength hc
  have hfinish : ∀ {stop : Place}, t.cursor.Reaches stop.cursor →
      Result.stream (if t.offset < stop.offset then
          emit { t with mode := .content } (.text (t.place.upTo stop)) stop
        else nextContent { t with mode := .content }) =
      if t.offset < stop.cursor.offset then
        TokenStream.emit { t.stream with mode := .content } (.text (t.cursor.upTo stop.cursor)) stop.cursor
      else TokenStream.nextContent { t.stream with mode := .content } := by
    intro stop hstop
    rw [apply_ite Result.stream, hcontent,
      stream_emit_text (t := { t with mode := .content }) hlength hc hstop]
    rfl
  have hsame : cursor { t with mode := .content } = t.stream.cursor := rfl
  rw [nextLiteral, TokenStream.nextLiteral]
  dsimp only
  rw [hsame]
  cases hclose : t.stream.cursor.seekCloseTag? name t.dialect.ignoresCase with
  | some stop =>
    have hreaches : t.cursor.Reaches (Place.ofCursor stop).cursor := by
      rw [Place.cursor_ofCursor]
      exact reaches_seekCloseTag hclose
    have htext := hfinish hreaches
    rw [Place.cursor_ofCursor] at htext
    rw [show t.stream.cursor.seekCloseTag? name t.stream.dialect.ignoresCase = some stop from hclose]
    exact htext
  | none =>
    have hreaches : t.cursor.Reaches (t.place.skip fun _ => true).cursor := by
      rw [Place.cursor_skip]
      exact t.cursor.reaches_skip _
    have htext := hfinish hreaches
    rw [Place.cursor_skip] at htext
    rw [show t.stream.cursor.seekCloseTag? name t.stream.dialect.ignoresCase = none from hclose]
    have hfail : Result.stream (fail { t with mode := .content }
        (.unterminated .rawText (locate { t with mode := .content } t.offset))) =
        TokenStream.fail { t.stream with mode := .content }
          (.unterminated .rawText (t.stream.locate t.offset)) := by
      rw [stream_fail, locate_eq]
      rfl
    exact (apply_ite Result.stream _ _ _).trans (ite_congr rfl (fun _ => hfail) fun _ => htext)

end Step

/-- A tokenizer that may give tokens stands in the document. -/
def Stands (doc : Repetition) (t : Tokenizer) : Prop :=
  t.mode ≠ .done → t.doc = doc ∧ (start doc.bytes).Reaches t.cursor

section Stands

variable {doc : Repetition}

theorem stands_ofDocument (doc : Repetition) (dialect : Dialect) : (ofDocument doc dialect).Stands doc := by
  intro _
  rw [cursor, ofDocument, Place.cursor, Place.start, Repetition.joined_eq]
  exact ⟨rfl, Reaches.refl _⟩

theorem stands_of_reaches (h : (start t.doc.bytes).Reaches t.cursor) : t.Stands t.doc := fun _ => ⟨rfl, h⟩

theorem Stands.next (h : t.Stands doc) : t.next.2.Stands doc := by
  intro hm
  obtain ⟨⟨token, htoken⟩, hdoc, hreaches⟩ | ⟨-, hdone⟩ := advances_next t
  · have ht : t.mode ≠ .done := by
      intro hdone
      rw [Tokenizer.next, hdone] at htoken
      cases htoken
    obtain ⟨rfl, hc⟩ := h ht
    exact ⟨hdoc, hc.trans hreaches⟩
  · exact absurd hdone hm

theorem Stands.literalUntil (h : t.Stands doc) (name : Bytes) : (t.literalUntil name).Stands doc := by
  intro hm
  rw [Tokenizer.literalUntil] at hm ⊢
  split
  · rename_i hdone
    rw [hdone] at hm
    exact absurd hdone hm
  · rename_i ht
    exact h ht

variable (hlength : doc.length ≤ Span.maxInputLength)

include hlength

/-- A tokenizer gives what its stream gives and stays in step with it. -/
theorem Stands.stream_next (h : t.Stands doc) : t.next.stream = t.stream.next := by
  obtain ⟨other, dialect, place, mode, parts, position, warnings⟩ := t
  cases mode with
  | done => rfl
  | literal name =>
    obtain ⟨rfl, hc⟩ := h nofun
    exact stream_nextLiteral hlength hc name
  | content =>
    obtain ⟨rfl, hc⟩ := h nofun
    exact stream_nextContent hlength hc

theorem Stands.stream_of_next (h : t.Stands doc) {answer : Except ParseError (Option Token)}
    (hnext : t.next = (answer, u)) : t.stream.next = (answer, u.stream) := by
  rw [← h.stream_next hlength, hnext]
  rfl

theorem Stands.exists_next_iff (h : t.Stands doc) {answer : Except ParseError (Option Token)}
    {s : TokenStream} : (∃ u, t.next = (answer, u) ∧ u.stream = s) ↔ t.stream.next = (answer, s) := by
  constructor
  · rintro ⟨u, hnext, rfl⟩
    exact h.stream_of_next hlength hnext
  · intro hnext
    rw [← h.stream_next hlength] at hnext
    obtain ⟨hanswer, hs⟩ := Prod.mk.inj hnext
    exact ⟨t.next.2, Prod.ext hanswer rfl, hs⟩

/-- The tokens that are left are those of the stream. -/
theorem Stands.stream_rest (h : t.Stands doc) :
    (t.rest.1, t.rest.2.1, t.rest.2.2.stream) = t.stream.rest := by
  fun_induction rest t with
  | case1 t u hnext => rw [TokenStream.rest_of_none (h.stream_of_next hlength hnext)]
  | case2 t e u hnext => rw [TokenStream.rest_of_error (h.stream_of_next hlength hnext)]
  | case3 t token u hnext tokens error last hrest ih =>
    have hu : u.Stands doc := by
      have hstands := h.next
      rwa [hnext] at hstands
    rw [TokenStream.rest_of_token (h.stream_of_next hlength hnext), ← ih hu, hrest]

theorem exists_rest_iff {dialect : Dialect} {tokens : List Token} {error : Option ParseError}
    {s : TokenStream} :
    (∃ last, (ofDocument doc dialect).rest = (tokens, error, last) ∧ last.stream = s) ↔
      (TokenStream.ofInput doc.bytes dialect).rest = (tokens, error, s) := by
  rw [← stream_ofDocument, ← (stands_ofDocument doc dialect).stream_rest hlength]
  constructor
  · rintro ⟨last, hrest, rfl⟩
    rw [hrest]
  · intro hrest
    obtain ⟨htokens, hrest⟩ := Prod.mk.inj hrest
    obtain ⟨herror, hs⟩ := Prod.mk.inj hrest
    exact ⟨_, Prod.ext htokens (Prod.ext herror rfl), hs⟩

end Stands

end Tokenizer

end MarkupStream
