import MarkupStream.Proofs.OpenTagGrammar

/-!
Documents that go on. A reader of strict XML that accepts a construct has seen all of it: every name, every
terminator and every look-ahead ends in bytes that are there. So whatever bytes follow, the construct is
accepted as before. Only text has no end of its own and takes what is there up to the next `<`.
-/
namespace MarkupStream

open Byte Cursor

namespace Cursor

variable {c next : Cursor} {bytes : Bytes} {b : UInt8}

/-- The same place in a document with more bytes behind it. -/
def withTail (c : Cursor) (more : Bytes) : Cursor := ⟨c.offset, c.rest ++ more⟩

variable (more : Bytes)

@[simp] theorem rest_withTail (c : Cursor) : (c.withTail more).rest = c.rest ++ more := rfl

variable {more}

theorem Over.withTail (h : c.Over bytes next) : (c.withTail more).Over bytes (next.withTail more) := by
  refine ⟨?_, h.offset⟩
  rw [rest_withTail, rest_withTail, h.rest, List.append_assoc]

theorem Reaches.withTail {input : Bytes} (h : (start input).Reaches c) :
    (start (input ++ more)).Reaches (c.withTail more) := by
  obtain ⟨bytes, hrest, hoffset⟩ := h
  have hover : (start input).Over bytes c := ⟨hrest, hoffset⟩
  exact hover.withTail.reaches

theorem peek?_withTail (h : c.peek? = some b) : (c.withTail more).peek? = some b :=
  (over_of_peek? h).withTail.peek?

theorem advance_withTail (h : c.peek? = some b) : (c.withTail more).advance 1 = (c.advance 1).withTail more :=
  (over_of_peek? h).withTail.advance

theorem afterName?_withTail {named : Cursor} (h : c.afterName? = some named) (hnamed : named.peek? = some b) :
    (c.withTail more).afterName? = some (named.withTail more) := by
  obtain ⟨name, hname, hwellFormed, hend⟩ := exists_over_of_afterName? h
  exact hname.withTail.afterName? hwellFormed (peek?_withTail hnamed) (hend b hnamed)

theorem skipWhitespace_withTail (h : c.skipWhitespace.peek? = some b) :
    (c.withTail more).skipWhitespace = c.skipWhitespace.withTail more := by
  obtain ⟨space, hspace, hall, hend⟩ := c.exists_over_skipWhitespace
  refine hspace.withTail.skipSpace hall fun b' hb' => ?_
  rw [peek?_withTail h] at hb'
  exact hend b' (h.trans hb')

theorem seekBytes?_withTail {pattern : Bytes} {stop : Cursor} (h : c.seekBytes? pattern = some stop)
    (last : UInt8) (hlast : pattern = pattern.dropLast ++ [last]) (honce : last ∉ pattern.dropLast) :
    (c.withTail more).seekBytes? pattern = some (stop.withTail more) := by
  have hne : pattern ≠ [] := by
    rw [hlast]
    exact List.append_ne_nil_of_right_ne_nil _ (List.cons_ne_nil last [])
  obtain ⟨content, hcontent, hfirst⟩ := exists_over_of_seekBytes? hne h
  have hfound := found_of_seek? h
  have hpattern : stop.Over pattern (stop.advance pattern.length) := over_of_startsWith hfound
  exact hcontent.withTail.seekBytes? hpattern.withTail last hlast honce hfirst

theorem bytesUpTo_withTail (h : c.Reaches next) :
    (c.withTail more).bytesUpTo (next.withTail more) = c.bytesUpTo next := by
  obtain ⟨bytes, hrest, hoffset⟩ := h
  have hover : c.Over bytes next := ⟨hrest, hoffset⟩
  rw [hover.withTail.bytesUpTo, hover.bytesUpTo]

/-- Where a pattern is found, a byte of it is left. -/
theorem exists_peek?_of_mem (h : b ∈ c.rest) : ∃ first, c.peek? = some first := by
  obtain ⟨first, rest, hrest⟩ := List.exists_cons_of_ne_nil (List.ne_nil_of_mem h)
  exact ⟨first, by rw [peek?, hrest]; rfl⟩

end Cursor

namespace Token

variable {c next : Cursor} {token : Token} {more : Bytes}

theorem readDelimited_withTail {construct : Construct} {make : Span → Span → Token} {opening terminator : Bytes}
    (last : UInt8) (hlast : terminator = terminator.dropLast ++ [last]) (honce : last ∉ terminator.dropLast)
    (hstarts : c.startsWith opening)
    (h : readDelimited construct make opening.length terminator c = .ok (token, next)) :
    readDelimited construct make opening.length terminator (c.withTail more) =
      .ok (token, next.withTail more) := by
  have hopening := over_of_startsWith hstarts
  obtain ⟨stop, hstop, rfl, rfl⟩ := exists_of_readDelimited h
  have hfound := found_of_seek? hstop
  have hclosing : stop.Over terminator (stop.advance terminator.length) := over_of_startsWith hfound
  rw [readDelimited, hopening.withTail.advance, seekBytes?_withTail hstop last hlast honce]
  dsimp only
  rw [hclosing.withTail.advance]
  rfl

theorem readDeclaration_withTail {named stop : Cursor} (hnamed : named.Reaches stop)
    (hclosing : stop.Over (Bytes.ofString "?>") (stop.advance 2)) (hopening : c.Over (Bytes.ofString "<?") (c.advance 2))
    (h : readDeclaration .xml c named stop = .ok (token, next)) :
    readDeclaration .xml (c.withTail more) (named.withTail more) (stop.withTail more) =
      .ok (token, next.withTail more) := by
  have hadvance : (stop.withTail more).advance 2 = (stop.advance 2).withTail more := hclosing.withTail.advance
  have htarget : (c.withTail more).advance 2 = (c.advance 2).withTail more := hopening.withTail.advance
  rw [readDeclaration] at h ⊢
  dsimp only at h ⊢
  rw [makeDeclaration] at h ⊢
  rw [hadvance, htarget, bytesUpTo_withTail hnamed]
  split at h
  · cases h
  · rename_i haccepted
    obtain ⟨rfl, rfl⟩ := Prod.mk.inj (Except.ok.inj h)
    exact if_neg haccepted

theorem readInstruction_withTail (hopening : c.Over (Bytes.ofString "<?") (c.advance 2))
    (h : readInstruction .xml c = .ok (token, next)) :
    readInstruction .xml (c.withTail more) = .ok (token, next.withTail more) := by
  have htarget : (c.withTail more).advance 2 = (c.advance 2).withTail more := hopening.withTail.advance
  rw [readInstruction] at h ⊢
  split at h
  · cases h
  · rename_i named hnamed
    rw [readBehindTarget] at h
    split at h
    · cases h
    · rename_i stop hstop
      have hquestion : (0x3F : UInt8) ∈ named.rest := mem_of_seekBytes? (by decide) hstop
      obtain ⟨b, hb⟩ := exists_peek?_of_mem hquestion
      obtain ⟨b', hb'⟩ := exists_peek?_of_mem (mem_skipWhitespace hquestion (by decide))
      have hfound := found_of_seek? hstop
      have hclosing : stop.Over (Bytes.ofString "?>") (stop.advance 2) := over_of_startsWith hfound
      have hadvance : (stop.withTail more).advance 2 = (stop.advance 2).withTail more :=
        hclosing.withTail.advance
      rw [htarget, afterName?_withTail hnamed hb]
      dsimp only
      rw [readBehindTarget, seekBytes?_withTail hstop greaterThan (by decide) (by decide),
        bytesUpTo_withTail (reaches_afterName hnamed), skipWhitespace_withTail hb']
      dsimp only at h ⊢
      rw [hadvance, htarget]
      split at h
      · rename_i hxml
        rw [if_pos hxml]
        exact readDeclaration_withTail (reaches_seek hstop) hclosing hopening h
      · rename_i hother
        rw [if_neg hother]
        split at h
        · cases h
        · rename_i haccepted
          obtain ⟨rfl, rfl⟩ := Prod.mk.inj (Except.ok.inj h)
          exact if_neg haccepted

theorem readCloseTag_withTail (hopening : c.Over (Bytes.ofString "</") (c.advance 2))
    (h : readCloseTag .xml c = .ok (token, next)) :
    readCloseTag .xml (c.withTail more) = .ok (token, next.withTail more) := by
  have htarget : (c.withTail more).advance 2 = (c.advance 2).withTail more := hopening.withTail.advance
  obtain ⟨named, _, _, hnamed, rfl, rfl, ⟨rfl, hpeek, rfl⟩ | ⟨hhtml, -⟩⟩ := exists_of_readCloseTag h
  · obtain ⟨b, hb⟩ := exists_peek?_of_mem (named.reaches_skipWhitespace.mem (mem_of_peek? hpeek))
    rw [readCloseTag, htarget, afterName?_withTail hnamed hb]
    dsimp only
    rw [skipWhitespace_withTail hpeek, peek?_withTail hpeek]
    dsimp only
    rw [if_pos (beq_self_eq_true _), advance_withTail hpeek]
    rfl
  · cases hhtml

theorem readOpenTag_withTail (hc : c.peek? = some lessThan) (h : readOpenTag .xml c = .ok (token, next)) :
    readOpenTag .xml (c.withTail more) = .ok (token, next.withTail more) := by
  obtain ⟨w, hw, hover⟩ := exists_over_of_readOpenTag hc h
  obtain ⟨rfl, -⟩ := Prod.mk.inj (Except.ok.inj (h.symm.trans (readOpenTag_of_over hw hover)))
  exact readOpenTag_of_over hw hover.withTail

theorem exists_doctype_of_readDoctype (h : readDoctype c = .ok (token, next)) : ∃ d, token = doctype d := by
  obtain ⟨_, _, _, _, _, -, -, -, -, -, rfl⟩ := exists_of_readDoctype h
  exact ⟨_, rfl⟩

/-- No construct is text. -/
theorem readMarkup_ne_text {dialect : Dialect} {span : Span} :
    readMarkup dialect c ≠ .ok (text span, next) := by
  intro h
  rw [readMarkup] at h
  split at h
  · obtain ⟨stop, -, -, htoken⟩ := exists_of_readDelimited h
    cases htoken
  split at h
  · obtain ⟨stop, -, -, htoken⟩ := exists_of_readDelimited h
    cases htoken
  split at h
  · obtain ⟨d, hd⟩ := exists_doctype_of_readDoctype h
    cases hd
  split at h
  · obtain ⟨named, stop, -, -, ⟨-, hdeclaration⟩ | ⟨-, -, htoken⟩⟩ := exists_of_readInstruction h
    · obtain ⟨_, _, -, -, -, htoken⟩ := exists_of_readDeclaration hdeclaration
      cases htoken
    · cases htoken
  split at h
  · obtain ⟨tag, htag, -⟩ := within_readCloseTag h
    cases htag
  · obtain ⟨tag, htag, -⟩ := opens_readOpenTag h
    cases htag

/-- Every construct but a DOCTYPE is read as before. -/
theorem readMarkup_withTail (more : Bytes) (hc : c.peek? = some lessThan) (hdoctype : ∀ d, token ≠ doctype d)
    (h : readMarkup .xml c = .ok (token, next)) :
    readMarkup .xml (c.withTail more) = .ok (token, next.withTail more) := by
  rw [readMarkup] at h
  split at h
  · rename_i hcomment
    have hopening : (c.withTail more).Over (Bytes.ofString "<!--") _ :=
      (over_of_startsWith hcomment).withTail
    rw [readMarkup, if_pos hopening.startsWith]
    exact readDelimited_withTail greaterThan (by decide) (by decide) hcomment h
  split at h
  · rename_i hcdata
    have hopening : (c.withTail more).Over (Bytes.ofString "<![CDATA[") _ :=
      (over_of_startsWith hcdata).withTail
    rw [readMarkup, if_neg (hopening.not_startsWith (by decide) (by decide)), if_pos hopening.startsWith]
    exact readDelimited_withTail greaterThan (by decide) (by decide) hcdata h
  split at h
  · obtain ⟨d, rfl⟩ := exists_doctype_of_readDoctype h
    exact absurd rfl (hdoctype d)
  split at h
  · rename_i hinstruction
    have hopening : c.Over (Bytes.ofString "<?") (c.advance 2) := over_of_startsWith hinstruction
    rw [readMarkup_of_instruction hopening.withTail]
    exact readInstruction_withTail hopening h
  split at h
  · rename_i hclosing
    have hopening : c.Over (Bytes.ofString "</") (c.advance 2) := over_of_startsWith hclosing
    rw [readMarkup_of_closing hopening.withTail]
    exact readCloseTag_withTail hopening h
  · obtain ⟨w, hw, hover⟩ := exists_over_of_readOpenTag hc h
    obtain ⟨opened, named, hopening, hname, -⟩ := TagText.exists_named hover
    obtain ⟨b, hb, hstart⟩ := hname.exists_peek?_of_name hw.name
    have hfirst : c.Over [lessThan, b] (opened.advance 1) := over_cons.2 ⟨opened, hopening, over_of_peek? hb⟩
    rw [readMarkup_of_isNameStart hfirst.withTail hstart]
    exact readOpenTag_withTail hc h

end Token

/-- More bytes behind a document do not change what a span in it covers. -/
theorem Span.slice_append {span : Span} {input : Bytes} (h : span.stop ≤ input.length) (more : Bytes) :
    span.slice (input ++ more) = span.slice input := by
  have hle : span.stop ≤ (input ++ more).length := by
    rw [List.length_append]
    exact Nat.le_trans h (Nat.le_add_right _ _)
  rw [slice_eq_of_le hle, slice_eq_of_le h]
  by_cases hstart : span.start ≤ input.length
  · rw [List.drop_append_of_le_length hstart, List.take_append_of_le_length]
    rw [List.length_drop]
    exact Nat.sub_le_sub_right h _
  · have hnone : span.stop - span.start = 0 := by omega
    rw [hnone, List.take_zero, List.take_zero]

namespace Token

/-- A token of a document of the given length, if up to the next `<` behind it there are as many bytes as the
gap says. -/
def lengthen (length gap : Nat) : Token → Token
  | .text span => if span.stop = length then .text ⟨span.start, length + gap⟩ else .text span
  | token => token

theorem lengthen_of_not_text {token : Token} {length gap : Nat} (h : ∀ span, token = .text span → span.stop ≠ length) :
    lengthen length gap token = token := by
  cases token with
  | text span => exact if_neg (h span rfl)
  | _ => rfl

end Token

namespace TokenStream

variable {s t : TokenStream} {token : Token} {more : Bytes}

/-- The same place in a document that goes on. -/
def withTail (s : TokenStream) (more : Bytes) : TokenStream :=
  { s with input := s.input ++ more, cursor := s.cursor.withTail more }

theorem ReadsStrictly.withTail (hs : s.ReadsStrictly) : (s.withTail more).ReadsStrictly :=
  ⟨hs.dialect, hs.content, hs.reaches.withTail⟩

/-- A tag that gives no name twice gives none twice in the longer document. -/
theorem duplicateName?_withTail {tag : OpenTag} {next : Cursor} (hs : s.ReadsStrictly)
    (hread : Token.readMarkup .xml s.cursor = .ok (.openTag tag, next))
    (h : duplicateName? tag.parts s.input false = none) :
    duplicateName? tag.parts (s.input ++ more) false = none := by
  have hopens := Token.opens_readMarkup hread
  have hreach := hs.reaches.trans (Token.readMarkup_tiled hread).1
  have hnames : (attributesOf tag.parts).map (·.name.slice (s.input ++ more)) =
      (attributesOf tag.parts).map (·.name.slice s.input) := by
    refine List.map_congr_left fun a ha => Span.slice_append ?_ more
    have hname := (hopens.laidOut a ha).name.stop_le
    have hspan := (hopens.attribute_within ha).stop_le
    exact Nat.le_trans hname (Nat.le_trans hspan hreach.offset_le_length)
  rw [duplicateName?_eq_none_iff] at h ⊢
  rwa [hnames]

theorem ReadsStrictly.nextMarkup_withTail (hs : s.ReadsStrictly) (hpeek : s.cursor.peek? = some lessThan)
    (hdoctype : ∀ d, token ≠ .doctype d) (h : s.nextMarkup = (.ok (some token), t)) :
    (s.withTail more).nextMarkup = (.ok (some token), t.withTail more) := by
  cases hread : Token.readMarkup .xml s.cursor with
  | error refusal =>
    obtain ⟨e, t', hfails⟩ := fails_of_error hs.dialect hread
    rw [hfails] at h
    cases h
  | ok read =>
    obtain ⟨found, next⟩ := read
    by_cases hopen : ∃ tag, found = .openTag tag
    · obtain ⟨tag, rfl⟩ := hopen
      rw [nextMarkup_of_openTag (by rw [hs.dialect]; exact hread), emitOpenTag] at h
      dsimp only at h
      split at h
      · rename_i hnone
        obtain ⟨htoken, rfl⟩ := Prod.mk.inj h
        obtain rfl := Option.some.inj (Except.ok.inj htoken)
        have hlonger := Token.readMarkup_withTail more hpeek hdoctype hread
        rw [← hs.dialect] at hlonger
        have hstill : duplicateName? tag.parts (s.withTail more).input s.dialect.ignoresCase = none := by
          rw [hs.dialect] at hnone ⊢
          exact duplicateName?_withTail hs hread hnone
        rw [nextMarkup_of_openTag (s := s.withTail more) hlonger, emitOpenTag]
        dsimp only
        split
        · rfl
        · rename_i hsome
          cases hstill.symm.trans hsome
      · rw [if_pos (by rw [hs.dialect]; rfl)] at h
        cases h
    · have hnot : ∀ tag, found ≠ .openTag tag := fun tag htag => hopen ⟨tag, htag⟩
      rw [nextMarkup_of_node (by rw [hs.dialect]; exact hread) hnot] at h
      obtain ⟨htoken, rfl⟩ := Prod.mk.inj h
      obtain rfl := Option.some.inj (Except.ok.inj htoken)
      have hlonger := Token.readMarkup_withTail more hpeek hdoctype hread
      rw [← hs.dialect] at hlonger
      exact nextMarkup_of_node (s := s.withTail more) hlonger hnot

theorem ReadsStrictly.nextMarkup_ne_text (hs : s.ReadsStrictly) {span : Span} :
    s.nextMarkup ≠ (.ok (some (.text span)), t) := by
  intro h
  cases hread : Token.readMarkup s.dialect s.cursor with
  | error refusal =>
    rw [hs.dialect] at hread
    obtain ⟨e, t', hfails⟩ := fails_of_error hs.dialect hread
    rw [hfails] at h
    cases h
  | ok read =>
    obtain ⟨found, next⟩ := read
    by_cases hopen : ∃ tag, found = .openTag tag
    · obtain ⟨tag, rfl⟩ := hopen
      rw [nextMarkup_of_openTag hread, emitOpenTag] at h
      dsimp only at h
      split at h
      · cases h
      · split at h <;> cases h
    · rw [nextMarkup_of_node hread fun tag htag => hopen ⟨tag, htag⟩] at h
      obtain rfl := Option.some.inj (Except.ok.inj (Prod.mk.inj h).1)
      exact Token.readMarkup_ne_text hread

theorem nextTag_withTail {c : Cursor} {b : UInt8} (h : c.nextTag.peek? = some b) :
    (c.withTail more).nextTag = c.nextTag.withTail more := by
  obtain ⟨bytes, hover, hall, hend⟩ := c.exists_over_skip (· != lessThan)
  refine hover.withTail.skip hall fun b' hb' => ?_
  have hb : c.nextTag.peek? = some b' := h.trans ((peek?_withTail h).symm.trans hb')
  exact hend b' hb

/-- A text that reaches the end goes on up to the next `<`. -/
theorem nextTag_withTail_of_end {c : Cursor} (h : c.nextTag.rest = []) :
    (c.withTail more).nextTag =
      ⟨c.nextTag.offset + (more.takeWhile (· != lessThan)).length, more.dropWhile (· != lessThan)⟩ := by
  obtain ⟨bytes, hover, hall, -⟩ := c.exists_over_skip (· != lessThan)
  have hrest : c.rest = bytes := by
    have hbytes := hover.rest
    rwa [show (c.skip (· != lessThan)).rest = [] from h, List.append_nil] at hbytes
  have hoffset : c.nextTag.offset = c.offset + bytes.length := hover.offset
  rw [nextTag, Cursor.skip, rest_withTail, hrest, List.takeWhile_append_of_pos hall,
    List.dropWhile_append_of_pos hall, hoffset, List.length_append, Nat.add_assoc]
  rfl

theorem next_of_end (hm : s.mode = .content) (h : s.cursor.peek? = none) :
    s.next = (.ok none, { s with mode := .done }) := by
  rw [next, hm]
  dsimp only
  rw [nextContent, h]

/-- Outside of markup there is text up to the next `<`. -/
theorem next_of_plain {b : UInt8} (hm : s.mode = .content) (h : s.cursor.peek? = some b) (hb : b ≠ lessThan) :
    s.next = s.emit (.text (s.cursor.upTo s.cursor.nextTag)) s.cursor.nextTag := by
  rw [next, hm]
  dsimp only
  rw [nextContent, h]
  dsimp only
  rw [if_neg (mt beq_iff_eq.1 hb)]

/-- The bytes to come change nothing about a token unless it is a text that reaches them. -/
theorem ReadsStrictly.next_withTail (hs : s.ReadsStrictly) (hdoctype : ∀ d, token ≠ .doctype d)
    (h : s.next = (.ok (some token), t)) (hclosed : ∀ span, token = .text span → t.cursor.rest ≠ []) :
    (s.withTail more).next = (.ok (some token), t.withTail more) := by
  cases hpeek : s.cursor.peek? with
  | none =>
    rw [next_of_end hs.content hpeek] at h
    cases h
  | some b =>
    have hstill : (s.withTail more).cursor.peek? = some b := peek?_withTail hpeek
    by_cases hb : b = lessThan
    · rw [hb] at hpeek hstill
      rw [next_of_lessThan hs.content hpeek] at h
      rw [next_of_lessThan hs.withTail.content hstill]
      exact hs.nextMarkup_withTail hpeek hdoctype h
    · rw [next_of_plain hs.content hpeek hb] at h
      obtain ⟨htoken, rfl⟩ := Prod.mk.inj h
      obtain rfl := Option.some.inj (Except.ok.inj htoken)
      obtain ⟨b', rest, hrest⟩ := List.exists_cons_of_ne_nil (hclosed _ rfl)
      have hnext : s.cursor.nextTag.peek? = some b' := congrArg List.head? hrest
      have hcursor : (s.withTail more).cursor.nextTag = s.cursor.nextTag.withTail more :=
        nextTag_withTail hnext
      rw [next_of_plain hs.withTail.content hstill hb, hcursor]
      rfl

/-- A text that reaches the end of the document takes in the bytes to come up to the next `<`. -/
theorem ReadsStrictly.next_withTail_of_end (more : Bytes) (hs : s.ReadsStrictly) {span : Span}
    (h : s.next = (.ok (some (.text span)), t)) (hend : t.cursor.rest = []) :
    ∃ t', (s.withTail more).next =
      (.ok (some (.text ⟨span.start, span.stop + (more.takeWhile (· != lessThan)).length⟩)), t') := by
  cases hpeek : s.cursor.peek? with
  | none =>
    rw [next_of_end hs.content hpeek] at h
    cases h
  | some b =>
    have hstill : (s.withTail more).cursor.peek? = some b := peek?_withTail hpeek
    by_cases hb : b = lessThan
    · rw [next_of_lessThan hs.content (hb ▸ hpeek)] at h
      exact absurd h hs.nextMarkup_ne_text
    · rw [next_of_plain hs.content hpeek hb] at h
      obtain ⟨htoken, rfl⟩ := Prod.mk.inj h
      obtain rfl := Token.text.inj (Option.some.inj (Except.ok.inj htoken))
      have hcursor : (s.withTail more).cursor.nextTag = _ := nextTag_withTail_of_end hend
      refine ⟨(s.withTail more).next.2, Prod.ext ?_ rfl⟩
      rw [next_of_plain hs.withTail.content hstill hb, hcursor]
      rfl

/-- A text reaches the end of the document just if nothing is left behind it. -/
theorem ReadsStrictly.stop_eq_length_iff (hs : s.ReadsStrictly) {span : Span}
    (h : s.next = (.ok (some (.text span)), t)) : span.stop = s.input.length ↔ t.cursor.rest = [] := by
  obtain ⟨next, parts, warnings, rfl, htiled, -⟩ := (outcome_of_next h).token
  have hspan : span = s.cursor.upTo next := htiled.span_eq
  have hlength := (hs.reaches.trans htiled.1).length
  simp only [start, upTo, hspan, ← List.length_eq_zero_iff] at hlength ⊢
  omega

theorem next_eq_none_of_end (h : t.mode = .content) (hend : t.cursor.rest = []) :
    t.rest = ([], none, { t with mode := .done }) :=
  rest_of_none (next_of_end h (List.head?_eq_none_iff.2 hend))

/-- What a run to the end of a document gives comes first in the run over a longer one. -/
theorem ReadsStrictly.rest_withTail {tokens : List Token} {last : TokenStream} (hs : s.ReadsStrictly)
    (h : s.rest = (tokens, none, last)) (hdoctype : ∀ d, .doctype d ∉ tokens) :
    tokens.map (Token.lengthen s.input.length (more.takeWhile (· != lessThan)).length) <+:
      (s.withTail more).rest.1 := by
  fun_induction rest s generalizing tokens last with
  | case1 s t hnext =>
    obtain ⟨rfl, -⟩ : [] = tokens ∧ t = last := by simpa using h
    exact List.nil_prefix
  | case2 s e t hnext => simp at h
  | case3 s token t hnext later error final hlater ih =>
    obtain ⟨rfl, rfl, rfl⟩ : token :: later = tokens ∧ error = none ∧ final = last := by simpa using h
    obtain ⟨ht, hinput⟩ := hs.next hnext
    have hfirst : ∀ d, token ≠ .doctype d := fun d hd => hdoctype d (hd ▸ List.mem_cons_self)
    have hrest : ∀ d, .doctype d ∉ later := fun d hmem => hdoctype d (List.mem_cons_of_mem _ hmem)
    rw [List.map_cons]
    by_cases hopen : ∃ span, token = .text span ∧ span.stop = s.input.length
    · obtain ⟨span, rfl, hstop⟩ := hopen
      have hend := (hs.stop_eq_length_iff hnext).1 hstop
      rw [next_eq_none_of_end ht.content hend] at hlater
      obtain ⟨rfl, -⟩ : [] = later ∧ _ = final := by simpa using hlater
      obtain ⟨t', hlonger⟩ := hs.next_withTail_of_end more hnext hend
      rw [rest_of_token hlonger, Token.lengthen, if_pos hstop, hstop]
      exact List.cons_prefix_cons.2 ⟨rfl, List.nil_prefix⟩
    · have hclosed : ∀ span, token = .text span → t.cursor.rest ≠ [] := by
        rintro span rfl hend
        exact hopen ⟨span, rfl, (hs.stop_eq_length_iff hnext).2 hend⟩
      rw [rest_of_token (hs.next_withTail hfirst hnext hclosed),
        Token.lengthen_of_not_text fun span htext hstop => hopen ⟨span, htext, hstop⟩, ← hinput]
      exact List.cons_prefix_cons.2 ⟨rfl, ih ht hlater hrest⟩

end TokenStream

end MarkupStream
