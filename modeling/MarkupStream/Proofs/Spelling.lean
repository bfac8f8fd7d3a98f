import MarkupStream.Proofs.FoldedNames
import MarkupStream.Proofs.Layout
import MarkupStream.Proofs.Steps

/-!
Tokens in two spellings. Two documents that are the same but for the case of letters have the same tokens
in HTML, as long as they are the same byte for byte where tokens without names stand. That much is
needed for CDATA sections, whose keyword is not a name and has one spelling only, and for the names
inside an XML declaration.
-/
namespace MarkupStream

open Cursor

namespace Cursor

theorem Reaches.rest_eq {c next : Cursor} (h : c.Reaches next) :
    next.rest = c.rest.drop (next.offset - c.offset) := by
  obtain ⟨bytes, hrest, hoffset⟩ := h
  have hlength : next.offset - c.offset = bytes.length := by omega
  rw [hrest, hlength, List.drop_left]

/-- The bytes between two cursors, found among those between two others around them. -/
theorem bytesUpTo_eq {c first last next : Cursor} (h : c.Reaches first)
    (hlast : last.offset ≤ next.offset) : first.bytesUpTo last =
      ((c.bytesUpTo next).drop (first.offset - c.offset)).take (last.offset - first.offset) := by
  have hfirst := h.offset_le
  have hmin : min (last.offset - first.offset)
      (next.offset - c.offset - (first.offset - c.offset)) = last.offset - first.offset := by
    omega
  rw [bytesUpTo, bytesUpTo, h.rest_eq, List.drop_take, List.take_take, hmin]

@[simp] theorem foldCase_foldCase (c : Cursor) : c.foldCase.foldCase = c.foldCase := by
  simp [foldCase]

theorem offset_alike {c c' : Cursor} (h : c.foldCase = c'.foldCase) : c.offset = c'.offset := by
  rw [← offset_foldCase, h, offset_foldCase]

theorem upTo_alike {c c' next next' : Cursor} (h : c.foldCase = c'.foldCase)
    (hnext : next.foldCase = next'.foldCase) : c.upTo next = c'.upTo next' := by
  rw [← upTo_foldCase, h, hnext, upTo_foldCase]

theorem upTo?_alike {c c' next next' : Cursor} (h : c.foldCase = c'.foldCase)
    (hnext : next.foldCase = next'.foldCase) : c.upTo? next = c'.upTo? next' := by
  rw [← upTo?_foldCase, h, hnext, upTo?_foldCase]

theorem advance_alike {c c' : Cursor} (h : c.foldCase = c'.foldCase) (n : Nat) :
    (c.advance n).foldCase = (c'.advance n).foldCase := by
  rw [← advance_foldCase, h, advance_foldCase]

theorem afterName?_alike {c c' : Cursor} (h : c.foldCase = c'.foldCase) :
    c.afterName?.map foldCase = c'.afterName?.map foldCase := by
  rw [← afterName?_foldCase, h, afterName?_foldCase]

end Cursor

/-- Options that are the same after folding are both there or both not. -/
theorem cases_of_map_eq {α β : Type} {f : α → β} {x y : Option α} (h : x.map f = y.map f) :
    x = none ∧ y = none ∨ ∃ a b, x = some a ∧ y = some b ∧ f a = f b := by
  cases x with
  | none =>
    cases y with
    | none => exact .inl ⟨rfl, rfl⟩
    | some b => cases h
  | some a =>
    cases y with
    | none => cases h
    | some b => exact .inr ⟨a, b, rfl, rfl, Option.some.inj h⟩

namespace Token

/-- What is read, with the cursor behind it folded, if anything is read at all. -/
def folded? (r : Except Refusal (Token × Cursor)) : Option (Token × Cursor) :=
  r.toOption.map foldNext

theorem folded?_foldRead (r : Except Refusal (Token × Cursor)) :
    folded? (foldRead foldNext r) = folded? r := by
  cases r with
  | error refusal => rfl
  | ok read =>
    obtain ⟨token, next⟩ := read
    exact congrArg (fun next => some (token, next)) next.foldCase_foldCase

/-- A reader that does not see the case of letters reads the same in both spellings. -/
theorem folded?_eq {read : Cursor → Except Refusal (Token × Cursor)}
    (hread : ∀ c : Cursor, read c.foldCase = foldRead foldNext (read c)) {c c' : Cursor}
    (h : c.foldCase = c'.foldCase) : folded? (read c) = folded? (read c') := by
  rw [← folded?_foldRead, ← hread, h, hread, folded?_foldRead]

variable {c c' : Cursor}

/-- An XML declaration takes in HTML what pseudo-attributes it has. -/
theorem readDeclaration_html (c named stop : Cursor) :
    readDeclaration .html c named stop =
      let found := (readPseudoAttributes ⟨named.offset, named.bytesUpTo stop⟩).1
      .ok (xmlDeclaration ⟨c.upTo (stop.advance 2), (c.advance 2).upTo named,
        lastValue? found "version", lastValue? found "encoding", lastValue? found "standalone"⟩,
        stop.advance 2) := rfl

/-- What an instruction is read as in HTML, once its target and its end have been found. -/
theorem readInstruction_html {named stop : Cursor} (hn : (c.advance 2).afterName? = some named)
    (hs : named.seekBytes? (Bytes.ofString "?>") = some stop) :
    readInstruction .html c =
      if Bytes.sameName true ((c.advance 2).bytesUpTo named) (Bytes.ofString "xml") then
        readDeclaration .html c named stop
      else
        .ok (instruction (c.upTo (stop.advance 2)) ((c.advance 2).upTo named)
          (named.skipWhitespace.upTo? stop), stop.advance 2) := by
  rw [readInstruction, hn]
  dsimp only
  rw [readBehindTarget, hs]
  rfl

theorem readInstruction_alike (h : c.foldCase = c'.foldCase)
    (hsame : ∀ token next, readInstruction .html c = .ok (token, next) →
      c.bytesUpTo next = c'.bytesUpTo next) :
    folded? (readInstruction .html c) = folded? (readInstruction .html c') := by
  have htarget := advance_alike h 2
  rcases cases_of_map_eq (afterName?_alike htarget) with
    ⟨hnone, hnone'⟩ | ⟨named, named', hn, hn', hnamed⟩
  · rw [readInstruction, readInstruction, hnone, hnone']
    rfl
  have hxml : Bytes.sameName true ((c.advance 2).bytesUpTo named) (Bytes.ofString "xml") =
      Bytes.sameName true ((c'.advance 2).bytesUpTo named') (Bytes.ofString "xml") := by
    rw [← Bytes.sameName_foldCase_left, ← bytesUpTo_foldCase, htarget, hnamed, bytesUpTo_foldCase,
      Bytes.sameName_foldCase_left]
  have hseek : (named.seekBytes? (Bytes.ofString "?>")).map foldCase =
      (named'.seekBytes? (Bytes.ofString "?>")).map foldCase := by
    rw [← seekBytes?_foldCase rfl, hnamed, seekBytes?_foldCase rfl]
  rcases cases_of_map_eq hseek with ⟨hnone, hnone'⟩ | ⟨stop, stop', hs, hs', hstop⟩
  · rw [readInstruction, readInstruction, hn, hn']
    dsimp only
    rw [readBehindTarget, readBehindTarget, hnone, hnone']
    rfl
  have hnext := advance_alike hstop 2
  rw [readInstruction_html hn hs] at hsame ⊢
  rw [readInstruction_html hn' hs', ← hxml]
  by_cases hdeclaration : Bytes.sameName true ((c.advance 2).bytesUpTo named) (Bytes.ofString "xml")
  · rw [if_pos hdeclaration] at hsame ⊢
    rw [if_pos hdeclaration]
    -- The pseudo-attributes are read from bytes that are the same in both documents.
    have hbytes : named.bytesUpTo stop = named'.bytesUpTo stop' := by
      have hlast := (stop.reaches_advance 2).offset_le
      have hlast' : stop'.offset ≤ (stop.advance 2).offset := by
        rw [← offset_alike hstop]
        exact hlast
      have hreach := (c.reaches_advance 2).trans (reaches_afterName hn)
      have hreach' := (c'.reaches_advance 2).trans (reaches_afterName hn')
      rw [bytesUpTo_eq hreach hlast, bytesUpTo_eq hreach' hlast', hsame _ _ rfl, offset_alike h,
        offset_alike hnamed, offset_alike hstop]
    rw [readDeclaration_html, readDeclaration_html, hbytes, offset_alike hnamed,
      upTo_alike h hnext, upTo_alike htarget hnamed]
    exact congrArg (fun next => some (_, next)) hnext
  · have hcontent : named.skipWhitespace.foldCase = named'.skipWhitespace.foldCase := by
      rw [← skipWhitespace_foldCase, hnamed, skipWhitespace_foldCase]
    rw [if_neg hdeclaration, if_neg hdeclaration, upTo_alike h hnext, upTo_alike htarget hnamed,
      upTo?_alike hcontent hstop]
    exact congrArg (fun next => some (_, next)) hnext

section Bracket

/-!
The opening of a CDATA section has one spelling; in any other it begins no construct at all, so that it
is text up to the next `<`, which is behind the opening.
-/

theorem startsWithIgnoringCase_of_startsWith {pattern : Bytes} (h : c.startsWith pattern) :
    c.startsWithIgnoringCase pattern := by
  obtain ⟨tail, htail⟩ := List.isPrefixOf_iff_prefix.1 h
  rw [startsWithIgnoringCase, ← htail, List.take_left]
  exact Bytes.sameName_self true pattern

/-- The opening of a CDATA section in small letters, with what follows. -/
theorem rest_of_bracket (h : c.startsWithIgnoringCase (Bytes.ofString "<![CDATA[")) :
    ∃ tail, c.foldCase.rest = Bytes.ofString "<![cdata[" ++ tail := by
  have hlength : (Bytes.ofString "<![CDATA[").length = 9 := rfl
  have hletters : (Bytes.ofString "<![CDATA[").foldCase = Bytes.ofString "<![cdata[" := rfl
  have hnine : Bytes.foldCase (c.rest.take 9) = Bytes.ofString "<![cdata[" := by
    rw [Cursor.startsWithIgnoringCase, Bytes.sameName_iff, if_pos rfl, hlength, hletters] at h
    exact h
  refine ⟨Bytes.foldCase (c.rest.drop 9), ?_⟩
  rw [← hnine, ← Bytes.foldCase_append, List.take_append_drop]
  rfl

theorem readMarkup_of_bracket {dialect : Dialect}
    (h : c.startsWithIgnoringCase (Bytes.ofString "<![CDATA[")) :
    readMarkup dialect c =
      if c.startsWith (Bytes.ofString "<![CDATA[") then readCData c
      else c.refuse (.invalidName (c.advance 1).offset) := by
  obtain ⟨tail, htail⟩ := rest_of_bracket h
  have htest : ∀ pattern : Bytes, pattern.all (!Byte.isLetter ·) →
      c.startsWith pattern = pattern.isPrefixOf (Bytes.ofString "<![cdata[" ++ tail) := by
    intro pattern hpattern
    rw [← startsWith_foldCase hpattern, startsWith, htail]
  have hcomment : c.startsWith (Bytes.ofString "<!--") = false :=
    (htest _ rfl).trans rfl
  have hinstruction : c.startsWith (Bytes.ofString "<?") = false :=
    (htest _ rfl).trans rfl
  have hclose : c.startsWith (Bytes.ofString "</") = false :=
    (htest _ rfl).trans rfl
  have hdoctype : c.startsWithIgnoringCase (Bytes.ofString "<!DOCTYPE") = false := by
    rw [← startsWithIgnoringCase_foldCase, startsWithIgnoringCase, htail]
    rfl
  have hname : (c.advance 1).afterName? = none := by
    have hfolded : (c.advance 1).foldCase.afterName? = none := by
      rw [← advance_foldCase, afterName?, rest_advance, htail]
      rfl
    rw [afterName?_foldCase] at hfolded
    exact Option.map_eq_none_iff.1 hfolded
  rw [readMarkup, hcomment, hdoctype, hinstruction, hclose, readOpenTag, hname]
  rfl

theorem nine_le_nextTag (h : c.startsWithIgnoringCase (Bytes.ofString "<![CDATA[")) :
    c.offset + 9 ≤ (c.advance 1).nextTag.offset := by
  obtain ⟨tail, htail⟩ := rest_of_bracket h
  have hfolded : (c.advance 1).nextTag.offset = (c.foldCase.advance 1).nextTag.offset := by
    rw [advance_foldCase, nextTag_foldCase, offset_foldCase]
  have hadvance : c.foldCase.advance 1 = ⟨c.offset + 1, Bytes.ofString "![cdata[" ++ tail⟩ := by
    rw [advance, htail]
    rfl
  have hletters : (Bytes.ofString "![cdata[" ++ tail).takeWhile (· != Byte.lessThan) =
      Bytes.ofString "![cdata[" ++ tail.takeWhile (· != Byte.lessThan) :=
    List.takeWhile_append_of_pos (List.all_eq_true.1 rfl)
  have hlength : (Bytes.ofString "![cdata[").length = 8 := rfl
  rw [hfolded, hadvance, nextTag, skip]
  dsimp only
  rw [hletters, List.length_append, hlength]
  omega

theorem nine_le_readCData {token : Token} {next : Cursor}
    (h : c.startsWith (Bytes.ofString "<![CDATA[")) (hread : readCData c = .ok (token, next)) :
    c.offset + 9 ≤ next.offset := by
  obtain ⟨tail, htail⟩ := List.isPrefixOf_iff_prefix.1 h
  have hopening : (c.advance 9).offset = c.offset + 9 := by
    rw [advance, ← htail]
    rfl
  rw [readCData, readDelimited] at hread
  dsimp only at hread
  split at hread
  · rename_i stop hstop
    rw [← hopening, ← (Prod.mk.inj (Except.ok.inj hread)).2]
    exact ((reaches_seek hstop).trans (stop.reaches_advance _)).offset_le
  · cases hread

end Bracket

/-- The bytes of two documents agree where, in the first of them, markup without names is read or
what is no markup is passed over. -/
structure SameMarkup (c c' : Cursor) : Prop where
  token : ∀ token next, readMarkup .html c = .ok (token, next) → token.names = [] →
    c.bytesUpTo next = c'.bytesUpTo next
  text : ∀ refusal, readMarkup .html c = .error refusal →
    c.bytesUpTo (c.advance 1).nextTag = c'.bytesUpTo (c.advance 1).nextTag

theorem startsWith_congr {pattern : Bytes}
    (h : c.rest.take pattern.length = c'.rest.take pattern.length) :
    c.startsWith pattern = c'.startsWith pattern := by
  rw [Bool.eq_iff_iff, startsWith, startsWith, List.isPrefixOf_iff_prefix,
    List.isPrefixOf_iff_prefix, List.prefix_iff_eq_take, List.prefix_iff_eq_take, h]

theorem take_eq_of_bytesUpTo {last : Cursor} (h : c.foldCase = c'.foldCase)
    (hsame : c.bytesUpTo last = c'.bytesUpTo last) {n : Nat} (hn : c.offset + n ≤ last.offset) :
    c.rest.take n = c'.rest.take n := by
  have hmin : min n (last.offset - c.offset) = n := by omega
  rw [bytesUpTo, bytesUpTo, ← offset_alike h] at hsame
  rw [← hmin, ← List.take_take, hsame, List.take_take]

theorem SameMarkup.take_nine (hsame : SameMarkup c c') (h : c.foldCase = c'.foldCase)
    (hbracket : c.startsWithIgnoringCase (Bytes.ofString "<![CDATA[")) :
    c.rest.take 9 = c'.rest.take 9 := by
  cases hread : readMarkup .html c with
  | error refusal => exact take_eq_of_bytesUpTo h (hsame.text refusal hread) (nine_le_nextTag hbracket)
  | ok read =>
    obtain ⟨token, next⟩ := read
    have hcdata := hread
    rw [readMarkup_of_bracket hbracket] at hcdata
    split at hcdata
    · rename_i hspelling
      have hnames := names_readDelimited (fun _ _ => rfl) hcdata
      exact take_eq_of_bytesUpTo h (hsame.token token next hread hnames)
        (nine_le_readCData hspelling hcdata)
    · cases hcdata

/-- Markup is read alike in two spellings. -/
theorem readMarkup_alike (h : c.foldCase = c'.foldCase) (hsame : SameMarkup c c') :
    folded? (readMarkup .html c) = folded? (readMarkup .html c') := by
  have hignoring : ∀ pattern, c.startsWithIgnoringCase pattern = c'.startsWithIgnoringCase pattern := by
    intro pattern
    rw [← startsWithIgnoringCase_foldCase, h, startsWithIgnoringCase_foldCase]
  by_cases hbracket : c.startsWithIgnoringCase (Bytes.ofString "<![CDATA[")
  · have hbracket' := hbracket
    rw [hignoring] at hbracket'
    rw [readMarkup_of_bracket hbracket, readMarkup_of_bracket hbracket']
    have hspelling : c.startsWith (Bytes.ofString "<![CDATA[") =
        c'.startsWith (Bytes.ofString "<![CDATA[") :=
      startsWith_congr (hsame.take_nine h hbracket)
    rw [← hspelling]
    split
    · exact folded?_eq (readDelimited_foldCase rfl) h
    · rfl
  · have hplain : c.startsWith (Bytes.ofString "<![CDATA[") = false :=
      Bool.eq_false_iff.2 fun hcdata => hbracket (startsWithIgnoringCase_of_startsWith hcdata)
    have hplain' : c'.startsWith (Bytes.ofString "<![CDATA[") = false := by
      rw [hignoring] at hbracket
      exact Bool.eq_false_iff.2 fun hcdata => hbracket (startsWithIgnoringCase_of_startsWith hcdata)
    have htest : ∀ pattern : Bytes, pattern.all (!Byte.isLetter ·) →
        c.startsWith pattern = c'.startsWith pattern := by
      intro pattern hpattern
      rw [← startsWith_foldCase hpattern, h, startsWith_foldCase hpattern]
    have hinstruction : c.startsWith (Bytes.ofString "<!--") = false →
        c.startsWithIgnoringCase (Bytes.ofString "<!DOCTYPE") = false →
        c.startsWith (Bytes.ofString "<?") →
        readMarkup .html c = readInstruction .html c := by
      intro hcomment hdoctype hopens
      rw [readMarkup, hcomment, hplain, hdoctype, hopens]
      rfl
    rw [readMarkup, readMarkup, ← htest (Bytes.ofString "<!--") rfl, hplain, hplain',
      ← hignoring, ← htest (Bytes.ofString "<?") rfl,
      ← htest (Bytes.ofString "</") rfl]
    by_cases hcomment : c.startsWith (Bytes.ofString "<!--")
    · rw [if_pos hcomment, if_pos hcomment]
      exact folded?_eq (readDelimited_foldCase rfl) h
    rw [if_neg hcomment, if_neg hcomment, if_neg Bool.false_ne_true, if_neg Bool.false_ne_true]
    by_cases hdoctype : c.startsWithIgnoringCase (Bytes.ofString "<!DOCTYPE")
    · rw [if_pos hdoctype, if_pos hdoctype]
      exact folded?_eq readDoctype_foldCase h
    rw [if_neg hdoctype, if_neg hdoctype]
    by_cases hopens : c.startsWith (Bytes.ofString "<?")
    · rw [if_pos hopens, if_pos hopens]
      have hread := hinstruction (Bool.eq_false_iff.2 hcomment) (Bool.eq_false_iff.2 hdoctype) hopens
      apply readInstruction_alike h
      intro token next hok
      rw [← hread] at hok
      exact hsame.token token next hok (names_readInstruction (hread ▸ hok))
    rw [if_neg hopens, if_neg hopens]
    by_cases hcloses : c.startsWith (Bytes.ofString "</")
    · rw [if_pos hcloses, if_pos hcloses]
      exact folded?_eq readCloseTag_foldCase h
    rw [if_neg hcloses, if_neg hcloses]
    exact folded?_eq readOpenTag_foldCase h

end Token

namespace TokenStream

def Mode.foldCase : Mode → Mode
  | .literal name => .literal name.foldCase
  | mode => mode

/-- The stream of the folded document. -/
def foldCase (s : TokenStream) : TokenStream :=
  { s with
    input := s.input.foldCase
    cursor := s.cursor.foldCase
    mode := s.mode.foldCase
    warnings := s.warnings.map Warning.foldCase }

/-- An answer names nothing but spans, so that only the stream behind it is folded. -/
def Result.foldCase (r : Result) : Result := (r.1, r.2.foldCase)

theorem locate_foldCase (s : TokenStream) (offset : Nat) :
    s.foldCase.locate offset = s.locate offset := s.position.locate_foldCase s.input offset

theorem emit_foldCase (s : TokenStream) (token : Token) (next : Cursor) :
    s.foldCase.emit token next.foldCase = (s.emit token next).foldCase := rfl

theorem emitOpenTag_foldCase {s : TokenStream} (hd : s.dialect = .html) (tag : OpenTag)
    (next : Cursor) :
    s.foldCase.emitOpenTag tag next.foldCase = (s.emitOpenTag tag next).foldCase := by
  obtain ⟨input, dialect, cursor, mode, parts, position, warnings⟩ := s
  obtain rfl : dialect = .html := hd
  simp only [emitOpenTag, foldCase, Dialect.ignoresCase, duplicateName?_foldCase]
  cases duplicateName? tag.parts input true with
  | none => rfl
  | some name =>
    simp only [nameText, locate, Span.slice_foldCase, Utf8.decodeLossy_foldCase,
      Position.locate_foldCase]
    simp [Dialect.isStrict, emit, Result.foldCase, foldCase, Warning.foldCase]

/-- In HTML it does not matter why a `<` begins no construct. -/
theorem reject_html {s : TokenStream} (hd : s.dialect = .html) (refusal : Refusal) :
    s.reject refusal = { s with parts := [] }.emit
      (.text (s.cursor.upTo (s.cursor.advance 1).nextTag)) (s.cursor.advance 1).nextTag := by
  have hloose : ¬ s.dialect.isStrict := by
    rw [hd]
    exact nofun
  rw [reject, if_neg hloose]

theorem reject_foldCase {s : TokenStream} (hd : s.dialect = .html) (refusal refusal' : Refusal) :
    s.foldCase.reject refusal = (s.reject refusal').foldCase := by
  have hcursor : s.foldCase.cursor = s.cursor.foldCase := rfl
  rw [reject_html (s := s.foldCase) hd, reject_html hd, hcursor, advance_foldCase, nextTag_foldCase,
    upTo_foldCase]
  rfl

theorem nextMarkup_of_error {s : TokenStream} {refusal : Refusal}
    (h : Token.readMarkup s.dialect s.cursor = .error refusal) :
    s.nextMarkup = s.reject refusal := by
  rw [nextMarkup, h]

theorem nextMarkup_of_openTag {s : TokenStream} {tag : OpenTag} {next : Cursor}
    (h : Token.readMarkup s.dialect s.cursor = .ok (.openTag tag, next)) :
    s.nextMarkup = s.emitOpenTag tag next := by
  rw [nextMarkup, h]

theorem nextMarkup_of_node {s : TokenStream} {token : Token} {next : Cursor}
    (h : Token.readMarkup s.dialect s.cursor = .ok (token, next))
    (hnot : ∀ tag, token ≠ .openTag tag) : s.nextMarkup = s.emit token next := by
  rw [nextMarkup, h]
  cases token with
  | openTag tag => exact absurd rfl (hnot tag)
  | _ => rfl

variable {s t : TokenStream}

/-- Where a token without names is read from the first document, the second one has the same bytes. -/
def SameNameless (s t : TokenStream) (r : Result) : Prop :=
  ∀ token u, r = (.ok (some token), u) → token.names = [] →
    s.cursor.bytesUpTo u.cursor = t.cursor.bytesUpTo u.cursor

theorem nextMarkup_alike (h : s.foldCase = t.foldCase) (hd : s.dialect = .html)
    (hsame : SameNameless s t s.nextMarkup) : s.nextMarkup.foldCase = t.nextMarkup.foldCase := by
  have hcursor : s.cursor.foldCase = t.cursor.foldCase := congrArg (·.cursor) h
  have hd' : t.dialect = .html := (congrArg (·.dialect) h).symm.trans hd
  have hmarkup : Token.SameMarkup s.cursor t.cursor := by
    constructor
    · intro token next hread hnames
      rw [← hd] at hread
      have hnot : ∀ tag, token ≠ .openTag tag := by
        rintro tag rfl
        cases hnames
      exact hsame token { s with cursor := next } (nextMarkup_of_node hread hnot) hnames
    · intro refusal hread
      rw [← hd] at hread
      have htext := (nextMarkup_of_error hread).trans (reject_html hd refusal)
      exact hsame _ _ htext rfl
  have hread : Token.folded? (Token.readMarkup s.dialect s.cursor) =
      Token.folded? (Token.readMarkup t.dialect t.cursor) := by
    rw [hd, hd']
    exact Token.readMarkup_alike hcursor hmarkup
  cases hs : Token.readMarkup s.dialect s.cursor with
  | error refusal =>
    cases ht : Token.readMarkup t.dialect t.cursor with
    | error refusal' =>
      rw [nextMarkup_of_error hs, nextMarkup_of_error ht, ← reject_foldCase hd refusal, h,
        reject_foldCase hd']
    | ok read =>
      rw [hs, ht] at hread
      cases hread
  | ok read =>
    obtain ⟨token, next⟩ := read
    cases ht : Token.readMarkup t.dialect t.cursor with
    | error refusal =>
      rw [hs, ht] at hread
      cases hread
    | ok read =>
      obtain ⟨token', next'⟩ := read
      rw [hs, ht] at hread
      obtain ⟨rfl, hnext⟩ := Prod.mk.inj (Option.some.inj hread)
      by_cases hopen : ∃ tag, token = .openTag tag
      · obtain ⟨tag, rfl⟩ := hopen
        rw [nextMarkup_of_openTag hs, nextMarkup_of_openTag ht, ← emitOpenTag_foldCase hd, h, hnext,
          emitOpenTag_foldCase hd']
      · have hnot : ∀ tag, token ≠ .openTag tag := fun tag htag => hopen ⟨tag, htag⟩
        rw [nextMarkup_of_node hs hnot, nextMarkup_of_node ht hnot, ← emit_foldCase, h, hnext,
          emit_foldCase]

theorem nextContent_alike (h : s.foldCase = t.foldCase) (hd : s.dialect = .html)
    (hsame : SameNameless s t s.nextContent) : s.nextContent.foldCase = t.nextContent.foldCase := by
  have hcursor : s.cursor.foldCase = t.cursor.foldCase := congrArg (·.cursor) h
  have hpeek : s.cursor.peek?.map Byte.toLower = t.cursor.peek?.map Byte.toLower := by
    rw [← peek?_foldCase, hcursor, peek?_foldCase]
  have htag : s.cursor.nextTag.foldCase = t.cursor.nextTag.foldCase := by
    rw [← nextTag_foldCase, hcursor, nextTag_foldCase]
  have hdone : ({ s with mode := .done } : TokenStream).foldCase =
      ({ t with mode := .done } : TokenStream).foldCase :=
    congrArg (fun u : TokenStream => { u with mode := .done }) h
  rw [nextContent] at hsame ⊢
  rw [nextContent]
  rcases cases_of_map_eq hpeek with ⟨hnone, hnone'⟩ | ⟨b, b', hb, hb', hletter⟩
  · rw [hnone, hnone']
    exact congrArg (Prod.mk _) hdone
  · have hmarkup : (b == Byte.lessThan) = (b' == Byte.lessThan) := by
      rw [← Byte.beq_toLower rfl, hletter, Byte.beq_toLower rfl]
    rw [hb] at hsame ⊢
    rw [hb']
    dsimp only at hsame ⊢
    rw [← hmarkup]
    cases hlt : b == Byte.lessThan with
    | true =>
      rw [hlt] at hsame
      exact nextMarkup_alike h hd hsame
    | false =>
      simp only [Bool.false_eq_true, if_false]
      rw [upTo_alike hcursor htag, ← emit_foldCase, h, htag, emit_foldCase]

/-- The text up to a cursor, or what comes at once if there is none in between. -/
def textUpTo (s : TokenStream) (stop : Cursor) : Result :=
  if s.offset < stop.offset then s.emit (.text (s.cursor.upTo stop)) stop else s.nextContent

theorem textUpTo_alike (h : s.foldCase = t.foldCase) (hd : s.dialect = .html) {stop stop' : Cursor}
    (hstop : stop.foldCase = stop'.foldCase) (hsame : SameNameless s t (s.textUpTo stop)) :
    (s.textUpTo stop).foldCase = (t.textUpTo stop').foldCase := by
  have hcursor : s.cursor.foldCase = t.cursor.foldCase := congrArg (·.cursor) h
  have hoffset : s.offset = t.offset := offset_alike hcursor
  rw [textUpTo] at hsame ⊢
  rw [textUpTo, ← hoffset, ← offset_alike hstop]
  by_cases hlt : s.offset < stop.offset
  · rw [if_pos hlt, if_pos hlt, upTo_alike hcursor hstop, ← emit_foldCase, h, hstop, emit_foldCase]
  · rw [if_neg hlt] at hsame ⊢
    rw [if_neg hlt]
    exact nextContent_alike h hd hsame

theorem nextLiteral_html (hd : s.dialect = .html) (name : Bytes) :
    s.nextLiteral name = textUpTo { s with mode := .content }
      ((s.cursor.seekCloseTag? name true).getD (s.cursor.skip fun _ => true)) := by
  obtain ⟨input, dialect, cursor, mode, parts, position, warnings⟩ := s
  obtain rfl : dialect = .html := hd
  rw [nextLiteral]
  dsimp only [Dialect.ignoresCase]
  cases cursor.seekCloseTag? name true <;> rfl

theorem nextLiteral_alike (h : s.foldCase = t.foldCase) (hd : s.dialect = .html) {name name' : Bytes}
    (hname : name.foldCase = name'.foldCase) (hsame : SameNameless s t (s.nextLiteral name)) :
    (s.nextLiteral name).foldCase = (t.nextLiteral name').foldCase := by
  have hcursor : s.cursor.foldCase = t.cursor.foldCase := congrArg (·.cursor) h
  have hd' : t.dialect = .html := (congrArg (·.dialect) h).symm.trans hd
  have hcontent : ({ s with mode := .content } : TokenStream).foldCase =
      ({ t with mode := .content } : TokenStream).foldCase :=
    congrArg (fun u : TokenStream => { u with mode := .content }) h
  have hseek : (s.cursor.seekCloseTag? name true).map Cursor.foldCase =
      (t.cursor.seekCloseTag? name' true).map Cursor.foldCase := by
    rw [← seekCloseTag?_foldCase, hcursor, hname, seekCloseTag?_foldCase]
  have hend : (s.cursor.skip fun _ => true).foldCase = (t.cursor.skip fun _ => true).foldCase := by
    have hclass : Byte.Caseless fun _ => true := fun _ => rfl
    rw [← skip_foldCase hclass, hcursor, skip_foldCase hclass]
  rw [nextLiteral_html hd] at hsame ⊢
  rw [nextLiteral_html hd']
  refine textUpTo_alike hcontent hd ?_ hsame
  rcases cases_of_map_eq hseek with ⟨hnone, hnone'⟩ | ⟨stop, stop', hs, ht, hstop⟩
  · rw [hnone, hnone']
    exact hend
  · rw [hs, ht]
    exact hstop

/-- A step of the stream comes to the same in both spellings. -/
theorem next_alike (h : s.foldCase = t.foldCase) (hd : s.dialect = .html)
    (hsame : SameNameless s t s.next) : s.next.foldCase = t.next.foldCase := by
  have hmode : s.mode.foldCase = t.mode.foldCase := congrArg (·.mode) h
  rw [next] at hsame ⊢
  rw [next]
  cases hs : s.mode with
  | done =>
    cases ht : t.mode with
    | done => exact congrArg (Prod.mk _) h
    | _ =>
      rw [hs, ht] at hmode
      cases hmode
  | content =>
    rw [hs] at hsame
    cases ht : t.mode with
    | content => exact nextContent_alike h hd hsame
    | _ =>
      rw [hs, ht] at hmode
      cases hmode
  | literal name =>
    rw [hs] at hsame
    cases ht : t.mode with
    | literal name' =>
      rw [hs, ht] at hmode
      exact nextLiteral_alike h hd (Mode.literal.inj hmode) hsame
    | _ =>
      rw [hs, ht] at hmode
      cases hmode

end TokenStream

end MarkupStream
