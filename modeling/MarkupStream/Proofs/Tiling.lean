import MarkupStream.Proofs.Reach
import MarkupStream.Token.Stream

/-!
Tilings: spans that follow one another with no gap and no overlap. The parts of a tag tile what stands
between its name and its end, the pieces of a token tile what was read for it, and so the tokens of a
document tile the document, whatever markup was rejected on the way and read again as text.
-/
namespace MarkupStream

/-- The first span starts at `start`, each other one where the one before it stops, and the last one
stops at `stop`. -/
def Tiles (start : Nat) : List Span → Nat → Prop
  | [], stop => start = stop
  | span :: rest, stop => span.start = start ∧ start ≤ span.stop ∧ Tiles span.stop rest stop

@[simp] theorem tiles_nil (start stop : Nat) : Tiles start [] stop ↔ start = stop := Iff.rfl

theorem tiles_cons (start stop : Nat) (span : Span) (rest : List Span) :
    Tiles start (span :: rest) stop ↔
      span.start = start ∧ start ≤ span.stop ∧ Tiles span.stop rest stop := Iff.rfl

theorem tiles_append {start stop : Nat} (first second : List Span) :
    Tiles start (first ++ second) stop ↔
      ∃ middle, Tiles start first middle ∧ Tiles middle second stop := by
  induction first generalizing start with
  | nil => simp
  | cons span rest ih =>
    rw [List.cons_append, tiles_cons, ih]
    constructor
    · rintro ⟨hs, hle, middle, h, h'⟩
      exact ⟨middle, ⟨hs, hle, h⟩, h'⟩
    · rintro ⟨middle, ⟨hs, hle, h⟩, h'⟩
      exact ⟨hs, hle, middle, h, h'⟩

theorem Tiles.le {start stop : Nat} {spans : List Span} (h : Tiles start spans stop) :
    start ≤ stop := by
  induction spans generalizing start with
  | nil => exact Nat.le_of_eq h
  | cons span rest ih => exact Nat.le_trans h.2.1 (ih h.2.2)

/-- The source text of a tiling is the source text from its start to its stop. -/
theorem Tiles.flatMap_slice {start stop : Nat} {spans : List Span} {input : Bytes}
    (h : Tiles start spans stop) (hstop : stop ≤ input.length) :
    spans.flatMap (·.slice input) = (input.drop start).take (stop - start) := by
  induction spans generalizing start with
  | nil =>
    have hs : start = stop := h
    simp [hs]
  | cons span rest ih =>
    obtain ⟨hs, hle, hrest⟩ := h
    have hlast := hrest.le
    have hsum : stop - start = (span.stop - start) + (stop - span.stop) := by omega
    have hdrop : input.drop span.stop = (input.drop start).drop (span.stop - start) := by
      rw [List.drop_drop]
      congr 1
      omega
    rw [List.flatMap_cons, ih hrest, Span.slice_eq_of_le (by omega), hs, hsum, List.take_add, hdrop]

theorem tiles_upTo {c next : Cursor} (h : c.Reaches next) :
    Tiles c.offset [c.upTo next] next.offset := ⟨rfl, h.offset_le, rfl⟩

theorem tiles_upTo_cons {c next : Cursor} {rest : List Span} {stop : Nat} (h : c.Reaches next)
    (hrest : Tiles next.offset rest stop) : Tiles c.offset (c.upTo next :: rest) stop :=
  ⟨rfl, h.offset_le, hrest⟩

/-- A span that is left out when nothing was read leaves no gap. -/
theorem tiles_upTo?_append {c next : Cursor} {rest : List Span} {stop : Nat} (h : c.Reaches next)
    (hrest : Tiles next.offset rest stop) :
    Tiles c.offset ((c.upTo? next).toList ++ rest) stop := by
  rw [Cursor.upTo?]
  split
  · exact tiles_upTo_cons h hrest
  · have heq : c.offset = next.offset := by
      have := h.offset_le
      omega
    simpa [heq] using hrest

namespace Tag

open Cursor

theorem readValue_spec {dialect : Dialect} {tagStart : Nat} {c next : Cursor} {outer value : Span}
    (h : readValue dialect tagStart c = .ok (outer, value, next)) :
    c.Reaches next ∧ outer = c.upTo next := by
  rcases cases_readValue h with
    ⟨quote, close, -, -, hclose, -, rfl, houter, -⟩ | ⟨b, -, -, -, rfl, houter, -⟩
  · have hquoted := (reaches_seek hclose).trans (close.reaches_advance 1)
    exact ⟨(c.reaches_advance 1).trans hquoted, houter⟩
  · exact ⟨c.reaches_skip _, houter⟩

/-- From behind a name over an `=` with whitespace around it. -/
theorem reaches_valued (named : Cursor) :
    named.Reaches (named.skipWhitespace.advance 1).skipWhitespace :=
  named.reaches_skipWhitespace.trans
    ((named.skipWhitespace.reaches_advance 1).trans (reaches_skipWhitespace _))

/-- An attribute covers all that was read for it; one without a value gives back the whitespace that
was looked past in search of an `=`. -/
theorem readAttribute_spec {dialect : Dialect} {tagStart : Nat} {c next : Cursor} {a : Attribute}
    (h : readAttribute dialect tagStart c = .ok (a, next)) :
    c.Reaches next ∧ a.span = c.upTo next := by
  obtain ⟨named, hnamed, ⟨_, outer, value, -, rfl, hvalue, rfl⟩ | ⟨-, rfl, rfl⟩⟩ :=
    exists_of_readAttribute h
  · obtain ⟨hreach, houter⟩ := readValue_spec hvalue
    refine ⟨(reaches_readName hnamed).trans ((reaches_valued named).trans hreach), ?_⟩
    rw [houter]
    rfl
  · exact ⟨reaches_readName hnamed, rfl⟩

/-- The parts of a tag and its end tile all that was read of it behind its name. -/
theorem readParts_spec {dialect : Dialect} {tagStart : Nat} {separated : Bool} {c next : Cursor}
    {parts : List TagPart} {close : Span} {selfClosing : Bool}
    (h : readParts dialect tagStart separated c = .ok (parts, close, selfClosing, next)) :
    c.Reaches next ∧ Tiles c.offset (parts.map TagPart.span ++ [close]) next.offset := by
  fun_induction readParts dialect tagStart separated c generalizing parts with
  | case1 => simp at h
  | case2 =>
    rename_i c _ _ _ _ _ ih
    obtain ⟨rest, hr, rfl⟩ := map_cons_eq_ok h
    obtain ⟨hreach, htiles⟩ := ih hr
    exact ⟨c.reaches_skipWhitespace.trans hreach,
      tiles_upTo_cons c.reaches_skipWhitespace htiles⟩
  | case3 separated c =>
    simp only [Except.ok.injEq, Prod.mk.injEq] at h
    obtain ⟨rfl, rfl, -, rfl⟩ := h
    exact ⟨c.reaches_advance 1, tiles_upTo (c.reaches_advance 1)⟩
  | case4 separated c =>
    simp only [Except.ok.injEq, Prod.mk.injEq] at h
    obtain ⟨rfl, rfl, -, rfl⟩ := h
    exact ⟨c.reaches_advance 2, tiles_upTo (c.reaches_advance 2)⟩
  | case5 => simp at h
  | case6 =>
    rename_i c _ _ _ _ _ _ _ _ _ ih
    obtain ⟨rest, hr, rfl⟩ := map_cons_eq_ok h
    obtain ⟨hreach, htiles⟩ := ih hr
    exact ⟨(c.reaches_advance 1).trans hreach, tiles_upTo_cons (c.reaches_advance 1) htiles⟩
  | case7 => simp at h
  | case8 => simp at h
  | case9 separated c _ _ _ _ _ _ _ a after ha ih =>
    obtain ⟨rest, hr, rfl⟩ := map_cons_eq_ok h
    obtain ⟨hreach, htiles⟩ := ih hr
    obtain ⟨hattr, hspan⟩ := readAttribute_spec ha
    refine ⟨hattr.trans hreach, ?_⟩
    rw [List.map_cons, TagPart.span, hspan]
    exact tiles_upTo_cons hattr htiles

end Tag

namespace Token

open Cursor

/-- The spans that a token is delivered in: a tag piece by piece, everything else as a whole. -/
def pieces : Token → List Span
  | openTag tag => tag.start :: (tag.parts.map TagPart.span ++ [tag.close])
  | closeTag tag => tag.start :: (tag.whitespace.toList ++ [tag.close])
  | token => [token.span]

/-- The pieces of a token tile what was read for it. -/
def Tiled (c : Cursor) (token : Token) (next : Cursor) : Prop :=
  c.Reaches next ∧ Tiles c.offset token.pieces next.offset

theorem tiled_of_pieces {c next : Cursor} {token : Token} (h : c.Reaches next)
    (hp : token.pieces = [c.upTo next]) : token.Tiled c next := by
  refine ⟨h, ?_⟩
  rw [hp]
  exact tiles_upTo h

theorem readDelimited_tiled {construct : Construct} {make : Span → Span → Token}
    (hmake : ∀ span content, (make span content).pieces = [span]) {opening : Nat}
    {terminator : Bytes} {c next : Cursor} {token : Token}
    (h : readDelimited construct make opening terminator c = .ok (token, next)) :
    token.Tiled c next := by
  obtain ⟨stop, hstop, rfl, rfl⟩ := exists_of_readDelimited h
  have hclosed := (reaches_seek hstop).trans (stop.reaches_advance terminator.length)
  exact tiled_of_pieces ((c.reaches_advance opening).trans hclosed) (hmake _ _)

/-- From the `<!DOCTYPE` to behind its internal subset. -/
theorem reaches_afterSubset {c rootEnd afterId afterSubset : Cursor} {subset : Option Span}
    (hroot : rootEnd =
      ((c.advance 9).skipWhitespace.afterLooseName? [0x5B]).getD (c.advance 9).skipWhitespace)
    (hid : afterId = (readExternalId rootEnd.skipWhitespace).2.2.2)
    (hsubset : readSubset? afterId.skipWhitespace = some (subset, afterSubset)) :
    c.Reaches afterSubset := by
  have hstart : c.Reaches rootEnd := by
    rw [hroot]
    exact (c.reaches_advance 9).trans ((c.advance 9).reaches_skipWhitespace.trans
      (reaches_getD_afterLooseName [0x5B] (Reaches.refl _)))
  have hidentified : rootEnd.Reaches afterId := by
    rw [hid]
    exact rootEnd.reaches_skipWhitespace.trans (reaches_readExternalId _)
  have htail := afterId.reaches_skipWhitespace.trans (reaches_readSubset hsubset)
  exact hstart.trans (hidentified.trans htail)

theorem readDoctype_tiled {c next : Cursor} {token : Token}
    (h : readDoctype c = .ok (token, next)) : token.Tiled c next := by
  obtain ⟨rootEnd, afterId, subset, afterSubset, close, hroot, hid, hsubset, hclose, rfl, rfl⟩ :=
    exists_of_readDoctype h
  have hclosed := (reaches_seek hclose).trans (close.reaches_advance 1)
  exact tiled_of_pieces ((reaches_afterSubset hroot hid hsubset).trans hclosed) rfl

theorem readInstruction_tiled {dialect : Dialect} {c next : Cursor} {token : Token}
    (h : readInstruction dialect c = .ok (token, next)) : token.Tiled c next := by
  obtain ⟨named, stop, hnamed, hstop, hread⟩ := exists_of_readInstruction h
  have hreach : c.Reaches (stop.advance 2) := (c.reaches_advance 2).trans
    ((reaches_afterName hnamed).trans ((reaches_seek hstop).trans (stop.reaches_advance 2)))
  rcases hread with ⟨-, hdeclaration⟩ | ⟨-, rfl, rfl⟩
  · obtain ⟨found, complete, -, -, rfl, rfl⟩ := exists_of_readDeclaration hdeclaration
    exact tiled_of_pieces hreach rfl
  · exact tiled_of_pieces hreach rfl

theorem readCloseTag_tiled {dialect : Dialect} {c next : Cursor} {token : Token}
    (h : readCloseTag dialect c = .ok (token, next)) : token.Tiled c next := by
  obtain ⟨named, whitespace, close, hnamed, rfl, rfl, hclose⟩ := exists_of_readCloseTag h
  have hname := (c.reaches_advance 2).trans (reaches_afterName hnamed)
  have hend := close.reaches_advance 1
  rcases hclose with ⟨rfl, -, rfl⟩ | ⟨-, hseek, rfl⟩
  · have hspace := named.reaches_skipWhitespace
    exact ⟨hname.trans (hspace.trans hend),
      tiles_upTo_cons hname (tiles_upTo?_append hspace (tiles_upTo hend))⟩
  · have hjunk := named.reaches_skipWhitespace.trans (reaches_seek hseek)
    exact ⟨hname.trans (hjunk.trans hend),
      tiles_upTo_cons hname (tiles_upTo_cons hjunk (tiles_upTo hend))⟩

theorem readOpenTag_tiled {dialect : Dialect} {c next : Cursor} {token : Token}
    (h : readOpenTag dialect c = .ok (token, next)) : token.Tiled c next := by
  obtain ⟨named, parts, close, selfClosing, hnamed, hparts, rfl⟩ := exists_of_readOpenTag h
  have hname := (c.reaches_advance 1).trans (reaches_afterName hnamed)
  obtain ⟨hreach, htiles⟩ := Tag.readParts_spec hparts
  exact ⟨hname.trans hreach, tiles_upTo_cons hname htiles⟩

theorem readMarkup_tiled {dialect : Dialect} {c next : Cursor} {token : Token}
    (h : readMarkup dialect c = .ok (token, next)) : token.Tiled c next := by
  rw [readMarkup] at h
  split at h
  · exact readDelimited_tiled (fun _ _ => rfl) h
  split at h
  · exact readDelimited_tiled (fun _ _ => rfl) h
  split at h
  · exact readDoctype_tiled h
  split at h
  · exact readInstruction_tiled h
  split at h
  · exact readCloseTag_tiled h
  exact readOpenTag_tiled h

theorem text_tiled {c next : Cursor} (h : c.Reaches next) :
    (text (c.upTo next)).Tiled c next := tiled_of_pieces h rfl

/-- The end of an open tag stands where reading goes on. -/
theorem Tiled.stop_close {c next : Cursor} {tag : OpenTag} (h : (openTag tag).Tiled c next) :
    tag.close.stop = next.offset := by
  obtain ⟨-, -, -, htiles⟩ := h
  obtain ⟨middle, -, -, -, hstop⟩ := (tiles_append _ _).1 htiles
  exact hstop

/-- What a token was read from is its span. -/
theorem Tiled.span_eq {c next : Cursor} {token : Token} (h : token.Tiled c next) :
    token.span = c.upTo next := by
  obtain ⟨hreach, htiles⟩ := h
  have htag : ∀ {first last : Span} {inside : List Span},
      Tiles c.offset (first :: (inside ++ [last])) next.offset → first.join last = c.upTo next := by
    intro first last inside h
    obtain ⟨hfirst, hle, hrest⟩ := h
    obtain ⟨middle, hinside, hstart, hlast, hstop⟩ := (tiles_append _ _).1 hrest
    have hmiddle := hinside.le
    have hnext : last.stop = next.offset := hstop
    rw [Span.join, Cursor.upTo, hfirst, hnext, Nat.min_eq_left (by omega), Nat.max_eq_right (by omega)]
  have hwhole : ∀ {span : Span}, Tiles c.offset [span] next.offset → span = c.upTo next := by
    rintro ⟨start, stop⟩ ⟨hstart, -, hstop⟩
    obtain rfl : start = c.offset := hstart
    obtain rfl : stop = next.offset := hstop
    rfl
  cases token with
  | openTag tag => exact htag htiles
  | closeTag tag => exact htag htiles
  | _ => exact hwhole htiles

end Token

end MarkupStream
