import MarkupStream.Byte

/-!
A span names a piece of a document by its first offset and the offset past its last byte. Spans
carry no bytes: `slice` reads them out of the document, and a span that does not fit reads nothing.

A span is held in two words of 32 bits. Nothing but the length of the document keeps its offset and its
length from being too great for them; then the excess is dropped, and the words stand for another span.
-/
namespace MarkupStream

structure Span where
  start : Nat
  stop : Nat
  deriving DecidableEq, Repr, Inhabited

namespace Span

/-- The longest document whose offsets all fit into 32 bits. -/
def maxInputLength : Nat := 4294967295

def empty (offset : Nat) : Span := ⟨offset, offset⟩

def ofLength (offset length : Nat) : Span := ⟨offset, offset + length⟩

def length (span : Span) : Nat := span.stop - span.start

def isEmpty (span : Span) : Bool := span.length == 0

/-- The bytes of a document that a span covers, none unless it lies inside. -/
def slice (span : Span) (input : Bytes) : Bytes :=
  let tail := input.drop span.start
  let bytes := tail.take span.length
  if bytes.length == span.length then bytes else []

/-- The least span that covers both. -/
def join (a b : Span) : Span := ⟨min a.start b.start, max a.stop b.stop⟩

def text (span : Span) : String := toString span.start ++ ".." ++ toString span.stop

@[simp] theorem start_empty (n : Nat) : (empty n).start = n := rfl
@[simp] theorem stop_empty (n : Nat) : (empty n).stop = n := rfl
@[simp] theorem start_join (a b : Span) : (a.join b).start = min a.start b.start := rfl
@[simp] theorem stop_join (a b : Span) : (a.join b).stop = max a.stop b.stop := rfl

@[simp] theorem slice_empty (n : Nat) (input : Bytes) : (empty n).slice input = [] := by
  simp [slice, empty, length]

theorem slice_eq_of_le {span : Span} {input : Bytes} (h : span.stop ≤ input.length) :
    span.slice input = (input.drop span.start).take (span.stop - span.start) := by
  unfold slice length
  refine if_pos (beq_iff_eq.2 ?_)
  simp only [List.length_take, List.length_drop]
  omega

theorem slice_eq_nil_of_lt {span : Span} {input : Bytes} (h : input.length < span.stop) :
    span.slice input = [] := by
  unfold slice length
  dsimp only
  split
  · rename_i hfits
    have hlength := beq_iff_eq.1 hfits
    simp only [List.length_take, List.length_drop] at hlength
    rw [show span.stop - span.start = 0 by omega, List.take_zero]
  · rfl

end Span

/-- A span as it is held. -/
structure WordSpan where
  offset : UInt32
  length : UInt32
  deriving DecidableEq, Repr

namespace WordSpan

/-- The words for the bytes between two offsets. What does not fit into them is dropped, and the length is the
difference of the words. -/
def ofRange (start stop : Nat) : WordSpan := ⟨start.toUInt32, stop.toUInt32 - start.toUInt32⟩

/-- The span that the words stand for. -/
def span (words : WordSpan) : Span := .ofLength words.offset.toNat words.length.toNat

end WordSpan

namespace Span

/-- What becomes of a span that is held in words. -/
def inWords (span : Span) : Span := (WordSpan.ofRange span.start span.stop).span

/-- As long as the document is not too long, words hold its spans. -/
theorem inWords_eq_self {span : Span} (hle : span.start ≤ span.stop) (hstop : span.stop ≤ maxInputLength) :
    span.inWords = span := by
  have hsize : maxInputLength < UInt32.size := by decide
  have hstart : span.start.toUInt32.toNat = span.start := UInt32.toNat_ofNat_of_lt (by omega)
  have hend : span.stop.toUInt32.toNat = span.stop := UInt32.toNat_ofNat_of_lt (by omega)
  have hlength : (span.stop.toUInt32 - span.start.toUInt32).toNat = span.stop - span.start := by
    rw [UInt32.toNat_sub_of_le _ _ (by rw [UInt32.le_iff_toNat_le]; omega), hstart, hend]
  rw [inWords, WordSpan.ofRange, WordSpan.span, ofLength, hstart, hlength, Nat.add_sub_cancel' hle]

end Span

end MarkupStream
