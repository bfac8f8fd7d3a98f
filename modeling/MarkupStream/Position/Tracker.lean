import MarkupStream.Position
import MarkupStream.Repetition

/-!
Positions in words of 32 bits. A tracker keeps the position that it moved to last and adds to it what the
stretch of the document up to another offset holds. What becomes of a sum that is too great for a word is
left to the arithmetic: wrapping arithmetic drops the excess, and in checked arithmetic there is no such sum.
-/
namespace MarkupStream

/-- What a stretch of a document adds to a position: its bytes, its newlines, and the characters behind the
last newline, or all of them if there is none. -/
structure Stretch where
  bytes : Nat
  newlines : Nat
  characters : Nat
  deriving DecidableEq, Repr

namespace Stretch

def ofBytes (bytes : Bytes) : Stretch :=
  ⟨bytes.length, bytes.count Byte.newline,
    (bytes.reverse.takeWhile (· != Byte.newline)).countP (!Byte.isContinuation ·)⟩

/-- One stretch and then another. -/
def append (s u : Stretch) : Stretch :=
  ⟨s.bytes + u.bytes, s.newlines + u.newlines,
    if u.newlines = 0 then s.characters + u.characters else u.characters⟩

instance : Append Stretch := ⟨append⟩

/-- A stretch as often as is said. -/
def times (s : Stretch) (count : Nat) : Stretch :=
  ⟨count * s.bytes, count * s.newlines,
    if s.newlines = 0 then count * s.characters else if count = 0 then 0 else s.characters⟩

end Stretch

/-- The stretch of a document that is written as repeated pieces. -/
def Repetition.stretch : Repetition → Stretch
  | [] => .ofBytes []
  | (piece, count) :: rest => (Stretch.ofBytes piece).times count ++ stretch rest

/-- The last position that was moved to. -/
structure Tracker where
  line : UInt32
  column : UInt32
  offset : Nat
  deriving DecidableEq, Repr

namespace Tracker

def start : Tracker := ⟨1, 1, 0⟩

def position (t : Tracker) : Position := ⟨t.line.toNat, t.column.toNat, t.offset⟩

/-- The sum of two words without what does not fit into a word. -/
def wrapping (a b : UInt32) : Id UInt32 := a + b

/-- The sum of two words if it is a word. -/
def checked (a b : UInt32) : Option UInt32 :=
  if a.toNat + b.toNat < UInt32.size then some (a + b) else none

section Counting

variable {m : Type → Type} [Monad m] (add : UInt32 → UInt32 → m UInt32)

/-- The position behind the next stretch of the document. In a stretch with newlines the column is counted
anew. -/
def across (t : Tracker) (s : Stretch) : m Tracker :=
  if s.newlines = 0 then do
    let column ← add t.column s.characters.toUInt32
    return ⟨t.line, column, t.offset + s.bytes⟩
  else do
    let line ← add t.line s.newlines.toUInt32
    let column ← add 1 s.characters.toUInt32
    return ⟨line, column, t.offset + s.bytes⟩

/-- The position of an offset. One behind the tracker has the position of the tracker, and one past the end
of the document that of the end. -/
def peek (t : Tracker) (input : Bytes) (offset : Nat) : m Tracker :=
  let stop := min offset input.length
  if stop ≤ t.offset then return t
  else t.across add (.ofBytes ((input.drop t.offset).take (stop - t.offset)))

/-- The same for a document of repeated pieces. -/
def peekRepetition (t : Tracker) (doc : Repetition) (offset : Nat) : m Tracker :=
  let stop := min offset doc.length
  if stop ≤ t.offset then return t
  else t.across add (doc.between t.offset stop).stretch

/-- What a tracker may be asked for: the position of an offset, be it that it moves there or not. -/
inductive Request where
  | advance (offset : Nat)
  | peek (offset : Nat)
  deriving DecidableEq, Repr

/-- The answers to requests, in order. -/
def answers (input : Bytes) : Tracker → List Request → m (List Tracker)
  | _, [] => return []
  | t, .advance offset :: requests => do
    let u ← t.peek add input offset
    return u :: (← answers input u requests)
  | t, .peek offset :: requests => do
    let u ← t.peek add input offset
    return u :: (← answers input t requests)

end Counting

end Tracker

end MarkupStream
