import MarkupStream.Byte

/-!
Positions for people: line and column from one, with the offset they stand for. A column counts
characters, so a continuation byte takes none. A reader that walks a document forward keeps the last
position it was asked for and steps on from there; `Position.ofOffset` says the same without a walk.
-/
namespace MarkupStream

structure Position where
  line : Nat
  column : Nat
  offset : Nat
  deriving DecidableEq, Repr, Inhabited

namespace Position

def start : Position := ⟨1, 1, 0⟩

/-- The position after one more byte. -/
def step (p : Position) (b : UInt8) : Position :=
  if b == Byte.newline then ⟨p.line + 1, 1, p.offset + 1⟩
  else if Byte.isContinuation b then ⟨p.line, p.column, p.offset + 1⟩
  else ⟨p.line, p.column + 1, p.offset + 1⟩

def advance (p : Position) (bytes : Bytes) : Position := bytes.foldl step p

/-- The position of an offset, walked to from an earlier position of the same document. An offset
behind it leaves it where it is, and one past the end counts as the end. -/
def locate (p : Position) (input : Bytes) (offset : Nat) : Position :=
  p.advance ((input.drop p.offset).take (offset - p.offset))

/-- The line and column of an offset, counted in the bytes before it. -/
def ofOffset (input : Bytes) (offset : Nat) : Position :=
  let before := input.take offset
  let line := before.reverse.takeWhile (· != Byte.newline)
  ⟨1 + before.count Byte.newline, 1 + line.countP (!Byte.isContinuation ·), before.length⟩

def text (p : Position) : String :=
  "line " ++ toString p.line ++ ", column " ++ toString p.column

@[simp] theorem advance_nil (p : Position) : p.advance [] = p := rfl
@[simp] theorem advance_cons (p : Position) (b : UInt8) (bytes : Bytes) :
    p.advance (b :: bytes) = (p.step b).advance bytes := rfl
@[simp] theorem advance_append (p : Position) (a b : Bytes) :
    p.advance (a ++ b) = (p.advance a).advance b := by
  simp [advance]

@[simp] theorem offset_step (p : Position) (b : UInt8) : (p.step b).offset = p.offset + 1 := by
  unfold step
  split
  · rfl
  · split <;> rfl

@[simp] theorem offset_advance (p : Position) (bytes : Bytes) :
    (p.advance bytes).offset = p.offset + bytes.length := by
  induction bytes generalizing p with
  | nil => rfl
  | cons b bytes ih => simp [ih]; omega

end Position

end MarkupStream
