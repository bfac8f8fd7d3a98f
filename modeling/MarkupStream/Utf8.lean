import MarkupStream.Byte

/-!
Text of bytes that should be UTF-8. The bytes are cut into characters and ill-formed parts, each
part as long as the beginning of some character can be; a strict reading refuses such a part and a
lossy one shows the replacement character in its place.
-/
namespace MarkupStream.Utf8

/-- Inside a character: the continuation bytes still owed, the least and the greatest value of the
next of them, and the scalar value so far. -/
structure Pending where
  owed : Nat
  least : UInt8
  greatest : UInt8
  value : Nat
  deriving DecidableEq, Repr

/-- What the first byte of a character asks for. -/
inductive Lead where
  | whole (c : Char)
  | opens (p : Pending)
  | illFormed

/-- The bounds after E0, ED, F0 and F4 shut out overlong forms, surrogates and values past 10FFFF. -/
def lead (b : UInt8) : Lead :=
  if b < 0x80 then .whole (Char.ofNat b.toNat)
  else if b < 0xC2 then .illFormed
  else if b < 0xE0 then .opens ⟨1, 0x80, 0xBF, b.toNat % 32⟩
  else if b == 0xE0 then .opens ⟨2, 0xA0, 0xBF, 0⟩
  else if b == 0xED then .opens ⟨2, 0x80, 0x9F, 13⟩
  else if b < 0xF0 then .opens ⟨2, 0x80, 0xBF, b.toNat % 16⟩
  else if b == 0xF0 then .opens ⟨3, 0x90, 0xBF, 0⟩
  else if b < 0xF4 then .opens ⟨3, 0x80, 0xBF, b.toNat % 8⟩
  else if b == 0xF4 then .opens ⟨3, 0x80, 0x8F, 4⟩
  else .illFormed

def Pending.accepts (p : Pending) (b : UInt8) : Bool := p.least ≤ b && b ≤ p.greatest

def Pending.push (p : Pending) (b : UInt8) : Pending :=
  ⟨p.owed - 1, 0x80, 0xBF, p.value * 64 + b.toNat % 64⟩

mutual

/-- The characters of the bytes, with nothing in place of an ill-formed part. -/
def pieces : Bytes → List (Option Char)
  | [] => []
  | b :: rest =>
    match lead b with
    | .whole c => some c :: pieces rest
    | .opens p => piecesAfter p rest
    | .illFormed => none :: pieces rest

/-- The same from inside a character; a byte that cannot go on there begins anew. -/
def piecesAfter (p : Pending) : Bytes → List (Option Char)
  | [] => [none]
  | b :: rest =>
    if p.accepts b then
      if p.owed ≤ 1 then some (Char.ofNat (p.push b).value) :: pieces rest
      else piecesAfter (p.push b) rest
    else
      match lead b with
      | .whole c => none :: some c :: pieces rest
      | .opens q => none :: piecesAfter q rest
      | .illFormed => none :: none :: pieces rest

end

/-- The text of well-formed bytes. -/
def decode? (bytes : Bytes) : Option String := ((pieces bytes).mapM id).map String.ofList

/-- The text with a replacement character for each ill-formed part. -/
def decodeLossy (bytes : Bytes) : String :=
  String.ofList ((pieces bytes).map (·.getD (Char.ofNat 0xFFFD)))

end MarkupStream.Utf8
