/-!
Bytes of a marked-up document: the classes that its grammar tells apart, and equality of names with
or without regard to the case of ASCII letters. A byte outside ASCII belongs to some character of a
name and is never looked at on its own.
-/
namespace MarkupStream

abbrev Bytes := List UInt8

/-- The UTF-8 form of a text. -/
def Bytes.ofString (text : String) : Bytes := text.toUTF8.data.toList

namespace Byte

def lessThan : UInt8 := 0x3C
def greaterThan : UInt8 := 0x3E
def slash : UInt8 := 0x2F
def equals : UInt8 := 0x3D
def newline : UInt8 := 0x0A

/-- Space, tab, newline, carriage return and form feed. -/
def isWhitespace (b : UInt8) : Bool :=
  b == 0x20 || b == 0x09 || b == 0x0A || b == 0x0D || b == 0x0C

def isLetter (b : UInt8) : Bool :=
  (0x41 ≤ b && b ≤ 0x5A) || (0x61 ≤ b && b ≤ 0x7A)

def isDigit (b : UInt8) : Bool := 0x30 ≤ b && b ≤ 0x39

/-- A letter, an underscore, a colon, or any byte outside ASCII. -/
def isNameStart (b : UInt8) : Bool :=
  isLetter b || b == 0x5F || b == 0x3A || 0x80 ≤ b

/-- A name goes on with digits, hyphens and full stops as well. -/
def isName (b : UInt8) : Bool :=
  isNameStart b || isDigit b || b == 0x2D || b == 0x2E

def isQuote (b : UInt8) : Bool := b == 0x22 || b == 0x27

/-- A continuation byte carries no character of its own. -/
def isContinuation (b : UInt8) : Bool := b &&& 0xC0 == 0x80

/-- The small form of an ASCII letter; every other byte is left alone. -/
def toLower (b : UInt8) : UInt8 :=
  if 0x41 ≤ b && b ≤ 0x5A then b + 0x20 else b

theorem isName_of_isNameStart {b : UInt8} (h : isNameStart b) : isName b := by
  simp [isName, h]

end Byte

namespace Bytes

def foldCase (bytes : Bytes) : Bytes := bytes.map Byte.toLower

@[simp] theorem foldCase_nil : foldCase [] = [] := rfl
@[simp] theorem foldCase_cons (b : UInt8) (bytes : Bytes) :
    foldCase (b :: bytes) = Byte.toLower b :: foldCase bytes := rfl
@[simp] theorem foldCase_append (a b : Bytes) : foldCase (a ++ b) = foldCase a ++ foldCase b := by
  simp [foldCase]
@[simp] theorem length_foldCase (bytes : Bytes) : (foldCase bytes).length = bytes.length := by
  simp [foldCase]

/-- Whether two names are the same name, ASCII letters of either case counting as equal on demand. -/
def sameName (ignoreCase : Bool) (a b : Bytes) : Bool :=
  if ignoreCase then a.foldCase == b.foldCase else a == b

theorem sameName_iff {ignoreCase : Bool} {a b : Bytes} :
    sameName ignoreCase a b ↔ if ignoreCase then a.foldCase = b.foldCase else a = b := by
  cases ignoreCase <;> simp [sameName]

@[simp] theorem sameName_self (ignoreCase : Bool) (a : Bytes) : sameName ignoreCase a a := by
  cases ignoreCase <;> simp [sameName]

theorem sameName_comm (ignoreCase : Bool) (a b : Bytes) :
    sameName ignoreCase a b = sameName ignoreCase b a := by
  rw [Bool.eq_iff_iff, sameName_iff, sameName_iff]
  cases ignoreCase <;> simp [eq_comm]

end Bytes

end MarkupStream
