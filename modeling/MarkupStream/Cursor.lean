import MarkupStream.Span

/-!
A cursor stands somewhere in a document: it knows its offset and the bytes that are left. Reading
moves it forward only, and the span of what was read runs from the old cursor to the new one.
-/
namespace MarkupStream

structure Cursor where
  offset : Nat
  rest : Bytes
  deriving DecidableEq, Repr

namespace Cursor

def start (input : Bytes) : Cursor := ⟨0, input⟩

/-- The cursor at an offset of a document, or at its end when the offset lies beyond. -/
def ofOffset (input : Bytes) (offset : Nat) : Cursor :=
  ⟨(input.take offset).length, input.drop offset⟩

def peek? (c : Cursor) : Option UInt8 := c.rest.head?

/-- Moves over at most `n` bytes. -/
def advance (c : Cursor) (n : Nat) : Cursor :=
  ⟨c.offset + (c.rest.take n).length, c.rest.drop n⟩

/-- Moves over the bytes of one class. -/
def skip (c : Cursor) (inClass : UInt8 → Bool) : Cursor :=
  ⟨c.offset + (c.rest.takeWhile inClass).length, c.rest.dropWhile inClass⟩

def upTo (c next : Cursor) : Span := ⟨c.offset, next.offset⟩

/-- The bytes between a cursor and a later one. -/
def bytesUpTo (c next : Cursor) : Bytes := c.rest.take (next.offset - c.offset)

/-- The span between two cursors unless they are the same. -/
def upTo? (c next : Cursor) : Option Span :=
  if c.offset < next.offset then some (c.upTo next) else none

def startsWith (c : Cursor) (bytes : Bytes) : Bool := bytes.isPrefixOf c.rest

def startsWithIgnoringCase (c : Cursor) (bytes : Bytes) : Bool :=
  Bytes.sameName true (c.rest.take bytes.length) bytes

/-- The first place from an offset on where the bytes left satisfy a condition. -/
def seekFrom (found : Bytes → Bool) (offset : Nat) : Bytes → Option Cursor
  | [] => if found [] then some ⟨offset, []⟩ else none
  | b :: rest =>
    if found (b :: rest) then some ⟨offset, b :: rest⟩ else seekFrom found (offset + 1) rest

def seek? (c : Cursor) (found : Bytes → Bool) : Option Cursor := seekFrom found c.offset c.rest

def seekByte? (c : Cursor) (b : UInt8) : Option Cursor := c.seek? (·.head? == some b)

def seekBytes? (c : Cursor) (bytes : Bytes) : Option Cursor := c.seek? (bytes.isPrefixOf ·)

/-- Whether the bytes go on with a name that ends there: at the end of the document, at whitespace,
at `>` or at a slash. -/
def closesWith (name : Bytes) (ignoreCase : Bool) (bytes : Bytes) : Bool :=
  Bytes.sameName ignoreCase (bytes.take name.length) name &&
    match bytes.drop name.length with
    | [] => true
    | b :: _ => Byte.isWhitespace b || b == Byte.greaterThan || b == Byte.slash

/-- The first `</` from an offset on that closes an element of the given name. A pair that fails is
passed over whole, since no pair begins at its slash. -/
def closeTagFrom (name : Bytes) (ignoreCase : Bool) (offset : Nat) : Bytes → Option Cursor
  | [] => none
  | [_] => none
  | a :: b :: rest =>
    if a == Byte.lessThan && b == Byte.slash then
      if closesWith name ignoreCase rest then some ⟨offset, a :: b :: rest⟩
      else closeTagFrom name ignoreCase (offset + 2) rest
    else closeTagFrom name ignoreCase (offset + 1) (b :: rest)

def seekCloseTag? (c : Cursor) (name : Bytes) (ignoreCase : Bool) : Option Cursor :=
  closeTagFrom name ignoreCase c.offset c.rest

/-- The cursor after a name, if one begins here. -/
def afterName? (c : Cursor) : Option Cursor :=
  match c.rest with
  | b :: _ => if Byte.isNameStart b then some (c.skip Byte.isName) else none
  | [] => none

/-- The cursor after a loose name: anything up to whitespace, a slash, `>` or a further stop. -/
def afterLooseName? (c : Cursor) (stops : Bytes) : Option Cursor :=
  let next := c.skip fun b =>
    !(Byte.isWhitespace b || b == Byte.slash || b == Byte.greaterThan || stops.contains b)
  if c.offset < next.offset then some next else none

def skipWhitespace (c : Cursor) : Cursor := c.skip Byte.isWhitespace

/-- The cursor in front of the next `<`, or at the end of the document. -/
def nextTag (c : Cursor) : Cursor := c.skip (· != Byte.lessThan)

section Progress

@[simp] theorem rest_advance (c : Cursor) (n : Nat) : (c.advance n).rest = c.rest.drop n := rfl

theorem length_skip_le (c : Cursor) (inClass : UInt8 → Bool) :
    (c.skip inClass).rest.length ≤ c.rest.length :=
  (List.dropWhile_suffix inClass).length_le

@[simp] theorem rest_skipWhitespace_le (c : Cursor) :
    c.skipWhitespace.rest.length ≤ c.rest.length := c.length_skip_le _

theorem length_skip_lt {c : Cursor} {inClass : UInt8 → Bool} {b : UInt8} {rest : Bytes}
    (h : c.rest = b :: rest) (hb : inClass b) : (c.skip inClass).rest.length < c.rest.length := by
  have := (List.dropWhile_suffix (l := rest) inClass).length_le
  simp [skip, h, hb]
  omega

theorem length_seekFrom_le {found : Bytes → Bool} {offset : Nat} {bytes : Bytes} {next : Cursor}
    (h : seekFrom found offset bytes = some next) : next.rest.length ≤ bytes.length := by
  induction bytes generalizing offset with
  | nil =>
    unfold seekFrom at h
    split at h <;> simp at h
    subst h; simp
  | cons b rest ih =>
    unfold seekFrom at h
    split at h
    · simp at h; subst h; simp
    · have := ih h; simp; omega

theorem length_seek_le {c next : Cursor} {found : Bytes → Bool} (h : c.seek? found = some next) :
    next.rest.length ≤ c.rest.length := length_seekFrom_le h

theorem length_afterName_lt {c next : Cursor} (h : c.afterName? = some next) :
    next.rest.length < c.rest.length := by
  unfold afterName? at h
  split at h
  · rename_i b rest hc
    split at h
    · simp at h; subst h
      exact length_skip_lt hc (Byte.isName_of_isNameStart (by assumption))
    · simp at h
  · simp at h

theorem length_afterLooseName_lt {c next : Cursor} {stops : Bytes}
    (h : c.afterLooseName? stops = some next) : next.rest.length < c.rest.length := by
  obtain ⟨hlt, rfl⟩ := by simpa only [afterLooseName?, Option.ite_none_right_eq_some,
    Option.some.injEq] using h
  simp only [skip] at hlt ⊢
  have := congrArg List.length (List.takeWhile_append_dropWhile (l := c.rest)
    (p := fun b => !(Byte.isWhitespace b || b == Byte.slash || b == Byte.greaterThan ||
      stops.contains b)))
  simp only [List.length_append] at this
  omega

end Progress

end Cursor

end MarkupStream
