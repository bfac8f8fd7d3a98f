import MarkupStream.Element.Catalog

/-!
The segments of a catalog in words of 16 bits. They are filled by one pass over the table, in which each entry
is counted to the place that the first byte of its name has behind the letter a. Here a read can leave what
there is: a name may have no first byte, the byte may lie before the letters or behind them, and a segment may
go beyond the table. Then nothing comes of it.
-/
namespace MarkupStream.Catalog

/-- A segment with its indices cut down to words. -/
structure WordSegment where
  start : UInt16
  stop : UInt16
  deriving DecidableEq, Repr

def WordSegment.extend (segment : WordSegment) (index : Nat) : WordSegment :=
  ⟨if segment.stop == 0 then index.toUInt16 else segment.start, (index + 1).toUInt16⟩

/-- How far a byte lies behind the letter a. -/
def placeOf? (b : UInt8) : Option Nat := if 0x61 ≤ b then some (b - 0x61).toNat else none

/-- The segments after the entries from an index on have been added. -/
def fillFrom? (segments : List WordSegment) (index : Nat) :
    List ElementSpec → Option (List WordSegment)
  | [] => some segments
  | spec :: rest => do
    let place ← placeOf? (← spec.name.head?)
    let segment ← segments[place]?
    fillFrom? (segments.set place (segment.extend index)) (index + 1) rest

def wordSegments? (table : List ElementSpec) : Option (List WordSegment) :=
  fillFrom? (List.replicate 26 ⟨0, 0⟩) 0 table

/-- The entries from one index up to another, if there are that many. -/
def slice? (table : List ElementSpec) (start stop : Nat) : Option (List ElementSpec) :=
  if start ≤ stop ∧ stop ≤ table.length then some ((table.take stop).drop start) else none

/-- The result of looking up a name, which is itself nothing if the table has no such name. -/
def lookupIn? (table : List ElementSpec) (segments : List WordSegment) (name : Bytes) :
    Option (Option ElementSpec) :=
  match name.head? with
  | none => some none
  | some b =>
    let first := Byte.toLower b
    if 0x61 ≤ first && first ≤ 0x7A then do
      let segment ← segments[(first - 0x61).toNat]?
      let entries ← slice? table segment.start.toNat segment.stop.toNat
      return entries.find? fun spec => Bytes.sameName true spec.name name
    else some none

end MarkupStream.Catalog
