import MarkupStream.Element

/-!
A catalog of elements sorted by name and cut into one segment per first letter, so that a name is
compared only with the few entries that share its first letter. Names are looked up without regard
to case.
-/
namespace MarkupStream

/-- The entries from index `start` up to `stop`; a segment that stops at zero is not begun yet. -/
structure Catalog.Segment where
  start : Nat
  stop : Nat
  deriving DecidableEq, Repr

structure Catalog where
  table : List ElementSpec
  segments : List Catalog.Segment
  deriving Repr

namespace Catalog

def Segment.extend (segment : Segment) (index : Nat) : Segment :=
  ⟨if segment.stop == 0 then index else segment.start, index + 1⟩

/-- The place of a letter in the alphabet. -/
def letterIndex? (b : UInt8) : Option Nat :=
  let small := Byte.toLower b
  if 0x61 ≤ small && small ≤ 0x7A then some (small.toNat - 0x61) else none

/-- The segments of a table after the entries from an index on have been added. -/
def segmentsFrom (segments : List Segment) (index : Nat) : List ElementSpec → List Segment
  | [] => segments
  | spec :: rest =>
    let added := match spec.name.head?.bind letterIndex? with
      | some letter => segments.modify letter (·.extend index)
      | none => segments
    segmentsFrom added (index + 1) rest

/-- The catalog of a table that is sorted by name. -/
def ofSorted (table : List ElementSpec) : Catalog :=
  ⟨table, segmentsFrom (List.replicate 26 ⟨0, 0⟩) 0 table⟩

def html : Catalog := ofSorted ElementSpec.all

/-- The entries of a segment. -/
def entries (catalog : Catalog) (segment : Segment) : List ElementSpec :=
  (catalog.table.drop segment.start).take (segment.stop - segment.start)

def lookup (catalog : Catalog) (name : Bytes) : Option ElementSpec :=
  match name.head?.bind letterIndex? with
  | none => none
  | some letter =>
    match catalog.segments[letter]? with
    | none => none
    | some segment => (catalog.entries segment).find? fun spec => Bytes.sameName true spec.name name

end Catalog

end MarkupStream
