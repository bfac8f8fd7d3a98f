import MarkupStream.Selector.Lexeme

/-!
Selectors by positions. The readers of the next modules go by offsets into the source, which they cut into
slices, and by indices into a list of tokens. Such a read may leave what there is: an index or a slice can be
out of range, an offset can be inside a character, and a count can go below zero. Then it halts, without any
error. A loop goes through its rounds until one of them is the last, and if none is, it never ends.
-/
namespace MarkupStream.Selector

/-- Why a read goes no further. -/
inductive Halt where
  /-- It has left what there is. -/
  | stray
  /-- Its calls are nested too deep. -/
  | deep
  | refused (e : SelectorError)
  deriving DecidableEq, Repr

/-- What becomes of a read; nothing does if it never ends. -/
abbrev Outcome := ExceptT Halt Option

def stray {α : Type} : Outcome α := throw .stray

/-- The difference of two numbers, of which the first must not be the smaller one. -/
def minus (a b : Nat) : Outcome Nat := if b ≤ a then return a - b else stray

section Rounds

variable {α : Type}

/-- The state after a round, and whether there is another one. -/
inductive Round (α : Type) where
  | again (state : α)
  | last (state : α)

/-- A loop through the rounds that begin with a state. -/
def rounds (round : α → Outcome (Round α)) (state : α) : Outcome α :=
  have : Nonempty α := ⟨state⟩
  repeatM (fun state => do
    match ← round state with
    | .again next => return .inl next
    | .last final => return .inr final) state

end Rounds

section Lists

variable {α : Type}

def entryAt (items : List α) (index : Nat) : Outcome α :=
  match items[index]? with
  | some item => return item
  | none => stray

def entriesBetween (items : List α) (start stop : Nat) : Outcome (List α) :=
  if start ≤ stop ∧ stop ≤ items.length then return (items.take stop).drop start else stray

end Lists

section Texts

/-- The characters before an offset and those from there on, if no character is cut. -/
def splitAtByte? (offset : Nat) : List Char → Option (List Char × List Char)
  | [] => if offset = 0 then some ([], []) else none
  | c :: rest =>
    if offset = 0 then some ([], c :: rest)
    else if c.utf8Size ≤ offset then
      (splitAtByte? (offset - c.utf8Size) rest).map fun (before, behind) => (c :: before, behind)
    else none

/-- Whether an offset lies between two characters of a text, or at one of its ends. -/
def isBoundary (source : String) (offset : Nat) : Bool := (splitAtByte? offset source.toList).isSome

/-- The piece of a text between two offsets, neither of them inside a character. -/
def slice (source : String) (start stop : Nat) : Outcome String := do
  let length ← minus stop start
  match splitAtByte? start source.toList with
  | none => stray
  | some (_, behind) =>
    match splitAtByte? length behind with
    | none => stray
    | some (piece, _) => return String.ofList piece

/-- The first offset from the given one on that is not inside a character. -/
def nextBoundary (source : String) : Nat → Outcome Nat :=
  rounds fun offset => if isBoundary source offset then return .last offset else return .again (offset + 1)

/-- An error about a piece of the source, at least one byte long and cut off at the end of the source. -/
def refuse {α : Type} (source : String) (offset length : Nat) (flaw : SelectorFlaw) : Outcome α := do
  let start := min offset source.utf8ByteSize
  let stop ← nextBoundary source (min (start + max length 1) source.utf8ByteSize)
  let fragment ← slice source start stop
  throw (.refused ⟨flaw, fragment, start⟩)

end Texts

end MarkupStream.Selector
