import MarkupStream.Selector.Bounds

/-!
The tokens of a selector by offsets. A scanner knows only where it is in the source, and it looks at what is
left by cutting the source there. Behind the last lexeme there is a token for the end of the source.
-/
namespace MarkupStream.Selector

/-- A lexeme, or the end of the source, with the offset and the length of its source. -/
structure Token where
  kind : Option Lexeme.Kind
  offset : Nat
  length : Nat
  deriving DecidableEq, Repr

/-- Where a scanner is in its source, and whether a value is due. -/
structure Scanner where
  source : String
  offset : Nat
  wantsValue : Bool
  deriving DecidableEq, Repr

namespace Scanner

def ofSource (source : String) : Scanner := ⟨source, 0, false⟩

def remaining (s : Scanner) : Outcome (List Char) := do
  return (← slice s.source s.offset s.source.utf8ByteSize).toList

def move (s : Scanner) (count : Nat) : Scanner := { s with offset := s.offset + count }

/-- The character that comes after `ahead` others, if there is one. -/
def peek (s : Scanner) (ahead : Nat) : Outcome (Option Char) := do
  return (← s.remaining)[ahead]?

/-- Moves over characters as long as they are accepted. -/
def skipWhile (accepts : Char → Bool) : Scanner → Outcome Scanner :=
  rounds fun s => do
    match ← s.peek 0 with
    | some c => if accepts c then return .again (s.move c.utf8Size) else return .last s
    | none => return .last s

/-- The token that began at an offset and ends here. -/
def tokenFrom (s : Scanner) (start : Nat) (kind : Option Lexeme.Kind) : Outcome (Token × Scanner) := do
  return (⟨kind, start, ← minus s.offset start⟩, s)

/-- The number of bytes before the first character of the given kind, if there is one. -/
def find? (c : Char) : List Char → Option Nat
  | [] => none
  | first :: rest => if first == c then some 0 else (find? c rest).map (first.utf8Size + ·)

/-- A text between two equal quotes. -/
def readQuoted (s : Scanner) (quote : Char) : Outcome (Token × Scanner) := do
  let start := s.offset
  let s := s.move 1
  match find? quote (← s.remaining) with
  | some length =>
    let text ← slice s.source s.offset (s.offset + length)
    (s.move (length + 1)).tokenFrom start (some (.quoted text))
  | none => refuse s.source start (← minus s.source.utf8ByteSize start) .unterminatedString

/-- Moves over a value without quotes. -/
def skipBare : Scanner → Outcome Scanner :=
  rounds fun s => do
    match ← s.peek 0 with
    | some c =>
      if isBlank c || c == ']' || c == ')' then return .last s
      else if isQuoteMark c then refuse s.source s.offset 1 .quoteInBareValue
      else return .again (s.move c.utf8Size)
    | none => return .last s

/-- A value without quotes, in which no quote may occur. -/
def readBare (s : Scanner) : Outcome (Token × Scanner) := do
  let t ← s.skipBare
  t.tokenFrom s.offset (some (.bare (← slice s.source s.offset t.offset)))

def readWord (s : Scanner) : Outcome (Token × Scanner) := do
  let t ← s.skipWhile isWordChar
  t.tokenFrom s.offset (some (.word (← slice s.source s.offset t.offset)))

/-- The token that begins with a character, where no value is due. The fixed ones have one byte for each
character. -/
def readPlain (s : Scanner) (c : Char) : Outcome (Token × Scanner) := do
  match fixedKind? c (← s.peek 1) with
  | some (.comparison op, count) =>
    let t := { s.move count with wantsValue := true }
    t.tokenFrom s.offset (some (.comparison op))
  | some (kind, count) => (s.move count).tokenFrom s.offset (some kind)
  | none =>
    if isQuoteMark c then s.readQuoted c
    else if isWordChar c then s.readWord
    else refuse s.source s.offset c.utf8Size (.unexpectedCharacter c)

def next (s : Scanner) : Outcome (Token × Scanner) := do
  let s ← s.skipWhile isBlank
  match ← s.peek 0 with
  | none => s.tokenFrom s.offset none
  | some c =>
    if s.wantsValue then
      let s := { s with wantsValue := false }
      if isQuoteMark c then s.readQuoted c else s.readBare
    else s.readPlain c

def addToken (found : List Token) (s : Scanner) : Outcome (Round (List Token × Scanner)) := do
  let (token, s) ← s.next
  if token.kind.isNone then return .last (found ++ [token], s) else return .again (found ++ [token], s)

/-- Adds all tokens that are left, up to the end of the source. -/
def addTokens (found : List Token) (s : Scanner) : Outcome (List Token × Scanner) :=
  rounds (fun (found, s) => addToken found s) (found, s)

def tokens (s : Scanner) : Outcome (List Token) := do
  let (found, _) ← addTokens [] s
  return found

end Scanner

end MarkupStream.Selector
