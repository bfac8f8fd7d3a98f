import MarkupStream.Blank
import MarkupStream.Selector.Error

/-!
The lexemes of a selector. After a comparison the next lexeme is a value: a quoted text, or a bare
run up to a blank or a closing bracket, which may be empty. Reading goes on after an error from
wherever it was found.
-/
namespace MarkupStream.Selector

inductive Comparison where
  | equal | notEqual | startsWith | endsWith | contains
  deriving DecidableEq, Repr

def Comparison.text : Comparison → String
  | equal => "="
  | notEqual => "!="
  | startsWith => "^="
  | endsWith => "$="
  | contains => "*="

inductive Lexeme.Kind where
  | slash | doubleSlash | star | dot | hash | percent | atSign | bang | doublePipe
  | comparison (op : Comparison)
  | leftParen | rightParen | leftBracket | rightBracket
  | word (text : String)
  | quoted (text : String)
  | bare (text : String)
  deriving DecidableEq, Repr

/-- A lexeme with the offset and the length of its source. -/
structure Lexeme where
  kind : Lexeme.Kind
  offset : Nat
  length : Nat
  deriving DecidableEq, Repr

/-- Whether a word is a keyword, in either case. -/
def Lexeme.Kind.isKeyword (keyword : String) : Lexeme.Kind → Bool
  | word text => text.toList.map Char.toLower == keyword.toList
  | _ => false

/-- The number of bytes of a text in UTF-8. -/
def byteSize : List Char → Nat
  | [] => 0
  | c :: rest => c.utf8Size + byteSize rest

@[simp] theorem byteSize_nil : byteSize [] = 0 := rfl
@[simp] theorem byteSize_cons (c : Char) (rest : List Char) :
    byteSize (c :: rest) = c.utf8Size + byteSize rest := rfl
@[simp] theorem byteSize_append (a b : List Char) :
    byteSize (a ++ b) = byteSize a + byteSize b := by
  induction a with
  | nil => simp
  | cons c a ih => simp [ih, Nat.add_assoc]

def isQuoteMark (c : Char) : Bool := c == '\x27' || c == '\x22'

/-- ASCII letters and digits, hyphen, underscore, colon, and every character outside ASCII. -/
def isWordChar (c : Char) : Bool :=
  c.isAlphanum || c == '-' || c == '_' || c == ':' || 0x80 ≤ c.toNat

def isBareChar (c : Char) : Bool :=
  !(isBlank c || c == ']' || c == ')' || isQuoteMark c)

/-- Lexemes that are fixed, longest first, with their number of characters. -/
def fixedKind? : Char → Option Char → Option (Lexeme.Kind × Nat)
  | '/', some '/' => some (.doubleSlash, 2)
  | '/', _ => some (.slash, 1)
  | '|', some '|' => some (.doublePipe, 2)
  | '!', some '=' => some (.comparison .notEqual, 2)
  | '^', some '=' => some (.comparison .startsWith, 2)
  | '$', some '=' => some (.comparison .endsWith, 2)
  | '*', some '=' => some (.comparison .contains, 2)
  | '!', _ => some (.bang, 1)
  | '*', _ => some (.star, 1)
  | '=', _ => some (.comparison .equal, 1)
  | '.', _ => some (.dot, 1)
  | '#', _ => some (.hash, 1)
  | '%', _ => some (.percent, 1)
  | '@', _ => some (.atSign, 1)
  | '(', _ => some (.leftParen, 1)
  | ')', _ => some (.rightParen, 1)
  | '[', _ => some (.leftBracket, 1)
  | ']', _ => some (.rightBracket, 1)
  | _, _ => none

/-- What is left of a source, and whether a value is due. -/
structure LexemeStream where
  source : String
  offset : Nat
  rest : List Char
  wantsValue : Bool
  deriving DecidableEq, Repr

namespace LexemeStream

def ofSource (source : String) : LexemeStream := ⟨source, 0, source.toList, false⟩

/-- The result of asking for a lexeme: nothing at the end of the source. -/
abbrev Result := Except SelectorError (Option Lexeme) × LexemeStream

/-- Moves over the next characters. -/
def skip (s : LexemeStream) (count : Nat) : LexemeStream :=
  { s with offset := s.offset + byteSize (s.rest.take count), rest := s.rest.drop count }

def skipBlanks (s : LexemeStream) : LexemeStream :=
  s.skip (s.rest.takeWhile isBlank).length

/-- A lexeme made of the next characters. -/
def emit (s : LexemeStream) (kind : Lexeme.Kind) (count : Nat) : Result :=
  (.ok (some ⟨kind, s.offset, byteSize (s.rest.take count)⟩), s.skip count)

def fail (s : LexemeStream) (length : Nat) (flaw : SelectorFlaw) : Result :=
  (.error (SelectorError.locate s.source s.offset length flaw), s)

/-- A text between two equal quotes. -/
def readQuoted (s : LexemeStream) (quote : Char) : Result :=
  let inner := (s.rest.drop 1).takeWhile (· != quote)
  if inner.length + 1 < s.rest.length then s.emit (.quoted (String.ofList inner)) (inner.length + 2)
  else ((s.fail (s.source.utf8ByteSize - s.offset) .unterminatedString).1, s.skip 1)

/-- A value without quotes, in which no quote may occur. -/
def readBare (s : LexemeStream) : Result :=
  let text := s.rest.takeWhile isBareChar
  match s.rest.drop text.length with
  | c :: _ =>
    if isQuoteMark c then (s.skip text.length).fail 1 .quoteInBareValue
    else s.emit (.bare (String.ofList text)) text.length
  | [] => s.emit (.bare (String.ofList text)) text.length

/-- The lexeme that begins with a character, where no value is due. -/
def readPlain (s : LexemeStream) (c : Char) : Result :=
  match fixedKind? c (s.rest.drop 1).head? with
  | some (.comparison op, count) => { s with wantsValue := true }.emit (.comparison op) count
  | some (kind, count) => s.emit kind count
  | none =>
    if isQuoteMark c then s.readQuoted c
    else
      let text := s.rest.takeWhile isWordChar
      if text.isEmpty then s.fail c.utf8Size (.unexpectedCharacter c)
      else s.emit (.word (String.ofList text)) text.length

def next (s : LexemeStream) : Result :=
  let s := s.skipBlanks
  match s.rest with
  | [] => (.ok none, s)
  | c :: _ =>
    if s.wantsValue then
      let s := { s with wantsValue := false }
      if isQuoteMark c then s.readQuoted c else s.readBare
    else s.readPlain c

section Progress

/-!
A lexeme takes a character, or it is the value that was due.
-/

def measure (s : LexemeStream) : Nat := 2 * s.rest.length + if s.wantsValue then 1 else 0

@[simp] theorem rest_skip (s : LexemeStream) (count : Nat) :
    (s.skip count).rest = s.rest.drop count := rfl
@[simp] theorem wantsValue_skip (s : LexemeStream) (count : Nat) :
    (s.skip count).wantsValue = s.wantsValue := rfl

theorem fixedKind_pos {c : Char} {after : Option Char} {kind : Lexeme.Kind} {count : Nat}
    (h : fixedKind? c after = some (kind, count)) : 0 < count := by
  unfold fixedKind? at h
  split at h <;> simp at h <;> omega

/-- A step that gave a lexeme of at least one character. -/
theorem length_emit_lt {s t : LexemeStream} {kind : Lexeme.Kind} {count : Nat} {lexeme : Lexeme}
    (hs : s.rest ≠ []) (hc : 0 < count) (h : s.emit kind count = (.ok (some lexeme), t)) :
    t.rest.length < s.rest.length := by
  have := List.length_pos_iff.2 hs
  simp only [emit, Prod.mk.injEq] at h
  rw [← h.2]
  simp
  omega

theorem length_readQuoted_lt {s t : LexemeStream} {quote : Char} {lexeme : Lexeme}
    (hs : s.rest ≠ []) (h : s.readQuoted quote = (.ok (some lexeme), t)) :
    t.rest.length < s.rest.length := by
  unfold readQuoted at h
  dsimp only at h
  split at h
  · exact length_emit_lt hs (by omega) h
  · simp [fail] at h

theorem measure_readBare_le {s t : LexemeStream} {lexeme : Lexeme}
    (h : s.readBare = (.ok (some lexeme), t)) : t.measure ≤ s.measure := by
  unfold readBare at h
  dsimp only at h
  split at h
  · split at h
    · simp [fail] at h
    · simp only [emit, Prod.mk.injEq] at h
      simp only [measure, rest_skip, wantsValue_skip, List.length_drop, ← h.2]
      omega
  · simp only [emit, Prod.mk.injEq] at h
    simp only [measure, rest_skip, wantsValue_skip, List.length_drop, ← h.2]
    omega

theorem length_readPlain_lt {s t : LexemeStream} {c : Char} {rest : List Char} {lexeme : Lexeme}
    (hs : s.rest = c :: rest) (h : s.readPlain c = (.ok (some lexeme), t)) :
    t.rest.length < s.rest.length := by
  have hne : s.rest ≠ [] := by simp [hs]
  unfold readPlain at h
  split at h
  · rename_i op count hk
    exact length_emit_lt (s := { s with wantsValue := true }) hne (fixedKind_pos hk) h
  · rename_i hk
    exact length_emit_lt hne (fixedKind_pos hk) h
  · split at h
    · exact length_readQuoted_lt hne h
    · dsimp only at h
      split at h
      · simp [fail] at h
      · rename_i htext
        refine length_emit_lt hne ?_ h
        simpa [List.length_pos_iff] using htext

theorem measure_next_lt {s t : LexemeStream} {lexeme : Lexeme}
    (h : s.next = (.ok (some lexeme), t)) : t.measure < s.measure := by
  have hle : s.skipBlanks.rest.length ≤ s.rest.length := by simp [skipBlanks]
  have hlt : ∀ {u : LexemeStream}, u.rest.length < s.rest.length → u.measure < s.measure := by
    intro u hu
    simp only [measure]
    split <;> omega
  unfold next at h
  dsimp only at h
  split at h
  · simp at h
  · rename_i c rest hrest
    have hne : s.skipBlanks.rest ≠ [] := by simp [hrest]
    split at h
    · rename_i hwants
      split at h
      · have := length_readQuoted_lt (s := { s.skipBlanks with wantsValue := false }) hne h
        exact hlt (by dsimp only at this; omega)
      · have := measure_readBare_le h
        have hw : s.wantsValue = true := by simpa [skipBlanks] using hwants
        simp [measure, hw] at this ⊢
        omega
    · have := length_readPlain_lt hrest h
      exact hlt (by omega)

end Progress

/-- All lexemes that are left. -/
def all (s : LexemeStream) : Except SelectorError (List Lexeme) :=
  match _h : s.next with
  | (.ok none, _) => .ok []
  | (.ok (some lexeme), t) => t.all.map (lexeme :: ·)
  | (.error e, _) => .error e
termination_by s.measure
decreasing_by exact measure_next_lt _h

end LexemeStream

/-- The lexemes of a selector. -/
def lexemes (source : String) : Except SelectorError (List Lexeme) :=
  (LexemeStream.ofSource source).all

end MarkupStream.Selector
