/-!
What can be wrong with the source of a selector. An error shows the piece of the source that it is
about; offsets and lengths count bytes of UTF-8.
-/
namespace MarkupStream

/-- What the grammar wants next. -/
inductive Expectation where
  | node | pseudoClose | className | identifier | reference | closeBracket | closeParen
  | predicate | value | attributeName
  deriving DecidableEq, Repr

def Expectation.text : Expectation → String
  | node => "expected element name, '*' or pseudo-node"
  | pseudoClose => "expected ')' after pseudo-node"
  | className => "expected class name after '.'"
  | identifier => "expected id after '#'"
  | reference => "expected fragment reference after '%'"
  | closeBracket => "expected ']'"
  | closeParen => "expected ')'"
  | predicate => "expected predicate"
  | value => "expected value after operator"
  | attributeName => "expected attribute name"

inductive SelectorFlaw where
  | unexpectedCharacter (c : Char)
  | unterminatedString
  | quoteInBareValue
  | unexpectedToken
  | unexpectedTokenInPredicate
  | pseudoNotLast
  | unknownPseudo (name : String)
  | predicateOnPseudo
  | badPosition
  | repeatedPosition
  | expected (what : Expectation)
  /-- The source ended where something else was wanted. -/
  | cutShort (flaw : SelectorFlaw)
  /-- What a fragment reference resolves to is no predicate. -/
  | unresolvable (reference resolved : String) (flaw : SelectorFlaw)
  | other (reason : String)
  deriving DecidableEq, Repr

def SelectorFlaw.text : SelectorFlaw → String
  | unexpectedCharacter c => "unexpected character '" ++ c.toString ++ "'"
  | unterminatedString => "unterminated string literal"
  | quoteInBareValue => "quote character in unquoted value"
  | unexpectedToken => "unexpected token"
  | unexpectedTokenInPredicate => "unexpected token in predicate"
  | pseudoNotLast => "pseudo-node must be the last step"
  | unknownPseudo name => "unknown pseudo-node '" ++ name ++ "()'"
  | predicateOnPseudo => "attribute predicates are not allowed on pseudo-nodes"
  | badPosition => "position must be a number starting at 1"
  | repeatedPosition => "only one position filter allowed per step"
  | expected what => what.text
  | cutShort flaw => flaw.text ++ ": unexpected end of selector"
  | unresolvable reference resolved flaw =>
    "fragment reference '" ++ reference ++ "' resolved to invalid predicate '" ++ resolved ++ "': " ++
      flaw.text
  | other reason => reason

structure SelectorError where
  flaw : SelectorFlaw
  fragment : String
  offset : Nat
  deriving DecidableEq, Repr

namespace SelectorError

def message (e : SelectorError) : String :=
  "invalid selector: " ++ e.flaw.text ++ " at offset " ++ toString e.offset ++ " ('" ++ e.fragment ++
    "')"

/-- The characters that begin from one offset up to another, where the first character of the list
begins at the offset `here`. -/
def charsBetween (start stop here : Nat) : List Char → List Char
  | [] => []
  | c :: rest =>
    let tail := charsBetween start stop (here + c.utf8Size) rest
    if start ≤ here ∧ here < stop then c :: tail else tail

/-- An error about a piece of the source, at least one byte long and cut off at the end. A character
that begins in the piece is shown whole. -/
def locate (source : String) (offset length : Nat) (flaw : SelectorFlaw) : SelectorError :=
  let start := min offset source.utf8ByteSize
  let stop := min (start + max length 1) source.utf8ByteSize
  ⟨flaw, String.ofList (charsBetween start stop 0 source.toList), start⟩

end SelectorError

end MarkupStream
