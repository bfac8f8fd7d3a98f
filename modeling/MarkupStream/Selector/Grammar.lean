import MarkupStream.Selector.Path

/-!
The grammar of selectors.

    selector  := path ('||' path)*
    path      := step+
    step      := ('/' | '//')? node? shorthand* bracket*
    node      := name | '*' | pseudo '(' ')'
    shorthand := '.' name | '#' name | '%' name
    bracket   := '[' (position | predicate) ']'
    position  := digits | 'even' '(' ')' | 'odd' '(' ')'
    predicate := conjunction ('or' conjunction)*
    conjunction := unary ('and' unary)*
    unary     := '!' '(' predicate ')' | '!' '@'? name | '(' predicate ')' | test
    test      := '@'? name (comparison value)?

Parentheses around a whole selector are dropped first. Every reader gives back what it leaves, with
the fact that it is shorter, and so the recursion ends.
-/
namespace MarkupStream.Selector

/-- The lexemes that are left, the one before them, and the offset where they stop. -/
structure Input where
  source : String
  previous : Option Lexeme
  rest : List Lexeme
  stop : Nat
  deriving DecidableEq, Repr

/-- What may be left of an input after something was read from it. -/
abbrev Input.After (s : Input) := { t : Input // t.rest.length < s.rest.length }

/-- What may be left of an input after something or nothing was read from it. -/
abbrev Input.Within (s : Input) := { t : Input // t.rest.length ≤ s.rest.length }

namespace Input

/-- What is left when nothing was read. -/
def unread (s : Input) : s.Within := ⟨s, Nat.le_refl _⟩

def After.toWithin {s : Input} (t : s.After) : s.Within := ⟨t.1, Nat.le_of_lt t.2⟩

/-- What is left when something more was read. -/
def After.after {s : Input} (t : s.After) (u : t.1.After) : s.After := ⟨u.1, Nat.lt_trans u.2 t.2⟩

/-- What is left when more may have been read. -/
def After.within {s : Input} (t : s.After) (u : t.1.Within) : s.After := ⟨u.1, Nat.lt_of_le_of_lt u.2 t.2⟩

/-- Where the next lexeme begins. -/
def offset (s : Input) : Nat :=
  match s.rest with
  | lexeme :: _ => lexeme.offset
  | [] => s.stop

/-- An error at the next lexeme. At the end it shows the lexeme before. -/
def errorHere (s : Input) (flaw : SelectorFlaw) : SelectorError :=
  match s.rest, s.previous with
  | lexeme :: _, _ => SelectorError.locate s.source lexeme.offset lexeme.length flaw
  | [], some lexeme => SelectorError.locate s.source lexeme.offset lexeme.length (.cutShort flaw)
  | [], none => SelectorError.locate s.source s.source.utf8ByteSize 0 (.cutShort flaw)

/-- Moves over the next lexeme if it is of the right kind. -/
def advanceIf (s : Input) (accepts : Lexeme.Kind → Bool) : Option s.After :=
  match h : s.rest with
  | lexeme :: rest =>
    if accepts lexeme.kind then some ⟨{ s with previous := some lexeme, rest }, by simp [h]⟩ else none
  | [] => none

def expect (s : Input) (kind : Lexeme.Kind) (what : Expectation) : Except SelectorError s.After :=
  match s.advanceIf (· == kind) with
  | some t => .ok t
  | none => .error (s.errorHere (.expected what))

def expectWord (s : Input) (what : Expectation) : Except SelectorError (String × s.After) :=
  match h : s.rest with
  | ⟨.word text, offset, length⟩ :: rest =>
    .ok (text, ⟨{ s with previous := some ⟨.word text, offset, length⟩, rest }, by simp [h]⟩)
  | _ => .error (s.errorHere (.expected what))

/-- The place of the parenthesis that brings a depth back to zero. -/
def closingIndex? (depth : Nat) : List Lexeme → Option Nat
  | [] => none
  | lexeme :: rest =>
    match lexeme.kind with
    | .leftParen => (closingIndex? (depth + 1) rest).map (· + 1)
    | .rightParen =>
      if depth ≤ 1 then some 0 else (closingIndex? (depth - 1) rest).map (· + 1)
    | _ => (closingIndex? depth rest).map (· + 1)

/-- Drops the pairs of parentheses that enclose everything. -/
def stripParens (s : Input) : Input :=
  match _h : s.rest with
  | [] => s
  | lexeme :: rest =>
    if lexeme.kind == .leftParen && closingIndex? 1 rest == some (rest.length - 1) then
      match rest.getLast? with
      | some last =>
        stripParens { s with previous := some lexeme, rest := rest.dropLast, stop := last.offset }
      | none => s
    else s
termination_by s.rest.length
decreasing_by simp only [_h, List.length_dropLast, List.length_cons]; omega

end Input

open Input

/-- A name of an attribute, with or without its sign. -/
def readAttributeName (s : Input) : Except SelectorError (String × s.After) :=
  match s.advanceIf (· == .atSign) with
  | some ⟨t, ht⟩ => do
    let (name, ⟨u, hu⟩) ← t.expectWord .attributeName
    return (name, ⟨u, by omega⟩)
  | none => s.expectWord .attributeName

def comparisonOf? : Lexeme.Kind → Option Comparison
  | .comparison op => some op
  | _ => none

/-- The value that a lexeme gives; a bare one must not be empty. -/
def valueOf? : Lexeme.Kind → Option String
  | .quoted text => some text
  | .bare text => if text.isEmpty then none else some text
  | _ => none

/-- The value after a comparison. -/
def readValue (s : Input) : Except SelectorError (String × s.After) :=
  match h : s.rest with
  | lexeme :: rest =>
    match valueOf? lexeme.kind with
    | some value => .ok (value, ⟨{ s with previous := some lexeme, rest }, by simp [h]⟩)
    | none => .error (s.errorHere (.expected .value))
  | [] => .error (s.errorHere (.expected .value))

/-- A comparison of an attribute, or the mere name of one. -/
def readTest (s : Input) : Except SelectorError (Predicate × s.After) := do
  let (name, ⟨t, ht⟩) ← readAttributeName s
  match h : t.rest with
  | lexeme :: rest =>
    match comparisonOf? lexeme.kind with
    | some op =>
      let (value, ⟨u, hu⟩) ← readValue { t with previous := some lexeme, rest }
      return (.compare name op value, ⟨u, by simp [h] at *; omega⟩)
    | none => return (.has name, ⟨t, ht⟩)
  | [] => return (.has name, ⟨t, ht⟩)

mutual

def readDisjunction (s : Input) : Except SelectorError (Predicate × s.After) := do
  let (p, ⟨t, ht⟩) ← readConjunction s
  let (q, ⟨u, hu⟩) ← readAlternatives p t
  return (q, ⟨u, by omega⟩)
termination_by 3 * s.rest.length + 2

/-- Adds whatever follows after `or`. -/
def readAlternatives (p : Predicate) (s : Input) : Except SelectorError (Predicate × s.Within) := do
  match s.advanceIf (·.isKeyword "or") with
  | none => return (p, ⟨s, Nat.le_refl _⟩)
  | some ⟨t, ht⟩ =>
    let (q, ⟨u, hu⟩) ← readConjunction t
    let (r, ⟨v, hv⟩) ← readAlternatives (.or p q) u
    return (r, ⟨v, by omega⟩)
termination_by 3 * s.rest.length

def readConjunction (s : Input) : Except SelectorError (Predicate × s.After) := do
  let (p, ⟨t, ht⟩) ← readUnary s
  let (q, ⟨u, hu⟩) ← readFurther p t
  return (q, ⟨u, by omega⟩)
termination_by 3 * s.rest.length + 1

/-- Adds whatever follows after `and`. -/
def readFurther (p : Predicate) (s : Input) : Except SelectorError (Predicate × s.Within) := do
  match s.advanceIf (·.isKeyword "and") with
  | none => return (p, ⟨s, Nat.le_refl _⟩)
  | some ⟨t, ht⟩ =>
    let (q, ⟨u, hu⟩) ← readUnary t
    let (r, ⟨v, hv⟩) ← readFurther (.and p q) u
    return (r, ⟨v, by omega⟩)
termination_by 3 * s.rest.length

def readUnary (s : Input) : Except SelectorError (Predicate × s.After) := do
  if s.rest.isEmpty then throw (s.errorHere (.expected .predicate))
  match s.advanceIf (· == .bang) with
  | some ⟨t, ht⟩ =>
    match t.advanceIf (· == .leftParen) with
    | some ⟨u, hu⟩ =>
      let (p, ⟨v, hv⟩) ← readDisjunction u
      let ⟨w, hw⟩ ← v.expect .rightParen .closeParen
      return (.not p, ⟨w, by omega⟩)
    | none =>
      let (name, ⟨u, hu⟩) ← readAttributeName t
      return (.lacks name, ⟨u, by omega⟩)
  | none =>
    match s.advanceIf (· == .leftParen) with
    | some ⟨t, ht⟩ =>
      let (p, ⟨u, hu⟩) ← readDisjunction t
      let ⟨v, hv⟩ ← u.expect .rightParen .closeParen
      return (p, ⟨v, by omega⟩)
    | none => readTest s
termination_by 3 * s.rest.length

end

/-- The position that a word gives: digits that make a number from one on. -/
def positionOf? (word : String) : Option PositionFilter :=
  match word.toNat? with
  | some n => if 1 ≤ n ∧ n ≤ PositionFilter.greatest then some (.nth n) else none
  | none => none

/-- A position filter, if the inside of a bracket begins like one. -/
def readPosition? (s : Input) : Except SelectorError (Option (PositionFilter × s.After)) :=
  match h : s.rest with
  | ⟨.word text, offset, length⟩ :: rest =>
    if text.toList.all Char.isDigit then
      match positionOf? text with
      | some filter =>
        .ok (some (filter, ⟨{ s with previous := some ⟨.word text, offset, length⟩, rest },
          by simp [h]⟩))
      | none => .error (SelectorError.locate s.source offset text.utf8ByteSize .badPosition)
    else
      match rest with
      | ⟨.leftParen, _, _⟩ :: ⟨.rightParen, o, l⟩ :: tail =>
        let after : s.After :=
          ⟨{ s with previous := some ⟨.rightParen, o, l⟩, rest := tail }, by simp [h]; omega⟩
        if text = "even" then .ok (some (.even, after))
        else if text = "odd" then .ok (some (.odd, after))
        else .ok none
      | _ => .ok none
  | _ => .ok none

/-- The conditions and the position filter of a step, in any order, with the filter met so far. -/
def readConditions (filter : Option PositionFilter) (s : Input) :
    Except SelectorError (List Condition × Option PositionFilter × s.Within) := do
  let compared (name : String) (t : Input) (what : Expectation) :
      Except SelectorError (Condition × t.After) := do
    let (value, u) ← t.expectWord what
    return (.predicate (.compare name .equal value), u)
  match h : s.rest with
  | [] => return ([], filter, ⟨s, Nat.le_refl _⟩)
  | lexeme :: rest =>
    let t : Input := { s with previous := some lexeme, rest }
    match lexeme.kind with
    | .dot =>
      let (condition, ⟨u, hu⟩) ← compared "class" t .className
      let (conditions, last, ⟨v, hv⟩) ← readConditions filter u
      return (condition :: conditions, last, ⟨v, by simp [t, h] at *; omega⟩)
    | .hash =>
      let (condition, ⟨u, hu⟩) ← compared "id" t .identifier
      let (conditions, last, ⟨v, hv⟩) ← readConditions filter u
      return (condition :: conditions, last, ⟨v, by simp [t, h] at *; omega⟩)
    | .percent =>
      let (name, ⟨u, hu⟩) ← t.expectWord .reference
      let (conditions, last, ⟨v, hv⟩) ← readConditions filter u
      return (.reference name lexeme.offset :: conditions, last, ⟨v, by simp [t, h] at *; omega⟩)
    | .leftBracket =>
      match ← readPosition? t with
      | some (position, ⟨u, hu⟩) =>
        if filter.isSome then throw (SelectorError.locate s.source lexeme.offset 1 .repeatedPosition)
        let ⟨v, hv⟩ ← u.expect .rightBracket .closeBracket
        let (conditions, last, ⟨w, hw⟩) ← readConditions (some position) v
        return (conditions, last, ⟨w, by simp [t, h] at *; omega⟩)
      | none =>
        let (p, ⟨u, hu⟩) ← readDisjunction t
        let ⟨v, hv⟩ ← u.expect .rightBracket .closeBracket
        let (conditions, last, ⟨w, hw⟩) ← readConditions filter v
        return (.predicate p :: conditions, last, ⟨w, by simp [t, h] at *; omega⟩)
    | _ => return ([], filter, ⟨s, Nat.le_refl _⟩)
termination_by s.rest.length
decreasing_by all_goals (simp [t, h] at *; omega)

/-- The node of a step; conditions may stand without one. -/
def readNode (s : Input) : Except SelectorError (NodeTest × s.Within) := do
  match h : s.rest with
  | [] => throw (s.errorHere (.expected .node))
  | lexeme :: rest =>
    let t : Input := { s with previous := some lexeme, rest }
    match lexeme.kind with
    | .star => return (.any, ⟨t, by simp [t, h]⟩)
    | .word name =>
      match t.advanceIf (· == .leftParen) with
      | some ⟨u, hu⟩ =>
        match PseudoNode.ofName? name with
        | none =>
          throw (SelectorError.locate s.source lexeme.offset name.utf8ByteSize (.unknownPseudo name))
        | some p =>
          let ⟨v, hv⟩ ← u.expect .rightParen .pseudoClose
          return (.pseudo p, ⟨v, by simp [t, h] at *; omega⟩)
      | none => return (.named name, ⟨t, by simp [t, h]⟩)
    | .dot | .hash | .percent | .leftBracket => return (.any, ⟨s, Nat.le_refl _⟩)
    | _ => throw (s.errorHere (.expected .node))

/-- A step behind its axis. -/
def readStep (axis : Axis) (offset : Nat) (s : Input) :
    Except SelectorError (StepExpr × s.Within) := do
  let (node, ⟨t, ht⟩) ← readNode s
  let (conditions, filter, ⟨u, hu⟩) ← readConditions none t
  if node.isPseudo && !conditions.isEmpty then
    throw (SelectorError.locate s.source s.offset (u.offset - s.offset) .predicateOnPseudo)
  return (⟨axis, node, conditions, filter, offset⟩, ⟨u, by omega⟩)

def readAxis? (s : Input) : Option (Axis × s.After) :=
  match s.advanceIf (· == .slash) with
  | some t => some (.child, t)
  | none => (s.advanceIf (· == .doubleSlash)).map (.descendant, ·)

/-- The steps that follow the first one. -/
def readFurtherSteps (s : Input) : Except SelectorError (List StepExpr × s.Within) := do
  match readAxis? s with
  | none => return ([], ⟨s, Nat.le_refl _⟩)
  | some (axis, ⟨t, ht⟩) =>
    let (step, ⟨u, hu⟩) ← readStep axis s.offset t
    let (steps, ⟨v, hv⟩) ← readFurtherSteps u
    return (step :: steps, ⟨v, by omega⟩)
termination_by s.rest.length

/-- The first step; without an axis it searches the whole document. -/
def readFirstStep (s : Input) : Except SelectorError (StepExpr × s.Within) := do
  match readAxis? s with
  | some (axis, ⟨t, ht⟩) =>
    let (step, ⟨u, hu⟩) ← readStep axis s.offset t
    return (step, ⟨u, by omega⟩)
  | none => readStep .descendant s.offset s

/-- A path, in which a pseudo-node can only be the last step. -/
def readPath (s : Input) : Except SelectorError (PathExpr × s.Within) := do
  let (step, ⟨t, ht⟩) ← readFirstStep s
  let (steps, ⟨u, hu⟩) ← readFurtherSteps t
  match (step :: steps).dropLast.find? (·.node.isPseudo) with
  | some early => throw (SelectorError.locate s.source early.offset 1 .pseudoNotLast)
  | none => return (step :: steps, ⟨u, by omega⟩)

def readPaths (s : Input) : Except SelectorError (List PathExpr × s.Within) := do
  let (path, ⟨t, ht⟩) ← readPath s
  match t.advanceIf (· == .doublePipe) with
  | none => return ([path], ⟨t, ht⟩)
  | some ⟨u, hu⟩ =>
    let (paths, ⟨v, hv⟩) ← readPaths u
    return (path :: paths, ⟨v, by omega⟩)
termination_by s.rest.length

def Input.ofSource (source : String) : Except SelectorError Input :=
  (lexemes source).map fun rest => ⟨source, none, rest, source.utf8ByteSize⟩

/-- The paths of a selector. -/
def parsePaths (source : String) : Except SelectorError (List PathExpr) := do
  let s ← Input.ofSource source
  let (paths, ⟨t, _⟩) ← readPaths s.stripParens
  if t.rest.isEmpty then return paths else throw (t.errorHere .unexpectedToken)

/-- A predicate on its own, as between brackets. -/
def parsePredicate (source : String) : Except SelectorError Predicate := do
  let s ← Input.ofSource source
  let (p, ⟨t, _⟩) ← readDisjunction s
  if t.rest.isEmpty then return p else throw (t.errorHere .unexpectedTokenInPredicate)

end MarkupStream.Selector
