import MarkupStream.Selector.Compiled
import MarkupStream.Selector.Scanner

/-!
Compilation by indices. The parser knows all tokens, the index of the next one, and the index of the token where
it stops, which is the end of the source or a parenthesis. It never moves past that token but may look at it.
-/
namespace MarkupStream.Selector

structure Parser where
  source : String
  tokens : List Token
  index : Nat
  stop : Nat
  deriving DecidableEq, Repr

namespace Parser

def ofSource (source : String) : Outcome Parser := do
  let tokens ← (Scanner.ofSource source).tokens
  return ⟨source, tokens, 0, ← minus tokens.length 1⟩

/-- The token that comes after `ahead` others, or the one where the parser stops if that comes first. -/
def peek (s : Parser) (ahead : Nat) : Outcome Token := entryAt s.tokens (min (s.index + ahead) s.stop)

def current (s : Parser) : Outcome Token := s.peek 0

def atEnd (s : Parser) : Bool := s.stop ≤ s.index

def advance (s : Parser) : Parser := if s.index < s.stop then { s with index := s.index + 1 } else s

/-- An error at the next token. At the end it shows the token before. -/
def errorHere {α : Type} (s : Parser) (flaw : SelectorFlaw) : Outcome α := do
  if s.atEnd then
    if s.index = 0 then refuse s.source s.source.utf8ByteSize 0 (.cutShort flaw)
    else
      let last ← entryAt s.tokens (← minus s.index 1)
      refuse s.source last.offset last.length (.cutShort flaw)
  else
    let token ← s.current
    refuse s.source token.offset token.length flaw

/-- Whether a token of the given kind is next. -/
def isAt (s : Parser) (accepts : Lexeme.Kind → Bool) : Outcome Bool := do
  return !s.atEnd && (← s.current).kind.any accepts

def expect (s : Parser) (kind : Lexeme.Kind) (what : Expectation) : Outcome Parser := do
  if ← s.isAt (· == kind) then return s.advance else s.errorHere (.expected what)

def expectWord (s : Parser) (what : Expectation) : Outcome (String × Parser) := do
  match (← s.current).kind with
  | some (.word text) => if s.atEnd then s.errorHere (.expected what) else return (text, s.advance)
  | _ => s.errorHere (.expected what)

/-- The index of the parenthesis that brings a depth back to zero, in tokens that begin at an index. -/
def closingIndex? (depth index : Nat) : List Token → Outcome (Option Nat)
  | [] => return none
  | token :: rest =>
    match token.kind with
    | some .leftParen => closingIndex? (depth + 1) (index + 1) rest
    | some .rightParen => do
      let depth ← minus depth 1
      if depth = 0 then return some index else closingIndex? depth (index + 1) rest
    | _ => closingIndex? depth (index + 1) rest

/-- Drops a pair of parentheses that encloses everything. -/
def stripPair (s : Parser) : Outcome (Round Parser) := do
  if (← entryAt s.tokens s.index).kind == some .leftParen then
    match ← closingIndex? 0 s.index (← entriesBetween s.tokens s.index s.stop) with
    | some close =>
      if close + 1 = s.stop then return .again { s with index := s.index + 1, stop := close }
      else return .last s
    | none => return .last s
  else return .last s

def stripParens : Parser → Outcome Parser := rounds stripPair

section Predicates

/-- A name of an attribute, with or without its sign. -/
def readAttributeName (s : Parser) : Outcome (String × Parser) := do
  if ← s.isAt (· == .atSign) then s.advance.expectWord .attributeName else s.expectWord .attributeName

def readValue (s : Parser) : Outcome (String × Parser) := do
  match (← s.current).kind.bind valueOf? with
  | some value => if s.atEnd then s.errorHere (.expected .value) else return (value, s.advance)
  | none => s.errorHere (.expected .value)

/-- A comparison of an attribute, or the mere name of one. -/
def readTest (s : Parser) : Outcome (Predicate × Parser) := do
  let (name, s) ← s.readAttributeName
  if s.atEnd then return (.has name, s)
  match (← s.current).kind.bind comparisonOf? with
  | some op =>
    let (value, s) ← s.advance.readValue
    return (.compare name op value, s)
  | none => return (.has name, s)

section Operands

variable (keyword : String) (join : Predicate → Predicate → Predicate)
  (operand : Parser → Outcome (Predicate × Parser))

def addOperand (p : Predicate) (s : Parser) : Outcome (Round (Predicate × Parser)) := do
  if ← s.isAt (·.isKeyword keyword) then
    let (q, s) ← operand s.advance
    return .again (join p q, s)
  else return .last (p, s)

/-- Adds whatever follows after the keyword. -/
def addOperands (p : Predicate) (s : Parser) : Outcome (Predicate × Parser) :=
  rounds (fun (p, s) => addOperand keyword join operand p s) (p, s)

def readOperands (s : Parser) : Outcome (Predicate × Parser) := do
  let (p, s) ← operand s
  addOperands keyword join operand p s

end Operands

def readConjunction : (Parser → Outcome (Predicate × Parser)) → Parser → Outcome (Predicate × Parser) :=
  readOperands "and" .and

def readDisjunction (unary : Parser → Outcome (Predicate × Parser)) : Parser → Outcome (Predicate × Parser) :=
  readOperands "or" .or (readConjunction unary)

/-- A predicate without operators, in which no more parentheses are nested than the depth allows. -/
def readUnary : Nat → Parser → Outcome (Predicate × Parser)
  | 0, _ => throw .deep
  | depth + 1, s => do
    if s.atEnd then s.errorHere (.expected .predicate)
    else if ← s.isAt (· == .bang) then
      let s := s.advance
      if ← s.isAt (· == .leftParen) then
        let (p, s) ← readDisjunction (readUnary depth) s.advance
        let s ← s.expect .rightParen .closeParen
        return (.not p, s)
      else
        let (name, s) ← s.readAttributeName
        return (.lacks name, s)
    else if ← s.isAt (· == .leftParen) then
      let (p, s) ← readDisjunction (readUnary depth) s.advance
      let s ← s.expect .rightParen .closeParen
      return (p, s)
    else s.readTest

/-- A predicate, in which no more parentheses can be nested than there are tokens. -/
def readPredicate (s : Parser) : Outcome (Predicate × Parser) := readDisjunction (readUnary s.tokens.length) s

end Predicates

section Steps

/-- Whether empty parentheses follow the next token. -/
def isCall (s : Parser) : Outcome Bool := do
  if (← s.peek 1).kind == some .leftParen then return (← s.peek 2).kind == some .rightParen else return false

/-- A position filter, if the inside of a bracket begins like one, with the number of its tokens. -/
def readPosition? (s : Parser) : Outcome (Option (PositionFilter × Nat)) := do
  let token ← s.current
  match token.kind with
  | some (.word text) =>
    if text.toList.all Char.isDigit then
      match positionOf? text with
      | some filter => return some (filter, 1)
      | none => refuse s.source token.offset text.utf8ByteSize .badPosition
    else if text = "even" ∨ text = "odd" then
      if ← s.isCall then return some (if text = "even" then .even else .odd, 3) else return none
    else return none
  | _ => return none

/-- Moves over some tokens. -/
def skip (s : Parser) : Nat → Parser
  | 0 => s
  | count + 1 => s.advance.skip count

/-- What the bracket that begins at an offset adds to the conditions, and the position filter after it. -/
def readBracket (filter : Option PositionFilter) (offset : Nat) (s : Parser) :
    Outcome (List Condition × Option PositionFilter × Parser) := do
  match ← s.readPosition? with
  | some (position, count) =>
    if filter.isSome then refuse s.source offset 1 .repeatedPosition
    else return ([], some position, s.skip count)
  | none =>
    let (p, s) ← s.readPredicate
    return ([.predicate p], filter, s)

/-- The condition that an attribute has a word for its value. -/
def readCompared (name : String) (what : Expectation) (s : Parser) : Outcome (Condition × Parser) := do
  let (value, s) ← s.expectWord what
  return (.predicate (.compare name .equal value), s)

/-- Adds what is next to the conditions of a step, or its position filter, with the filter met so far. -/
def addCondition (found : List Condition) (filter : Option PositionFilter) (s : Parser) :
    Outcome (Round (List Condition × Option PositionFilter × Parser)) := do
  if s.atEnd then return .last (found, filter, s)
  else
    let token ← s.current
    match token.kind with
    | some .dot =>
      let (condition, s) ← s.advance.readCompared "class" .className
      return .again (found ++ [condition], filter, s)
    | some .hash =>
      let (condition, s) ← s.advance.readCompared "id" .identifier
      return .again (found ++ [condition], filter, s)
    | some .percent =>
      let (name, s) ← s.advance.expectWord .reference
      return .again (found ++ [.reference name token.offset], filter, s)
    | some .leftBracket =>
      let (own, filter, s) ← s.advance.readBracket filter token.offset
      let s ← s.expect .rightBracket .closeBracket
      return .again (found ++ own, filter, s)
    | _ => return .last (found, filter, s)

/-- Adds the conditions and the position filter of a step, in any order. -/
def addConditions (found : List Condition) (filter : Option PositionFilter) (s : Parser) :
    Outcome (List Condition × Option PositionFilter × Parser) :=
  rounds (fun (found, filter, s) => addCondition found filter s) (found, filter, s)

/-- The node of a step; conditions may stand without one. -/
def readNode (s : Parser) : Outcome (NodeTest × Parser) := do
  let token ← s.current
  if s.atEnd then s.errorHere (.expected .node)
  else
    match token.kind with
    | some .star => return (.any, s.advance)
    | some (.word name) =>
      if (← s.peek 1).kind == some .leftParen then
        match PseudoNode.ofName? name with
        | none => refuse s.source token.offset name.utf8ByteSize (.unknownPseudo name)
        | some p =>
          let s ← s.advance.advance.expect .rightParen .pseudoClose
          return (.pseudo p, s)
      else return (.named name, s.advance)
    | some .dot | some .hash | some .percent | some .leftBracket => return (.any, s)
    | _ => s.errorHere (.expected .node)

/-- The axis of a step. Only the first one may have none, and then it searches the whole document. -/
def readAxis (first : Bool) (s : Parser) : Outcome (Axis × Parser) := do
  if ← s.isAt (· == .slash) then return (.child, s.advance)
  else if ← s.isAt (· == .doubleSlash) then return (.descendant, s.advance)
  else if first then return (.descendant, s)
  else s.errorHere (.other "expected '/' or '//'")

/-- A step behind its axis. -/
def readBehindAxis (axis : Axis) (offset : Nat) (s : Parser) : Outcome (StepExpr × Parser) := do
  let start := (← s.current).offset
  let (node, s) ← s.readNode
  let (conditions, filter, s) ← s.addConditions [] none
  if node.isPseudo && !conditions.isEmpty then
    refuse s.source start ((← s.current).offset - start) .predicateOnPseudo
  else return (⟨axis, node, conditions, filter, offset⟩, s)

def readStep (first : Bool) (s : Parser) : Outcome (StepExpr × Parser) := do
  let offset := (← s.current).offset
  let (axis, s) ← s.readAxis first
  s.readBehindAxis axis offset

def addStep (found : List StepExpr) (s : Parser) : Outcome (Round (List StepExpr × Parser)) := do
  if ← s.isAt fun kind => kind == .slash || kind == .doubleSlash then
    let (step, s) ← s.readStep false
    return .again (found ++ [step], s)
  else return .last (found, s)

/-- Adds the steps that follow. -/
def addSteps (found : List StepExpr) (s : Parser) : Outcome (List StepExpr × Parser) :=
  rounds (fun (found, s) => addStep found s) (found, s)

/-- A path, in which a pseudo-node can only be the last step. -/
def readPath (s : Parser) : Outcome (PathExpr × Parser) := do
  let (first, s) ← s.readStep true
  let (steps, s) ← s.addSteps [first]
  let early ← entriesBetween steps 0 (← minus steps.length 1)
  match early.find? (·.node.isPseudo) with
  | some step => refuse s.source step.offset 1 .pseudoNotLast
  | none => return (steps, s)

def addPath (found : List PathExpr) (s : Parser) : Outcome (Round (List PathExpr × Parser)) := do
  let (path, s) ← s.readPath
  if (← s.current).kind == some .doublePipe then return .again (found ++ [path], s.advance)
  else return .last (found ++ [path], s)

/-- Adds a path and all those that follow after bars. -/
def addPaths (found : List PathExpr) (s : Parser) : Outcome (List PathExpr × Parser) :=
  rounds (fun (found, s) => addPath found s) (found, s)

end Steps

/-- What was read, if it is all. -/
def finish {α : Type} (result : α) (flaw : SelectorFlaw) (s : Parser) : Outcome α := do
  if s.index ≠ s.stop then s.errorHere flaw else return result

def paths (source : String) : Outcome (List PathExpr) := do
  let s ← ofSource source
  let s ← s.stripParens
  let (paths, s) ← s.addPaths []
  s.finish paths .unexpectedToken

def predicate (source : String) : Outcome Predicate := do
  let s ← ofSource source
  let (p, s) ← s.readPredicate
  s.finish p .unexpectedTokenInPredicate

section Compilation

variable (source : String) (resolver : Option Resolver)

/-- The predicate that a reference stands for; an error is shown at the reference, not in its text. -/
def reference (resolve : Resolver) (name : String) (offset length : Nat) : Outcome Predicate :=
  tryCatch (predicate (resolve name)) fun
    | .refused e => refuse source offset length (.unresolvable name (resolve name) e.flaw)
    | halt => throw halt

def condition : Condition → Outcome Predicate
  | .predicate p => return p
  | .reference name offset =>
    match resolver with
    | some resolve => reference source resolve name offset (name.utf8ByteSize + 1)
    | none => return FragmentAttribute.standard.isDeclared

/-- All conditions of a step in one predicate, none if there are none. -/
def conditions (found : Option Predicate) : List Condition → Outcome (Option Predicate)
  | [] => return found
  | first :: rest => do
    let p ← condition source resolver first
    conditions (some (conjoin found p)) rest

/-- The branches of a step. `expands` says whether its path takes fragments for names. -/
def branches (expands : Bool) (step : StepExpr) (predicate : Option Predicate) : Outcome (List Branch) := do
  match step.node, resolver with
  | .named name, some resolve =>
    if expands && !step.conditions.any Condition.isReference then
      let fragment ← reference source resolve name step.offset 1
      return [⟨.named name, predicate⟩, ⟨.any, some (conjoin predicate fragment)⟩]
    else return [⟨.named name, predicate⟩]
  | node, _ => return [⟨node, predicate⟩]

def step (expands : Bool) (expr : StepExpr) : Outcome Step := do
  let predicate ← conditions source resolver none expr.conditions
  let branches ← branches source resolver expands expr predicate
  return ⟨expr.axis, branches, expr.filter⟩

def path (expr : PathExpr) : Outcome Path :=
  let expands := expr.getLast?.map (·.node) != some (.pseudo .content)
  expr.mapM (step source resolver expands)

/-- Compiles the source of a selector for a dialect. -/
def selector (dialect : Dialect) : Outcome Selector := do
  let exprs ← paths source
  let compiled ← exprs.mapM (path source resolver)
  return ⟨source, dialect, compiled⟩

end Compilation

end Parser

end MarkupStream.Selector
