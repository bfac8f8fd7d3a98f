import MarkupStream.Options
import MarkupStream.Selector.Reference

/-!
Compiled selectors. Each step has all its conditions in one predicate. With a resolver, a step that
names an element has a second branch, for any element that declares a fragment of that name; a path
to all content is left alone, and so is a step with a reference of its own.
-/
namespace MarkupStream

namespace Selector

/-- A test on a node together with the predicate on its attributes. -/
structure Branch where
  node : NodeTest
  predicate : Option Predicate
  deriving DecidableEq, Repr

/-- A node satisfies a step by any of its branches. -/
structure Step where
  axis : Axis
  branches : List Branch
  filter : Option PositionFilter
  deriving DecidableEq, Repr

abbrev Path := List Step

end Selector

structure Selector where
  source : String
  dialect : Dialect
  paths : List Selector.Path
  deriving DecidableEq, Repr

namespace Selector

/-- The pseudo-node that a step selects, if it selects no elements. -/
def Step.pseudo? (step : Step) : Option PseudoNode :=
  match step.branches with
  | ⟨.pseudo p, _⟩ :: _ => some p
  | _ => none

/-- Both predicates, where the first may be missing. -/
def conjoin (p : Option Predicate) (q : Predicate) : Predicate :=
  match p with
  | some p => .and p q
  | none => q

/-- The predicate of one condition. -/
def compileCondition (source : String) (resolver : Option Resolver) :
    Condition → Except SelectorError Predicate
  | .predicate p => .ok p
  | .reference name offset =>
    match resolver with
    | some resolver => resolveReference source resolver name offset (name.utf8ByteSize + 1)
    | none => .ok FragmentAttribute.standard.isDeclared

/-- All conditions of a step in one predicate, none if there are none. -/
def compileConditions (source : String) (resolver : Option Resolver) (found : Option Predicate) :
    List Condition → Except SelectorError (Option Predicate)
  | [] => .ok found
  | condition :: rest =>
    match compileCondition source resolver condition with
    | .ok p => compileConditions source resolver (some (conjoin found p)) rest
    | .error e => .error e

def Condition.isReference : Condition → Bool
  | .reference _ _ => true
  | .predicate _ => false

/-- The branches of a step. `expands` says whether its path takes fragments for names. -/
def compileBranches (source : String) (resolver : Option Resolver) (expands : Bool)
    (step : StepExpr) (predicate : Option Predicate) : Except SelectorError (List Branch) :=
  match step.node, resolver with
  | .named name, some resolver =>
    if expands && !step.conditions.any Condition.isReference then
      match resolveReference source resolver name step.offset 1 with
      | .ok fragment => .ok [⟨.named name, predicate⟩, ⟨.any, some (conjoin predicate fragment)⟩]
      | .error e => .error e
    else .ok [⟨.named name, predicate⟩]
  | node, _ => .ok [⟨node, predicate⟩]

def compileStep (source : String) (resolver : Option Resolver) (expands : Bool) (step : StepExpr) :
    Except SelectorError Step := do
  let predicate ← compileConditions source resolver none step.conditions
  let branches ← compileBranches source resolver expands step predicate
  return ⟨step.axis, branches, step.filter⟩

/-- A path to all content takes no fragments for names. -/
def compilePath (source : String) (resolver : Option Resolver) (path : PathExpr) :
    Except SelectorError Path :=
  let expands := path.getLast?.map (·.node) != some (.pseudo .content)
  path.mapM (compileStep source resolver expands)

/-- Compiles the source of a selector for a dialect. -/
def compile (source : String) (dialect : Dialect) (resolver : Option Resolver) :
    Except SelectorError Selector := do
  let paths ← parsePaths source
  let compiled ← paths.mapM (compilePath source resolver)
  return ⟨source, dialect, compiled⟩

def Step.branchText (step : Step) (branch : Branch) : String :=
  step.axis.text ++ branch.node.text ++
    (match branch.predicate with
      | some p => "[" ++ p.text ++ "]"
      | none => "") ++
    match step.filter with
      | some filter => filter.text
      | none => ""

/-- Alternatives in parentheses, unless there is just one. -/
def alternativesText : List String → String
  | [alternative] => alternative
  | alternatives => "(" ++ " || ".intercalate alternatives ++ ")"

def Step.text (step : Step) : String := alternativesText (step.branches.map step.branchText)

def pathText (path : Path) : String := String.join (path.map Step.text)

/-- The canonical form of a selector. -/
def text (s : Selector) : String := alternativesText (s.paths.map pathText)

end Selector

end MarkupStream
