import MarkupStream.Selector.Compiled

/-!
Evaluation of selectors along a stream of events. Every step of every path has a slot, and every open
element has a cell per slot, which says whether the element satisfies the step, whether it or an
element around it does, and how many of its children have passed the test of the step. So the cells
of the parent alone decide what a child satisfies, and no event is looked at twice.
-/
namespace MarkupStream.Selector

/-- The selectors that enclose an event, by their indices in ascending order. -/
structure Selection where
  matched : List Nat
  deriving DecidableEq, Repr

def Selection.isSelected (s : Selection) : Bool := !s.matched.isEmpty

def Selection.contains (s : Selection) (selector : Nat) : Bool := s.matched.contains selector

/-- A step with the selector it belongs to and its place in its path. -/
structure Slot where
  selector : Nat
  index : Nat
  isLast : Bool
  ignoreCase : Bool
  step : Step
  deriving Repr

/-- What an open element knows about one step. -/
structure Cell where
  matched : Bool
  reached : Bool
  count : Nat
  deriving DecidableEq, Repr

/-- Cells of an open element, and the selectors that it is a last step of. -/
structure Scope where
  cells : List Cell
  selects : List Nat
  deriving DecidableEq, Repr

/-- The cells of the document, the open elements with the innermost first, and for each selector the
number of open elements that it selects. -/
structure Evaluation where
  slots : List Slot
  document : List Cell
  scopes : List Scope
  active : List Nat
  deriving Repr

/-- The slots of a path. -/
def slotsOfPath (selector : Nat) (ignoreCase : Bool) (path : Path) : List Slot :=
  path.zipIdx.map fun (step, index) =>
    ⟨selector, index, index + 1 == path.length, ignoreCase, step⟩

def slotsOf (selectors : List Selector) : List Slot :=
  selectors.zipIdx.flatMap fun (selector, i) =>
    selector.paths.flatMap (slotsOfPath i selector.dialect.ignoresCase)

theorem head_flatMap {α β : Type} {P : β → Prop} {f : α → List β} {items : List α}
    (h : ∀ a, ∀ b ∈ (f a).head?, P b) : ∀ b ∈ (items.flatMap f).head?, P b := by
  intro b hb
  rw [List.head?_flatMap] at hb
  obtain ⟨a, -, hfound⟩ := List.exists_of_findSome?_eq_some hb
  exact h a b hfound

/-- The slots of selectors, wherever these stand, begin with the first step of a path. -/
theorem index_head_slots (selectors : List (Selector × Nat)) :
    ∀ slot ∈ (selectors.flatMap fun (selector, i) =>
      selector.paths.flatMap (slotsOfPath i selector.dialect.ignoresCase)).head?, slot.index = 0 := by
  refine head_flatMap fun (selector, i) => head_flatMap fun path => ?_
  cases path <;> simp [slotsOfPath, List.zipIdx_cons]

/-- Whether an element passes the node test of a branch. -/
def NodeTest.acceptsElement (ignoreCase : Bool) (name : Bytes) : NodeTest → Bool
  | any | pseudo .content => true
  | named expected => Bytes.sameName ignoreCase name (Bytes.ofString expected)
  | pseudo (.ofKind _) => false

def Branch.acceptsElement (ignoreCase : Bool) (name : Bytes) (attributes : AttributeValues)
    (branch : Branch) : Bool :=
  branch.node.acceptsElement ignoreCase name &&
    branch.predicate.all (·.holds ignoreCase attributes)

def Slot.acceptsElement (name : Bytes) (attributes : AttributeValues) (slot : Slot) : Bool :=
  slot.step.branches.any (·.acceptsElement slot.ignoreCase name attributes)

def PseudoNode.acceptsKind (kind : NodeKind) : PseudoNode → Bool
  | content => true
  | ofKind k => k == kind

/-- Only the last step of a path can be about nodes that are not elements. -/
def Slot.acceptsNode (kind : NodeKind) (slot : Slot) : Bool :=
  slot.isLast && slot.step.pseudo?.any (·.acceptsKind kind)

/-- Whether the axis of a step leads to a child. `previous` is the cell of the parent for the step
before it. -/
def Slot.axisAllows (slot : Slot) (atRoot : Bool) (previous : Cell) : Bool :=
  match slot.index, slot.step.axis with
  | 0, .child => atRoot
  | 0, .descendant => true
  | _ + 1, .child => previous.matched
  | _ + 1, .descendant => previous.reached

namespace Evaluation

def emptyCell : Cell := ⟨false, false, 0⟩

def ofSelectors (selectors : List Selector) : Evaluation :=
  let slots := slotsOf selectors
  ⟨slots, slots.map fun _ => emptyCell, [], selectors.map fun _ => 0⟩

def isEmpty (e : Evaluation) : Bool := e.active.isEmpty

/-- Presents a child to the slots: those that accept it count it, and it satisfies the ones whose
filter and axis allow it too. Gives the cells of the parent afterwards, each with that verdict. -/
def present (accepts : Slot → Bool) (atRoot : Bool) (previous : Cell) :
    List Slot → List Cell → List (Cell × Bool)
  | slot :: slots, cell :: cells =>
    let counted :=
      if accepts slot && slot.step.filter.isSome then { cell with count := cell.count + 1 } else cell
    let satisfied := accepts slot && slot.step.filter.all (·.accepts counted.count) &&
      slot.axisAllows atRoot previous
    (counted, satisfied) :: present accepts atRoot cell slots cells
  | _, _ => []

/-- The cells of the innermost open element, or of the document. -/
def parentCells (e : Evaluation) : List Cell :=
  match e.scopes with
  | scope :: _ => scope.cells
  | [] => e.document

def withParentCells (e : Evaluation) (cells : List Cell) : Evaluation :=
  match e.scopes with
  | scope :: outer => { e with scopes := { scope with cells } :: outer }
  | [] => { e with document := cells }

def verdicts (e : Evaluation) (accepts : Slot → Bool) : List (Cell × Bool) :=
  present accepts e.scopes.isEmpty emptyCell e.slots e.parentCells

/-- The selectors of the last steps that are satisfied, each once. -/
def selectedBy (slots : List Slot) (satisfied : List Bool) : List Nat :=
  ((slots.zip satisfied).filterMap fun (slot, yes) =>
    if slot.isLast && yes then some slot.selector else none).eraseDups

/-- Changes the counts of some selectors. -/
def adjust (change : Nat → Nat) (selectors active : List Nat) : List Nat :=
  active.zipIdx.map fun (count, i) => if selectors.contains i then change count else count

/-- The selectors with an open element, and some more. -/
def selection (e : Evaluation) (more : List Nat) : Selection :=
  ⟨(e.active.zipIdx.filter fun (count, i) => 0 < count || more.contains i).map (·.2)⟩

def enter (e : Evaluation) (name : Bytes) (attributes : AttributeValues) : Evaluation :=
  let verdicts := e.verdicts (·.acceptsElement name attributes)
  let cells := verdicts.map fun (parent, yes) => ⟨yes, parent.reached || yes, 0⟩
  let selects := selectedBy e.slots (verdicts.map (·.2))
  let e := e.withParentCells (verdicts.map (·.1))
  { e with scopes := ⟨cells, selects⟩ :: e.scopes, active := adjust (· + 1) selects e.active }

/-- Leaves the innermost open element, if there is one. -/
def leave (e : Evaluation) : Evaluation :=
  match e.scopes with
  | scope :: outer => { e with scopes := outer, active := adjust (· - 1) scope.selects e.active }
  | [] => e

/-- Visits a node that is no element. -/
def visit (e : Evaluation) (kind : NodeKind) : Selection × Evaluation :=
  let verdicts := e.verdicts (·.acceptsNode kind)
  (e.selection (selectedBy e.slots (verdicts.map (·.2))),
    e.withParentCells (verdicts.map (·.1)))

/-- The selectors that enclose an event, and the evaluation after it. An element is enclosed from its
start to its end inclusive; `parts` are those of the tag that a start belongs to. -/
def observe (e : Evaluation) (event : Event) (parts : List TagPart) (input : Bytes) :
    Selection × Evaluation :=
  if e.isEmpty then (⟨[]⟩, e)
  else
    match event with
    | .element edge _ name =>
      if edge.isStart then
        let inner := e.enter (name.slice input) (attributeValues parts input)
        (inner.selection [], inner)
      else if edge.isEnd then (e.selection [], e.leave)
      else (e.selection [], e)
    | _ =>
      match event.nodeKind? with
      | some kind => e.visit kind
      | none => (e.selection [], e)

end Evaluation

end MarkupStream.Selector
