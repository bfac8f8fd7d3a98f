import MarkupStream.Selector.Evaluation

/-!
Evaluation that keeps its frames. A frame is what one open element, or the document, knows about the slots, in a
list for each kind of knowledge, and the frames of elements that have ended are taken again for others. All
lists are looked up by index, and selectors are counted up and down. Where there is nothing at an index, nothing
to count down, or no element to leave, there is no result. Counts are numbers here: no document that may be read
has enough children for one to leave a word of 32 bits.
-/
namespace MarkupStream.Selector

/-- What must not happen. -/
inductive Mishap where
  | outOfRange
  | countBelowZero
  | noElement
  deriving DecidableEq, Repr

section Lists

variable {α : Type}

def entry (values : List α) (index : Nat) : Except Mishap α :=
  match values[index]? with
  | some value => .ok value
  | none => .error .outOfRange

def putEntry (values : List α) (index : Nat) (value : α) : Except Mishap (List α) :=
  if index < values.length then .ok (values.set index value) else .error .outOfRange

/-- The entry before an index. -/
def entryBefore (values : List α) : Nat → Except Mishap α
  | 0 => .error .outOfRange
  | index + 1 => entry values index

/-- Changes the counts at some indices, one after another. -/
def recount (change : Nat → Except Mishap Nat) : List Nat → List Nat → Except Mishap (List Nat)
  | [], counts => .ok counts
  | index :: rest, counts => do
    let count ← entry counts index
    recount change rest (← putEntry counts index (← change count))

end Lists

def countUp (count : Nat) : Except Mishap Nat := .ok (count + 1)

def countDown (count : Nat) : Except Mishap Nat :=
  if count = 0 then .error .countBelowZero else .ok (count - 1)

/-- Which slots an element satisfies, which ones it or an element around it satisfies, how many of its children
have passed the test of each, and the selectors that it is a last step of. -/
structure PooledFrame where
  matched : List Bool
  reach : List Bool
  counters : List Nat
  selects : List Nat
  deriving DecidableEq, Repr

namespace PooledFrame

def blank (slots : Nat) : PooledFrame :=
  ⟨List.replicate slots false, List.replicate slots false, List.replicate slots 0, []⟩

/-- The frame with nothing in it any more, for another element. -/
def reset (frame : PooledFrame) : PooledFrame :=
  ⟨frame.matched.map fun _ => false, frame.reach.map fun _ => false, frame.counters.map fun _ => 0, []⟩

/-- Counts a child that passes the test of a slot, if the slot has a filter, and asks the filter. -/
def passesFilter (frame : PooledFrame) (index : Nat) (slot : Slot) : Except Mishap (Bool × PooledFrame) :=
  match slot.step.filter with
  | some filter => do
    let count := (← entry frame.counters index) + 1
    return (filter.accepts count, { frame with counters := ← putEntry frame.counters index count })
  | none => return (true, frame)

/-- Whether the axis of a slot leads to a child. A step that is not the first of its path looks at the slot of
the step before it. -/
def axisAllows (frame : PooledFrame) (atRoot : Bool) (index : Nat) (slot : Slot) : Except Mishap Bool :=
  match slot.index, slot.step.axis with
  | 0, .child => return atRoot
  | 0, .descendant => return true
  | _ + 1, .child => entryBefore frame.matched index
  | _ + 1, .descendant => entryBefore frame.reach index

/-- Whether a child satisfies a slot. What it is not accepted for is not counted, and where it is not counted in
the axis is not asked. -/
def consider (frame : PooledFrame) (accepts : Slot → Bool) (atRoot : Bool) (index : Nat) (slot : Slot) :
    Except Mishap (Bool × PooledFrame) := do
  if !accepts slot then return (false, frame)
  let (passes, frame) ← frame.passesFilter index slot
  if !passes then return (false, frame)
  return (← frame.axisAllows atRoot index slot, frame)

/-- Considers a child for all slots, and notes the ones that it satisfies. -/
def present {β : Type} (accepts : Slot → Bool) (atRoot : Bool) (note : Nat → Slot → β → Except Mishap β) :
    Nat → List Slot → PooledFrame → β → Except Mishap (PooledFrame × β)
  | _, [], frame, noted => return (frame, noted)
  | index, slot :: slots, frame, noted => do
    let (satisfied, frame) ← frame.consider accepts atRoot index slot
    let noted ← if satisfied then note index slot noted else .ok noted
    present accepts atRoot note (index + 1) slots frame noted

/-- Adds a selector that is not there yet. -/
def addSelector (selector : Nat) (selectors : List Nat) : List Nat :=
  if selectors.contains selector then selectors else selectors ++ [selector]

/-- Notes a slot in the frame of the element that satisfies it. -/
def mark (index : Nat) (slot : Slot) (frame : PooledFrame) : Except Mishap PooledFrame := do
  let frame := { frame with matched := ← putEntry frame.matched index true }
  if slot.isLast then return { frame with selects := addSelector slot.selector frame.selects }
  else return frame

/-- Notes the slots that the element or its parent has been found to be under. -/
def extendReach (parent : PooledFrame) : List Nat → PooledFrame → Except Mishap PooledFrame
  | [], frame => return frame
  | index :: rest, frame => do
    let reached := (← entry parent.reach index) || (← entry frame.matched index)
    extendReach parent rest { frame with reach := ← putEntry frame.reach index reached }

end PooledFrame

/-- The first frame is that of the document and the next ones, as far as the depth says, are those of the open
elements from the outermost on. The frames behind them wait to be taken again. -/
structure FramePool where
  slots : List Slot
  frames : List PooledFrame
  depth : Nat
  active : List Nat
  deriving Repr

namespace FramePool

open PooledFrame

def ofSelectors (selectors : List Selector) : FramePool :=
  let slots := slotsOf selectors
  ⟨slots, [.blank slots.length], 1, selectors.map fun _ => 0⟩

/-- The frames of the document and of the open elements. -/
def live (p : FramePool) : List PooledFrame := p.frames.take p.depth

/-- Takes a frame for one more element: the next one that waits, or a new one. -/
def push (p : FramePool) : Except Mishap FramePool := do
  if p.depth = p.frames.length then
    return { p with frames := p.frames ++ [.blank p.slots.length], depth := p.depth + 1 }
  else
    let frame ← entry p.frames p.depth
    return { p with frames := ← putEntry p.frames p.depth frame.reset, depth := p.depth + 1 }

def enter (p : FramePool) (name : Bytes) (attributes : AttributeValues) : Except Mishap FramePool := do
  let child := p.depth
  let p ← p.push
  let parent ← entryBefore p.frames child
  let frame ← entry p.frames child
  let (parent, frame) ← PooledFrame.present (·.acceptsElement name attributes) (child == 1) mark 0 p.slots
    parent frame
  let frame ← extendReach parent (List.range p.slots.length) frame
  let frames ← putEntry p.frames (child - 1) parent
  return { p with
    frames := ← putEntry frames child frame
    active := ← recount countUp frame.selects p.active }

/-- Leaves the innermost element. Its frame stays where it is. -/
def leave (p : FramePool) : Except Mishap FramePool := do
  if p.depth ≤ 1 then throw .noElement
  let frame ← entry p.frames (p.depth - 1)
  return { p with depth := p.depth - 1, active := ← recount countDown frame.selects p.active }

/-- Visits a node that is no element; gives the selectors that select it. -/
def visit (p : FramePool) (kind : NodeKind) : Except Mishap (List Nat × FramePool) := do
  let parent ← entryBefore p.frames p.depth
  let (parent, extra) ← PooledFrame.present (·.acceptsNode kind) (p.depth == 1)
    (fun _ slot extra => .ok (addSelector slot.selector extra)) 0 p.slots parent []
  return (extra, { p with frames := ← putEntry p.frames (p.depth - 1) parent })

/-- The selectors with an open element, and some more. -/
def selection (p : FramePool) (more : List Nat) : Selection :=
  ⟨(p.active.zipIdx.filter fun (count, i) => 0 < count || more.contains i).map (·.2)⟩

def observe (p : FramePool) (event : Event) (parts : List TagPart) (input : Bytes) :
    Except Mishap (Selection × FramePool) := do
  if p.active.isEmpty then return (⟨[]⟩, p)
  match event with
  | .element edge _ name =>
    if edge.isStart then
      let inner ← p.enter (name.slice input) (attributeValues parts input)
      return (inner.selection [], inner)
    else if edge.isEnd then return (p.selection [], ← p.leave)
    else return (p.selection [], p)
  | event =>
    match event.nodeKind? with
    | some kind =>
      let (extra, p) ← p.visit kind
      return (p.selection extra, p)
    | none => return (p.selection [], p)

end FramePool

end MarkupStream.Selector
