import MarkupStream.Selector.Evaluation

/-!
What selectors mean on the tree of a document. The events of a document lay out its tree, and a node
of it is known by the index of the event that begins it. Whether a node satisfies a path depends on
its place in the tree alone: on its parent, on the elements around it and on the children of its
parent up to it.
-/
namespace MarkupStream.Selector

/-- What the test and the predicate of a step look at. -/
inductive Node where
  | element (name : Bytes) (attributes : AttributeValues)
  | other (kind : NodeKind)
  deriving DecidableEq, Repr

/-- Only elements have attributes. -/
def Node.attributes : Node → AttributeValues
  | element _ attributes => attributes
  | other _ => []

/-- Content is every node; any other test is for elements or for one kind of node. -/
def NodeTest.admits (ignoreCase : Bool) : NodeTest → Node → Bool
  | pseudo .content, _ => true
  | any, .element _ _ => true
  | named expected, .element name _ => Bytes.sameName ignoreCase name (Bytes.ofString expected)
  | pseudo (.ofKind k), .other kind => k == kind
  | _, _ => false

def Branch.admits (ignoreCase : Bool) (branch : Branch) (node : Node) : Bool :=
  branch.node.admits ignoreCase node && branch.predicate.all (·.holds ignoreCase node.attributes)

/-- A step admits what one of its branches admits. -/
def Step.admits (ignoreCase : Bool) (step : Step) (node : Node) : Bool :=
  step.branches.any (·.admits ignoreCase node)

/-- A document by its source and its events. -/
structure Outline where
  input : Bytes
  events : List Event
  deriving Repr

/-- The parts of a tag, given the events that follow its start. -/
def leadingParts : List Event → List TagPart
  | .attr a :: rest => .attr a :: leadingParts rest
  | .innerWhitespace span :: rest => .whitespace span :: leadingParts rest
  | _ => []

/-- The node that events begin with, if they begin with a node. -/
def nodeOf? (input : Bytes) : List Event → Option Node
  | .element edge _ name :: rest =>
    if edge.isStart then
      some (.element (name.slice input) (attributeValues (leadingParts rest) input))
    else none
  | event :: _ => event.nodeKind?.map .other
  | [] => none

namespace Outline

variable (o : Outline)

/-- The node of an index. -/
def node? (x : Nat) : Option Node := nodeOf? o.input (o.events.drop x)

/-- The elements that have begun and not ended before an index, innermost first. -/
def ancestors : Nat → List Nat
  | 0 => []
  | x + 1 =>
    if o.events[x]?.any Event.isElementStart then x :: ancestors x
    else if o.events[x]?.any Event.isElementEnd then (ancestors x).tail
    else ancestors x

def parent? (x : Nat) : Option Nat := (o.ancestors x).head?

/-- The elements that enclose an event: those around it, and the one that it begins. -/
def enclosing (x : Nat) : List Nat :=
  if o.events[x]?.any Event.isElementStart then x :: o.ancestors x else o.ancestors x

/-- How many children of a parent, or of the document, are admitted before an index. -/
def childCount (admits : Node → Bool) (parent : Option Nat) (x : Nat) : Nat :=
  (List.range x).countP fun y => o.parent? y == parent && (o.node? y).any admits

/-- The step admits the node, and its filter accepts the rank of the node among the children of the
same parent that the step admits. -/
def passes (ignoreCase : Bool) (step : Step) (x : Nat) : Bool :=
  (o.node? x).any (step.admits ignoreCase) &&
    step.filter.all (·.accepts (o.childCount (step.admits ignoreCase) (o.parent? x) (x + 1)))

/-- Whether a node satisfies the last step of a path, whose steps are given from the last one to the
first. -/
def satisfies (ignoreCase : Bool) : List Step → Nat → Bool
  | [], _ => false
  | step :: before, x =>
    o.passes ignoreCase step x &&
      match step.axis, before with
      | .child, [] => (o.parent? x).isNone
      | .descendant, [] => true
      | .child, _ :: _ => (o.parent? x).any (satisfies ignoreCase before)
      | .descendant, _ :: _ => (o.ancestors x).any (satisfies ignoreCase before)

/-- A selector selects an event if the last step of one of its paths is satisfied by an element that
encloses the event, or by the event itself where it is a node of its own. -/
def Selects (selector : Selector) (x : Nat) : Prop :=
  ∃ path ∈ selector.paths, ∃ y, (y ∈ o.enclosing x ∨ y = x ∧ o.events[x]?.any Event.isNode) ∧
    o.satisfies selector.dialect.ignoresCase path.reverse y

/-- The selection of an event: the indices of the selectors that select it, in ascending order. -/
structure IsSelection (selectors : List Selector) (x : Nat) (selection : Selection) : Prop where
  ascending : selection.matched.Pairwise (· < ·)
  mem_iff : ∀ s, s ∈ selection.matched ↔
    ∃ selector, selectors[s]? = some selector ∧ o.Selects selector x

end Outline

section Tree

variable {o : Outline}

theorem node?_eq {x : Nat} {event : Event} (h : o.events[x]? = some event) :
    o.node? x = nodeOf? o.input (event :: o.events.drop (x + 1)) := by
  obtain ⟨hx, rfl⟩ := List.getElem?_eq_some_iff.1 h
  rw [Outline.node?, List.drop_eq_getElem_cons hx]

theorem node?_other {x : Nat} {event : Event} {kind : NodeKind} (h : o.events[x]? = some event)
    (hkind : event.nodeKind? = some kind) : o.node? x = some (.other kind) := by
  rw [node?_eq h]
  cases event <;> cases hkind <;> rfl

/-- An event that neither is a node nor begins an element has no node. -/
theorem node?_inside {x : Nat} {event : Event} (h : o.events[x]? = some event)
    (hkind : event.nodeKind? = none) (hstart : ¬ event.isElementStart) : o.node? x = none := by
  rw [node?_eq h]
  cases event with
  | element edge => exact if_neg hstart
  | documentStart | documentEnd | attr | innerWhitespace => rfl
  | _ => cases hkind

theorem enclosing_start {x : Nat} {event : Event} (h : o.events[x]? = some event)
    (hstart : event.isElementStart) : o.enclosing x = x :: o.ancestors x := by
  simp [Outline.enclosing, h, hstart]

theorem enclosing_inside {x : Nat} {event : Event} (h : o.events[x]? = some event)
    (hstart : ¬ event.isElementStart) : o.enclosing x = o.ancestors x := by
  simp [Outline.enclosing, h, hstart]

theorem ancestors_start {x : Nat} {event : Event} (h : o.events[x]? = some event)
    (hstart : event.isElementStart) : o.ancestors (x + 1) = x :: o.ancestors x := by
  simp [Outline.ancestors, h, hstart]

theorem isElement_of_nodeKind? {event : Event} {kind : NodeKind} (h : event.nodeKind? = some kind) :
    ¬ event.isElementStart ∧ ¬ event.isElementEnd := by
  cases event <;> cases h <;> exact ⟨nofun, nofun⟩

theorem not_isElementStart {event : Event} (h : event.isElementEnd) : ¬ event.isElementStart := by
  cases event with
  | element edge =>
    cases edge with
    | standaloneEnd | closeEnd | autoCloseEnd => exact Bool.false_ne_true
    | _ => cases h
  | _ => cases h

theorem ancestors_end {x : Nat} {event : Event} (h : o.events[x]? = some event)
    (hend : event.isElementEnd) : o.ancestors (x + 1) = (o.ancestors x).tail := by
  simp [Outline.ancestors, h, hend, not_isElementStart hend]

theorem ancestors_inside {x : Nat} {event : Event} (h : o.events[x]? = some event)
    (hstart : ¬ event.isElementStart) (hend : ¬ event.isElementEnd) :
    o.ancestors (x + 1) = o.ancestors x := by
  simp [Outline.ancestors, h, hstart, hend]

theorem lt_of_mem_ancestors {x y : Nat} (h : y ∈ o.ancestors x) : y < x := by
  induction x with
  | zero => cases h
  | succ x ih =>
    rw [Outline.ancestors] at h
    split at h
    · rcases List.mem_cons.1 h with rfl | h
      · exact Nat.lt_succ_self y
      · exact Nat.lt_succ_of_lt (ih h)
    · split at h
      · exact Nat.lt_succ_of_lt (ih (List.mem_of_mem_tail h))
      · exact Nat.lt_succ_of_lt (ih h)

/-- The elements around the innermost of some ancestors are the others. -/
theorem ancestors_of_cons {x p : Nat} {rest : List Nat} (h : o.ancestors x = p :: rest) :
    o.ancestors p = rest := by
  induction x using Nat.strongRecOn generalizing p rest with
  | ind x ih =>
    cases x with
    | zero => cases h
    | succ x =>
      -- After an end the innermost element is gone; its own ancestors come from the induction.
      have hx := Nat.lt_succ_self x
      rw [Outline.ancestors] at h
      split at h
      · obtain ⟨rfl, rfl⟩ := List.cons.inj h
        rfl
      · split at h
        · cases hancestors : o.ancestors x with
          | nil => simp [hancestors] at h
          | cons q outer =>
            have hq : q < x := lt_of_mem_ancestors (by rw [hancestors]; exact List.mem_cons_self)
            rw [hancestors, List.tail_cons] at h
            rw [h] at hancestors
            exact ih q (Nat.lt_trans hq hx) (ih x hx hancestors)
        · exact ih x hx h

theorem lt_of_parent? {x p : Nat} (h : o.parent? x = some p) : p < x :=
  lt_of_mem_ancestors (List.mem_of_head? h)

/-- No element is around itself, and so none stands twice among ancestors. -/
theorem nodup_ancestors (x : Nat) : (o.ancestors x).Nodup := by
  induction x with
  | zero => exact .nil
  | succ x ih =>
    rw [Outline.ancestors]
    split
    · exact List.nodup_cons.2 ⟨fun h => Nat.lt_irrefl x (lt_of_mem_ancestors h), ih⟩
    · split
      · exact ih.tail
      · exact ih

theorem childCount_succ (admits : Node → Bool) (parent : Option Nat) (x : Nat) :
    o.childCount admits parent (x + 1) = o.childCount admits parent x +
      if o.parent? x = parent ∧ (o.node? x).any admits then 1 else 0 := by
  simp [Outline.childCount, List.range_succ, List.countP_append, List.countP_singleton]

/-- An element that has just begun has no children. -/
theorem childCount_self (admits : Node → Bool) (x : Nat) :
    o.childCount admits (some x) (x + 1) = 0 := by
  refine List.countP_eq_zero.2 fun y hy h => ?_
  have hparent : o.parent? y = some x := by simpa using (Bool.and_eq_true_iff.1 h).1
  have hlt := lt_of_parent? hparent
  have hle := List.mem_range.1 hy
  omega

end Tree

end MarkupStream.Selector
