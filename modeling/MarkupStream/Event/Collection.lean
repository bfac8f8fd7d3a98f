import MarkupStream.Event.Sink

/-!
A handler that keeps every event with its position and selection, and can ask for the content of
elements of certain names as literal text.
-/
namespace MarkupStream

/-- The events so far, and the names whose content is wanted as literal text. -/
structure Collection where
  events : Array ParsedEvent
  literal : List String
  deriving Repr

namespace Collection

def empty : Collection := ⟨#[], []⟩

def withLiteral (c : Collection) (name : String) : Collection :=
  { c with literal := c.literal ++ [name] }

/-- Literal text is asked for under the name that was configured, whatever the case of the tag. -/
def directive (c : Collection) (input : Bytes) : Event → Directive
  | .element .openEnd _ name =>
    match c.literal.find? fun l => Bytes.sameName true (Bytes.ofString l) (name.slice input) with
    | some l => .literalUntil l
    | none => .proceed
  | _ => .proceed

def collect : Handler Collection := fun c input parsed =>
  (.ok (c.directive input parsed.event), { c with events := c.events.push parsed })

/-- The events, and the collection without them. -/
def take (c : Collection) : Array ParsedEvent × Collection := (c.events, { c with events := #[] })

/-- The source of all events that are kept, in order. -/
def concat (c : Collection) (input : Bytes) (keep : ParsedEvent → Bool) : Bytes :=
  (c.events.toList.filter keep).flatMap fun parsed => parsed.event.span.slice input

def sourceText (c : Collection) (input : Bytes) : Bytes := c.concat input fun _ => true

/-- The source of the events that some selector encloses. -/
def selectedText (c : Collection) (input : Bytes) : Bytes :=
  c.concat input (·.selection.isSelected)

end Collection

/-- Every document with a handler state of its own, in the order of the documents. -/
def parseMany (inputs : List Bytes) (settings : Settings) (handler : Handler σ)
    (start : Nat → σ) : List (Except ParseError (σ × Summary)) :=
  inputs.zipIdx.map fun (input, i) =>
    match parse input settings handler (start i) with
    | (.ok summary, state) => .ok (state, summary)
    | (.error e, _) => .error e

/-- The events of every document. -/
def collectMany (inputs : List Bytes) (settings : Settings) : List (Except ParseError Collection) :=
  (parseMany inputs settings Collection.collect fun _ => Collection.empty).map fun result =>
    result.map (·.1)

end MarkupStream
