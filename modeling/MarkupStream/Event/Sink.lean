import MarkupStream.Event.Stream

/-!
Events pushed to a handler. A handler is a step function on a state of its own; its answer to an
event lets the reading go on, ends it, or asks for the content of the element just opened as
literal text.
-/
namespace MarkupStream

/-- The answer to an event. Literal text can only be had at the end of an open tag. -/
inductive Directive where
  | proceed
  | literalUntil (name : String)
  | stop
  deriving DecidableEq, Repr

/-- A handler takes an event of a document and answers, or fails with a message. -/
abbrev Handler (σ : Type) := σ → Bytes → ParsedEvent → Except String Directive × σ

/-- What came of a reading that did not fail. -/
structure Summary where
  eventCount : Nat
  maxDepth : Nat
  warnings : List Warning
  stopped : Bool
  deriving DecidableEq, Repr

namespace Handler

/-- A handler that ignores every event. -/
def silent : Handler Unit := fun state _ _ => (.ok .proceed, state)

/-- Both answers in one: stopping goes before literal text, and the first literal text before the
second. -/
def merge : Directive → Directive → Directive
  | .stop, _ | _, .stop => .stop
  | .literalUntil name, _ | _, .literalUntil name => .literalUntil name
  | .proceed, .proceed => .proceed

/-- Shows every event to two handlers in turn, to the second only if the first does not fail. -/
def tee (first : Handler α) (second : Handler β) : Handler (α × β) :=
  fun (a, b) input event =>
    match first a input event with
    | (.error e, a) => (.error e, (a, b))
    | (.ok x, a) =>
      match second b input event with
      | (.error e, b) => (.error e, (a, b))
      | (.ok y, b) => (.ok (merge x y), (a, b))

end Handler

namespace EventStream

def summary (s : EventStream) (stopped : Bool) : Summary :=
  ⟨s.eventCount, s.maxDepth, s.warnings, stopped⟩

/-- The stream after the answer to an event, nothing if it is to stop. -/
def follow (s : EventStream) (event : Event) : Directive → Option EventStream
  | .stop => none
  | .proceed => some s
  | .literalUntil name =>
    match event with
    | .element .openEnd _ _ => some (s.literalUntil (Bytes.ofString name))
    | _ => some s

theorem remaining_follow {s t : EventStream} {event : Event} {directive : Directive}
    (h : s.follow event directive = some t) : t.remaining = s.remaining := by
  unfold follow at h
  split at h
  · simp at h
  · simp at h; rw [h]
  · split at h <;> simp at h <;> subst h <;> simp

/-- Pushes the events that are left to a handler. -/
def push (s : EventStream) (handler : Handler σ) (state : σ) : Except ParseError Summary × σ :=
  match _h : s.next with
  | (.error e, _) => (.error e, state)
  | (.ok none, t) => (.ok (t.summary false), state)
  | (.ok (some parsed), t) =>
    match handler state t.input parsed with
    | (.error message, state) => (.error (.handler message), state)
    | (.ok directive, state) =>
      match _hf : t.follow parsed.event directive with
      | none => (.ok (t.summary true), state)
      | some next => next.push handler state
termination_by s.remaining
decreasing_by
  rw [remaining_follow _hf]
  exact nearer_next _h

end EventStream

/-- Pushes the events of a document to a handler. -/
def parse (input : Bytes) (settings : Settings) (handler : Handler σ) (state : σ) :
    Except ParseError Summary × σ :=
  (EventStream.ofInput input settings).push handler state

/-- The bytes of a source that is read piece by piece. A source ends with its first empty piece, and
nothing is read of one that fails before its end. -/
def readAll : List (Except String Bytes) → Except String Bytes
  | [] | .ok [] :: _ => .ok []
  | .error e :: _ => .error e
  | .ok piece :: rest => (readAll rest).map (piece ++ ·)

/-- Reads a source to its end and pushes the events of what it holds. -/
def parsePieces (pieces : List (Except String Bytes)) (settings : Settings) (handler : Handler σ)
    (state : σ) : Except ParseError Summary × σ :=
  match readAll pieces with
  | .error e => (.error (.io e), state)
  | .ok input => parse input settings handler state

end MarkupStream
