import MarkupStream.Nesting
import MarkupStream.Selector.Evaluation
import MarkupStream.Token.Stream

/-!
The events of a document, one at a time, each with its position and the selectors that enclose it. A
token is read only when the events of the one before have all been handed out, so between two events
a caller may still ask for what follows to be read as literal text.
-/
namespace MarkupStream

/-- What a document is read with, besides the document. -/
structure Settings where
  dialect : Dialect
  policy : Policy
  selectors : List Selector
  deriving Repr

structure ParsedEvent where
  event : Event
  position : Position
  selection : Selector.Selection
  deriving DecidableEq, Repr

/-- Whether the start of the document has been delivered and whether its end has been queued. -/
inductive EventStream.Stage where
  | start | running | done
  deriving DecidableEq, Repr

structure EventStream where
  tokens : TokenStream
  nesting : Nesting
  evaluation : Selector.Evaluation
  queue : List Event
  warnings : List Warning
  stage : EventStream.Stage
  eventCount : Nat
  deriving Repr

namespace EventStream

def ofInput (input : Bytes) (settings : Settings) : EventStream where
  tokens := TokenStream.ofInput input settings.dialect
  nesting := Nesting.ofInput input settings.dialect settings.policy
  evaluation := Selector.Evaluation.ofSelectors settings.selectors
  queue := []
  warnings := []
  stage := .start
  eventCount := 0

def input (s : EventStream) : Bytes := s.tokens.input

def depth (s : EventStream) : Nat := s.nesting.depth

def maxDepth (s : EventStream) : Nat := s.nesting.maxDepth

/-- Reads what follows as text up to a close tag of the given name. -/
def literalUntil (s : EventStream) (name : Bytes) : EventStream :=
  { s with tokens := s.tokens.literalUntil name }

def takeWarnings (s : EventStream) : List Warning × EventStream :=
  (s.warnings, { s with warnings := [] })

/-- Hands out an event, whose position the token stream moves to. -/
def deliver (s : EventStream) (event : Event) : ParsedEvent × EventStream :=
  let tokens := s.tokens.moveTo event.span.start
  let (selection, evaluation) := s.evaluation.observe event s.tokens.parts s.input
  (⟨event, tokens.position, selection⟩,
    { s with tokens, evaluation, eventCount := s.eventCount + 1 })

/-- The result of asking for an event: nothing when all have been delivered. -/
abbrev Result := Except ParseError (Option ParsedEvent) × EventStream

def emit (s : EventStream) (event : Event) : Result :=
  let (parsed, t) := s.deliver event
  (.ok (some parsed), t)

def fail (s : EventStream) (e : ParseError) : Result :=
  (.error e, { s with stage := .done, queue := [] })

/-- Hands out the first event that is queued. -/
def nextQueued (s : EventStream) : Result :=
  match s.queue with
  | event :: queue => { s with queue }.emit event
  | [] => (.ok none, s)

/-- Queues the events of a token. -/
def acceptToken (s : EventStream) (token : Token) : Except ParseError EventStream := do
  let step ← s.nesting.accept s.tokens.locate token
  let (warnings, tokens) := s.tokens.drainWarnings
  return { s with
    tokens := match step.rawText with
      | some name => tokens.literalUntil (name.slice s.input)
      | none => tokens
    nesting := step.nesting
    queue := step.events
    warnings := s.warnings ++ step.warnings ++ warnings }

/-- Queues the events of the end of the document. -/
def acceptEnd (s : EventStream) : Except ParseError EventStream := do
  let step ← s.nesting.finish s.tokens.locate
  return { s with
    nesting := step.nesting
    queue := step.events ++ [.documentEnd s.input.length]
    warnings := s.warnings ++ step.warnings
    stage := .done }

/-- Reads the next token, or the end of the document, and hands out its first event. -/
def nextRead (s : EventStream) : Result :=
  match s.tokens.next with
  | (.error e, tokens) => { s with tokens }.fail e
  | (.ok token?, tokens) =>
    let s := { s with tokens }
    let accepted := match token? with
      | some token => s.acceptToken token
      | none => s.acceptEnd
    match accepted with
    | .error e => s.fail e
    | .ok t => t.nextQueued

def next (s : EventStream) : Result :=
  if s.queue.isEmpty then
    match s.stage with
    | .start =>
      if s.input.length > Span.maxInputLength then s.fail (.inputTooLarge s.input.length)
      else { s with stage := .running }.emit .documentStart
    | .running => s.nextRead
    | .done => (.ok none, s)
  else s.nextQueued

section Progress

/-!
An event takes the stream to a later stage, or a token off the document, or itself off the queue.
-/

def Stage.rank : Stage → Nat
  | .start => 2
  | .running => 1
  | .done => 0

/-- What is left to read, in the order in which it counts. -/
def remaining (s : EventStream) : Nat × Nat × Nat :=
  (s.stage.rank, s.tokens.cursor.rest.length, s.queue.length)

/-- The stream is nearer to its end than another. -/
def Nearer (t s : EventStream) : Prop :=
  Prod.Lex (· < ·) (Prod.Lex (· < ·) (· < ·)) t.remaining s.remaining

@[simp] theorem remaining_deliver (s : EventStream) (event : Event) :
    (s.deliver event).2.remaining = s.remaining := rfl

@[simp] theorem cursor_literalUntil (s : TokenStream) (name : Bytes) :
    (s.literalUntil name).cursor = s.cursor := by
  unfold TokenStream.literalUntil
  split <;> rfl

@[simp] theorem remaining_literalUntil (s : EventStream) (name : Bytes) :
    (s.literalUntil name).remaining = s.remaining := by
  simp [literalUntil, remaining]

theorem nearer_nextQueued {s t : EventStream} {event : ParsedEvent}
    (h : s.nextQueued = (.ok (some event), t)) : t.Nearer s := by
  unfold nextQueued at h
  split at h
  · rename_i first queue hqueue
    simp only [emit, Prod.mk.injEq] at h
    rw [← h.2]
    simp only [Nearer, remaining_deliver]
    simp only [remaining, hqueue]
    exact .right _ (.right _ (by simp))
  · simp at h

theorem cursor_acceptToken {s t : EventStream} {token : Token} (h : s.acceptToken token = .ok t) :
    t.tokens.cursor = s.tokens.cursor ∧ t.stage = s.stage := by
  simp only [acceptToken, bind, Except.bind] at h
  split at h
  · simp at h
  · simp only [TokenStream.drainWarnings, pure, Except.pure, Except.ok.injEq] at h
    subst h
    refine ⟨?_, rfl⟩
    dsimp only
    split <;> simp

theorem stage_acceptEnd {s t : EventStream} (h : s.acceptEnd = .ok t) : t.stage = .done := by
  simp only [acceptEnd, bind, Except.bind] at h
  split at h
  · simp at h
  · simp only [pure, Except.pure, Except.ok.injEq] at h
    subst h
    rfl

theorem nearer_of_nextQueued {s t u : EventStream} {event : ParsedEvent}
    (hs : t.stage.rank < s.stage.rank ∨
      t.stage.rank = s.stage.rank ∧ t.tokens.cursor.rest.length < s.tokens.cursor.rest.length)
    (h : t.nextQueued = (.ok (some event), u)) : u.Nearer s := by
  unfold nextQueued at h
  split at h
  · simp only [emit, Prod.mk.injEq] at h
    rw [← h.2]
    simp only [Nearer, remaining_deliver]
    simp only [remaining]
    rcases hs with hs | ⟨hs, hc⟩
    · exact .left _ _ hs
    · rw [hs]
      exact .right _ (.left _ _ hc)
  · simp at h

theorem nearer_nextRead {s t : EventStream} {event : ParsedEvent} (hs : s.stage = .running)
    (h : s.nextRead = (.ok (some event), t)) : t.Nearer s := by
  unfold nextRead at h
  split at h
  · simp [fail] at h
  · rename_i token tokens htokens
    dsimp only at h
    split at h
    · simp [fail] at h
    · rename_i u hu
      refine nearer_of_nextQueued ?_ h
      cases token with
      | some token =>
        obtain ⟨hcursor, hstage⟩ := cursor_acceptToken hu
        refine .inr ⟨by rw [hstage], ?_⟩
        rw [hcursor]
        exact TokenStream.length_next_lt htokens
      | none =>
        refine .inl ?_
        rw [stage_acceptEnd hu, hs]
        decide

theorem nearer_next {s t : EventStream} {event : ParsedEvent}
    (h : s.next = (.ok (some event), t)) : t.Nearer s := by
  unfold next at h
  split at h
  · split at h
    · rename_i hstage
      split at h
      · simp [fail] at h
      · simp only [emit, Prod.mk.injEq] at h
        rw [← h.2]
        simp only [Nearer, remaining_deliver]
        simp only [remaining, hstage]
        exact .left _ _ (by decide)
    · rename_i hstage
      exact nearer_nextRead hstage h
    · simp at h
  · exact nearer_nextQueued h

end Progress

/-- The events that are left, up to the error if there is one. -/
def rest (s : EventStream) : List ParsedEvent × Option ParseError × EventStream :=
  match _h : s.next with
  | (.ok none, t) => ([], none, t)
  | (.error e, t) => ([], some e, t)
  | (.ok (some event), t) =>
    let (events, error, last) := t.rest
    (event :: events, error, last)
termination_by s.remaining
decreasing_by exact nearer_next _h

end EventStream

/-- All events of a document. -/
def parseEvents (input : Bytes) (settings : Settings) : Except ParseError (List ParsedEvent) :=
  match (EventStream.ofInput input settings).rest with
  | (events, none, _) => .ok events
  | (_, some e, _) => .error e

end MarkupStream
