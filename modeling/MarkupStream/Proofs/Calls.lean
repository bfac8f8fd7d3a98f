import MarkupStream.Proofs.Steps

/-!
Runs of an event stream. A caller asks for events and, between any two of them, may ask for literal
text. A call for an event first fills the queue if it is empty and then takes the first event off it;
what filling, taking and asking for literal text keep is kept by every run up to its first error.
-/
namespace MarkupStream

namespace EventStream

/-- What a caller may ask of a stream. -/
inductive Call where
  | next
  | literalUntil (name : Bytes)
  deriving DecidableEq, Repr

abbrev Answer := Except ParseError (Option ParsedEvent)

/-- The answers to calls, in order, and the stream after them. -/
def run (s : EventStream) : List Call → List Answer × EventStream
  | [] => ([], s)
  | .next :: calls => (s.next.1 :: (run s.next.2 calls).1, (run s.next.2 calls).2)
  | .literalUntil name :: calls => run (s.literalUntil name) calls

/-- The events among answers. -/
def delivered : List Answer → List ParsedEvent
  | [] => []
  | .ok (some event) :: rest => event :: delivered rest
  | _ :: rest => delivered rest

/-- How an empty queue is filled: with the start of the document, with the events of the next token,
or with the events of the end of the document. -/
inductive Fills (s : EventStream) : EventStream → Prop
  | start : s.stage = .start → Fills s { s with stage := .running, queue := [.documentStart] }
  | token {token : Token} {next : Cursor} {parts : List TagPart} {found : List Warning}
      {step : Nesting.Step} : s.stage = .running → token.Tiled s.tokens.cursor next →
      (∀ tag, token = .openTag tag → parts = tag.parts) →
      s.nesting.Accepts s.tokens.locate token step →
      Fills s { s with
        tokens := { s.tokens with
          cursor := next
          mode := match step.rawText with
            | some name => .literal (name.slice s.input)
            | none => .content
          parts
          warnings := [] }
        nesting := step.nesting
        queue := step.events
        warnings := s.warnings ++ step.warnings ++ found }
  | finish {step : Nesting.Step} : s.stage = .running → s.tokens.cursor.rest = [] →
      s.nesting.Finishes s.tokens.locate step →
      Fills s { s with
        tokens := { s.tokens with mode := .done }
        nesting := step.nesting
        queue := step.events ++ [.documentEnd s.input.length]
        warnings := s.warnings ++ step.warnings
        stage := .done }

/-- Tokens are asked for only while there may be some. -/
def Alive (s : EventStream) : Prop := s.stage ≠ .done → s.tokens.mode ≠ .done

/-- The stream with the events of a token queued. -/
def loadToken (s : EventStream) (tokens : TokenStream) (step : Nesting.Step) : EventStream :=
  { s with
    tokens := { tokens with
      mode := match step.rawText with
        | some name => .literal (name.slice s.input)
        | none => .content
      warnings := [] }
    nesting := step.nesting
    queue := step.events
    warnings := s.warnings ++ step.warnings ++ tokens.warnings }

/-- The stream with the events of the end of the document queued. -/
def loadEnd (s : EventStream) (step : Nesting.Step) : EventStream :=
  { s with
    tokens := { s.tokens with mode := .done }
    nesting := step.nesting
    queue := step.events ++ [.documentEnd s.input.length]
    warnings := s.warnings ++ step.warnings
    stage := .done }

/-- How an empty queue is filled, told by what was read for it. -/
inductive Loads (s : EventStream) : EventStream → Prop
  | start : s.stage = .start → s.input.length ≤ Span.maxInputLength →
      Loads s { s with stage := .running, queue := [.documentStart] }
  | token {token : Token} {tokens : TokenStream} {step : Nesting.Step} : s.stage = .running →
      s.tokens.next = (.ok (some token), tokens) →
      s.nesting.accept s.tokens.locate token = .ok step → Loads s (s.loadToken tokens step)
  | finish {tokens : TokenStream} {step : Nesting.Step} : s.stage = .running →
      s.tokens.next = (.ok none, tokens) → s.nesting.finish s.tokens.locate = .ok step →
      Loads s (s.loadEnd step)

/-- Why an empty queue cannot be filled. -/
inductive Fails (s : EventStream) : ParseError → Prop
  | tooLarge : s.stage = .start → Span.maxInputLength < s.input.length →
      Fails s (.inputTooLarge s.input.length)
  | scan {e : ParseError} {tokens : TokenStream} : s.stage = .running →
      s.tokens.next = (.error e, tokens) → Fails s e
  | token {e : ParseError} {token : Token} {tokens : TokenStream} : s.stage = .running →
      s.tokens.next = (.ok (some token), tokens) →
      s.nesting.accept s.tokens.locate token = .error e → Fails s e
  | finish {e : ParseError} {tokens : TokenStream} : s.stage = .running →
      s.tokens.next = (.ok none, tokens) → s.nesting.finish s.tokens.locate = .error e → Fails s e

/-- What a call for an event comes to. -/
inductive Responds (s : EventStream) : Result → Prop
  | event {u : EventStream} {event : Event} {queue : List Event} :
      u = s ∨ s.queue = [] ∧ s.Loads u → u.queue = event :: queue →
      Responds s ({ u with queue }.emit event)
  | ended : s.stage = .done → s.queue = [] → Responds s (.ok none, s)
  | failed {e : ParseError} {tokens : TokenStream} : s.queue = [] → s.Fails e →
      Responds s (.error e, { s with tokens, stage := .done, queue := [] })

theorem responds_of_loads {s u : EventStream} (hs : s.queue = []) (h : s.Loads u)
    (hu : u.queue ≠ []) : s.Responds u.nextQueued := by
  obtain ⟨event, queue, hq⟩ := List.exists_cons_of_ne_nil hu
  rw [nextQueued]
  rw [hq]
  exact .event (.inr ⟨hs, h⟩) hq

/-- The answer once the queue has been filled, or could not be. -/
def answerWith (s : EventStream) (tokens : TokenStream) : Except ParseError EventStream → Result
  | .error e => { s with tokens }.fail e
  | .ok t => t.nextQueued

theorem nextRead_of_error {s : EventStream} {e : ParseError} {tokens : TokenStream}
    (h : s.tokens.next = (.error e, tokens)) : s.nextRead = s.answerWith tokens (.error e) := by
  rw [nextRead, h]
  rfl

theorem nextRead_of_token {s : EventStream} {token : Token} {tokens : TokenStream}
    (h : s.tokens.next = (.ok (some token), tokens)) :
    s.nextRead = s.answerWith tokens
      ((s.nesting.accept s.tokens.locate token).map (s.loadToken tokens)) := by
  obtain ⟨next, parts, warnings, htokens, -, -⟩ := (TokenStream.outcome_of_next h).token
  have hlocate : tokens.locate = s.tokens.locate := by rw [htokens]; rfl
  have hinput : tokens.input = s.tokens.input := by rw [htokens]
  have hmode : tokens.mode = .content := by rw [htokens]
  rw [nextRead, h]
  simp only [acceptToken, bind, Except.bind, hlocate]
  cases s.nesting.accept s.tokens.locate token with
  | error e => rfl
  | ok step =>
    obtain ⟨nesting, events, found, rawText⟩ := step
    cases rawText <;>
      simp [TokenStream.drainWarnings, TokenStream.literalUntil, loadToken, answerWith, pure,
        Except.pure, Except.map, input, hinput, hmode]

theorem nextRead_of_none {s : EventStream} {tokens : TokenStream}
    (h : s.tokens.next = (.ok none, tokens)) :
    s.nextRead = s.answerWith tokens ((s.nesting.finish s.tokens.locate).map s.loadEnd) := by
  obtain ⟨htokens, -⟩ := TokenStream.next_eq_none h
  have hlocate : tokens.locate = s.tokens.locate := by rw [htokens]; rfl
  rw [nextRead, h]
  simp only [acceptEnd, bind, Except.bind, hlocate]
  cases s.nesting.finish s.tokens.locate with
  | error e => rfl
  | ok step =>
    rw [htokens]
    rfl

section Next

variable {s : EventStream}

theorem next_of_queue (h : s.queue ≠ []) : s.next = s.nextQueued := by
  obtain ⟨event, queue, hq⟩ := List.exists_cons_of_ne_nil h
  rw [next, hq]
  rfl

theorem next_of_start (hq : s.queue = []) (hs : s.stage = .start) :
    s.next = if s.input.length > Span.maxInputLength then s.fail (.inputTooLarge s.input.length)
      else { s with stage := .running }.emit .documentStart := by
  rw [next, hq, hs]
  rfl

theorem next_of_running (hq : s.queue = []) (hs : s.stage = .running) : s.next = s.nextRead := by
  rw [next, hq, hs]
  rfl

theorem next_of_done (hq : s.queue = []) (hs : s.stage = .done) : s.next = (.ok none, s) := by
  rw [next, hq, hs]
  rfl

end Next

theorem responds_nextRead {s : EventStream} (hs : s.stage = .running) (hq : s.queue = []) :
    s.Responds s.nextRead := by
  cases htokens : s.tokens.next with
  | mk answer tokens =>
    cases answer with
    | error e =>
      rw [nextRead_of_error htokens]
      exact .failed hq (.scan hs htokens)
    | ok token? =>
      cases token? with
      | none =>
        rw [nextRead_of_none htokens]
        cases hstep : s.nesting.finish s.tokens.locate with
        | error e => exact .failed hq (.finish hs htokens hstep)
        | ok step => exact responds_of_loads hq (.finish hs htokens hstep) (by simp [loadEnd])
      | some token =>
        rw [nextRead_of_token htokens]
        cases hstep : s.nesting.accept s.tokens.locate token with
        | error e => exact .failed hq (.token hs htokens hstep)
        | ok step =>
          exact responds_of_loads hq (.token hs htokens hstep) (Nesting.events_ne_nil hstep)

theorem responds_next (s : EventStream) : s.Responds s.next := by
  cases hq : s.queue with
  | cons event queue =>
    have hne : s.queue ≠ [] := by simp [hq]
    rw [next_of_queue hne, nextQueued, hq]
    exact .event (.inl rfl) hq
  | nil =>
    cases hs : s.stage with
    | start =>
      rw [next_of_start hq hs]
      split
      · rename_i hlong
        exact @Responds.failed s _ s.tokens hq (.tooLarge hs hlong)
      · rename_i hshort
        have hload := Loads.start hs (Nat.le_of_not_lt hshort)
        have hresponds := Responds.event (.inr ⟨hq, hload⟩) rfl
        rwa [← hq] at hresponds
    | running =>
      rw [next_of_running hq hs]
      exact responds_nextRead hs hq
    | done =>
      rw [next_of_done hq hs]
      exact .ended hs hq

/-- Filling from a stream that is asked for tokens only while there may be some. -/
theorem Loads.fills {s t : EventStream} (h : s.Loads t) (halive : s.Alive) : s.Fills t := by
  cases h with
  | start hs => exact .start hs
  | token hs htokens hstep =>
    obtain ⟨next, parts, warnings, rfl, htiled, hparts⟩ :=
      (TokenStream.outcome_of_next htokens).token
    exact .token hs htiled hparts (Nesting.accepts_accept hstep)
  | finish hs htokens hstep =>
    have hend := (TokenStream.next_eq_none htokens).2 (halive (by rw [hs]; decide))
    exact .finish hs hend (Nesting.finishes_finish hstep)

theorem alive_ofInput (input : Bytes) (settings : Settings) : (ofInput input settings).Alive :=
  fun _ h => by cases h

/-- Asking for literal text changes nothing but the mode of the tokens to come. -/
theorem literalUntil_eq (s : EventStream) (name : Bytes) :
    ∃ mode, s.literalUntil name = { s with tokens := { s.tokens with mode } } := by
  rw [literalUntil, TokenStream.literalUntil]
  split
  · exact ⟨s.tokens.mode, rfl⟩
  · exact ⟨.literal name, rfl⟩

theorem Alive.literalUntil {s : EventStream} (h : s.Alive) (name : Bytes) :
    (s.literalUntil name).Alive := by
  intro hs
  have hm := h hs
  rw [EventStream.literalUntil, TokenStream.literalUntil]
  split
  · contradiction
  · simp

theorem Alive.fills {s t : EventStream} (h : s.Alive) (hf : s.Fills t) : t.Alive := by
  cases hf with
  | start hs => exact fun _ => h (by rw [hs]; decide)
  | @token _ _ _ _ step =>
    intro _
    dsimp only
    split <;> simp
  | finish => exact fun hne => absurd rfl hne

/-- The stream reads a document with given settings. -/
structure Reads (input : Bytes) (settings : Settings) (s : EventStream) : Prop where
  tokens_input : s.tokens.input = input
  tokens_dialect : s.tokens.dialect = settings.dialect
  nesting_input : s.nesting.input = input
  nesting_dialect : s.nesting.dialect = settings.dialect
  nesting_policy : s.nesting.policy = settings.policy

theorem reads_ofInput (input : Bytes) (settings : Settings) :
    (ofInput input settings).Reads input settings := ⟨rfl, rfl, rfl, rfl, rfl⟩

theorem Reads.mode {input : Bytes} {settings : Settings} {s : EventStream}
    (h : s.Reads input settings) (mode : TokenStream.Mode) :
    Reads input settings { s with tokens := { s.tokens with mode } } :=
  ⟨h.1, h.2, h.3, h.4, h.5⟩

theorem Reads.fills {input : Bytes} {settings : Settings} {s t : EventStream}
    (h : s.Reads input settings) (hf : s.Fills t) : t.Reads input settings := by
  cases hf with
  | start => exact ⟨h.1, h.2, h.3, h.4, h.5⟩
  | token hs htiled hparts haccepts =>
    obtain ⟨hinput, hdialect, hpolicy⟩ := haccepts.same
    exact ⟨h.1, h.2, hinput.trans h.3, hdialect.trans h.4, hpolicy.trans h.5⟩
  | finish hs hend hfinishes =>
    obtain ⟨hinput, hdialect, hpolicy⟩ := hfinishes.same
    exact ⟨h.1, h.2, hinput.trans h.3, hdialect.trans h.4, hpolicy.trans h.5⟩

theorem Reads.deliver {input : Bytes} {settings : Settings} {s : EventStream}
    (h : s.Reads input settings) (queue : List Event) (event : Event) :
    (EventStream.deliver { s with queue } event).2.Reads input settings :=
  ⟨h.1, h.2, h.3, h.4, h.5⟩

/-- A property of the events handed out so far and of the stream left, kept by all that a call does
short of failing. Asking for literal text does no more than set the mode of the tokens to come. -/
structure Kept (P : List ParsedEvent → EventStream → Prop) : Prop where
  mode : ∀ {events s} (mode : TokenStream.Mode), P events s →
    P events { s with tokens := { s.tokens with mode } }
  fills : ∀ {events s t}, P events s → s.queue = [] → s.Fills t → P events t
  deliver : ∀ {events s event queue}, P events s → s.queue = event :: queue →
    P (events ++ [(deliver { s with queue } event).1]) (deliver { s with queue } event).2

/-- The events handed out and those queued behind them, which are all that is known of a document. -/
def known (events : List ParsedEvent) (s : EventStream) : List Event :=
  events.map (·.event) ++ s.queue

theorem known_of_queue_nil {events : List ParsedEvent} {s : EventStream} (h : s.queue = []) :
    known events s = events.map (·.event) := by
  rw [known, h, List.append_nil]

/-- Handing out an event tells nothing new. -/
theorem known_deliver {events : List ParsedEvent} {s : EventStream} {event : Event}
    {queue : List Event} (h : s.queue = event :: queue) :
    known (events ++ [(deliver { s with queue } event).1]) (deliver { s with queue } event).2 =
      known events s := by
  rw [known, known, h, List.map_append, List.append_assoc]
  rfl

/-- A stream that has ended or failed gives nothing more, and keeps what asking for literal text keeps. -/
theorem run_done {P : EventStream → Prop} (hP : ∀ {t} (name : Bytes), P t → P (t.literalUntil name))
    (calls : List Call) {s : EventStream} (hs : s.stage = .done) (hq : s.queue = []) (h : P s) :
    (∃ n, (s.run calls).1 = List.replicate n (.ok none)) ∧
      (s.run calls).2.stage = .done ∧ (s.run calls).2.queue = [] ∧ P (s.run calls).2 := by
  induction calls generalizing s with
  | nil => exact ⟨⟨0, rfl⟩, hs, hq, h⟩
  | cons call calls ih =>
    cases call with
    | literalUntil name => exact ih (s := s.literalUntil name) hs hq (hP name h)
    | next =>
      simp only [run, next_of_done hq hs]
      obtain ⟨⟨n, hn⟩, hrest⟩ := ih hs hq h
      exact ⟨⟨n + 1, by rw [hn, List.replicate_succ]⟩, hrest⟩

/-- There is one answer to each call for an event. -/
theorem length_run (s : EventStream) (calls : List Call) :
    (s.run calls).1.length = calls.count .next := by
  induction calls generalizing s with
  | nil => rfl
  | cons call calls ih =>
    cases call with
    | next => simp [run, ih]
    | literalUntil name => simp [run, ih]

/-- The answers that events are handed out with. -/
def handedOut (events : List ParsedEvent) : List Answer := events.map fun event => .ok (some event)

theorem delivered_handedOut (events : List ParsedEvent) (rest : List Answer) :
    delivered (handedOut events ++ rest) = events ++ delivered rest := by
  induction events with
  | nil => rfl
  | cons event events ih => exact congrArg _ ih

theorem delivered_append (first second : List Answer) :
    delivered (first ++ second) = delivered first ++ delivered second := by
  fun_induction delivered first with
  | case1 => rfl
  | case2 event rest ih => exact congrArg _ ih
  | case3 answer rest hnot ih =>
    rw [List.cons_append, delivered, ih]
    exact hnot

theorem delivered_replicate (n : Nat) : delivered (List.replicate n (.ok none)) = [] := by
  induction n with
  | zero => rfl
  | succ n ih => exact ih

/-- A property of the events handed out so far and of the stream left, kept by all that a call does
short of failing, as far as what was read for it tells. -/
structure Keeps (P : List ParsedEvent → EventStream → Prop) : Prop where
  literalUntil : ∀ {events s} (name : Bytes), P events s → P events (s.literalUntil name)
  loads : ∀ {events s t}, P events s → s.queue = [] → s.Loads t → P events t
  deliver : ∀ {events s event queue}, P events s → s.queue = event :: queue →
    P (events ++ [(deliver { s with queue } event).1]) (deliver { s with queue } event).2

/-- What is answered from a stream on that hands out no more events, and the stream after that. -/
inductive Leaves (s : EventStream) : List Answer → EventStream → Prop
  | waiting : Leaves s [] s
  | ended {n : Nat} : s.stage = .done → s.queue = [] → Leaves s (List.replicate (n + 1) (.ok none)) s
  | failed {e : ParseError} {n : Nat} {t : EventStream} : s.queue = [] → s.Fails e →
      t.stage = .done → t.queue = [] → t.warnings = s.warnings →
      Leaves s (.error e :: List.replicate n (.ok none)) t

theorem Leaves.delivered {s t : EventStream} {answers : List Answer} (h : s.Leaves answers t) :
    delivered answers = [] := by
  cases h with
  | waiting => rfl
  | ended => exact delivered_replicate _
  | failed => exact delivered_replicate _

/-- Calls are answered with events and then, if at all, with an error or nothing. What they keep holds
of the stream after the last event. -/
theorem run_keeps {P : List ParsedEvent → EventStream → Prop} (hP : Keeps P) (calls : List Call)
    {s : EventStream} {events : List ParsedEvent} (h : P events s) :
    ∃ found tail t, (s.run calls).1 = handedOut found ++ tail ∧ P (events ++ found) t ∧
      t.Leaves tail (s.run calls).2 := by
  induction calls generalizing s events with
  | nil => exact ⟨[], [], s, rfl, by rwa [List.append_nil], .waiting⟩
  | cons call calls ih =>
    cases call with
    | literalUntil name => exact ih (hP.literalUntil name h)
    | next =>
      have hresponds := responds_next s
      cases hnext : s.next with
      | mk answer next =>
        rw [hnext] at hresponds
        simp only [run, hnext]
        cases hresponds with
        | @event u event queue hu hq =>
          have hkept : P events u := by
            rcases hu with rfl | ⟨hempty, hloads⟩
            · exact h
            · exact hP.loads h hempty hloads
          obtain ⟨found, tail, t, hanswers, ht, hleaves⟩ := ih (hP.deliver hkept hq)
          refine ⟨_ :: found, tail, t, congrArg _ hanswers, ?_, hleaves⟩
          rwa [List.append_assoc] at ht
        | ended hdone hempty =>
          obtain ⟨⟨n, hn⟩, hstage, hqueue, hlast⟩ := run_done hP.literalUntil calls hdone hempty h
          refine ⟨[], .ok none :: _, _, rfl, by rwa [List.append_nil], ?_⟩
          rw [hn, ← List.replicate_succ]
          exact .ended hstage hqueue
        | @failed e tokens hempty hfails =>
          obtain ⟨⟨n, hn⟩, hstage, hqueue, hlast⟩ := run_done (P := fun t => t.warnings = s.warnings)
            (fun _ ht => ht) calls (s := { s with tokens, stage := .done, queue := [] }) rfl rfl rfl
          refine ⟨[], .error e :: _, s, rfl, by rwa [List.append_nil], ?_⟩
          rw [hn]
          exact .failed hempty hfails hstage hqueue hlast

theorem Kept.literalUntil {P : List ParsedEvent → EventStream → Prop} (hP : Kept P)
    {events : List ParsedEvent} {s : EventStream} (h : P events s) (name : Bytes) :
    P events (s.literalUntil name) := by
  obtain ⟨mode, heq⟩ := s.literalUntil_eq name
  rw [heq]
  exact hP.mode mode h

theorem Kept.keeps {P : List ParsedEvent → EventStream → Prop} (hP : Kept P) :
    Keeps fun events s => s.Alive ∧ P events s where
  literalUntil := fun name h => ⟨h.1.literalUntil name, hP.literalUntil h.2 name⟩
  loads := fun h hq hloads =>
    ⟨h.1.fills (hloads.fills h.1), hP.fills h.2 hq (hloads.fills h.1)⟩
  deliver := fun h hq => ⟨h.1, hP.deliver h.2 hq⟩

/-- What calls keep holds of the stream after any run, or of the stream as it was before the first
error. Either way nothing is queued but what the final stream has queued. -/
theorem run_kept {P : List ParsedEvent → EventStream → Prop} (hP : Kept P) (calls : List Call)
    {s : EventStream} {events : List ParsedEvent} (hs : s.Alive) (h : P events s) :
    ∃ t, P (events ++ delivered (s.run calls).1) t ∧ t.queue = (s.run calls).2.queue ∧
      ((∀ e, .error e ∉ (s.run calls).1) →
        t = (s.run calls).2 ∧ (.ok none ∈ (s.run calls).1 → t.stage = .done ∧ t.queue = [])) := by
  obtain ⟨found, tail, t, hanswers, ⟨-, ht⟩, hleaves⟩ := run_keeps hP.keeps calls ⟨hs, h⟩
  have hfound : delivered (s.run calls).1 = found := by
    rw [hanswers, delivered_handedOut, hleaves.delivered, List.append_nil]
  rw [hfound, hanswers]
  refine ⟨t, ht, ?_⟩
  generalize (s.run calls).2 = last at hleaves
  cases hleaves with
  | waiting =>
    refine ⟨rfl, fun _ => ⟨rfl, fun hnone => ?_⟩⟩
    simp [handedOut] at hnone
  | ended hdone hempty => exact ⟨rfl, fun _ => ⟨rfl, fun _ => ⟨hdone, hempty⟩⟩⟩
  | failed hempty _ _ hqueue =>
    refine ⟨hempty.trans hqueue.symm, fun hno => ?_⟩
    exact absurd (List.mem_append_right _ List.mem_cons_self) (hno _)

end EventStream

end MarkupStream
