import MarkupStream.Event.Sink
import MarkupStream.Proofs.RawText

/-!
Pushing events to a handler comes to the same as pulling them. The handler and the stream take turns: an
event, then the answer to it. A caller that pulls the events, and asks for literal text wherever the handler
did, gets what the handler was shown. The answer to the end of an open tag finds nothing queued, so it
concerns the next token and no event that has been made already.
-/

namespace MarkupStream

theorem Nesting.isOpenEnd_iff {event : Event} :
    isOpenEnd event ↔ ∃ span name, event = .element .openEnd span name := by
  unfold isOpenEnd
  split <;> simp_all

/-- What a handler was shown of which document, and what it answered. -/
structure Turn where
  input : Bytes
  parsed : ParsedEvent
  answer : Except String Directive

namespace Turn

/-- The answer neither stops nor fails. -/
def GoesOn (turn : Turn) : Prop := ∃ directive, turn.answer = .ok directive ∧ directive ≠ .stop

/-- The literal text that the answer asks for, which only the end of an open tag can. -/
def literal? (turn : Turn) : Option Bytes :=
  match turn.answer with
  | .ok (.literalUntil name) =>
    if Nesting.isOpenEnd turn.parsed.event then some (Bytes.ofString name) else none
  | _ => none

theorem openEnd_of_literal? {turn : Turn} (h : turn.literal? ≠ none) :
    ∃ span name, turn.parsed.event = .element .openEnd span name := by
  unfold literal? at h
  split at h
  · split at h
    · rename_i hopen
      exact Nesting.isOpenEnd_iff.1 hopen
    · exact absurd rfl h
  · exact absurd rfl h

/-- The calls of someone who pulls the event and then does as the answer says. -/
def calls (turn : Turn) : List EventStream.Call :=
  .next :: turn.literal?.toList.map .literalUntil

end Turn

/-- The handler with a record of its turns. -/
def Handler.recorded (handler : Handler σ) : Handler (σ × List Turn) :=
  fun (state, turns) input parsed =>
    let (answer, state) := handler state input parsed
    (answer, state, turns ++ [⟨input, parsed, answer⟩])

namespace EventStream

/-- What a reading comes to, by the last turn and the stream that is left after it. -/
inductive Concludes (s : EventStream) : Option Turn → Except ParseError Summary → Prop
  | refused {turn : Turn} {message : String} : turn.answer = .error message →
      Concludes s (some turn) (.error (.handler message))
  | stopped {turn : Turn} : turn.answer = .ok .stop → Concludes s (some turn) (.ok (s.summary true))
  | failed {last : Option Turn} {e : ParseError} {t : EventStream} :
      (∀ turn ∈ last, turn.GoesOn) → s.next = (.error e, t) → Concludes s last (.error e)
  | ended {last : Option Turn} {t : EventStream} :
      (∀ turn ∈ last, turn.GoesOn) → s.next = (.ok none, t) → Concludes s last (.ok (t.summary false))

/-- How a handler is served with events from a stream: its turns, and what it all comes to. -/
inductive Serves (handler : Handler σ) :
    EventStream → σ → List Turn → Except ParseError Summary × σ → Prop
  | failed {s t : EventStream} {state : σ} {e : ParseError} : s.next = (.error e, t) →
      Serves handler s state [] (.error e, state)
  | ended {s t : EventStream} {state : σ} : s.next = (.ok none, t) →
      Serves handler s state [] (.ok (t.summary false), state)
  | refused {s t : EventStream} {state last : σ} {parsed : ParsedEvent} {message : String} :
      s.next = (.ok (some parsed), t) → handler state t.input parsed = (.error message, last) →
      Serves handler s state [⟨t.input, parsed, .error message⟩] (.error (.handler message), last)
  | stopped {s t : EventStream} {state last : σ} {parsed : ParsedEvent} :
      s.next = (.ok (some parsed), t) → handler state t.input parsed = (.ok .stop, last) →
      Serves handler s state [⟨t.input, parsed, .ok .stop⟩] (.ok (t.summary true), last)
  | goesOn {s t u : EventStream} {state next : σ} {parsed : ParsedEvent} {directive : Directive}
      {turns : List Turn} {outcome : Except ParseError Summary × σ} :
      s.next = (.ok (some parsed), t) → handler state t.input parsed = (.ok directive, next) →
      t.follow parsed.event directive = some u → Serves handler u next turns outcome →
      Serves handler s state (⟨t.input, parsed, .ok directive⟩ :: turns) outcome

section Push

variable {handler : Handler σ} {state last : σ} {s t u : EventStream} {parsed : ParsedEvent}

theorem push_of_error {e : ParseError} (h : s.next = (.error e, t)) :
    s.push handler state = (.error e, state) := by
  rw [push]
  split <;> simp_all

theorem push_of_none (h : s.next = (.ok none, t)) :
    s.push handler state = (.ok (t.summary false), state) := by
  rw [push]
  split <;> simp_all

theorem push_of_refused {message : String} (h : s.next = (.ok (some parsed), t))
    (hanswer : handler state t.input parsed = (.error message, last)) :
    s.push handler state = (.error (.handler message), last) := by
  rw [push]
  split <;> simp_all

theorem push_of_follow {directive : Directive} (h : s.next = (.ok (some parsed), t))
    (hanswer : handler state t.input parsed = (.ok directive, last)) :
    s.push handler state =
      match t.follow parsed.event directive with
      | none => (.ok (t.summary true), last)
      | some next => next.push handler last := by
  rw [push]
  split
  · simp_all
  · simp_all
  · rename_i heq
    obtain ⟨hevent, rfl⟩ := Prod.mk.inj (h.symm.trans heq)
    obtain rfl := Option.some.inj (Except.ok.inj hevent)
    rw [hanswer]
    dsimp only
    split <;> simp_all

theorem follow_literalUntil (s : EventStream) (event : Event) (name : String) :
    s.follow event (.literalUntil name) =
      some (if Nesting.isOpenEnd event then s.literalUntil (Bytes.ofString name) else s) := by
  unfold follow
  dsimp only
  split
  · rfl
  · rename_i hnot
    rw [if_neg]
    intro hopen
    obtain ⟨span, name, rfl⟩ := Nesting.isOpenEnd_iff.1 hopen
    exact hnot span name rfl

theorem follow_eq_none {event : Event} {directive : Directive}
    (h : t.follow event directive = none) : directive = .stop := by
  cases directive with
  | stop => rfl
  | proceed => cases h
  | literalUntil name =>
    rw [follow_literalUntil] at h
    cases h

/-- Every handler is served. -/
theorem exists_serves (handler : Handler σ) (s : EventStream) (state : σ) :
    ∃ turns outcome, Serves handler s state turns outcome := by
  -- By the recursion of the push: each event leaves the stream nearer to the end.
  cases hnext : s.next with
  | mk answer t =>
    match answer with
    | .error e => exact ⟨[], _, .failed hnext⟩
    | .ok none => exact ⟨[], _, .ended hnext⟩
    | .ok (some parsed) =>
      cases hanswer : handler state t.input parsed with
      | mk answer next =>
        match answer with
        | .error message => exact ⟨_, _, .refused hnext hanswer⟩
        | .ok directive =>
          cases hfollow : t.follow parsed.event directive with
          | none =>
            obtain rfl := follow_eq_none hfollow
            exact ⟨_, _, .stopped hnext hanswer⟩
          | some u =>
            obtain ⟨turns, outcome, h⟩ := exists_serves handler u next
            exact ⟨_, outcome, .goesOn hnext hanswer hfollow h⟩
termination_by s.remaining
decreasing_by
  rw [remaining_follow hfollow]
  exact nearer_next hnext

variable {turns : List Turn} {outcome : Except ParseError Summary × σ}

/-- What serving comes to is what pushing comes to. -/
theorem Serves.push_eq (h : Serves handler s state turns outcome) :
    s.push handler state = outcome := by
  induction h with
  | failed hnext => exact push_of_error hnext
  | ended hnext => exact push_of_none hnext
  | refused hnext hanswer => exact push_of_refused hnext hanswer
  | stopped hnext hanswer =>
    rw [push_of_follow hnext hanswer]
    rfl
  | goesOn hnext hanswer hfollow _ ih =>
    rw [push_of_follow hnext hanswer, hfollow]
    exact ih

/-- A record is kept of the turns as they are, and changes nothing. -/
theorem Serves.recorded (h : Serves handler s state turns outcome) (before : List Turn) :
    Serves handler.recorded s (state, before) turns (outcome.1, outcome.2, before ++ turns) := by
  induction h generalizing before with
  | failed hnext =>
    rw [List.append_nil]
    exact .failed hnext
  | ended hnext =>
    rw [List.append_nil]
    exact .ended hnext
  | refused hnext hanswer => exact .refused hnext (by rw [Handler.recorded, hanswer])
  | stopped hnext hanswer => exact .stopped hnext (by rw [Handler.recorded, hanswer])
  | goesOn hnext hanswer hfollow _ ih =>
    rw [List.append_cons]
    exact .goesOn hnext (by rw [Handler.recorded, hanswer]) hfollow (ih _)

/-- A push of so many events at most, which can be evaluated. -/
def pushWithin : Nat → EventStream → Handler σ → σ → Option (Except ParseError Summary × σ)
  | 0, _, _, _ => none
  | count + 1, s, handler, state =>
    match s.next with
    | (.error e, _) => some (.error e, state)
    | (.ok none, t) => some (.ok (t.summary false), state)
    | (.ok (some parsed), t) =>
      match handler state t.input parsed with
      | (.error message, state) => some (.error (.handler message), state)
      | (.ok directive, state) =>
        match t.follow parsed.event directive with
        | none => some (.ok (t.summary true), state)
        | some next => next.pushWithin count handler state

theorem push_of_pushWithin {count : Nat} (h : s.pushWithin count handler state = some outcome) :
    s.push handler state = outcome := by
  induction count generalizing s state with
  | zero => cases h
  | succ count ih =>
    rw [pushWithin] at h
    split at h
    · rename_i hnext
      rw [push_of_error hnext, Option.some.inj h]
    · rename_i hnext
      rw [push_of_none hnext, Option.some.inj h]
    · rename_i hnext
      split at h
      · rename_i hanswer
        rw [push_of_refused hnext hanswer, Option.some.inj h]
      · rename_i hanswer
        rw [push_of_follow hnext hanswer]
        split at h
        · exact Option.some.inj h
        · exact ih h

end Push

section Pull

variable {handler : Handler σ} {state : σ} {s t u : EventStream} {turns : List Turn}
  {outcome : Except ParseError Summary × σ}

/-- What is called after an event does what the stream does after the answer. -/
theorem run_of_follow {input : Bytes} {parsed : ParsedEvent} {directive : Directive}
    (h : t.follow parsed.event directive = some u) (calls : List Call) :
    t.run ((Turn.literal? ⟨input, parsed, .ok directive⟩).toList.map .literalUntil ++ calls) =
      u.run calls := by
  cases directive with
  | stop => cases h
  | proceed =>
    obtain rfl := Option.some.inj h
    rfl
  | literalUntil name =>
    rw [follow_literalUntil] at h
    obtain rfl := Option.some.inj h
    rw [Turn.literal?]
    dsimp only
    split <;> rfl

theorem run_calls (s : EventStream) (turn : Turn) (calls : List Call) :
    s.run (turn.calls ++ calls) =
      (s.next.1 :: (s.next.2.run (turn.literal?.toList.map .literalUntil ++ calls)).1,
        (s.next.2.run (turn.literal?.toList.map .literalUntil ++ calls)).2) := rfl

theorem run_calls_of_follow {parsed : ParsedEvent} {directive : Directive}
    (hnext : s.next = (.ok (some parsed), t)) (hfollow : t.follow parsed.event directive = some u)
    (calls : List Call) :
    s.run (Turn.calls ⟨t.input, parsed, .ok directive⟩ ++ calls) =
      (.ok (some parsed) :: (u.run calls).1, (u.run calls).2) := by
  rw [run_calls, hnext, run_of_follow hfollow]

theorem run_next {parsed : ParsedEvent} (hnext : s.next = (.ok (some parsed), t)) :
    s.run [.next] = ([.ok (some parsed)], t) := by
  simp only [run, hnext]

/-- A last turn that asks for nothing is one call. -/
theorem run_last {turn : Turn} (hnext : s.next = (.ok (some turn.parsed), t))
    (hliteral : turn.literal? = none) :
    s.run ([turn].flatMap Turn.calls) = ([.ok (some turn.parsed)], t) := by
  have hcalls : [turn].flatMap Turn.calls = [.next] := by simp [Turn.calls, hliteral]
  rw [hcalls, run_next hnext]

theorem Concludes.cons {last : Option Turn} {result : Except ParseError Summary}
    (h : s.Concludes last result) {turn : Turn} (hturn : turn.GoesOn) :
    s.Concludes (some (last.getD turn)) result := by
  cases h with
  | refused hanswer => exact .refused hanswer
  | stopped hanswer => exact .stopped hanswer
  | failed hlast hnext => exact .failed (by cases last <;> simp_all) hnext
  | ended hlast hnext => exact .ended (by cases last <;> simp_all) hnext

/-- Who pulls as the turns say gets the events that they show. All turns but the last go on, and the last
answer and the stream that is left tell what it all comes to. -/
theorem Serves.pulled (h : Serves handler s state turns outcome) :
    (s.run (turns.flatMap Turn.calls)).1 = handedOut (turns.map (·.parsed)) ∧
      (∀ turn ∈ turns.dropLast, turn.GoesOn) ∧
      (s.run (turns.flatMap Turn.calls)).2.Concludes turns.getLast? outcome.1 := by
  induction h with
  | failed hnext => exact ⟨rfl, by simp, .failed (by simp) hnext⟩
  | ended hnext => exact ⟨rfl, by simp, .ended (by simp) hnext⟩
  | refused hnext =>
    rw [run_last hnext rfl]
    exact ⟨rfl, by simp, .refused rfl⟩
  | stopped hnext =>
    rw [run_last hnext rfl]
    exact ⟨rfl, by simp, .stopped rfl⟩
  | @goesOn s t u _ _ parsed directive turns _ hnext _ hfollow _ ih =>
    obtain ⟨hevents, hgoesOn, hconcludes⟩ := ih
    have hturn : Turn.GoesOn ⟨t.input, parsed, .ok directive⟩ :=
      ⟨directive, rfl, by rintro rfl; cases hfollow⟩
    rw [List.flatMap_cons, run_calls_of_follow hnext hfollow]
    refine ⟨congrArg _ hevents, ?_, ?_⟩
    · intro turn hmem
      cases turns with
      | nil => cases hmem
      | cons first more =>
        rcases List.mem_cons.1 hmem with rfl | hmem
        · exact hturn
        · exact hgoesOn turn hmem
    · rw [List.getLast?_cons]
      exact hconcludes.cons hturn

end Pull

section Timing

/-- Where the end of an open tag is queued, it is queued last, and the next token begins right behind it. -/
def OpensLast (s : EventStream) : Prop :=
  ∀ before span name after, s.queue = before ++ .element .openEnd span name :: after →
    after = [] ∧ s.stage = .running ∧ s.tokens.offset = span.stop

/-- What holds of a stream that any answers may be given to. -/
structure KeepsPace (input : Bytes) (settings : Settings) (s : EventStream) : Prop where
  alive : s.Alive
  reads : s.Reads input settings
  reaches : (Cursor.start input).Reaches s.tokens.cursor
  opens : s.OpensLast

variable {input : Bytes} {settings : Settings} {s t u : EventStream}

theorem opensLast_of_no_openEnd (h : ∀ event ∈ s.queue, ¬ Nesting.isOpenEnd event) :
    s.OpensLast := by
  intro before span name after hqueue
  refine absurd rfl (h (.element .openEnd span name) ?_)
  rw [hqueue]
  exact List.mem_append_right _ List.mem_cons_self

theorem keepsPace_ofInput (input : Bytes) (settings : Settings) :
    (ofInput input settings).KeepsPace input settings where
  alive := alive_ofInput input settings
  reads := reads_ofInput input settings
  reaches := Cursor.Reaches.refl _
  opens := opensLast_of_no_openEnd fun _ hmem => absurd hmem List.not_mem_nil

theorem KeepsPace.mode (h : s.KeepsPace input settings) {mode : TokenStream.Mode} (hm : mode ≠ .done) :
    KeepsPace input settings { s with tokens := { s.tokens with mode } } :=
  ⟨fun _ => hm, h.reads.mode mode, h.reaches, h.opens⟩

theorem KeepsPace.literalUntil (h : s.KeepsPace input settings) (name : Bytes) :
    (s.literalUntil name).KeepsPace input settings := by
  rw [EventStream.literalUntil, TokenStream.literalUntil]
  split
  · exact h
  · exact h.mode (by simp)

theorem KeepsPace.follow (h : s.KeepsPace input settings) {event : Event} {directive : Directive}
    (hfollow : s.follow event directive = some t) : t.KeepsPace input settings := by
  cases directive with
  | stop => cases hfollow
  | proceed =>
    obtain rfl := Option.some.inj hfollow
    exact h
  | literalUntil name =>
    rw [follow_literalUntil] at hfollow
    obtain rfl := Option.some.inj hfollow
    split
    · exact h.literalUntil _
    · exact h

theorem opensLast_of_fills (hfills : s.Fills t) : t.OpensLast := by
  cases hfills with
  | start =>
    apply opensLast_of_no_openEnd
    intro event hmem
    rw [List.mem_singleton.1 hmem]
    exact Bool.false_ne_true
  | @token token next parts found step hs htiled hparts haccepts =>
    rcases haccepts.events_openEnd with hnone | ⟨tag, front, rfl, hfront, hnot, -, -⟩
    · exact opensLast_of_no_openEnd hnone
    · intro before span name after hevents
      obtain ⟨hafter, heq⟩ := Nesting.eq_nil_of_concat (p := fun event => Nesting.isOpenEnd event)
        (hfront.symm.trans hevents) hnot rfl
      obtain ⟨-, hspan, -⟩ := Event.element.inj heq
      subst hspan
      exact ⟨hafter, hs, htiled.stop_close.symm⟩
  | finish hs hend hfinishes =>
    apply opensLast_of_no_openEnd
    intro event hmem
    rcases List.mem_append.1 hmem with hmem | hmem
    · cases hfinishes with
      | still => cases hmem
      | implied => exact Nesting.not_isOpenEnd_autoCloseEvents _ _ event hmem
    · rw [List.mem_singleton.1 hmem]
      exact Bool.false_ne_true

theorem KeepsPace.fills (h : s.KeepsPace input settings) (hfills : s.Fills t) :
    t.KeepsPace input settings := by
  refine ⟨h.alive.fills hfills, h.reads.fills hfills, ?_, opensLast_of_fills hfills⟩
  cases hfills with
  | start => exact h.reaches
  | token _ htiled => exact h.reaches.trans htiled.1
  | finish => exact h.reaches

theorem passes_keepsPace : Passes (KeepsPace input settings) where
  loads := fun h hloads => h.fills (hloads.fills h.alive)
  deliver := fun h hq => ⟨h.alive, h.reads.deliver _ _, h.reaches, fun before span name after hqueue =>
    h.opens (_ :: before) span name after (by rw [hq]; exact congrArg _ hqueue)⟩

/-- Behind the end of an open tag nothing is queued. -/
theorem KeepsPace.next_openEnd (h : s.KeepsPace input settings) {parsed : ParsedEvent}
    (hnext : s.next = (.ok (some parsed), t)) {span name : Span}
    (hevent : parsed.event = .element .openEnd span name) :
    t.queue = [] ∧ t.stage = .running ∧ t.tokens.offset = span.stop := by
  obtain ⟨u, queue, hu, hq, rfl⟩ := passes_keepsPace.exists_queued h hnext
  rw [hevent] at hq
  obtain ⟨rfl, hs, hoffset⟩ := hu.opens [] span name queue hq
  exact ⟨rfl, hs, hoffset⟩

theorem eventCount_next {parsed : ParsedEvent} (hnext : s.next = (.ok (some parsed), t)) :
    t.eventCount = s.eventCount + 1 := by
  have hresponds := responds_next s
  rw [hnext] at hresponds
  cases hresponds with
  | event hu =>
    rcases hu with rfl | ⟨-, hloads⟩
    · rfl
    · cases hloads <;> rfl

theorem eq_of_next_eq_none (hnext : s.next = (.ok none, t)) : t = s := by
  have hresponds := responds_next s
  rw [hnext] at hresponds
  cases hresponds with
  | ended => rfl

theorem eventCount_follow {event : Event} {directive : Directive}
    (hfollow : s.follow event directive = some t) : t.eventCount = s.eventCount := by
  cases directive with
  | stop => cases hfollow
  | proceed =>
    obtain rfl := Option.some.inj hfollow
    rfl
  | literalUntil name =>
    rw [follow_literalUntil] at hfollow
    obtain rfl := Option.some.inj hfollow
    split <;> rfl

variable {handler : Handler σ} {state : σ} {turns before after : List Turn} {turn : Turn}
  {outcome : Except ParseError Summary × σ}

/-- As many events are counted as there are turns. -/
theorem Serves.eventCount (h : Serves handler s state turns outcome) :
    ∀ summary, outcome.1 = .ok summary → summary.eventCount = s.eventCount + turns.length := by
  induction h with
  | failed | refused => nofun
  | ended hnext =>
    rintro summary heq
    obtain rfl := Except.ok.inj heq
    rw [eq_of_next_eq_none hnext]
    rfl
  | stopped hnext =>
    rintro summary heq
    obtain rfl := Except.ok.inj heq
    exact eventCount_next hnext
  | goesOn hnext _ hfollow _ ih =>
    intro summary heq
    rw [ih summary heq, eventCount_follow hfollow, eventCount_next hnext, List.length_cons]
    omega

/-- At each turn stands a stream that has been pulled as far as the turns before say, and a state that the
handler's own answers have led to. -/
theorem Serves.exists_turn {Q : σ → Prop}
    (hQ : ∀ state input parsed, Q state → Q (handler state input parsed).2)
    (h : Serves handler s state (before ++ turn :: after) outcome)
    (hs : s.KeepsPace input settings) (hstate : Q state) :
    ∃ t state', t.KeepsPace input settings ∧ Q state' ∧ (s.run (before.flatMap Turn.calls)).2 = t ∧
      Serves handler t state' (turn :: after) outcome := by
  induction before generalizing s state with
  | nil => exact ⟨s, state, hs, hstate, rfl, h⟩
  | cons first before ih =>
    generalize hturns : first :: before ++ turn :: after = turns at h
    cases h with
    | failed | ended => cases hturns
    | refused | stopped => simp at hturns
    | @goesOn _ middle _ _ next parsed _ _ _ hnext hanswer hfollow hserves =>
      obtain ⟨rfl, rfl⟩ := List.cons.inj hturns
      have hmiddle := hQ state middle.input parsed hstate
      rw [hanswer] at hmiddle
      obtain ⟨t, state', ht, hstate', hrun, hrest⟩ :=
        ih hserves ((passes_keepsPace.next hs hnext).follow hfollow) hmiddle
      refine ⟨t, state', ht, hstate', ?_, hrest⟩
      rw [List.flatMap_cons, run_calls_of_follow hnext hfollow]
      exact hrun

/-- A turn begins with a call for its event. -/
theorem Serves.next_eq (h : Serves handler s state (turn :: after) outcome) :
    ∃ t, s.next = (.ok (some turn.parsed), t) ∧ turn.input = t.input ∧
      (handler state turn.input turn.parsed).1 = turn.answer := by
  cases h with
  | refused hnext hanswer | stopped hnext hanswer | goesOn hnext hanswer =>
    exact ⟨_, hnext, rfl, congrArg Prod.fst hanswer⟩

theorem run_append (s : EventStream) (calls more : List Call) :
    (s.run (calls ++ more)).2 = ((s.run calls).2.run more).2 := by
  induction calls generalizing s with
  | nil => rfl
  | cons call calls ih =>
    cases call with
    | next => exact ih _
    | literalUntil name => exact ih _

end Timing

/-- Pushing is pulling, for every document and every handler. To record its turns changes nothing about a
handler. The events it is shown are those of someone who pulls them and asks for literal text right after
each end of an open tag that the handler answers so, when nothing is queued any more. All its answers but
the last go on. A refusal is the error of the reading, and a stop its end, at as many events as there were
turns, whatever is left of the document; otherwise the stream is read to its end or to its own error. -/
theorem push_eq_pull (input : Bytes) (settings : Settings) (handler : Handler σ) (state : σ) :
    ∃ result last turns,
      parse input settings handler state = (result, last) ∧
      parse input settings handler.recorded (state, []) = (result, last, turns) ∧
      (∀ turn ∈ turns, turn.input = input) ∧
      (∀ turn ∈ turns.dropLast, turn.GoesOn) ∧
      (let pulled := (ofInput input settings).run (turns.flatMap Turn.calls)
       pulled.1 = handedOut (turns.map (·.parsed)) ∧ pulled.2.Concludes turns.getLast? result) ∧
      (∀ summary, result = .ok summary → summary.eventCount = turns.length) ∧
      ∀ before turn after, turns = before ++ turn :: after → turn.literal? ≠ none →
        ((ofInput input settings).run (before.flatMap Turn.calls ++ [.next])).2.queue = [] := by
  have hstart := keepsPace_ofInput input settings
  obtain ⟨turns, ⟨result, last⟩, h⟩ := exists_serves handler (ofInput input settings) state
  obtain ⟨hevents, hgoesOn, hconcludes⟩ := h.pulled
  refine ⟨result, last, turns, h.push_eq, (h.recorded []).push_eq, ?_, hgoesOn,
    ⟨hevents, hconcludes⟩, ?_, ?_⟩
  · intro turn hmem
    obtain ⟨before, after, rfl⟩ := List.mem_iff_append.1 hmem
    obtain ⟨s, state', hs, -, -, hserves⟩ :=
      h.exists_turn (Q := fun _ => True) (fun _ _ _ _ => trivial) hstart trivial
    obtain ⟨t, hnext, hinput, -⟩ := hserves.next_eq
    rw [hinput]
    exact (passes_keepsPace.next hs hnext).reads.tokens_input
  · intro summary heq
    rw [h.eventCount summary heq]
    exact Nat.zero_add _
  · rintro before turn after rfl hliteral
    obtain ⟨s, state', hs, -, hrun, hserves⟩ :=
      h.exists_turn (Q := fun _ => True) (fun _ _ _ _ => trivial) hstart trivial
    obtain ⟨t, hnext, -, -⟩ := hserves.next_eq
    obtain ⟨span, name, hevent⟩ := Turn.openEnd_of_literal? hliteral
    rw [run_append, hrun, run_next hnext]
    exact (hs.next_openEnd hnext hevent).1

end EventStream

end MarkupStream
