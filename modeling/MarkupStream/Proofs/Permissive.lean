import MarkupStream.Proofs.Layout
import MarkupStream.Proofs.RoundTrip

/-!
Permissive reading. In HTML every document is read to its end: what is no markup is text, and only a
policy that requires balance can object, to a close tag without its element or to an element without its
close tag. The events are counted against a potential, which pays in advance for every byte still to be
read and for every element still to be closed.
-/
namespace MarkupStream

/-- An error that says that tags do not balance. -/
def ParseError.IsImbalance : ParseError → Prop
  | .unbalancedClose _ _ | .unclosedElements _ _ => True
  | _ => False

namespace TokenStream

/-- In HTML no step fails. -/
theorem next_ne_error {s t : TokenStream} {e : ParseError} (hd : s.dialect = .html) :
    s.next ≠ (.error e, t) := by
  intro h
  cases outcome_of_error h with
  | duplicate hstrict | refused hstrict | unended hstrict =>
    rw [hd] at hstrict
    cases hstrict

theorem length_pieces_next {s t : TokenStream} {token : Token}
    (h : s.next = (.ok (some token), t)) :
    token.pieces.length + t.cursor.rest.length ≤ s.cursor.rest.length + 2 := by
  have hlength := length_next_lt h
  have hc : s.cursor.rest ≠ [] := by
    intro hnil
    rw [hnil] at hlength
    exact absurd hlength (Nat.not_lt_zero _)
  cases outcome_of_next h with
  | text =>
    simp only [Token.pieces, List.length_cons, List.length_nil] at hlength ⊢
    omega
  | node hread | opened hread | repeated _ hread => exact Token.length_pieces_le hc hread

end TokenStream

namespace Nesting

@[simp] theorem length_autoCloseEvents (offset : Nat) (frames : List Frame) :
    (autoCloseEvents offset frames).length = 2 * frames.length := by
  induction frames with
  | nil => rfl
  | cons frame outer ih =>
    simp only [autoCloseEvents, List.flatMap_cons, List.length_append, List.length_cons,
      List.length_nil] at ih ⊢
    omega

theorem length_openEvents (tag : OpenTag) (first last : ElementEdge) :
    (openEvents tag first last).length = (Token.openTag tag).pieces.length := by
  rw [← tiles_openEvents tag first last, List.length_map]

theorem length_closeEvents (tag : CloseTag) (first last : ElementEdge) :
    (closeEvents tag first last).length = (Token.closeTag tag).pieces.length := by
  rw [← tiles_closeEvents tag first last, List.length_map]

/-- A token has an event for each of its pieces, two for each element that it closes by implication, and
opens one element at most. -/
theorem Accepts.length_events_le {n : Nesting} {locate : Nat → Position} {token : Token} {step : Step}
    (h : n.Accepts locate token step) :
    step.events.length + 2 * step.nesting.stack.length ≤
      token.pieces.length + 2 * n.stack.length + 2 := by
  cases h with
  | node hevent =>
    rw [(Event.ofToken?_eq_some hevent).2]
    simp
  | standalone tag | opened tag =>
    simp only [List.length_append, length_autoCloseEvents, length_openEvents, List.length_take,
      List.length_drop, List.length_cons]
    omega
  | closed tag =>
    simp only [closeMatched, List.length_append, length_autoCloseEvents, length_closeEvents,
      List.length_take, List.length_drop]
    omega
  | unmatched tag =>
    simp only [closeUnmatched, length_closeEvents]
    omega

end Nesting

namespace EventStream

/-- What the events still to be handed out are counted against. A byte pays for its own event and for
those of an element that it opens. -/
def potential (s : EventStream) : Nat :=
  s.stage.rank + 5 * s.tokens.cursor.rest.length + 2 * s.nesting.stack.length + s.queue.length

theorem Loads.potential_le {s t : EventStream} (h : s.Loads t) (hq : s.queue = []) :
    t.potential ≤ s.potential := by
  cases h with
  | start hs =>
    simp only [potential, hs, hq, Stage.rank, List.length_cons, List.length_nil]
    omega
  | token hs htokens hstep =>
    have hpieces := TokenStream.length_pieces_next htokens
    have hlength := TokenStream.length_next_lt htokens
    have hevents := (Nesting.accepts_accept hstep).length_events_le
    simp only [potential, loadToken, hq, List.length_nil]
    omega
  | finish hs htokens hstep =>
    simp only [potential, loadEnd, hs, hq, Stage.rank, List.length_append, List.length_cons,
      List.length_nil]
    cases Nesting.finishes_finish hstep with
    | still =>
      simp only [List.length_nil]
      omega
    | implied =>
      simp only [Nesting.length_autoCloseEvents, List.length_nil]
      omega

/-- The events so far have been paid for, and the last one known of a stream that is done is the end of
the document. -/
structure Progresses (input : Bytes) (settings : Settings) (events : List ParsedEvent)
    (s : EventStream) : Prop where
  alive : s.Alive
  reads : s.Reads input settings
  paid : events.length + s.potential ≤ 5 * input.length + 2
  done : s.stage = .done → (known events s).getLast? = some (.documentEnd input.length)

theorem progresses_ofInput (input : Bytes) (settings : Settings) :
    Progresses input settings [] (ofInput input settings) where
  alive := alive_ofInput input settings
  reads := reads_ofInput input settings
  paid := by
    simp [potential, ofInput, TokenStream.ofInput, Cursor.start, Nesting.ofInput, Stage.rank]
    omega
  done := nofun

theorem Progresses.loads {input : Bytes} {settings : Settings} {events : List ParsedEvent}
    {s t : EventStream} (h : Progresses input settings events s) (hq : s.queue = [])
    (hl : s.Loads t) : Progresses input settings events t where
  alive := h.alive.fills (hl.fills h.alive)
  reads := h.reads.fills (hl.fills h.alive)
  paid := Nat.le_trans (Nat.add_le_add_left (hl.potential_le hq) _) h.paid
  done := by
    have hinput : s.input = input := h.reads.tokens_input
    cases hl with
    | start => exact nofun
    | token hs => exact fun hdone => absurd (hs.symm.trans hdone) nofun
    | finish =>
      intro _
      rw [known, loadEnd, hinput, ← List.append_assoc, List.getLast?_concat]

theorem keeps_progresses (input : Bytes) (settings : Settings) :
    Keeps (Progresses input settings) where
  literalUntil := by
    intro events s name h
    refine ⟨h.alive.literalUntil name, ?_, ?_, h.done⟩
    · obtain ⟨mode, heq⟩ := s.literalUntil_eq name
      rw [heq]
      exact h.reads.mode mode
    · have hpotential : (s.literalUntil name).potential = s.potential := by
        simp [potential, literalUntil]
      rw [hpotential]
      exact h.paid
  loads := Progresses.loads
  deliver := by
    intro events s event queue h hq
    refine ⟨h.alive, h.reads.deliver queue event, ?_, ?_⟩
    · have hpaid := h.paid
      simp only [potential, hq, List.length_cons] at hpaid
      simp only [potential, deliver, List.length_append, List.length_cons, List.length_nil,
        TokenStream.moveTo]
      omega
    · rw [known_deliver hq]
      exact h.done

/-- A stream that reads HTML can fail for want of balance only. -/
theorem Reads.isImbalance {input : Bytes} {policy : Policy} {selectors : List Selector}
    {s : EventStream} {e : ParseError} (hlength : input.length ≤ Span.maxInputLength)
    (h : s.Reads input ⟨.html, policy, selectors⟩) (hfails : s.Fails e) :
    policy = .requireBalanced ∧ e.IsImbalance := by
  cases hfails with
  | tooLarge _ hlong =>
    have hinput : s.input = input := h.tokens_input
    rw [hinput] at hlong
    exact absurd hlength (Nat.not_le_of_lt hlong)
  | scan _ htokens => exact absurd htokens (TokenStream.next_ne_error h.tokens_dialect)
  | token _ _ hstep =>
    obtain ⟨hpolicy, tag, -, rfl⟩ := Nesting.accept_eq_error hstep
    exact ⟨h.nesting_policy.symm.trans hpolicy, trivial⟩
  | finish _ _ hstep =>
    obtain ⟨hpolicy, rfl⟩ := Nesting.finish_eq_error hstep
    exact ⟨h.nesting_policy.symm.trans hpolicy, trivial⟩

/-- Whatever bytes an HTML document is made of and whatever calls are made on its stream, the only errors
say that tags do not balance where they must. Under any other policy the answers are events, no more than
a fixed multiple of the length allows, and after them nothing; and nothing is answered only when the end
of the document has been handed out. -/
theorem html_read_to_end (input : Bytes) (policy : Policy) (selectors : List Selector)
    (hlength : input.length ≤ Span.maxInputLength) (calls : List Call) :
    let answers := ((ofInput input ⟨.html, policy, selectors⟩).run calls).1
    (∀ e, .error e ∈ answers → policy = .requireBalanced ∧ e.IsImbalance) ∧
      (policy ≠ .requireBalanced → ∃ events ended,
        answers = handedOut events ++ List.replicate ended (.ok none) ∧
        events.length ≤ 5 * input.length + 2 ∧ events.length + ended = calls.count .next ∧
        (0 < ended → (events.map (·.event)).getLast? = some (.documentEnd input.length))) := by
  intro answers
  obtain ⟨events, tail, t, hanswers, ht, hleaves⟩ := run_keeps (keeps_progresses input _) calls
    (progresses_ofInput input ⟨.html, policy, selectors⟩)
  have hcount : events.length + tail.length = calls.count .next := by
    have hrun := length_run (ofInput input ⟨.html, policy, selectors⟩) calls
    rw [hanswers] at hrun
    simpa [handedOut] using hrun
  have hbound : events.length ≤ 5 * input.length + 2 := by
    have hpaid := ht.paid
    rw [List.nil_append] at hpaid
    omega
  have hmem : ∀ e, .error e ∈ answers → .error e ∈ tail := by
    intro e he
    rw [show answers = handedOut events ++ tail from hanswers] at he
    rcases List.mem_append.1 he with he | he
    · simp [handedOut] at he
    · exact he
  generalize ((ofInput input ⟨.html, policy, selectors⟩).run calls).2 = last at hleaves
  cases hleaves with
  | waiting =>
    refine ⟨fun e he => absurd (hmem e he) List.not_mem_nil, fun _ => ?_⟩
    exact ⟨events, 0, hanswers, hbound, hcount, fun hpos => absurd hpos (Nat.lt_irrefl 0)⟩
  | @ended n hdone hempty =>
    refine ⟨fun e he => ?_, fun _ => ?_⟩
    · cases List.eq_of_mem_replicate (hmem e he)
    · refine ⟨events, n + 1, hanswers, hbound, ?_, fun _ => ?_⟩
      · simpa using hcount
      · have hlast := ht.done hdone
        rw [known_of_queue_nil hempty] at hlast
        exact hlast
  | failed _ hfails =>
    have himbalance := ht.reads.isImbalance hlength hfails
    refine ⟨fun e he => ?_, fun hpolicy => absurd himbalance.1 hpolicy⟩
    rcases List.mem_cons.1 (hmem e he) with hfirst | hlater
    · rw [Except.error.inj hfirst]
      exact himbalance
    · cases List.eq_of_mem_replicate hlater

/-- A tag that never ends, inside it a quote that never closes, a stray comment and a close tag without
a name: all of it is text, and so is what is asked for as literal text. -/
theorem brokenTag_read_to_end :
    let input := Bytes.ofString "<p a='<!--</<?x"
    let calls : List Call := .literalUntil [0x70] :: List.replicate 90 .next
    input.length ≤ Span.maxInputLength ∧ ∃ events ended,
      ((ofInput input ⟨.html, .autoClose, []⟩).run calls).1 =
        handedOut events ++ List.replicate ended (.ok none) ∧
      events.length ≤ 5 * input.length + 2 ∧ events.length + ended = calls.count .next ∧
      (0 < ended → (events.map (·.event)).getLast? = some (.documentEnd input.length)) := by
  intro input calls
  have hlength : input.length ≤ Span.maxInputLength := by decide
  exact ⟨hlength, (html_read_to_end input .autoClose [] hlength calls).2 (by decide)⟩

end EventStream

end MarkupStream
