import Mathlib.Order.Bounds.Defs
import MarkupStream.Proofs.Dialogue

/-!
Depths. The depth after some events is the number of elements that they start less those that they end, and
a stream reports the greatest one. Its nesting is a token ahead of the events handed out, so a report could
come too early; it does not, since a token that raises the depth either begins with the start of its element
or first closes an element by implication, and then it goes no deeper than it was.
-/
namespace MarkupStream

/-- The elements that events start, less those that they end. -/
def netDepth (events : List Event) : Int :=
  events.countP Event.isElementStart - events.countP Event.isElementEnd

/-- The greatest depth on the way through events, from depth zero. -/
def peakDepth : List Event → Int
  | [] => 0
  | event :: rest => max 0 (netDepth [event] + peakDepth rest)

/-- The depths that are met on the way through events, at the beginning and after each of them. -/
def depthsOf (events : List Event) : Set Int :=
  {depth | ∃ front, front <+: events ∧ depth = netDepth front}

section Depths

@[simp] theorem netDepth_nil : netDepth [] = 0 := rfl

theorem netDepth_append (first second : List Event) :
    netDepth (first ++ second) = netDepth first + netDepth second := by
  simp only [netDepth, List.countP_append]
  omega

theorem netDepth_cons (event : Event) (rest : List Event) :
    netDepth (event :: rest) = netDepth [event] + netDepth rest := netDepth_append [event] rest

/-- The edge of a tag counts for the element that it starts or ends. -/
theorem netDepth_edge (edge : ElementEdge) (span name : Span) :
    netDepth [.element edge span name] = (edge.isStart.toNat : Int) - edge.isEnd.toNat := by
  cases edge <;> rfl

@[simp] theorem peakDepth_nil : peakDepth [] = 0 := rfl

theorem peakDepth_cons (event : Event) (rest : List Event) :
    peakDepth (event :: rest) = max 0 (netDepth [event] + peakDepth rest) := rfl

theorem peakDepth_nonneg (events : List Event) : 0 ≤ peakDepth events := by
  cases events with
  | nil => exact Int.le_refl 0
  | cons event rest =>
    rw [peakDepth_cons]
    omega

theorem peakDepth_append (first second : List Event) :
    peakDepth (first ++ second) = max (peakDepth first) (netDepth first + peakDepth second) := by
  induction first with
  | nil =>
    have hsecond := peakDepth_nonneg second
    rw [List.nil_append, peakDepth_nil, netDepth_nil]
    omega
  | cons event rest ih =>
    rw [List.cons_append, peakDepth_cons, peakDepth_cons, ih, netDepth_cons event rest]
    omega

theorem netDepth_le_peakDepth (events : List Event) : netDepth events ≤ peakDepth events := by
  have happend := peakDepth_append events []
  rw [List.append_nil, peakDepth_nil] at happend
  omega

theorem peakDepth_le_append (first second : List Event) :
    peakDepth first ≤ peakDepth (first ++ second) := by
  rw [peakDepth_append]
  omega

/-- The greatest depth is met, and no other depth is greater. -/
theorem isGreatest_peakDepth (events : List Event) :
    IsGreatest (depthsOf events) (peakDepth events) := by
  constructor
  · induction events with
    | nil => exact ⟨[], List.nil_prefix, rfl⟩
    | cons event rest ih =>
      obtain ⟨front, hfront, hdepth⟩ := ih
      by_cases hzero : netDepth [event] + peakDepth rest ≤ 0
      · refine ⟨[], List.nil_prefix, ?_⟩
        rw [peakDepth_cons, netDepth_nil]
        omega
      · refine ⟨event :: front, List.cons_prefix_cons.2 ⟨rfl, hfront⟩, ?_⟩
        rw [peakDepth_cons, netDepth_cons event front, hdepth]
        omega
  · rintro depth ⟨front, ⟨back, rfl⟩, rfl⟩
    exact Int.le_trans (netDepth_le_peakDepth front) (peakDepth_le_append front back)

/-- The event neither starts an element nor ends one. -/
def Event.IsLevel (event : Event) : Prop := ¬ event.isElementStart ∧ ¬ event.isElementEnd

theorem netDepth_of_level {events : List Event} (h : ∀ event ∈ events, event.IsLevel) :
    netDepth events = 0 := by
  have hstart : events.countP Event.isElementStart = 0 :=
    List.countP_eq_zero.2 fun event hmem => (h event hmem).1
  have hend : events.countP Event.isElementEnd = 0 :=
    List.countP_eq_zero.2 fun event hmem => (h event hmem).2
  rw [netDepth, hstart, hend]
  rfl

theorem peakDepth_of_level {events : List Event} (h : ∀ event ∈ events, event.IsLevel) :
    peakDepth events = 0 := by
  induction events with
  | nil => rfl
  | cons event rest ih =>
    have hevent : netDepth [event] = 0 := netDepth_of_level fun other hmem => by
      rw [List.mem_singleton.1 hmem]
      exact h event List.mem_cons_self
    rw [peakDepth_cons, hevent, ih fun other hmem => h other (List.mem_cons_of_mem _ hmem)]
    rfl

theorem isLevel_parts (parts : List TagPart) : ∀ event ∈ parts.map Event.ofPart, event.IsLevel :=
  Event.forall_mem_parts (fun _ => ⟨Bool.false_ne_true, Bool.false_ne_true⟩)
    (fun _ => ⟨Bool.false_ne_true, Bool.false_ne_true⟩) parts

theorem isLevel_whitespace (whitespace : Option Span) :
    ∀ event ∈ whitespace.toList.map Event.innerWhitespace, event.IsLevel :=
  Event.forall_mem_whitespace (fun _ => ⟨Bool.false_ne_true, Bool.false_ne_true⟩) whitespace

/-- Between the two edges of a tag the depth stays what it is. -/
theorem netDepth_tag {first last : Event} {inside : List Event}
    (h : ∀ event ∈ inside, event.IsLevel) :
    netDepth (first :: (inside ++ [last])) = netDepth [first] + netDepth [last] := by
  rw [netDepth_cons, netDepth_append, netDepth_of_level h, Int.zero_add]

theorem peakDepth_tag {first last : Event} {inside : List Event}
    (h : ∀ event ∈ inside, event.IsLevel) :
    peakDepth (first :: (inside ++ [last])) = max 0 (netDepth [first] + max 0 (netDepth [last])) := by
  rw [peakDepth_cons, peakDepth_append, netDepth_of_level h, peakDepth_of_level h, peakDepth_cons,
    peakDepth_nil]
  omega

end Depths

namespace Nesting

theorem netDepth_autoCloseEvents (offset : Nat) (frames : List Frame) :
    netDepth (autoCloseEvents offset frames) = -frames.length := by
  induction frames with
  | nil => rfl
  | cons frame outer ih =>
    have hfirst : netDepth [.element .autoCloseStart (Span.empty offset) frame.span,
        .element .autoCloseEnd (Span.empty offset) frame.span] = -1 := rfl
    rw [autoCloseEvents, List.flatMap_cons, netDepth_append, hfirst, ← autoCloseEvents, ih,
      List.length_cons]
    omega

theorem peakDepth_autoCloseEvents (offset : Nat) (frames : List Frame) :
    peakDepth (autoCloseEvents offset frames) = 0 := by
  induction frames with
  | nil => rfl
  | cons frame outer ih =>
    have hfirst : netDepth [.element .autoCloseStart (Span.empty offset) frame.span,
        .element .autoCloseEnd (Span.empty offset) frame.span] = -1 := rfl
    have hpeak : peakDepth [.element .autoCloseStart (Span.empty offset) frame.span,
        .element .autoCloseEnd (Span.empty offset) frame.span] = 0 := rfl
    rw [autoCloseEvents, List.flatMap_cons, peakDepth_append, hfirst, hpeak, ← autoCloseEvents, ih]
    rfl

/-- How events take a nesting from one to another: they lead from the old depth to the new one, and the
greatest depth of the new one is met on the way or before, at the first event if not before. -/
structure Climbs (n : Nesting) (events : List Event) (m : Nesting) : Prop where
  net : n.depth + netDepth events = m.depth
  peak : max (n.maxDepth : Int) (n.depth + peakDepth events) = m.maxDepth
  first : max (n.maxDepth : Int) (n.depth + peakDepth (events.take 1)) = m.maxDepth

/-- Events that go no deeper leave the greatest depth as it is. -/
theorem climbs_of_peak {n m : Nesting} {events : List Event} (hle : n.depth ≤ n.maxDepth)
    (hnet : n.depth + netDepth events = m.depth) (hpeak : peakDepth events = 0)
    (hmax : m.maxDepth = n.maxDepth) : n.Climbs events m := by
  have hfirst : peakDepth (events.take 1) = 0 := by
    have hprefix := peakDepth_le_append (events.take 1) (events.drop 1)
    rw [List.take_append_drop, hpeak] at hprefix
    have hnonneg := peakDepth_nonneg (events.take 1)
    omega
  refine ⟨hnet, ?_, ?_⟩
  · rw [hpeak, hmax]
    omega
  · rw [hfirst, hmax]
    omega

/-- Another event may follow if it neither starts an element nor ends one. -/
theorem Climbs.concat {n m : Nesting} {events : List Event} (h : n.Climbs events m) {last : Event}
    (hlast : last.IsLevel) : n.Climbs (events ++ [last]) m := by
  have hlevel : ∀ event ∈ [last], event.IsLevel := fun event hmem => by
    rw [List.mem_singleton.1 hmem]
    exact hlast
  have hle := netDepth_le_peakDepth events
  refine ⟨?_, ?_, ?_⟩
  · rw [netDepth_append, netDepth_of_level hlevel, Int.add_zero]
    exact h.net
  · have hpeak := h.peak
    rw [peakDepth_append, peakDepth_of_level hlevel]
    omega
  · cases events with
    | nil =>
      have hfirst := h.first
      rw [List.take_nil, peakDepth_nil, ← peakDepth_of_level hlevel] at hfirst
      exact hfirst
    | cons first rest => exact h.first

/-- The closes that an open tag implies and then the tag itself, whose first edge starts an element. -/
theorem climbs_openEvents {n m : Nesting} (hle : n.depth ≤ n.maxDepth) (tag : OpenTag) {count : Nat}
    (first last : ElementEdge) (hfirst : netDepth [.element first tag.start tag.name] = 1)
    (hlast : ¬ last.isStart)
    (hdepth : m.depth + last.isEnd.toNat = (n.stack.drop count).length + 1)
    (hmax : m.maxDepth = max n.maxDepth ((n.stack.drop count).length + 1)) :
    n.Climbs (autoCloseEvents tag.start.start (n.stack.take count) ++ openEvents tag first last) m := by
  have hend : netDepth [.element last tag.close tag.name] = -last.isEnd.toNat := by
    rw [netDepth_edge, Bool.eq_false_iff.2 hlast, Bool.toNat_false]
    omega
  have hnet : netDepth (openEvents tag first last) = 1 - last.isEnd.toNat := by
    rw [openEvents, netDepth_tag (isLevel_parts tag.parts), hfirst, hend]
    omega
  have hpeak : peakDepth (openEvents tag first last) = 1 := by
    rw [openEvents, peakDepth_tag (isLevel_parts tag.parts), hfirst, hend]
    omega
  have hlength : (n.stack.take count).length + (n.stack.drop count).length = n.depth := by
    rw [← List.length_append, List.take_append_drop, depth]
  refine ⟨?_, ?_, ?_⟩
  · rw [netDepth_append, netDepth_autoCloseEvents, hnet]
    omega
  · rw [peakDepth_append, netDepth_autoCloseEvents, peakDepth_autoCloseEvents, hpeak, hmax]
    omega
  · cases hinner : n.stack.take count with
    | nil =>
      have hstart : (autoCloseEvents tag.start.start [] ++ openEvents tag first last).take 1 =
          [.element first tag.start tag.name] := rfl
      rw [hinner, List.length_nil] at hlength
      rw [hstart, peakDepth_cons, peakDepth_nil, hfirst, hmax]
      omega
    | cons frame more =>
      have hstart : peakDepth ((autoCloseEvents tag.start.start (frame :: more) ++
          openEvents tag first last).take 1) = 0 := rfl
      rw [hinner, List.length_cons] at hlength
      rw [hstart, hmax]
      omega

/-- Only the last edge of a close tag counts. -/
theorem netDepth_closeEvents (tag : CloseTag) (first last : ElementEdge)
    (hfirst : netDepth [.element first tag.start tag.name] = 0) :
    netDepth (closeEvents tag first last) = netDepth [.element last tag.close tag.name] := by
  rw [closeEvents, netDepth_tag (isLevel_whitespace tag.whitespace), hfirst, Int.zero_add]

theorem peakDepth_closeEvents (tag : CloseTag) (first last : ElementEdge)
    (hfirst : netDepth [.element first tag.start tag.name] = 0)
    (hlast : netDepth [.element last tag.close tag.name] ≤ 0) :
    peakDepth (closeEvents tag first last) = 0 := by
  rw [closeEvents, peakDepth_tag (isLevel_whitespace tag.whitespace), hfirst]
  omega

theorem Accepts.climbs {n : Nesting} {locate : Nat → Position} {token : Token} {step : Step}
    (h : n.Accepts locate token step) (hle : n.depth ≤ n.maxDepth) :
    n.Climbs step.events step.nesting := by
  cases h with
  | @node token event hevent =>
    have hlevel : ∀ other ∈ [event], other.IsLevel := by
      intro other hmem
      rw [List.mem_singleton.1 hmem]
      cases token <;> cases hevent <;> exact ⟨Bool.false_ne_true, Bool.false_ne_true⟩
    refine climbs_of_peak hle ?_ (peakDepth_of_level hlevel) rfl
    rw [netDepth_of_level hlevel, Int.add_zero]
  | standalone tag =>
    exact climbs_openEvents hle tag .standaloneStart (.standaloneEnd tag.selfClosing) rfl
      Bool.false_ne_true rfl rfl
  | opened tag => exact climbs_openEvents hle tag .openStart .openEnd rfl Bool.false_ne_true rfl rfl
  | @closed tag count hcount =>
    have hlt := innerCount?_lt hcount
    have hend : netDepth [.element .closeEnd tag.close tag.name] = -1 := rfl
    refine climbs_of_peak hle ?_ ?_ rfl
    · rw [closeMatched, netDepth_append, netDepth_autoCloseEvents,
        netDepth_closeEvents tag .closeStart .closeEnd rfl, hend, depth, depth, List.length_take,
        List.length_drop]
      omega
    · rw [closeMatched, peakDepth_append, peakDepth_autoCloseEvents, netDepth_autoCloseEvents,
        peakDepth_closeEvents tag .closeStart .closeEnd rfl (by rw [hend]; decide)]
      omega
  | unmatched tag =>
    have hpeak := peakDepth_closeEvents tag .unmatchedStart .unmatchedEnd rfl (Int.le_refl 0)
    refine climbs_of_peak hle ?_ hpeak rfl
    rw [closeUnmatched, netDepth_closeEvents tag .unmatchedStart .unmatchedEnd rfl]
    exact Int.add_zero _

theorem Finishes.climbs {n : Nesting} {locate : Nat → Position} {step : Step}
    (h : n.Finishes locate step) (hle : n.depth ≤ n.maxDepth) : n.Climbs step.events step.nesting := by
  cases h with
  | still => exact climbs_of_peak hle (Int.add_zero _) rfl rfl
  | implied =>
    refine climbs_of_peak hle ?_ (peakDepth_autoCloseEvents _ _) rfl
    rw [netDepth_autoCloseEvents]
    exact Int.add_right_neg _

end Nesting

namespace EventStream

open Nesting

/-- The depths of a stream are those of its events. The greatest depth is that of the events handed out, and
no queued event goes deeper. -/
structure Measured (events : List ParsedEvent) (s : EventStream) : Prop where
  net : netDepth (known events s) = s.depth
  peak : peakDepth (known events s) = s.maxDepth
  seen : peakDepth (events.map (·.event)) = s.maxDepth

theorem measured_ofInput (input : Bytes) (settings : Settings) :
    Measured [] (ofInput input settings) := ⟨rfl, rfl, rfl⟩

/-- The next event to be handed out has been accounted for, and so have all that are queued. -/
structure Accounts (events : List ParsedEvent) (s : EventStream) : Prop where
  net : netDepth (known events s) = s.depth
  peak : peakDepth (known events s) = s.maxDepth
  first : peakDepth (events.map (·.event) ++ s.queue.take 1) = s.maxDepth

variable {events : List ParsedEvent} {s t : EventStream}

theorem Measured.depth_le (h : Measured events s) : s.depth ≤ s.maxDepth := by
  have hle := netDepth_le_peakDepth (known events s)
  rw [h.net, h.peak] at hle
  omega

theorem Measured.accounts (h : Measured events s) : Accounts events s := by
  refine ⟨h.net, h.peak, ?_⟩
  -- Between the events handed out and all events known.
  have hlow := peakDepth_le_append (events.map (·.event)) (s.queue.take 1)
  have hhigh := peakDepth_le_append (events.map (·.event) ++ s.queue.take 1) (s.queue.drop 1)
  rw [List.append_assoc, List.take_append_drop, ← known, h.peak] at hhigh
  rw [h.seen] at hlow
  omega

/-- What climbs from the nesting of a stream may be queued. -/
theorem Measured.accounts_of_climbs (h : Measured events s) (hq : s.queue = [])
    (hclimbs : s.nesting.Climbs t.queue t.nesting) : Accounts events t := by
  have hnet := h.net
  have hseen := h.seen
  rw [known_of_queue_nil hq] at hnet
  have hdepth : netDepth (events.map (·.event)) = s.nesting.depth := hnet
  have hmax : peakDepth (events.map (·.event)) = s.nesting.maxDepth := hseen
  refine ⟨?_, ?_, ?_⟩
  · rw [known, netDepth_append, hdepth]
    exact hclimbs.net
  · rw [known, peakDepth_append, hdepth, hmax]
    exact hclimbs.peak
  · rw [peakDepth_append, hdepth, hmax]
    exact hclimbs.first

theorem Measured.loads (h : Measured events s) (hq : s.queue = []) (hloads : s.Loads t) :
    Accounts events t := by
  apply h.accounts_of_climbs hq
  cases hloads with
  | start => exact climbs_of_peak h.depth_le (Int.add_zero _) rfl rfl
  | token _ _ hstep => exact (accepts_accept hstep).climbs h.depth_le
  | finish _ _ hstep =>
    exact ((finishes_finish hstep).climbs h.depth_le).concat ⟨Bool.false_ne_true, Bool.false_ne_true⟩

theorem Accounts.deliver (h : Accounts events s) {event : Event} {queue : List Event}
    (hq : s.queue = event :: queue) :
    Measured (events ++ [(EventStream.deliver { s with queue } event).1])
      (EventStream.deliver { s with queue } event).2 := by
  refine ⟨?_, ?_, ?_⟩
  · rw [known_deliver hq]
    exact h.net
  · rw [known_deliver hq]
    exact h.peak
  · have hfirst := h.first
    rw [hq] at hfirst
    rw [List.map_append]
    exact hfirst

/-- One call keeps the measure, whatever is answered. -/
theorem Measured.next (h : Measured events s) :
    Measured (events ++ delivered [s.next.1]) s.next.2 := by
  have hresponds := responds_next s
  generalize s.next = result at hresponds
  cases hresponds with
  | @event u event queue hu hq =>
    have haccounts : Accounts events u := by
      rcases hu with rfl | ⟨hempty, hloads⟩
      · exact h.accounts
      · exact h.loads hempty hloads
    exact haccounts.deliver hq
  | ended =>
    change Measured (events ++ []) s
    rwa [List.append_nil]
  | @failed e tokens hempty =>
    have hknown : known events s = known events { s with tokens, stage := .done, queue := [] } := by
      rw [known_of_queue_nil hempty, known_of_queue_nil rfl]
    change Measured (events ++ []) _
    rw [List.append_nil]
    exact ⟨hknown ▸ h.net, hknown ▸ h.peak, h.seen⟩

/-- So do any calls. -/
theorem Measured.run (h : Measured events s) (calls : List Call) :
    Measured (events ++ delivered (s.run calls).1) (s.run calls).2 := by
  induction calls generalizing events s with
  | nil =>
    rw [EventStream.run, delivered, List.append_nil]
    exact h
  | cons call calls ih =>
    cases call with
    | literalUntil name => exact ih ⟨h.net, h.peak, h.seen⟩
    | next =>
      have hrest := ih h.next
      rwa [List.append_assoc, ← delivered_append] at hrest

/-- After any calls, whatever they were answered, the greatest depth is that of the events handed out. -/
theorem isGreatest_maxDepth (input : Bytes) (settings : Settings) (calls : List Call) :
    IsGreatest (depthsOf ((delivered ((ofInput input settings).run calls).1).map (·.event)))
      ((ofInput input settings).run calls).2.maxDepth := by
  have hmeasured := (measured_ofInput input settings).run calls
  rw [List.nil_append] at hmeasured
  rw [← hmeasured.seen]
  exact isGreatest_peakDepth _

theorem Concludes.maxDepth_eq {s : EventStream} {last : Option Turn} {summary : Summary}
    (h : s.Concludes last (.ok summary)) : summary.maxDepth = s.maxDepth := by
  cases h with
  | stopped => rfl
  | ended _ hnext =>
    rw [eq_of_next_eq_none hnext]
    rfl

/-- The greatest depth of a stream is exact at every pull. Whatever was called so far, and although the
events of a token are made all at once, it is the maximum over all prefixes of the events handed out of the
elements started less those ended. Hence so is the greatest depth in the summary of a push, for the events
that the handler was shown, wherever it stopped. -/
theorem maxDepth_exact (input : Bytes) (settings : Settings) :
    (∀ calls, let run := (ofInput input settings).run calls
      IsGreatest (depthsOf ((delivered run.1).map (·.event))) run.2.maxDepth) ∧
    ∀ {σ : Type} (handler : Handler σ) (state : σ) (summary : Summary) (last : σ),
      parse input settings handler state = (.ok summary, last) →
      ∃ turns, parse input settings handler.recorded (state, []) = (.ok summary, last, turns) ∧
        IsGreatest (depthsOf (turns.map (·.parsed.event))) summary.maxDepth := by
  refine ⟨isGreatest_maxDepth input settings, ?_⟩
  intro σ handler state summary last hparse
  obtain ⟨turns, outcome, hserves⟩ := exists_serves handler (ofInput input settings) state
  obtain rfl := hserves.push_eq.symm.trans hparse
  refine ⟨turns, (hserves.recorded []).push_eq, ?_⟩
  obtain ⟨hanswers, -, hconcludes⟩ := hserves.pulled
  have hgreatest := isGreatest_maxDepth input settings (turns.flatMap Turn.calls)
  have hdelivered := delivered_handedOut (turns.map (·.parsed)) []
  rw [List.append_nil, delivered, List.append_nil] at hdelivered
  rw [hanswers, hdelivered, List.map_map, ← hconcludes.maxDepth_eq] at hgreatest
  exact hgreatest

end EventStream

end MarkupStream
