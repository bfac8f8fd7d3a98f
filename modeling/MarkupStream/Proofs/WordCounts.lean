import MarkupStream.Proofs.Lockstep

/-!
Counts in words. A frame counts the children that pass the test of a slot, and a pool counts the open elements
of a selector. A child is an element or another node, each of which comes from a token of its own, and a token
takes a byte. So nothing is counted more often than a document that may be read has bytes, and words hold
every count.
-/
namespace MarkupStream

open Selector

/-- Whether the event is that of a child: an element that starts, or a node of another kind. -/
def Event.isChild (event : Event) : Bool := event.isElementStart || event.isNode

namespace Event

@[simp] theorem isChild_element (edge : ElementEdge) (span name : Span) :
    (element edge span name).isChild = edge.isStart := Bool.or_false _

@[simp] theorem isChild_ofPart (part : TagPart) : (ofPart part).isChild = false := by
  cases part <;> rfl

end Event

namespace Nesting

theorem countP_autoCloseEvents (offset : Nat) (frames : List Frame) :
    (autoCloseEvents offset frames).countP Event.isChild = 0 := by
  rw [List.countP_eq_zero]
  intro event hevent
  obtain ⟨frame, -, hevent⟩ := List.mem_flatMap.1 hevent
  simp only [List.mem_cons, List.not_mem_nil, or_false] at hevent
  rcases hevent with rfl | rfl <;> exact Bool.false_ne_true

theorem countP_openEvents_le (tag : OpenTag) (first : ElementEdge) {last : ElementEdge} (hlast : ¬ last.isStart) :
    (openEvents tag first last).countP Event.isChild ≤ 1 := by
  have hbehind : (tag.parts.map Event.ofPart ++ [Event.element last tag.close tag.name]).countP
      Event.isChild = 0 := by
    rw [List.countP_eq_zero, List.forall_mem_append, List.forall_mem_map, List.forall_mem_singleton]
    exact ⟨by simp, by rwa [Event.isChild_element]⟩
  rw [openEvents, List.countP_cons, hbehind]
  split <;> omega

theorem countP_closeEvents (tag : CloseTag) (first last : ElementEdge) (hfirst : ¬ first.isStart)
    (hlast : ¬ last.isStart) : (closeEvents tag first last).countP Event.isChild = 0 := by
  rw [List.countP_eq_zero, closeEvents, List.forall_mem_cons, List.forall_mem_append, List.forall_mem_map,
    List.forall_mem_singleton, Event.isChild_element, Event.isChild_element]
  exact ⟨hfirst, fun _ _ => Bool.false_ne_true, hlast⟩

variable {n : Nesting} {locate : Nat → Position} {step : Step}

/-- A token is the child of at most one element. -/
theorem Accepts.countP_isChild_le {token : Token} (h : n.Accepts locate token step) :
    step.events.countP Event.isChild ≤ 1 := by
  cases h with
  | node => exact List.countP_le_length
  | standalone tag | opened tag =>
    rw [List.countP_append, countP_autoCloseEvents, Nat.zero_add]
    exact countP_openEvents_le tag _ Bool.false_ne_true
  | closed tag =>
    rw [closeMatched, List.countP_append, countP_autoCloseEvents,
      countP_closeEvents tag .closeStart .closeEnd Bool.false_ne_true Bool.false_ne_true]
    exact Nat.zero_le _
  | unmatched tag =>
    rw [closeUnmatched,
      countP_closeEvents tag .unmatchedStart .unmatchedEnd Bool.false_ne_true Bool.false_ne_true]
    exact Nat.zero_le _

theorem Finishes.countP_isChild (h : n.Finishes locate step) : step.events.countP Event.isChild = 0 := by
  cases h with
  | still => rfl
  | implied => exact countP_autoCloseEvents _ _

end Nesting

namespace Selector.Evaluation

/-- No frame has counted more than a number of children for any slot. -/
def CountsAtMost (bound : Nat) (e : Evaluation) : Prop :=
  ∀ frame ∈ e.frames, ∀ count ∈ frame.counters, count ≤ bound

variable {e t : Evaluation} {event : Event} {bound : Nat}

theorem countsAtMost_ofSelectors (selectors : List Selector) : (ofSelectors selectors).CountsAtMost 0 := by
  simp [CountsAtMost, ofSelectors, frames, frameOf, emptyCell]

theorem CountsAtMost.mono {more : Nat} (h : e.CountsAtMost bound) (hle : bound ≤ more) : e.CountsAtMost more :=
  fun frame hframe count hcount => Nat.le_trans (h frame hframe count hcount) hle

/-- A child is counted once for a slot. -/
theorem count_counted_le (slot : Slot) (accepts : Slot → Bool) (cell : Cell) :
    (slot.counted accepts cell).count ≤ cell.count + 1 := by
  rw [Slot.counted]
  split
  · exact Nat.le_refl _
  · exact Nat.le_succ _

theorem count_present_le {accepts : Slot → Bool} {atRoot : Bool} (slots : List Slot) {cells : List Cell}
    (previous : Cell) (h : ∀ cell ∈ cells, cell.count ≤ bound) :
    ∀ pair ∈ present accepts atRoot previous slots cells, pair.1.count ≤ bound + 1 := by
  induction slots generalizing cells previous with
  | nil => exact List.forall_mem_nil _
  | cons slot slots ih =>
    cases cells with
    | nil => exact List.forall_mem_nil _
    | cons cell cells =>
      obtain ⟨hcell, hcells⟩ := List.forall_mem_cons.1 h
      rw [present_cons, List.forall_mem_cons]
      exact ⟨Nat.le_trans (count_counted_le slot accepts cell) (Nat.succ_le_succ hcell), ih cell hcells⟩

theorem CountsAtMost.withParentCells (h : e.CountsAtMost bound) (accepts : Slot → Bool) :
    (e.withParentCells ((e.verdicts accepts).map (·.1))).CountsAtMost (bound + 1) := by
  obtain ⟨outer, selects, -, hframes, hwith⟩ := e.frames_parent
  have hcounts := h
  rw [CountsAtMost, hframes, List.forall_mem_append, List.forall_mem_singleton] at hcounts
  obtain ⟨houter, hparent⟩ := hcounts
  have hcells : ∀ cell ∈ e.parentCells, cell.count ≤ bound := List.forall_mem_map.1 hparent
  have hverdicts : ∀ pair ∈ e.verdicts accepts, pair.1.count ≤ bound + 1 :=
    count_present_le e.slots emptyCell hcells
  rw [CountsAtMost, hwith, List.forall_mem_append, List.forall_mem_singleton]
  refine ⟨fun frame hframe count hcount => Nat.le_succ_of_le (houter frame hframe count hcount), ?_⟩
  exact List.forall_mem_map.2 (List.forall_mem_map.2 hverdicts)

/-- What one event adds to the counts. -/
theorem CountsAtMost.turns (h : e.CountsAtMost bound) (hturns : e.Turns event t) :
    t.CountsAtMost (bound + [event].countP Event.isChild) := by
  have hchild : event.isChild → [event].countP Event.isChild = 1 := fun hevent => by
    rw [List.countP_singleton, if_pos hevent]
  cases hturns with
  | entered name attributes hstart =>
    have hparent := h.withParentCells (·.acceptsElement name attributes)
    rw [hchild (Bool.or_eq_true_iff.2 (.inl hstart)), CountsAtMost, enter, frames_inner, List.forall_mem_append,
      List.forall_mem_singleton]
    refine ⟨hparent, List.forall_mem_map.2 (List.forall_mem_map.2 fun _ _ => Nat.zero_le _)⟩
  | left =>
    refine CountsAtMost.mono ?_ (Nat.le_add_right _ _)
    obtain ⟨slots, document, scopes, active⟩ := e
    cases scopes with
    | nil => exact h
    | cons scope outer =>
      rw [CountsAtMost, frames_inner ⟨slots, document, outer, active⟩ scope active, List.forall_mem_append] at h
      exact h.1
  | visited accepts hnode =>
    rw [hchild (Bool.or_eq_true_iff.2 (.inr hnode))]
    exact h.withParentCells accepts
  | passed => exact h.mono (Nat.le_add_right _ _)

theorem CountsAtMost.observe (h : e.CountsAtMost bound) (event : Event) (parts : List TagPart) (input : Bytes) :
    (e.observe event parts input).2.CountsAtMost (bound + [event].countP Event.isChild) := by
  by_cases hempty : e.isEmpty
  · unfold Evaluation.observe
    rw [if_pos hempty]
    exact h.mono (Nat.le_add_right _ _)
  · exact h.turns (turns_observe hempty event parts input)

/-- A selector is counted for no more than the elements that are open. -/
theorem Sound.active_le (h : e.Sound) : ∀ count ∈ e.active, count ≤ e.scopes.length := by
  rw [h.active, List.forall_mem_map]
  exact fun _ _ => List.countP_le_length

end Selector.Evaluation

namespace EventStream

open Evaluation

variable {events : List ParsedEvent} {s t : EventStream}

/-- The children among events that have been handed out. -/
def children (events : List ParsedEvent) : Nat := (events.map (·.event)).countP Event.isChild

theorem children_append (events more : List ParsedEvent) :
    children (events ++ more) = children events + children more := by
  rw [children, List.map_append, List.countP_append]
  rfl

/-- An open element is a child that has started. -/
theorem netDepth_le_children (events : List ParsedEvent) : netDepth (events.map (·.event)) ≤ children events := by
  have hstarts : (events.map (·.event)).countP Event.isElementStart ≤ children events :=
    List.countP_mono_left fun event _ hstart => Bool.or_eq_true_iff.2 (.inl hstart)
  rw [netDepth]
  omega

/-- The counts of a stream are no greater than the number of children so far. Each child, handed out or still
queued, has taken a byte of a document that may be read. -/
structure Counted (events : List ParsedEvent) (s : EventStream) : Prop where
  counts : s.evaluation.CountsAtMost (children events)
  admitted : s.stage = .running → s.input.length ≤ Span.maxInputLength
  paid : s.stage ≠ .done →
    children events + s.queue.countP Event.isChild + s.tokens.cursor.rest.length ≤ s.input.length
  fits : children events + s.queue.countP Event.isChild ≤ Span.maxInputLength

theorem counted_ofInput (input : Bytes) (settings : Settings) : Counted [] (ofInput input settings) where
  counts := countsAtMost_ofSelectors settings.selectors
  admitted := nofun
  paid := fun _ => Nat.le_of_eq (Nat.zero_add _)
  fits := Nat.zero_le _

theorem Counted.loads (h : Counted events s) (hq : s.queue = []) (hloads : s.Loads t) : Counted events t := by
  have hpaid := h.paid
  have hfits := h.fits
  rw [hq, List.countP_nil, Nat.add_zero] at hpaid hfits
  cases hloads with
  | start hs hlength =>
    exact ⟨h.counts, fun _ => hlength, fun _ => hpaid (by simp [hs]), hfits⟩
  | @token token tokens step hs htokens hstep =>
    have hchildren := (Nesting.accepts_accept hstep).countP_isChild_le
    have hless := TokenStream.length_next_lt htokens
    have hbefore := hpaid (by simp [hs])
    have hlength := h.admitted hs
    obtain ⟨next, parts, warnings, rfl, -⟩ := (TokenStream.outcome_of_next htokens).token
    have hafter : children events + step.events.countP Event.isChild + next.rest.length ≤ s.input.length := by
      dsimp only at hless
      omega
    exact ⟨h.counts, fun _ => hlength, fun _ => hafter, Nat.le_trans (Nat.le_of_add_right_le hafter) hlength⟩
  | @finish tokens step hs htokens hstep =>
    have hqueue : (s.loadEnd step).queue.countP Event.isChild = 0 := by
      rw [loadEnd, List.countP_append, (Nesting.finishes_finish hstep).countP_isChild]
      rfl
    refine ⟨h.counts, fun hstart => Stage.noConfusion hstart, fun hdone => absurd rfl hdone, ?_⟩
    rw [hqueue]
    exact hfits

theorem Counted.deliver (h : Counted events s) {event : Event} {queue : List Event}
    (hq : s.queue = event :: queue) :
    Counted (events ++ [(EventStream.deliver { s with queue } event).1])
      (EventStream.deliver { s with queue } event).2 := by
  have hchildren : children (events ++ [(EventStream.deliver { s with queue } event).1]) =
      children events + [event].countP Event.isChild := children_append _ _
  have hqueue : children events + s.queue.countP Event.isChild =
      children events + [event].countP Event.isChild + queue.countP Event.isChild := by
    rw [hq, ← List.singleton_append, List.countP_append, Nat.add_assoc]
  have hpaid := h.paid
  have hfits := h.fits
  rw [hqueue] at hpaid hfits
  refine ⟨?_, h.admitted, ?_, ?_⟩
  all_goals rw [hchildren]
  · exact h.counts.observe event s.tokens.parts s.input
  · exact hpaid
  · exact hfits

theorem Counted.next (h : Counted events s) : Counted (events ++ delivered [s.next.1]) s.next.2 := by
  have hresponds := responds_next s
  generalize s.next = result at hresponds
  cases hresponds with
  | @event u event queue hu hq =>
    rcases hu with rfl | ⟨hqueue, hloads⟩
    · exact h.deliver hq
    · exact (h.loads hqueue hloads).deliver hq
  | ended =>
    change Counted (events ++ []) s
    rwa [List.append_nil]
  | @failed e tokens hqueue =>
    change Counted (events ++ []) _
    have hfits := h.fits
    rw [hqueue] at hfits
    rw [List.append_nil]
    exact ⟨h.counts, nofun, fun hdone => absurd rfl hdone, hfits⟩

theorem Counted.run (h : Counted events s) (calls : List Call) :
    Counted (events ++ delivered (s.run calls).1) (s.run calls).2 := by
  induction calls generalizing events s with
  | nil =>
    rw [EventStream.run, delivered, List.append_nil]
    exact h
  | cons call calls ih =>
    cases call with
    | literalUntil name =>
      obtain ⟨mode, heq⟩ := s.literalUntil_eq name
      rw [EventStream.run, heq]
      exact ih ⟨h.counts, h.admitted, h.paid, h.fits⟩
    | next =>
      have hrest := ih h.next
      rwa [List.append_assoc, ← delivered_append] at hrest

/-- Words hold every count. Whatever calls are made on the stream of a document, in no live frame of the pool that
goes along with it, and for no selector, is there ever a count that a word of 32 bits does not hold. The frames
that wait are emptied before anything is counted in them. -/
theorem words_hold_counts (input : Bytes) (settings : Settings) (hselectors : settings.selectors ≠ [])
    (calls : List Call) :
    ∃ p, (ofInput input settings).runPooled (FramePool.ofSelectors settings.selectors) calls =
        .ok (((ofInput input settings).run calls).1, ((ofInput input settings).run calls).2, p) ∧
      (∀ frame ∈ p.live, ∀ count ∈ frame.counters, count < UInt32.size) ∧
      ∀ count ∈ p.active, count < UInt32.size := by
  obtain ⟨waiting, hrun, hpaced⟩ := exists_runPooled input settings hselectors calls
  have hcounted := (counted_ofInput input settings).run calls
  have hfits := hcounted.fits
  have hmax : Span.maxInputLength < UInt32.size := by decide
  refine ⟨_, hrun, ?_, fun count hcount => ?_⟩
  · rw [live_pooled]
    intro frame hframe count hcount
    have hcount := hcounted.counts frame hframe count hcount
    omega
  · have hopen := hpaced.sound.active_le count hcount
    have hdepth := hpaced.depth
    have hstarts := netDepth_le_children (delivered ((ofInput input settings).run calls).1)
    rw [List.nil_append] at hfits
    omega

end EventStream

end MarkupStream
