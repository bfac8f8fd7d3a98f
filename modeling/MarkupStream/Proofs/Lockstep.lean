import MarkupStream.Proofs.Depth
import MarkupStream.Proofs.Evaluation
import MarkupStream.Proofs.FramePool

/-!
Pools of frames in step with the nesting. The events of a document never end more elements than they have
started, so a pool that is shown them one after the other has an element to leave at every end: its depth is
that of the events handed out, its counts are those of the open elements, and the reach of each is what has
been satisfied from the document down to it. Nothing of this depends on the frames that wait.
-/
namespace MarkupStream

open Selector

section Grammar

/-- The events can be gone through from a depth without an element being ended where none is open. -/
def Bears (depth : Int) : List Event → Prop
  | [] => 0 ≤ depth
  | event :: rest => 0 ≤ depth ∧ Bears (depth + netDepth [event]) rest

theorem Bears.nonneg {depth : Int} {events : List Event} (h : Bears depth events) : 0 ≤ depth := by
  cases events with
  | nil => exact h
  | cons event rest => exact h.1

theorem bears_append {depth : Int} {first rest : List Event} (h : Bears depth first)
    (hrest : Bears (depth + netDepth first) rest) : Bears depth (first ++ rest) := by
  induction first generalizing depth with
  | nil =>
    rw [netDepth_nil, Int.add_zero] at hrest
    exact hrest
  | cons event first ih =>
    rw [netDepth_cons, ← Int.add_assoc] at hrest
    exact ⟨h.1, ih h.2 hrest⟩

theorem bears_of_level {depth : Int} {events : List Event} (h : 0 ≤ depth)
    (hlevel : ∀ event ∈ events, event.IsLevel) : Bears depth events := by
  induction events with
  | nil => exact h
  | cons event rest ih =>
    obtain ⟨hevent, hrest⟩ := List.forall_mem_cons.1 hlevel
    have hzero : netDepth [event] = 0 := netDepth_of_level (List.forall_mem_singleton.2 hevent)
    refine ⟨h, ?_⟩
    rw [hzero, Int.add_zero]
    exact ih hrest

/-- The edges of a tag are all that has to be borne of it. -/
theorem bears_tag {before after : Nat} {first last : Event} {inside : List Event} (starts ends : Int)
    (hinside : ∀ event ∈ inside, event.IsLevel) (hfirst : netDepth [first] = starts)
    (hlast : netDepth [last] = ends) (hstarts : 0 ≤ before + starts) (hends : before + starts + ends = after) :
    Bears before (first :: (inside ++ [last])) ∧ before + netDepth (first :: (inside ++ [last])) = after := by
  subst hfirst hlast
  rw [netDepth_tag hinside, ← Int.add_assoc]
  refine ⟨⟨Int.natCast_nonneg _, bears_append (bears_of_level hstarts hinside) ?_⟩, hends⟩
  rw [netDepth_of_level hinside, Int.add_zero]
  refine ⟨hstarts, ?_⟩
  rw [hends]
  exact Int.natCast_nonneg _

theorem netDepth_of_end {event : Event} (h : event.isElementEnd) : netDepth [event] = -1 := by
  cases event with
  | element edge => cases edge <;> cases h <;> rfl
  | _ => cases h

theorem netDepth_of_start {event : Event} (h : event.isElementStart) : netDepth [event] = 1 := by
  cases event with
  | element edge => cases edge <;> cases h <;> rfl
  | _ => cases h

theorem isLevel_of_isNode {event : Event} (h : event.isNode) : event.IsLevel := by
  obtain ⟨kind, hkind⟩ := Option.isSome_iff_exists.1 h
  exact isElement_of_nodeKind? hkind

variable {dialect : Dialect} {policy : Policy} {input : Bytes} {before after : List Span} {events : List Event}

/-- An item leads from the depth before it to the one after it, and it is borne. -/
theorem Item.bears (h : Item dialect policy input before events after) :
    Bears before.length events ∧ before.length + netDepth events = after.length := by
  cases h with
  | node hnode =>
    have hlevel := List.forall_mem_singleton.2 (isLevel_of_isNode hnode)
    rw [netDepth_of_level hlevel, Int.add_zero]
    exact ⟨bears_of_level (Int.natCast_nonneg _) hlevel, rfl⟩
  | opened parts => exact bears_tag 1 0 (isLevel_parts parts) rfl rfl (by omega) (by rw [List.length_cons]; omega)
  | standalone parts => exact bears_tag 1 (-1) (isLevel_parts parts) rfl rfl (by omega) (by omega)
  | closed whitespace =>
    exact bears_tag 0 (-1) (isLevel_whitespace whitespace) rfl rfl (by omega) (by rw [List.length_cons]; omega)
  | autoClosed =>
    have hnothing : ∀ event ∈ ([] : List Event), event.IsLevel := by simp
    exact bears_tag 0 (-1) hnothing rfl rfl (by omega) (by rw [List.length_cons]; omega)
  | unmatched whitespace =>
    exact bears_tag 0 0 (isLevel_whitespace whitespace) rfl rfl (by omega) (by omega)

theorem Nested.bears (h : Nested dialect policy input before events after) :
    Bears before.length events ∧ before.length + netDepth events = after.length := by
  induction h with
  | nil => exact ⟨Int.natCast_nonneg _, Int.add_zero _⟩
  | item hitem _ ih =>
    obtain ⟨hfirst, hmiddle⟩ := hitem.bears
    rw [netDepth_append, ← Int.add_assoc, hmiddle]
    refine ⟨bears_append hfirst ?_, ih.2⟩
    rw [hmiddle]
    exact ih.1

end Grammar

namespace Selector

namespace Evaluation

/-- What an event does to an evaluation that has slots. -/
inductive Turns (e : Evaluation) (event : Event) : Evaluation → Prop
  | entered (name : Bytes) (attributes : AttributeValues) : event.isElementStart →
      Turns e event (e.enter name attributes)
  | left : event.isElementEnd → Turns e event e.leave
  | visited (accepts : Slot → Bool) : event.isNode →
      Turns e event (e.withParentCells ((e.verdicts accepts).map (·.1)))
  | passed : netDepth [event] = 0 → Turns e event e

theorem turns_observe {e : Evaluation} (hempty : ¬ e.isEmpty) (event : Event) (parts : List TagPart)
    (input : Bytes) : e.Turns event (e.observe event parts input).2 := by
  unfold observe
  rw [if_neg hempty]
  cases event with
  | element edge span name =>
    dsimp only
    by_cases hstart : edge.isStart
    · rw [if_pos hstart]
      exact .entered _ _ hstart
    · rw [if_neg hstart]
      by_cases hend : edge.isEnd
      · rw [if_pos hend]
        exact .left hend
      · rw [if_neg hend]
        refine .passed ?_
        rw [netDepth_edge, Bool.eq_false_iff.2 hstart, Bool.eq_false_iff.2 hend]
        rfl
  | documentStart | documentEnd | attr | innerWhitespace => exact .passed rfl
  | text | comment | cdata | doctype | xmlDeclaration | instruction => exact .visited _ rfl

variable {e t : Evaluation} {event : Event}

theorem length_adjust (change : Nat → Nat) (selectors active : List Nat) :
    (adjust change selectors active).length = active.length := by
  rw [adjust, List.length_map, List.length_zipIdx]

/-- The evaluation keeps its slots and has as many counts as before. -/
theorem Turns.same (h : e.Turns event t) : t.slots = e.slots ∧ t.active.length = e.active.length := by
  cases h with
  | entered => exact ⟨slots_withParentCells e _, by rw [enter, length_adjust, active_withParentCells]⟩
  | left =>
    refine ⟨slots_leave e, ?_⟩
    rw [leave]
    split
    · rw [length_adjust]
    · rfl
  | visited => exact ⟨slots_withParentCells e _, by rw [active_withParentCells]⟩
  | passed => exact ⟨rfl, rfl⟩

theorem Turns.depth (h : e.Turns event t) (hend : event.isElementEnd → e.scopes ≠ []) :
    (t.scopes.length : Int) = e.scopes.length + netDepth [event] := by
  cases h with
  | entered name attributes hstart =>
    rw [netDepth_of_start hstart, enter, List.length_cons, length_withParentCells]
    omega
  | left hstop =>
    obtain ⟨scope, outer, hscopes⟩ := List.exists_cons_of_ne_nil (hend hstop)
    rw [netDepth_of_end hstop, leave, hscopes, List.length_cons]
    dsimp only
    omega
  | visited accepts hnode =>
    rw [netDepth_of_level (List.forall_mem_singleton.2 (isLevel_of_isNode hnode)), length_withParentCells]
    omega
  | passed hnet =>
    rw [hnet]
    omega

section Soundness

theorem sound_ofSelectors (selectors : List Selector) : (ofSelectors selectors).Sound where
  first := index_head_slots selectors.zipIdx
  selectors := by
    intro slot hslot
    obtain ⟨⟨selector, i⟩, hmem, hslot⟩ := List.mem_flatMap.1 hslot
    obtain ⟨path, -, hslot⟩ := List.mem_flatMap.1 hslot
    obtain ⟨⟨step, index⟩, -, rfl⟩ := List.mem_map.1 hslot
    rw [ofSelectors, List.length_map]
    exact List.snd_lt_of_mem_zipIdx hmem
  document := by simp [ofSelectors]
  cells := by simp [ofSelectors]
  nodup := by simp [ofSelectors]
  inRange := by simp [ofSelectors]
  active := by simp [ofSelectors, List.map_const']

theorem Sound.withParentCells (h : e.Sound) {cells : List Cell} (hcells : cells.length = e.slots.length) :
    (e.withParentCells cells).Sound := by
  obtain ⟨slots, document, scopes, active⟩ := e
  cases scopes with
  | nil => exact ⟨h.first, h.selectors, hcells, h.cells, h.nodup, h.inRange, h.active⟩
  | cons scope outer =>
    have hactive := h.active
    refine ⟨h.first, h.selectors, h.document, ?_, ?_, ?_, ?_⟩
    · exact List.forall_mem_cons.2 ⟨hcells, (List.forall_mem_cons.1 h.cells).2⟩
    · exact List.forall_mem_cons.2 (List.forall_mem_cons.1 h.nodup)
    · exact List.forall_mem_cons.2 (List.forall_mem_cons.1 h.inRange)
    · simp only [List.countP_cons] at hactive
      simp only [Evaluation.withParentCells, List.countP_cons]
      exact hactive

/-- One more scope, with its selectors counted. -/
theorem Sound.inner (h : e.Sound) {scope : Scope} (hcells : scope.cells.length = e.slots.length)
    (hnodup : scope.selects.Nodup) (hrange : ∀ s ∈ scope.selects, s < e.active.length) :
    Sound { e with scopes := scope :: e.scopes, active := adjust (· + 1) scope.selects e.active } := by
  have hlength := length_adjust (· + 1) scope.selects e.active
  have hactive : adjust (· + 1) scope.selects e.active =
      (List.range e.active.length).map fun s => (scope :: e.scopes).countP (·.selects.contains s) := by
    conv_lhs => rw [h.active]
    rw [adjust_map_range]
    refine List.map_congr_left fun s _ => ?_
    rw [List.countP_cons]
    split <;> rfl
  refine ⟨h.first, ?_, h.document, ?_, ?_, ?_, ?_⟩
  · rw [hlength]
    exact h.selectors
  · exact List.forall_mem_cons.2 ⟨hcells, h.cells⟩
  · exact List.forall_mem_cons.2 ⟨hnodup, h.nodup⟩
  · rw [hlength]
    exact List.forall_mem_cons.2 ⟨hrange, h.inRange⟩
  · rw [hlength]
    exact hactive

/-- One scope less, with its selectors counted down. -/
theorem Sound.leave (h : e.Sound) : e.leave.Sound := by
  obtain ⟨slots, document, scopes, active⟩ := e
  cases scopes with
  | nil => exact h
  | cons scope outer =>
    have hlength := length_adjust (· - 1) scope.selects active
    have hactive : adjust (· - 1) scope.selects active =
        (List.range active.length).map fun s => outer.countP (·.selects.contains s) := by
      have hbefore := h.active
      dsimp only at hbefore
      conv_lhs => rw [hbefore]
      rw [adjust_map_range]
      refine List.map_congr_left fun s _ => ?_
      rw [List.countP_cons]
      split
      · exact Nat.add_sub_cancel _ 1
      · rfl
    refine ⟨h.first, ?_, h.document, (List.forall_mem_cons.1 h.cells).2,
      (List.forall_mem_cons.1 h.nodup).2, ?_, ?_⟩
    · rw [Evaluation.leave, hlength]
      exact h.selectors
    · rw [Evaluation.leave, hlength]
      exact (List.forall_mem_cons.1 h.inRange).2
    · rw [Evaluation.leave, hlength]
      exact hactive

theorem Sound.turns (h : e.Sound) (hturns : e.Turns event t) : t.Sound := by
  have hverdicts : ∀ accepts, ((e.verdicts accepts).map (·.1)).length = e.slots.length := by
    intro accepts
    rw [List.length_map, h.verdicts]
  cases hturns with
  | entered name attributes =>
    have hparent := h.withParentCells (hverdicts (·.acceptsElement name attributes))
    refine hparent.inner ?_ (nodup_eraseDups _) ?_
    · rw [List.length_map, h.verdicts, slots_withParentCells]
    · rw [active_withParentCells]
      exact h.inRange_selectedBy _
  | left => exact h.leave
  | visited accepts => exact h.withParentCells (hverdicts accepts)
  | passed => exact h

end Soundness

section Reach

/-- The slots that one of the elements with given frames satisfies. -/
def matchedBy (slots : Nat) (frames : List PooledFrame) : List Bool :=
  (List.range slots).map fun g => frames.any (·.matched.getD g false)

/-- The reach of every frame is what it has matched or a frame before it. -/
def Spread (slots : Nat) (frames : List PooledFrame) : Prop :=
  ∀ outer frame inner, frames = outer ++ frame :: inner → frame.reach = matchedBy slots (outer ++ [frame])

theorem spread_concat {slots : Nat} {frames : List PooledFrame} {last : PooledFrame} :
    Spread slots (frames ++ [last]) ↔
      Spread slots frames ∧ last.reach = matchedBy slots (frames ++ [last]) := by
  constructor
  · intro h
    refine ⟨fun outer frame inner hframes => ?_, h frames last [] rfl⟩
    exact h outer frame (inner ++ [last]) (by rw [hframes, List.append_assoc, List.cons_append])
  · rintro ⟨hframes, hlast⟩ outer frame inner heq
    rcases List.eq_nil_or_concat inner with rfl | ⟨front, final, rfl⟩
    · obtain ⟨rfl, hframe⟩ := List.append_inj' heq rfl
      rw [← hframe, ← List.singleton_inj.1 hframe]
      exact hlast
    · rw [List.concat_eq_append, ← List.cons_append, ← List.append_assoc] at heq
      exact hframes outer frame front (List.append_inj' heq rfl).1

/-- What is matched up to a frame does not depend on what else there is in it. -/
theorem matchedBy_congr {slots : Nat} {frames : List PooledFrame} {one other : PooledFrame}
    (h : one.matched = other.matched) :
    matchedBy slots (frames ++ [one]) = matchedBy slots (frames ++ [other]) := by
  simp [matchedBy, h]

theorem matchedBy_child {slots : Nat} {frames : List PooledFrame} {verdicts : List (Cell × Bool)}
    (hlength : verdicts.length = slots) (hparent : verdicts.map (·.1.reached) = matchedBy slots frames)
    {child : PooledFrame} (hchild : child.matched = verdicts.map (·.2)) :
    verdicts.map (fun (parent, yes) => parent.reached || yes) = matchedBy slots (frames ++ [child]) := by
  subst hlength
  refine List.ext_getElem (by simp [matchedBy]) fun g hg _ => ?_
  rw [List.length_map] at hg
  have hreached : verdicts[g].1.reached = frames.any (·.matched.getD g false) := by
    have hget := congrArg (·[g]?) hparent
    simpa [matchedBy, hg] using hget
  simp [matchedBy, hchild, hreached, hg]

theorem map_present {accepts : Slot → Bool} {bits : Cell → Bool} (hbits : ∀ a b, a.SameBits b → bits a = bits b)
    (atRoot : Bool) (previous : Cell) {slots : List Slot} {cells : List Cell}
    (h : cells.length = slots.length) :
    (present accepts atRoot previous slots cells).map (fun pair => bits pair.1) = cells.map bits := by
  induction slots generalizing previous cells with
  | nil =>
    obtain rfl := List.length_eq_zero_iff.1 h
    rfl
  | cons slot slots ih =>
    obtain ⟨cell, cells, rfl⟩ := List.exists_cons_of_length_eq_add_one h
    rw [present_cons, List.map_cons, List.map_cons, ih cell (Nat.succ.inj h), hbits _ _ sameBits_counted]

/-- To be presented with a child leaves the frame of the parent as it is but for the counts. -/
theorem Sound.bits_verdicts (h : e.Sound) (accepts : Slot → Bool) (selects : List Nat) :
    (frameOf ((e.verdicts accepts).map (·.1)) selects).matched = (frameOf e.parentCells selects).matched ∧
      (frameOf ((e.verdicts accepts).map (·.1)) selects).reach = (frameOf e.parentCells selects).reach := by
  simp only [matched_frameOf, reach_frameOf, List.map_map]
  exact ⟨map_present (fun _ _ hsame => hsame.1) _ _ h.parentCells,
    map_present (fun _ _ hsame => hsame.2) _ _ h.parentCells⟩

theorem Sound.spread_withParentCells (h : e.Sound) (hspread : Spread e.slots.length e.frames)
    (accepts : Slot → Bool) :
    Spread e.slots.length (e.withParentCells ((e.verdicts accepts).map (·.1))).frames := by
  obtain ⟨outer, selects, -, hframes, hwith⟩ := e.frames_parent
  obtain ⟨hmatched, hreach⟩ := h.bits_verdicts accepts selects
  rw [hframes, spread_concat] at hspread
  rw [hwith, spread_concat, hreach, matchedBy_congr hmatched]
  exact hspread

theorem Sound.spread_child (h : e.Sound) (hspread : Spread e.slots.length e.frames) (accepts : Slot → Bool)
    (chosen : List Nat) :
    Spread e.slots.length ((e.withParentCells ((e.verdicts accepts).map (·.1))).frames ++
      [frameOf (e.childCells accepts) chosen]) := by
  have hparent := h.spread_withParentCells hspread accepts
  refine spread_concat.2 ⟨hparent, ?_⟩
  obtain ⟨outer, selects, -, -, hwith⟩ := e.frames_parent
  rw [hwith] at hparent ⊢
  have hreached : (e.verdicts accepts).map (·.1.reached) =
      matchedBy e.slots.length (outer ++ [frameOf ((e.verdicts accepts).map (·.1)) selects]) := by
    rw [← (spread_concat.1 hparent).2, reach_frameOf, List.map_map]
    rfl
  have hchild : (frameOf (e.childCells accepts) chosen).matched = (e.verdicts accepts).map (·.2) := by
    rw [matched_frameOf, childCells, List.map_map]
    rfl
  rw [← matchedBy_child (h.verdicts accepts) hreached hchild, reach_frameOf, childCells, List.map_map]
  rfl

theorem spread_leave {slots : Nat} (hspread : Spread slots e.frames) : Spread slots e.leave.frames := by
  obtain ⟨own, document, scopes, active⟩ := e
  cases scopes with
  | nil => exact hspread
  | cons scope outer =>
    have hinner := frames_inner ⟨own, document, outer, active⟩ scope active
    rw [hinner, spread_concat] at hspread
    exact hspread.1

theorem spread_ofSelectors (selectors : List Selector) :
    Spread (slotsOf selectors).length (ofSelectors selectors).frames := by
  have hdocument : (ofSelectors selectors).frames = [] ++ [.blank (slotsOf selectors).length] := by
    simp [ofSelectors, frames, frameOf, PooledFrame.blank, emptyCell, List.map_const']
  rw [hdocument, spread_concat]
  refine ⟨by simp [Spread], ?_⟩
  refine List.ext_getElem (by simp [matchedBy, PooledFrame.blank]) fun g _ _ => ?_
  simp only [matchedBy, PooledFrame.blank, List.getElem_replicate, List.nil_append, List.getElem_map,
    List.any_cons, List.any_nil, Bool.or_false, List.getD_eq_getElem?_getD, List.getElem?_replicate]
  split <;> rfl

theorem Sound.spread_turns (h : e.Sound) (hspread : Spread e.slots.length e.frames) (hturns : e.Turns event t) :
    Spread t.slots.length t.frames := by
  rw [hturns.same.1]
  cases hturns with
  | entered name attributes =>
    rw [enter, frames_inner]
    exact h.spread_child hspread _ _
  | left => exact spread_leave hspread
  | visited accepts => exact h.spread_withParentCells hspread accepts
  | passed => exact hspread

end Reach

end Evaluation

end Selector

namespace EventStream

open Evaluation

/-- What a pool makes of an answer, on the stream after it: the event comes with the selection from the pool. -/
def answerPooled (s : EventStream) (p : FramePool) : Answer → Except Mishap (Answer × FramePool)
  | .ok (some parsed) => do
    let (selection, p) ← p.observe parsed.event s.tokens.parts s.input
    return (.ok (some { parsed with selection }), p)
  | answer => .ok (answer, p)

/-- The answers to calls with all selections taken from a pool, with the stream and the pool after them. -/
def runPooled (s : EventStream) (p : FramePool) :
    List Call → Except Mishap (List Answer × EventStream × FramePool)
  | [] => .ok ([], s, p)
  | .literalUntil name :: calls => runPooled (s.literalUntil name) p calls
  | .next :: calls => do
    let (answer, p) ← s.next.2.answerPooled p s.next.1
    let (answers, last, p) ← runPooled s.next.2 p calls
    return (answer :: answers, last, p)

/-- The evaluation of a stream keeps pace with its nesting: it is as deep as the events handed out lead, and
the queued ones lead from there to the elements that are open. -/
structure Paced (selectors : Nat) (events : List ParsedEvent) (s : EventStream) : Prop where
  named : s.nesting.Named
  counts : s.evaluation.active.length = selectors
  sound : s.evaluation.Sound
  spread : Spread s.evaluation.slots.length s.evaluation.frames
  depth : s.evaluation.scopes.length = netDepth (events.map (·.event))
  bears : Bears s.evaluation.scopes.length s.queue
  ahead : s.evaluation.scopes.length + netDepth s.queue = s.nesting.names.length

variable {selectors : Nat} {events : List ParsedEvent} {s t : EventStream}

theorem paced_ofInput (input : Bytes) (settings : Settings) :
    Paced settings.selectors.length [] (ofInput input settings) where
  named := by simp [Nesting.Named, ofInput, Nesting.ofInput]
  counts := List.length_map _
  sound := sound_ofSelectors settings.selectors
  spread := spread_ofSelectors settings.selectors
  depth := rfl
  bears := Int.le_refl 0
  ahead := rfl

/-- What leads on from the nesting of a stream may be queued. -/
theorem Paced.queued (h : Paced selectors events s) (hq : s.queue = []) (heval : t.evaluation = s.evaluation)
    (hnamed : t.nesting.Named)
    (hbears : Bears s.nesting.names.length t.queue ∧
      s.nesting.names.length + netDepth t.queue = t.nesting.names.length) : Paced selectors events t := by
  have hahead := h.ahead
  rw [hq, netDepth_nil, Int.add_zero] at hahead
  rw [← hahead] at hbears
  refine ⟨hnamed, ?_, ?_, ?_, ?_, ?_, ?_⟩
  all_goals rw [heval]
  · exact h.counts
  · exact h.sound
  · exact h.spread
  · exact h.depth
  · exact hbears.1
  · exact hbears.2

theorem Paced.loads (h : Paced selectors events s) (hq : s.queue = []) (hloads : s.Loads t) :
    Paced selectors events t := by
  have hedge : ∀ event : Event, ¬ event.isElementStart → ¬ event.isElementEnd →
      ∀ other ∈ [event], other.IsLevel := fun _ hstart hend => List.forall_mem_singleton.2 ⟨hstart, hend⟩
  cases hloads with
  | start =>
    have hlevel := hedge .documentStart Bool.false_ne_true Bool.false_ne_true
    refine h.queued hq rfl h.named ⟨bears_of_level (Int.natCast_nonneg _) hlevel, ?_⟩
    exact Int.add_zero _
  | token hs htokens hstep =>
    have haccepts := Nesting.accepts_accept hstep
    exact h.queued hq rfl (haccepts.named h.named) (haccepts.nested h.named).bears
  | finish hs htokens hstep =>
    have hlevel := hedge (.documentEnd s.input.length) Bool.false_ne_true Bool.false_ne_true
    have hfinishes := Nesting.finishes_finish hstep
    obtain ⟨hbears, hnet⟩ := hfinishes.nested.1.bears
    refine h.queued hq rfl (hfinishes.named h.named) ⟨bears_append hbears (bears_of_level ?_ hlevel), ?_⟩
    · rw [hnet]
      exact Int.natCast_nonneg _
    · rw [loadEnd, netDepth_append, netDepth_of_level hlevel, Int.add_zero]
      exact hnet

/-- Where an element ends there is one to leave. -/
theorem Paced.scopes_ne_nil (h : Paced selectors events s) {event : Event} {queue : List Event}
    (hq : s.queue = event :: queue) (hend : event.isElementEnd) : s.evaluation.scopes ≠ [] := by
  have hbears := h.bears
  rw [hq] at hbears
  have hnonneg := hbears.2.nonneg
  rw [netDepth_of_end hend] at hnonneg
  intro hnil
  rw [hnil, List.length_nil] at hnonneg
  omega

theorem Paced.not_isEmpty (h : Paced selectors events s) (hne : selectors ≠ 0) : ¬ s.evaluation.isEmpty := by
  rw [isEmpty, List.isEmpty_iff_length_eq_zero, h.counts]
  exact hne

theorem Paced.deliver (h : Paced selectors events s) (hne : selectors ≠ 0) {event : Event} {queue : List Event}
    (hq : s.queue = event :: queue) :
    Paced selectors (events ++ [(EventStream.deliver { s with queue } event).1])
      (EventStream.deliver { s with queue } event).2 := by
  have hturns := turns_observe (h.not_isEmpty hne) event s.tokens.parts s.input
  have hdepth := hturns.depth (h.scopes_ne_nil hq)
  have hbears := h.bears
  have hahead := h.ahead
  rw [hq] at hbears hahead
  rw [netDepth_cons, ← Int.add_assoc] at hahead
  have hrest := hbears.2
  refine ⟨h.named, hturns.same.2.trans h.counts, h.sound.turns hturns, h.sound.spread_turns h.spread hturns,
    ?_, ?_, ?_⟩
  · rw [List.map_append, netDepth_append, ← h.depth]
    exact hdepth
  · rw [← hdepth] at hrest
    exact hrest
  · rw [← hdepth] at hahead
    exact hahead

/-- One call with a pool: the answer is that of the stream, and nothing is missing. -/
theorem Paced.next (h : Paced selectors events s) (hne : selectors ≠ 0) {waiting : List PooledFrame}
    (hwaiting : ∀ frame ∈ waiting, frame.HasWidth s.evaluation.slots.length) :
    ∃ later, (∀ frame ∈ later, frame.HasWidth s.next.2.evaluation.slots.length) ∧
      s.next.2.answerPooled (s.evaluation.pooled waiting) s.next.1 =
        .ok (s.next.1, s.next.2.evaluation.pooled later) ∧
      Paced selectors (events ++ delivered [s.next.1]) s.next.2 := by
  have hresponds := responds_next s
  generalize s.next = result at hresponds
  cases hresponds with
  | @event u event queue hu hq =>
    have hpaced : Paced selectors events u := by
      rcases hu with rfl | ⟨hqueue, hloads⟩
      · exact h
      · exact h.loads hqueue hloads
    have hsame : u.evaluation = s.evaluation := by
      rcases hu with rfl | ⟨-, hloads⟩
      · rfl
      · cases hloads <;> rfl
    rw [← hsame] at hwaiting ⊢
    obtain ⟨later, hlater, hobserve⟩ := hpaced.sound.observe_pooled hwaiting (hpaced.scopes_ne_nil hq)
      u.tokens.parts u.input
    rw [← slots_observe u.evaluation event u.tokens.parts u.input] at hlater
    refine ⟨later, hlater, ?_, hpaced.deliver hne hq⟩
    change ((u.evaluation.pooled waiting).observe event u.tokens.parts u.input >>= _) = _
    rw [hobserve]
    rfl
  | ended =>
    refine ⟨waiting, hwaiting, rfl, ?_⟩
    change Paced selectors (events ++ []) s
    rwa [List.append_nil]
  | @failed e tokens hqueue =>
    refine ⟨waiting, hwaiting, rfl, ?_⟩
    change Paced selectors (events ++ []) _
    rw [List.append_nil]
    have hahead := h.ahead
    rw [hqueue] at hahead
    exact ⟨h.named, h.counts, h.sound, h.spread, h.depth, Int.natCast_nonneg _, hahead⟩

/-- So do any calls. -/
theorem Paced.run (h : Paced selectors events s) (hne : selectors ≠ 0) (calls : List Call)
    {waiting : List PooledFrame} (hwaiting : ∀ frame ∈ waiting, frame.HasWidth s.evaluation.slots.length) :
    ∃ later, s.runPooled (s.evaluation.pooled waiting) calls =
        .ok ((s.run calls).1, (s.run calls).2, (s.run calls).2.evaluation.pooled later) ∧
      Paced selectors (events ++ delivered (s.run calls).1) (s.run calls).2 := by
  induction calls generalizing events s waiting with
  | nil =>
    refine ⟨waiting, rfl, ?_⟩
    rw [EventStream.run, delivered, List.append_nil]
    exact h
  | cons call calls ih =>
    cases call with
    | literalUntil name =>
      exact ih (s := s.literalUntil name)
        ⟨h.named, h.counts, h.sound, h.spread, h.depth, h.bears, h.ahead⟩ hwaiting
    | next =>
      obtain ⟨later, hlater, hanswer, hpaced⟩ := h.next hne hwaiting
      obtain ⟨last, hrun, hlast⟩ := ih hpaced hlater
      rw [List.append_assoc, ← delivered_append] at hlast
      refine ⟨last, ?_, hlast⟩
      simp only [runPooled, hanswer, hrun, EventStream.run, bind, Except.bind]
      rfl

/-- What the events handed out tell about a pool: the depth, and what the frames of the open elements, of which
the outermost is that of the document, say about the counts and about one another. -/
structure InLockstep (selectors : Nat) (events : List Event) (p : FramePool) : Prop where
  live : p.live.length = p.depth
  depth : (p.depth : Int) - 1 = netDepth events
  active : p.active = (List.range selectors).map fun s => p.live.tail.countP (·.selects.contains s)
  reach : Spread p.slots.length p.live

theorem Paced.inLockstep (h : Paced selectors events s) (waiting : List PooledFrame) :
    InLockstep selectors (events.map (·.event)) (s.evaluation.pooled waiting) := by
  have hlive := s.evaluation.live_pooled waiting
  refine ⟨?_, ?_, ?_, ?_⟩
  · rw [hlive, length_frames]
    rfl
  · rw [← h.depth, pooled]
    dsimp only
    omega
  · rw [hlive, ← h.counts]
    refine h.sound.active.trans (List.map_congr_left fun s _ => ?_)
    rw [frames, List.tail_cons, List.countP_map, List.countP_reverse]
    rfl
  · rw [hlive]
    exact h.spread

/-- The pool of a stream is that of its evaluation, with some frames that wait. -/
theorem exists_runPooled (input : Bytes) (settings : Settings) (hselectors : settings.selectors ≠ [])
    (calls : List Call) :
    ∃ waiting, (ofInput input settings).runPooled (FramePool.ofSelectors settings.selectors) calls =
        .ok (((ofInput input settings).run calls).1, ((ofInput input settings).run calls).2,
          ((ofInput input settings).run calls).2.evaluation.pooled waiting) ∧
      Paced settings.selectors.length (delivered ((ofInput input settings).run calls).1)
        ((ofInput input settings).run calls).2 := by
  have hne : settings.selectors.length ≠ 0 := fun h => hselectors (List.length_eq_zero_iff.1 h)
  have hpool : FramePool.ofSelectors settings.selectors = (ofInput input settings).evaluation.pooled [] := by
    simp [FramePool.ofSelectors, pooled, frames, frameOf, ofInput, ofSelectors, PooledFrame.blank, emptyCell,
      List.map_const']
  rw [hpool]
  exact (paced_ofInput input settings).run hne calls (List.forall_mem_nil _)

/-- Whatever calls are made on the stream of a document with at least one selector, a pool of frames goes along
with it to the end: no index is out of range, no selector is counted down that is not counted, and no element
is left where none is open. All selections are those of the stream. The pool is always as deep as the events
handed out, counts for each selector the open elements whose frames name it, and in every live frame the reach
is what this frame or one before it has matched. -/
theorem pool_in_lockstep (input : Bytes) (settings : Settings) (hselectors : settings.selectors ≠ [])
    (calls : List Call) :
    ∃ p, (ofInput input settings).runPooled (FramePool.ofSelectors settings.selectors) calls =
        .ok (((ofInput input settings).run calls).1, ((ofInput input settings).run calls).2, p) ∧
      InLockstep settings.selectors.length
        ((delivered ((ofInput input settings).run calls).1).map (·.event)) p := by
  obtain ⟨waiting, hrun, hpaced⟩ := exists_runPooled input settings hselectors calls
  exact ⟨_, hrun, hpaced.inLockstep waiting⟩

/-- A selector of all items, as it is compiled. -/
def everyItem : Selector := ⟨"//li", .html, [[⟨.descendant, [⟨.named "li", none⟩], none⟩]]⟩

/-- The second item implies the close of the first and takes its frame: three frames are all that is needed
for the document, the list and two items. -/
theorem pool_in_lockstep_everyItem :
    let input := Bytes.ofString "<ul><li>a<li>b</ul>"
    let settings : Settings := ⟨.html, .autoClose, [everyItem]⟩
    let calls := List.replicate 10 Call.next
    settings.selectors ≠ [] ∧
      ∃ p, (ofInput input settings).runPooled (FramePool.ofSelectors settings.selectors) calls =
          .ok (((ofInput input settings).run calls).1, ((ofInput input settings).run calls).2, p) ∧
        InLockstep 1 ((delivered ((ofInput input settings).run calls).1).map (·.event)) p ∧
        p.depth = 3 ∧ p.frames.length = 3 ∧ p.active = [1] := by
  intro input settings calls
  have hselectors : settings.selectors ≠ [] := List.cons_ne_nil _ _
  obtain ⟨p, hrun, hlockstep⟩ := pool_in_lockstep input settings hselectors calls
  have hpool :
      ((ofInput input settings).runPooled (FramePool.ofSelectors settings.selectors) calls).toOption.map
        (fun result => (result.2.2.depth, result.2.2.frames.length, result.2.2.active)) = some (3, 3, [1]) := by
    decide +kernel
  rw [hrun] at hpool
  obtain ⟨hdepth, hframes, hactive⟩ : p.depth = 3 ∧ p.frames.length = 3 ∧ p.active = [1] := by
    simpa [Except.toOption] using hpool
  exact ⟨hselectors, p, hrun, hlockstep, hdepth, hframes, hactive⟩

end EventStream

end MarkupStream
