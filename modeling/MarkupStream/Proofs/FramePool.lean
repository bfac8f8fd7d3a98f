import Mathlib.Data.List.Induction
import Mathlib.Data.List.Nodup
import MarkupStream.Proofs.FoldedNames
import MarkupStream.Selector.FramePool

/-!
The frames of a pool are the scopes of an evaluation. Laid out from the document to the innermost open element,
with frames that wait behind them, the scopes are taken through an event by the pool just as the evaluation
takes itself through it; all indices are in range, and what is counted down has been counted up. The loops over
the slots are told by the cells that they have passed and those still before them.
-/
namespace MarkupStream.Selector

section Entries

variable {α : Type}

theorem entry_append (before after : List α) (value : α) :
    entry (before ++ value :: after) before.length = .ok value := by
  rw [entry, List.getElem?_append_right (Nat.le_refl _), Nat.sub_self, List.getElem?_cons_zero]

theorem entryBefore_append (before after : List α) (value : α) :
    entryBefore (before ++ value :: after) (before.length + 1) = .ok value := entry_append before after value

theorem putEntry_append (before after : List α) (old value : α) :
    putEntry (before ++ old :: after) before.length value = .ok (before ++ value :: after) := by
  rw [putEntry, if_pos (by simp), List.set_append_right _ _ (Nat.le_refl _), Nat.sub_self, List.set_cons_zero]

/-- Counts change at some indices, each of which occurs once and has a count that can be changed. -/
theorem recount_eq {change : Nat → Except Mishap Nat} {changed : Nat → Nat} {indices counts : List Nat}
    (hnodup : indices.Nodup)
    (hchange : ∀ i ∈ indices, ∃ count, counts[i]? = some count ∧ change count = .ok (changed count)) :
    recount change indices counts = .ok (Evaluation.adjust changed indices counts) := by
  induction indices generalizing counts with
  | nil => simp [recount, Evaluation.adjust, List.zipIdx_map_fst]
  | cons index rest ih =>
    obtain ⟨hnot, hrest⟩ := List.nodup_cons.1 hnodup
    obtain ⟨count, hcount, hone⟩ := hchange index List.mem_cons_self
    have hlt := (List.getElem?_eq_some_iff.1 hcount).1
    have hothers : ∀ i ∈ rest, ∃ other, (counts.set index (changed count))[i]? = some other ∧
        change other = .ok (changed other) := by
      intro i hi
      have hne : index ≠ i := fun h => hnot (h ▸ hi)
      rw [List.getElem?_set_ne hne]
      exact hchange i (List.mem_cons_of_mem _ hi)
    have hset : Evaluation.adjust changed rest (counts.set index (changed count)) =
        Evaluation.adjust changed (index :: rest) counts := by
      refine List.ext_getElem (by simp [Evaluation.adjust]) fun i _ _ => ?_
      have hget := (List.getElem?_eq_some_iff.1 hcount).2
      by_cases hi : index = i
      · subst hi
        simp [Evaluation.adjust, hnot, hget]
      · have hi' : i ≠ index := fun h => hi h.symm
        simp [Evaluation.adjust, List.getElem_set_ne hi, hi']
    simp only [recount, entry, hcount, hone, putEntry, if_pos hlt, bind, Except.bind]
    rw [ih hrest hothers, hset]

end Entries

section Frames

/-- The frame of an element with given cells. -/
def frameOf (cells : List Cell) (selects : List Nat) : PooledFrame :=
  ⟨cells.map (·.matched), cells.map (·.reached), cells.map (·.count), selects⟩

@[simp] theorem matched_frameOf (cells : List Cell) (selects : List Nat) :
    (frameOf cells selects).matched = cells.map (·.matched) := rfl

@[simp] theorem reach_frameOf (cells : List Cell) (selects : List Nat) :
    (frameOf cells selects).reach = cells.map (·.reached) := rfl

@[simp] theorem selects_frameOf (cells : List Cell) (selects : List Nat) :
    (frameOf cells selects).selects = selects := rfl

/-- The frame has room for a number of slots. -/
structure PooledFrame.HasWidth (slots : Nat) (frame : PooledFrame) : Prop where
  matched : frame.matched.length = slots
  reach : frame.reach.length = slots
  counters : frame.counters.length = slots

theorem PooledFrame.reset_eq {slots : Nat} {frame : PooledFrame} (h : frame.HasWidth slots) :
    frame.reset = .blank slots := by
  simp [reset, blank, List.map_const', h.matched, h.reach, h.counters]

theorem hasWidth_frameOf (cells : List Cell) (selects : List Nat) :
    (frameOf cells selects).HasWidth cells.length :=
  ⟨List.length_map _, List.length_map _, List.length_map _⟩

/-- The cell of a slot in the parent once a child has been considered for it. -/
def Slot.counted (slot : Slot) (accepts : Slot → Bool) (cell : Cell) : Cell :=
  if accepts slot && slot.step.filter.isSome then { cell with count := cell.count + 1 } else cell

/-- Whether a child satisfies a slot, by the cells of its parent for the slot and for the one before it. -/
def Slot.verdict (slot : Slot) (accepts : Slot → Bool) (atRoot : Bool) (previous cell : Cell) : Bool :=
  accepts slot && slot.step.filter.all (·.accepts (slot.counted accepts cell).count) &&
    slot.axisAllows atRoot previous

/-- What an axis asks of a cell. -/
def Cell.SameBits (one other : Cell) : Prop := one.matched = other.matched ∧ one.reached = other.reached

/-- Cells that have been passed before the slots to come: the last one, if there is one, has the bits of the
previous cell, and if there is none then the next slot is the first of its path. -/
structure Precede (before : List Cell) (previous : Cell) (slots : List Slot) : Prop where
  last : ∀ cell ∈ before.getLast?, cell.SameBits previous
  first : before = [] → ∀ slot ∈ slots.head?, slot.index = 0

variable {accepts : Slot → Bool} {atRoot : Bool} {slot : Slot} {slots : List Slot} {cell previous : Cell}
  {before cells : List Cell} {selects : List Nat}

theorem present_cons :
    Evaluation.present accepts atRoot previous (slot :: slots) (cell :: cells) =
      (slot.counted accepts cell, slot.verdict accepts atRoot previous cell) ::
        Evaluation.present accepts atRoot cell slots cells := rfl

/-- Counting changes nothing that an axis asks for. -/
theorem sameBits_counted : (slot.counted accepts cell).SameBits cell := by
  rw [Slot.counted]
  split <;> exact ⟨rfl, rfl⟩

theorem Precede.next : Precede (before ++ [slot.counted accepts cell]) cell slots where
  last := by
    intro last hlast
    rw [List.getLast?_concat, Option.mem_some_iff] at hlast
    rw [← hlast]
    exact sameBits_counted
  first := fun h => absurd h (List.append_ne_nil_of_right_ne_nil before (List.cons_ne_nil _ _))

theorem passesFilter_frameOf (haccepts : accepts slot) :
    (frameOf (before ++ cell :: cells) selects).passesFilter before.length slot =
      .ok (slot.step.filter.all (·.accepts (slot.counted accepts cell).count),
        frameOf (before ++ slot.counted accepts cell :: cells) selects) := by
  cases hfilter : slot.step.filter with
  | none => simp [PooledFrame.passesFilter, Slot.counted, hfilter, pure, Except.pure]
  | some filter =>
    have hentry := entry_append (before.map (·.count)) (cells.map (·.count)) cell.count
    have hput := putEntry_append (before.map (·.count)) (cells.map (·.count)) cell.count (cell.count + 1)
    rw [List.length_map] at hentry hput
    simp [PooledFrame.passesFilter, Slot.counted, hfilter, haccepts, frameOf, hentry, hput, bind, Except.bind,
      pure, Except.pure]

theorem axisAllows_frameOf (h : Precede before previous (slot :: slots)) :
    (frameOf (before ++ cell :: cells) selects).axisAllows atRoot before.length slot =
      .ok (slot.axisAllows atRoot previous) := by
  rw [PooledFrame.axisAllows, Slot.axisAllows]
  rcases List.eq_nil_or_concat before with rfl | ⟨front, last, rfl⟩
  · rw [h.first rfl slot rfl]
    cases slot.step.axis <;> rfl
  · obtain ⟨hmatched, hreached⟩ := h.last last (by simp)
    have hbefore := fun bits : Cell → Bool =>
      entryBefore_append (front.map bits) ((cell :: cells).map bits) (bits last)
    simp only [List.length_map] at hbefore
    cases slot.index with
    | zero => cases slot.step.axis <;> rfl
    | succ index => cases slot.step.axis <;> simp [frameOf, ← hmatched, ← hreached, ← hbefore]

theorem consider_frameOf (h : Precede before previous (slot :: slots)) :
    (frameOf (before ++ cell :: cells) selects).consider accepts atRoot before.length slot =
      .ok (slot.verdict accepts atRoot previous cell,
        frameOf (before ++ slot.counted accepts cell :: cells) selects) := by
  rw [PooledFrame.consider]
  by_cases haccepts : accepts slot
  · simp only [haccepts, passesFilter_frameOf haccepts, Slot.verdict, Bool.true_and, bind, Except.bind]
    by_cases hpasses : slot.step.filter.all (·.accepts (slot.counted accepts cell).count)
    · simp only [hpasses, axisAllows_frameOf h, Bool.true_and]
      rfl
    · simp only [hpasses, Bool.false_and]
      rfl
  · simp only [Slot.verdict, Slot.counted, haccepts, Bool.false_and]
    rfl

/-- Notes the satisfied ones of the slots from an index on. -/
def noteAll {β : Type} (note : Nat → Slot → β → Except Mishap β) :
    Nat → List Slot → List Bool → β → Except Mishap β
  | index, slot :: slots, satisfied :: more, noted => do
    let noted ← if satisfied then note index slot noted else .ok noted
    noteAll note (index + 1) slots more noted
  | _, _, _, noted => .ok noted

/-- To consider a child slot by slot is to ask for all verdicts and to note the satisfied slots. -/
theorem present_frameOf {β : Type} (note : Nat → Slot → β → Except Mishap β) (before cells : List Cell)
    (noted : β) (h : Precede before previous slots) (hlength : cells.length = slots.length) :
    (frameOf (before ++ cells) selects).present accepts atRoot note before.length slots noted =
      (noteAll note before.length slots
        ((Evaluation.present accepts atRoot previous slots cells).map (·.2)) noted).map
        (frameOf (before ++ (Evaluation.present accepts atRoot previous slots cells).map (·.1)) selects, ·) := by
  induction slots generalizing before previous cells noted with
  | nil =>
    obtain rfl := List.length_eq_zero_iff.1 hlength
    rfl
  | cons slot slots ih =>
    obtain ⟨cell, cells, rfl⟩ := List.exists_cons_of_length_eq_add_one hlength
    have hrest := fun noted => ih (before ++ [slot.counted accepts cell]) cells noted .next
      (Nat.succ.inj hlength)
    simp only [List.append_assoc, List.singleton_append, List.length_append, List.length_singleton] at hrest
    simp only [PooledFrame.present, consider_frameOf h, present_cons, List.map_cons, noteAll, bind, Except.bind]
    split
    · cases note before.length slot noted with
      | error mishap => rfl
      | ok noted => exact hrest noted
    · exact hrest noted

section Selectors

open PooledFrame

/-- A selector is added to those that are there, each once. -/
theorem addSelector_eraseDups (selector : Nat) (chosen : List Nat) :
    addSelector selector chosen.eraseDups = (chosen ++ [selector]).eraseDups := by
  rw [addSelector, List.eraseDups_append, List.removeAll]
  by_cases hmem : selector ∈ chosen
  · simp [hmem]
  · have hone : [selector].eraseDups = [selector] := rfl
    simp [hmem, hone]

theorem nodup_eraseDups (chosen : List Nat) : chosen.eraseDups.Nodup := by
  induction chosen using List.reverseRecOn with
  | nil => exact List.nodup_nil
  | append_singleton chosen selector ih =>
    rw [← addSelector_eraseDups, addSelector]
    by_cases hmem : chosen.eraseDups.contains selector
    · rwa [if_pos hmem]
    · rw [if_neg hmem]
      refine List.nodup_append.2 ⟨ih, List.nodup_singleton _, fun other hother single hsingle heq => hmem ?_⟩
      rw [← List.mem_singleton.1 hsingle, ← heq]
      exact List.contains_iff_mem.2 hother

/-- The selectors of the satisfied last steps, in the order of their slots. -/
def lastSelectors (slots : List Slot) (satisfied : List Bool) : List Nat :=
  (slots.zip satisfied).filterMap fun (slot, yes) => if slot.isLast && yes then some slot.selector else none

variable {satisfied : List Bool}

/-- One slot more: its selector comes behind those chosen before. -/
theorem append_lastSelectors (chosen : List Nat) (slot : Slot) (yes : Bool) :
    chosen ++ lastSelectors (slot :: slots) (yes :: satisfied) =
      (if slot.isLast && yes then chosen ++ [slot.selector] else chosen) ++ lastSelectors slots satisfied := by
  rw [lastSelectors, List.zip_cons_cons, List.filterMap_cons]
  by_cases h : slot.isLast && yes
  · simp [h, lastSelectors]
  · simp [h, lastSelectors]

theorem noteAll_mark (before : List Bool) (reach : List Bool) (counters chosen : List Nat)
    (hlength : satisfied.length = slots.length) :
    noteAll mark before.length slots satisfied
        ⟨before ++ List.replicate slots.length false, reach, counters, chosen.eraseDups⟩ =
      .ok ⟨before ++ satisfied, reach, counters, (chosen ++ lastSelectors slots satisfied).eraseDups⟩ := by
  induction slots generalizing before chosen satisfied with
  | nil =>
    obtain rfl := List.length_eq_zero_iff.1 hlength
    simp [noteAll, lastSelectors]
  | cons slot slots ih =>
    obtain ⟨yes, satisfied, rfl⟩ := List.exists_cons_of_length_eq_add_one hlength
    have hrest := fun chosen => ih (before ++ [yes]) chosen (Nat.succ.inj hlength)
    simp only [List.append_assoc, List.singleton_append, List.length_append, List.length_singleton] at hrest
    have hput := putEntry_append before (List.replicate slots.length false) false yes
    rw [append_lastSelectors, ← hrest, List.length_cons, List.replicate_succ, noteAll]
    cases yes with
    | false => simp [bind, Except.bind]
    | true =>
      rw [if_pos rfl, mark]
      by_cases hlast : slot.isLast
      · simp [hput, hlast, addSelector_eraseDups, bind, Except.bind, pure, Except.pure]
      · simp [hput, hlast, bind, Except.bind, pure, Except.pure]

/-- Where only last steps are satisfied their selectors are all that is noted of them. -/
theorem noteAll_addSelector (index : Nat) (chosen : List Nat)
    (hlast : ∀ pair ∈ slots.zip satisfied, pair.2 → pair.1.isLast) :
    noteAll (fun _ slot extra => .ok (addSelector slot.selector extra)) index slots satisfied chosen.eraseDups =
      .ok (chosen ++ lastSelectors slots satisfied).eraseDups := by
  induction slots generalizing index chosen satisfied with
  | nil => simp [noteAll, lastSelectors]
  | cons slot slots ih =>
    cases satisfied with
    | nil => simp [noteAll, lastSelectors]
    | cons yes satisfied =>
      have hrest := fun chosen => ih (index + 1) chosen fun pair hmem =>
        hlast pair (List.mem_cons_of_mem _ hmem)
      rw [append_lastSelectors, ← hrest, noteAll]
      cases yes with
      | false => simp [bind, Except.bind]
      | true =>
        have hslot : slot.isLast := hlast (slot, true) List.mem_cons_self rfl
        simp [hslot, addSelector_eraseDups, bind, Except.bind]

end Selectors

/-- What the reach of an element adds to that of its parent are the slots that the element satisfies itself. -/
theorem extendReach_eq (parent : PooledFrame) (counters selects : List Nat) (before after : List (Cell × Bool))
    (hparent : parent.reach = (before ++ after).map (·.1.reached)) :
    PooledFrame.extendReach parent (List.range' before.length after.length)
        ⟨(before ++ after).map (·.2),
          before.map (fun pair => pair.1.reached || pair.2) ++ List.replicate after.length false, counters,
          selects⟩ =
      .ok ⟨(before ++ after).map (·.2), (before ++ after).map (fun pair => pair.1.reached || pair.2), counters,
        selects⟩ := by
  induction after generalizing before with
  | nil => simp [PooledFrame.extendReach, pure, Except.pure]
  | cons pair after ih =>
    have hentry := fun bits : Cell × Bool → Bool =>
      entry_append (before.map bits) (after.map bits) (bits pair)
    have hput := putEntry_append (before.map fun pair => pair.1.reached || pair.2)
      (List.replicate after.length false) false (pair.1.reached || pair.2)
    have hrest := ih (before ++ [pair]) (by rw [hparent, List.append_assoc, List.singleton_append])
    simp only [List.length_map] at hentry hput
    simp only [List.append_assoc, List.singleton_append, List.length_append, List.length_singleton,
      List.map_append (f := fun pair : Cell × Bool => pair.1.reached || pair.2), List.map_singleton] at hrest
    have hreach := hentry fun pair => pair.1.reached
    have hmatched := hentry fun pair => pair.2
    simp only [List.length_cons, List.range'_succ, PooledFrame.extendReach, hparent, List.replicate_succ,
      List.map_append, List.map_cons, hreach, hmatched, hput, bind, Except.bind] at hrest ⊢
    exact hrest

end Frames

namespace Evaluation

/-- The frames of the document and of the open elements from the outermost on. -/
def frames (e : Evaluation) : List PooledFrame :=
  frameOf e.document [] :: e.scopes.reverse.map fun scope => frameOf scope.cells scope.selects

/-- The pool with the frames of an evaluation and some that wait. -/
def pooled (e : Evaluation) (waiting : List PooledFrame) : FramePool :=
  ⟨e.slots, e.frames ++ waiting, e.scopes.length + 1, e.active⟩

/-- Each list of an evaluation has the lengths of the others, no slot looks for one before the first, and the
selectors are counted by the elements that they select. -/
structure Sound (e : Evaluation) : Prop where
  first : ∀ slot ∈ e.slots.head?, slot.index = 0
  selectors : ∀ slot ∈ e.slots, slot.selector < e.active.length
  document : e.document.length = e.slots.length
  cells : ∀ scope ∈ e.scopes, scope.cells.length = e.slots.length
  nodup : ∀ scope ∈ e.scopes, scope.selects.Nodup
  inRange : ∀ scope ∈ e.scopes, ∀ s ∈ scope.selects, s < e.active.length
  active : e.active = (List.range e.active.length).map fun s => e.scopes.countP (·.selects.contains s)

variable {e : Evaluation} {waiting : List PooledFrame}

theorem length_frames (e : Evaluation) : e.frames.length = e.scopes.length + 1 := by
  rw [frames, List.length_cons, List.length_map, List.length_reverse]

theorem live_pooled (e : Evaluation) (waiting : List PooledFrame) : (e.pooled waiting).live = e.frames := by
  rw [FramePool.live, pooled, ← length_frames]
  exact List.take_left

/-- The frame of the parent comes last, and new cells of the parent are new cells in that frame. -/
theorem frames_parent (e : Evaluation) :
    ∃ outer selects, outer.length = e.scopes.length ∧ e.frames = outer ++ [frameOf e.parentCells selects] ∧
      ∀ cells, (e.withParentCells cells).frames = outer ++ [frameOf cells selects] := by
  obtain ⟨slots, document, scopes, active⟩ := e
  cases scopes with
  | nil => exact ⟨[], [], rfl, rfl, fun _ => rfl⟩
  | cons scope scopes =>
    refine ⟨frames ⟨slots, document, scopes, active⟩, scope.selects, length_frames _, ?_, fun cells => ?_⟩
    · simp [frames, parentCells]
    · simp [frames, withParentCells]

theorem active_withParentCells (e : Evaluation) (cells : List Cell) :
    (e.withParentCells cells).active = e.active := by
  rw [withParentCells]
  split <;> rfl

theorem length_withParentCells (e : Evaluation) (cells : List Cell) :
    (e.withParentCells cells).scopes.length = e.scopes.length := by
  rw [withParentCells]
  split
  · rename_i hscopes
    rw [hscopes]
    rfl
  · rfl

/-- One more scope is one more frame. -/
theorem frames_inner (e : Evaluation) (scope : Scope) (active : List Nat) :
    frames { e with scopes := scope :: e.scopes, active } =
      e.frames ++ [frameOf scope.cells scope.selects] := by
  simp [frames]

theorem pooled_inner (e : Evaluation) (scope : Scope) (active : List Nat) (waiting : List PooledFrame) :
    pooled { e with scopes := scope :: e.scopes, active } waiting =
      ⟨e.slots, e.frames ++ frameOf scope.cells scope.selects :: waiting, e.scopes.length + 2, active⟩ := by
  rw [pooled, frames_inner, List.append_assoc]
  rfl

theorem Sound.parentCells (h : e.Sound) : e.parentCells.length = e.slots.length := by
  rw [Evaluation.parentCells]
  split
  · rename_i scope outer hscopes
    exact h.cells scope (by rw [hscopes]; exact List.mem_cons_self)
  · exact h.document

/-- A new frame is blank, be it a waiting one or not. -/
theorem push_pooled (hwaiting : ∀ frame ∈ waiting, frame.HasWidth e.slots.length) :
    (e.pooled waiting).push =
      .ok ⟨e.slots, e.frames ++ PooledFrame.blank e.slots.length :: waiting.tail, e.scopes.length + 2,
        e.active⟩ := by
  have hlength := e.length_frames
  cases waiting with
  | nil => simp [FramePool.push, pooled, hlength, pure, Except.pure]
  | cons frame rest =>
    have hentry := entry_append e.frames rest frame
    have hput := putEntry_append e.frames rest frame frame.reset
    have hreset := PooledFrame.reset_eq (hwaiting frame List.mem_cons_self)
    rw [hlength] at hentry hput
    rw [hreset] at hput
    simp [FramePool.push, pooled, hlength, hentry, hput, hreset, bind, Except.bind, pure, Except.pure]

section Children

variable {accepts : Slot → Bool}

theorem length_present (atRoot : Bool) (previous : Cell) (slots : List Slot) (cells : List Cell) :
    (present accepts atRoot previous slots cells).length = min slots.length cells.length := by
  induction slots generalizing previous cells with
  | nil => simp [present]
  | cons slot slots ih =>
    cases cells with
    | nil => simp [present]
    | cons cell cells =>
      rw [present_cons, List.length_cons, ih, List.length_cons, List.length_cons, Nat.succ_min_succ]

theorem Sound.verdicts (h : e.Sound) (accepts : Slot → Bool) :
    (e.verdicts accepts).length = e.slots.length := by
  rw [Evaluation.verdicts, length_present, h.parentCells, Nat.min_self]

/-- The loop over all slots for a child of the innermost element. -/
theorem Sound.present {β : Type} (h : e.Sound) (accepts : Slot → Bool) (selects : List Nat)
    (note : Nat → Slot → β → Except Mishap β) (noted : β) :
    (frameOf e.parentCells selects).present accepts e.scopes.isEmpty note 0 e.slots noted =
      (noteAll note 0 e.slots ((e.verdicts accepts).map (·.2)) noted).map
        (frameOf ((e.verdicts accepts).map (·.1)) selects, ·) :=
  present_frameOf note [] e.parentCells noted ⟨by simp, fun _ => h.first⟩ h.parentCells

/-- The frame of a new element after the loop over the slots: it has no reach yet. -/
def marked (e : Evaluation) (accepts : Slot → Bool) : PooledFrame :=
  ⟨(e.verdicts accepts).map (·.2), List.replicate e.slots.length false, List.replicate e.slots.length 0,
    selectedBy e.slots ((e.verdicts accepts).map (·.2))⟩

theorem Sound.mark (h : e.Sound) (accepts : Slot → Bool) :
    noteAll PooledFrame.mark 0 e.slots ((e.verdicts accepts).map (·.2)) (.blank e.slots.length) =
      .ok (e.marked accepts) :=
  noteAll_mark [] (List.replicate e.slots.length false) (List.replicate e.slots.length 0) []
    (by rw [List.length_map, h.verdicts])

/-- The cells of a new element. -/
def childCells (e : Evaluation) (accepts : Slot → Bool) : List Cell :=
  (e.verdicts accepts).map fun (parent, yes) => ⟨yes, parent.reached || yes, 0⟩

theorem Sound.extendReach (h : e.Sound) (accepts : Slot → Bool) (selects : List Nat) :
    (frameOf ((e.verdicts accepts).map (·.1)) selects).extendReach (List.range e.slots.length)
        (e.marked accepts) =
      .ok (frameOf (e.childCells accepts) (e.marked accepts).selects) := by
  have hextend := extendReach_eq (frameOf ((e.verdicts accepts).map (·.1)) selects)
    (List.replicate e.slots.length 0) (e.marked accepts).selects [] (e.verdicts accepts)
    (by simp [frameOf])
  rw [h.verdicts] at hextend
  rw [List.range_eq_range']
  refine hextend.trans ?_
  simp [frameOf, childCells, Function.comp_def, List.map_const', h.verdicts]

theorem Sound.inRange_selectedBy (h : e.Sound) (satisfied : List Bool) :
    ∀ s ∈ selectedBy e.slots satisfied, s < e.active.length := by
  intro s hs
  rw [selectedBy, List.mem_eraseDups, List.mem_filterMap] at hs
  obtain ⟨⟨slot, yes⟩, hmem, hslot⟩ := hs
  have hrange := h.selectors slot (List.of_mem_zip hmem).1
  by_cases hlast : slot.isLast && yes
  · simp only [hlast, if_true, Option.some.injEq] at hslot
    rwa [← hslot]
  · simp [hlast] at hslot

/-- An element is entered with the next frame that waits. -/
theorem Sound.enter_pooled (h : e.Sound) (hwaiting : ∀ frame ∈ waiting, frame.HasWidth e.slots.length)
    (name : Bytes) (attributes : AttributeValues) :
    (e.pooled waiting).enter name attributes = .ok ((e.enter name attributes).pooled waiting.tail) := by
  obtain ⟨outer, selects, houter, hframes, hwith⟩ := e.frames_parent
  have hdepth : (e.pooled waiting).depth = e.scopes.length + 1 := rfl
  simp only [FramePool.enter, push_pooled hwaiting, hdepth, hframes, Evaluation.enter, bind, Except.bind]
  generalize hname : (fun slot : Slot => slot.acceptsElement name attributes) = accepts
  have hroot : (e.scopes.length + 1 == 1) = e.scopes.isEmpty := by cases e.scopes <;> simp
  have hpresent := h.present accepts selects PooledFrame.mark (.blank e.slots.length)
  rw [h.mark] at hpresent
  have hextend := h.extendReach accepts selects
  have hcount : recount countUp (e.marked accepts).selects e.active =
      .ok (adjust (· + 1) (e.marked accepts).selects e.active) :=
    recount_eq (nodup_eraseDups _) fun s hs =>
      ⟨_, List.getElem?_eq_getElem (h.inRange_selectedBy _ s hs), rfl⟩
  have hbefore := entryBefore_append outer (.blank e.slots.length :: waiting.tail)
    (frameOf e.parentCells selects)
  have hput := putEntry_append outer (.blank e.slots.length :: waiting.tail) (frameOf e.parentCells selects)
    (frameOf ((e.verdicts accepts).map (·.1)) selects)
  have hentry := entry_append (outer ++ [frameOf e.parentCells selects]) waiting.tail (.blank e.slots.length)
  have hchild := putEntry_append (outer ++ [frameOf ((e.verdicts accepts).map (·.1)) selects]) waiting.tail
    (.blank e.slots.length) (frameOf (e.childCells accepts) (e.marked accepts).selects)
  simp only [List.append_assoc, List.singleton_append, List.length_append, List.length_singleton,
    houter] at hbefore hput hentry hchild
  simp only [List.append_assoc, List.singleton_append, hbefore, hentry, hroot, hpresent, hextend, hcount, hput,
    hchild, Except.map, Nat.add_sub_cancel, selects_frameOf]
  have hpooled := pooled_inner (e.withParentCells ((e.verdicts accepts).map (·.1)))
    ⟨e.childCells accepts, (e.marked accepts).selects⟩ (adjust (· + 1) (e.marked accepts).selects e.active)
    waiting.tail
  rw [hwith, slots_withParentCells, length_withParentCells, List.append_assoc, List.singleton_append] at hpooled
  rw [active_withParentCells, slots_withParentCells]
  exact congrArg Except.ok hpooled.symm

/-- The innermost element is left, and its frame waits from then on. -/
theorem Sound.leave_pooled (h : e.Sound) (hopen : e.scopes ≠ []) (waiting : List PooledFrame) :
    ∃ frame, frame.HasWidth e.slots.length ∧
      (e.pooled waiting).leave = .ok (e.leave.pooled (frame :: waiting)) := by
  obtain ⟨scope, outer, hscopes⟩ := List.exists_cons_of_ne_nil hopen
  have hmem : scope ∈ e.scopes := by
    rw [hscopes]
    exact List.mem_cons_self
  have hcount : recount countDown scope.selects e.active = .ok (adjust (· - 1) scope.selects e.active) := by
    refine recount_eq (h.nodup scope hmem) fun s hs => ?_
    have hopened : e.scopes.countP (·.selects.contains s) ≠ 0 := by
      rw [Nat.ne_zero_iff_zero_lt, List.countP_pos_iff]
      exact ⟨scope, hmem, List.contains_iff_mem.2 hs⟩
    refine ⟨e.scopes.countP (·.selects.contains s), ?_, ?_⟩
    · rw [h.active, List.getElem?_map, List.getElem?_range (h.inRange scope hmem s hs)]
      rfl
    · rw [countDown, if_neg hopened]
  refine ⟨frameOf scope.cells scope.selects, ?_, ?_⟩
  · rw [← h.cells scope hmem]
    exact hasWidth_frameOf _ _
  · obtain ⟨slots, document, scopes, active⟩ := e
    obtain rfl : scopes = scope :: outer := hscopes
    have hpooled := pooled_inner ⟨slots, document, outer, active⟩ scope active waiting
    have hentry := entry_append (frames ⟨slots, document, outer, active⟩) waiting
      (frameOf scope.cells scope.selects)
    rw [length_frames] at hentry
    dsimp only at hentry hcount
    have hdepth : ¬ outer.length + 2 ≤ 1 := by omega
    have hindex : outer.length + 2 - 1 = outer.length + 1 := rfl
    simp only [FramePool.leave, hpooled, hdepth, hindex, hentry, hcount, selects_frameOf, if_false, bind,
      Except.bind]
    rfl

/-- A slot that is satisfied has accepted the child. -/
theorem accepts_of_satisfied (atRoot : Bool) (previous : Cell) (slots : List Slot) (cells : List Cell) :
    ∀ pair : Slot × Bool, pair ∈ slots.zip ((present accepts atRoot previous slots cells).map (·.2)) → pair.2 →
      accepts pair.1 := by
  induction slots generalizing previous cells with
  | nil => simp
  | cons slot slots ih =>
    cases cells with
    | nil => simp [Evaluation.present]
    | cons cell cells =>
      intro pair hmem hsatisfied
      rw [present_cons, List.map_cons, List.zip_cons_cons] at hmem
      rcases List.mem_cons.1 hmem with rfl | hmem
      · simp only [Slot.verdict, Bool.and_eq_true] at hsatisfied
        exact hsatisfied.1.1
      · exact ih cell cells pair hmem hsatisfied

/-- Only last steps are about nodes that are not elements. -/
theorem noteAll_selectedBy (e : Evaluation) (kind : NodeKind) :
    noteAll (fun _ slot extra => .ok (PooledFrame.addSelector slot.selector extra)) 0 e.slots
        ((e.verdicts (·.acceptsNode kind)).map (·.2)) [] =
      .ok (selectedBy e.slots ((e.verdicts (·.acceptsNode kind)).map (·.2))) := by
  refine noteAll_addSelector 0 [] fun pair hmem hsatisfied => ?_
  have haccepts := accepts_of_satisfied _ _ _ _ pair hmem hsatisfied
  rw [Slot.acceptsNode, Bool.and_eq_true] at haccepts
  exact haccepts.1

/-- A node is counted in the frame of its parent. -/
theorem Sound.visit_pooled (h : e.Sound) (kind : NodeKind) (waiting : List PooledFrame) :
    (e.pooled waiting).visit kind =
      .ok (selectedBy e.slots ((e.verdicts (·.acceptsNode kind)).map (·.2)),
        (e.withParentCells ((e.verdicts (·.acceptsNode kind)).map (·.1))).pooled waiting) := by
  obtain ⟨outer, selects, houter, hframes, hwith⟩ := e.frames_parent
  have hpresent := h.present (·.acceptsNode kind) selects
    (fun _ slot extra => .ok (PooledFrame.addSelector slot.selector extra)) []
  rw [noteAll_selectedBy] at hpresent
  have hbefore := entryBefore_append outer waiting (frameOf e.parentCells selects)
  have hput := putEntry_append outer waiting (frameOf e.parentCells selects)
    (frameOf ((e.verdicts (·.acceptsNode kind)).map (·.1)) selects)
  rw [houter] at hbefore hput
  have hroot : (e.scopes.length + 1 == 1) = e.scopes.isEmpty := by cases e.scopes <;> simp
  simp only [FramePool.visit, pooled, hframes, hwith, hroot, hbefore, hpresent, hput, length_withParentCells,
    slots_withParentCells, active_withParentCells, List.append_assoc, List.singleton_append, Except.map,
    Nat.add_sub_cancel, bind, Except.bind]
  rfl

end Children

/-- The pool goes through an event as the evaluation does, wherever an end has an element to end. -/
theorem Sound.observe_pooled (h : e.Sound) (hwaiting : ∀ frame ∈ waiting, frame.HasWidth e.slots.length)
    {event : Event} (hend : event.isElementEnd → e.scopes ≠ []) (parts : List TagPart) (input : Bytes) :
    ∃ later, (∀ frame ∈ later, frame.HasWidth e.slots.length) ∧
      (e.pooled waiting).observe event parts input =
        .ok ((e.observe event parts input).1, (e.observe event parts input).2.pooled later) := by
  have hself : ∀ selection, ∃ later, (∀ frame ∈ later, frame.HasWidth e.slots.length) ∧
      (.ok (selection, e.pooled waiting) : Except Mishap (Selection × FramePool)) =
        .ok (selection, e.pooled later) := fun _ => ⟨waiting, hwaiting, rfl⟩
  have hactive : (e.pooled waiting).active.isEmpty = e.isEmpty := rfl
  unfold FramePool.observe Evaluation.observe
  rw [hactive]
  by_cases hempty : e.isEmpty
  · rw [if_pos hempty, if_pos hempty]
    exact hself _
  · rw [if_neg hempty, if_neg hempty]
    cases event with
    | element edge span name =>
      dsimp only
      by_cases hstart : edge.isStart
      · have henter := h.enter_pooled hwaiting (name.slice input) (attributeValues parts input)
        rw [if_pos hstart, if_pos hstart, henter]
        exact ⟨waiting.tail, fun frame hmem => hwaiting frame (List.mem_of_mem_tail hmem), rfl⟩
      · rw [if_neg hstart, if_neg hstart]
        by_cases hstop : edge.isEnd
        · obtain ⟨frame, hwidth, hleave⟩ := h.leave_pooled (hend hstop) waiting
          rw [if_pos hstop, if_pos hstop, hleave]
          exact ⟨frame :: waiting, List.forall_mem_cons.2 ⟨hwidth, hwaiting⟩, rfl⟩
        · rw [if_neg hstop, if_neg hstop]
          exact hself _
    | documentStart | documentEnd | attr | innerWhitespace => exact hself _
    | text | comment | cdata | doctype | xmlDeclaration | instruction =>
      refine ⟨waiting, hwaiting, ?_⟩
      simp only [Event.nodeKind?, h.visit_pooled, Evaluation.visit, bind, Except.bind]
      rw [FramePool.selection, pooled, active_withParentCells]
      rfl

end Evaluation

end MarkupStream.Selector
