import MarkupStream.Proofs.Calls
import MarkupStream.Proofs.FoldedNames
import MarkupStream.Proofs.SelectorForm

/-!
Selectors that can stand for each other. Evaluation asks the predicates of a step for nothing but whether they
hold, so selectors whose steps differ in equivalent predicates only are answered alike, whatever is asked of a
stream and with whatever other selectors.
-/
namespace MarkupStream

namespace Selector

section Forms

/-- Branches that accept the same elements and nodes. -/
structure Branch.SelectsAlike (a b : Branch) : Prop where
  node : a.node = b.node
  holds : ∀ ignoreCase attributes, a.predicate.all (·.holds ignoreCase attributes) =
    b.predicate.all (·.holds ignoreCase attributes)

/-- Steps that differ in equivalent predicates only. -/
structure Step.SelectsAlike (a b : Step) : Prop where
  axis : a.axis = b.axis
  branches : List.Forall₂ Branch.SelectsAlike a.branches b.branches
  filter : a.filter = b.filter

/-- Selectors that differ in equivalent predicates only. -/
structure SelectsAlike (a b : Selector) : Prop where
  ignoreCase : a.dialect.ignoresCase = b.dialect.ignoresCase
  paths : List.Forall₂ (List.Forall₂ Step.SelectsAlike) a.paths b.paths

/-- Slots at the same place whose steps differ in equivalent predicates only. -/
structure Slot.SelectsAlike (a b : Slot) : Prop where
  selector : a.selector = b.selector
  index : a.index = b.index
  isLast : a.isLast = b.isLast
  ignoreCase : a.ignoreCase = b.ignoreCase
  step : a.step.SelectsAlike b.step

theorem selectsAlike_refl (s : Selector) : s.SelectsAlike s := by
  have hbranch : ∀ branch : Branch, branch.SelectsAlike branch := fun _ => ⟨rfl, fun _ _ => rfl⟩
  have hstep : ∀ step : Step, step.SelectsAlike step := fun step =>
    ⟨rfl, List.forall₂_same.2 fun branch _ => hbranch branch, rfl⟩
  exact ⟨rfl, List.forall₂_same.2 fun path _ => List.forall₂_same.2 fun step _ => hstep step⟩

theorem forall₂_zipIdx {α : Type} {R : α → α → Prop} {as bs : List α} (h : List.Forall₂ R as bs) (k : Nat) :
    List.Forall₂ (fun x y => R x.1 y.1 ∧ x.2 = y.2) (as.zipIdx k) (bs.zipIdx k) := by
  induction h generalizing k with
  | nil => exact .nil
  | cons hhead _ ih => exact .cons ⟨hhead, rfl⟩ (ih (k + 1))

variable {selectors selectors' : List Selector}

theorem selectsAlike_slots (h : List.Forall₂ SelectsAlike selectors selectors') :
    List.Forall₂ Slot.SelectsAlike (slotsOf selectors) (slotsOf selectors') := by
  apply List.rel_flatMap (forall₂_zipIdx h 0)
  rintro ⟨s, i⟩ ⟨t, j⟩ ⟨halike, hindex⟩
  obtain rfl : i = j := hindex
  dsimp only
  rw [← halike.ignoreCase]
  apply List.rel_flatMap halike.paths
  intro path path' hpath
  have hlength := hpath.length_eq
  rw [slotsOfPath, slotsOfPath, List.forall₂_map_left_iff, List.forall₂_map_right_iff]
  apply (forall₂_zipIdx hpath 0).imp
  rintro ⟨step, k⟩ ⟨step', l⟩ ⟨hstep, hplace⟩
  obtain rfl : k = l := hplace
  refine ⟨rfl, rfl, ?_, rfl, hstep⟩
  simp only [hlength]

end Forms

section Slots

variable {a b : Slot}

theorem Slot.SelectsAlike.acceptsElement (h : a.SelectsAlike b) (name : Bytes)
    (attributes : AttributeValues) : a.acceptsElement name attributes = b.acceptsElement name attributes := by
  rw [Slot.acceptsElement, Slot.acceptsElement, h.ignoreCase]
  have hbranches := h.step.branches
  generalize a.step.branches = first at hbranches
  generalize b.step.branches = second at hbranches
  induction hbranches with
  | nil => rfl
  | cons hbranch _ ih =>
    rw [List.any_cons, List.any_cons, ih, Branch.acceptsElement, Branch.acceptsElement, hbranch.node,
      hbranch.holds]

theorem Step.SelectsAlike.pseudo?_eq {a b : Step} (h : a.SelectsAlike b) : a.pseudo? = b.pseudo? := by
  obtain ⟨-, hbranches, -⟩ := h
  rw [Step.pseudo?, Step.pseudo?]
  generalize a.branches = first at hbranches
  generalize b.branches = second at hbranches
  cases hbranches with
  | nil => rfl
  | @cons branch branch' _ _ hbranch _ =>
    obtain ⟨node, predicate⟩ := branch
    obtain ⟨node', predicate'⟩ := branch'
    obtain rfl : node = node' := hbranch.node
    cases node <;> rfl

theorem Slot.SelectsAlike.acceptsNode (h : a.SelectsAlike b) (kind : NodeKind) :
    a.acceptsNode kind = b.acceptsNode kind := by
  rw [Slot.acceptsNode, Slot.acceptsNode, h.isLast, h.step.pseudo?_eq]

theorem Slot.SelectsAlike.axisAllows (h : a.SelectsAlike b) (atRoot : Bool) (previous : Cell) :
    a.axisAllows atRoot previous = b.axisAllows atRoot previous := by
  rw [Slot.axisAllows, Slot.axisAllows, h.index, h.step.axis]

end Slots

namespace Evaluation

variable {slots slots' : List Slot} {e : Evaluation}

theorem present_alike {accepts : Slot → Bool} (h : List.Forall₂ Slot.SelectsAlike slots slots')
    (haccepts : ∀ {a b : Slot}, a.SelectsAlike b → accepts a = accepts b) (atRoot : Bool) (previous : Cell)
    (cells : List Cell) :
    present accepts atRoot previous slots cells = present accepts atRoot previous slots' cells := by
  induction h generalizing previous cells with
  | nil => rfl
  | cons hslot _ ih =>
    cases cells with
    | nil => rfl
    | cons cell cells =>
      rw [present, present, ih, haccepts hslot, hslot.step.filter, hslot.axisAllows]

theorem selectedBy_alike (h : List.Forall₂ Slot.SelectsAlike slots slots') (satisfied : List Bool) :
    selectedBy slots satisfied = selectedBy slots' satisfied := by
  rw [selectedBy, selectedBy]
  congr 1
  induction h generalizing satisfied with
  | nil => rfl
  | cons hslot _ ih =>
    cases satisfied with
    | nil => rfl
    | cons yes satisfied =>
      rw [List.zip_cons_cons, List.zip_cons_cons, List.filterMap_cons, List.filterMap_cons, ih]
      simp only [hslot.isLast, hslot.selector]

/-- The same evaluation for other steps. -/
def withSlots (e : Evaluation) (slots : List Slot) : Evaluation := { e with slots }

variable (h : List.Forall₂ Slot.SelectsAlike e.slots slots)
include h

theorem verdicts_withSlots {accepts : Slot → Bool}
    (haccepts : ∀ {a b : Slot}, a.SelectsAlike b → accepts a = accepts b) :
    (e.withSlots slots).verdicts accepts = e.verdicts accepts :=
  (present_alike h haccepts e.scopes.isEmpty emptyCell e.parentCells).symm

theorem selectedBy_withSlots (satisfied : List Bool) :
    selectedBy (e.withSlots slots).slots satisfied = selectedBy e.slots satisfied :=
  (selectedBy_alike h satisfied).symm

omit h in
theorem withParentCells_withSlots (e : Evaluation) (slots : List Slot) (cells : List Cell) :
    (e.withSlots slots).withParentCells cells = (e.withParentCells cells).withSlots slots := by
  simp only [withParentCells, withSlots]
  split <;> rfl

theorem enter_withSlots (name : Bytes) (attributes : AttributeValues) :
    (e.withSlots slots).enter name attributes = (e.enter name attributes).withSlots slots := by
  rw [enter, enter, verdicts_withSlots h fun halike => halike.acceptsElement name attributes]
  simp only [selectedBy_withSlots h, withParentCells_withSlots]
  rfl

theorem visit_withSlots (kind : NodeKind) :
    (e.withSlots slots).visit kind = ((e.visit kind).1, (e.visit kind).2.withSlots slots) := by
  rw [visit, visit, verdicts_withSlots h fun halike => halike.acceptsNode kind]
  simp only [selectedBy_withSlots h, withParentCells_withSlots]
  rfl

omit h in
theorem leave_withSlots (e : Evaluation) (slots : List Slot) :
    (e.withSlots slots).leave = e.leave.withSlots slots := by
  simp only [leave, withSlots]
  split <;> rfl

/-- Every event is observed alike. -/
theorem observe_withSlots (event : Event) (parts : List TagPart) (input : Bytes) :
    (e.withSlots slots).observe event parts input =
      ((e.observe event parts input).1, (e.observe event parts input).2.withSlots slots) := by
  have hempty : (e.withSlots slots).isEmpty = e.isEmpty := rfl
  unfold observe
  rw [hempty]
  split
  · rfl
  · split
    · split
      · rw [enter_withSlots h]
        rfl
      · split
        · rw [leave_withSlots]
          rfl
        · rfl
    · split
      · exact visit_withSlots h _
      · rfl

omit h

/-- A relation that is kept by every event, between evaluations with the same selections. -/
def Bisimilar (R : Evaluation → Evaluation → Prop) : Prop :=
  ∀ ⦃e e' : Evaluation⦄, R e e' → ∀ (event : Event) (parts : List TagPart) (input : Bytes),
    (e'.observe event parts input).1 = (e.observe event parts input).1 ∧
      R (e.observe event parts input).2 (e'.observe event parts input).2

/-- The same evaluation but for steps that differ in equivalent predicates. -/
inductive WithSlots (e : Evaluation) : Evaluation → Prop
  | mk (slots : List Slot) : List.Forall₂ Slot.SelectsAlike e.slots slots → WithSlots e (e.withSlots slots)

theorem bisimilar_withSlots : Bisimilar WithSlots := by
  rintro e _ ⟨slots, halike⟩ event parts input
  rw [observe_withSlots halike]
  refine ⟨rfl, .mk slots ?_⟩
  rwa [slots_observe]

theorem ofSelectors_eq {selectors selectors' : List Selector}
    (h : List.Forall₂ SelectsAlike selectors selectors') :
    ofSelectors selectors' = (ofSelectors selectors).withSlots (slotsOf selectors') := by
  have hslots := (selectsAlike_slots h).length_eq
  simp only [ofSelectors, withSlots, List.map_const', h.length_eq, hslots]

end Evaluation

end Selector

namespace EventStream

open Selector

/-- The same stream with another evaluation. -/
def withEvaluation (s : EventStream) (e : Evaluation) : EventStream := { s with evaluation := e }

/-- The same answer, from streams that differ in related evaluations only. -/
inductive Result.Alike (R : Evaluation → Evaluation → Prop) : Result → Result → Prop
  | mk (answer : Answer) (s : EventStream) {e : Evaluation} : R s.evaluation e →
      Alike R (answer, s) (answer, s.withEvaluation e)

variable {R : Evaluation → Evaluation → Prop} {s : EventStream} {e : Evaluation}

theorem alike_emit (hR : Evaluation.Bisimilar R) (h : R s.evaluation e) (event : Event) :
    Result.Alike R (s.emit event) ((s.withEvaluation e).emit event) := by
  obtain ⟨hselection, hlater⟩ := hR h event s.tokens.parts s.input
  have hsame : (s.withEvaluation e).emit event = ((s.emit event).1,
      (s.emit event).2.withEvaluation (e.observe event s.tokens.parts s.input).2) := by
    simp only [emit, deliver]
    change (Except.ok (some (ParsedEvent.mk event _ (e.observe event s.tokens.parts s.input).1)), _) = _
    rw [hselection]
    rfl
  rw [hsame]
  exact .mk _ _ hlater

theorem alike_nextQueued (hR : Evaluation.Bisimilar R) (h : R s.evaluation e) :
    Result.Alike R s.nextQueued (s.withEvaluation e).nextQueued := by
  rw [nextQueued, nextQueued]
  have hqueue : (s.withEvaluation e).queue = s.queue := rfl
  rw [hqueue]
  split
  · rename_i event queue hevent
    exact alike_emit (s := { s with queue }) hR h event
  · exact .mk _ _ h

theorem alike_nextRead (hR : Evaluation.Bisimilar R) (h : R s.evaluation e) :
    Result.Alike R s.nextRead (s.withEvaluation e).nextRead := by
  cases htokens : s.tokens.next with
  | mk answer tokens =>
    match answer with
    | .error e' =>
      rw [nextRead_of_error htokens, nextRead_of_error (s := s.withEvaluation e) htokens]
      exact .mk _ { s with tokens, stage := .done, queue := [] } h
    | .ok none =>
      rw [nextRead_of_none htokens, nextRead_of_none (s := s.withEvaluation e) htokens]
      change Result.Alike R _ ((s.withEvaluation e).answerWith tokens
        ((s.nesting.finish s.tokens.locate).map (s.withEvaluation e).loadEnd))
      cases s.nesting.finish s.tokens.locate with
      | error e' => exact .mk _ { s with tokens, stage := .done, queue := [] } h
      | ok step => exact alike_nextQueued (s := s.loadEnd step) hR h
    | .ok (some token) =>
      rw [nextRead_of_token htokens, nextRead_of_token (s := s.withEvaluation e) htokens]
      change Result.Alike R _ ((s.withEvaluation e).answerWith tokens
        ((s.nesting.accept s.tokens.locate token).map ((s.withEvaluation e).loadToken tokens)))
      cases s.nesting.accept s.tokens.locate token with
      | error e' => exact .mk _ { s with tokens, stage := .done, queue := [] } h
      | ok step => exact alike_nextQueued (s := s.loadToken tokens step) hR h

theorem alike_next (hR : Evaluation.Bisimilar R) (h : R s.evaluation e) :
    Result.Alike R s.next (s.withEvaluation e).next := by
  by_cases hq : s.queue = []
  · cases hs : s.stage with
    | start =>
      rw [next_of_start hq hs, next_of_start (s := s.withEvaluation e) hq hs]
      change Result.Alike R _ (if s.input.length > Span.maxInputLength then _ else _)
      split
      · exact .mk _ { s with stage := .done, queue := [] } h
      · exact alike_emit (s := { s with stage := .running }) hR h _
    | running =>
      rw [next_of_running hq hs, next_of_running (s := s.withEvaluation e) hq hs]
      exact alike_nextRead hR h
    | done =>
      rw [next_of_done hq hs, next_of_done (s := s.withEvaluation e) hq hs]
      exact .mk _ _ h
  · rw [next_of_queue hq, next_of_queue (s := s.withEvaluation e) hq]
    exact alike_nextQueued hR h

/-- All calls are answered alike. -/
theorem run_bisimilar (hR : Evaluation.Bisimilar R) (h : R s.evaluation e) (calls : List Call) :
    ((s.withEvaluation e).run calls).1 = (s.run calls).1 := by
  induction calls generalizing s e with
  | nil => rfl
  | cons call calls ih =>
    cases call with
    | literalUntil name => exact ih (s := s.literalUntil name) h
    | next =>
      have hnext := alike_next hR h
      rw [run, run]
      generalize s.next = r at hnext
      generalize (s.withEvaluation e).next = r' at hnext
      cases hnext with
      | mk answer t ht => rw [ih ht]

/-- Whatever is asked of the stream of a document, the answers are the same with selectors whose evaluations
are related. -/
theorem run_ofInput_bisimilar (hR : Evaluation.Bisimilar R) {selectors selectors' : List Selector}
    (h : R (.ofSelectors selectors) (.ofSelectors selectors')) (input : Bytes) (dialect : Dialect)
    (policy : Policy) (calls : List Call) :
    ((ofInput input ⟨dialect, policy, selectors'⟩).run calls).1 =
      ((ofInput input ⟨dialect, policy, selectors⟩).run calls).1 :=
  run_bisimilar (s := ofInput input ⟨dialect, policy, selectors⟩) hR h calls

theorem run_selectsAlike {selectors selectors' : List Selector}
    (h : List.Forall₂ SelectsAlike selectors selectors') (input : Bytes) (dialect : Dialect)
    (policy : Policy) (calls : List Call) :
    ((ofInput input ⟨dialect, policy, selectors'⟩).run calls).1 =
      ((ofInput input ⟨dialect, policy, selectors⟩).run calls).1 := by
  apply run_ofInput_bisimilar Evaluation.bisimilar_withSlots
  rw [Evaluation.ofSelectors_eq h]
  exact .mk _ (selectsAlike_slots h)

end EventStream

namespace Selector

open EventStream

/-- Among whatever other selectors one stands for the other: all calls on the stream of any document are
answered as before, with the same events and the same selections. -/
def Replaces (t s : Selector) : Prop :=
  ∀ (document : Bytes) (dialect : Dialect) (policy : Policy) (before after : List Selector) (calls : List Call),
    ((ofInput document ⟨dialect, policy, before ++ t :: after⟩).run calls).1 =
      ((ofInput document ⟨dialect, policy, before ++ s :: after⟩).run calls).1

theorem Replaces.trans {s t u : Selector} (h : u.Replaces t) (h' : t.Replaces s) : u.Replaces s := by
  intro document dialect policy before after calls
  exact (h document dialect policy before after calls).trans (h' document dialect policy before after calls)

theorem SelectsAlike.replaces {s t : Selector} (h : s.SelectsAlike t) : t.Replaces s := by
  intro document dialect policy before after calls
  have hsame : ∀ selectors : List Selector, List.Forall₂ SelectsAlike selectors selectors :=
    fun selectors => List.forall₂_same.2 fun other _ => selectsAlike_refl other
  exact run_selectsAlike (List.rel_append (hsame before) (.cons h (hsame after))) document dialect policy calls

end Selector

end MarkupStream
