import MarkupStream.Proofs.Interchange

/-!
The branches of a step as alternatives. Paths with one branch each select together what a step with two branches
selects. This needs that there is no position filter, since the step counts the elements of both branches
together and the paths count them apart.
-/
namespace MarkupStream.Selector

open Evaluation EventStream

section Lists

/-- To name a member once more, right behind the first time, changes nothing. -/
theorem eraseDups_twice (first rest : List Nat) (a : Nat) :
    (first ++ a :: a :: rest).eraseDups = (first ++ a :: rest).eraseDups := by
  rw [List.eraseDups_append, List.eraseDups_append, List.removeAll, List.removeAll]
  by_cases hmem : a ∈ first
  · simp [hmem]
  · simp [hmem, List.eraseDups_cons]

variable {α β : Type} {P : α → α → α → Prop} {n : Nat} {whole parted : List α}

/-- Two entries stand in the place of one. -/
inductive Parted (P : α → α → α → Prop) (n : Nat) : List α → List α → Prop
  | mk (before : List α) {a one other : α} (after : List α) : before.length = n → P a one other →
      Parted P n (before ++ a :: after) (before ++ one :: other :: after)

theorem Parted.map {P' : β → β → β → Prop} (h : Parted P n whole parted) (f : α → β)
    (hf : ∀ a one other, P a one other → P' (f a) (f one) (f other)) :
    Parted P' n (whole.map f) (parted.map f) := by
  obtain ⟨before, after, hlength, hentry⟩ := h
  have hmapped := Parted.mk (before.map f) (after.map f) ((List.length_map f).trans hlength) (hf _ _ _ hentry)
  simpa using hmapped

theorem Parted.cons (h : Parted P n whole parted) (a : α) : Parted P (n + 1) (a :: whole) (a :: parted) := by
  obtain ⟨before, after, hlength, hentry⟩ := h
  exact .mk (a :: before) after (congrArg (· + 1) hlength) hentry

end Lists

section Slots

/-- A slot with just one of the branches of its step. -/
def Slot.only (slot : Slot) (branch : Branch) : Slot :=
  { slot with step := { slot.step with branches := [branch] } }

/-- A slot for all of a path, whose step has two branches about elements and no position filter. -/
structure Slot.IsTwofold (slot : Slot) (one other : Branch) : Prop where
  first : slot.index = 0
  branches : slot.step.branches = [one, other]
  elements : ¬ one.node.isPseudo ∧ ¬ other.node.isPseudo
  filter : slot.step.filter = none

/-- The slot accepts what its branches accept together. -/
def Slot.SplitBy (slot : Slot) (one other : Branch) (accepts : Slot → Bool) : Prop :=
  accepts slot = (accepts (slot.only one) || accepts (slot.only other))

variable {slot : Slot} {one other : Branch} {accepts : Slot → Bool}

theorem Slot.IsTwofold.splitBy_element (h : slot.IsTwofold one other) (name : Bytes)
    (attributes : AttributeValues) : slot.SplitBy one other (·.acceptsElement name attributes) := by
  rw [SplitBy, Slot.acceptsElement, h.branches]
  simp [Slot.acceptsElement, Slot.only]

theorem pseudo?_eq_none {branch : Branch} (h : ¬ branch.node.isPseudo) (axis : Axis) (rest : List Branch)
    (filter : Option PositionFilter) : (Step.mk axis (branch :: rest) filter).pseudo? = none := by
  obtain ⟨node, predicate⟩ := branch
  cases node with
  | pseudo => exact absurd rfl h
  | _ => rfl

theorem Slot.IsTwofold.splitBy_node (h : slot.IsTwofold one other) (kind : NodeKind) :
    slot.SplitBy one other (·.acceptsNode kind) := by
  have hslot : slot.step.pseudo? = none := by
    have hstep : slot.step = ⟨slot.step.axis, one :: [other], slot.step.filter⟩ := by rw [← h.branches]
    rw [hstep]
    exact pseudo?_eq_none h.elements.1 _ _ _
  have hone : (slot.only one).step.pseudo? = none := pseudo?_eq_none h.elements.1 _ _ _
  have hother : (slot.only other).step.pseudo? = none := pseudo?_eq_none h.elements.2 _ _ _
  simp [SplitBy, Slot.acceptsNode, hslot, hone, hother]

/-- The verdict on a step is that on its branches together. -/
def JoinedVerdict (whole one other : Cell × Bool) : Prop := whole.2 = (one.2 || other.2)

/-- The first slot of a path does not look at the cell before its own. -/
theorem axisAllows_of_first (h : slot.index = 0) (atRoot : Bool) (previous previous' : Cell) :
    slot.axisAllows atRoot previous = slot.axisAllows atRoot previous' := by
  rw [Slot.axisAllows, Slot.axisAllows, h]
  cases slot.step.axis <;> rfl

theorem present_of_first {slots : List Slot} (h : ∀ first ∈ slots.head?, first.index = 0) (atRoot : Bool)
    (previous previous' : Cell) (cells : List Cell) :
    present accepts atRoot previous slots cells = present accepts atRoot previous' slots cells := by
  cases slots with
  | nil => rfl
  | cons first rest =>
    cases cells with
    | nil => rfl
    | cons cell cells =>
      rw [present, present, axisAllows_of_first (h first rfl) atRoot previous previous']

/-- A child is presented to the branches of a step as to the step, and to the other slots alike. -/
theorem present_parted (hslot : slot.IsTwofold one other) (hsplit : slot.SplitBy one other accepts)
    {after : List Slot} (hafter : ∀ first ∈ after.head?, first.index = 0) (atRoot : Bool) (previous : Cell)
    (before : List Slot) {cells cells' : List Cell}
    (h : Parted (fun _ _ _ => True) before.length cells cells') :
    Parted JoinedVerdict before.length (present accepts atRoot previous (before ++ slot :: after) cells)
      (present accepts atRoot previous (before ++ slot.only one :: slot.only other :: after) cells') := by
  obtain ⟨front, back, hlength, -⟩ := h
  rename_i cell first second
  induction before generalizing previous front with
  | nil =>
    obtain rfl := List.length_eq_zero_iff.1 hlength
    have hrest : present accepts atRoot cell after back = present accepts atRoot second after back :=
      present_of_first hafter atRoot cell second back
    have hone : (slot.only one).step.filter = none ∧
        (slot.only one).axisAllows atRoot previous = slot.axisAllows atRoot previous := ⟨hslot.filter, rfl⟩
    have hother : (slot.only other).step.filter = none ∧
        (slot.only other).axisAllows atRoot first = slot.axisAllows atRoot previous :=
      ⟨hslot.filter, axisAllows_of_first hslot.first atRoot first previous⟩
    simp only [List.nil_append, present, hrest]
    refine .mk [] _ rfl ?_
    simp only [JoinedVerdict, hslot.filter, hone, hother, Option.all_none, Bool.and_true]
    rw [hsplit, Bool.and_or_distrib_right]
  | cons slot' before ih =>
    obtain ⟨cell', front, rfl⟩ := List.exists_cons_of_length_eq_add_one hlength
    exact (ih cell' front (Nat.succ.inj hlength)).cons _

/-- The selector of the two branches is named if it is named for the step. -/
theorem selectedBy_parted (before after : List Slot) (slot : Slot) (one other : Branch)
    {verdicts verdicts' : List (Cell × Bool)} (h : Parted JoinedVerdict before.length verdicts verdicts') :
    selectedBy (before ++ slot :: after) (verdicts.map (·.2)) =
      selectedBy (before ++ slot.only one :: slot.only other :: after) (verdicts'.map (·.2)) := by
  obtain ⟨front, back, hlength, hjoined⟩ := h
  rename_i whole first second
  rw [selectedBy, selectedBy, List.map_append, List.map_append, List.zip_append (by simp [hlength]),
    List.zip_append (by simp [hlength]), List.filterMap_append, List.filterMap_append]
  simp only [List.map_cons, List.zip_cons_cons, List.filterMap_cons]
  have hone : (slot.only one).isLast = slot.isLast ∧ (slot.only one).selector = slot.selector := ⟨rfl, rfl⟩
  have hother : (slot.only other).isLast = slot.isLast ∧ (slot.only other).selector = slot.selector :=
    ⟨rfl, rfl⟩
  rw [hjoined, hone.1, hone.2, hother.1, hother.2]
  -- Only where both branches are satisfied the selector is named twice.
  cases slot.isLast <;> cases first.2 <;> cases second.2 <;> simp [eraseDups_twice]

end Slots

namespace Evaluation

/-- The slots, cells and scopes of the one are those of the other but for a step whose branches have slots of
their own. -/
structure Splits (before after : List Slot) (slot : Slot) (one other : Branch) (e e' : Evaluation) : Prop where
  slots : e.slots = before ++ slot :: after
  slots' : e'.slots = before ++ slot.only one :: slot.only other :: after
  document : Parted (fun _ _ _ => True) before.length e.document e'.document
  scopes : List.Forall₂ (fun scope scope' => Parted (fun _ _ _ => True) before.length scope.cells scope'.cells ∧
    scope'.selects = scope.selects) e.scopes e'.scopes
  active : e'.active = e.active

variable {before after : List Slot} {slot : Slot} {one other : Branch} {e e' : Evaluation}

theorem Splits.parentCells (h : Splits before after slot one other e e') :
    Parted (fun _ _ _ => True) before.length e.parentCells e'.parentCells := by
  have hscopes := h.scopes
  rw [Evaluation.parentCells, Evaluation.parentCells]
  generalize e.scopes = scopes at hscopes
  generalize e'.scopes = scopes' at hscopes
  cases hscopes with
  | nil => exact h.document
  | cons hscope => exact hscope.1

theorem Splits.withParentCells (h : Splits before after slot one other e e') {cells cells' : List Cell}
    (hcells : Parted (fun _ _ _ => True) before.length cells cells') :
    Splits before after slot one other (e.withParentCells cells) (e'.withParentCells cells') := by
  obtain ⟨slots, document, scopes, active⟩ := e
  obtain ⟨slots', document', scopes', active'⟩ := e'
  have hscopes : List.Forall₂ _ scopes scopes' := h.scopes
  cases hscopes with
  | nil => exact ⟨h.slots, h.slots', hcells, .nil, h.active⟩
  | cons hscope hrest => exact ⟨h.slots, h.slots', h.document, .cons ⟨hcells, hscope.2⟩ hrest, h.active⟩

theorem Splits.leave (h : Splits before after slot one other e e') :
    Splits before after slot one other e.leave e'.leave := by
  obtain ⟨slots, document, scopes, active⟩ := e
  obtain ⟨slots', document', scopes', active'⟩ := e'
  have hscopes : List.Forall₂ _ scopes scopes' := h.scopes
  obtain rfl : active' = active := h.active
  cases hscopes with
  | nil => exact h
  | @cons scope scope' _ _ hscope hrest =>
    exact ⟨h.slots, h.slots', h.document, hrest, congrArg (adjust (· - 1) · active') hscope.2⟩

variable (hslot : slot.IsTwofold one other) (hafter : ∀ first ∈ after.head?, first.index = 0)
include hslot hafter

theorem Splits.verdicts (h : Splits before after slot one other e e') {accepts : Slot → Bool}
    (hsplit : slot.SplitBy one other accepts) :
    Parted JoinedVerdict before.length (e.verdicts accepts) (e'.verdicts accepts) := by
  have hroot : e'.scopes.isEmpty = e.scopes.isEmpty := by
    rw [Bool.eq_iff_iff, List.isEmpty_iff_length_eq_zero, List.isEmpty_iff_length_eq_zero, h.scopes.length_eq]
  rw [Evaluation.verdicts, Evaluation.verdicts, h.slots, h.slots', hroot]
  exact present_parted hslot hsplit hafter _ _ before h.parentCells

theorem Splits.enter (h : Splits before after slot one other e e') (name : Bytes)
    (attributes : AttributeValues) :
    Splits before after slot one other (e.enter name attributes) (e'.enter name attributes) := by
  have hverdicts := h.verdicts hslot hafter (hslot.splitBy_element name attributes)
  have hparent := h.withParentCells (hverdicts.map (·.1) fun _ _ _ _ => trivial)
  have hselects := selectedBy_parted before after slot one other hverdicts
  rw [← h.slots, ← h.slots'] at hselects
  refine ⟨hparent.slots, hparent.slots', hparent.document, .cons ⟨?_, hselects.symm⟩ hparent.scopes, ?_⟩
  · exact hverdicts.map _ fun _ _ _ _ => trivial
  · rw [Evaluation.enter, Evaluation.enter, ← hselects, hparent.active]

theorem Splits.visit (h : Splits before after slot one other e e') (kind : NodeKind) :
    (e'.visit kind).1 = (e.visit kind).1 ∧
      Splits before after slot one other (e.visit kind).2 (e'.visit kind).2 := by
  have hverdicts := h.verdicts hslot hafter (hslot.splitBy_node kind)
  have hselects := selectedBy_parted before after slot one other hverdicts
  rw [← h.slots, ← h.slots'] at hselects
  refine ⟨?_, h.withParentCells (hverdicts.map (·.1) fun _ _ _ _ => trivial)⟩
  rw [Evaluation.visit, Evaluation.visit, ← hselects, Evaluation.selection, Evaluation.selection, h.active]

/-- Every event is observed alike. -/
theorem bisimilar_splits : Bisimilar (Splits before after slot one other) := by
  intro e e' h event parts input
  have hempty : e'.isEmpty = e.isEmpty := by rw [isEmpty, isEmpty, h.active]
  have hselection : ∀ {e e' : Evaluation}, Splits before after slot one other e e' →
      ∀ more, e'.selection more = e.selection more := by
    intro e e' h more
    rw [selection, selection, h.active]
  unfold observe
  rw [hempty]
  split
  · exact ⟨rfl, h⟩
  · split
    · rename_i edge _ name
      split
      · have henter := h.enter hslot hafter (name.slice input) (attributeValues parts input)
        exact ⟨hselection henter [], henter⟩
      · split
        · exact ⟨hselection h [], h.leave⟩
        · exact ⟨hselection h [], h⟩
    · split
      · exact h.visit hslot hafter _
      · exact ⟨hselection h [], h⟩

end Evaluation

section Paths

theorem slotsOf_around (before after : List Selector) (s : Selector) :
    slotsOf (before ++ s :: after) =
      slotsOf before ++ (s.paths.flatMap (slotsOfPath before.length s.dialect.ignoresCase) ++
        (after.zipIdx (before.length + 1)).flatMap fun (selector, i) =>
          selector.paths.flatMap (slotsOfPath i selector.dialect.ignoresCase)) := by
  rw [slotsOf, slotsOf, List.zipIdx_append, List.zipIdx_cons, List.flatMap_append, List.flatMap_cons, Nat.zero_add]

/-- The branches of a step as steps of their own, each of them a path. -/
def Step.alternatives (step : Step) : List Path :=
  step.branches.map fun branch => [{ step with branches := [branch] }]

variable {s : Selector} {step : Step} {one other : Branch}

/-- Among other selectors, the slots of the branches are those of the step. -/
theorem splits_ofSelectors (hpaths : s.paths = [[step]]) (hbranches : step.branches = [one, other])
    (before after : List Selector) :
    ∃ rest slot, slot.step = step ∧ slot.index = 0 ∧ (∀ first ∈ rest.head?, first.index = 0) ∧
      Splits (slotsOf before) rest slot one other (ofSelectors (before ++ s :: after))
        (ofSelectors (before ++ { s with paths := step.alternatives } :: after)) := by
  refine ⟨_, ⟨before.length, 0, true, s.dialect.ignoresCase, step⟩, rfl, rfl,
    index_head_slots (after.zipIdx (before.length + 1)), ?_⟩
  have halternatives : step.alternatives =
      [[{ step with branches := [one] }], [{ step with branches := [other] }]] := by
    rw [Step.alternatives, hbranches]
    rfl
  have hslots := slotsOf_around before after s
  have hslots' := slotsOf_around before after { s with paths := step.alternatives }
  rw [hpaths] at hslots
  rw [halternatives] at hslots' ⊢
  refine ⟨hslots, hslots', ?_, .nil, ?_⟩
  · rw [ofSelectors, ofSelectors, hslots, hslots']
    refine Parted.map (P := fun _ _ _ => True) ?_ (fun _ => emptyCell) fun _ _ _ _ => trivial
    exact .mk (slotsOf before) _ rfl trivial
  · simp [ofSelectors]

/-- Without a position filter the paths select together what the step selects. -/
theorem replaces_alternatives (hpaths : s.paths = [[step]]) (hbranches : step.branches = [one, other])
    (helements : ¬ one.node.isPseudo ∧ ¬ other.node.isPseudo) (hfilter : step.filter = none) :
    Replaces { s with paths := step.alternatives } s := by
  intro document dialect policy before after calls
  obtain ⟨rest, slot, hstep, hindex, hrest, hsplits⟩ := splits_ofSelectors hpaths hbranches before after
  have hslot : slot.IsTwofold one other :=
    ⟨hindex, hstep ▸ hbranches, helements, hstep ▸ hfilter⟩
  exact run_ofInput_bisimilar (bisimilar_splits hslot hrest) hsplits document dialect policy calls

end Paths

end MarkupStream.Selector
