import MarkupStream.Proofs.Places

/-!
Evaluation against the tree. After some events of a document the cells of an evaluation say of every
open element what the tree says of it: which places it satisfies, which places it or an element around
it satisfies, and how many of its children have passed the test of each. One event keeps this so, and
hence the selection of an event is the one that the tree asks for.
-/
namespace MarkupStream.Selector

section Cells

/-- What the cell of an element, or of the document, has to say about a place before an event. -/
def cellAt (o : Outline) (x : Nat) (parent : Option Nat) (a : Place) : Cell where
  matched := parent.any (a.satisfies o)
  reached := parent.any fun p => (p :: o.ancestors p).any (a.satisfies o)
  count := if a.step.filter.isSome then o.childCount a.admits parent x else 0

variable {o : Outline} {x : Nat} {a : Place}

/-- A child that passes the test is counted with its parent. -/
theorem cellAt_parent (hcounts : (o.node? x).any a.admits ∧ a.step.filter.isSome) :
    { cellAt o x (o.parent? x) a with count := (cellAt o x (o.parent? x) a).count + 1 } =
      cellAt o (x + 1) (o.parent? x) a := by
  simp [cellAt, hcounts, childCount_succ]

theorem cellAt_succ {parent : Option Nat}
    (h : ¬ (o.parent? x = parent ∧ (o.node? x).any a.admits ∧ a.step.filter.isSome)) :
    cellAt o (x + 1) parent a = cellAt o x parent a := by
  by_cases hfilter : a.step.filter.isSome
  · have hnot : ¬ (o.parent? x = parent ∧ (o.node? x).any a.admits) :=
      fun hcounts => h ⟨hcounts.1, hcounts.2, hfilter⟩
    simp only [cellAt, childCount_succ, if_neg hnot, Nat.add_zero]
  · simp only [cellAt, if_neg hfilter]

/-- An element or the document is reached if it or an element around it satisfies the place. -/
theorem reached_cellAt :
    (cellAt o x (o.parent? x) a).reached = (o.ancestors x).any (a.satisfies o) := by
  cases h : o.ancestors x with
  | nil => simp [cellAt, Outline.parent?, h]
  | cons p rest => simp [cellAt, Outline.parent?, h, ancestors_of_cons h]

/-- The cells of an element that has just begun. -/
theorem cellAt_self :
    cellAt o (x + 1) (some x) a =
      ⟨a.satisfies o x, (cellAt o (x + 1) (o.parent? x) a).reached || a.satisfies o x, 0⟩ := by
  have hreached : (cellAt o (x + 1) (o.parent? x) a).reached =
      (o.ancestors x).any (a.satisfies o) := reached_cellAt
  rw [hreached, cellAt, childCount_self, ite_self]
  simp [Bool.or_comm]

/-- The cell of the parent after a node has been presented to it. -/
theorem counted_cellAt {accepted : Bool} (haccepted : accepted = (o.node? x).any a.admits) :
    (if accepted && a.step.filter.isSome then
      { cellAt o x (o.parent? x) a with count := (cellAt o x (o.parent? x) a).count + 1 }
      else cellAt o x (o.parent? x) a) = cellAt o (x + 1) (o.parent? x) a := by
  by_cases hcounts : (o.node? x).any a.admits ∧ a.step.filter.isSome
  · rw [if_pos (by rw [haccepted]; simpa using hcounts), cellAt_parent hcounts]
  · rw [if_neg (by rw [haccepted]; simpa using hcounts), cellAt_succ fun h => hcounts h.2]

/-- The axis of a step leads to a node if its parent says so about the step before. -/
theorem satisfies_cellAt {previous : Option Place} {cell : Cell}
    (hlinked : a.before = [] ∨
      ∃ b, previous = some b ∧ a.before = b.trail ∧ a.ignoreCase = b.ignoreCase)
    (hcell : ∀ b, previous = some b → cell = cellAt o x (o.parent? x) b) :
    a.satisfies o x =
      (o.passes a.ignoreCase a.step x && a.slot.axisAllows (o.parent? x).isNone cell) := by
  rw [Place.satisfies, Place.trail, Outline.satisfies.eq_def, Slot.axisAllows, Place.slot]
  rcases hlinked with hfirst | ⟨b, hb, hbefore, hcase⟩
  · cases haxis : a.step.axis <;> simp only [hfirst, haxis, List.length_nil]
  · have hsatisfies : b.satisfies o = o.satisfies a.ignoreCase (b.step :: b.before) := by
      rw [hcase]
      rfl
    rw [hcell b hb, hbefore]
    cases haxis : a.step.axis with
    | child => simp only [Place.trail, haxis, List.length_cons, cellAt, hsatisfies]
    | descendant => simp only [Place.trail, haxis, List.length_cons, reached_cellAt, hsatisfies]

/-- A node passes a step if the place of the step admits it, and the count that then stands in the
cell of its parent is accepted. -/
theorem passes_cellAt :
    o.passes a.ignoreCase a.step x = ((o.node? x).any a.admits &&
      a.step.filter.all (·.accepts (cellAt o (x + 1) (o.parent? x) a).count)) := by
  rw [Outline.passes, cellAt]
  cases hfilter : a.step.filter with
  | none => rfl
  | some filter => rfl

/-- Presenting a node to the places of its parent's cells counts it and tells which it satisfies. -/
theorem present_places {accepts : Slot → Bool} {places : List Place} {previous : Option Place}
    {cell : Cell} (haccepts : ∀ a ∈ places, accepts a.slot = (o.node? x).any a.admits)
    (hlinked : Linked previous places)
    (hcell : ∀ b, previous = some b → cell = cellAt o x (o.parent? x) b) :
    Evaluation.present accepts (o.parent? x).isNone cell (places.map Place.slot)
        (places.map (cellAt o x (o.parent? x))) =
      places.map fun a => (cellAt o (x + 1) (o.parent? x) a, a.satisfies o x) := by
  induction places generalizing previous cell with
  | nil => rfl
  | cons a rest ih =>
    have haccepted := haccepts a List.mem_cons_self
    have hcounted := counted_cellAt haccepted
    have hsatisfied : (accepts a.slot &&
        a.slot.step.filter.all (·.accepts (cellAt o (x + 1) (o.parent? x) a).count) &&
        a.slot.axisAllows (o.parent? x).isNone cell) = a.satisfies o x := by
      rw [satisfies_cellAt hlinked.1 hcell, passes_cellAt, haccepted]
      rfl
    -- The axis of the next place looks at this cell as it was before the node.
    have hprevious : ∀ b, some a = some b →
        cellAt o x (o.parent? x) a = cellAt o x (o.parent? x) b := by
      rintro b ⟨⟩
      rfl
    have hrest := ih (fun b hb => haccepts b (List.mem_cons_of_mem a hb)) hlinked.2 hprevious
    rw [List.map_cons, List.map_cons, List.map_cons, Evaluation.present, Place.slot_step, hcounted,
      ← hrest, ← hsatisfied]
    rfl

end Cells

section Evaluations

open Evaluation

/-- The selectors that select an element. -/
def selectsAt (o : Outline) (selectors : List Selector) (p : Nat) : List Nat :=
  selectedBy (slotsOf selectors) ((placesOf selectors).map (·.satisfies o p))

/-- The scope of an open element before an event. -/
def scopeAt (o : Outline) (selectors : List Selector) (x p : Nat) : Scope :=
  ⟨(placesOf selectors).map (cellAt o x (some p)), selectsAt o selectors p⟩

/-- What an evaluation has to be before an event. -/
def evaluationAt (o : Outline) (selectors : List Selector) (x : Nat) : Evaluation where
  slots := slotsOf selectors
  document := (placesOf selectors).map (cellAt o x none)
  scopes := (o.ancestors x).map (scopeAt o selectors x)
  active := (List.range selectors.length).map fun s =>
    (o.ancestors x).countP fun p => (selectsAt o selectors p).contains s

variable {o : Outline} {selectors : List Selector} {x : Nat}

theorem evaluationAt_zero : evaluationAt o selectors 0 = ofSelectors selectors := by
  have hcell : cellAt o 0 none = fun _ => emptyCell := by
    funext a
    simp [cellAt, emptyCell, Outline.childCount]
  have hdocument : (placesOf selectors).map (cellAt o 0 none) =
      (slotsOf selectors).map fun _ => emptyCell := by
    rw [hcell, ← slots_placesOf, List.map_map]
    rfl
  have hactive : ((List.range selectors.length).map fun _ => 0) = selectors.map fun _ => 0 := by
    simp [List.map_const']
  rw [evaluationAt, ofSelectors, hdocument]
  exact congrArg _ hactive

theorem parentCells_evaluationAt :
    (evaluationAt o selectors x).parentCells =
      (placesOf selectors).map (cellAt o x (o.parent? x)) := by
  rw [parentCells, evaluationAt, Outline.parent?]
  cases o.ancestors x <;> rfl

/-- The verdicts on a node: the cells of its parent with the node counted, and whether it satisfies
the places. -/
theorem verdicts_evaluationAt (selectors : List Selector) {accepts : Slot → Bool}
    (haccepts : ∀ a ∈ placesOf selectors, accepts a.slot = (o.node? x).any a.admits) :
    (evaluationAt o selectors x).verdicts accepts =
      (placesOf selectors).map fun a => (cellAt o (x + 1) (o.parent? x) a, a.satisfies o x) := by
  have hroot : (evaluationAt o selectors x).scopes.isEmpty = (o.parent? x).isNone := by
    rw [evaluationAt, Outline.parent?]
    cases o.ancestors x <;> rfl
  rw [verdicts, hroot, parentCells_evaluationAt]
  change present _ _ _ (slotsOf selectors) _ = _
  rw [← slots_placesOf]
  exact present_places haccepts (linked_placesOf selectors) nofun

theorem map_fst_verdicts (selectors : List Selector) {accepts : Slot → Bool}
    (haccepts : ∀ a ∈ placesOf selectors, accepts a.slot = (o.node? x).any a.admits) :
    ((evaluationAt o selectors x).verdicts accepts).map (·.1) =
      (placesOf selectors).map (cellAt o (x + 1) (o.parent? x)) := by
  rw [verdicts_evaluationAt selectors haccepts, List.map_map]
  rfl

theorem map_snd_verdicts (selectors : List Selector) {accepts : Slot → Bool}
    (haccepts : ∀ a ∈ placesOf selectors, accepts a.slot = (o.node? x).any a.admits) :
    ((evaluationAt o selectors x).verdicts accepts).map (·.2) =
      (placesOf selectors).map (·.satisfies o x) := by
  rw [verdicts_evaluationAt selectors haccepts, List.map_map]
  rfl

/-- The cells of an element, from what its parent finds out about it. -/
theorem map_cells_verdicts (selectors : List Selector) {accepts : Slot → Bool}
    (haccepts : ∀ a ∈ placesOf selectors, accepts a.slot = (o.node? x).any a.admits) :
    ((evaluationAt o selectors x).verdicts accepts).map
        (fun (parent, yes) => (⟨yes, parent.reached || yes, 0⟩ : Cell)) =
      (placesOf selectors).map (cellAt o (x + 1) (some x)) := by
  rw [verdicts_evaluationAt selectors haccepts, List.map_map]
  exact List.map_congr_left fun a _ => cellAt_self.symm

/-- Only the cells of the parent of a node change with the node. -/
theorem withParentCells_evaluationAt :
    (evaluationAt o selectors x).withParentCells
        ((placesOf selectors).map (cellAt o (x + 1) (o.parent? x))) =
      { evaluationAt o selectors x with
        document := (placesOf selectors).map (cellAt o (x + 1) none)
        scopes := (o.ancestors x).map (scopeAt o selectors (x + 1)) } := by
  have hother : ∀ parent, o.parent? x ≠ parent → cellAt o (x + 1) parent = cellAt o x parent := by
    intro parent hne
    funext a
    exact cellAt_succ fun h => hne h.1
  cases hancestors : o.ancestors x with
  | nil =>
    have hparent : o.parent? x = none := by rw [Outline.parent?, hancestors]; rfl
    rw [withParentCells, evaluationAt, hancestors, hparent]
    rfl
  | cons p outer =>
    have hparent : o.parent? x = some p := by rw [Outline.parent?, hancestors]; rfl
    have houter : outer.map (scopeAt o selectors (x + 1)) = outer.map (scopeAt o selectors x) := by
      refine List.map_congr_left fun q hq => ?_
      -- No element stands twice among ancestors, so an outer one is not the parent.
      have hne : o.parent? x ≠ some q := by
        intro hq'
        rw [hparent] at hq'
        obtain rfl := Option.some.inj hq'
        have hnodup := nodup_ancestors (o := o) x
        rw [hancestors] at hnodup
        exact (List.nodup_cons.1 hnodup).1 hq
      rw [scopeAt, scopeAt, hother _ hne]
    have hdocument : cellAt o (x + 1) none = cellAt o x none := hother none (by simp [hparent])
    rw [withParentCells, evaluationAt, hancestors, hparent, hdocument, List.map_cons, List.map_cons,
      houter]
    rfl

/-- An event that is no node changes no cells. -/
theorem scopeAt_succ (selectors : List Selector) (hnode : o.node? x = none) :
    (placesOf selectors).map (cellAt o (x + 1) none) = (placesOf selectors).map (cellAt o x none) ∧
      scopeAt o selectors (x + 1) = scopeAt o selectors x := by
  have hcell : ∀ parent, cellAt o (x + 1) parent = cellAt o x parent := by
    intro parent
    funext a
    exact cellAt_succ (by simp [hnode])
  refine ⟨by rw [hcell], ?_⟩
  funext p
  rw [scopeAt, scopeAt, hcell]

theorem evaluationAt_inside (hnode : o.node? x = none)
    (hancestors : o.ancestors (x + 1) = o.ancestors x) :
    evaluationAt o selectors (x + 1) = evaluationAt o selectors x := by
  obtain ⟨hdocument, hscope⟩ := scopeAt_succ selectors hnode
  rw [evaluationAt, evaluationAt, hdocument, hscope, hancestors]

theorem zipIdx_map_range {α : Type} (f : Nat → α) (n : Nat) :
    ((List.range n).map f).zipIdx = (List.range n).map fun s => (f s, s) :=
  List.ext_getElem (by simp) (by simp)

theorem adjust_map_range (change : Nat → Nat) (selects : List Nat) (f : Nat → Nat) (n : Nat) :
    adjust change selects ((List.range n).map f) =
      (List.range n).map fun s => if selects.contains s then change (f s) else f s := by
  rw [adjust, zipIdx_map_range, List.map_map]
  rfl

theorem leave_evaluationAt (hnode : o.node? x = none)
    (hancestors : o.ancestors (x + 1) = (o.ancestors x).tail) :
    (evaluationAt o selectors x).leave = evaluationAt o selectors (x + 1) := by
  obtain ⟨hdocument, hscope⟩ := scopeAt_succ selectors hnode
  rw [leave, evaluationAt, evaluationAt, hdocument, hscope, hancestors]
  cases o.ancestors x with
  | nil => rfl
  | cons p outer =>
    simp only [List.map_cons, List.tail_cons, scopeAt, adjust_map_range, List.countP_cons]
    congr 1
    refine List.map_congr_left fun s _ => ?_
    split <;> simp_all

theorem acceptsElement_places {name : Bytes} {attributes : AttributeValues}
    (hnode : o.node? x = some (.element name attributes)) (a : Place) :
    a.slot.acceptsElement name attributes = (o.node? x).any a.admits := by
  have hbranch : Branch.acceptsElement a.ignoreCase name attributes =
      fun branch => branch.admits a.ignoreCase (.element name attributes) := by
    funext branch
    have htest : branch.node.acceptsElement a.ignoreCase name =
        branch.node.admits a.ignoreCase (.element name attributes) := by
      rcases branch.node with _ | _ | _ | _ <;> rfl
    rw [Branch.acceptsElement, Branch.admits, htest]
    rfl
  rw [hnode, Slot.acceptsElement]
  change a.step.branches.any (Branch.acceptsElement a.ignoreCase name attributes) = _
  rw [hbranch]
  rfl

theorem enter_evaluationAt {name : Bytes} {attributes : AttributeValues}
    (hnode : o.node? x = some (.element name attributes))
    (hancestors : o.ancestors (x + 1) = x :: o.ancestors x) :
    (evaluationAt o selectors x).enter name attributes = evaluationAt o selectors (x + 1) := by
  have haccepts : ∀ a ∈ placesOf selectors,
      a.slot.acceptsElement name attributes = (o.node? x).any a.admits :=
    fun a _ => acceptsElement_places hnode a
  have hparents := map_fst_verdicts selectors haccepts
  have hsatisfied := map_snd_verdicts selectors haccepts
  have hcells := map_cells_verdicts selectors haccepts
  simp only [enter, hcells, hparents, hsatisfied, withParentCells_evaluationAt]
  have hactive : adjust (· + 1) (selectedBy (slotsOf selectors)
      ((placesOf selectors).map (·.satisfies o x))) (evaluationAt o selectors x).active =
        (evaluationAt o selectors (x + 1)).active := by
    rw [evaluationAt, evaluationAt, hancestors, adjust_map_range]
    refine List.map_congr_left fun s _ => ?_
    rw [List.countP_cons, ← selectsAt]
    split <;> rfl
  change Evaluation.mk _ _ _ (adjust _ (selectedBy (slotsOf selectors) _) _) = _
  rw [hactive, evaluationAt, evaluationAt, hancestors, List.map_cons]
  rfl

/-- Steps about elements leave other nodes alone, by evaluation and by meaning. -/
theorem Step.IsElemental.other {step : Step} (h : step.IsElemental) (ignoreCase : Bool)
    (kind : NodeKind) : step.pseudo? = none ∧ step.admits ignoreCase (.other kind) = false := by
  constructor
  · rw [Step.pseudo?]
    split
    · rename_i p predicate rest hbranches
      exact absurd rfl (h ⟨.pseudo p, predicate⟩ (by rw [hbranches]; exact List.mem_cons_self))
    · rfl
  · refine List.any_eq_false.2 fun branch hbranch hadmits => ?_
    have htest := (Bool.and_eq_true_iff.1 hadmits).1
    have hnode := h branch hbranch
    cases hpseudo : branch.node with
    | pseudo p => exact hnode (by rw [hpseudo]; rfl)
    | any | named => rw [hpseudo] at htest; cases htest

/-- A place accepts the nodes that it admits, because of the form that compilation gives to steps. -/
theorem acceptsNode_places (hformed : ∀ s ∈ selectors, s.IsFormed)
    {kind : NodeKind} (hnode : o.node? x = some (.other kind)) {a : Place}
    (ha : a ∈ placesOf selectors) : a.slot.acceptsNode kind = (o.node? x).any a.admits := by
  obtain ⟨i, selector, hi, path, hpath, ha⟩ := mem_placesOf.1 ha
  have hform := form_placesFrom (hformed selector (List.mem_of_getElem? hi) path hpath) ha
  rw [hnode, Option.any_some, Place.admits, Slot.acceptsNode, Place.slot_step]
  rcases hform with helemental | ⟨hlast, p, hnodal⟩
  · obtain ⟨hpseudo, hadmits⟩ := helemental.other a.ignoreCase kind
    rw [hpseudo, hadmits]
    simp
  · have hslot : a.slot.isLast = true := hlast
    rw [hslot, Step.pseudo?, Step.admits, hnodal]
    cases p with
    | content => rfl
    | ofKind k => simp [Branch.admits, NodeTest.admits, PseudoNode.acceptsKind]

/-- A node is visited with the selectors that it is a last step of. -/
theorem visit_evaluationAt (hformed : ∀ s ∈ selectors, s.IsFormed)
    {kind : NodeKind} (hnode : o.node? x = some (.other kind))
    (hancestors : o.ancestors (x + 1) = o.ancestors x) :
    (evaluationAt o selectors x).visit kind =
      ((evaluationAt o selectors x).selection (selectsAt o selectors x),
        evaluationAt o selectors (x + 1)) := by
  have haccepts : ∀ a ∈ placesOf selectors,
      a.slot.acceptsNode kind = (o.node? x).any a.admits :=
    fun a ha => acceptsNode_places hformed hnode ha
  have hparents := map_fst_verdicts selectors haccepts
  have hsatisfied := map_snd_verdicts selectors haccepts
  have hnext : { evaluationAt o selectors x with
      document := (placesOf selectors).map (cellAt o (x + 1) none)
      scopes := (o.ancestors x).map (scopeAt o selectors (x + 1)) } =
        evaluationAt o selectors (x + 1) := by
    rw [evaluationAt, evaluationAt, hancestors]
  rw [visit, hparents, hsatisfied, withParentCells_evaluationAt, hnext]
  rfl

end Evaluations

section Selections

open Evaluation

variable {o : Outline} {selectors : List Selector} {x : Nat}

theorem mem_selectsAt {s p : Nat} :
    s ∈ selectsAt o selectors p ↔
      ∃ selector, selectors[s]? = some selector ∧ ∃ path ∈ selector.paths,
        o.satisfies selector.dialect.ignoresCase path.reverse p := by
  rw [selectsAt, selectedBy, ← slots_placesOf, List.zip_map', List.filterMap_map,
    List.mem_eraseDups, List.mem_filterMap, ← exists_place_iff]
  refine exists_congr fun a => and_congr_right fun _ => ?_
  rw [Function.comp_apply]
  dsimp only
  rw [Option.ite_none_right_eq_some, Bool.and_eq_true_iff, and_assoc, Option.some.injEq]
  rfl

theorem matched_selection (more : List Nat) :
    ((evaluationAt o selectors x).selection more).matched =
      (List.range selectors.length).filter fun s =>
        0 < (o.ancestors x).countP (fun p => (selectsAt o selectors p).contains s) ||
          more.contains s := by
  rw [selection, evaluationAt, zipIdx_map_range, List.filter_map, List.map_map]
  exact List.map_id _

/-- What a selection names, in terms of the elements around an event and of what is selected besides. -/
theorem mem_selection {more : List Nat} {s : Nat} :
    s ∈ ((evaluationAt o selectors x).selection more).matched ↔
      s < selectors.length ∧ ((∃ p ∈ o.ancestors x, s ∈ selectsAt o selectors p) ∨ s ∈ more) := by
  simp [matched_selection, List.countP_pos_iff]

theorem ascending_selection (more : List Nat) :
    ((evaluationAt o selectors x).selection more).matched.Pairwise (· < ·) := by
  rw [matched_selection]
  exact List.pairwise_lt_range.filter _

/-- The selection of an event from an evaluation that knows the elements around it, if it also counts
the event itself where that is a node. -/
theorem isSelection_selection {y : Nat} {more : List Nat}
    (henclosing : o.enclosing x = o.ancestors y)
    (hmore : ∀ s, s ∈ more ↔ o.events[x]?.any Event.isNode ∧ s ∈ selectsAt o selectors x) :
    o.IsSelection selectors x ((evaluationAt o selectors y).selection more) := by
  refine ⟨ascending_selection more, fun s => ?_⟩
  rw [mem_selection, hmore]
  constructor
  · rintro ⟨-, ⟨p, hp, hs⟩ | ⟨hnode, hs⟩⟩
    · obtain ⟨selector, hselector, path, hpath, hsatisfies⟩ := mem_selectsAt.1 hs
      rw [← henclosing] at hp
      exact ⟨selector, hselector, path, hpath, p, .inl hp, hsatisfies⟩
    · obtain ⟨selector, hselector, path, hpath, hsatisfies⟩ := mem_selectsAt.1 hs
      exact ⟨selector, hselector, path, hpath, x, .inr ⟨rfl, hnode⟩, hsatisfies⟩
  · rintro ⟨selector, hselector, path, hpath, p, hp, hsatisfies⟩
    have hs : s ∈ selectsAt o selectors p :=
      mem_selectsAt.2 ⟨selector, hselector, path, hpath, hsatisfies⟩
    refine ⟨(List.getElem?_eq_some_iff.1 hselector).1, ?_⟩
    rcases hp with hp | ⟨rfl, hnode⟩
    · rw [henclosing] at hp
      exact .inl ⟨p, hp, hs⟩
    · exact .inr ⟨hnode, hs⟩

theorem observe_kind (hformed : ∀ s ∈ selectors, s.IsFormed) {event : Event}
    {kind : NodeKind} (hevent : o.events[x]? = some event) (hkind : event.nodeKind? = some kind) :
    ∃ selection, (evaluationAt o selectors x).visit kind =
        (selection, evaluationAt o selectors (x + 1)) ∧
      o.IsSelection selectors x selection := by
  obtain ⟨hstart, hend⟩ := isElement_of_nodeKind? hkind
  have hnode := node?_other hevent hkind
  refine ⟨_, visit_evaluationAt hformed hnode (ancestors_inside hevent hstart hend), ?_⟩
  refine isSelection_selection (enclosing_inside hevent hstart) fun s => ?_
  simp [hevent, Event.isNode, hkind]

/-- Away from nodes and starts of elements a selection is about the elements around. -/
theorem isSelection_inside (selectors : List Selector) {event : Event}
    (hevent : o.events[x]? = some event) (hkind : event.nodeKind? = none)
    (hstart : ¬ event.isElementStart) :
    o.IsSelection selectors x ((evaluationAt o selectors x).selection []) :=
  isSelection_selection (enclosing_inside hevent hstart) (by simp [hevent, Event.isNode, hkind])

/-- What an evaluation does with the next event: it stays what it has to be, and the selection is the
one that the tree asks for. -/
theorem observe_evaluationAt (hne : selectors ≠ [])
    (hformed : ∀ s ∈ selectors, s.IsFormed) {event : Event}
    {parts : List TagPart} (hevent : o.events[x]? = some event)
    (hparts : event.isElementStart → leadingParts (o.events.drop (x + 1)) = parts) :
    ∃ selection, (evaluationAt o selectors x).observe event parts o.input =
        (selection, evaluationAt o selectors (x + 1)) ∧
      o.IsSelection selectors x selection := by
  have hempty : (evaluationAt o selectors x).isEmpty = false := by
    cases selectors with
    | nil => exact absurd rfl hne
    | cons first rest => simp [Evaluation.isEmpty, evaluationAt]
  unfold observe
  rw [hempty, if_neg Bool.false_ne_true]
  cases event with
  | element edge span name =>
    dsimp only
    by_cases hstart : edge.isStart
    · have hnode := node?_eq hevent
      rw [nodeOf?, if_pos hstart, hparts hstart] at hnode
      have hancestors := ancestors_start hevent hstart
      rw [if_pos hstart, enter_evaluationAt hnode hancestors]
      refine ⟨_, rfl, isSelection_selection ?_ (by simp [hevent, Event.isNode, Event.nodeKind?])⟩
      rw [hancestors, enclosing_start hevent hstart]
    · have hnode := node?_inside hevent rfl hstart
      have hselection := isSelection_inside selectors hevent rfl hstart
      rw [if_neg hstart]
      by_cases hend : edge.isEnd
      · rw [if_pos hend, leave_evaluationAt hnode (ancestors_end hevent hend)]
        exact ⟨_, rfl, hselection⟩
      · have hancestors := ancestors_inside hevent hstart hend
        rw [if_neg hend, evaluationAt_inside hnode hancestors]
        exact ⟨_, rfl, hselection⟩
  | documentStart | documentEnd | attr | innerWhitespace =>
    have hnode := node?_inside hevent rfl nofun
    rw [evaluationAt_inside hnode (ancestors_inside hevent nofun nofun)]
    exact ⟨_, rfl, isSelection_inside selectors hevent rfl nofun⟩
  | text | comment | cdata | doctype | xmlDeclaration | instruction =>
    exact observe_kind hformed hevent rfl

/-- An evaluation is what it has to be before an event; without selectors it never changes. -/
def Follows (o : Outline) (selectors : List Selector) (x : Nat) (e : Evaluation) : Prop :=
  selectors = [] ∧ e.active = [] ∨ selectors ≠ [] ∧ e = evaluationAt o selectors x

theorem follows_ofSelectors (o : Outline) (selectors : List Selector) :
    Follows o selectors 0 (ofSelectors selectors) := by
  by_cases h : selectors = []
  · exact .inl ⟨h, by rw [h]; rfl⟩
  · exact .inr ⟨h, evaluationAt_zero.symm⟩

/-- One event: the evaluation goes on as it has to, and the selection is the one that the tree asks
for. -/
theorem Follows.observe {e : Evaluation}
    (hformed : ∀ s ∈ selectors, s.IsFormed) (h : Follows o selectors x e)
    {event : Event} {parts : List TagPart} (hevent : o.events[x]? = some event)
    (hparts : event.isElementStart → leadingParts (o.events.drop (x + 1)) = parts) :
    Follows o selectors (x + 1) (e.observe event parts o.input).2 ∧
      o.IsSelection selectors x (e.observe event parts o.input).1 := by
  rcases h with ⟨rfl, hactive⟩ | ⟨hne, rfl⟩
  · have hnothing : e.observe event parts o.input = (⟨[]⟩, e) := by
      simp [Evaluation.observe, isEmpty, hactive]
    rw [hnothing]
    exact ⟨.inl ⟨rfl, hactive⟩, .nil, by simp⟩
  · obtain ⟨selection, hobserve, hselection⟩ := observe_evaluationAt hne hformed hevent hparts
    rw [hobserve]
    exact ⟨.inr ⟨hne, rfl⟩, hselection⟩

end Selections

end MarkupStream.Selector
