import MarkupStream.Proofs.SelectorForm
import MarkupStream.Selector.Evaluation

/-!
What compilation makes of a step. As it is written, a step asks for its conditions and for a name; with a
resolver a fragment that is declared under the name will do as well. Compilation puts the conditions into one
predicate and the fragment into a second branch, and evaluation accepts and counts the elements that the
written step means, each of them once.
-/
namespace MarkupStream.Selector

section Meaning

/-- A reference holds of attributes if the predicate that its text reads as does. -/
def Resolver.Holds (resolver : Resolver) (reference : String) (ignoreCase : Bool)
    (attributes : AttributeValues) : Prop :=
  ∃ p, parsePredicate (resolver reference) = .ok p ∧ p.holds ignoreCase attributes

/-- There is an attribute of the name, and the first one has a value that is not empty. -/
def AttributeValues.Declares (attributes : AttributeValues) (ignoreCase : Bool) (name : String) : Prop :=
  ∃ value, attributes.value? ignoreCase (Bytes.ofString name) = some value ∧ value ≠ []

/-- Without a resolver a reference asks for any fragment. -/
def Condition.Holds (resolver : Option Resolver) (ignoreCase : Bool) (attributes : AttributeValues) :
    Condition → Prop
  | .predicate p => p.holds ignoreCase attributes
  | .reference name _ =>
    match resolver with
    | some resolver => resolver.Holds name ignoreCase attributes
    | none => attributes.Declares ignoreCase "th:fragment" ∨
        attributes.Declares ignoreCase "data-th-fragment"

/-- A step of a path takes a fragment for the element that it names. -/
structure StepExpr.TakesFragment (step : StepExpr) (path : PathExpr) (name : String) : Prop where
  node : step.node = .named name
  own : ∀ condition ∈ step.conditions, ¬ condition.isReference
  elements : ∀ last ∈ path.getLast?, last.node ≠ .pseudo .content

/-- What a step of a path asks of an element. -/
structure StepExpr.Means (step : StepExpr) (path : PathExpr) (resolver : Option Resolver)
    (ignoreCase : Bool) (name : Bytes) (attributes : AttributeValues) : Prop where
  conditions : ∀ condition ∈ step.conditions, condition.Holds resolver ignoreCase attributes
  node : step.node.acceptsElement ignoreCase name ∨
    ∃ resolve ∈ resolver, ∃ fragment, step.TakesFragment path fragment ∧
      resolve.Holds fragment ignoreCase attributes

/-- A compiled step goes where the written one goes, it accepts the elements that this one means, and where
there is a position filter it counts each of them once with its parent, whichever branches accept it. -/
structure Step.Realizes (step : Step) (expr : StepExpr) (path : PathExpr) (resolver : Option Resolver)
    (ignoreCase : Bool) : Prop where
  axis : step.axis = expr.axis
  filter : step.filter = expr.filter
  accepts : ∀ name attributes, step.branches.any (·.acceptsElement ignoreCase name attributes) ↔
    expr.Means path resolver ignoreCase name attributes
  counts : ∀ (e : Evaluation) (i : Nat) (slot : Slot) (cell : Cell) name attributes,
    e.slots[i]? = some slot → slot.step = step → slot.ignoreCase = ignoreCase →
    e.parentCells[i]? = some cell →
    ∃ count, (e.enter name attributes).leave.parentCells[i]? = some { cell with count } ∧
      (step.filter.isSome ∧ expr.Means path resolver ignoreCase name attributes →
        count = cell.count + 1) ∧
      (¬ (step.filter.isSome ∧ expr.Means path resolver ignoreCase name attributes) →
        count = cell.count)

end Meaning

section Compilation

variable {source : String} {resolver : Option Resolver} {ignoreCase : Bool}
  {attributes : AttributeValues}

theorem holds_conjoin (p : Option Predicate) (q : Predicate) :
    (conjoin p q).holds ignoreCase attributes =
      (p.all (·.holds ignoreCase attributes) && q.holds ignoreCase attributes) := by
  cases p <;> rfl

theorem parsePredicate_of_resolveReference {resolve : Resolver} {reference : String} {offset length : Nat}
    {p : Predicate} (h : resolveReference source resolve reference offset length = .ok p) :
    parsePredicate (resolve reference) = .ok p := by
  rw [resolveReference] at h
  split at h
  · rename_i hparse
    rwa [← Except.ok.inj h]
  · cases h

theorem holds_resolveReference {resolve : Resolver} {reference : String} {offset length : Nat}
    {p : Predicate} (h : resolveReference source resolve reference offset length = .ok p) :
    p.holds ignoreCase attributes ↔ resolve.Holds reference ignoreCase attributes := by
  have hparse := parsePredicate_of_resolveReference h
  constructor
  · intro hp
    exact ⟨p, hparse, hp⟩
  · rintro ⟨q, hq, hholds⟩
    obtain rfl := Except.ok.inj (hparse.symm.trans hq)
    exact hholds

/-- A comparison with the empty value, of an attribute whose value is not taken apart. -/
theorem holds_notEqual_empty {name : String}
    (hname : ¬ isClassName ignoreCase (Bytes.ofString name)) :
    (Predicate.compare name .notEqual "").holds ignoreCase attributes ↔
      attributes.Declares ignoreCase name := by
  have hempty : Bytes.ofString "" = [] := by decide
  rw [Predicate.holds, AttributeValues.Declares]
  cases attributes.value? ignoreCase (Bytes.ofString name) with
  | none => simp
  | some value => simp [Comparison.holds, equalValue, hname, hempty]

theorem holds_isDeclared :
    FragmentAttribute.standard.isDeclared.holds ignoreCase attributes ↔
      attributes.Declares ignoreCase "th:fragment" ∨
        attributes.Declares ignoreCase "data-th-fragment" := by
  have hname : ¬ isClassName ignoreCase (Bytes.ofString "th:fragment") := by
    cases ignoreCase <;> decide
  have hdata : ¬ isClassName ignoreCase (Bytes.ofString "data-th-fragment") := by
    cases ignoreCase <;> decide
  have hdataName : FragmentAttribute.standard.dataName = "data-th-fragment" := by decide +kernel
  rw [FragmentAttribute.isDeclared, Predicate.holds, Bool.or_eq_true, hdataName,
    holds_notEqual_empty hdata]
  exact or_congr_left (holds_notEqual_empty hname)

theorem holds_compileCondition {condition : Condition} {p : Predicate}
    (h : compileCondition source resolver condition = .ok p) :
    p.holds ignoreCase attributes ↔ condition.Holds resolver ignoreCase attributes := by
  cases condition with
  | predicate q =>
    obtain rfl := Except.ok.inj h
    exact Iff.rfl
  | reference name offset =>
    cases resolver with
    | some resolve => exact holds_resolveReference h
    | none =>
      obtain rfl := Except.ok.inj h
      exact holds_isDeclared

/-- The predicate of a step holds just if all its conditions do. -/
theorem holds_compileConditions {conditions : List Condition} {found predicate : Option Predicate}
    (h : compileConditions source resolver found conditions = .ok predicate) :
    predicate.all (·.holds ignoreCase attributes) ↔
      found.all (·.holds ignoreCase attributes) ∧
        ∀ condition ∈ conditions, condition.Holds resolver ignoreCase attributes := by
  induction conditions generalizing found with
  | nil =>
    obtain rfl := Except.ok.inj h
    simp
  | cons condition rest ih =>
    rw [compileConditions] at h
    split at h
    · rename_i p hp
      rw [ih h, Option.all_some, holds_conjoin, Bool.and_eq_true, holds_compileCondition hp,
        List.forall_mem_cons, and_assoc]
    · cases h

theorem takesFragment_iff {step : StepExpr} {path : PathExpr} {fragment : String} :
    step.TakesFragment path fragment ↔ step.node = .named fragment ∧
      ((path.getLast?.map (·.node) != some (.pseudo .content)) &&
        !step.conditions.any Condition.isReference) := by
  rw [Bool.and_eq_true, bne_iff_ne, Bool.not_eq_true', List.any_eq_false]
  constructor
  · intro h
    refine ⟨h.node, ?_, h.own⟩
    intro hlast
    obtain ⟨last, hmem, hnode⟩ := Option.map_eq_some_iff.1 hlast
    exact h.elements last hmem hnode
  · rintro ⟨hnode, hlast, hown⟩
    refine ⟨hnode, hown, ?_⟩
    intro last hmem hcontent
    exact hlast (Option.map_eq_some_iff.2 ⟨last, hmem, hcontent⟩)

/-- A branch for any element with the fragment is beside one for the name if the step takes a fragment, and
there is no second branch otherwise. -/
theorem cases_compileBranches {step : StepExpr} {path : PathExpr} {predicate : Option Predicate}
    {branches : List Branch}
    (h : compileBranches source resolver (path.getLast?.map (·.node) != some (.pseudo .content)) step
      predicate = .ok branches) :
    (∃ resolve ∈ resolver, ∃ fragment p, step.TakesFragment path fragment ∧
        parsePredicate (resolve fragment) = .ok p ∧
        branches = [⟨step.node, predicate⟩, ⟨.any, some (conjoin predicate p)⟩]) ∨
      (∀ resolve ∈ resolver, ∀ fragment, ¬ step.TakesFragment path fragment) ∧
        branches = [⟨step.node, predicate⟩] := by
  unfold compileBranches at h
  split at h
  · rename_i name resolve hnode
    split at h
    · rename_i htakes
      split at h
      · rename_i p hp
        left
        refine ⟨resolve, rfl, name, p, takesFragment_iff.2 ⟨hnode, htakes⟩,
          parsePredicate_of_resolveReference hp, ?_⟩
        rw [hnode]
        exact (Except.ok.inj h).symm
      · cases h
    · rename_i htakes
      right
      refine ⟨fun _ _ fragment hfragment => htakes (takesFragment_iff.1 hfragment).2, ?_⟩
      rw [hnode]
      exact (Except.ok.inj h).symm
  · rename_i hother
    right
    refine ⟨?_, (Except.ok.inj h).symm⟩
    rintro resolve hresolve fragment hfragment
    exact hother fragment resolve hfragment.node hresolve

/-- The branches of a step accept an element by its name or by a fragment, and in either case by the
predicate of the step. -/
theorem accepts_compileBranches {step : StepExpr} {path : PathExpr} {predicate : Option Predicate}
    {branches : List Branch} {name : Bytes}
    (h : compileBranches source resolver (path.getLast?.map (·.node) != some (.pseudo .content)) step
      predicate = .ok branches) :
    branches.any (·.acceptsElement ignoreCase name attributes) ↔
      predicate.all (·.holds ignoreCase attributes) ∧
        (step.node.acceptsElement ignoreCase name ∨
          ∃ resolve ∈ resolver, ∃ fragment, step.TakesFragment path fragment ∧
            resolve.Holds fragment ignoreCase attributes) := by
  rcases cases_compileBranches h with
    ⟨resolve, hresolve, fragment, p, htakes, hparse, rfl⟩ | ⟨hnone, rfl⟩
  · have hfragment : (∃ resolve ∈ resolver, ∃ fragment, step.TakesFragment path fragment ∧
        resolve.Holds fragment ignoreCase attributes) ↔ p.holds ignoreCase attributes := by
      constructor
      · rintro ⟨resolve', hresolve', fragment', htakes', q, hq, hholds⟩
        obtain rfl := Option.mem_unique hresolve hresolve'
        obtain rfl := NodeTest.named.inj (htakes.node.symm.trans htakes'.node)
        obtain rfl := Except.ok.inj (hparse.symm.trans hq)
        exact hholds
      · intro hholds
        exact ⟨resolve, hresolve, fragment, htakes, p, hparse, hholds⟩
    rw [hfragment]
    simp only [List.any_cons, List.any_nil, Bool.or_false, Branch.acceptsElement, Option.all_some,
      holds_conjoin, NodeTest.acceptsElement, Bool.true_and, Bool.or_eq_true, Bool.and_eq_true]
    tauto
  · have hfragment : ¬ ∃ resolve ∈ resolver, ∃ fragment, step.TakesFragment path fragment ∧
        resolve.Holds fragment ignoreCase attributes := by
      rintro ⟨resolve, hresolve, fragment, htakes, -⟩
      exact hnone resolve hresolve fragment htakes
    rw [List.any_cons, List.any_nil, Bool.or_false, Branch.acceptsElement, Bool.and_eq_true,
      or_iff_left hfragment, and_comm]

end Compilation

section Counting

open Evaluation

variable {slots : List Slot} {cells : List Cell} {i : Nat} {slot : Slot} {cell : Cell}

/-- A child adds one to the counts of the slots with a filter that accept it, and nothing to the others. -/
theorem getElem?_present {accepts : Slot → Bool} {atRoot : Bool} {previous : Cell}
    (hslot : slots[i]? = some slot) (hcell : cells[i]? = some cell) :
    ((present accepts atRoot previous slots cells).map (·.1))[i]? =
      some (if accepts slot && slot.step.filter.isSome then { cell with count := cell.count + 1 }
        else cell) := by
  induction slots generalizing cells i previous with
  | nil => cases hslot
  | cons first rest ih =>
    cases cells with
    | nil => cases hcell
    | cons firstCell restCells =>
      rw [present, List.map_cons]
      cases i with
      | zero =>
        obtain rfl := Option.some.inj hslot
        obtain rfl := Option.some.inj hcell
        rfl
      | succ i => exact ih hslot hcell

/-- What the parent of an element knows once the element has ended is what it was told at the start. -/
theorem parentCells_leave_enter (e : Evaluation) (name : Bytes) (attributes : AttributeValues) :
    (e.enter name attributes).leave.parentCells =
      (e.verdicts (·.acceptsElement name attributes)).map (·.1) := by
  rw [enter, leave, parentCells, withParentCells]
  cases e.scopes <;> rfl

theorem getElem?_parentCells_enter {e : Evaluation} (name : Bytes) (attributes : AttributeValues)
    (hslot : e.slots[i]? = some slot) (hcell : e.parentCells[i]? = some cell) :
    (e.enter name attributes).leave.parentCells[i]? =
      some (if slot.acceptsElement name attributes && slot.step.filter.isSome then
        { cell with count := cell.count + 1 } else cell) := by
  rw [parentCells_leave_enter]
  exact getElem?_present hslot hcell

end Counting

section Steps

variable {source : String} {resolver : Option Resolver} {path : PathExpr}

theorem realizes_compileStep {expr : StepExpr} {step : Step}
    (h : compileStep source resolver (path.getLast?.map (·.node) != some (.pseudo .content)) expr =
      .ok step) (ignoreCase : Bool) : step.Realizes expr path resolver ignoreCase := by
  obtain ⟨predicate, hpredicate, branches, hbranches, rfl⟩ := exists_of_compileStep h
  have haccepts : ∀ name attributes, branches.any (·.acceptsElement ignoreCase name attributes) ↔
      expr.Means path resolver ignoreCase name attributes := by
    intro name attributes
    rw [accepts_compileBranches hbranches, holds_compileConditions hpredicate]
    constructor
    · rintro ⟨⟨-, hconditions⟩, hnode⟩
      exact ⟨hconditions, hnode⟩
    · rintro ⟨hconditions, hnode⟩
      exact ⟨⟨rfl, hconditions⟩, hnode⟩
  refine ⟨rfl, rfl, haccepts, ?_⟩
  rintro e i slot cell name attributes hslot hstep rfl hcell
  have hcounts : (slot.acceptsElement name attributes && slot.step.filter.isSome) ↔
      expr.filter.isSome ∧ expr.Means path resolver slot.ignoreCase name attributes := by
    rw [Bool.and_eq_true, Slot.acceptsElement, hstep, haccepts, and_comm]
  rw [getElem?_parentCells_enter name attributes hslot hcell]
  by_cases hmeans : expr.filter.isSome ∧ expr.Means path resolver slot.ignoreCase name attributes
  · rw [if_pos (hcounts.2 hmeans)]
    exact ⟨cell.count + 1, rfl, fun _ => rfl, fun hnot => absurd hmeans hnot⟩
  · rw [if_neg (mt hcounts.1 hmeans)]
    exact ⟨cell.count, rfl, fun hpos => absurd hpos hmeans, fun _ => rfl⟩

/-- Every step of a compiled selector realizes the step that was written at its place: an element is accepted
if it has the name, or the fragment where the step takes one, and all the conditions hold of its
attributes. -/
theorem steps_realize_source {dialect : Dialect} {s : Selector}
    (h : compile source dialect resolver = .ok s) :
    ∃ exprs, parsePaths source = .ok exprs ∧
      List.Forall₂ (fun path compiled => List.Forall₂ (fun expr step =>
        Step.Realizes step expr path resolver s.dialect.ignoresCase) path compiled) exprs s.paths := by
  rw [compile] at h
  obtain ⟨exprs, hexprs, h⟩ := exists_of_bind_eq_ok h
  obtain ⟨paths, hpaths, h⟩ := exists_of_bind_eq_ok h
  obtain rfl := Except.ok.inj h
  refine ⟨exprs, hexprs, (forall₂_of_mapM_eq_ok hpaths).imp ?_⟩
  intro path compiled hcompiled
  exact (forall₂_of_mapM_eq_ok hcompiled).imp fun expr step hstep => realizes_compileStep hstep _

/-- A step that takes a fragment, one with a reference of its own and one on the way to all content. -/
def itemsOrNotes : Selector :=
  ⟨"li.item[odd()] || p%note || //ul/content()", .html,
    [[⟨.descendant, [⟨.named "li", some (.compare "class" .equal "item")⟩,
        ⟨.any, some (.and (.compare "class" .equal "item") (.or (.compare "th:fragment" .equal "li")
          (.compare "data-th-fragment" .equal "li")))⟩], some .odd⟩],
      [⟨.descendant, [⟨.named "p", some (.or (.compare "th:fragment" .equal "note")
        (.compare "data-th-fragment" .equal "note"))⟩], none⟩],
      [⟨.descendant, [⟨.named "ul", none⟩], none⟩, ⟨.child, [⟨.pseudo .content, none⟩], none⟩]]⟩

theorem itemsOrNotes_realize_source :
    compile itemsOrNotes.source .html (some FragmentAttribute.standard.resolve) = .ok itemsOrNotes ∧
      ∃ exprs, parsePaths itemsOrNotes.source = .ok exprs ∧
        List.Forall₂ (fun path compiled => List.Forall₂ (fun expr step =>
          Step.Realizes step expr path (some FragmentAttribute.standard.resolve)
            itemsOrNotes.dialect.ignoresCase) path compiled) exprs itemsOrNotes.paths := by
  have hcompile : compile itemsOrNotes.source .html (some FragmentAttribute.standard.resolve) =
      .ok itemsOrNotes := by
    apply eq_ok_of_toOption
    decide +kernel
  exact ⟨hcompile, steps_realize_source hcompile⟩

/-- Both branches of the step accept the element, which is counted once. -/
example :
    let items : Selector := ⟨"li[odd()]", .html, [[⟨.descendant,
      [⟨.named "li", none⟩, ⟨.any, some (.compare "th:fragment" .equal "li")⟩], some .odd⟩]]⟩
    let inner := (Evaluation.ofSelectors [items]).enter (Bytes.ofString "LI")
      [(Bytes.ofString "th:fragment", Bytes.ofString "li")]
    inner.leave.parentCells.map (·.count) = [1] := by decide +kernel

end Steps

end MarkupStream.Selector
