import MarkupStream.Proofs.Outline
import MarkupStream.Proofs.SelectorForm

/-!
The places of steps. Evaluation keeps all steps of all paths in one list of slots and looks no further
back than one slot. A place is a slot with the whole way to it, the steps before it in its path, and
so it says by itself which nodes satisfy it.
-/
namespace MarkupStream.Selector

/-- A step of a path of a selector, with the steps before it from the nearest one back. -/
structure Place where
  selector : Nat
  isLast : Bool
  ignoreCase : Bool
  step : Step
  before : List Step

namespace Place

def slot (a : Place) : Slot := ⟨a.selector, a.before.length, a.isLast, a.ignoreCase, a.step⟩

@[simp] theorem slot_step (a : Place) : a.slot.step = a.step := rfl

def trail (a : Place) : List Step := a.step :: a.before

def satisfies (a : Place) (o : Outline) (x : Nat) : Bool := o.satisfies a.ignoreCase a.trail x

/-- Whether a node passes the test of the step, wherever it is. -/
def admits (a : Place) (node : Node) : Bool := a.step.admits a.ignoreCase node

end Place

/-- The places of the rest of a path, given the steps before it. -/
def placesFrom (selector : Nat) (ignoreCase : Bool) (before : List Step) : Path → List Place
  | [] => []
  | step :: rest =>
    ⟨selector, rest.isEmpty, ignoreCase, step, before⟩ ::
      placesFrom selector ignoreCase (step :: before) rest

def placesOf (selectors : List Selector) : List Place :=
  selectors.zipIdx.flatMap fun (selector, i) =>
    selector.paths.flatMap (placesFrom i selector.dialect.ignoresCase [])

theorem slots_placesFrom (selector : Nat) (ignoreCase : Bool) (before : List Step) (path : Path) :
    (placesFrom selector ignoreCase before path).map Place.slot =
      (path.zipIdx before.length).map fun (step, index) =>
        ⟨selector, index, index + 1 == before.length + path.length, ignoreCase, step⟩ := by
  induction path generalizing before with
  | nil => rfl
  | cons step rest ih =>
    have hlast : rest.isEmpty = (before.length + 1 == before.length + (rest.length + 1)) := by
      cases rest <;> simp
    have hlength : before.length + 1 + rest.length = before.length + (rest.length + 1) := by omega
    rw [placesFrom, List.map_cons, ih, List.zipIdx_cons, List.map_cons]
    simp only [List.length_cons, Place.slot, hlast, hlength]

/-- The slots of an evaluation are those of the places. -/
theorem slots_placesOf (selectors : List Selector) :
    (placesOf selectors).map Place.slot = slotsOf selectors := by
  have hpath : ∀ (i : Nat) (ignoreCase : Bool),
      (fun path => (placesFrom i ignoreCase [] path).map Place.slot) = slotsOfPath i ignoreCase := by
    intro i ignoreCase
    funext path
    rw [slots_placesFrom, slotsOfPath]
    simp
  simp only [placesOf, slotsOf, List.map_flatMap, hpath]

section Linked

/-- Every place follows the place of the step before it, unless it is the first of its path. -/
def Linked (previous : Option Place) : List Place → Prop
  | [] => True
  | a :: rest =>
    (a.before = [] ∨
      ∃ b, previous = some b ∧ a.before = b.trail ∧ a.ignoreCase = b.ignoreCase) ∧
    Linked (some a) rest

theorem linked_placesFrom {selector : Nat} {ignoreCase : Bool} {before : List Step} (path : Path)
    {rest : List Place} {previous : Option Place}
    (h : before = [] ∨ ∃ b, previous = some b ∧ before = b.trail ∧ ignoreCase = b.ignoreCase)
    (hrest : ∀ previous, Linked previous rest) :
    Linked previous (placesFrom selector ignoreCase before path ++ rest) := by
  induction path generalizing before previous with
  | nil => exact hrest previous
  | cons step path ih => exact ⟨h, ih (.inr ⟨_, rfl, rfl, rfl⟩)⟩

theorem linked_flatMap {α : Type} {f : α → List Place} {rest : List Place}
    (hf : ∀ a rest, (∀ previous, Linked previous rest) → ∀ previous, Linked previous (f a ++ rest))
    (hrest : ∀ previous, Linked previous rest) (as : List α) :
    ∀ previous, Linked previous (as.flatMap f ++ rest) := by
  induction as with
  | nil => exact hrest
  | cons a as ih =>
    rw [List.flatMap_cons, List.append_assoc]
    exact hf a _ ih

theorem linked_placesOf (selectors : List Selector) : Linked none (placesOf selectors) := by
  have hselector : ∀ (s : Selector × Nat) (rest : List Place),
      (∀ previous, Linked previous rest) → ∀ previous, Linked previous
        (s.1.paths.flatMap (placesFrom s.2 s.1.dialect.ignoresCase []) ++ rest) := by
    intro s rest hrest
    exact linked_flatMap (fun path _ hrest _ => linked_placesFrom path (.inl rfl) hrest) hrest _
  have hnil : ∀ previous, Linked previous [] := fun _ => trivial
  have hall := linked_flatMap hselector hnil selectors.zipIdx none
  rwa [List.append_nil] at hall

end Linked

/-- The last place of a path has the whole path as its trail. -/
theorem last_of_mem_placesFrom {selector : Nat} {ignoreCase : Bool} {before : List Step} {path : Path}
    {a : Place} (h : a ∈ placesFrom selector ignoreCase before path) (hlast : a.isLast) :
    a.selector = selector ∧ a.ignoreCase = ignoreCase ∧ a.trail = path.reverse ++ before := by
  induction path generalizing before with
  | nil => cases h
  | cons step rest ih =>
    rw [List.reverse_cons, List.append_assoc]
    rcases List.mem_cons.1 h with rfl | h
    · obtain rfl : rest = [] := List.isEmpty_iff.1 hlast
      exact ⟨rfl, rfl, rfl⟩
    · exact ih h

theorem exists_last_placesFrom (selector : Nat) (ignoreCase : Bool) (before : List Step) {path : Path}
    (h : path ≠ []) : ∃ a ∈ placesFrom selector ignoreCase before path, a.isLast := by
  induction path generalizing before with
  | nil => exact absurd rfl h
  | cons step rest ih =>
    by_cases hrest : rest = []
    · exact ⟨_, List.mem_cons_self, by rw [hrest]; rfl⟩
    · obtain ⟨a, ha, hlast⟩ := ih (step :: before) hrest
      exact ⟨a, List.mem_cons_of_mem _ ha, hlast⟩

theorem mem_placesOf {selectors : List Selector} {a : Place} :
    a ∈ placesOf selectors ↔ ∃ i selector, selectors[i]? = some selector ∧
      ∃ path ∈ selector.paths, a ∈ placesFrom i selector.dialect.ignoresCase [] path := by
  simp only [placesOf, List.mem_flatMap, Prod.exists, List.mem_zipIdx_iff_getElem?]
  constructor
  · rintro ⟨selector, i, hi, path, hpath, ha⟩
    exact ⟨i, selector, hi, path, hpath, ha⟩
  · rintro ⟨i, selector, hi, path, hpath, ha⟩
    exact ⟨selector, i, hi, path, hpath, ha⟩

/-- A node satisfies a last place of a selector if it satisfies the last step of one of its paths. -/
theorem exists_place_iff {selectors : List Selector} {o : Outline} {s x : Nat} :
    (∃ a ∈ placesOf selectors, a.isLast ∧ a.satisfies o x ∧ a.selector = s) ↔
      ∃ selector, selectors[s]? = some selector ∧ ∃ path ∈ selector.paths,
        o.satisfies selector.dialect.ignoresCase path.reverse x := by
  constructor
  · rintro ⟨a, ha, hlast, hsatisfies, rfl⟩
    obtain ⟨i, selector, hi, path, hpath, ha⟩ := mem_placesOf.1 ha
    obtain ⟨hselector, hcase, htrail⟩ := last_of_mem_placesFrom ha hlast
    rw [Place.satisfies, hcase, htrail, List.append_nil] at hsatisfies
    rw [hselector]
    exact ⟨selector, hi, path, hpath, hsatisfies⟩
  · rintro ⟨selector, hs, path, hpath, hsatisfies⟩
    have hne : path ≠ [] := by
      rintro rfl
      cases hsatisfies
    obtain ⟨a, ha, hlast⟩ := exists_last_placesFrom s selector.dialect.ignoresCase [] hne
    obtain ⟨hselector, hcase, htrail⟩ := last_of_mem_placesFrom ha hlast
    refine ⟨a, mem_placesOf.2 ⟨s, selector, hs, path, hpath, ha⟩, hlast, ?_, hselector⟩
    rw [Place.satisfies, hcase, htrail, List.append_nil]
    exact hsatisfies

/-- A place is about elements, or it is the last of its path and about a pseudo-node. -/
theorem form_placesFrom {selector : Nat} {ignoreCase : Bool} {before : List Step} {path : Path}
    {a : Place} (h : FormedPath path) (ha : a ∈ placesFrom selector ignoreCase before path) :
    a.step.IsElemental ∨ a.isLast ∧ a.step.IsNodal := by
  induction h generalizing before with
  | last hstep =>
    rw [placesFrom, placesFrom, List.mem_singleton] at ha
    rw [ha]
    exact hstep.imp_right fun hnodal => ⟨rfl, hnodal⟩
  | step hstep _ ih =>
    rcases List.mem_cons.1 ha with rfl | ha
    · exact .inl hstep
    · exact ih ha

end MarkupStream.Selector
