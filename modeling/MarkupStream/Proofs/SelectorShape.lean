import MarkupStream.Proofs.ExpandedText

/-!
The shape of compiled selectors. Lexemes hold no value with quotes of both kinds, the grammar gives no position
zero and puts a pseudo-node at the end only, and compilation adds a branch beside a name and nowhere else. So the
first branch of a step shows whether the step is about elements, whatever a resolver answers.
-/
namespace MarkupStream.Selector

section Shape

/-- The values that a predicate compares attributes with. -/
def Predicate.values : Predicate → List String
  | compare _ _ value => [value]
  | has _ | lacks _ => []
  | not p => p.values
  | and l r | or l r => l.values ++ r.values

/-- One branch, or one that names an element and one for any element that a predicate holds of. -/
structure Step.IsWellFormed (step : Step) : Prop where
  branches : step.branches.length = 1 ∨ step.branches.length = 2
  second : ∀ branch, step.branches[1]? = some branch →
    branch.node = .any ∧ branch.predicate.isSome ∧
      ∃ name predicate, step.branches[0]? = some ⟨.named name, predicate⟩
  filter : ∀ n, step.filter = some (.nth n) → 1 ≤ n
  values : ∀ branch ∈ step.branches, ∀ p, branch.predicate = some p → ∀ value ∈ p.values,
    ¬ ('\x27' ∈ value.toList ∧ '\x22' ∈ value.toList)

/-- Steps, of which only the last can have a pseudo-node, as its only branch and without a predicate. -/
structure Path.IsWellFormed (path : Path) : Prop where
  ne_nil : path ≠ []
  steps : ∀ step ∈ path, step.IsWellFormed
  pseudo : ∀ (i : Nat) (step : Step), path[i]? = some step → ∀ branch ∈ step.branches,
    branch.node.isPseudo → i + 1 = path.length ∧ step.branches = [branch] ∧ branch.predicate = none

structure IsWellFormed (s : Selector) : Prop where
  ne_nil : s.paths ≠ []
  paths : ∀ path ∈ s.paths, path.IsWellFormed

end Shape

section Steps

variable {source : String} {resolver : Option Resolver} {path : PathExpr} {expr : StepExpr} {step : Step}

theorem Predicate.IsWritable.quotable {p : Predicate} (h : p.IsWritable) : ∀ value ∈ p.values, Quotable value := by
  induction p with
  | compare name op value => exact List.forall_mem_singleton.2 h.2
  | has name => simp [values]
  | lacks name => simp [values]
  | not p ih => exact ih h
  | and l r ihl ihr => exact List.forall_mem_append.2 ⟨ihl h.1, ihr h.2⟩
  | or l r ihl ihr => exact List.forall_mem_append.2 ⟨ihl h.1, ihr h.2⟩

theorem isWellFormed_compileStep (hexpr : expr.IsWritable) (hformed : expr.Formed)
    (h : compileStep source resolver (path.getLast?.map (·.node) != some (.pseudo .content)) expr = .ok step) :
    step.IsWellFormed := by
  have hwritable := isWritable_compileStep hexpr hformed h
  have hvalues : ∀ branch ∈ step.branches, ∀ p, branch.predicate = some p → ∀ value ∈ p.values,
      ¬ ('\x27' ∈ value.toList ∧ '\x22' ∈ value.toList) := by
    intro branch hbranch p hp value hvalue
    exact not_and_or.2 (((hwritable branch hbranch).predicate p hp).quotable value hvalue)
  have hfilter : ∀ n, expr.filter = some (.nth n) → 1 ≤ n :=
    fun n hn => (hexpr.conditions.filter _ hn).1
  obtain ⟨predicate, -, branches, hbranches, rfl⟩ := exists_of_compileStep h
  rcases cases_compileBranches hbranches with ⟨_, _, fragment, p, htakes, -, rfl⟩ | ⟨-, rfl⟩
  · refine ⟨.inr rfl, ?_, hfilter, hvalues⟩
    rintro branch ⟨⟩
    exact ⟨rfl, rfl, fragment, predicate, by rw [← htakes.node]; rfl⟩
  · refine ⟨.inl rfl, ?_, hfilter, hvalues⟩
    intro branch hbranch
    cases hbranch

/-- The first branch shows all there is of pseudo-nodes in a step. -/
theorem Step.IsWellFormed.pseudo?_eq_some_iff (h : step.IsWellFormed) {p : PseudoNode} :
    step.pseudo? = some p ↔ ∃ branch ∈ step.branches, branch.node = .pseudo p := by
  rw [Step.pseudo?]
  rcases h.branches with hone | htwo
  · obtain ⟨⟨node, predicate⟩, hbranch⟩ := List.length_eq_one_iff.1 hone
    rw [hbranch]
    cases node <;> simp
  · obtain ⟨one, other, hbranches⟩ := List.length_eq_two.1 htwo
    obtain ⟨hany, -, name, predicate, hnamed⟩ := h.second other (by rw [hbranches]; rfl)
    rw [hbranches] at hnamed
    obtain rfl := Option.some.inj hnamed
    rw [hbranches]
    simp [hany]

end Steps

section Paths

variable {path : Path} {step : Step} {branch : Branch}

theorem FormedPath.ne_nil (h : FormedPath path) : path ≠ [] := by
  cases h <;> exact List.cons_ne_nil _ _

theorem FormedPath.pseudo_last (h : FormedPath path) {i : Nat} (hstep : path[i]? = some step)
    (hbranch : branch ∈ step.branches) (hpseudo : branch.node.isPseudo) :
    i + 1 = path.length ∧ step.branches = [branch] ∧ branch.predicate = none := by
  induction h generalizing i with
  | last hform =>
    cases i with
    | zero =>
      obtain rfl := Option.some.inj hstep
      rcases hform with helemental | ⟨p, hbranches⟩
      · exact absurd hpseudo (helemental branch hbranch)
      · rw [hbranches] at hbranch ⊢
        obtain rfl := List.mem_singleton.1 hbranch
        exact ⟨rfl, rfl, rfl⟩
    | succ i => cases hstep
  | step helemental _ ih =>
    cases i with
    | zero =>
      obtain rfl := Option.some.inj hstep
      exact absurd hpseudo (helemental branch hbranch)
    | succ i =>
      obtain ⟨hlast, halone⟩ := ih hstep
      exact ⟨congrArg (· + 1) hlast, halone⟩

end Paths

section Selectors

/-- Whatever is compiled, and whatever a resolver answers, the selector has a path and each path a step. A step
has one branch, or two of which the first names an element and the second takes any with a predicate. A
pseudo-node is the only branch of a last step and has no predicate, so that the first branch shows it. Positions
are counted from one, and no value has quotes of both kinds. -/
theorem compiled_wellFormed (source : String) (dialect : Dialect) (resolver : Option Resolver) (s : Selector)
    (h : compile source dialect resolver = .ok s) :
    s.IsWellFormed ∧ ∀ path ∈ s.paths, ∀ step ∈ path, ∀ p,
      step.pseudo? = some p ↔ ∃ branch ∈ step.branches, branch.node = .pseudo p := by
  have hformed := isFormed_of_compile h
  obtain ⟨exprs, hexprs, paths, hpaths, rfl⟩ := exists_of_compile h
  have hwritable := (yields_parsePaths source).of_ok exprs hexprs
  have hsteps : ∀ path ∈ paths, ∀ step ∈ path, step.IsWellFormed := by
    intro path hpath step hstep
    obtain ⟨exprPath, hexprPath, hcompiled⟩ := exists_of_mem_mapM hpaths hpath
    obtain ⟨expr, hexpr, hcompiled⟩ := exists_of_mem_mapM hcompiled hstep
    exact isWellFormed_compileStep (hwritable.paths exprPath hexprPath expr hexpr)
      ((formed_parsePaths hexprs exprPath hexprPath).steps expr hexpr) hcompiled
  have hne : paths ≠ [] := by
    rintro rfl
    exact hwritable.ne_nil (List.forall₂_nil_right_iff.1 (forall₂_of_mapM_eq_ok hpaths))
  refine ⟨⟨hne, ?_⟩, ?_⟩
  · intro path hpath
    exact ⟨(hformed path hpath).ne_nil, hsteps path hpath, fun i step hstep branch hbranch =>
      (hformed path hpath).pseudo_last hstep hbranch⟩
  · intro path hpath step hstep p
    exact (hsteps path hpath step hstep).pseudo?_eq_some_iff

/-- Every other paragraph of a title, or the text of a list, where fragments stand in for the elements. -/
def titledOrText : Selector :=
  let titled : Predicate := .compare "title" .equal "it's"
  let declares (name : String) : Predicate :=
    .or (.compare "th:fragment" .equal name) (.compare "data-th-fragment" .equal name)
  ⟨"p[title=\"it's\"][odd()] || ul/text()", .html,
    [[⟨.descendant, [⟨.named "p", some titled⟩, ⟨.any, some (.and titled (declares "p"))⟩], some .odd⟩],
      [⟨.descendant, [⟨.named "ul", none⟩, ⟨.any, some (declares "ul")⟩], none⟩,
        ⟨.child, [⟨.pseudo (.ofKind .text), none⟩], none⟩]]⟩

theorem titledOrText_wellFormed :
    let s := titledOrText
    compile s.source .html (some FragmentAttribute.standard.resolve) = .ok s ∧ s.IsWellFormed ∧
      ∀ path ∈ s.paths, ∀ step ∈ path, ∀ p,
        step.pseudo? = some p ↔ ∃ branch ∈ step.branches, branch.node = .pseudo p := by
  intro s
  have hcompile : compile s.source .html (some FragmentAttribute.standard.resolve) = .ok s := by
    apply eq_ok_of_toOption
    decide +kernel
  exact ⟨hcompile, compiled_wellFormed s.source .html _ s hcompile⟩

end Selectors

end MarkupStream.Selector
