import MarkupStream.Proofs.Alternatives
import MarkupStream.Proofs.Expansion
import MarkupStream.Proofs.Rendering

/-!
The text of a step that takes a fragment for its name. Its branches are written as alternatives, each with the
position filter of the step, and they are read back as paths of their own. Without a filter they select what the
step selects.
-/
namespace MarkupStream.Selector

open EventStream

section Resolution

variable {source : String} {resolver : Option Resolver} {path : PathExpr} {expr : StepExpr} {step : Step}

theorem isWritable_compileCondition {condition : Condition} {p : Predicate} (hcondition : condition.IsWritable)
    (h : compileCondition source resolver condition = .ok p) : p.IsWritable := by
  cases condition with
  | predicate q =>
    obtain rfl := Except.ok.inj h
    exact hcondition
  | reference name offset =>
    cases resolver with
    | none =>
      obtain rfl := Except.ok.inj h
      exact isWritable_isDeclared
    | some resolve => exact (yields_parsePredicate _).of_ok p (parsePredicate_of_resolveReference h)

theorem isWritable_conjoin {found : Option Predicate} {p : Predicate}
    (hfound : ∀ q, found = some q → q.IsWritable) (hp : p.IsWritable) : (conjoin found p).IsWritable := by
  cases found with
  | none => exact hp
  | some q => exact ⟨hfound q rfl, hp⟩

theorem isWritable_compileConditions {conditions : List Condition} {found predicate : Option Predicate}
    (hfound : ∀ p, found = some p → p.IsWritable)
    (hconditions : ∀ condition ∈ conditions, condition.IsWritable)
    (h : compileConditions source resolver found conditions = .ok predicate) :
    ∀ p, predicate = some p → p.IsWritable := by
  induction conditions generalizing found with
  | nil =>
    obtain rfl := Except.ok.inj h
    exact hfound
  | cons condition conditions ih =>
    obtain ⟨hcondition, hrest⟩ := List.forall_mem_cons.1 hconditions
    rw [compileConditions] at h
    split at h
    · rename_i p hp
      refine ih ?_ hrest h
      rintro _ ⟨⟩
      exact isWritable_conjoin hfound (isWritable_compileCondition hcondition hp)
    · cases h

/-- One branch of a step without the others. -/
def Step.plain (step : Step) (branch : Branch) : PlainStep :=
  ⟨step.axis, branch.node, branch.predicate, step.filter⟩

/-- Whatever the references stand for, a step is compiled to one branch or to two about elements. -/
inductive Step.IsResolved (step : Step) : Prop
  | single (branch : Branch) : step.branches = [branch] → step.IsResolved
  | twofold (one other : Branch) : step.branches = [one, other] →
      ¬ one.node.isPseudo ∧ ¬ other.node.isPseudo → step.IsResolved

theorem isResolved_compileStep
    (h : compileStep source resolver (path.getLast?.map (·.node) != some (.pseudo .content)) expr = .ok step) :
    step.IsResolved := by
  obtain ⟨predicate, -, branches, hbranches, rfl⟩ := exists_of_compileStep h
  rcases cases_compileBranches hbranches with ⟨_, _, fragment, p, htakes, -, rfl⟩ | ⟨-, rfl⟩
  · refine .twofold _ _ rfl ⟨?_, Bool.false_ne_true⟩
    rw [htakes.node]
    exact Bool.false_ne_true
  · exact .single _ rfl

/-- Every branch of a compiled step can be written. -/
theorem isWritable_compileStep (hexpr : expr.IsWritable) (hformed : expr.Formed)
    (h : compileStep source resolver (path.getLast?.map (·.node) != some (.pseudo .content)) expr = .ok step) :
    ∀ branch ∈ step.branches, (step.plain branch).IsWritable := by
  obtain ⟨predicate, hpredicate, branches, hbranches, rfl⟩ := exists_of_compileStep h
  have hnone : ∀ p, (none : Option Predicate) = some p → p.IsWritable := by simp
  have hwritable := isWritable_compileConditions hnone hexpr.conditions.conditions hpredicate
  have hnamed : PlainStep.IsWritable ⟨expr.axis, expr.node, predicate, expr.filter⟩ := by
    refine ⟨hexpr.node, hwritable, hexpr.conditions.filter, ?_⟩
    intro hpseudo
    rw [hformed hpseudo] at hpredicate
    exact (Except.ok.inj hpredicate).symm
  rcases cases_compileBranches hbranches with ⟨_, _, fragment, p, -, hparse, rfl⟩ | ⟨-, rfl⟩
  · have hp : p.IsWritable := (yields_parsePredicate _).of_ok p hparse
    refine List.forall_mem_cons.2 ⟨hnamed, List.forall_mem_singleton.2 ?_⟩
    refine ⟨by simp [Step.plain], ?_, hexpr.conditions.filter, by simp [Step.plain, NodeTest.isPseudo]⟩
    rintro _ ⟨⟩
    exact isWritable_conjoin hwritable hp
  · exact List.forall_mem_singleton.2 hnamed

end Resolution

section Reading

variable {source : String} {dialect : Dialect} {resolver : Option Resolver} {s : Selector} {step : Step}

/-- The step of a selector of a single step. -/
theorem exists_step_of_compile (hcompile : compile source dialect resolver = .ok s)
    (hpaths : s.paths = [[step]]) :
    s = ⟨source, dialect, [[step]]⟩ ∧ step.IsResolved ∧
      ∀ branch ∈ step.branches, (step.plain branch).IsWritable := by
  obtain ⟨exprs, hexprs, paths, hcompiled, rfl⟩ := exists_of_compile hcompile
  obtain rfl : paths = [[step]] := hpaths
  obtain ⟨path, _, hpath, hnil, rfl⟩ := List.forall₂_cons_right_iff.1 (forall₂_of_mapM_eq_ok hcompiled)
  obtain rfl := List.forall₂_nil_right_iff.1 hnil
  obtain ⟨expr, _, hexpr, hnil, rfl⟩ := List.forall₂_cons_right_iff.1 (forall₂_of_mapM_eq_ok hpath)
  obtain rfl := List.forall₂_nil_right_iff.1 hnil
  have hwritable := ((yields_parsePaths source).of_ok _ hexprs).paths _ List.mem_cons_self
  have hformed := formed_parsePaths hexprs _ List.mem_cons_self
  exact ⟨rfl, isResolved_compileStep hexpr, isWritable_compileStep (hwritable expr List.mem_cons_self)
    (hformed.steps expr List.mem_cons_self) hexpr⟩

theorem text_single (source : String) (dialect : Dialect) (step : Step) :
    text ⟨source, dialect, [[step]]⟩ =
      PlainPath.textOf (step.branches.map fun branch => [step.plain branch]) := by
  have hbranch : ∀ branch, pathText (PlainPath.toPath [step.plain branch]) = step.branchText branch := by
    intro branch
    simp [pathText, PlainPath.toPath, PlainStep.toStep, Step.text, alternativesText, Step.plain,
      Step.branchText]
  have hstep : text ⟨source, dialect, [[step]]⟩ = alternativesText (step.branches.map step.branchText) := by
    simp [text, alternativesText, pathText, Step.text]
  rw [hstep, PlainPath.textOf, List.map_map]
  exact congrArg alternativesText (List.map_congr_left fun branch _ => (hbranch branch).symm)

theorem alternatives_single {branch : Branch} (hbranches : step.branches = [branch]) :
    step.alternatives = [[step]] := by
  rw [Step.alternatives, hbranches, List.map_singleton, ← hbranches]

/-- The canonical form of a selector of a single step is compiled without a resolver, unless a predicate begins
with a number. It selects what the branches of the step select as paths of their own. That is what the step
selects, except that the step counts the elements of two branches together. -/
theorem step_text_reads_back (source : String) (dialect : Dialect) (resolver : Option Resolver) (s : Selector)
    (step : Step) (hcompile : compile source dialect resolver = .ok s) (hpaths : s.paths = [[step]])
    (hnumber : s.LeadsWithNoNumber) :
    ∃ t, compile s.text dialect none = .ok t ∧ t.Replaces { s with paths := step.alternatives } ∧
      (step.filter = none ∨ step.branches.length = 1 → t.Replaces s) := by
  obtain ⟨rfl, hresolved, hwritable⟩ := exists_step_of_compile hcompile hpaths
  have hne : step.branches.map (fun branch => [step.plain branch]) ≠ [] := by
    cases hresolved <;> simp_all
  have hreadable : ∀ path ∈ step.branches.map (fun branch => [step.plain branch]),
      PlainPath.IsReadable path := by
    rw [List.forall_mem_map]
    intro branch hbranch
    refine ⟨⟨List.cons_ne_nil _ _, List.forall_mem_singleton.2 (hwritable branch hbranch), by simp⟩, ?_⟩
    rw [List.forall_mem_singleton]
    exact hnumber [step] List.mem_cons_self step List.mem_cons_self branch hbranch
  obtain ⟨t, ht, -, hreplaces⟩ := PlainPath.reads_back source dialect hne hreadable
  rw [List.map_map] at hreplaces
  have halternatives : t.Replaces ⟨source, dialect, step.alternatives⟩ := hreplaces
  rw [text_single]
  refine ⟨t, ht, halternatives, ?_⟩
  intro hshape
  cases hresolved with
  | single branch hbranches => rwa [alternatives_single hbranches] at halternatives
  | twofold one other hbranches helements =>
    have hfilter : step.filter = none := by
      apply hshape.resolve_right
      rw [hbranches]
      simp
    exact halternatives.trans
      (replaces_alternatives (s := ⟨source, dialect, [[step]]⟩) rfl hbranches helements hfilter)

/-- A step that takes a fragment for its name, and asks for a class in either case. -/
def mainParagraph : Step :=
  ⟨.descendant, [⟨.named "p", some (.compare "class" .equal "main")⟩,
    ⟨.any, some (.and (.compare "class" .equal "main")
      (.or (.compare "th:fragment" .equal "p") (.compare "data-th-fragment" .equal "p")))⟩], none⟩

theorem mainParagraph_reads_back :
    let s : Selector := ⟨"p.main", .html, [[mainParagraph]]⟩
    compile "p.main" .html (some FragmentAttribute.standard.resolve) = .ok s ∧ s.LeadsWithNoNumber ∧
      ∃ t, compile s.text .html none = .ok t ∧ t.Replaces { s with paths := mainParagraph.alternatives } ∧
        (mainParagraph.filter = none ∨ mainParagraph.branches.length = 1 → t.Replaces s) := by
  intro s
  have hcompile : compile "p.main" .html (some FragmentAttribute.standard.resolve) = .ok s := by
    apply eq_ok_of_toOption
    decide +kernel
  have hnumber : s.LeadsWithNoNumber := by
    simp [LeadsWithNoNumber, s, mainParagraph, Predicate.leadsWithNumber, Predicate.isDisjunction, isNumber]
  exact ⟨hcompile, hnumber, step_text_reads_back "p.main" .html _ s mainParagraph hcompile rfl hnumber⟩

/-- A step for every other element that has the name or declares the fragment. -/
def evenParagraph : Step :=
  ⟨.descendant, [⟨.named "p", none⟩,
    ⟨.any, some (.or (.compare "th:fragment" .equal "p") (.compare "data-th-fragment" .equal "p"))⟩],
    some .even⟩

/-- What has been selected with each answer. -/
def matchedBy (answers : List Answer) : List (Option (List Nat)) :=
  answers.map fun answer => answer.toOption.join.map (·.selection.matched)

/-- The fragment is the second element of the step, but it is the first one with a fragment. -/
theorem evenParagraph_misread :
    let s : Selector := ⟨"p[even()]", .html, [[evenParagraph]]⟩
    compile "p[even()]" .html (some FragmentAttribute.standard.resolve) = .ok s ∧
      s.text = "(//p[even()] || //*[th:fragment='p' OR data-th-fragment='p'][even()])" ∧
      ∃ t, compile s.text .html none = .ok t ∧ ¬ t.Replaces s := by
  intro s
  have hcompile : compile "p[even()]" .html (some FragmentAttribute.standard.resolve) = .ok s := by
    apply eq_ok_of_toOption
    decide +kernel
  have hread : compile s.text .html none = .ok ⟨s.text, .html, evenParagraph.alternatives⟩ := by
    apply eq_ok_of_toOption
    decide +kernel
  refine ⟨hcompile, by decide +kernel, _, hread, ?_⟩
  intro hreplaces
  have hanswers := hreplaces (Bytes.ofString "<p>1</p><i th:fragment='p'>2</i>") .html .autoClose [] []
    (List.replicate 7 .next)
  have hmatched := congrArg matchedBy hanswers
  revert hmatched
  decide +kernel

end Reading

end MarkupStream.Selector
