import Mathlib.Data.List.Forall2
import MarkupStream.Selector.Compiled

/-!
The form of compiled selectors. The grammar lets a pseudo-node stand only at the end of a path and
without conditions, and compilation adds branches to steps that name elements only. So a step either
is about elements in all its branches, or it is the last one and has a pseudo-node for its only branch.
-/
namespace MarkupStream.Selector

/-- All branches are about elements. -/
def Step.IsElemental (step : Step) : Prop := ∀ branch ∈ step.branches, ¬ branch.node.isPseudo

/-- The only branch is a mere pseudo-node. -/
def Step.IsNodal (step : Step) : Prop := ∃ p, step.branches = [⟨.pseudo p, none⟩]

/-- Steps about elements, of which only the last may be a pseudo-node instead. -/
inductive FormedPath : Path → Prop
  | last {step : Step} : step.IsElemental ∨ step.IsNodal → FormedPath [step]
  | step {step : Step} {rest : Path} : step.IsElemental → FormedPath rest → FormedPath (step :: rest)

/-- Every path of the selector is formed, as compilation has it. -/
def IsFormed (s : Selector) : Prop := ∀ path ∈ s.paths, FormedPath path

section Results

variable {ε α β : Type}

theorem exists_of_bind_eq_ok {x : Except ε α} {f : α → Except ε β} {b : β}
    (h : x >>= f = .ok b) : ∃ a, x = .ok a ∧ f a = .ok b := by
  cases x with
  | error e => cases h
  | ok a => exact ⟨a, rfl, h⟩

theorem eq_ok_of_toOption {x : Except ε α} {a : α} (h : x.toOption = some a) : x = .ok a := by
  cases x with
  | error e => cases h
  | ok b => rw [Option.some.inj h]

theorem forall₂_of_mapM_eq_ok {f : α → Except ε β} {as : List α} {bs : List β}
    (h : as.mapM f = .ok bs) : List.Forall₂ (fun a b => f a = .ok b) as bs := by
  induction as generalizing bs with
  | nil =>
    rw [List.mapM_nil] at h
    rw [← Except.ok.inj h]
    exact .nil
  | cons a as ih =>
    rw [List.mapM_cons] at h
    obtain ⟨b, hb, h⟩ := exists_of_bind_eq_ok h
    obtain ⟨bs', hbs, h⟩ := exists_of_bind_eq_ok h
    rw [← Except.ok.inj h]
    exact .cons hb (ih hbs)

theorem exists_of_mem_mapM {f : α → Except ε β} {as : List α} {bs : List β} (h : as.mapM f = .ok bs)
    {b : β} (hb : b ∈ bs) : ∃ a ∈ as, f a = .ok b := by
  have hresults := forall₂_of_mapM_eq_ok h
  clear h
  induction hresults with
  | nil => cases hb
  | cons hfirst _ ih =>
    rcases List.mem_cons.1 hb with rfl | hmem
    · exact ⟨_, List.mem_cons_self, hfirst⟩
    · obtain ⟨a, ha, hresult⟩ := ih hmem
      exact ⟨a, List.mem_cons_of_mem _ ha, hresult⟩

end Results

/-- A step as the grammar has it: a pseudo-node has no conditions. -/
def StepExpr.Formed (step : StepExpr) : Prop := step.node.isPseudo → step.conditions = []

theorem formed_readStep {axis : Axis} {offset : Nat} {s : Input} {step : StepExpr} {t : s.Within}
    (h : readStep axis offset s = .ok (step, t)) : step.Formed := by
  rw [readStep] at h
  obtain ⟨⟨node, t, ht⟩, -, h⟩ := exists_of_bind_eq_ok h
  obtain ⟨⟨conditions, filter, u, hu⟩, -, h⟩ := exists_of_bind_eq_ok h
  dsimp only at h
  split at h
  · cases h
  · rename_i hpseudo
    obtain ⟨rfl, -⟩ := Prod.mk.inj (Except.ok.inj h)
    intro hnode
    change node.isPseudo = true at hnode
    simpa [hnode] using hpseudo

theorem formed_readFurtherSteps {s : Input} {steps : List StepExpr} {t : s.Within}
    (h : readFurtherSteps s = .ok (steps, t)) : ∀ step ∈ steps, step.Formed := by
  induction s using readFurtherSteps.induct generalizing steps with
  | case1 s hnone =>
    rw [readFurtherSteps, hnone] at h
    obtain ⟨rfl, -⟩ := Prod.mk.inj (Except.ok.inj h)
    simp
  | case2 s axis t' ht' hsome ih =>
    rw [readFurtherSteps, hsome] at h
    obtain ⟨⟨step, u, hu⟩, hstep, h⟩ := exists_of_bind_eq_ok h
    obtain ⟨⟨rest, v, hv⟩, hrest, h⟩ := exists_of_bind_eq_ok h
    obtain ⟨rfl, -⟩ := Prod.mk.inj (Except.ok.inj h)
    intro other hmem
    rcases List.mem_cons.1 hmem with rfl | hmem
    · exact formed_readStep hstep
    · exact ih u hu hrest other hmem

theorem formed_readFirstStep {s : Input} {step : StepExpr} {t : s.Within}
    (h : readFirstStep s = .ok (step, t)) : step.Formed := by
  rw [readFirstStep] at h
  split at h
  · obtain ⟨⟨first, u, hu⟩, hstep, h⟩ := exists_of_bind_eq_ok h
    obtain ⟨rfl, -⟩ := Prod.mk.inj (Except.ok.inj h)
    exact formed_readStep hstep
  · exact formed_readStep h

/-- A path as the grammar has it: there is some step, and only the last one can be a pseudo-node. -/
structure PathExpr.Formed (path : PathExpr) : Prop where
  ne_nil : path ≠ []
  steps : ∀ step ∈ path, step.Formed
  early : ∀ step ∈ path.dropLast, ¬ step.node.isPseudo

theorem formed_readPath {s : Input} {path : PathExpr} {t : s.Within}
    (h : readPath s = .ok (path, t)) : PathExpr.Formed path := by
  rw [readPath] at h
  obtain ⟨⟨step, u, hu⟩, hstep, h⟩ := exists_of_bind_eq_ok h
  obtain ⟨⟨steps, v, hv⟩, hsteps, h⟩ := exists_of_bind_eq_ok h
  dsimp only at h
  split at h
  · cases h
  · rename_i hearly
    obtain ⟨rfl, -⟩ := Prod.mk.inj (Except.ok.inj h)
    refine ⟨List.cons_ne_nil step steps, ?_, by simpa using hearly⟩
    intro other hmem
    rcases List.mem_cons.1 hmem with rfl | hmem
    · exact formed_readFirstStep hstep
    · exact formed_readFurtherSteps hsteps other hmem

theorem formed_readPaths {s : Input} {paths : List PathExpr} {t : s.Within}
    (h : readPaths s = .ok (paths, t)) : ∀ path ∈ paths, PathExpr.Formed path := by
  induction s using readPaths.induct generalizing paths with
  | case1 s ih =>
    rw [readPaths] at h
    obtain ⟨⟨path, u, hu⟩, hpath, h⟩ := exists_of_bind_eq_ok h
    dsimp only at h
    split at h
    · obtain ⟨rfl, -⟩ := Prod.mk.inj (Except.ok.inj h)
      intro other hmem
      rw [List.mem_singleton.1 hmem]
      exact formed_readPath hpath
    · rename_i v hv hsome
      obtain ⟨⟨rest, w, hw⟩, hrest, h⟩ := exists_of_bind_eq_ok h
      obtain ⟨rfl, -⟩ := Prod.mk.inj (Except.ok.inj h)
      intro other hmem
      rcases List.mem_cons.1 hmem with rfl | hmem
      · exact formed_readPath hpath
      · exact ih u hu v hv hrest other hmem

theorem formed_parsePaths {source : String} {paths : List PathExpr}
    (h : parsePaths source = .ok paths) : ∀ path ∈ paths, PathExpr.Formed path := by
  rw [parsePaths] at h
  obtain ⟨s, -, h⟩ := exists_of_bind_eq_ok h
  obtain ⟨⟨found, t, ht⟩, hpaths, h⟩ := exists_of_bind_eq_ok h
  dsimp only at h
  split at h
  · rw [← Except.ok.inj h]
    exact formed_readPaths hpaths
  · cases h

section Compilation

variable {source : String} {dialect : Dialect} {resolver : Option Resolver} {expands : Bool}

/-- What compilation takes over of a step, and what it puts in place of the rest. -/
theorem exists_of_compileStep {expr : StepExpr} {step : Step}
    (h : compileStep source resolver expands expr = .ok step) :
    ∃ predicate, compileConditions source resolver none expr.conditions = .ok predicate ∧
      ∃ branches, compileBranches source resolver expands expr predicate = .ok branches ∧
        ⟨expr.axis, branches, expr.filter⟩ = step := by
  rw [compileStep] at h
  obtain ⟨predicate, hpredicate, h⟩ := exists_of_bind_eq_ok h
  obtain ⟨branches, hbranches, h⟩ := exists_of_bind_eq_ok h
  exact ⟨predicate, hpredicate, branches, hbranches, Except.ok.inj h⟩

theorem exists_of_compile {s : Selector} (h : compile source dialect resolver = .ok s) :
    ∃ exprs, parsePaths source = .ok exprs ∧
      ∃ paths, exprs.mapM (compilePath source resolver) = .ok paths ∧ ⟨source, dialect, paths⟩ = s := by
  rw [compile] at h
  obtain ⟨exprs, hexprs, h⟩ := exists_of_bind_eq_ok h
  obtain ⟨paths, hpaths, h⟩ := exists_of_bind_eq_ok h
  exact ⟨exprs, hexprs, paths, hpaths, Except.ok.inj h⟩

/-- A pseudo-node stays alone, and anything else keeps to elements. -/
theorem form_compileBranches {step : StepExpr} {predicate : Option Predicate} {branches : List Branch}
    (h : compileBranches source resolver expands step predicate = .ok branches) :
    (∃ p, step.node = .pseudo p ∧ branches = [⟨.pseudo p, predicate⟩]) ∨
      ∀ branch ∈ branches, ¬ branch.node.isPseudo := by
  unfold compileBranches at h
  split at h
  · right
    split at h
    · split at h
      · rw [← Except.ok.inj h]
        simp [NodeTest.isPseudo]
      · cases h
    · rw [← Except.ok.inj h]
      simp [NodeTest.isPseudo]
  · rw [← Except.ok.inj h]
    cases step.node with
    | pseudo p => exact .inl ⟨p, rfl, rfl⟩
    | _ => exact .inr (by simp [NodeTest.isPseudo])

theorem form_compileStep {expr : StepExpr} {step : Step} (hexpr : expr.Formed)
    (h : compileStep source resolver expands expr = .ok step) :
    step.IsNodal ∧ expr.node.isPseudo ∨ step.IsElemental := by
  obtain ⟨predicate, hpredicate, branches, hbranches, rfl⟩ := exists_of_compileStep h
  rcases form_compileBranches hbranches with ⟨p, hnode, rfl⟩ | helemental
  · have hpseudo : expr.node.isPseudo := by rw [hnode]; rfl
    rw [hexpr hpseudo] at hpredicate
    obtain rfl : none = predicate := Except.ok.inj hpredicate
    exact .inl ⟨⟨p, rfl⟩, hpseudo⟩
  · exact .inr helemental

theorem formedPath_of_compileStep {exprs : PathExpr} {path : Path}
    (h : List.Forall₂ (fun expr step => compileStep source resolver expands expr = .ok step)
      exprs path) (hexprs : PathExpr.Formed exprs) : FormedPath path := by
  induction h with
  | nil => exact absurd rfl hexprs.ne_nil
  | @cons expr step exprs path hstep hrest ih =>
    have hform := form_compileStep (hexprs.steps expr List.mem_cons_self) hstep
    cases hrest with
    | nil => exact .last (hform.symm.imp_right And.left)
    | @cons next step' exprs path hstep' hrest =>
      have hearly : ∀ step ∈ expr :: (next :: exprs).dropLast, ¬ step.node.isPseudo := hexprs.early
      refine .step (hform.resolve_left fun hnodal => hearly expr List.mem_cons_self hnodal.2) ?_
      exact ih ⟨List.cons_ne_nil next exprs,
        fun other hmem => hexprs.steps other (List.mem_cons_of_mem _ hmem),
        fun other hmem => hearly other (List.mem_cons_of_mem _ hmem)⟩

theorem isFormed_of_compile {s : Selector} (h : compile source dialect resolver = .ok s) : s.IsFormed := by
  obtain ⟨exprs, hexprs, paths, hpaths, rfl⟩ := exists_of_compile h
  intro path hpath
  obtain ⟨expr, hexpr, hsteps⟩ := exists_of_mem_mapM hpaths hpath
  exact formedPath_of_compileStep (forall₂_of_mapM_eq_ok hsteps) (formed_parsePaths hexprs expr hexpr)

end Compilation

end MarkupStream.Selector
