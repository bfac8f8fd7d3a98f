import MarkupStream.Proofs.Interchange
import MarkupStream.Proofs.SelectorReading
import MarkupStream.Proofs.SelectorSoundness

/-!
The canonical form of a selector is a selector again, and it selects the same. This holds as far as no predicate
begins with a number. The sign of an attribute is not written, so the name that was read after it may be taken for
a position.
-/
namespace MarkupStream.Selector

open Input EventStream

section Number

variable {s : Input} {more : List Lexeme.Kind} {n : Nat}

/-- In a bracket nothing but its end may follow a number. -/
theorem readConditions_of_number (hn : 1 ≤ n ∧ n ≤ PositionFilter.greatest) {kind : Lexeme.Kind}
    (h : s.kinds = .leftBracket :: .word (toString n) :: kind :: more) (hkind : kind ≠ .rightBracket)
    (r : List Condition × Option PositionFilter × s.Within) : readConditions none s ≠ .ok r := by
  intro hread
  obtain ⟨source, previous, offset, length, rest, stop, rfl, hinside⟩ := exists_input_of_kinds h
  obtain ⟨t, ht, hposition, hleft⟩ := reads_number
    (s := ⟨source, some ⟨.leftBracket, offset, length⟩, rest, stop⟩) hn hinside
  have hnone : t.advanceIf (· == .rightBracket) = none := by
    apply advanceIf_of_kinds_not hleft
    intro haccepts
    exact hkind (beq_iff_eq.1 haccepts)
  rw [readConditions] at hread
  simp only [hposition, expect, hnone, bind, Except.bind] at hread
  cases hread

/-- So a step whose predicate compares an attribute named by a number is not read back. -/
theorem not_compile_of_number {step : PlainStep} {op : Comparison} {value : String}
    (hn : 1 ≤ n ∧ n ≤ PositionFilter.greatest) (hpath : PlainPath.IsWritable [step])
    (hpredicate : step.predicate = some (.compare (toString n) op value)) (dialect : Dialect) (t : Selector) :
    compile (PlainPath.textOf [[step]]) dialect none ≠ .ok t := by
  obtain ⟨s, hsource, hkinds⟩ := exists_ofSource (List.cons_ne_nil [step] [])
    (List.forall_mem_singleton.2 hpath)
  rw [PlainPath.barredKinds_singleton, PlainPath.kinds_cons, PlainStep.kinds, PlainStep.bracketKinds,
    hpredicate, List.cons_append, List.append_assoc, List.append_assoc] at hkinds
  obtain ⟨u, hu, haxis, hbehind⟩ := readAxis_of_kinds step.axis hkinds
  obtain ⟨v, hv, hnode, hbrackets⟩ := reads_node hbehind (by simp [bracketed])
  have hinside : v.kinds = .leftBracket :: .word (toString n) :: .comparison op ::
      (.quoted value :: .rightBracket ::
        ((step.filter.map fun filter => bracketed filter.kinds).getD [] ++ PlainPath.kinds [])) := hbrackets
  intro hcompile
  -- Each reader around the conditions succeeds only if they are read.
  rw [compile] at hcompile
  obtain ⟨_, hparse, -⟩ := exists_of_bind_eq_ok hcompile
  rw [parsePaths, hsource] at hparse
  obtain ⟨_, ⟨⟩, hsource⟩ := exists_of_bind_eq_ok hparse
  obtain ⟨_, hpaths, -⟩ := exists_of_bind_eq_ok hsource
  rw [readPaths] at hpaths
  obtain ⟨_, hpath, -⟩ := exists_of_bind_eq_ok hpaths
  rw [readPath] at hpath
  obtain ⟨_, hfirst, -⟩ := exists_of_bind_eq_ok hpath
  rw [readFirstStep, haxis] at hfirst
  obtain ⟨_, hstep, -⟩ := exists_of_bind_eq_ok hfirst
  rw [readStep, hnode] at hstep
  obtain ⟨_, ⟨⟩, hafter⟩ := exists_of_bind_eq_ok hstep
  obtain ⟨_, hconditions, -⟩ := exists_of_bind_eq_ok hafter
  exact readConditions_of_number hn hinside (by simp) _ hconditions

end Number

section Canonical

/-- No predicate of the selector begins with a number. -/
def LeadsWithNoNumber (s : Selector) : Prop :=
  ∀ path ∈ s.paths, ∀ step ∈ path, ∀ branch ∈ step.branches, ∀ p, branch.predicate = some p →
    ¬ p.leadsWithNumber

theorem PlainStep.text_normal (step : PlainStep) : step.normal.text = step.text := by
  obtain ⟨axis, node, predicate, filter⟩ := step
  cases predicate with
  | none => rfl
  | some p =>
    simp only [PlainStep.text, PlainStep.normal, Step.branchText, PlainStep.toStep, Option.map_some,
      p.text_normal]

theorem PlainPath.text_normal (path : PlainPath) : pathText path.normal.toPath = pathText path.toPath := by
  rw [pathText, pathText, PlainPath.normal, PlainPath.toPath, PlainPath.toPath, List.map_map, List.map_map,
    List.map_map]
  congr 1
  apply List.map_congr_left
  intro step _
  exact step.text_normal

theorem PlainStep.selectsAlike_normal (step : PlainStep) :
    step.toStep.SelectsAlike step.normal.toStep where
  axis := rfl
  branches := by
    refine .cons ⟨rfl, ?_⟩ .nil
    intro ignoreCase attributes
    obtain ⟨axis, node, predicate, filter⟩ := step
    cases predicate with
    | none => rfl
    | some p => exact (p.holds_normal ignoreCase attributes).symm
  filter := rfl

theorem PlainPath.selectsAlike_normal (path : PlainPath) :
    List.Forall₂ Step.SelectsAlike path.toPath path.normal.toPath := by
  rw [PlainPath.normal, PlainPath.toPath, PlainPath.toPath, List.map_map, List.forall₂_map_left_iff,
    List.forall₂_map_right_iff]
  exact List.forall₂_same.2 fun step _ => step.selectsAlike_normal

/-- The text of paths is compiled to a selector with the same text, which can replace any selector of the
paths. -/
theorem PlainPath.reads_back (source : String) (dialect : Dialect) {paths : List PlainPath} (hne : paths ≠ [])
    (hreadable : ∀ path ∈ paths, path.IsReadable) :
    ∃ t, compile (textOf paths) dialect none = .ok t ∧ t.text = textOf paths ∧
      t.Replaces ⟨source, dialect, paths.map toPath⟩ := by
  have hnormal : text ⟨textOf paths, dialect, paths.map (·.normal.toPath)⟩ = textOf paths := by
    rw [text, textOf, List.map_map]
    congr 1
    apply List.map_congr_left
    intro path _
    exact text_normal path
  have halike : SelectsAlike ⟨source, dialect, paths.map toPath⟩
      ⟨textOf paths, dialect, paths.map (·.normal.toPath)⟩ := by
    refine ⟨rfl, ?_⟩
    rw [List.forall₂_map_left_iff, List.forall₂_map_right_iff]
    exact List.forall₂_same.2 fun path _ => selectsAlike_normal path
  exact ⟨_, compile_textOf dialect hne hreadable, hnormal, halike.replaces⟩

/-- The canonical form of a selector that was compiled without a resolver is compiled too, unless a predicate
begins with a number. Its own canonical form is the same, and it can replace the original. -/
theorem text_reads_back (source : String) (dialect : Dialect) (s : Selector)
    (hcompile : compile source dialect none = .ok s) (hnumber : s.LeadsWithNoNumber) :
    ∃ t, compile s.text dialect none = .ok t ∧ t.text = s.text ∧ t.Replaces s := by
  obtain ⟨paths, hne, hwritable, rfl⟩ := exists_plain_of_compile hcompile
  have hreadable : ∀ path ∈ paths, path.IsReadable := by
    intro path hpath
    refine ⟨hwritable path hpath, ?_⟩
    intro step hstep p hp
    exact hnumber path.toPath (List.mem_map_of_mem hpath) step.toStep (List.mem_map_of_mem hstep)
      ⟨step.node, step.predicate⟩ List.mem_cons_self p hp
  have htext : text ⟨source, dialect, paths.map PlainPath.toPath⟩ = PlainPath.textOf paths := by
    rw [text, PlainPath.textOf, List.map_map]
    rfl
  rw [htext]
  exact PlainPath.reads_back source dialect hne hreadable

/-- Parentheses, quotes, a shorthand, a position and a name that begins with a digit are all read back. -/
theorem itemsOrTitles_read_back :
    let source := "(li.item[odd()]||p[@title^=\"it's\" and @2x]/text())"
    let s : Selector := ⟨source, .html,
      [[⟨.descendant, [⟨.named "li", some (.compare "class" .equal "item")⟩], some .odd⟩],
        [⟨.descendant, [⟨.named "p", some (.and (.compare "title" .startsWith "it's") (.has "2x"))⟩], none⟩,
          ⟨.child, [⟨.pseudo (.ofKind .text), none⟩], none⟩]]⟩
    compile source .html none = .ok s ∧ s.LeadsWithNoNumber ∧
      ∃ t, compile s.text .html none = .ok t ∧ t.text = s.text ∧ t.Replaces s := by
  intro source s
  have hcompile : compile source .html none = .ok s := by
    apply eq_ok_of_toOption
    decide +kernel
  have hnumber : s.LeadsWithNoNumber := by
    simp [LeadsWithNoNumber, s, Predicate.leadsWithNumber, Predicate.isDisjunction, isNumber]
  exact ⟨hcompile, hnumber, text_reads_back source .html s hcompile hnumber⟩

/-- A step whose predicate begins with a number. -/
def numberedStep : PlainStep := ⟨.descendant, .named "div", some (.compare (toString 1) .equal "x"), none⟩

/-- An attribute whose name is a number is written like a position, and what was compiled does not compile. -/
theorem numberedAttribute_misread :
    ∃ s, compile "div[@1='x']" .html none = .ok s ∧ s.text = "//div[1='x']" ∧
      ∀ t, compile s.text .html none ≠ .ok t := by
  refine ⟨⟨"div[@1='x']", .html, [PlainPath.toPath [numberedStep]]⟩, ?_, by decide +kernel, ?_⟩
  · apply eq_ok_of_toOption
    decide +kernel
  · intro t
    have hword : IsWord (toString 1) := by decide
    have hvalue : Quotable "x" := .inl (by decide)
    have hpath : PlainPath.IsWritable [numberedStep] := by
      refine ⟨List.cons_ne_nil _ _, ?_, by simp⟩
      rw [List.forall_mem_singleton]
      refine ⟨?_, ?_, nofun, nofun⟩
      · rintro _ ⟨⟩
        decide
      · rintro _ ⟨⟩
        exact ⟨hword, hvalue⟩
    exact not_compile_of_number (by decide) hpath rfl .html t

end Canonical

end MarkupStream.Selector
