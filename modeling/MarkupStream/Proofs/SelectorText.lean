import MarkupStream.Proofs.PredicateText
import MarkupStream.Proofs.SelectorForm

/-!
Selectors as they are written. Without a resolver each step is compiled to just one branch. The text of such a
selector is spelled with the lexemes of its paths, between parentheses and bars if there are several.
-/
namespace MarkupStream.Selector

open Lexeme Input

/-- A position that a selector can name. -/
def PositionFilter.IsWritable : PositionFilter → Prop
  | nth n => 1 ≤ n ∧ n ≤ greatest
  | even | odd => True

/-- A step with just one branch. -/
structure PlainStep where
  axis : Axis
  node : NodeTest
  predicate : Option Predicate
  filter : Option PositionFilter

namespace PlainStep

def toStep (step : PlainStep) : Step := ⟨step.axis, [⟨step.node, step.predicate⟩], step.filter⟩

def text (step : PlainStep) : String := step.toStep.branchText ⟨step.node, step.predicate⟩

/-- All that the step consists of can be written, and a pseudo-node has no predicate. -/
structure IsWritable (step : PlainStep) : Prop where
  name : ∀ name, step.node = .named name → IsWord name
  predicate : ∀ p, step.predicate = some p → p.IsWritable
  filter : ∀ filter, step.filter = some filter → filter.IsWritable
  pseudo : step.node.isPseudo → step.predicate = none

end PlainStep

abbrev PlainPath := List PlainStep

def PlainPath.toPath (path : PlainPath) : Path := path.map PlainStep.toStep

/-- A path that can be written, in which only the last step can be a pseudo-node. -/
structure PlainPath.IsWritable (path : PlainPath) : Prop where
  ne_nil : path ≠ []
  steps : ∀ step ∈ path, step.IsWritable
  early : ∀ step ∈ path.dropLast, ¬ step.node.isPseudo

/-- The text of a selector with the given paths. -/
def PlainPath.textOf (paths : List PlainPath) : String := alternativesText (paths.map (pathText ·.toPath))

section Compilation

/-- The predicate of a condition where there is no resolver. -/
def Condition.unresolved : Condition → Predicate
  | predicate p => p
  | reference _ _ => FragmentAttribute.standard.isDeclared

/-- All conditions in one predicate, after those found already. -/
def conjoinAll (found : Option Predicate) (conditions : List Condition) : Option Predicate :=
  conditions.foldl (fun p condition => some (conjoin p condition.unresolved)) found

/-- What a step is compiled to without a resolver. -/
def StepExpr.toPlain (expr : StepExpr) : PlainStep :=
  ⟨expr.axis, expr.node, conjoinAll none expr.conditions, expr.filter⟩

/-- What a path is compiled to without a resolver. -/
def PathExpr.toPlain (path : PathExpr) : PlainPath := path.map StepExpr.toPlain

variable (source : String)

theorem compileConditions_none (found : Option Predicate) (conditions : List Condition) :
    compileConditions source none found conditions = .ok (conjoinAll found conditions) := by
  induction conditions generalizing found with
  | nil => rfl
  | cons condition rest ih => cases condition <;> exact ih _

theorem compileStep_none (expands : Bool) (expr : StepExpr) :
    compileStep source none expands expr = .ok expr.toPlain.toStep := by
  have hbranches : ∀ predicate, compileBranches source none expands expr predicate =
      .ok [⟨expr.node, predicate⟩] := by
    intro predicate
    rw [compileBranches]
    exact nofun
  rw [compileStep, compileConditions_none]
  simp only [hbranches, bind, Except.bind]
  rfl

theorem compilePath_none (path : PathExpr) :
    compilePath source none path = .ok (PathExpr.toPlain path).toPath := by
  rw [compilePath, PathExpr.toPlain, PlainPath.toPath, List.map_map]
  exact (congrArg (path.mapM ·) (funext (compileStep_none source _))).trans List.mapM_pure

theorem compile_none (dialect : Dialect) :
    compile source dialect none = (parsePaths source).map fun paths =>
      ⟨source, dialect, paths.map fun path => (PathExpr.toPlain path).toPath⟩ := by
  rw [compile]
  cases parsePaths source with
  | error e => rfl
  | ok paths =>
    have hpaths : paths.mapM (compilePath source none) =
        .ok (paths.map fun path => (PathExpr.toPlain path).toPath) :=
      (congrArg (paths.mapM ·) (funext (compilePath_none source))).trans List.mapM_pure
    simp only [hpaths, bind, Except.bind]
    rfl

end Compilation

def Axis.kind : Axis → Lexeme.Kind
  | child => .slash
  | descendant => .doubleSlash

def NodeTest.kinds : NodeTest → List Lexeme.Kind
  | any => [.star]
  | named name => [.word name]
  | pseudo p => [.word p.name, .leftParen, .rightParen]

def bracketed (kinds : List Lexeme.Kind) : List Lexeme.Kind := .leftBracket :: (kinds ++ [.rightBracket])

def PositionFilter.kinds : PositionFilter → List Lexeme.Kind
  | nth n => [.word (toString n)]
  | even => [.word "even", .leftParen, .rightParen]
  | odd => [.word "odd", .leftParen, .rightParen]

/-- The lexemes of what a step has in brackets. -/
def PlainStep.bracketKinds (step : PlainStep) : List Lexeme.Kind :=
  (step.predicate.map fun p => bracketed p.kinds).getD [] ++
    (step.filter.map fun filter => bracketed filter.kinds).getD []

def PlainStep.kinds (step : PlainStep) : List Lexeme.Kind :=
  step.axis.kind :: (step.node.kinds ++ step.bracketKinds)

def PlainPath.kinds (path : PlainPath) : List Lexeme.Kind := path.flatMap PlainStep.kinds

/-- The lexemes of paths with bars between them. -/
def PlainPath.barredKinds (paths : List PlainPath) : List Lexeme.Kind :=
  [Lexeme.Kind.doublePipe].intercalate (paths.map PlainPath.kinds)

theorem PlainPath.barredKinds_singleton (path : PlainPath) : barredKinds [path] = path.kinds :=
  List.intercalate_singleton

theorem PlainPath.barredKinds_cons_cons (path next : PlainPath) (paths : List PlainPath) :
    barredKinds (path :: next :: paths) = path.kinds ++ .doublePipe :: barredKinds (next :: paths) := by
  rw [barredKinds, List.map_cons, List.map_cons, List.intercalate_cons_cons, List.append_assoc]
  rfl

/-- The lexemes of the text of a selector. -/
def PlainPath.kindsOf : List PlainPath → List Lexeme.Kind
  | [path] => path.kinds
  | paths => .leftParen :: (barredKinds paths ++ [.rightParen])

section Spelling

variable {rest : List Char} {more : List Lexeme.Kind}

/-- What may follow a step. -/
structure EndsStep (chars : List Char) : Prop where
  word : EndsWord chars
  equal : chars.head? ≠ some '='

theorem endsStep_cons {c : Char} (hword : ¬ isWordChar c) (hequal : c ≠ '=') (chars : List Char) :
    EndsStep (c :: chars) := by
  refine ⟨endsWord_cons hword chars, ?_⟩
  rintro ⟨⟩
  exact hequal rfl

theorem isWord_of_digits {word : String} (hne : word.toList ≠ [])
    (h : ∀ c ∈ word.toList, c.isDigit) : IsWord word := by
  have hword : ∀ c ∈ word.toList, isWordChar c := by
    intro c hc
    simp [isWordChar, Char.isAlphanum, h c hc]
  obtain ⟨c, more, hchars⟩ := List.exists_cons_of_ne_nil hne
  refine ⟨⟨c, more, hchars, ?_⟩, hword⟩
  have hdigit := h c (by rw [hchars]; exact List.mem_cons_self)
  have hrange : 48 ≤ c.toNat ∧ c.toNat ≤ 57 := by
    simpa [Char.isDigit, UInt32.le_iff_toNat_le] using hdigit
  simp only [isBlank, Bool.or_eq_true, Bool.and_eq_true, decide_eq_true_eq, beq_iff_eq]
  omega

theorem digits_toString (n : Nat) : ∀ c ∈ (toString n).toList, c.isDigit := by
  intro c hc
  rw [Nat.toString_eq_ofList_toDigits, String.toList_ofList] at hc
  exact Nat.isDigit_of_mem_toDigits (by decide) (by decide) hc

theorem isWord_toString (n : Nat) : IsWord (toString n) := by
  apply isWord_of_digits _ (digits_toString n)
  rw [Nat.toString_eq_ofList_toDigits, String.toList_ofList]
  exact Nat.toDigits_ne_nil

/-- A word with an empty pair of parentheses. -/
theorem spells_call {word : String} (hword : IsWord word) (h : Spells rest more) :
    Spells (word.toList ++ '(' :: ')' :: rest) (.word word :: .leftParen :: .rightParen :: more) :=
  h.rightParen.leftParen.word hword (endsWord_cons (by decide) _)

theorem isWord_name (p : PseudoNode) : IsWord p.name := by
  rcases p with (_ | _) | _ <;> decide

theorem spells_filter (filter : PositionFilter) (h : Spells rest more) :
    Spells (filter.text.toList ++ rest) (bracketed filter.kinds ++ more) := by
  cases filter with
  | nth n =>
    have hinside := h.rightBracket.word (isWord_toString n) (endsWord_cons (by decide) _)
    simpa [PositionFilter.text, PositionFilter.kinds, bracketed] using hinside.leftBracket
  | even => exact (spells_call (show IsWord "even" by decide) h.rightBracket).leftBracket
  | odd => exact (spells_call (show IsWord "odd" by decide) h.rightBracket).leftBracket

theorem PositionFilter.exists_text_eq_cons (filter : PositionFilter) :
    ∃ more, filter.text.toList = '[' :: more := by
  cases filter with
  | nth n => exact ⟨(toString n ++ "]").toList, by simp [text]⟩
  | even | odd => exact ⟨_, rfl⟩

theorem spells_predicate {p : Predicate} (hp : p.IsWritable) (h : Spells rest more) :
    Spells (("[" ++ p.text ++ "]").toList ++ rest) (bracketed p.kinds ++ more) := by
  have hinside := Predicate.spells_text hp (endsWord_cons (by decide) rest) h.rightBracket
  simpa [bracketed] using hinside.leftBracket

/-- What a step has in brackets. -/
def PlainStep.bracketText (step : PlainStep) : String :=
  (step.predicate.map fun p => "[" ++ p.text ++ "]").getD "" ++ (step.filter.map (·.text)).getD ""

theorem PlainStep.text_eq (step : PlainStep) :
    step.text = step.axis.text ++ step.node.text ++ step.bracketText := by
  obtain ⟨axis, node, predicate, filter⟩ := step
  cases predicate <;> cases filter <;> simp [text, bracketText, toStep, Step.branchText, String.append_assoc]

theorem spells_brackets {step : PlainStep} (hstep : step.IsWritable) (h : Spells rest more) :
    Spells (step.bracketText.toList ++ rest) (step.bracketKinds ++ more) := by
  have hfilter : Spells (((step.filter.map (·.text)).getD "").toList ++ rest)
      ((step.filter.map fun filter => bracketed filter.kinds).getD [] ++ more) := by
    cases step.filter with
    | none => simpa using h
    | some filter => exact spells_filter filter h
  rw [PlainStep.bracketText, PlainStep.bracketKinds, String.toList_append, List.append_assoc,
    List.append_assoc]
  cases hpredicate : step.predicate with
  | none => simpa using hfilter
  | some p => exact spells_predicate (hstep.predicate p hpredicate) hfilter

theorem endsStep_brackets (step : PlainStep) (hrest : EndsStep rest) :
    EndsStep (step.bracketText.toList ++ rest) := by
  obtain ⟨axis, node, predicate, filter⟩ := step
  cases predicate with
  | some p =>
    simp only [PlainStep.bracketText, Option.map_some, Option.getD_some, String.toList_append,
      List.append_assoc]
    exact endsStep_cons (by decide) (by decide) _
  | none =>
    cases filter with
    | none => simpa [PlainStep.bracketText] using hrest
    | some filter =>
      obtain ⟨more, hmore⟩ := filter.exists_text_eq_cons
      simp only [PlainStep.bracketText, Option.map_some, Option.getD_some, Option.map_none,
        Option.getD_none, String.toList_append, hmore, List.append_assoc]
      exact endsStep_cons (by decide) (by decide) _

theorem fixedKind_star {after : Option Char} (h : after ≠ some '=') :
    fixedKind? '*' after = some (.star, 1) := by
  unfold fixedKind?
  split <;> simp_all

theorem fixedKind_slash {after : Option Char} (h : after ≠ some '/') :
    fixedKind? '/' after = some (.slash, 1) := by
  unfold fixedKind?
  split <;> simp_all

theorem spells_node {node : NodeTest} (hnode : ∀ name, node = .named name → IsWord name)
    (hrest : EndsStep rest) (h : Spells rest more) :
    Spells (node.text.toList ++ rest) (node.kinds ++ more) := by
  cases node with
  | any => exact h.fixed (fixedKind_star hrest.equal) nofun (by decide) rfl
  | named name => exact h.word (hnode name rfl) hrest.word
  | pseudo p =>
    simpa [NodeTest.text, PseudoNode.text, NodeTest.kinds] using spells_call (isWord_name p) h

/-- No axis goes on with the node behind it. -/
theorem head_node {node : NodeTest} (hnode : ∀ name, node = .named name → IsWord name) :
    (node.text.toList ++ rest).head? ≠ some '/' := by
  cases node with
  | any => exact nofun
  | named name => exact head_of_isWord (hnode name rfl) (by decide) rest
  | pseudo p =>
    rw [NodeTest.text, PseudoNode.text, String.toList_append, List.append_assoc]
    exact head_of_isWord (isWord_name p) (by decide) _

theorem spells_axis (axis : Axis) (hrest : rest.head? ≠ some '/') (h : Spells rest more) :
    Spells (axis.text.toList ++ rest) (axis.kind :: more) := by
  cases axis with
  | child => exact h.fixed (fixedKind_slash hrest) nofun (by decide) rfl
  | descendant =>
    have hkind : fixedKind? '/' ('/' :: rest).head? = some (.doubleSlash, 2) := rfl
    exact h.fixed hkind nofun (by decide) rfl

theorem spells_step {step : PlainStep} (hstep : step.IsWritable) (hrest : EndsStep rest)
    (h : Spells rest more) : Spells (step.text.toList ++ rest) (step.kinds ++ more) := by
  have hnode := spells_node hstep.name (endsStep_brackets step hrest) (spells_brackets hstep h)
  have haxis := spells_axis step.axis (head_node hstep.name) hnode
  simpa [PlainStep.text_eq, PlainStep.kinds] using haxis

theorem PlainStep.endsStep_text (step : PlainStep) : EndsStep (step.text.toList ++ rest) := by
  rw [step.text_eq, String.toList_append, String.toList_append]
  cases step.axis <;> exact endsStep_cons (by decide) (by decide) _

theorem toList_pathText (path : PlainPath) :
    (pathText path.toPath).toList = path.flatMap (·.text.toList) := by
  rw [pathText, PlainPath.toPath, String.toList_join, List.map_map, List.flatMap_map]
  rfl

theorem spells_path {path : PlainPath} (hpath : ∀ step ∈ path, step.IsWritable) (hrest : EndsStep rest)
    (h : Spells rest more) : Spells ((pathText path.toPath).toList ++ rest) (path.kinds ++ more) := by
  rw [toList_pathText]
  induction path with
  | nil => exact h
  | cons step path ih =>
    have hlater := ih fun later hmem => hpath later (List.mem_cons_of_mem _ hmem)
    have hends : EndsStep (path.flatMap (·.text.toList) ++ rest) := by
      cases path with
      | nil => exact hrest
      | cons next path =>
        rw [List.flatMap_cons, List.append_assoc]
        exact next.endsStep_text
    have hstep := spells_step (hpath step List.mem_cons_self) hends hlater
    simpa [PlainPath.kinds] using hstep

theorem spells_doublePipe (h : Spells rest more) :
    Spells ('|' :: '|' :: rest) (.doublePipe :: more) := by
  have hkind : fixedKind? '|' ('|' :: rest).head? = some (.doublePipe, 2) := rfl
  exact h.fixed hkind nofun (by decide) rfl

theorem spells_barred {path : PlainPath} {paths : List PlainPath}
    (hpaths : ∀ path' ∈ path :: paths, path'.IsWritable) (hrest : EndsStep rest) (h : Spells rest more) :
    Spells ((" || ".intercalate ((path :: paths).map (pathText ·.toPath))).toList ++ rest)
      (PlainPath.barredKinds (path :: paths) ++ more) := by
  induction paths generalizing path with
  | nil =>
    rw [List.map_singleton, String.intercalate_singleton, PlainPath.barredKinds_singleton]
    exact spells_path (hpaths path List.mem_cons_self).steps hrest h
  | cons next paths ih =>
    have hlater := ih fun other hmem => hpaths other (List.mem_cons_of_mem _ hmem)
    have hbar := (spells_doublePipe (hlater.blank (c := ' ') rfl)).blank (c := ' ') rfl
    have hends : EndsStep (' ' :: '|' :: '|' :: ' ' ::
        ((" || ".intercalate ((next :: paths).map (pathText ·.toPath))).toList ++ rest)) :=
      endsStep_cons (by decide) (by decide) _
    have hpath := spells_path (hpaths path List.mem_cons_self).steps hends hbar
    simpa [PlainPath.barredKinds_cons_cons, String.intercalate_cons_cons] using hpath

/-- The text of a selector is spelled with the lexemes of its paths. -/
theorem spells_selector {paths : List PlainPath} (hne : paths ≠ [])
    (hpaths : ∀ path ∈ paths, path.IsWritable) :
    Spells (PlainPath.textOf paths).toList (PlainPath.kindsOf paths) := by
  obtain ⟨path, paths, rfl⟩ := List.exists_cons_of_ne_nil hne
  have hend : EndsStep [] := ⟨nofun, nofun⟩
  cases paths with
  | nil =>
    have hpath := spells_path (hpaths path List.mem_cons_self).steps hend spells_nil
    simpa [PlainPath.textOf, alternativesText, PlainPath.kindsOf] using hpath
  | cons next paths =>
    have hinside := spells_barred hpaths (endsStep_cons (by decide) (by decide) _) spells_nil.rightParen
    simpa [PlainPath.textOf, alternativesText, PlainPath.kindsOf] using hinside.leftParen

end Spelling

end MarkupStream.Selector
