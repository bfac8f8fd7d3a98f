import Mathlib
import MarkupStream.Proofs.SelectorText

/-!
Selectors as they are read back. The text of a selector is compiled to the same steps with their predicates
in normal form. Brackets are shared by predicates and position filters, and a predicate whose text begins
with a number is taken for a position, so there must be none of those.
-/
namespace MarkupStream.Selector

open Lexeme Input

/-- A name of digits alone, as positions have. -/
def isNumber (name : String) : Bool := name.toList.all Char.isDigit

/-- Whether the text of a predicate begins with a number. -/
def Predicate.leadsWithNumber : Predicate → Bool
  | compare name _ _ | has name => isNumber name
  | lacks _ | not _ => false
  | and l _ => !l.isDisjunction && l.leadsWithNumber
  | or l _ => l.leadsWithNumber

variable {s : Input} {left more : List Lexeme.Kind}

section Position

/-- What the lexemes begin with: a word with no parenthesis behind it, which may be a number, or a mark. -/
inductive Begins : Bool → List Lexeme.Kind → Prop
  | word {name : String} {more : List Lexeme.Kind} : more.head? ≠ some .leftParen →
      Begins (isNumber name) (.word name :: more)
  | mark {kind : Lexeme.Kind} {more : List Lexeme.Kind} : (∀ name, kind ≠ .word name) →
      Begins false (kind :: more)

theorem Predicate.begins_kinds (p : Predicate) (hmore : more.head? ≠ some .leftParen) :
    Begins p.leadsWithNumber (p.kinds ++ more) := by
  induction p generalizing more with
  | compare name op value => exact .word nofun
  | has name => exact .word hmore
  | lacks name => exact .mark nofun
  | not p ih => exact .mark nofun
  | and l r ihl ihr =>
    rw [leadsWithNumber, kinds, List.append_assoc, List.cons_append]
    cases l.isDisjunction with
    | true => exact .mark (by simp)
    | false => exact ihl (by simp)
  | or l r ihl ihr =>
    rw [leadsWithNumber, kinds, List.append_assoc, List.cons_append]
    exact ihl (by simp)

theorem readPosition_of_begins {number : Bool} (h : Begins number s.kinds) (hnot : ¬ number) :
    readPosition? s = .ok none := by
  unfold readPosition?
  split
  · rename_i text offset length rest heq
    rw [kinds, heq] at h
    cases h with
    | mark hkind => exact absurd rfl (hkind text)
    | word hmore =>
      rw [isNumber] at hnot
      rw [if_neg hnot]
      split
      · exact absurd rfl hmore
      · rfl
  · rfl

theorem exists_input_of_kinds {kind : Lexeme.Kind} (h : s.kinds = kind :: more) :
    ∃ source previous offset length rest stop,
      s = ⟨source, previous, ⟨kind, offset, length⟩ :: rest, stop⟩ ∧ rest.map (·.kind) = more := by
  obtain ⟨source, previous, _, stop⟩ := s
  obtain ⟨⟨_, offset, length⟩, rest, rfl, rfl, hmore⟩ := exists_cons_of_kinds h
  exact ⟨source, previous, offset, length, rest, stop, rfl, hmore⟩

/-- A word of digits is taken for a position, whatever follows. -/
theorem reads_number {n : Nat} (hn : 1 ≤ n ∧ n ≤ PositionFilter.greatest)
    (h : s.kinds = .word (toString n) :: more) :
    ∃ t ht, readPosition? s = .ok (some (.nth n, ⟨t, ht⟩)) ∧ t.kinds = more := by
  have hposition : positionOf? (toString n) = some (.nth n) := by
    have hvalue : (toString n).toNat? = some n := Nat.toNat?_repr n
    rw [positionOf?, hvalue]
    exact if_pos hn
  obtain ⟨source, previous, offset, length, rest, stop, rfl, hmore⟩ := exists_input_of_kinds h
  refine ⟨⟨source, some ⟨.word (toString n), offset, length⟩, rest, stop⟩, Nat.lt_succ_self _, ?_, hmore⟩
  rw [readPosition?]
  dsimp only
  rw [if_pos (List.all_eq_true.2 (digits_toString n)), hposition]

theorem reads_position {filter : PositionFilter} (hfilter : filter.IsWritable)
    (h : s.kinds = filter.kinds ++ more) :
    ∃ t ht, readPosition? s = .ok (some (filter, ⟨t, ht⟩)) ∧ t.kinds = more := by
  cases filter with
  | nth n => exact reads_number hfilter h
  | even | odd =>
    obtain ⟨source, previous, offset, length, rest, stop, rfl, hcall⟩ := exists_input_of_kinds h
    obtain ⟨⟨_, _, _⟩, rest, rfl, rfl, hclose⟩ := List.map_eq_cons_iff.1 hcall
    obtain ⟨⟨_, o, l⟩, rest, rfl, rfl, hmore⟩ := List.map_eq_cons_iff.1 hclose
    refine ⟨⟨source, some ⟨.rightParen, o, l⟩, rest, stop⟩, ?_, rfl, hmore⟩
    exact Nat.lt_add_of_pos_right (by decide : 0 < 3)

end Position

section Steps

/-- What may come next after a step. -/
def FollowsStep (kinds : List Lexeme.Kind) : Prop :=
  ∀ kind ∈ kinds.head?, kind = .slash ∨ kind = .doubleSlash ∨ kind = .doublePipe

theorem FollowsStep.head_ne {kinds : List Lexeme.Kind} {kind : Lexeme.Kind} (h : FollowsStep kinds)
    (hkind : kind ≠ .slash ∧ kind ≠ .doubleSlash ∧ kind ≠ .doublePipe) : kinds.head? ≠ some kind := by
  intro hhead
  rcases h kind hhead with rfl | rfl | rfl
  · exact hkind.1 rfl
  · exact hkind.2.1 rfl
  · exact hkind.2.2 rfl

/-- The conditions and the filter of a step have been read, and lexemes of the given kinds are left. -/
def ReadsConditions {P : Input → Prop}
    (result : Except SelectorError (List Condition × Option PositionFilter × { t : Input // P t }))
    (conditions : List Condition) (filter : Option PositionFilter) (left : List Lexeme.Kind) : Prop :=
  ∃ t, ∃ h : P t, result = .ok (conditions, filter, ⟨t, h⟩) ∧ t.kinds = left

theorem reads_conditions_end (filter : Option PositionFilter) (h : s.kinds = more)
    (hmore : FollowsStep more) : ReadsConditions (readConditions filter s) [] filter more := by
  refine ⟨s, Nat.le_refl _, ?_, h⟩
  rw [readConditions]
  split
  · rfl
  · rename_i lexeme rest heq
    have hkind : lexeme.kind = .slash ∨ lexeme.kind = .doubleSlash ∨ lexeme.kind = .doublePipe := by
      apply hmore
      rw [← h, kinds, heq]
      rfl
    rcases hkind with hkind | hkind | hkind
    all_goals
      rw [hkind]
      rfl

theorem reads_conditions_filter {filter : PositionFilter} (hfilter : filter.IsWritable)
    (h : s.kinds = bracketed filter.kinds ++ more) (hmore : FollowsStep more) :
    ReadsConditions (readConditions none s) [] (some filter) more := by
  rw [bracketed, List.cons_append, List.append_assoc] at h
  obtain ⟨source, previous, offset, length, rest, stop, rfl, hinside⟩ := exists_input_of_kinds h
  obtain ⟨t, ht, hposition, hclose⟩ :=
    reads_position (s := ⟨source, some ⟨.leftBracket, offset, length⟩, rest, stop⟩) hfilter hinside
  obtain ⟨u, hu, hexpect, hleft⟩ := expect_of_kinds .closeBracket hclose
  obtain ⟨v, hv, hend, hlast⟩ := reads_conditions_end (some filter) hleft hmore
  rw [readConditions]
  simp only [hposition, hexpect, hend, bind, Except.bind]
  exact ⟨v, _, rfl, hlast⟩

theorem reads_conditions_predicate {p : Predicate} {conditions : List Condition}
    {filter : Option PositionFilter} (hp : ¬ p.leadsWithNumber)
    (h : s.kinds = bracketed p.kinds ++ left)
    (hlater : ∀ t : Input, t.kinds = left → ReadsConditions (readConditions none t) conditions filter more) :
    ReadsConditions (readConditions none s) (.predicate p.normal :: conditions) filter more := by
  rw [bracketed, List.cons_append, List.append_assoc] at h
  obtain ⟨source, previous, offset, length, rest, stop, rfl, hinside⟩ := exists_input_of_kinds h
  have hnone : readPosition? ⟨source, some ⟨.leftBracket, offset, length⟩, rest, stop⟩ = .ok none := by
    apply readPosition_of_begins _ hp
    rw [kinds, hinside]
    exact p.begins_kinds (by simp)
  obtain ⟨u, hu, hread, hclose⟩ := p.joins.2.reads (Predicate.endsPredicate_closing (.inr rfl))
    (s := ⟨source, some ⟨.leftBracket, offset, length⟩, rest, stop⟩) hinside
  obtain ⟨v, hv, hexpect, hleft⟩ := expect_of_kinds .closeBracket hclose
  obtain ⟨w, hw, hend, hlast⟩ := hlater v hleft
  rw [readConditions]
  simp only [hnone, hread, hexpect, hend, bind, Except.bind]
  exact ⟨w, _, rfl, hlast⟩

namespace PlainStep

/-- The step with its predicate in normal form. -/
def normal (step : PlainStep) : PlainStep :=
  { step with predicate := step.predicate.map Predicate.normal }

/-- The conditions of the step as they are read. -/
def conditions (step : PlainStep) : List Condition :=
  (step.predicate.map fun p => Condition.predicate p.normal).toList

/-- The step as it is read at an offset. -/
def toExpr (step : PlainStep) (offset : Nat) : StepExpr :=
  ⟨step.axis, step.node, step.conditions, step.filter, offset⟩

theorem toPlain_toExpr (step : PlainStep) (offset : Nat) : (step.toExpr offset).toPlain = step.normal := by
  obtain ⟨axis, node, predicate, filter⟩ := step
  cases predicate <;> rfl

/-- The predicate of the step cannot be taken for a position. -/
def IsPlain (step : PlainStep) : Prop := ∀ p, step.predicate = some p → ¬ p.leadsWithNumber

end PlainStep

theorem reads_brackets {step : PlainStep} (hstep : step.IsWritable) (hplain : step.IsPlain)
    (h : s.kinds = step.bracketKinds ++ more) (hmore : FollowsStep more) :
    ReadsConditions (readConditions none s) step.conditions step.filter more := by
  have hfilter : ∀ t : Input,
      t.kinds = (step.filter.map fun filter => bracketed filter.kinds).getD [] ++ more →
      ReadsConditions (readConditions none t) [] step.filter more := by
    intro t ht
    cases hfilter : step.filter with
    | none =>
      rw [hfilter] at ht
      exact reads_conditions_end none ht hmore
    | some filter =>
      rw [hfilter] at ht
      exact reads_conditions_filter (hstep.filter filter hfilter) ht hmore
  rw [PlainStep.bracketKinds, List.append_assoc] at h
  rw [PlainStep.conditions]
  cases hpredicate : step.predicate with
  | none =>
    rw [hpredicate] at h
    exact hfilter s h
  | some p =>
    rw [hpredicate] at h
    exact reads_conditions_predicate (hplain p hpredicate) h hfilter

theorem reads_node {node : NodeTest} (h : s.kinds = node.kinds ++ more)
    (hmore : more.head? ≠ some .leftParen) : Reads (readNode s) node more := by
  cases node with
  | any =>
    obtain ⟨source, previous, offset, length, rest, stop, rfl, hrest⟩ := exists_input_of_kinds h
    exact ⟨⟨source, some ⟨.star, offset, length⟩, rest, stop⟩, Nat.le_succ _, rfl, hrest⟩
  | named name =>
    obtain ⟨source, previous, offset, length, rest, stop, rfl, hrest⟩ := exists_input_of_kinds h
    have hnone : advanceIf ⟨source, some ⟨.word name, offset, length⟩, rest, stop⟩ (· == .leftParen) =
        none := by
      apply advanceIf_of_not
      rw [kinds, hrest]
      rintro kind hkind haccepts
      obtain rfl := beq_iff_eq.1 haccepts
      exact hmore hkind
    refine ⟨⟨source, some ⟨.word name, offset, length⟩, rest, stop⟩, Nat.le_succ _, ?_, hrest⟩
    rw [readNode]
    simp only [hnone]
    rfl
  | pseudo p =>
    obtain ⟨source, previous, offset, length, rest, stop, rfl, hrest⟩ := exists_input_of_kinds h
    obtain ⟨t, ht, hparen, hclose⟩ := advanceIf_of_accepts (· == .leftParen)
      (s := ⟨source, some ⟨.word p.name, offset, length⟩, rest, stop⟩) hrest rfl
    obtain ⟨u, hu, hexpect, hleft⟩ := expect_of_kinds .pseudoClose hclose
    rw [readNode]
    simp only [hparen, PseudoNode.ofName_name, hexpect, bind, Except.bind]
    exact ⟨u, _, rfl, hleft⟩

theorem head_brackets (step : PlainStep) (hmore : FollowsStep more) :
    (step.bracketKinds ++ more).head? ≠ some .leftParen := by
  obtain ⟨axis, node, predicate, filter⟩ := step
  cases predicate with
  | some p => exact nofun
  | none =>
    cases filter with
    | some filter => exact nofun
    | none => exact hmore.head_ne (by decide)

theorem reads_step {step : PlainStep} (hstep : step.IsWritable) (hplain : step.IsPlain) (offset : Nat)
    (h : s.kinds = step.node.kinds ++ (step.bracketKinds ++ more)) (hmore : FollowsStep more) :
    Reads (readStep step.axis offset s) (step.toExpr offset) more := by
  rw [readStep]
  apply (reads_node h (head_brackets step hmore)).bind
  intro t ht hbrackets
  obtain ⟨u, hu, hconditions, hleft⟩ := reads_brackets hstep hplain hbrackets hmore
  have hbare : ¬ (step.node.isPseudo && !step.conditions.isEmpty) := by
    rw [Bool.and_eq_true]
    rintro ⟨hnode, hsome⟩
    rw [PlainStep.conditions, hstep.pseudo hnode] at hsome
    cases hsome
  simp only [hconditions, bind, Except.bind]
  rw [if_neg hbare]
  exact ⟨u, _, rfl, hleft⟩

theorem readAxis_of_kinds (axis : Axis) (h : s.kinds = axis.kind :: more) :
    ∃ t ht, readAxis? s = some (axis, ⟨t, ht⟩) ∧ t.kinds = more := by
  cases axis with
  | child =>
    obtain ⟨t, ht, hadvance, hmore⟩ := advanceIf_of_accepts (· == .slash) h rfl
    exact ⟨t, ht, by rw [readAxis?, hadvance], hmore⟩
  | descendant =>
    obtain ⟨t, ht, hadvance, hmore⟩ := advanceIf_of_accepts (· == .doubleSlash) h rfl
    refine ⟨t, ht, ?_, hmore⟩
    rw [readAxis?, advanceIf_of_kinds_not h Bool.false_ne_true, hadvance]
    rfl

end Steps

section Paths

theorem PlainPath.kinds_cons (step : PlainStep) (path : PlainPath) :
    PlainPath.kinds (step :: path) = step.kinds ++ path.kinds := List.flatMap_cons

/-- What may come next after a path. -/
def FollowsPath (kinds : List Lexeme.Kind) : Prop := ∀ kind ∈ kinds.head?, kind = .doublePipe

theorem FollowsPath.followsStep (h : FollowsPath more) : FollowsStep more :=
  fun kind hkind => .inr (.inr (h kind hkind))

theorem readAxis_of_followsPath (h : FollowsPath s.kinds) : readAxis? s = none := by
  have hnone : ∀ kind, kind ≠ .doublePipe → s.advanceIf (· == kind) = none := by
    intro kind hkind
    apply advanceIf_of_not
    intro next hnext haccepts
    rw [h next hnext] at haccepts
    exact hkind (beq_iff_eq.1 haccepts).symm
  rw [readAxis?, hnone .slash nofun, hnone .doubleSlash nofun]
  rfl

theorem PlainPath.followsStep_kinds (path : PlainPath) (hmore : FollowsPath more) :
    FollowsStep (path.kinds ++ more) := by
  cases path with
  | nil => exact hmore.followsStep
  | cons step path =>
    rintro kind ⟨⟩
    cases step.axis
    · exact .inl rfl
    · exact .inr (.inl rfl)

/-- The path with its predicates in normal form. -/
def PlainPath.normal (path : PlainPath) : PlainPath := path.map PlainStep.normal

theorem reads_furtherSteps {path : PlainPath} (hpath : ∀ step ∈ path, step.IsWritable ∧ step.IsPlain)
    (h : s.kinds = path.kinds ++ more) (hmore : FollowsPath more) :
    ∃ exprs : PathExpr, PathExpr.toPlain exprs = path.normal ∧ Reads (readFurtherSteps s) exprs more := by
  induction path generalizing s with
  | nil =>
    refine ⟨[], rfl, ?_⟩
    have hnone : readAxis? s = none := readAxis_of_followsPath (by rw [h]; exact hmore)
    rw [readFurtherSteps, hnone]
    exact reads_pure _ h
  | cons step path ih =>
    rw [PlainPath.kinds_cons, List.append_assoc, PlainStep.kinds, List.cons_append, List.append_assoc] at h
    obtain ⟨t, ht, haxis, hstep⟩ := readAxis_of_kinds step.axis h
    obtain ⟨hwritable, hplain⟩ := hpath step List.mem_cons_self
    obtain ⟨u, hu, hread, hlater⟩ := reads_step hwritable hplain s.offset hstep
      (PlainPath.followsStep_kinds path hmore)
    obtain ⟨exprs, hexprs, v, hv, hfurther, hlast⟩ :=
      ih (fun later hmem => hpath later (List.mem_cons_of_mem _ hmem)) hlater
    refine ⟨step.toExpr s.offset :: exprs, congrArg₂ _ (step.toPlain_toExpr _) hexprs, ?_⟩
    rw [readFurtherSteps, haxis]
    simp only [hread, hfurther, bind, Except.bind]
    exact ⟨v, _, rfl, hlast⟩

theorem find_early_of_toPlain {path : PlainPath} {exprs : PathExpr}
    (h : PathExpr.toPlain exprs = path.normal) (hearly : ∀ step ∈ path.dropLast, ¬ step.node.isPseudo) :
    exprs.dropLast.find? (·.node.isPseudo) = none := by
  have hnodes : exprs.map (·.node) = path.map (·.node) := by
    have hmap := congrArg (List.map (·.node)) h
    rwa [PathExpr.toPlain, PlainPath.normal, List.map_map, List.map_map] at hmap
  rw [List.find?_eq_none]
  intro expr hmem
  have hnode : expr.node ∈ (path.map (·.node)).dropLast := by
    rw [← hnodes, ← List.map_dropLast]
    exact List.mem_map_of_mem hmem
  rw [← List.map_dropLast] at hnode
  obtain ⟨step, hstep, hsame⟩ := List.mem_map.1 hnode
  rw [← hsame]
  exact hearly step hstep

/-- A path that can be written, none of whose predicates can be taken for a position. -/
def PlainPath.IsReadable (path : PlainPath) : Prop := path.IsWritable ∧ ∀ step ∈ path, step.IsPlain

theorem reads_firstStep {step : PlainStep} (hstep : step.IsWritable) (hplain : step.IsPlain)
    (h : s.kinds = step.kinds ++ more) (hmore : FollowsStep more) :
    Reads (readFirstStep s) (step.toExpr s.offset) more := by
  rw [PlainStep.kinds, List.cons_append, List.append_assoc] at h
  obtain ⟨t, ht, haxis, hinside⟩ := readAxis_of_kinds step.axis h
  obtain ⟨u, hu, hread, hleft⟩ := reads_step hstep hplain s.offset hinside hmore
  rw [readFirstStep, haxis]
  simp only [hread, bind, Except.bind]
  exact ⟨u, _, rfl, hleft⟩

theorem reads_path {path : PlainPath} (hpath : path.IsReadable) (h : s.kinds = path.kinds ++ more)
    (hmore : FollowsPath more) :
    ∃ exprs : PathExpr, PathExpr.toPlain exprs = path.normal ∧ Reads (readPath s) exprs more := by
  obtain ⟨⟨hne, hsteps, hearly⟩, hplain⟩ := hpath
  obtain ⟨step, path, rfl⟩ := List.exists_cons_of_ne_nil hne
  rw [PlainPath.kinds_cons, List.append_assoc] at h
  obtain ⟨u, hu, hread, hlater⟩ := reads_firstStep (hsteps step List.mem_cons_self)
    (hplain step List.mem_cons_self) h (PlainPath.followsStep_kinds path hmore)
  obtain ⟨exprs, hexprs, v, hv, hfurther, hlast⟩ := reads_furtherSteps
    (fun later hmem => ⟨hsteps later (List.mem_cons_of_mem _ hmem),
      hplain later (List.mem_cons_of_mem _ hmem)⟩) hlater hmore
  have hall : PathExpr.toPlain (step.toExpr s.offset :: exprs) = PlainPath.normal (step :: path) :=
    congrArg₂ _ (step.toPlain_toExpr _) hexprs
  have hnone := find_early_of_toPlain hall hearly
  refine ⟨step.toExpr s.offset :: exprs, hall, ?_⟩
  rw [readPath]
  simp only [hread, hfurther, hnone, bind, Except.bind]
  exact ⟨v, _, rfl, hlast⟩

theorem reads_paths {path : PlainPath} {paths : List PlainPath}
    (hpaths : ∀ path' ∈ path :: paths, path'.IsReadable)
    (h : s.kinds = PlainPath.barredKinds (path :: paths)) :
    ∃ exprs : List PathExpr, exprs.map PathExpr.toPlain = (path :: paths).map PlainPath.normal ∧
      Reads (readPaths s) exprs [] := by
  induction paths generalizing path s with
  | nil =>
    rw [PlainPath.barredKinds_singleton, ← List.append_nil path.kinds] at h
    obtain ⟨exprs, hexprs, t, ht, hread, hleft⟩ :=
      reads_path (hpaths path List.mem_cons_self) h (by simp [FollowsPath])
    have hnone : t.advanceIf (· == .doublePipe) = none := advanceIf_of_not (by simp [hleft])
    refine ⟨[exprs], congrArg (· :: []) hexprs, t, ht, ?_, hleft⟩
    rw [readPaths]
    simp only [hread, hnone, bind, Except.bind]
    rfl
  | cons next paths ih =>
    rw [PlainPath.barredKinds_cons_cons] at h
    obtain ⟨exprs, hexprs, t, ht, hread, hleft⟩ :=
      reads_path (hpaths path List.mem_cons_self) h (by rintro kind ⟨⟩; rfl)
    obtain ⟨u, hu, hadvance, hlater⟩ := advanceIf_of_accepts (· == .doublePipe) hleft rfl
    obtain ⟨rest, hrest, v, hv, hfurther, hlast⟩ :=
      ih (fun other hmem => hpaths other (List.mem_cons_of_mem _ hmem)) hlater
    have hle := Nat.le_trans hv (Nat.le_of_lt (Nat.lt_of_lt_of_le hu ht))
    refine ⟨exprs :: rest, congrArg₂ _ hexprs hrest, v, hle, ?_, hlast⟩
    rw [readPaths]
    simp only [hread, hadvance, hfurther, bind, Except.bind]
    rfl

end Paths

section Parentheses

/-- The parentheses among the lexemes match each other, so none of them closes one in front of them. -/
def Balanced (kinds : List Lexeme.Kind) : Prop :=
  ∀ (lexemes rest : List Lexeme) (depth : Nat), lexemes.map (·.kind) = kinds →
    closingIndex? (depth + 1) (lexemes ++ rest) =
      (closingIndex? (depth + 1) rest).map (· + kinds.length)

theorem balanced_nil : Balanced [] := by
  intro lexemes rest depth h
  rw [List.map_eq_nil_iff.1 h, List.nil_append]
  cases closingIndex? (depth + 1) rest <;> rfl

theorem Balanced.mark {kind : Lexeme.Kind} (hleft : kind ≠ .leftParen) (hright : kind ≠ .rightParen) :
    Balanced [kind] := by
  intro lexemes rest depth h
  obtain ⟨lexeme, rfl, rfl⟩ := List.map_eq_singleton_iff.1 h
  rw [List.singleton_append, closingIndex?]
  split
  · rename_i heq
    exact absurd heq hleft
  · rename_i heq
    exact absurd heq hright
  · rfl

theorem Balanced.append {first second : List Lexeme.Kind} (hfirst : Balanced first)
    (hsecond : Balanced second) : Balanced (first ++ second) := by
  intro lexemes rest depth h
  obtain ⟨before, after, rfl, hbefore, hafter⟩ := List.map_eq_append_iff.1 h
  rw [List.append_assoc, hfirst before _ depth hbefore, hsecond after _ depth hafter, Option.map_map,
    List.length_append]
  congr 1
  funext index
  simp only [Function.comp_apply]
  omega

theorem Balanced.cons {kind : Lexeme.Kind} {kinds : List Lexeme.Kind} (hleft : kind ≠ .leftParen)
    (hright : kind ≠ .rightParen) (h : Balanced kinds) : Balanced (kind :: kinds) :=
  (Balanced.mark hleft hright).append h

theorem Balanced.parens {kinds : List Lexeme.Kind} (h : Balanced kinds) :
    Balanced (.leftParen :: (kinds ++ [.rightParen])) := by
  intro lexemes rest depth hkinds
  obtain ⟨⟨_, _, _⟩, tail, rfl, rfl, htail⟩ := List.map_eq_cons_iff.1 hkinds
  obtain ⟨inner, last, rfl, hinner, hlast⟩ := List.map_eq_append_iff.1 htail
  obtain ⟨⟨_, _, _⟩, rfl, rfl⟩ := List.map_eq_singleton_iff.1 hlast
  rw [List.cons_append, List.append_assoc, closingIndex?]
  dsimp only
  rw [h inner _ (depth + 1) hinner, List.singleton_append, closingIndex?]
  dsimp only
  rw [if_neg (by omega), Option.map_map, Option.map_map, Nat.add_sub_cancel]
  congr 1
  funext index
  simp only [Function.comp_apply, List.length_cons, List.length_append, List.length_nil]
  omega

theorem Predicate.balanced_enclosed {p : Predicate} (parens : Bool) (h : Balanced p.kinds) :
    Balanced (enclosed parens p.kinds) := by
  cases parens with
  | true => exact h.parens
  | false => exact h

theorem Predicate.balanced_kinds (p : Predicate) : Balanced p.kinds := by
  induction p with
  | compare name op value => exact .cons nofun nofun (.cons nofun nofun (.mark nofun nofun))
  | has name => exact .mark nofun nofun
  | lacks name => exact .cons nofun nofun (.mark nofun nofun)
  | not p ih => exact .cons nofun nofun ih.parens
  | and l r ihl ihr =>
    exact (balanced_enclosed _ ihl).append (.cons nofun nofun (balanced_enclosed _ ihr))
  | or l r ihl ihr => exact ihl.append (.cons nofun nofun ihr)

theorem Balanced.bracketed {kinds : List Lexeme.Kind} (h : Balanced kinds) : Balanced (bracketed kinds) :=
  .cons nofun nofun (h.append (.mark nofun nofun))

/-- A word with an empty pair of parentheses. -/
theorem balanced_call (word : String) : Balanced [.word word, .leftParen, .rightParen] :=
  .cons nofun nofun balanced_nil.parens

theorem PositionFilter.balanced_kinds (filter : PositionFilter) : Balanced filter.kinds := by
  cases filter with
  | nth n => exact .mark nofun nofun
  | even => exact balanced_call "even"
  | odd => exact balanced_call "odd"

theorem PlainStep.balanced_kinds (step : PlainStep) : Balanced step.kinds := by
  obtain ⟨axis, node, predicate, filter⟩ := step
  have hnode : Balanced node.kinds := by
    cases node with
    | any | named name => exact .mark nofun nofun
    | pseudo p => exact balanced_call p.name
  have hpredicate : Balanced ((predicate.map fun p => bracketed p.kinds).getD []) := by
    cases predicate with
    | none => exact balanced_nil
    | some p => exact p.balanced_kinds.bracketed
  have hfilter : Balanced ((filter.map fun filter => bracketed filter.kinds).getD []) := by
    cases filter with
    | none => exact balanced_nil
    | some filter => exact filter.balanced_kinds.bracketed
  have hstep := hnode.append (hpredicate.append hfilter)
  cases axis <;> exact .cons nofun nofun hstep

theorem PlainPath.balanced_kinds (path : PlainPath) : Balanced path.kinds := by
  induction path with
  | nil => exact balanced_nil
  | cons step path ih =>
    rw [PlainPath.kinds_cons]
    exact step.balanced_kinds.append ih

theorem PlainPath.balanced_barredKinds (paths : List PlainPath) : Balanced (barredKinds paths) := by
  induction paths with
  | nil => exact balanced_nil
  | cons path paths ih =>
    cases paths with
    | nil =>
      rw [barredKinds_singleton]
      exact PlainPath.balanced_kinds path
    | cons next paths =>
      rw [barredKinds_cons_cons]
      exact (PlainPath.balanced_kinds path).append (.cons (by simp) (by simp) ih)

/-- A pair of parentheses encloses everything that is left. -/
structure Input.IsEnclosed (s : Input) (opening : Lexeme) (inside : List Lexeme) : Prop where
  rest : s.rest = opening :: inside
  opening : opening.kind = .leftParen
  closing : closingIndex? 1 inside = some (inside.length - 1)

/-- What closes a pair is a closing parenthesis. -/
theorem kind_of_closingIndex {lexemes : List Lexeme} {depth index : Nat}
    (h : closingIndex? depth lexemes = some index) :
    ∃ lexeme, lexemes[index]? = some lexeme ∧ lexeme.kind = .rightParen := by
  induction lexemes generalizing depth index with
  | nil => cases h
  | cons lexeme lexemes ih =>
    have hlater : ∀ depth', (closingIndex? depth' lexemes).map (· + 1) = some index →
        ∃ found, (lexeme :: lexemes)[index]? = some found ∧ found.kind = .rightParen := by
      intro depth' hmap
      obtain ⟨index', hindex, rfl⟩ := Option.map_eq_some_iff.1 hmap
      exact ih hindex
    rw [closingIndex?] at h
    split at h
    · exact hlater _ h
    · rename_i hkind
      split at h
      · obtain rfl := Option.some.inj h
        exact ⟨lexeme, rfl, hkind⟩
      · exact hlater _ h
    · exact hlater _ h

/-- The pair that encloses everything is dropped, and the input stops where it closes. -/
theorem Input.IsEnclosed.exists_closing {opening : Lexeme} {inside : List Lexeme}
    (h : s.IsEnclosed opening inside) :
    ∃ init last, inside = init ++ [last] ∧ last.kind = .rightParen ∧
      s.stripParens = stripParens ⟨s.source, some opening, init, last.offset⟩ := by
  obtain ⟨last, hindex, hkind⟩ := kind_of_closingIndex h.closing
  have hlast : inside.getLast? = some last := by rw [List.getLast?_eq_getElem?, hindex]
  refine ⟨inside.dropLast, last, (List.dropLast_append_getLast? last hlast).symm, hkind, ?_⟩
  rw [stripParens]
  split
  · rename_i heq
    rw [h.rest] at heq
    cases heq
  · rename_i heq
    obtain ⟨rfl, rfl⟩ := List.cons.inj (h.rest.symm.trans heq)
    rw [if_pos (by rw [h.opening, h.closing]; simp), hlast]

theorem Input.IsEnclosed.exists_inside {opening : Lexeme} {inside : List Lexeme}
    (h : s.IsEnclosed opening inside) :
    ∃ t : Input, s.kinds = .leftParen :: (t.kinds ++ [.rightParen]) ∧ s.stripParens = t.stripParens := by
  obtain ⟨init, last, rfl, hlast, hstrip⟩ := h.exists_closing
  refine ⟨_, ?_, hstrip⟩
  rw [kinds, h.rest, List.map_cons, List.map_append, List.map_singleton, h.opening, hlast]
  rfl

theorem stripParens_of_not_isEnclosed (h : ∀ opening inside, ¬ s.IsEnclosed opening inside) :
    s.stripParens = s := by
  rw [stripParens]
  split
  · rfl
  · rename_i opening inside hrest
    rw [if_neg]
    rw [Bool.and_eq_true, beq_iff_eq, beq_iff_eq]
    rintro ⟨hopening, hclosing⟩
    exact h opening inside ⟨hrest, hopening, hclosing⟩

theorem stripParens_of_not (h : s.kinds.head? ≠ some .leftParen) : s.stripParens = s := by
  apply stripParens_of_not_isEnclosed
  rintro opening inside ⟨hrest, hopening, -⟩
  apply h
  rw [kinds, hrest, List.map_cons, hopening, List.head?_cons]

theorem exists_isEnclosed {inner : List Lexeme.Kind} (h : s.kinds = .leftParen :: (inner ++ [.rightParen]))
    (hbalanced : Balanced inner) : ∃ opening inside, s.IsEnclosed opening inside := by
  obtain ⟨opening, inside, hrest, hopening, htail⟩ := exists_cons_of_kinds h
  obtain ⟨lexemes, last, rfl, hlexemes, hlast⟩ := List.map_eq_append_iff.1 htail
  obtain ⟨⟨_, o, l⟩, rfl, rfl⟩ := List.map_eq_singleton_iff.1 hlast
  refine ⟨opening, _, hrest, hopening, ?_⟩
  rw [hbalanced lexemes _ 0 hlexemes, ← hlexemes]
  simp [closingIndex?]

/-- A pair of parentheses around lexemes whose own parentheses match is dropped. -/
theorem exists_stripParens {inner : List Lexeme.Kind} (h : s.kinds = .leftParen :: (inner ++ [.rightParen]))
    (hbalanced : Balanced inner) : ∃ t : Input, t.kinds = inner ∧ s.stripParens = t.stripParens := by
  obtain ⟨opening, inside, henclosed⟩ := exists_isEnclosed h hbalanced
  obtain ⟨t, hkinds, hstrip⟩ := henclosed.exists_inside
  rw [h] at hkinds
  exact ⟨t, (List.append_cancel_right (List.cons.inj hkinds).2).symm, hstrip⟩

theorem kinds_stripParens {inner : List Lexeme.Kind} (h : s.kinds = .leftParen :: (inner ++ [.rightParen]))
    (hbalanced : Balanced inner) (hhead : inner.head? ≠ some .leftParen) : s.stripParens.kinds = inner := by
  obtain ⟨t, rfl, hstrip⟩ := exists_stripParens h hbalanced
  rw [hstrip, stripParens_of_not hhead]

theorem PlainPath.head_barredKinds {path : PlainPath} (hne : path ≠ []) (paths : List PlainPath) :
    (barredKinds (path :: paths)).head? ≠ some .leftParen := by
  obtain ⟨step, path, rfl⟩ := List.exists_cons_of_ne_nil hne
  have haxis : ∃ kinds, barredKinds ((step :: path) :: paths) = step.axis.kind :: kinds := by
    cases paths with
    | nil =>
      rw [barredKinds_singleton, PlainPath.kinds_cons]
      exact ⟨_, rfl⟩
    | cons next paths =>
      rw [barredKinds_cons_cons, PlainPath.kinds_cons]
      exact ⟨_, rfl⟩
  obtain ⟨kinds, hkinds⟩ := haxis
  rw [hkinds]
  cases step.axis <;> simp [Axis.kind]

/-- The parentheses around the text of a selector are dropped. -/
theorem kinds_stripParens_selector {path : PlainPath} {paths : List PlainPath} (hne : path ≠ [])
    (h : s.kinds = PlainPath.kindsOf (path :: paths)) :
    s.stripParens.kinds = PlainPath.barredKinds (path :: paths) := by
  have hhead := PlainPath.head_barredKinds hne paths
  cases paths with
  | nil =>
    have hsingle : s.kinds = PlainPath.barredKinds [path] := by
      rw [h, PlainPath.barredKinds_singleton]
      rfl
    rw [stripParens_of_not (by rwa [hsingle]), hsingle]
  | cons next paths => exact kinds_stripParens h (PlainPath.balanced_barredKinds _) hhead

end Parentheses

section Compilation

variable {paths : List PlainPath}

/-- The text of a selector has lexemes, and without the parentheses around them they are those of its paths. -/
theorem exists_ofSource (hne : paths ≠ []) (hpaths : ∀ path ∈ paths, path.IsWritable) :
    ∃ s, Input.ofSource (PlainPath.textOf paths) = .ok s ∧
      s.stripParens.kinds = PlainPath.barredKinds paths := by
  obtain ⟨lexemes, hall, hkinds⟩ := spells_selector hne hpaths
    (LexemeStream.ofSource (PlainPath.textOf paths)) rfl rfl
  obtain ⟨path, paths, rfl⟩ := List.exists_cons_of_ne_nil hne
  refine ⟨⟨PlainPath.textOf (path :: paths), none, lexemes,
    (PlainPath.textOf (path :: paths)).utf8ByteSize⟩, ?_, ?_⟩
  · rw [Input.ofSource, Selector.lexemes, hall]
    rfl
  · exact kinds_stripParens_selector (hpaths path List.mem_cons_self).ne_nil hkinds

theorem exists_parsePaths (hne : paths ≠ []) (hpaths : ∀ path ∈ paths, path.IsReadable) :
    ∃ exprs : List PathExpr, exprs.map PathExpr.toPlain = paths.map PlainPath.normal ∧
      parsePaths (PlainPath.textOf paths) = .ok exprs := by
  obtain ⟨s, hsource, hkinds⟩ := exists_ofSource hne fun path hmem => (hpaths path hmem).1
  obtain ⟨path, paths, rfl⟩ := List.exists_cons_of_ne_nil hne
  obtain ⟨exprs, hexprs, t, ht, hread, hleft⟩ := reads_paths hpaths hkinds
  have hempty : t.rest.isEmpty := by
    rw [List.map_eq_nil_iff.1 hleft]
    rfl
  refine ⟨exprs, hexprs, ?_⟩
  rw [parsePaths, hsource]
  simp only [hread, bind, Except.bind]
  exact if_pos hempty

/-- The text of a selector is compiled to its steps with their predicates in normal form. -/
theorem compile_textOf (dialect : Dialect) (hne : paths ≠ [])
    (hpaths : ∀ path ∈ paths, path.IsReadable) :
    compile (PlainPath.textOf paths) dialect none =
      .ok ⟨PlainPath.textOf paths, dialect, paths.map (·.normal.toPath)⟩ := by
  obtain ⟨exprs, hexprs, hparse⟩ := exists_parsePaths hne hpaths
  have hpaths : exprs.map (fun path => (PathExpr.toPlain path).toPath) = paths.map (·.normal.toPath) := by
    have hmap := congrArg (List.map PlainPath.toPath) hexprs
    rwa [List.map_map, List.map_map] at hmap
  rw [compile_none, hparse, ← hpaths]
  rfl

end Compilation

end MarkupStream.Selector
