import MarkupStream.Proofs.Lexing
import MarkupStream.Proofs.PredicateReaders

/-!
Predicates as they are written. The text of a predicate whose names and values can be written is read back
as the same predicate with its conjunctions and disjunctions grouped to the left, which neither its text nor
its truth depends on.
-/
namespace MarkupStream.Selector

open Lexeme

namespace Predicate

/-- Every name is a word, and every value can be quoted. -/
def IsWritable : Predicate → Prop
  | compare name _ value => IsWord name ∧ Quotable value
  | has name | lacks name => IsWord name
  | not p => p.IsWritable
  | and l r | or l r => l.IsWritable ∧ r.IsWritable

def isConjunction : Predicate → Bool
  | and _ _ => true
  | _ => false

/-- A conjunction that takes the members of its right side one by one. -/
def andOnto (l : Predicate) : Predicate → Predicate
  | and a b => and (andOnto l a) b
  | p => and l p

def orOnto (l : Predicate) : Predicate → Predicate
  | or a b => or (orOnto l a) b
  | p => or l p

/-- The predicate with its conjunctions and disjunctions grouped to the left. -/
def normal : Predicate → Predicate
  | not p => not p.normal
  | and l r => andOnto l.normal r.normal
  | or l r => orOnto l.normal r.normal
  | p => p

/-- The lexemes of a predicate, in parentheses on demand. -/
def enclosed (parens : Bool) (kinds : List Lexeme.Kind) : List Lexeme.Kind :=
  if parens then .leftParen :: (kinds ++ [.rightParen]) else kinds

/-- The lexemes of the text of a predicate. -/
def kinds : Predicate → List Lexeme.Kind
  | compare name op value => [.word name, .comparison op, .quoted value]
  | has name => [.word name]
  | lacks name => [.bang, .word name]
  | not p => .bang :: .leftParen :: (p.kinds ++ [.rightParen])
  | and l r => enclosed l.isDisjunction l.kinds ++ .word "AND" :: enclosed r.isDisjunction r.kinds
  | or l r => l.kinds ++ .word "OR" :: r.kinds

section Grouping

variable (l m r : Predicate)

theorem andOnto_of_not (h : ¬ r.isConjunction) : andOnto l r = and l r := by
  cases r with
  | and a b => exact absurd rfl h
  | _ => rfl

theorem orOnto_of_not (h : ¬ r.isDisjunction) : orOnto l r = or l r := by
  cases r with
  | or a b => exact absurd rfl h
  | _ => rfl

theorem isConjunction_andOnto : (andOnto l r).isConjunction := by
  cases r <;> rfl

theorem isDisjunction_orOnto : (orOnto l r).isDisjunction := by
  cases r <;> rfl

theorem not_isDisjunction_andOnto : ¬ (andOnto l r).isDisjunction := by
  cases r <;> exact Bool.false_ne_true

theorem not_isConjunction_orOnto : ¬ (orOnto l r).isConjunction := by
  cases r <;> exact Bool.false_ne_true

theorem andOnto_assoc : andOnto (andOnto l m) r = andOnto l (andOnto m r) := by
  induction r with
  | and a b iha ihb => exact congrArg (and · b) iha
  | _ => rfl

theorem orOnto_assoc : orOnto (orOnto l m) r = orOnto l (orOnto m r) := by
  induction r with
  | or a b iha ihb => exact congrArg (or · b) iha
  | _ => rfl

theorem isDisjunction_normal (p : Predicate) : p.normal.isDisjunction = p.isDisjunction := by
  cases p with
  | and l r => exact Bool.eq_false_iff.2 (not_isDisjunction_andOnto _ _)
  | or l r => exact isDisjunction_orOnto _ _
  | _ => rfl

theorem isConjunction_normal (p : Predicate) : p.normal.isConjunction = p.isConjunction := by
  cases p with
  | and l r => exact isConjunction_andOnto _ _
  | or l r => exact Bool.eq_false_iff.2 (not_isConjunction_orOnto _ _)
  | _ => rfl

theorem text_and : (and l r).text =
    (if l.isDisjunction then "(" ++ l.text ++ ")" else l.text) ++ " AND " ++
      (if r.isDisjunction then "(" ++ r.text ++ ")" else r.text) := rfl

theorem text_andOnto : (andOnto l r).text = (and l r).text := by
  induction r with
  | and a b iha ihb =>
    rw [andOnto, text_and, iha, if_neg (not_isDisjunction_andOnto _ _), text_and, text_and l, text_and a]
    simp only [isDisjunction, Bool.false_eq_true, if_false, String.append_assoc]
  | _ => rfl

theorem text_orOnto : (orOnto l r).text = (or l r).text := by
  induction r with
  | or a b iha ihb =>
    rw [orOnto, text, iha]
    simp only [text, String.append_assoc]
  | _ => rfl

/-- How a predicate is grouped does not show in its text. -/
theorem text_normal (p : Predicate) : p.normal.text = p.text := by
  induction p with
  | not p ih => simp only [normal, text, ih]
  | and l r ihl ihr =>
    rw [normal, text_andOnto, text_and, text_and, isDisjunction_normal, isDisjunction_normal, ihl, ihr]
  | or l r ihl ihr => rw [normal, text_orOnto, text, text, ihl, ihr]
  | _ => rfl

variable (ignoreCase : Bool) (attributes : AttributeValues)

theorem holds_andOnto :
    (andOnto l r).holds ignoreCase attributes = (and l r).holds ignoreCase attributes := by
  induction r with
  | and a b iha ihb =>
    rw [andOnto, holds, iha]
    simp only [holds, Bool.and_assoc]
  | _ => rfl

theorem holds_orOnto :
    (orOnto l r).holds ignoreCase attributes = (or l r).holds ignoreCase attributes := by
  induction r with
  | or a b iha ihb =>
    rw [orOnto, holds, iha]
    simp only [holds, Bool.or_assoc]
  | _ => rfl

/-- Nor does it matter to its truth. -/
theorem holds_normal (p : Predicate) :
    p.normal.holds ignoreCase attributes = p.holds ignoreCase attributes := by
  induction p with
  | not p ih => simp only [normal, holds, ih]
  | and l r ihl ihr => rw [normal, holds_andOnto, holds, holds, ihl, ihr]
  | or l r ihl ihr => rw [normal, holds_orOnto, holds, holds, ihl, ihr]
  | _ => rfl

end Grouping

section Spelling

variable {rest : List Char} {more : List Lexeme.Kind}

/-- The text of a member of a conjunction, which may need parentheses. -/
theorem spells_enclosed {p : Predicate} (parens : Bool)
    (hp : ∀ {rest : List Char} {more : List Lexeme.Kind}, EndsWord rest → Spells rest more →
      Spells (p.text.toList ++ rest) (p.kinds ++ more))
    (hrest : EndsWord rest) (h : Spells rest more) :
    Spells ((if parens then "(" ++ p.text ++ ")" else p.text).toList ++ rest)
      (enclosed parens p.kinds ++ more) := by
  cases parens with
  | false => exact hp hrest h
  | true =>
    have hinside := hp (endsWord_cons (by decide) rest) h.rightParen
    simpa [enclosed] using hinside.leftParen

/-- A keyword between two blanks. -/
theorem spells_keyword {word : String} (hword : IsWord word) (h : Spells rest more) :
    Spells (' ' :: (word.toList ++ ' ' :: rest)) (.word word :: more) := by
  apply Spells.blank _ rfl
  exact (h.blank rfl).word hword (endsWord_cons (by decide) rest)

/-- The text of a predicate is spelled with its lexemes, in front of anything that ends a word. -/
theorem spells_text {p : Predicate} (hp : p.IsWritable) (hrest : EndsWord rest)
    (h : Spells rest more) : Spells (p.text.toList ++ rest) (p.kinds ++ more) := by
  induction p generalizing rest more with
  | compare name op value =>
    have hafter := h.comparison op hp.2
    have hname := hafter.word hp.1 (by cases op <;> exact endsWord_cons (by decide) _)
    simpa [text, kinds] using hname
  | has name => exact h.word hp hrest
  | lacks name =>
    have hname := (h.word hp hrest).bang (head_of_isWord hp (by decide) rest)
    simpa [text, kinds] using hname
  | not p ih =>
    have hinside := ih hp (endsWord_cons (by decide) rest) h.rightParen
    have hnot := hinside.leftParen.bang nofun
    simpa [text, kinds] using hnot
  | and l r ihl ihr =>
    have hr := spells_enclosed r.isDisjunction (ihr hp.2) hrest h
    have hand := spells_keyword (show IsWord "AND" by decide) hr
    have hl := spells_enclosed l.isDisjunction (ihl hp.1) (endsWord_cons (by decide) _) hand
    simpa [text_and, kinds] using hl
  | or l r ihl ihr =>
    have hor := spells_keyword (show IsWord "OR" by decide) (ihr hp.2 hrest h)
    have hl := ihl hp.1 (endsWord_cons (by decide) _) hor
    simpa [text, kinds] using hl

end Spelling

end Predicate

section Reading

/-- The kinds of the lexemes that are left. -/
def Input.kinds (s : Input) : List Lexeme.Kind := s.rest.map (·.kind)

/-- A reader has read something and left lexemes of the given kinds. -/
def Reads {α : Type} {P : Input → Prop} (result : Except SelectorError (α × { t : Input // P t })) (a : α)
    (left : List Lexeme.Kind) : Prop :=
  ∃ t, ∃ h : P t, result = .ok (a, ⟨t, h⟩) ∧ t.kinds = left

variable {α β : Type} {P Q : Input → Prop} {s : Input} {left more : List Lexeme.Kind}
  {kind : Lexeme.Kind}

theorem Reads.bind {result : Except SelectorError (α × { t : Input // P t })} {a : α}
    {f : α × { t : Input // P t } → Except SelectorError (β × { t : Input // Q t })} {b : β}
    (h : Reads result a left) (hf : ∀ t (ht : P t), t.kinds = left → Reads (f (a, ⟨t, ht⟩)) b more) :
    Reads (result >>= f) b more := by
  obtain ⟨t, ht, rfl, hleft⟩ := h
  exact hf t ht hleft

theorem reads_pure {a : α} {t : Input} (ht : P t) (h : t.kinds = left) :
    Reads (pure (a, ⟨t, ht⟩) : Except SelectorError (α × { t : Input // P t })) a left :=
  ⟨t, ht, rfl, h⟩

theorem exists_cons_of_kinds (h : s.kinds = kind :: more) :
    ∃ lexeme rest, s.rest = lexeme :: rest ∧ lexeme.kind = kind ∧ rest.map (·.kind) = more :=
  List.map_eq_cons_iff.1 h

namespace Input

theorem advanceIf_of_accepts (accepts : Lexeme.Kind → Bool) (h : s.kinds = kind :: more)
    (haccepts : accepts kind) : ∃ t ht, s.advanceIf accepts = some ⟨t, ht⟩ ∧ t.kinds = more := by
  obtain ⟨lexeme, rest, hrest, rfl, rfl⟩ := exists_cons_of_kinds h
  unfold advanceIf
  split
  · rename_i heq
    obtain ⟨rfl, rfl⟩ := List.cons.inj (hrest.symm.trans heq)
    rw [if_pos haccepts]
    exact ⟨_, by simp [hrest], rfl, rfl⟩
  · rename_i heq
    rw [hrest] at heq
    cases heq

theorem advanceIf_of_not {accepts : Lexeme.Kind → Bool}
    (h : ∀ kind ∈ s.kinds.head?, ¬ accepts kind) : s.advanceIf accepts = none := by
  unfold advanceIf
  split
  · rename_i heq
    rw [if_neg]
    apply h
    rw [kinds, heq]
    rfl
  · rfl

theorem expect_of_kinds (what : Expectation) (h : s.kinds = kind :: more) :
    ∃ t ht, s.expect kind what = .ok ⟨t, ht⟩ ∧ t.kinds = more := by
  obtain ⟨t, ht, hadvance, hmore⟩ := advanceIf_of_accepts (· == kind) h (beq_self_eq_true kind)
  refine ⟨t, ht, ?_, hmore⟩
  rw [expect, hadvance]

theorem reads_expectWord {what : Expectation} {text : String} (h : s.kinds = .word text :: more) :
    Reads (s.expectWord what) text more := by
  obtain ⟨⟨_, offset, length⟩, rest, hrest, rfl, rfl⟩ := exists_cons_of_kinds h
  unfold expectWord
  split
  · rename_i heq
    obtain ⟨hlexeme, rfl⟩ := List.cons.inj (hrest.symm.trans heq)
    obtain ⟨hword, rfl, rfl⟩ := Lexeme.mk.inj hlexeme
    obtain rfl := Lexeme.Kind.word.inj hword
    exact ⟨_, _, rfl, rfl⟩
  · rename_i hnot
    exact absurd hrest (hnot _ _ _ _)

end Input

open Input

theorem reads_attributeName {name : String} (h : s.kinds = .word name :: more) :
    Reads (readAttributeName s) name more := by
  have hnone : s.advanceIf (· == .atSign) = none := by
    apply advanceIf_of_not
    rw [h]
    rintro kind ⟨⟩
    exact nofun
  rw [readAttributeName, hnone]
  exact reads_expectWord h

theorem reads_value {value : String} (h : s.kinds = .quoted value :: more) :
    Reads (readValue s) value more := by
  obtain ⟨lexeme, rest, hrest, hkind, rfl⟩ := exists_cons_of_kinds h
  unfold readValue
  split
  · rename_i heq
    obtain ⟨rfl, rfl⟩ := List.cons.inj (hrest.symm.trans heq)
    rw [hkind]
    exact ⟨_, _, rfl, rfl⟩
  · rename_i heq
    rw [hrest] at heq
    cases heq

/-- No comparison comes next. -/
def NoComparison (kinds : List Lexeme.Kind) : Prop := ∀ kind ∈ kinds.head?, comparisonOf? kind = none

theorem reads_test_compare {name value : String} {op : Comparison}
    (h : s.kinds = .word name :: .comparison op :: .quoted value :: more) :
    Reads (readTest s) (.compare name op value) more := by
  rw [readTest]
  apply (reads_attributeName h).bind
  intro t ht hleft
  obtain ⟨lexeme, rest, hrest, hkind, hmore⟩ := exists_cons_of_kinds hleft
  dsimp only
  split
  · rename_i heq
    obtain ⟨rfl, rfl⟩ := List.cons.inj (hrest.symm.trans heq)
    rw [hkind]
    have hvalue : Reads (readValue { t with previous := some lexeme, rest }) value more :=
      reads_value hmore
    apply hvalue.bind
    intro u hu hlast
    exact reads_pure _ hlast
  · rename_i heq
    rw [hrest] at heq
    cases heq

theorem reads_test_has {name : String} (h : s.kinds = .word name :: more) (hmore : NoComparison more) :
    Reads (readTest s) (.has name) more := by
  rw [readTest]
  apply (reads_attributeName h).bind
  intro t ht hleft
  dsimp only
  split
  · rename_i heq
    have hnone := hmore
    rw [← hleft, kinds, heq] at hnone
    rw [hnone _ rfl]
    exact reads_pure _ hleft
  · exact reads_pure _ hleft

theorem not_isEmpty_of_kinds (h : s.kinds = kind :: more) : ¬ s.rest.isEmpty := by
  obtain ⟨lexeme, rest, hrest, -, -⟩ := exists_cons_of_kinds h
  rw [hrest]
  exact Bool.false_ne_true

theorem advanceIf_of_kinds_not {accepts : Lexeme.Kind → Bool} (h : s.kinds = kind :: more)
    (hnot : ¬ accepts kind) : s.advanceIf accepts = none := by
  apply advanceIf_of_not
  rw [h]
  rintro _ ⟨⟩
  exact hnot

theorem readUnary_of_bang (h : s.kinds = .bang :: left) :
    ∃ t : s.After, t.1.kinds = left ∧
      readUnary s = readNegated t.1 >>= fun negated => pure (negated.1, t.after negated.2) := by
  obtain ⟨t, ht, hbang, hkinds⟩ := advanceIf_of_accepts (· == .bang) h rfl
  refine ⟨⟨t, ht⟩, hkinds, ?_⟩
  rw [readUnary_eq, if_neg (not_isEmpty_of_kinds h), hbang]

theorem Reads.closed {p : Predicate} (h : Reads (readDisjunction s) p (.rightParen :: more)) :
    Reads (readClosed s) p more := by
  rw [readClosed]
  apply h.bind
  intro t ht hclose
  obtain ⟨u, hu, hexpect, hleft⟩ := expect_of_kinds .closeParen hclose
  dsimp only
  rw [hexpect]
  exact reads_pure _ hleft

theorem reads_unary_lacks {name : String} (h : s.kinds = .bang :: .word name :: more) :
    Reads (readUnary s) (.lacks name) more := by
  obtain ⟨t, hname, hunary⟩ := readUnary_of_bang h
  rw [hunary, readNegated, advanceIf_of_kinds_not hname Bool.false_ne_true, bind_assoc]
  apply (reads_attributeName hname).bind
  intro u hu hleft
  exact reads_pure _ hleft

theorem reads_unary_not {p : Predicate} (h : s.kinds = .bang :: .leftParen :: left)
    (hp : ∀ t : Input, t.kinds = left → Reads (readDisjunction t) p (.rightParen :: more)) :
    Reads (readUnary s) (.not p) more := by
  obtain ⟨t, hparen, hunary⟩ := readUnary_of_bang h
  obtain ⟨u, hu, hopen, hinside⟩ := advanceIf_of_accepts (· == .leftParen) hparen rfl
  rw [hunary, readNegated, hopen]
  dsimp only
  rw [bind_assoc]
  apply (hp u hinside).closed.bind
  intro v hv hleft
  exact reads_pure _ hleft

theorem reads_unary_parens {p : Predicate} (h : s.kinds = .leftParen :: left)
    (hp : ∀ t : Input, t.kinds = left → Reads (readDisjunction t) p (.rightParen :: more)) :
    Reads (readUnary s) p more := by
  obtain ⟨t, ht, hopen, hinside⟩ := advanceIf_of_accepts (· == .leftParen) h rfl
  rw [readUnary_eq, if_neg (not_isEmpty_of_kinds h), advanceIf_of_kinds_not h Bool.false_ne_true, hopen]
  apply (hp t hinside).closed.bind
  intro u hu hleft
  exact reads_pure _ hleft

theorem readUnary_of_word {name : String} (h : s.kinds = .word name :: left) :
    readUnary s = readTest s := by
  rw [readUnary_eq, if_neg (not_isEmpty_of_kinds h), advanceIf_of_kinds_not h Bool.false_ne_true]
  dsimp only
  rw [advanceIf_of_kinds_not h Bool.false_ne_true]

/-- What comes next does not go on with a conjunction, or with what it consists of. -/
def EndsConjunction (kinds : List Lexeme.Kind) : Prop :=
  NoComparison kinds ∧ ∀ kind ∈ kinds.head?, ¬ kind.isKeyword "and"

/-- What comes next does not go on with a predicate. -/
def EndsPredicate (kinds : List Lexeme.Kind) : Prop :=
  EndsConjunction kinds ∧ ∀ kind ∈ kinds.head?, ¬ kind.isKeyword "or"

section Members

variable {member : (s : Input) → Except SelectorError (Predicate × s.After)}
  {later : Predicate → (s : Input) → Except SelectorError (Predicate × s.Within)}
  {keyword : String} {join : Predicate → Predicate → Predicate} {p q r : Predicate}

theorem Reads.members (h : Reads (member s) p more)
    (hlater : ∀ t : Input, t.kinds = more → Reads (later p t) q left) :
    Reads (readMembers member later s) q left := by
  rw [readMembers]
  apply h.bind
  intro t ht hmore
  apply (hlater t hmore).bind
  intro u hu hleft
  exact reads_pure _ hleft

/-- A member behind the keyword. -/
theorem reads_addMembers {before : List Lexeme.Kind} (hkeyword : kind.isKeyword keyword)
    (h : s.kinds = kind :: before) (hmember : ∀ t : Input, t.kinds = before → Reads (member t) q more)
    (hlater : ∀ t : Input, t.kinds = more → Reads (later (join p q) t) r left) :
    Reads (addMembers member later keyword join p s) r left := by
  obtain ⟨t, ht, hadvance, hbefore⟩ := advanceIf_of_accepts (·.isKeyword keyword) h hkeyword
  rw [addMembers, hadvance]
  apply (hmember t hbefore).bind
  intro u hu hmore
  apply (hlater u hmore).bind
  intro v hv hleft
  exact reads_pure _ hleft

/-- There is nothing to add without the keyword. -/
theorem reads_addMembers_none (h : s.kinds = left) (hend : ∀ kind ∈ left.head?, ¬ kind.isKeyword keyword) :
    Reads (addMembers member later keyword join p s) p left := by
  have hnone : s.advanceIf (·.isKeyword keyword) = none := advanceIf_of_not (by rwa [h])
  rw [addMembers, hnone]
  exact reads_pure _ h

theorem reads_further_none (h : s.kinds = left) (hend : EndsConjunction left) :
    Reads (readFurther p s) p left := by
  rw [readFurther_eq]
  exact reads_addMembers_none h hend.2

theorem reads_alternatives_none (h : s.kinds = left) (hend : EndsPredicate left) :
    Reads (readAlternatives p s) p left := by
  rw [readAlternatives_eq]
  exact reads_addMembers_none h hend.2

end Members

namespace Predicate

/-- The lexemes of a member of a conjunction. -/
def memberKinds (p : Predicate) : List Lexeme.Kind := enclosed p.isDisjunction p.kinds

theorem memberKinds_of_not {p : Predicate} (h : ¬ p.isDisjunction) : p.memberKinds = p.kinds := by
  rw [memberKinds, enclosed, if_neg h]

theorem memberKinds_and (l r : Predicate) :
    (and l r).memberKinds = l.memberKinds ++ .word "AND" :: r.memberKinds := rfl

theorem memberKinds_not (p : Predicate) :
    (not p).memberKinds = .bang :: .leftParen :: (p.kinds ++ [.rightParen]) := rfl

/-- A predicate that is no conjunction is read back as a member of one. -/
def IsMember (p : Predicate) : Prop :=
  ∀ (s : Input) (more : List Lexeme.Kind), NoComparison more → s.kinds = p.memberKinds ++ more →
    Reads (readUnary s) p.normal more

/-- A predicate is read back as the beginning of a conjunction and as what goes on with one, whatever
is read behind it. -/
structure JoinsAnd (p : Predicate) : Prop where
  first : ∀ {s : Input} {more left : List Lexeme.Kind} {q : Predicate}, NoComparison more →
    s.kinds = p.memberKinds ++ more →
    (∀ t : Input, t.kinds = more → Reads (readFurther p.normal t) q left) →
    Reads (readConjunction s) q left
  further : ∀ {s : Input} {more left : List Lexeme.Kind} {l q : Predicate}, NoComparison more →
    s.kinds = .word "AND" :: (p.memberKinds ++ more) →
    (∀ t : Input, t.kinds = more → Reads (readFurther (andOnto l p.normal) t) q left) →
    Reads (readFurther l s) q left

/-- The same for disjunctions. -/
structure JoinsOr (p : Predicate) : Prop where
  first : ∀ {s : Input} {more left : List Lexeme.Kind} {q : Predicate}, EndsConjunction more →
    s.kinds = p.kinds ++ more →
    (∀ t : Input, t.kinds = more → Reads (readAlternatives p.normal t) q left) →
    Reads (readDisjunction s) q left
  further : ∀ {s : Input} {more left : List Lexeme.Kind} {l q : Predicate}, EndsConjunction more →
    s.kinds = .word "OR" :: (p.kinds ++ more) →
    (∀ t : Input, t.kinds = more → Reads (readAlternatives (orOnto l p.normal) t) q left) →
    Reads (readAlternatives l s) q left

/-- A whole predicate is read back. -/
theorem JoinsOr.reads {p : Predicate} (h : p.JoinsOr) (hmore : EndsPredicate more)
    (hs : s.kinds = p.kinds ++ more) : Reads (readDisjunction s) p.normal more :=
  h.first hmore.1 hs fun _ ht => reads_alternatives_none ht hmore

/-- A predicate ends where a parenthesis or a bracket is closed. -/
theorem endsPredicate_closing (hkind : kind = .rightParen ∨ kind = .rightBracket) :
    EndsPredicate (kind :: more) := by
  have hkeyword : ∀ keyword, ¬ kind.isKeyword keyword := by
    intro keyword
    rcases hkind with rfl | rfl <;> exact Bool.false_ne_true
  refine ⟨⟨?_, ?_⟩, ?_⟩
  · rintro _ ⟨⟩
    rcases hkind with rfl | rfl <;> rfl
  · rintro _ ⟨⟩
    exact hkeyword "and"
  · rintro _ ⟨⟩
    exact hkeyword "or"

theorem noComparison_word (word : String) : NoComparison (.word word :: more) := by
  rintro _ ⟨⟩
  rfl

theorem endsConjunction_or : EndsConjunction (.word "OR" :: more) := by
  refine ⟨noComparison_word _, ?_⟩
  rintro _ ⟨⟩
  decide

theorem IsMember.joinsAnd {p : Predicate} (h : p.IsMember) (hnot : ¬ p.isConjunction) :
    p.JoinsAnd where
  first := by
    intro s more left q hmore hs hfurther
    rw [readConjunction_eq]
    exact (h s more hmore hs).members hfurther
  further := by
    intro s more left l q hmore hs hfurther
    rw [andOnto_of_not _ _ (by rwa [isConjunction_normal])] at hfurther
    rw [readFurther_eq]
    exact reads_addMembers (by decide) hs (fun t => h t more hmore) hfurther

theorem JoinsAnd.and {l r : Predicate} (hl : l.JoinsAnd) (hr : r.JoinsAnd) :
    (Predicate.and l r).JoinsAnd where
  first := by
    intro s more left q hmore hs hfurther
    rw [memberKinds_and, List.append_assoc, List.cons_append] at hs
    apply hl.first (noComparison_word _) hs
    intro t ht
    exact hr.further hmore ht hfurther
  further := by
    intro s more left acc q hmore hs hfurther
    rw [memberKinds_and, List.append_assoc, List.cons_append] at hs
    apply hl.further (noComparison_word _) hs
    intro t ht
    apply hr.further hmore ht
    intro u hu
    rw [andOnto_assoc]
    exact hfurther u hu

theorem JoinsAnd.joinsOr {p : Predicate} (h : p.JoinsAnd) (hnot : ¬ p.isDisjunction) : p.JoinsOr where
  first := by
    intro s more left q hmore hs hfurther
    rw [← memberKinds_of_not hnot] at hs
    rw [readDisjunction_eq]
    exact (h.first hmore.1 hs fun t ht => reads_further_none ht hmore).members hfurther
  further := by
    intro s more left l q hmore hs hfurther
    rw [← memberKinds_of_not hnot] at hs
    rw [orOnto_of_not _ _ (by rwa [isDisjunction_normal])] at hfurther
    rw [readAlternatives_eq]
    apply reads_addMembers (by decide) hs _ hfurther
    intro t ht
    exact h.first hmore.1 ht fun u hu => reads_further_none hu hmore

theorem JoinsOr.or {l r : Predicate} (hl : l.JoinsOr) (hr : r.JoinsOr) : (Predicate.or l r).JoinsOr where
  first := by
    intro s more left q hmore hs hfurther
    rw [kinds, List.append_assoc, List.cons_append] at hs
    apply hl.first endsConjunction_or hs
    intro t ht
    exact hr.further hmore ht hfurther
  further := by
    intro s more left acc q hmore hs hfurther
    rw [kinds, List.append_assoc, List.cons_append] at hs
    apply hl.further endsConjunction_or hs
    intro t ht
    apply hr.further hmore ht
    intro u hu
    rw [orOnto_assoc]
    exact hfurther u hu

/-- A disjunction in parentheses is a member of a conjunction. -/
theorem JoinsOr.isMember {p : Predicate} (h : p.JoinsOr) (hdisjunction : p.isDisjunction) :
    p.IsMember := by
  intro s more hmore hs
  rw [memberKinds, enclosed, if_pos hdisjunction, List.cons_append, List.append_assoc] at hs
  apply reads_unary_parens hs
  intro t ht
  exact h.reads (endsPredicate_closing (.inl rfl)) ht

/-- Every predicate is read back from its lexemes. -/
theorem joins (p : Predicate) : p.JoinsAnd ∧ p.JoinsOr := by
  have ofMember : ∀ {p : Predicate}, p.IsMember → ¬ p.isConjunction → ¬ p.isDisjunction →
      p.JoinsAnd ∧ p.JoinsOr := by
    intro p h hand hor
    exact ⟨h.joinsAnd hand, (h.joinsAnd hand).joinsOr hor⟩
  induction p with
  | compare name op value =>
    refine ofMember ?_ Bool.false_ne_true Bool.false_ne_true
    intro s more hmore hs
    rw [readUnary_of_word hs]
    exact reads_test_compare hs
  | has name =>
    refine ofMember ?_ Bool.false_ne_true Bool.false_ne_true
    intro s more hmore hs
    rw [readUnary_of_word hs]
    exact reads_test_has hs hmore
  | lacks name =>
    refine ofMember ?_ Bool.false_ne_true Bool.false_ne_true
    intro s more hmore hs
    exact reads_unary_lacks hs
  | not p ih =>
    refine ofMember ?_ Bool.false_ne_true Bool.false_ne_true
    intro s more hmore hs
    rw [memberKinds_not, List.cons_append, List.cons_append, List.append_assoc] at hs
    apply reads_unary_not hs
    intro t ht
    exact ih.2.reads (endsPredicate_closing (.inl rfl)) ht
  | and l r ihl ihr =>
    have hand := ihl.1.and ihr.1
    exact ⟨hand, hand.joinsOr Bool.false_ne_true⟩
  | or l r ihl ihr =>
    have hor := ihl.2.or ihr.2
    exact ⟨(hor.isMember rfl).joinsAnd Bool.false_ne_true, hor⟩

end Predicate

end Reading

namespace Predicate

section Source

variable {p : Predicate}

/-- The source that a predicate is written as has the lexemes of its text, and no others. -/
theorem exists_ofSource_text (hp : p.IsWritable) :
    ∃ s, Input.ofSource p.text = .ok s ∧ s.kinds = p.kinds := by
  have hspells : Spells p.text.toList p.kinds := by
    have h := spells_text hp (show EndsWord [] from nofun) spells_nil
    rwa [List.append_nil, List.append_nil] at h
  obtain ⟨lexemes, hall, hkinds⟩ := hspells (LexemeStream.ofSource p.text) rfl rfl
  refine ⟨⟨p.text, none, lexemes, p.text.utf8ByteSize⟩, ?_, hkinds⟩
  rw [Input.ofSource, Selector.lexemes, hall]
  rfl

theorem parsePredicate_text_eq (hp : p.IsWritable) : parsePredicate p.text = .ok p.normal := by
  obtain ⟨s, hsource, hkinds⟩ := exists_ofSource_text hp
  have hend : EndsPredicate [] := ⟨⟨nofun, nofun⟩, nofun⟩
  obtain ⟨t, ht, hread, hleft⟩ := p.joins.2.reads hend (hkinds.trans (List.append_nil _).symm)
  have hempty : t.rest.isEmpty := by
    rw [List.map_eq_nil_iff.1 hleft]
    rfl
  rw [parsePredicate, hsource]
  simp only [hread, bind, Except.bind]
  exact if_pos hempty

/-- A predicate is read back from its text if its names are words and its values can be quoted. What is
read has the same text, and it is true of the same attributes whatever the case of names counts for. -/
theorem parsePredicate_text (hp : p.IsWritable) :
    ∃ q, parsePredicate p.text = .ok q ∧ q.text = p.text ∧
      ∀ ignoreCase attributes, q.holds ignoreCase attributes = p.holds ignoreCase attributes :=
  ⟨p.normal, parsePredicate_text_eq hp, p.text_normal,
    fun ignoreCase attributes => p.holds_normal ignoreCase attributes⟩

/-- Names spelled like keywords, groups to the right, and values with quotes of either kind. -/
def nestedKeywords : Predicate :=
  .and (.has "and") (.and (.or (.lacks "OR") (.or (.compare "or" .notEqual "it's") (.has "AND")))
    (.not (.and (.compare "class" .equal "\x22") (.and (.lacks "b") (.compare "x" .contains "")))))

theorem nestedKeywords_parsed :
    nestedKeywords.IsWritable ∧
      ∃ q, parsePredicate nestedKeywords.text = .ok q ∧ q.text = nestedKeywords.text ∧
        ∀ ignoreCase attributes,
          q.holds ignoreCase attributes = nestedKeywords.holds ignoreCase attributes := by
  have hwritable : nestedKeywords.IsWritable := by
    simp only [nestedKeywords, IsWritable, Quotable]
    decide
  exact ⟨hwritable, parsePredicate_text hwritable⟩

end Source

end Predicate

end MarkupStream.Selector
