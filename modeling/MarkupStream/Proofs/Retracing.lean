import MarkupStream.Proofs.SelectorReading

/-!
The readers of selectors on two inputs with lexemes of the same kinds. They read the same, apart from the
offsets that are kept for errors. What they take off an input is whole: its parentheses match, and the
comparisons have their values.
-/
namespace MarkupStream.Selector

open Lexeme Input

section Whole

/-- A lexeme that needs no other: no parenthesis and no comparison. -/
def Lexeme.Kind.isMark : Lexeme.Kind → Bool
  | leftParen | rightParen | comparison _ => false
  | _ => true

/-- Lexemes with all their parentheses in pairs and all their comparisons in front of a value. -/
inductive Whole : List Lexeme.Kind → Prop
  | nil : Whole []
  | mark {kind : Lexeme.Kind} : kind.isMark → Whole [kind]
  | comparison {kind : Lexeme.Kind} (op : Comparison) :
    (valueOf? kind).isSome → Whole [.comparison op, kind]
  | parens {inner : List Lexeme.Kind} : Whole inner → Whole (.leftParen :: (inner ++ [.rightParen]))
  | append {first second : List Lexeme.Kind} : Whole first → Whole second → Whole (first ++ second)

variable {before middle after : List Lexeme.Kind} {kind : Lexeme.Kind}

theorem isMark_of_valueOf (h : (valueOf? kind).isSome) : kind.isMark := by
  cases kind with
  | quoted text | bare text => rfl
  | _ => cases h

theorem Balanced.of_isMark (h : kind.isMark) : Balanced [kind] := by
  apply Balanced.mark
  · rintro rfl
    cases h
  · rintro rfl
    cases h

theorem Whole.balanced {kinds : List Lexeme.Kind} (h : Whole kinds) : Balanced kinds := by
  induction h with
  | nil => exact balanced_nil
  | mark hmark => exact .of_isMark hmark
  | comparison op hvalue => exact .cons nofun nofun (.of_isMark (isMark_of_valueOf hvalue))
  | parens _ ih => exact ih.parens
  | append _ _ ihfirst ihsecond => exact ihfirst.append ihsecond

/-- Something whole has been taken off the first lexemes, and the second ones are left. -/
def Takes (before after : List Lexeme.Kind) : Prop := ∃ taken, Whole taken ∧ before = taken ++ after

namespace Takes

theorem refl (kinds : List Lexeme.Kind) : Takes kinds kinds := ⟨[], .nil, rfl⟩

theorem trans (h : Takes before middle) (h' : Takes middle after) : Takes before after := by
  obtain ⟨first, hfirst, rfl⟩ := h
  obtain ⟨second, hsecond, rfl⟩ := h'
  exact ⟨first ++ second, hfirst.append hsecond, (List.append_assoc _ _ _).symm⟩

theorem mark (h : kind.isMark) (after : List Lexeme.Kind) : Takes (kind :: after) after :=
  ⟨[kind], .mark h, rfl⟩

theorem comparison (op : Comparison) (h : (valueOf? kind).isSome) (after : List Lexeme.Kind) :
    Takes (.comparison op :: kind :: after) after :=
  ⟨[.comparison op, kind], .comparison op h, rfl⟩

theorem parens (h : Takes middle (.rightParen :: after)) : Takes (.leftParen :: middle) after := by
  obtain ⟨inner, hinner, rfl⟩ := h
  refine ⟨_, .parens hinner, ?_⟩
  rw [List.cons_append, List.append_assoc, List.singleton_append]

theorem whole (h : Takes before []) : Whole before := by
  obtain ⟨taken, htaken, rfl⟩ := h
  rwa [List.append_nil]

end Takes

end Whole

section Agreement

variable {α ρ σ ρ' σ' : Type}

/-- Two readers both give something, and what they give is related, or both fail. -/
inductive Agree (R : ρ → σ → Prop) : Except SelectorError ρ → Except SelectorError σ → Prop
  | ok {r : ρ} {r' : σ} : R r r' → Agree R (.ok r) (.ok r')
  | error {e e' : SelectorError} : Agree R (.error e) (.error e')

theorem Agree.bind {R : ρ → σ → Prop} {R' : ρ' → σ' → Prop} {x : Except SelectorError ρ}
    {y : Except SelectorError σ} {f : ρ → Except SelectorError ρ'} {g : σ → Except SelectorError σ'}
    (h : Agree R x y) (hf : ∀ r r', R r r' → Agree R' (f r) (g r')) : Agree R' (x >>= f) (y >>= g) := by
  cases h with
  | ok hr => exact hf _ _ hr
  | error => exact .error

theorem Agree.map {R : ρ → σ → Prop} {R' : ρ' → σ' → Prop} {x : Except SelectorError ρ}
    {y : Except SelectorError σ} {f : ρ → ρ'} {g : σ → σ'} (h : Agree R x y)
    (hf : ∀ r r', R r r' → R' (f r) (g r')) : Agree R' (x.map f) (y.map g) := by
  cases h with
  | ok hr => exact .ok (hf _ _ hr)
  | error => exact .error

theorem Agree.toOption {R : ρ → σ → Prop} {x : Except SelectorError ρ} {y : Except SelectorError σ}
    {f : ρ → α} {g : σ → α} (h : Agree R x y) (hfg : ∀ r r', R r r' → g r' = f r) :
    y.toOption.map g = x.toOption.map f := by
  cases h with
  | ok hr => exact congrArg some (hfg _ _ hr)
  | error => rfl

/-- Two readings in front of which there were lexemes of the given kinds: what was read is the same, the
kinds of what is left are the same, and something whole was taken. -/
structure Retraced {P Q : Input → Prop} (same : α → α → Prop) (before : List Lexeme.Kind)
    (r : α × { t : Input // P t }) (r' : α × { t : Input // Q t }) : Prop where
  value : same r.1 r'.1
  left : r'.2.1.kinds = r.2.1.kinds
  takes : Takes before r.2.1.kinds

/-- Two inputs with lexemes of the same kinds, taken apart. -/
inductive Input.SameKinds : Input → Input → Prop
  | done {source source' : String} {previous previous' : Option Lexeme} {stop stop' : Nat} :
      SameKinds ⟨source, previous, [], stop⟩ ⟨source', previous', [], stop'⟩
  | next {source source' : String} {previous previous' : Option Lexeme} {stop stop' : Nat}
      (kind : Lexeme.Kind) (offset offset' length length' : Nat) {rest rest' : List Lexeme} :
      rest'.map (·.kind) = rest.map (·.kind) →
      SameKinds ⟨source, previous, ⟨kind, offset, length⟩ :: rest, stop⟩
        ⟨source', previous', ⟨kind, offset', length'⟩ :: rest', stop'⟩

variable {s s' : Input}

theorem sameKinds_of_kinds (h : s'.kinds = s.kinds) : SameKinds s s' := by
  obtain ⟨source, previous, rest, stop⟩ := s
  cases rest with
  | nil =>
    obtain ⟨source', previous', rest', stop'⟩ := s'
    obtain rfl := List.map_eq_nil_iff.1 h
    exact .done
  | cons lexeme rest =>
    obtain ⟨source', previous', offset', length', rest', stop', rfl, hrest⟩ := exists_input_of_kinds h
    exact .next lexeme.kind lexeme.offset offset' lexeme.length length' hrest

end Agreement

section Words

variable {s s' : Input} {accepts : Lexeme.Kind → Bool}

namespace Input

theorem advanceIf_none (h : s'.kinds = s.kinds) (hnone : s.advanceIf accepts = none) :
    s'.advanceIf accepts = none := by
  cases sameKinds_of_kinds h with
  | done => rfl
  | next kind =>
    simp only [advanceIf] at hnone ⊢
    cases haccepts : accepts kind with
    | true =>
      rw [haccepts] at hnone
      cases hnone
    | false => rfl

theorem advanceIf_some (h : s'.kinds = s.kinds) {t : s.After} (hsome : s.advanceIf accepts = some t) :
    ∃ t' : s'.After, s'.advanceIf accepts = some t' ∧ t'.1.kinds = t.1.kinds ∧
      ∃ kind, accepts kind ∧ s.kinds = kind :: t.1.kinds := by
  cases sameKinds_of_kinds h with
  | done => cases hsome
  | next kind offset offset' length length' hrest =>
    simp only [advanceIf] at hsome ⊢
    cases haccepts : accepts kind with
    | true =>
      rw [haccepts] at hsome
      obtain rfl := Option.some.inj hsome
      exact ⟨_, rfl, hrest, kind, haccepts, rfl⟩
    | false =>
      rw [haccepts] at hsome
      cases hsome

/-- The lexeme that was moved over, where only one kind is accepted. -/
theorem advanceIf_kind {kind : Lexeme.Kind} (h : s'.kinds = s.kinds) {t : s.After}
    (hsome : s.advanceIf (· == kind) = some t) :
    ∃ t' : s'.After, s'.advanceIf (· == kind) = some t' ∧ t'.1.kinds = t.1.kinds ∧
      s.kinds = kind :: t.1.kinds := by
  obtain ⟨t', hsome', hleft, kind', haccepts, hkinds⟩ := advanceIf_some h hsome
  obtain rfl := beq_iff_eq.1 haccepts
  exact ⟨t', hsome', hleft, hkinds⟩

theorem agree_expect (h : s'.kinds = s.kinds) (kind : Lexeme.Kind) (what : Expectation) :
    Agree (fun (t : s.After) (t' : s'.After) => t'.1.kinds = t.1.kinds ∧ s.kinds = kind :: t.1.kinds)
      (s.expect kind what) (s'.expect kind what) := by
  rw [expect, expect]
  cases hadvance : s.advanceIf (· == kind) with
  | none =>
    rw [advanceIf_none h hadvance]
    exact .error
  | some t =>
    obtain ⟨t', hadvance', hleft, hkinds⟩ := advanceIf_kind h hadvance
    rw [hadvance']
    exact .ok ⟨hleft, hkinds⟩

theorem agree_expectWord (h : s'.kinds = s.kinds) (what : Expectation) :
    Agree (Retraced Eq s.kinds) (s.expectWord what) (s'.expectWord what) := by
  cases sameKinds_of_kinds h with
  | done => exact .error
  | next kind offset offset' length length' hrest =>
    cases kind with
    | word text => exact .ok ⟨rfl, hrest, .mark rfl _⟩
    | _ => exact .error

end Input

theorem agree_attributeName (h : s'.kinds = s.kinds) :
    Agree (Retraced Eq s.kinds) (readAttributeName s) (readAttributeName s') := by
  rw [readAttributeName, readAttributeName]
  cases hsign : s.advanceIf (· == .atSign) with
  | none =>
    rw [advanceIf_none h hsign]
    exact agree_expectWord h _
  | some t =>
    obtain ⟨t', hsign', hleft, hkinds⟩ := advanceIf_kind h hsign
    rw [hsign']
    apply (agree_expectWord hleft _).bind
    rintro _ _ ⟨hname, hlast, htakes⟩
    rw [hkinds]
    exact .ok ⟨hname, hlast, (Takes.mark rfl _).trans htakes⟩

/-- A value is read just if the next lexeme has one. -/
theorem agree_value (h : s'.kinds = s.kinds) (op : Comparison) :
    Agree (Retraced Eq (.comparison op :: s.kinds)) (readValue s) (readValue s') := by
  cases sameKinds_of_kinds h with
  | done => exact .error
  | next kind offset offset' length length' hrest =>
    rw [readValue, readValue]
    dsimp only
    cases hvalue : valueOf? kind with
    | none => exact .error
    | some value =>
      apply Agree.ok
      refine ⟨rfl, hrest, .comparison op ?_ _⟩
      rw [hvalue]
      rfl

theorem agree_test (h : s'.kinds = s.kinds) :
    Agree (Retraced Eq s.kinds) (readTest s) (readTest s') := by
  rw [readTest, readTest]
  apply (agree_attributeName h).bind
  rintro ⟨name, t, ht⟩ ⟨_, t', ht'⟩ ⟨rfl, hleft, htakes⟩
  cases sameKinds_of_kinds hleft with
  | done => exact .ok ⟨rfl, rfl, htakes⟩
  | @next source source' previous previous' stop stop' kind offset offset' length length' rest rest' hrest =>
    dsimp only
    cases hop : comparisonOf? kind with
    | none => exact .ok ⟨rfl, hleft, htakes⟩
    | some op =>
      obtain rfl : kind = .comparison op := by
        unfold comparisonOf? at hop
        split at hop
        · rw [Option.some.inj hop]
        · cases hop
      have hbehind : Input.kinds ⟨source', some ⟨.comparison op, offset', length'⟩, rest', stop'⟩ =
          Input.kinds ⟨source, some ⟨.comparison op, offset, length⟩, rest, stop⟩ := hrest
      apply (agree_value hbehind op).bind
      rintro ⟨value, u, hu⟩ ⟨_, u', hu'⟩ ⟨rfl, hlast, hcompared⟩
      exact .ok ⟨rfl, hlast, htakes.trans hcompared⟩

end Words

section Predicates

theorem isMark_of_isKeyword {keyword : String} {kind : Lexeme.Kind} (h : kind.isKeyword keyword) :
    kind.isMark := by
  cases kind with
  | word text => rfl
  | _ => cases h

variable {s s' : Input} {member : (s : Input) → Except SelectorError (Predicate × s.After)}
  {later : Predicate → (s : Input) → Except SelectorError (Predicate × s.Within)}

theorem Agree.members (hfirst : Agree (Retraced Eq s.kinds) (member s) (member s'))
    (hlater : ∀ p t, t.rest.length < s.rest.length → ∀ t', t'.kinds = t.kinds →
      Agree (Retraced Eq t.kinds) (later p t) (later p t')) :
    Agree (Retraced Eq s.kinds) (readMembers member later s) (readMembers member later s') := by
  rw [readMembers, readMembers]
  apply hfirst.bind
  rintro ⟨p, t, ht⟩ ⟨_, t', ht'⟩ ⟨rfl, hleft, htakes⟩
  apply (hlater p t ht t' hleft).bind
  rintro _ _ ⟨hq, hlast, hmore⟩
  exact .ok ⟨hq, hlast, htakes.trans hmore⟩

theorem agree_addMembers (keyword : String) (join : Predicate → Predicate → Predicate) (p : Predicate)
    (h : s'.kinds = s.kinds)
    (hmember : ∀ t, t.rest.length < s.rest.length → ∀ t', t'.kinds = t.kinds →
      Agree (Retraced Eq t.kinds) (member t) (member t'))
    (hlater : ∀ q t, t.rest.length < s.rest.length → ∀ t', t'.kinds = t.kinds →
      Agree (Retraced Eq t.kinds) (later q t) (later q t')) :
    Agree (Retraced Eq s.kinds) (addMembers member later keyword join p s)
      (addMembers member later keyword join p s') := by
  rw [addMembers, addMembers]
  cases hadvance : s.advanceIf (·.isKeyword keyword) with
  | none =>
    rw [advanceIf_none h hadvance]
    exact .ok ⟨rfl, h, .refl _⟩
  | some t =>
    obtain ⟨t', hadvance', hbehind, kind, hword, hkinds⟩ := advanceIf_some h hadvance
    rw [hadvance']
    apply (hmember t.1 t.2 t'.1 hbehind).bind
    rintro ⟨q, u, hu⟩ ⟨_, u', hu'⟩ ⟨rfl, hleft, htakes⟩
    apply (hlater (join p q) u (Nat.lt_trans hu t.2) u' hleft).bind
    rintro _ _ ⟨hr, hlast, hmore⟩
    have hkeyword := Takes.mark (isMark_of_isKeyword hword) t.1.kinds
    rw [hkinds]
    exact .ok ⟨hr, hlast, hkeyword.trans (htakes.trans hmore)⟩

/-- The open parenthesis is taken together with the one that closes it. -/
theorem Agree.closed (h : Agree (Retraced Eq s.kinds) (readDisjunction s) (readDisjunction s')) :
    Agree (Retraced Eq (.leftParen :: s.kinds)) (readClosed s) (readClosed s') := by
  rw [readClosed, readClosed]
  apply h.bind
  rintro ⟨p, t, ht⟩ ⟨_, t', ht'⟩ ⟨rfl, hleft, htakes⟩
  apply (agree_expect hleft .rightParen _).bind
  rintro ⟨u, hu⟩ ⟨u', hu'⟩ ⟨hlast, hclose⟩
  rw [hclose] at htakes
  exact .ok ⟨rfl, hlast, htakes.parens⟩

theorem agree_negated (h : s'.kinds = s.kinds)
    (hinside : ∀ t, t.rest.length < s.rest.length → ∀ t', t'.kinds = t.kinds →
      Agree (Retraced Eq t.kinds) (readDisjunction t) (readDisjunction t')) :
    Agree (Retraced Eq s.kinds) (readNegated s) (readNegated s') := by
  rw [readNegated, readNegated]
  cases hparen : s.advanceIf (· == .leftParen) with
  | some t =>
    obtain ⟨t', hparen', hbehind, hopen⟩ := advanceIf_kind h hparen
    rw [hparen', hopen]
    apply (hinside t.1 t.2 t'.1 hbehind).closed.bind
    rintro ⟨p, u, hu⟩ ⟨_, u', hu'⟩ ⟨rfl, hlast, htakes⟩
    exact .ok ⟨rfl, hlast, htakes⟩
  | none =>
    rw [advanceIf_none h hparen]
    apply (agree_attributeName h).bind
    rintro ⟨name, t, ht⟩ ⟨_, t', ht'⟩ ⟨rfl, hlast, htakes⟩
    exact .ok ⟨rfl, hlast, htakes⟩

theorem agree_unary (h : s'.kinds = s.kinds)
    (hinside : ∀ t, t.rest.length < s.rest.length → ∀ t', t'.kinds = t.kinds →
      Agree (Retraced Eq t.kinds) (readDisjunction t) (readDisjunction t')) :
    Agree (Retraced Eq s.kinds) (readUnary s) (readUnary s') := by
  have hempty : s'.rest.isEmpty = s.rest.isEmpty := by
    cases sameKinds_of_kinds h with
    | done | next => rfl
  rw [readUnary_eq, readUnary_eq, hempty]
  split
  · exact .error
  · cases hbang : s.advanceIf (· == .bang) with
    | some t =>
      obtain ⟨t', hbang', hbehind, hkinds⟩ := advanceIf_kind h hbang
      rw [hbang', hkinds]
      apply (agree_negated hbehind fun u hu => hinside u (Nat.lt_trans hu t.2)).bind
      rintro _ _ ⟨hp, hlast, htakes⟩
      exact .ok ⟨hp, hlast, (Takes.mark rfl _).trans htakes⟩
    | none =>
      rw [advanceIf_none h hbang]
      dsimp only
      cases hparen : s.advanceIf (· == .leftParen) with
      | some t =>
        obtain ⟨t', hparen', hbehind, hopen⟩ := advanceIf_kind h hparen
        rw [hparen', hopen]
        apply (hinside t.1 t.2 t'.1 hbehind).closed.bind
        rintro _ _ ⟨hp, hlast, htakes⟩
        exact .ok ⟨hp, hlast, htakes⟩
      | none =>
        rw [advanceIf_none h hparen]
        exact agree_test h

/-- The readers of predicates. The recursion is on the first input. -/
theorem agree_predicates :
    (∀ s s' : Input, s'.kinds = s.kinds →
      Agree (Retraced Eq s.kinds) (readDisjunction s) (readDisjunction s')) ∧
    (∀ (p : Predicate) (s s' : Input), s'.kinds = s.kinds →
      Agree (Retraced Eq s.kinds) (readAlternatives p s) (readAlternatives p s')) ∧
    (∀ s s' : Input, s'.kinds = s.kinds →
      Agree (Retraced Eq s.kinds) (readConjunction s) (readConjunction s')) ∧
    (∀ (p : Predicate) (s s' : Input), s'.kinds = s.kinds →
      Agree (Retraced Eq s.kinds) (readFurther p s) (readFurther p s')) ∧
    (∀ s s' : Input, s'.kinds = s.kinds →
      Agree (Retraced Eq s.kinds) (readUnary s) (readUnary s')) := by
  apply predicates_induct
  case hdisjunction =>
    intro s hfirst hlater s' h
    rw [readDisjunction_eq, readDisjunction_eq]
    exact (hfirst s' h).members hlater
  case halternatives =>
    intro p s hmember hlater s' h
    rw [readAlternatives_eq, readAlternatives_eq]
    exact agree_addMembers "or" .or p h hmember hlater
  case hconjunction =>
    intro s hfirst hlater s' h
    rw [readConjunction_eq, readConjunction_eq]
    exact (hfirst s' h).members hlater
  case hfurther =>
    intro p s hmember hlater s' h
    rw [readFurther_eq, readFurther_eq]
    exact agree_addMembers "and" .and p h hmember hlater
  case hunary =>
    intro s hinside s' h
    exact agree_unary h hinside

end Predicates

section Conditions

variable {s s' : Input}

/-- The condition without the offset of its sign. -/
def Condition.unplaced : Condition → Condition
  | predicate p => predicate p
  | reference name _ => reference name 0

/-- Nothing but a call of a word can be taken for a position, if the word is no number. -/
theorem readPosition_of_not_call {source text : String} {previous : Option Lexeme}
    {offset length stop : Nat} {rest : List Lexeme} (htext : ¬ text.toList.all Char.isDigit)
    (hcall : ∀ tail, rest.map (·.kind) ≠ .leftParen :: .rightParen :: tail) :
    readPosition? ⟨source, previous, ⟨.word text, offset, length⟩ :: rest, stop⟩ = .ok none := by
  rw [readPosition?]
  dsimp only
  rw [if_neg htext]
  split
  · exact absurd rfl (hcall _)
  · rfl

theorem exists_call {rest : List Lexeme} {tail : List Lexeme.Kind}
    (h : rest.map (·.kind) = .leftParen :: .rightParen :: tail) :
    ∃ opening opened closing closed left,
      rest = ⟨.leftParen, opening, opened⟩ :: ⟨.rightParen, closing, closed⟩ :: left ∧
        left.map (·.kind) = tail := by
  obtain ⟨⟨_, opening, opened⟩, inside, rfl, rfl, hinside⟩ := List.map_eq_cons_iff.1 h
  obtain ⟨⟨_, closing, closed⟩, left, rfl, rfl, hleft⟩ := List.map_eq_cons_iff.1 hinside
  exact ⟨opening, opened, closing, closed, left, rfl, hleft⟩

theorem agree_position (h : s'.kinds = s.kinds) :
    Agree (Option.Rel (Retraced Eq s.kinds)) (readPosition? s) (readPosition? s') := by
  cases sameKinds_of_kinds h with
  | done => exact .ok .none
  | @next source source' previous previous' stop stop' kind offset offset' length length' rest rest' hrest =>
    cases kind with
    | word text =>
      by_cases htext : text.toList.all Char.isDigit
      · rw [readPosition?, readPosition?]
        dsimp only
        rw [if_pos htext, if_pos htext]
        cases positionOf? text with
        | none => exact .error
        | some filter => exact .ok (.some ⟨rfl, hrest, .mark rfl _⟩)
      · by_cases hcall : ∃ tail, rest.map (·.kind) = .leftParen :: .rightParen :: tail
        · obtain ⟨tail, hkinds⟩ := hcall
          obtain ⟨_, _, _, _, left, rfl, hleft⟩ := exists_call hkinds
          obtain ⟨_, _, _, _, left', rfl, hleft'⟩ := exists_call (hrest.trans hkinds)
          have hlast : left'.map (·.kind) = left.map (·.kind) := hleft'.trans hleft.symm
          have htakes : Takes (.word text :: .leftParen :: .rightParen :: left.map (·.kind))
              (left.map (·.kind)) := (Takes.mark rfl _).trans (Takes.refl _).parens
          rw [readPosition?, readPosition?]
          dsimp only
          rw [if_neg htext, if_neg htext]
          by_cases heven : text = "even"
          · rw [if_pos heven, if_pos heven]
            exact .ok (.some ⟨rfl, hlast, htakes⟩)
          · by_cases hodd : text = "odd"
            · rw [if_neg heven, if_neg heven, if_pos hodd, if_pos hodd]
              exact .ok (.some ⟨rfl, hlast, htakes⟩)
            · rw [if_neg heven, if_neg heven, if_neg hodd, if_neg hodd]
              exact .ok .none
        · have hno : ∀ tail, rest.map (·.kind) ≠ .leftParen :: .rightParen :: tail :=
            fun tail hkinds => hcall ⟨tail, hkinds⟩
          rw [readPosition_of_not_call htext hno, readPosition_of_not_call htext (hrest ▸ hno)]
          exact .ok .none
    | _ => exact .ok .none

/-- The conditions and the filter of a step, read twice. -/
structure RetracedConditions {P Q : Input → Prop} (before : List Lexeme.Kind)
    (r : List Condition × Option PositionFilter × { t : Input // P t })
    (r' : List Condition × Option PositionFilter × { t : Input // Q t }) : Prop where
  conditions : r'.1.map Condition.unplaced = r.1.map Condition.unplaced
  filter : r'.2.1 = r.2.1
  left : r'.2.2.1.kinds = r.2.2.1.kinds
  takes : Takes before r.2.2.1.kinds

/-- One more condition in front of those that have been read. -/
theorem Agree.withCondition {P P' Q Q' : Input → Prop} {before middle : List Lexeme.Kind}
    {x : Except SelectorError (List Condition × Option PositionFilter × { t : Input // P t })}
    {y : Except SelectorError (List Condition × Option PositionFilter × { t : Input // Q t })}
    (h : Agree (RetracedConditions middle) x y) (condition condition' : Condition)
    (hcondition : condition'.unplaced = condition.unplaced) (htakes : Takes before middle)
    (hweak : ∀ t, P t → P' t) (hweak' : ∀ t, Q t → Q' t) :
    Agree (RetracedConditions before)
      (x >>= fun r =>
        pure (condition :: r.1, r.2.1, (⟨r.2.2.1, hweak _ r.2.2.2⟩ : { t : Input // P' t })))
      (y >>= fun r =>
        pure (condition' :: r.1, r.2.1, (⟨r.2.2.1, hweak' _ r.2.2.2⟩ : { t : Input // Q' t }))) := by
  apply h.bind
  rintro _ _ ⟨hconditions, hfilter, hleft, hmore⟩
  exact .ok ⟨congrArg₂ List.cons hcondition hconditions, hfilter, hleft, htakes.trans hmore⟩

/-- The condition that an attribute has a word for its value. -/
theorem agree_compared (h : s'.kinds = s.kinds) (name : String) (what : Expectation) :
    Agree (Retraced Eq s.kinds)
      (s.expectWord what >>= fun r => pure (Condition.predicate (.compare name .equal r.1), r.2))
      (s'.expectWord what >>= fun r => pure (Condition.predicate (.compare name .equal r.1), r.2)) := by
  apply (agree_expectWord h what).bind
  rintro ⟨value, t, ht⟩ ⟨_, t', ht'⟩ ⟨rfl, hleft, htakes⟩
  exact .ok ⟨rfl, hleft, htakes⟩

theorem agree_conditions (filter : Option PositionFilter) (h : s'.kinds = s.kinds) :
    Agree (RetracedConditions s.kinds) (readConditions filter s) (readConditions filter s') := by
  obtain ⟨n, hlength⟩ : ∃ n, s.rest.length = n := ⟨_, rfl⟩
  -- The length is that of the first input; the second one has the same number of lexemes.
  induction n using Nat.strongRecOn generalizing filter s s' with
  | ind n ih =>
    rw [readConditions, readConditions]
    cases sameKinds_of_kinds h with
    | done => exact .ok ⟨rfl, rfl, rfl, .refl _⟩
    | @next source source' previous previous' stop stop' kind offset offset' length length' rest rest' hrest =>
      have hshorter : rest.length < n := by
        rw [← hlength]
        exact Nat.lt_succ_self _
      have hbehind : Input.kinds ⟨source', some ⟨kind, offset', length'⟩, rest', stop'⟩ =
          Input.kinds ⟨source, some ⟨kind, offset, length⟩, rest, stop⟩ := hrest
      dsimp only
      cases kind with
      | dot =>
        apply (agree_compared hbehind "class" .className).bind
        rintro ⟨condition, u, hu⟩ ⟨_, u', hu'⟩ ⟨rfl, hleft, htakes⟩
        have hlater := ih _ (Nat.lt_trans hu hshorter) filter hleft rfl
        exact hlater.withCondition _ _ rfl ((Takes.mark rfl _).trans htakes) _ _
      | hash =>
        apply (agree_compared hbehind "id" .identifier).bind
        rintro ⟨condition, u, hu⟩ ⟨_, u', hu'⟩ ⟨rfl, hleft, htakes⟩
        have hlater := ih _ (Nat.lt_trans hu hshorter) filter hleft rfl
        exact hlater.withCondition _ _ rfl ((Takes.mark rfl _).trans htakes) _ _
      | percent =>
        apply (agree_expectWord hbehind .reference).bind
        rintro ⟨name, u, hu⟩ ⟨_, u', hu'⟩ ⟨rfl, hleft, htakes⟩
        have hlater := ih _ (Nat.lt_trans hu hshorter) filter hleft rfl
        exact hlater.withCondition (.reference name offset) (.reference name offset') rfl
          ((Takes.mark rfl _).trans htakes) _ _
      | leftBracket =>
        apply (agree_position hbehind).bind
        rintro _ _ (hposition | _)
        · rename_i r r'
          obtain ⟨position, u, hu⟩ := r
          obtain ⟨_, u', hu'⟩ := r'
          obtain ⟨rfl, hleft, htakes⟩ := hposition
          dsimp only
          split
          · exact .error
          · apply (agree_expect hleft .rightBracket _).bind
            rintro ⟨v, hv⟩ ⟨v', hv'⟩ ⟨hlast, hclose⟩
            have hbracket := htakes.trans (hclose ▸ Takes.mark rfl _)
            apply (ih _ (Nat.lt_trans hv (Nat.lt_trans hu hshorter)) _ hlast rfl).bind
            rintro _ _ ⟨hconditions, hfilter, hend, hmore⟩
            exact .ok ⟨hconditions, hfilter, hend, (Takes.mark rfl _).trans (hbracket.trans hmore)⟩
        · apply (agree_predicates.1 _ _ hbehind).bind
          rintro ⟨p, u, hu⟩ ⟨_, u', hu'⟩ ⟨rfl, hleft, htakes⟩
          apply (agree_expect hleft .rightBracket _).bind
          rintro ⟨v, hv⟩ ⟨v', hv'⟩ ⟨hlast, hclose⟩
          have hbracket := htakes.trans (hclose ▸ Takes.mark rfl _)
          have hlater := ih _ (Nat.lt_trans hv (Nat.lt_trans hu hshorter)) filter hlast rfl
          exact hlater.withCondition _ _ rfl ((Takes.mark rfl _).trans hbracket) _ _
      | _ => exact .ok ⟨rfl, rfl, h, .refl _⟩

end Conditions

section Paths

variable {s s' : Input}

theorem agree_node (h : s'.kinds = s.kinds) :
    Agree (Retraced Eq s.kinds) (readNode s) (readNode s') := by
  rw [readNode, readNode]
  cases sameKinds_of_kinds h with
  | done => exact .error
  | @next source source' previous previous' stop stop' kind offset offset' length length' rest rest' hrest =>
    have hbehind : Input.kinds ⟨source', some ⟨kind, offset', length'⟩, rest', stop'⟩ =
        Input.kinds ⟨source, some ⟨kind, offset, length⟩, rest, stop⟩ := hrest
    dsimp only
    cases kind with
    | star => exact .ok ⟨rfl, hrest, .mark rfl _⟩
    | dot | hash | percent | leftBracket => exact .ok ⟨rfl, h, .refl _⟩
    | word name =>
      dsimp only
      cases hparen : advanceIf ⟨source, some ⟨.word name, offset, length⟩, rest, stop⟩
          (· == .leftParen) with
      | none =>
        rw [advanceIf_none hbehind hparen]
        exact .ok ⟨rfl, hrest, .mark rfl _⟩
      | some u =>
        obtain ⟨u, hu⟩ := u
        obtain ⟨⟨u', hu'⟩, hparen', hinside, hopen⟩ := advanceIf_kind hbehind hparen
        rw [hparen']
        dsimp only
        cases PseudoNode.ofName? name with
        | none => exact .error
        | some p =>
          apply (agree_expect hinside .rightParen _).bind
          rintro ⟨v, hv⟩ ⟨v', hv'⟩ ⟨hlast, hclose⟩
          have hcall : rest.map (·.kind) = .leftParen :: .rightParen :: v.kinds :=
            hopen.trans (congrArg _ hclose)
          refine .ok ⟨rfl, hlast, ?_⟩
          rw [kinds, List.map_cons, hcall]
          exact (Takes.mark rfl _).trans (Takes.refl _).parens
    | _ => exact .error

/-- The step without its offsets. -/
def StepExpr.unplaced (step : StepExpr) : StepExpr :=
  { step with conditions := step.conditions.map Condition.unplaced, offset := 0 }

/-- The path without its offsets. -/
def PathExpr.unplaced (path : PathExpr) : PathExpr := path.map StepExpr.unplaced

theorem agree_step (axis : Axis) (offset offset' : Nat) (h : s'.kinds = s.kinds) :
    Agree (Retraced (fun step step' => step'.unplaced = step.unplaced) s.kinds)
      (readStep axis offset s) (readStep axis offset' s') := by
  rw [readStep, readStep]
  apply (agree_node h).bind
  rintro ⟨node, t, ht⟩ ⟨_, t', ht'⟩ ⟨rfl, hleft, htakes⟩
  apply (agree_conditions none hleft).bind
  rintro ⟨conditions, filter, u, hu⟩ ⟨conditions', filter', u', hu'⟩
    ⟨hconditions, hfilter, hlast, hmore⟩
  dsimp only at hconditions hfilter ⊢
  have hempty : conditions'.isEmpty = conditions.isEmpty := by
    simpa using congrArg List.isEmpty hconditions
  rw [hempty]
  split
  · exact .error
  · refine .ok ⟨?_, hlast, htakes.trans hmore⟩
    simp only [StepExpr.unplaced, hconditions, hfilter]

theorem readAxis_none (h : s'.kinds = s.kinds) (hnone : readAxis? s = none) : readAxis? s' = none := by
  unfold readAxis? at hnone ⊢
  cases hslash : s.advanceIf (· == .slash) with
  | some t =>
    rw [hslash] at hnone
    cases hnone
  | none =>
    rw [hslash] at hnone
    rw [advanceIf_none h hslash, advanceIf_none h (Option.map_eq_none_iff.1 hnone)]
    rfl

theorem readAxis_some (h : s'.kinds = s.kinds) {axis : Axis} {t : s.After}
    (hsome : readAxis? s = some (axis, t)) :
    ∃ t' : s'.After, readAxis? s' = some (axis, t') ∧ t'.1.kinds = t.1.kinds ∧
      Takes s.kinds t.1.kinds := by
  unfold readAxis? at hsome ⊢
  cases hslash : s.advanceIf (· == .slash) with
  | some u =>
    rw [hslash] at hsome
    obtain ⟨rfl, rfl⟩ := Prod.mk.inj (Option.some.inj hsome)
    obtain ⟨u', hslash', hleft, hkinds⟩ := advanceIf_kind h hslash
    rw [hslash', hkinds]
    exact ⟨u', rfl, hleft, .mark rfl _⟩
  | none =>
    rw [hslash] at hsome
    obtain ⟨u, hdouble, hpair⟩ := Option.map_eq_some_iff.1 hsome
    obtain ⟨rfl, rfl⟩ := Prod.mk.inj hpair
    obtain ⟨u', hdouble', hleft, hkinds⟩ := advanceIf_kind h hdouble
    rw [advanceIf_none h hslash, hdouble', hkinds]
    exact ⟨u', rfl, hleft, .mark rfl _⟩

theorem agree_furtherSteps (h : s'.kinds = s.kinds) :
    Agree (Retraced (fun steps steps' => PathExpr.unplaced steps' = PathExpr.unplaced steps) s.kinds)
      (readFurtherSteps s) (readFurtherSteps s') := by
  induction s using readFurtherSteps.induct generalizing s' with
  | case1 s hnone =>
    rw [readFurtherSteps, hnone, readFurtherSteps, readAxis_none h hnone]
    exact .ok ⟨rfl, h, .refl _⟩
  | case2 s axis t ht hsome ih =>
    obtain ⟨⟨t', ht'⟩, hsome', hbehind, haxis⟩ := readAxis_some h hsome
    rw [readFurtherSteps, hsome, readFurtherSteps, hsome']
    apply (agree_step axis _ _ hbehind).bind
    rintro ⟨step, u, hu⟩ ⟨step', u', hu'⟩ ⟨hstep, hleft, htakes⟩
    apply (ih u hu hleft).bind
    rintro _ _ ⟨hsteps, hlast, hmore⟩
    exact .ok ⟨congrArg₂ List.cons hstep hsteps, hlast, haxis.trans (htakes.trans hmore)⟩

theorem agree_firstStep (h : s'.kinds = s.kinds) :
    Agree (Retraced (fun step step' => step'.unplaced = step.unplaced) s.kinds)
      (readFirstStep s) (readFirstStep s') := by
  rw [readFirstStep, readFirstStep]
  cases haxis : readAxis? s with
  | none =>
    rw [readAxis_none h haxis]
    exact agree_step _ _ _ h
  | some r =>
    obtain ⟨axis, t, ht⟩ := r
    obtain ⟨⟨t', ht'⟩, haxis', hbehind, hslash⟩ := readAxis_some h haxis
    rw [haxis']
    apply (agree_step axis _ _ hbehind).bind
    rintro _ _ ⟨hstep, hlast, htakes⟩
    exact .ok ⟨hstep, hlast, hslash.trans htakes⟩

theorem find_early_unplaced (path : PathExpr) :
    (path.dropLast.find? (·.node.isPseudo)).map StepExpr.unplaced =
      path.unplaced.dropLast.find? (·.node.isPseudo) := by
  rw [PathExpr.unplaced, ← List.map_dropLast, List.find?_map]
  rfl

theorem agree_path (h : s'.kinds = s.kinds) :
    Agree (Retraced (fun path path' => PathExpr.unplaced path' = PathExpr.unplaced path) s.kinds)
      (readPath s) (readPath s') := by
  rw [readPath, readPath]
  apply (agree_firstStep h).bind
  rintro ⟨step, t, ht⟩ ⟨step', t', ht'⟩ ⟨hstep, hleft, htakes⟩
  apply (agree_furtherSteps hleft).bind
  rintro ⟨steps, u, hu⟩ ⟨steps', u', hu'⟩ ⟨hsteps, hlast, hmore⟩
  dsimp only at hstep hsteps ⊢
  have hpath : PathExpr.unplaced (step' :: steps') = PathExpr.unplaced (step :: steps) :=
    congrArg₂ List.cons hstep hsteps
  have hearly := find_early_unplaced (step' :: steps')
  rw [hpath, ← find_early_unplaced (step :: steps)] at hearly
  cases hfind : (step :: steps).dropLast.find? (·.node.isPseudo) with
  | none =>
    rw [hfind, Option.map_none, Option.map_eq_none_iff] at hearly
    rw [hearly]
    exact .ok ⟨hpath, hlast, htakes.trans hmore⟩
  | some early =>
    rw [hfind] at hearly
    obtain ⟨early', hfind', -⟩ := Option.map_eq_some_iff.1 hearly
    rw [hfind']
    exact .error

theorem agree_paths (h : s'.kinds = s.kinds) :
    Agree (Retraced (fun paths paths' => paths'.map PathExpr.unplaced = paths.map PathExpr.unplaced) s.kinds)
      (readPaths s) (readPaths s') := by
  induction s using readPaths.induct generalizing s' with
  | case1 s ih =>
    rw [readPaths, readPaths]
    apply (agree_path h).bind
    rintro ⟨path, t, ht⟩ ⟨path', t', ht'⟩ ⟨hpath, hleft, htakes⟩
    dsimp only at hpath hleft htakes ⊢
    cases hbar : t.advanceIf (· == .doublePipe) with
    | none =>
      rw [advanceIf_none hleft hbar]
      exact .ok ⟨congrArg (· :: []) hpath, hleft, htakes⟩
    | some u =>
      obtain ⟨u, hu⟩ := u
      obtain ⟨⟨u', hu'⟩, hbar', hbehind, hkinds⟩ := advanceIf_kind hleft hbar
      rw [hbar']
      apply (ih t ht u hu hbehind).bind
      rintro _ _ ⟨hpaths, hlast, hmore⟩
      have hnext := htakes.trans (hkinds ▸ Takes.mark rfl _)
      exact .ok ⟨congrArg₂ List.cons hpath hpaths, hlast, hnext.trans hmore⟩

end Paths

end MarkupStream.Selector
