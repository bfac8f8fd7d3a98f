import MarkupStream.Proofs.SelectorText

/-!
What is read can be written. The words of the lexemes of any source are words, and their values lack a quote
of one kind, so that the readers give nothing that could not be written again.
-/
namespace MarkupStream.Selector

open Lexeme Input

/-- The text of the lexeme can be written again. -/
def Lexeme.Kind.IsSound : Lexeme.Kind → Prop
  | word text => IsWord text
  | quoted text | bare text => Quotable text
  | _ => True

namespace LexemeStream

variable {s t : LexemeStream} {lexeme : Lexeme}

theorem kind_of_emit {kind : Lexeme.Kind} {count : Nat} (h : s.emit kind count = (.ok (some lexeme), t)) :
    lexeme.kind = kind := by
  rw [← Option.some.inj (Except.ok.inj (Prod.mk.inj h).1)]

theorem isSound_fixedKind {c : Char} {after : Option Char} {kind : Lexeme.Kind} {count : Nat}
    (h : fixedKind? c after = some (kind, count)) : kind.IsSound := by
  unfold fixedKind? at h
  split at h
  all_goals first
    | cases h; trivial
    | cases h

theorem quotable_of_not_mem {mark : Char} {chars : List Char} (hmark : isQuoteMark mark)
    (h : mark ∉ chars) : Quotable (String.ofList chars) := by
  rw [Quotable, String.toList_ofList]
  rcases isQuoteMark_iff.1 hmark with rfl | rfl
  · exact .inl h
  · exact .inr h

theorem isSound_of_readQuoted {mark : Char} (hmark : isQuoteMark mark)
    (h : s.readQuoted mark = (.ok (some lexeme), t)) : lexeme.kind.IsSound := by
  unfold readQuoted at h
  dsimp only at h
  split at h
  · rw [kind_of_emit h]
    apply quotable_of_not_mem hmark
    intro hmem
    simpa using List.all_eq_true.1 List.all_takeWhile mark hmem
  · cases h

theorem isSound_of_readBare (h : s.readBare = (.ok (some lexeme), t)) : lexeme.kind.IsSound := by
  have hquotable : Quotable (String.ofList (s.rest.takeWhile isBareChar)) := by
    apply quotable_of_not_mem (show isQuoteMark '\x27' from rfl)
    intro hmem
    exact absurd (List.all_eq_true.1 List.all_takeWhile _ hmem) (by decide)
  unfold readBare at h
  dsimp only at h
  split at h
  · split at h
    · cases h
    · rw [kind_of_emit h]
      exact hquotable
  · rw [kind_of_emit h]
    exact hquotable

theorem isSound_of_readPlain {c : Char} {rest : List Char} (hs : s.rest = c :: rest) (hc : ¬ isBlank c)
    (h : s.readPlain c = (.ok (some lexeme), t)) : lexeme.kind.IsSound := by
  unfold readPlain at h
  split at h
  · rw [kind_of_emit h]
    trivial
  · rename_i hkind
    rw [kind_of_emit h]
    exact isSound_fixedKind hkind
  · split at h
    · rename_i hmark
      exact isSound_of_readQuoted hmark h
    · dsimp only at h
      split at h
      · cases h
      · rename_i hsome
        rw [kind_of_emit h]
        refine ⟨?_, ?_⟩
        · rw [String.toList_ofList]
          rw [hs] at hsome ⊢
          by_cases hword : isWordChar c
          · rw [List.takeWhile_cons_of_pos hword]
            exact ⟨c, _, rfl, hc⟩
          · rw [List.takeWhile_cons_of_neg hword] at hsome
            exact absurd rfl hsome
        · rw [String.toList_ofList]
          exact List.all_eq_true.1 List.all_takeWhile

/-- No blank comes next once blanks have been skipped. -/
theorem not_blank_skipBlanks {c : Char} {rest : List Char} (h : s.skipBlanks.rest = c :: rest) :
    ¬ isBlank c := by
  rw [skipBlanks, rest_skip] at h
  generalize s.rest = chars at h
  induction chars with
  | nil => cases h
  | cons first chars ih =>
    by_cases hfirst : isBlank first
    · rw [List.takeWhile_cons_of_pos hfirst] at h
      exact ih h
    · rw [List.takeWhile_cons_of_neg hfirst] at h
      obtain ⟨rfl, -⟩ := List.cons.inj h
      exact hfirst

theorem isSound_of_next (h : s.next = (.ok (some lexeme), t)) : lexeme.kind.IsSound := by
  unfold next at h
  dsimp only at h
  split at h
  · cases h
  · rename_i c rest hrest
    split at h
    · split at h
      · rename_i hmark
        exact isSound_of_readQuoted hmark h
      · exact isSound_of_readBare h
    · exact isSound_of_readPlain hrest (not_blank_skipBlanks hrest) h

theorem isSound_of_all {lexemes : List Lexeme} (h : s.all = .ok lexemes) :
    ∀ lexeme ∈ lexemes, lexeme.kind.IsSound := by
  induction s using all.induct generalizing lexemes with
  | case1 s t hnext =>
    rw [all_of_none hnext] at h
    rw [← Except.ok.inj h]
    simp
  | case2 s lexeme t hnext ih =>
    rw [all_of_lexeme hnext] at h
    cases hall : t.all with
    | error e =>
      rw [hall] at h
      cases h
    | ok rest =>
      rw [hall] at h
      rw [← Except.ok.inj h]
      intro other hmem
      rcases List.mem_cons.1 hmem with rfl | hmem
      · exact isSound_of_next hnext
      · exact ih hall other hmem
  | case3 s e t hnext =>
    rw [all] at h
    split at h <;> simp_all

end LexemeStream

section Reading

/-- The lexemes that are left can be written again. -/
def Input.IsSound (s : Input) : Prop := ∀ lexeme ∈ s.rest, lexeme.kind.IsSound

/-- What a reader gives, if it gives anything, has a property. -/
structure Yields {ρ : Type} (P : ρ → Prop) (result : Except SelectorError ρ) : Prop where
  of_ok : ∀ r, result = .ok r → P r

/-- What was read has a property, and what is left is sound. -/
def IsSoundWith {α : Type} {Q : Input → Prop} (P : α → Prop) (r : α × { t : Input // Q t }) : Prop :=
  P r.1 ∧ r.2.1.IsSound

variable {ρ ρ' : Type} {s t : Input}

theorem Yields.bind {P : ρ → Prop} {P' : ρ' → Prop} {result : Except SelectorError ρ}
    {f : ρ → Except SelectorError ρ'} (h : Yields P result) (hf : ∀ r, P r → Yields P' (f r)) :
    Yields P' (result >>= f) := by
  constructor
  intro r' hbind
  obtain ⟨r, hr, hr'⟩ := exists_of_bind_eq_ok hbind
  exact (hf r (h.of_ok r hr)).of_ok r' hr'

theorem yields_ok {P : ρ → Prop} {r : ρ} (h : P r) : Yields P (.ok r) := by
  constructor
  intro r' hr
  rw [← Except.ok.inj hr]
  exact h

/-- The same result, of whose remaining lexemes less is said. -/
theorem Yields.within {α : Type} {P : α → Prop} {Q Q' : Input → Prop}
    {result : Except SelectorError (α × { t : Input // Q t })} (h : Yields (IsSoundWith P) result)
    (hweak : ∀ t, Q t → Q' t) :
    Yields (IsSoundWith P)
      (result >>= fun r => pure (r.1, (⟨r.2.1, hweak _ r.2.2⟩ : { t : Input // Q' t }))) := by
  apply h.bind
  intro _ hr
  exact yields_ok hr

theorem yields_error {P : ρ → Prop} {e : SelectorError} : Yields P (.error e) := ⟨nofun⟩

namespace Input

theorem IsSound.of_suffix (h : s.IsSound) (hsuffix : t.rest <:+ s.rest) : t.IsSound :=
  fun lexeme hmem => h lexeme (hsuffix.mem hmem)

theorem IsSound.behind (h : s.IsSound) {lexeme : Lexeme} {rest : List Lexeme} (hrest : s.rest = lexeme :: rest)
    (previous : Option Lexeme) : IsSound { s with previous, rest } :=
  h.of_suffix (hrest ▸ List.suffix_cons lexeme rest)

theorem IsSound.head (h : s.IsSound) {lexeme : Lexeme} {rest : List Lexeme}
    (hrest : s.rest = lexeme :: rest) : lexeme.kind.IsSound := by
  apply h
  rw [hrest]
  exact List.mem_cons_self

theorem IsSound.advanceIf (h : s.IsSound) {accepts : Lexeme.Kind → Bool} {t : s.After}
    (ht : s.advanceIf accepts = some t) : t.1.IsSound := by
  unfold Input.advanceIf at ht
  split at ht
  · rename_i hrest
    split at ht
    · rw [← Option.some.inj ht]
      exact h.behind hrest _
    · cases ht
  · cases ht

theorem yields_expect (h : s.IsSound) (kind : Lexeme.Kind) (what : Expectation) :
    Yields (·.1.IsSound) (s.expect kind what) := by
  unfold expect
  split
  · rename_i hadvance
    exact yields_ok (h.advanceIf hadvance)
  · exact yields_error

theorem yields_expectWord (h : s.IsSound) (what : Expectation) :
    Yields (IsSoundWith IsWord) (s.expectWord what) := by
  unfold expectWord
  split
  · rename_i hrest
    exact yields_ok ⟨h.head hrest, h.behind hrest _⟩
  · exact yields_error

end Input

theorem yields_attributeName (h : s.IsSound) : Yields (IsSoundWith IsWord) (readAttributeName s) := by
  rw [readAttributeName]
  split
  · rename_i t ht hadvance
    exact (yields_expectWord (h.advanceIf hadvance) _).within _
  · exact yields_expectWord h _

theorem quotable_of_valueOf {kind : Lexeme.Kind} {value : String} (h : kind.IsSound)
    (hvalue : valueOf? kind = some value) : Quotable value := by
  unfold valueOf? at hvalue
  split at hvalue
  · obtain rfl := Option.some.inj hvalue
    exact h
  · split at hvalue
    · cases hvalue
    · obtain rfl := Option.some.inj hvalue
      exact h
  · cases hvalue

theorem yields_value (h : s.IsSound) : Yields (IsSoundWith Quotable) (readValue s) := by
  unfold readValue
  split
  · rename_i hrest
    split
    · rename_i hvalue
      exact yields_ok ⟨quotable_of_valueOf (h.head hrest) hvalue, h.behind hrest _⟩
    · exact yields_error
  · exact yields_error

theorem yields_test (h : s.IsSound) : Yields (IsSoundWith Predicate.IsWritable) (readTest s) := by
  rw [readTest]
  apply (yields_attributeName h).bind
  rintro ⟨name, t, ht⟩ ⟨hname, hsound⟩
  dsimp only
  split
  · rename_i hrest
    split
    · apply (yields_value (hsound.behind hrest _)).bind
      rintro _ ⟨hvalue, hlast⟩
      exact yields_ok ⟨⟨hname, hvalue⟩, hlast⟩
    · exact yields_ok ⟨hname, hsound⟩
  · exact yields_ok ⟨hname, hsound⟩

section Predicates

variable {member : (s : Input) → Except SelectorError (Predicate × s.After)}
  {later : Predicate → (s : Input) → Except SelectorError (Predicate × s.Within)}

theorem Yields.members (hfirst : Yields (IsSoundWith Predicate.IsWritable) (member s))
    (hlater : ∀ p t, t.rest.length < s.rest.length → p.IsWritable → t.IsSound →
      Yields (IsSoundWith Predicate.IsWritable) (later p t)) :
    Yields (IsSoundWith Predicate.IsWritable) (readMembers member later s) := by
  rw [readMembers]
  apply hfirst.bind
  rintro ⟨p, t, ht⟩ ⟨hp, hsound⟩
  exact (hlater p t ht hp hsound).within fun _ hu => Nat.lt_of_le_of_lt hu ht

theorem yields_addMembers {keyword : String} {join : Predicate → Predicate → Predicate} {p : Predicate}
    (hjoin : ∀ q, q.IsWritable → (join p q).IsWritable) (hp : p.IsWritable) (h : s.IsSound)
    (hmember : ∀ t, t.rest.length < s.rest.length → t.IsSound →
      Yields (IsSoundWith Predicate.IsWritable) (member t))
    (hlater : ∀ q t, t.rest.length < s.rest.length → q.IsWritable → t.IsSound →
      Yields (IsSoundWith Predicate.IsWritable) (later q t)) :
    Yields (IsSoundWith Predicate.IsWritable) (addMembers member later keyword join p s) := by
  rw [addMembers]
  split
  · exact yields_ok ⟨hp, h⟩
  · rename_i t hadvance
    apply (hmember t.1 t.2 (h.advanceIf hadvance)).bind
    rintro ⟨q, u, hu⟩ ⟨hq, hsound⟩
    have hu' : u.rest.length < s.rest.length := Nat.lt_trans hu t.2
    apply (hlater (join p q) u hu' (hjoin q hq) hsound).bind
    intro _ hlast
    exact yields_ok hlast

theorem Yields.closed (h : Yields (IsSoundWith Predicate.IsWritable) (readDisjunction s)) :
    Yields (IsSoundWith Predicate.IsWritable) (readClosed s) := by
  rw [readClosed]
  apply h.bind
  rintro ⟨p, t, ht⟩ ⟨hp, hsound⟩
  apply (yields_expect hsound _ _).bind
  intro _ hlast
  exact yields_ok ⟨hp, hlast⟩

theorem yields_negated (h : s.IsSound)
    (hinside : ∀ t, t.rest.length < s.rest.length → t.IsSound →
      Yields (IsSoundWith Predicate.IsWritable) (readDisjunction t)) :
    Yields (IsSoundWith Predicate.IsWritable) (readNegated s) := by
  rw [readNegated]
  split
  · rename_i t hparen
    apply (hinside t.1 t.2 (h.advanceIf hparen)).closed.bind
    intro _ hp
    exact yields_ok hp
  · apply (yields_attributeName h).bind
    intro _ hname
    exact yields_ok hname

theorem yields_unary (h : s.IsSound)
    (hinside : ∀ t, t.rest.length < s.rest.length → t.IsSound →
      Yields (IsSoundWith Predicate.IsWritable) (readDisjunction t)) :
    Yields (IsSoundWith Predicate.IsWritable) (readUnary s) := by
  rw [readUnary_eq]
  split
  · exact yields_error
  · split
    · rename_i t hbang
      have hnegated := yields_negated (h.advanceIf hbang) fun u hu => hinside u (Nat.lt_trans hu t.2)
      exact hnegated.within fun _ hu => Nat.lt_trans hu t.2
    · split
      · rename_i t hparen
        exact (hinside t.1 t.2 (h.advanceIf hparen)).closed.within fun _ hu => Nat.lt_trans hu t.2
      · exact yields_test h

/-- What the readers of predicates give can be written. -/
theorem yields_predicates :
    (∀ s : Input, s.IsSound → Yields (IsSoundWith Predicate.IsWritable) (readDisjunction s)) ∧
    (∀ (p : Predicate) (s : Input), p.IsWritable → s.IsSound →
      Yields (IsSoundWith Predicate.IsWritable) (readAlternatives p s)) ∧
    (∀ s : Input, s.IsSound → Yields (IsSoundWith Predicate.IsWritable) (readConjunction s)) ∧
    (∀ (p : Predicate) (s : Input), p.IsWritable → s.IsSound →
      Yields (IsSoundWith Predicate.IsWritable) (readFurther p s)) ∧
    (∀ s : Input, s.IsSound → Yields (IsSoundWith Predicate.IsWritable) (readUnary s)) := by
  apply predicates_induct
  case hdisjunction =>
    intro s hfirst hlater h
    rw [readDisjunction_eq]
    exact (hfirst h).members hlater
  case halternatives =>
    intro p s hmember hlater hp h
    rw [readAlternatives_eq]
    exact yields_addMembers (fun _ hq => ⟨hp, hq⟩) hp h hmember hlater
  case hconjunction =>
    intro s hfirst hlater h
    rw [readConjunction_eq]
    exact (hfirst h).members hlater
  case hfurther =>
    intro p s hmember hlater hp h
    rw [readFurther_eq]
    exact yields_addMembers (fun _ hq => ⟨hp, hq⟩) hp h hmember hlater
  case hunary =>
    intro s hinside h
    exact yields_unary h hinside

end Predicates

theorem isWritable_of_positionOf {word : String} {filter : PositionFilter}
    (h : positionOf? word = some filter) : filter.IsWritable := by
  unfold positionOf? at h
  split at h
  · split at h
    · rename_i hrange
      rw [← Option.some.inj h]
      exact hrange
    · cases h
  · cases h

theorem yields_position (h : s.IsSound) :
    Yields (fun r => ∀ x, r = some x → IsSoundWith PositionFilter.IsWritable x) (readPosition? s) := by
  have hnone : ∀ x, (none : Option (PositionFilter × s.After)) = some x →
      IsSoundWith PositionFilter.IsWritable x := nofun
  unfold readPosition?
  split
  · rename_i hrest
    split
    · split
      · rename_i hposition
        apply yields_ok
        rintro _ ⟨⟩
        exact ⟨isWritable_of_positionOf hposition, h.behind hrest _⟩
      · exact yields_error
    · split
      · rename_i tail hrest
        have htail : ∀ previous, Input.IsSound { s with previous, rest := tail } := by
          intro previous
          apply h.of_suffix
          rw [hrest]
          exact ⟨[_, _, _], rfl⟩
        dsimp only
        split
        · apply yields_ok
          rintro _ ⟨⟩
          exact ⟨trivial, htail _⟩
        · split
          · apply yields_ok
            rintro _ ⟨⟩
            exact ⟨trivial, htail _⟩
          · exact yields_ok hnone
      · exact yields_ok hnone
  · exact yields_ok hnone

/-- A condition that can be written. -/
def Condition.IsWritable : Condition → Prop
  | predicate p => p.IsWritable
  | reference name _ => IsWord name

/-- What may be read of the conditions and the filter of a step. -/
structure WritableConditions (conditions : List Condition) (filter : Option PositionFilter) : Prop where
  conditions : ∀ condition ∈ conditions, condition.IsWritable
  filter : ∀ f, filter = some f → f.IsWritable

theorem WritableConditions.cons {condition : Condition} {conditions : List Condition}
    {filter : Option PositionFilter} (h : WritableConditions conditions filter)
    (hcondition : condition.IsWritable) : WritableConditions (condition :: conditions) filter := by
  refine ⟨?_, h.filter⟩
  intro other hmem
  rcases List.mem_cons.1 hmem with rfl | hmem
  · exact hcondition
  · exact h.conditions other hmem

theorem quotable_of_isWord {word : String} (h : IsWord word) : Quotable word := by
  left
  intro hmem
  exact absurd (h.chars _ hmem) (by decide)

/-- The condition that an attribute has a word for its value. -/
theorem yields_compared (h : s.IsSound) {name : String} (hname : IsWord name) (what : Expectation) :
    Yields (IsSoundWith Condition.IsWritable)
      (s.expectWord what >>= fun r => pure (.predicate (.compare name .equal r.1), r.2)) := by
  apply (yields_expectWord h what).bind
  rintro _ ⟨hvalue, hsound⟩
  exact yields_ok ⟨⟨hname, quotable_of_isWord hvalue⟩, hsound⟩

/-- A condition in front of those that have been read. -/
theorem Yields.withCondition {Q Q' : Input → Prop}
    {result : Except SelectorError (List Condition × Option PositionFilter × { t : Input // Q t })}
    (h : Yields (fun r => WritableConditions r.1 r.2.1 ∧ r.2.2.1.IsSound) result) (condition : Condition)
    (hcondition : condition.IsWritable) (hweak : ∀ t, Q t → Q' t) :
    Yields (fun r => WritableConditions r.1 r.2.1 ∧ r.2.2.1.IsSound)
      (result >>= fun r =>
        pure (condition :: r.1, r.2.1, (⟨r.2.2.1, hweak _ r.2.2.2⟩ : { t : Input // Q' t }))) := by
  apply h.bind
  rintro _ ⟨hlater, hlast⟩
  exact yields_ok ⟨hlater.cons hcondition, hlast⟩

theorem yields_conditions (filter : Option PositionFilter) (h : s.IsSound)
    (hfilter : ∀ f, filter = some f → f.IsWritable) :
    Yields (fun r => WritableConditions r.1 r.2.1 ∧ r.2.2.1.IsSound) (readConditions filter s) := by
  obtain ⟨n, hlength⟩ : ∃ n, s.rest.length = n := ⟨_, rfl⟩
  induction n using Nat.strongRecOn generalizing filter s with
  | ind n ih =>
    have hnil : WritableConditions [] filter := ⟨by simp, hfilter⟩
    rw [readConditions]
    split
    · exact yields_ok ⟨hnil, h⟩
    · rename_i lexeme rest hrest
      have hbehind := h.behind hrest (some lexeme)
      have hshorter : rest.length < n := by
        rw [← hlength, hrest]
        exact Nat.lt_succ_self _
      dsimp only
      split
      · apply (yields_compared hbehind (by decide) _).bind
        rintro ⟨condition, u, hu⟩ ⟨hcondition, hsound⟩
        have hlater := ih _ (Nat.lt_trans hu hshorter) filter hsound hfilter rfl
        exact hlater.withCondition condition hcondition _
      · apply (yields_compared hbehind (by decide) _).bind
        rintro ⟨condition, u, hu⟩ ⟨hcondition, hsound⟩
        have hlater := ih _ (Nat.lt_trans hu hshorter) filter hsound hfilter rfl
        exact hlater.withCondition condition hcondition _
      · apply (yields_expectWord hbehind _).bind
        rintro ⟨name, u, hu⟩ ⟨hname, hsound⟩
        have hlater := ih _ (Nat.lt_trans hu hshorter) filter hsound hfilter rfl
        exact hlater.withCondition (.reference name lexeme.offset) hname _
      · apply (yields_position hbehind).bind
        intro position hposition
        split
        · rename_i found u hu
          obtain ⟨hfound, hsound⟩ := hposition _ rfl
          have hfilter' : ∀ f, some found = some f → f.IsWritable := by
            rintro _ ⟨⟩
            exact hfound
          split
          · exact yields_error
          · apply (yields_expect hsound _ _).bind
            rintro ⟨v, hv⟩ hclosed
            apply (ih _ (Nat.lt_trans hv (Nat.lt_trans hu hshorter)) _ hclosed hfilter' rfl).bind
            rintro _ ⟨hlater, hlast⟩
            exact yields_ok ⟨hlater, hlast⟩
        · apply (yields_predicates.1 _ hbehind).bind
          rintro ⟨p, u, hu⟩ ⟨hp, hsound⟩
          apply (yields_expect hsound _ _).bind
          rintro ⟨v, hv⟩ hclosed
          have hlater := ih _ (Nat.lt_trans hv (Nat.lt_trans hu hshorter)) filter hclosed hfilter rfl
          exact hlater.withCondition (.predicate p) hp _
      · exact yields_ok ⟨hnil, h⟩

/-- A node whose name, if it has one, is a word. -/
def NodeTest.IsWritable (node : NodeTest) : Prop := ∀ name, node = .named name → IsWord name

theorem yields_node (h : s.IsSound) : Yields (IsSoundWith NodeTest.IsWritable) (readNode s) := by
  have hany : NodeTest.any.IsWritable := nofun
  unfold readNode
  split
  · exact yields_error
  · rename_i lexeme rest hrest
    have hbehind := h.behind hrest (some lexeme)
    have hkind := h.head hrest
    dsimp only
    split
    · exact yields_ok ⟨hany, hbehind⟩
    · rename_i name hname
      rw [hname] at hkind
      split
      · rename_i u hu hparen
        split
        · exact yields_error
        · apply (yields_expect (hbehind.advanceIf hparen) _ _).bind
          intro v hsound
          exact yields_ok ⟨by simp [NodeTest.IsWritable], hsound⟩
      · apply yields_ok
        refine ⟨?_, hbehind⟩
        rintro _ ⟨⟩
        exact hkind
    · exact yields_ok ⟨hany, h⟩
    · exact yields_ok ⟨hany, h⟩
    · exact yields_ok ⟨hany, h⟩
    · exact yields_ok ⟨hany, h⟩
    · exact yields_error

/-- A step all parts of which can be written. -/
structure StepExpr.IsWritable (step : StepExpr) : Prop where
  node : step.node.IsWritable
  conditions : WritableConditions step.conditions step.filter

theorem yields_step (axis : Axis) (offset : Nat) (h : s.IsSound) :
    Yields (IsSoundWith StepExpr.IsWritable) (readStep axis offset s) := by
  rw [readStep]
  apply (yields_node h).bind
  rintro ⟨node, t, ht⟩ ⟨hnode, hsound⟩
  apply (yields_conditions none hsound (by simp)).bind
  rintro ⟨conditions, filter, u, hu⟩ ⟨hconditions, hlast⟩
  dsimp only
  split
  · exact yields_error
  · exact yields_ok ⟨⟨hnode, hconditions⟩, hlast⟩

theorem isSound_of_readAxis {axis : Axis} {t : s.After} (h : s.IsSound)
    (hread : readAxis? s = some (axis, t)) : t.1.IsSound := by
  unfold readAxis? at hread
  split at hread
  · rename_i hslash
    obtain ⟨-, rfl⟩ := Prod.mk.inj (Option.some.inj hread)
    exact h.advanceIf hslash
  · obtain ⟨u, hu, hpair⟩ := Option.map_eq_some_iff.1 hread
    obtain ⟨-, rfl⟩ := Prod.mk.inj hpair
    exact h.advanceIf hu

theorem yields_furtherSteps (h : s.IsSound) :
    Yields (IsSoundWith fun steps => ∀ step ∈ steps, StepExpr.IsWritable step) (readFurtherSteps s) := by
  induction s using readFurtherSteps.induct with
  | case1 s hnone =>
    rw [readFurtherSteps, hnone]
    exact yields_ok ⟨by simp, h⟩
  | case2 s axis t ht hsome ih =>
    rw [readFurtherSteps, hsome]
    apply (yields_step axis s.offset (isSound_of_readAxis h hsome)).bind
    rintro ⟨step, u, hu⟩ ⟨hstep, hsound⟩
    apply (ih u hu hsound).bind
    rintro _ ⟨hsteps, hlast⟩
    exact yields_ok ⟨List.forall_mem_cons.2 ⟨hstep, hsteps⟩, hlast⟩

theorem yields_firstStep (h : s.IsSound) : Yields (IsSoundWith StepExpr.IsWritable) (readFirstStep s) := by
  rw [readFirstStep]
  split
  · rename_i axis t ht hsome
    exact (yields_step axis s.offset (isSound_of_readAxis h hsome)).within _
  · exact yields_step _ _ h

/-- A path all steps of which can be written. -/
def PathExpr.IsWritable (path : PathExpr) : Prop := ∀ step ∈ path, step.IsWritable

theorem yields_path (h : s.IsSound) : Yields (IsSoundWith PathExpr.IsWritable) (readPath s) := by
  rw [readPath]
  apply (yields_firstStep h).bind
  rintro ⟨step, t, ht⟩ ⟨hstep, hsound⟩
  apply (yields_furtherSteps hsound).bind
  rintro ⟨steps, u, hu⟩ ⟨hsteps, hlast⟩
  dsimp only
  split
  · exact yields_error
  · exact yields_ok ⟨List.forall_mem_cons.2 ⟨hstep, hsteps⟩, hlast⟩

/-- There is a path, and all paths can be written. -/
structure WritablePaths (paths : List PathExpr) : Prop where
  ne_nil : paths ≠ []
  paths : ∀ path ∈ paths, PathExpr.IsWritable path

theorem yields_paths (h : s.IsSound) : Yields (IsSoundWith WritablePaths) (readPaths s) := by
  induction s using readPaths.induct with
  | case1 s ih =>
    rw [readPaths]
    apply (yields_path h).bind
    rintro ⟨path, t, ht⟩ ⟨hpath, hsound⟩
    dsimp only
    split
    · exact yields_ok ⟨⟨List.cons_ne_nil _ _, by simpa using hpath⟩, hsound⟩
    · rename_i u hu hbar
      apply (ih t ht u hu (hsound.advanceIf hbar)).bind
      rintro _ ⟨hpaths, hlast⟩
      exact yields_ok ⟨⟨List.cons_ne_nil _ _, List.forall_mem_cons.2 ⟨hpath, hpaths.paths⟩⟩, hlast⟩

theorem isSound_stripParens (h : s.IsSound) : s.stripParens.IsSound := by
  fun_induction stripParens s with
  | case1 | case3 | case4 => exact h
  | case2 s lexeme rest hrest _ last _ ih =>
    apply ih
    intro other hmem
    exact (h.behind hrest (some lexeme)) other (List.dropLast_subset rest hmem)

theorem yields_ofSource (source : String) : Yields Input.IsSound (Input.ofSource source) := by
  rw [Input.ofSource, Selector.lexemes]
  cases hall : (LexemeStream.ofSource source).all with
  | error e => exact yields_error
  | ok lexemes => exact yields_ok (LexemeStream.isSound_of_all hall)

theorem yields_parsePaths (source : String) : Yields WritablePaths (parsePaths source) := by
  rw [parsePaths]
  apply (yields_ofSource source).bind
  intro s hs
  apply (yields_paths (isSound_stripParens hs)).bind
  rintro ⟨paths, t, ht⟩ ⟨hpaths, -⟩
  dsimp only
  split
  · exact yields_ok hpaths
  · exact yields_error

theorem yields_parsePredicate (source : String) : Yields Predicate.IsWritable (parsePredicate source) := by
  rw [parsePredicate]
  apply (yields_ofSource source).bind
  intro s hs
  apply (yields_predicates.1 s hs).bind
  rintro ⟨p, t, ht⟩ ⟨hp, -⟩
  dsimp only
  split
  · exact yields_ok hp
  · exact yields_error

end Reading

section Compilation

theorem isWritable_isDeclared : FragmentAttribute.standard.isDeclared.IsWritable := by
  have hdata : FragmentAttribute.standard.dataName = "data-th-fragment" := by
    rw [← String.toList_inj]
    simp [FragmentAttribute.dataName, FragmentAttribute.standard]
  have hempty : Quotable "" := .inl (by decide)
  rw [FragmentAttribute.isDeclared, hdata]
  exact ⟨⟨by decide, hempty⟩, ⟨by decide, hempty⟩⟩

theorem isWritable_conjoinAll {found : Option Predicate} {conditions : List Condition}
    (hfound : ∀ p, found = some p → p.IsWritable) (h : ∀ condition ∈ conditions, condition.IsWritable) :
    ∀ p, conjoinAll found conditions = some p → p.IsWritable := by
  induction conditions generalizing found with
  | nil => exact hfound
  | cons condition conditions ih =>
    have hcondition : condition.unresolved.IsWritable := by
      cases condition with
      | predicate p => exact h _ List.mem_cons_self
      | reference name offset => exact isWritable_isDeclared
    apply ih _ fun other hmem => h other (List.mem_cons_of_mem _ hmem)
    rintro _ ⟨⟩
    cases found with
    | none => exact hcondition
    | some p => exact ⟨hfound p rfl, hcondition⟩

theorem StepExpr.IsWritable.toPlain {step : StepExpr} (h : step.IsWritable) (hformed : step.Formed) :
    step.toPlain.IsWritable where
  name := h.node
  predicate := isWritable_conjoinAll nofun h.conditions.conditions
  filter := h.conditions.filter
  pseudo := by
    intro hpseudo
    rw [StepExpr.toPlain, hformed hpseudo]
    rfl

theorem PathExpr.IsWritable.toPlain {path : PathExpr} (h : path.IsWritable) (hformed : path.Formed) :
    (PathExpr.toPlain path).IsWritable where
  ne_nil := by
    rw [PathExpr.toPlain, Ne, List.map_eq_nil_iff]
    exact hformed.ne_nil
  steps := by
    intro step hmem
    obtain ⟨expr, hexpr, rfl⟩ := List.mem_map.1 hmem
    exact (h expr hexpr).toPlain (hformed.steps expr hexpr)
  early := by
    intro step hmem
    rw [PathExpr.toPlain, ← List.map_dropLast] at hmem
    obtain ⟨expr, hexpr, rfl⟩ := List.mem_map.1 hmem
    exact hformed.early expr hexpr

/-- Whatever is compiled without a resolver consists of paths that can be written. -/
theorem exists_plain_of_compile {source : String} {dialect : Dialect} {s : Selector}
    (h : compile source dialect none = .ok s) :
    ∃ paths : List PlainPath, paths ≠ [] ∧ (∀ path ∈ paths, path.IsWritable) ∧
      s = ⟨source, dialect, paths.map PlainPath.toPath⟩ := by
  rw [compile_none] at h
  cases hparse : parsePaths source with
  | error e =>
    rw [hparse] at h
    cases h
  | ok exprs =>
    rw [hparse] at h
    obtain ⟨hne, hwritable⟩ := (yields_parsePaths source).of_ok exprs hparse
    have hformed := formed_parsePaths hparse
    refine ⟨exprs.map PathExpr.toPlain, ?_, ?_, ?_⟩
    · rwa [Ne, List.map_eq_nil_iff]
    · intro path hmem
      obtain ⟨expr, hexpr, rfl⟩ := List.mem_map.1 hmem
      exact (hwritable expr hexpr).toPlain (hformed expr hexpr)
    · rw [List.map_map, ← Except.ok.inj h]
      rfl

end Compilation

end MarkupStream.Selector
