import MarkupStream.Selector.Grammar

/-!
The shapes that the readers of predicates share. Disjunctions and conjunctions are members with a keyword
between them, and what is in parentheses is read alike with a bang in front and without. A property of the
readers is shown for each shape, and then by their recursion.
-/
namespace MarkupStream.Selector

open Lexeme Input

/-- The recursion of the readers. A reader goes on with shorter inputs, except that a disjunction begins with a
conjunction and a conjunction with a member. -/
theorem predicates_induct {disjunction conjunction unary : Input → Prop}
    {alternatives further : Predicate → Input → Prop}
    (hdisjunction : ∀ s, conjunction s →
      (∀ p t, t.rest.length < s.rest.length → alternatives p t) → disjunction s)
    (halternatives : ∀ p s, (∀ t, t.rest.length < s.rest.length → conjunction t) →
      (∀ q t, t.rest.length < s.rest.length → alternatives q t) → alternatives p s)
    (hconjunction : ∀ s, unary s → (∀ p t, t.rest.length < s.rest.length → further p t) → conjunction s)
    (hfurther : ∀ p s, (∀ t, t.rest.length < s.rest.length → unary t) →
      (∀ q t, t.rest.length < s.rest.length → further q t) → further p s)
    (hunary : ∀ s, (∀ t, t.rest.length < s.rest.length → disjunction t) → unary s) :
    (∀ s, disjunction s) ∧ (∀ p s, alternatives p s) ∧ (∀ s, conjunction s) ∧ (∀ p s, further p s) ∧
      ∀ s, unary s := by
  have hall : ∀ s, disjunction s ∧ (∀ p, alternatives p s) ∧ conjunction s ∧ (∀ p, further p s) ∧ unary s := by
    intro s
    obtain ⟨n, hlength⟩ : ∃ n, s.rest.length = n := ⟨_, rfl⟩
    induction n using Nat.strongRecOn generalizing s with
    | ind n ih =>
      have hshorter := fun (t : Input) (ht : t.rest.length < s.rest.length) => ih _ (hlength ▸ ht) t rfl
      have hinside : ∀ t, t.rest.length < s.rest.length → disjunction t :=
        fun t ht => (hshorter t ht).1
      have hor : ∀ p t, t.rest.length < s.rest.length → alternatives p t :=
        fun p t ht => (hshorter t ht).2.1 p
      have hbehindOr : ∀ t, t.rest.length < s.rest.length → conjunction t :=
        fun t ht => (hshorter t ht).2.2.1
      have hand : ∀ p t, t.rest.length < s.rest.length → further p t :=
        fun p t ht => (hshorter t ht).2.2.2.1 p
      have hbehindAnd : ∀ t, t.rest.length < s.rest.length → unary t :=
        fun t ht => (hshorter t ht).2.2.2.2
      have hmember : unary s := hunary s hinside
      have hfirst : conjunction s := hconjunction s hmember hand
      exact ⟨hdisjunction s hfirst hor, fun p => halternatives p s hbehindOr hor, hfirst,
        fun p => hfurther p s hbehindAnd hand, hmember⟩
  exact ⟨fun s => (hall s).1, fun p s => (hall s).2.1 p, fun s => (hall s).2.2.1,
    fun p s => (hall s).2.2.2.1 p, fun s => (hall s).2.2.2.2⟩

section Members

variable (member : (s : Input) → Except SelectorError (Predicate × s.After))
  (later : Predicate → (s : Input) → Except SelectorError (Predicate × s.Within))

/-- A member, and whatever is added to it. -/
def readMembers (s : Input) : Except SelectorError (Predicate × s.After) := do
  let first ← member s
  let all ← later first.1 first.2.1
  return (all.1, first.2.within all.2)

/-- Adds a member behind the keyword, and whatever follows it. -/
def addMembers (keyword : String) (join : Predicate → Predicate → Predicate) (p : Predicate) (s : Input) :
    Except SelectorError (Predicate × s.Within) :=
  match s.advanceIf (·.isKeyword keyword) with
  | none => return (p, s.unread)
  | some t => do
    let added ← member t.1
    let all ← later (join p added.1) added.2.1
    return (all.1, ((t.after added.2).within all.2).toWithin)

end Members

/-- A predicate behind an open parenthesis, up to the one that closes it. -/
def readClosed (s : Input) : Except SelectorError (Predicate × s.After) := do
  let inside ← readDisjunction s
  let last ← inside.2.1.expect .rightParen .closeParen
  return (inside.1, inside.2.after last)

/-- What is behind a bang. -/
def readNegated (s : Input) : Except SelectorError (Predicate × s.After) :=
  match s.advanceIf (· == .leftParen) with
  | some t => do
    let closed ← readClosed t.1
    return (.not closed.1, t.after closed.2)
  | none => do
    let name ← readAttributeName s
    return (.lacks name.1, name.2)

variable (p : Predicate) (s : Input)

theorem readDisjunction_eq : readDisjunction s = readMembers readConjunction readAlternatives s := by
  rw [readDisjunction]
  rfl

theorem readConjunction_eq : readConjunction s = readMembers readUnary readFurther s := by
  rw [readConjunction]
  rfl

theorem readAlternatives_eq :
    readAlternatives p s = addMembers readConjunction readAlternatives "or" .or p s := by
  rw [readAlternatives, addMembers]
  cases s.advanceIf (·.isKeyword "or") <;> rfl

theorem readFurther_eq : readFurther p s = addMembers readUnary readFurther "and" .and p s := by
  rw [readFurther, addMembers]
  cases s.advanceIf (·.isKeyword "and") <;> rfl

theorem readUnary_eq : readUnary s =
    if s.rest.isEmpty then .error (s.errorHere (.expected .predicate))
    else match s.advanceIf (· == .bang) with
      | some t => readNegated t.1 >>= fun negated => pure (negated.1, t.after negated.2)
      | none => match s.advanceIf (· == .leftParen) with
        | some t => readClosed t.1 >>= fun closed => pure (closed.1, t.after closed.2)
        | none => readTest s := by
  rw [readUnary]
  by_cases hempty : s.rest.isEmpty
  · rw [if_pos hempty, if_pos hempty]
    rfl
  · rw [if_neg hempty, if_neg hempty]
    dsimp only
    cases s.advanceIf (· == .bang) with
    | some t =>
      dsimp only [readNegated]
      cases t.1.advanceIf (· == .leftParen) <;> simp only [readClosed, bind_assoc, pure_bind] <;> rfl
    | none =>
      dsimp only
      cases s.advanceIf (· == .leftParen) with
      | some t =>
        simp only [readClosed, bind_assoc, pure_bind]
        rfl
      | none => rfl

end MarkupStream.Selector
