import MarkupStream.Proofs.Retracing
import MarkupStream.Proofs.Scanner
import MarkupStream.Selector.Parser

/-!
The parser goes through the lexemes that the readers are given. Its tokens are those before its index, the
lexemes that are left of the input, and the token where it stops, which is the end of the source or a
parenthesis. So every index is in range, and it reads the predicates that the readers read.
-/
namespace MarkupStream.Selector

open Lexeme Input

section Places

/-- The parser behind some tokens, with the lexemes of the input before the token where it stops. -/
def Input.parser (s : Input) (before : List Token) (last : Token) (after : List Token) : Parser :=
  ⟨s.source, before ++ (s.rest.map Lexeme.token ++ last :: after), before.length,
    before.length + s.rest.length⟩

/-- The tokens around the lexemes of an input. Where the parser stops at a parenthesis, this does not close one
that has just been opened. -/
structure Input.Stands (s : Input) (source : String) (before : List Token) (last : Token) : Prop where
  same : s.source = source
  previous : s.previous.map Lexeme.token = before.getLast?
  stop : last.offset = s.stop
  closes : last.kind = none ∨ last.kind = some .rightParen
  sealed : last.kind = some .rightParen → ∀ lexeme ∈ s.rest.getLast?, lexeme.kind ≠ .leftParen
  onBoundary : ∀ token ∈ before ++ (s.rest.map Lexeme.token ++ [last]), OnBoundary source token.offset

/-- The parser goes by indices where the input goes by what is left. -/
inductive Shows (source : String) : Parser → Input → Prop
  | mk {s : Input} {before : List Token} {last : Token} (after : List Token) : s.Stands source before last →
      Shows source (s.parser before last after) s

variable {source : String} {p : Parser} {s : Input} {lexeme : Lexeme} {rest : List Lexeme}

theorem parser_peek (s : Input) (before : List Token) (last : Token) (after : List Token) (ahead : Nat) :
    (s.parser before last after).peek ahead = pure ((s.rest.map Lexeme.token)[ahead]?.getD last) := by
  have hentry :
      (before ++ (s.rest.map Lexeme.token ++ last :: after))[before.length + min ahead s.rest.length]? =
      some ((s.rest.map Lexeme.token)[ahead]?.getD last) := by
    rw [List.getElem?_append_right (Nat.le_add_right _ _), Nat.add_sub_cancel_left]
    by_cases hahead : ahead < s.rest.length
    · rw [Nat.min_eq_left (Nat.le_of_lt hahead), List.getElem?_append_left (by simpa using hahead)]
      simp [hahead]
    · have hle : s.rest.length ≤ ahead := Nat.le_of_not_lt hahead
      rw [Nat.min_eq_right hle, List.getElem?_append_right (by simp)]
      simp [hle]
  simp only [Parser.peek, entryAt, Input.parser, Nat.add_min_add_left, hentry]

theorem Shows.source_eq (h : Shows source p s) : p.source = source ∧ s.source = source := by
  obtain ⟨after, hstands⟩ := h
  exact ⟨hstands.same, hstands.same⟩

theorem Shows.stop_eq (h : Shows source p s) : p.stop = p.index + s.rest.length := by
  obtain ⟨after, -⟩ := h
  rfl

theorem Shows.atEnd_eq (h : Shows source p s) : p.atEnd = s.rest.isEmpty := by
  have hstop := h.stop_eq
  rw [Parser.atEnd, Bool.eq_iff_iff, decide_eq_true_iff, List.isEmpty_iff_length_eq_zero]
  omega

theorem Shows.atEnd_cons (h : Shows source p s) (hrest : s.rest = lexeme :: rest) : p.atEnd = false := by
  rw [h.atEnd_eq, hrest, List.isEmpty_cons]

theorem Shows.atEnd_nil (h : Shows source p s) (hrest : s.rest = []) : p.atEnd = true := by
  rw [h.atEnd_eq, hrest, List.isEmpty_nil]

theorem Shows.current_cons (h : Shows source p s) (hrest : s.rest = lexeme :: rest) :
    p.current = pure lexeme.token := by
  obtain ⟨after, hstands⟩ := h
  rw [Parser.current, parser_peek, hrest]
  rfl

/-- At the end the parser looks at the token where it stops. -/
theorem Shows.exists_current (h : Shows source p s) (hrest : s.rest = []) :
    ∃ last, p.current = pure last ∧ last.offset = s.stop ∧
      (last.kind = none ∨ last.kind = some .rightParen) := by
  obtain ⟨after, hstands⟩ := h
  rw [Parser.current, parser_peek, hrest]
  exact ⟨_, rfl, hstands.stop, hstands.closes⟩

theorem Shows.exists_peek (h : Shows source p s) (ahead : Nat) :
    ∃ last, p.peek ahead = pure ((s.rest.map Lexeme.token)[ahead]?.getD last) ∧
      (last.kind = none ∨ last.kind = some .rightParen) ∧
      (last.kind = some .rightParen → ∀ lexeme ∈ s.rest.getLast?, lexeme.kind ≠ .leftParen) := by
  obtain ⟨after, hstands⟩ := h
  exact ⟨_, parser_peek _ _ _ _ _, hstands.closes, hstands.sealed⟩

/-- The next token begins where the input goes on. -/
theorem Shows.exists_offset (h : Shows source p s) :
    ∃ token, p.current = pure token ∧ token.offset = s.offset ∧ OnBoundary source token.offset := by
  obtain ⟨after, hstands⟩ := h
  rename_i before last
  rw [Parser.current, parser_peek]
  refine ⟨_, rfl, ?_, hstands.onBoundary _ ?_⟩
  · rw [Input.offset]
    cases s.rest with
    | nil => exact hstands.stop
    | cons => rfl
  · cases s.rest <;> simp

theorem Shows.advance (h : Shows source p s) (hrest : s.rest = lexeme :: rest) :
    Shows source p.advance { s with previous := some lexeme, rest } := by
  obtain ⟨after, hstands⟩ := h
  rename_i before last
  have hadvance : (s.parser before last after).advance =
      Input.parser { s with previous := some lexeme, rest } (before ++ [lexeme.token]) last after := by
    rw [Parser.advance, Input.parser, hrest, if_pos (by simp)]
    simp [Input.parser, Nat.add_assoc, Nat.add_comm 1]
  rw [hadvance]
  refine .mk after ⟨hstands.same, by simp, hstands.stop, hstands.closes, ?_, ?_⟩
  · intro hkind other hother
    apply hstands.sealed hkind
    rw [hrest, List.getLast?_cons, Option.mem_def.1 hother]
    rfl
  · have honBoundary := hstands.onBoundary
    rw [hrest] at honBoundary
    simpa using honBoundary

theorem Shows.onBoundary (h : Shows source p s) (hrest : s.rest = lexeme :: rest) :
    OnBoundary source lexeme.offset := by
  obtain ⟨after, hstands⟩ := h
  apply hstands.onBoundary lexeme.token
  simp [hrest]

theorem Shows.tracks_errorHere {α β : Type} {R : α → β → Prop} (h : Shows source p s) (flaw : SelectorFlaw) :
    Tracks source R (p.errorHere flaw) (.error (s.errorHere flaw)) := by
  rw [Parser.errorHere, h.atEnd_eq, h.source_eq.1, Input.errorHere, h.source_eq.2]
  cases hrest : s.rest with
  | cons lexeme rest =>
    rw [h.current_cons hrest, pure_bind]
    exact tracks_refuse (h.onBoundary hrest) _ _
  | nil =>
    obtain ⟨after, hstands⟩ := h
    rename_i before last
    have hprevious := hstands.previous
    cases hprev : s.previous with
    | none =>
      rw [hprev, Option.map_none] at hprevious
      obtain rfl := List.getLast?_eq_none_iff.1 hprevious.symm
      exact tracks_refuse (onBoundary_end source) _ _
    | some lexeme =>
      rw [hprev, Option.map_some] at hprevious
      obtain ⟨front, rfl⟩ := List.getLast?_eq_some_iff.1 hprevious.symm
      have hboundary : OnBoundary source lexeme.offset := by
        apply hstands.onBoundary lexeme.token
        simp
      have hminus : minus (s.parser (front ++ [lexeme.token]) last after).index 1 = pure front.length := by
        simp [minus, Input.parser]
      have hentry : entryAt (s.parser (front ++ [lexeme.token]) last after).tokens front.length =
          pure lexeme.token := by
        simp [entryAt, Input.parser]
      have hindex : (s.parser (front ++ [lexeme.token]) last after).index ≠ 0 := by
        simp [Input.parser]
      rw [List.isEmpty_nil, if_pos rfl, if_neg hindex, hminus, pure_bind, hentry, pure_bind]
      exact tracks_refuse hboundary _ _

/-- A token is accepted by its kind where the lexeme is, and the parser moves over it. -/
theorem Shows.cases_advanceIf (h : Shows source p s) (accepts : Lexeme.Kind → Bool) :
    (∃ t : s.After, s.advanceIf accepts = some t ∧ p.isAt accepts = pure true ∧ Shows source p.advance t.1) ∨
      s.advanceIf accepts = none ∧ p.isAt accepts = pure false := by
  rw [Parser.isAt]
  obtain ⟨text, previous, _ | ⟨lexeme, rest⟩, stop⟩ := s
  · obtain ⟨last, hcurrent, -⟩ := h.exists_current rfl
    rw [hcurrent, pure_bind, h.atEnd_nil rfl]
    exact .inr ⟨rfl, rfl⟩
  · rw [h.current_cons rfl, pure_bind, h.atEnd_cons rfl, Input.advanceIf]
    cases haccepts : accepts lexeme.kind with
    | true =>
      refine .inl ⟨⟨⟨text, some lexeme, rest, stop⟩, Nat.lt_succ_self _⟩, if_pos haccepts, ?_, h.advance rfl⟩
      simp [Lexeme.token, haccepts]
    | false => exact .inr ⟨if_neg (Bool.eq_false_iff.1 haccepts), by simp [Lexeme.token, haccepts]⟩

end Places

section Tokens

variable {source : String} {p : Parser} {s : Input}

/-- The same was read, which has a property, and the parser is where the readers are. -/
structure ReadWith {α : Type} {Q : Input → Prop} (source : String) (P : α → Prop) (a : α × Parser)
    (b : α × { t : Input // Q t }) : Prop where
  property : P b.1
  same : a.1 = b.1
  shows : Shows source a.2 b.2.1

abbrev Read {α : Type} {Q : Input → Prop} (source : String) (a : α × Parser)
    (b : α × { t : Input // Q t }) : Prop :=
  ReadWith source (fun _ => True) a b

theorem Shows.tracks_expect (h : Shows source p s) (kind : Lexeme.Kind) (what : Expectation) :
    Tracks source (fun p t => Shows source p t.1) (p.expect kind what) (s.expect kind what) := by
  rw [Parser.expect, Input.expect]
  rcases h.cases_advanceIf (· == kind) with ⟨t, hadvance, hat, hshows⟩ | ⟨hnone, hat⟩
  · rw [hadvance, hat, pure_bind, if_pos rfl]
    exact .ok hshows
  · rw [hnone, hat, pure_bind, if_neg Bool.false_ne_true]
    exact h.tracks_errorHere _

theorem Shows.tracks_expectWord (h : Shows source p s) (what : Expectation) :
    Tracks source (Read source) (p.expectWord what) (s.expectWord what) := by
  rw [Parser.expectWord]
  obtain ⟨text, previous, _ | ⟨⟨kind, offset, length⟩, rest⟩, stop⟩ := s
  · obtain ⟨last, hcurrent, -, hkind | hkind⟩ := h.exists_current rfl
    all_goals
      rw [hcurrent, pure_bind, hkind]
      exact h.tracks_errorHere _
  · rw [h.current_cons rfl, pure_bind]
    cases kind with
    | word text =>
      rw [h.atEnd_cons rfl]
      exact .ok ⟨trivial, rfl, h.advance rfl⟩
    | _ => exact h.tracks_errorHere _

/-- The same read, of whose remaining lexemes less is said. -/
theorem Tracks.within {α : Type} {P : α → Prop} {Q Q' : Input → Prop} {x : Outcome (α × Parser)}
    {r : Except SelectorError (α × { t : Input // Q t })} (h : Tracks source (ReadWith source P) x r)
    (hweak : ∀ t, Q t → Q' t) :
    Tracks source (ReadWith source P) x
      (r >>= fun b => pure (b.1, (⟨b.2.1, hweak _ b.2.2⟩ : { t : Input // Q' t }))) := by
  cases h with
  | ok hread => exact .ok ⟨hread.property, hread.same, hread.shows⟩
  | error hpoints => exact .error hpoints

end Tokens

section Predicates

variable {source : String} {p : Parser} {s : Input}

theorem Shows.tracks_attributeName (h : Shows source p s) :
    Tracks source (Read source) p.readAttributeName (readAttributeName s) := by
  rw [Parser.readAttributeName, readAttributeName]
  rcases h.cases_advanceIf (· == .atSign) with ⟨⟨t, ht⟩, hadvance, hat, hshows⟩ | ⟨hnone, hat⟩
  · rw [hadvance, hat, pure_bind, if_pos rfl]
    exact (hshows.tracks_expectWord _).within _
  · rw [hnone, hat, pure_bind, if_neg Bool.false_ne_true]
    exact h.tracks_expectWord _

theorem Shows.tracks_value (h : Shows source p s) :
    Tracks source (Read source) p.readValue (readValue s) := by
  rw [Parser.readValue]
  obtain ⟨text, previous, _ | ⟨lexeme, rest⟩, stop⟩ := s
  · obtain ⟨last, hcurrent, -, hkind | hkind⟩ := h.exists_current rfl
    all_goals
      rw [hcurrent, pure_bind, hkind]
      exact h.tracks_errorHere _
  · have hkind : lexeme.token.kind.bind valueOf? = valueOf? lexeme.kind := rfl
    rw [h.current_cons rfl, pure_bind, hkind, readValue]
    dsimp only
    cases valueOf? lexeme.kind with
    | none => exact h.tracks_errorHere _
    | some value =>
      rw [h.atEnd_cons rfl]
      exact .ok ⟨trivial, rfl, h.advance rfl⟩

theorem Shows.tracks_test (h : Shows source p s) : Tracks source (Read source) p.readTest (readTest s) := by
  rw [Parser.readTest, readTest]
  apply h.tracks_attributeName.bind
  rintro ⟨_, p'⟩ ⟨name, t, ht⟩ ⟨-, rfl, hshows⟩
  obtain ⟨text, previous, _ | ⟨lexeme, rest⟩, stop⟩ := t
  · dsimp only
    rw [hshows.atEnd_nil rfl, if_pos rfl]
    exact .ok ⟨trivial, rfl, hshows⟩
  · have hkind : lexeme.token.kind.bind comparisonOf? = comparisonOf? lexeme.kind := rfl
    dsimp only
    rw [hshows.atEnd_cons rfl, if_neg Bool.false_ne_true, hshows.current_cons rfl, pure_bind, hkind]
    cases comparisonOf? lexeme.kind with
    | none => exact .ok ⟨trivial, rfl, hshows⟩
    | some op =>
      apply (hshows.advance rfl).tracks_value.bind
      rintro ⟨_, p''⟩ ⟨value, u, hu⟩ ⟨-, rfl, hlast⟩
      exact .ok ⟨trivial, rfl, hlast⟩

theorem addOperands_of_true {keyword : String} {join : Predicate → Predicate → Predicate}
    {operand : Parser → Outcome (Predicate × Parser)} (hat : p.isAt (·.isKeyword keyword) = pure true)
    (q : Predicate) :
    Parser.addOperands keyword join operand q p = (do
      let (r, p') ← operand p.advance
      Parser.addOperands keyword join operand (join q r) p') := by
  rw [Parser.addOperands, rounds_eq]
  dsimp only
  rw [Parser.addOperand, hat, pure_bind, if_pos rfl, bind_assoc]
  rfl

theorem addOperands_of_false {keyword : String} {join : Predicate → Predicate → Predicate}
    {operand : Parser → Outcome (Predicate × Parser)} (hat : p.isAt (·.isKeyword keyword) = pure false)
    (q : Predicate) : Parser.addOperands keyword join operand q p = pure (q, p) := by
  apply rounds_of_last
  dsimp only
  rw [Parser.addOperand, hat]
  rfl

variable {keyword : String} {join : Predicate → Predicate → Predicate}
  {operand : Parser → Outcome (Predicate × Parser)}
  {member : (s : Input) → Except SelectorError (Predicate × s.After)}
  {later : Predicate → (s : Input) → Except SelectorError (Predicate × s.Within)}

theorem Tracks.members (hfirst : Tracks source (Read source) (operand p) (member s))
    (hlater : ∀ q t, t.rest.length < s.rest.length → ∀ p', Shows source p' t →
      Tracks source (Read source) (Parser.addOperands keyword join operand q p') (later q t)) :
    Tracks source (Read source) (Parser.readOperands keyword join operand p) (readMembers member later s) := by
  rw [Parser.readOperands, readMembers]
  apply hfirst.bind
  rintro ⟨q, p'⟩ ⟨_, t, ht⟩ ⟨-, rfl, hshows⟩
  exact (hlater q t ht p' hshows).within fun _ hu => Nat.lt_of_le_of_lt hu ht

theorem Shows.tracks_addMembers (h : Shows source p s) (q : Predicate)
    (hmember : ∀ t, t.rest.length < s.rest.length → ∀ p', Shows source p' t →
      Tracks source (Read source) (operand p') (member t))
    (hlater : ∀ q t, t.rest.length < s.rest.length → ∀ p', Shows source p' t →
      Tracks source (Read source) (Parser.addOperands keyword join operand q p') (later q t)) :
    Tracks source (Read source) (Parser.addOperands keyword join operand q p)
      (addMembers member later keyword join q s) := by
  rw [addMembers]
  rcases h.cases_advanceIf (·.isKeyword keyword) with ⟨⟨t, ht⟩, hadvance, hat, hshows⟩ | ⟨hnone, hat⟩
  · rw [addOperands_of_true hat, hadvance]
    apply (hmember t ht p.advance hshows).bind
    rintro ⟨r, p'⟩ ⟨_, u, hu⟩ ⟨-, rfl, hlast⟩
    have hu' : u.rest.length < s.rest.length := Nat.lt_trans hu ht
    exact (hlater (join q r) u hu' p' hlast).within fun _ hv => Nat.le_of_lt (Nat.lt_of_le_of_lt hv hu')
  · rw [addOperands_of_false hat, hnone]
    exact .ok ⟨trivial, rfl, h⟩

/-- What is read inside a pair of parentheses, which is then closed. -/
theorem Tracks.closed {Q : Input → Prop} {inside : Outcome (Predicate × Parser)}
    (h : Tracks source (Read source) inside (readDisjunction s)) (f : Predicate → Predicate)
    (hweak : ∀ t : Input, t.rest.length < s.rest.length → Q t) :
    Tracks source (Read source)
      (do
        let (q, p') ← inside
        let p' ← p'.expect .rightParen .closeParen
        return (f q, p'))
      (readClosed s >>= fun r => pure (f r.1, (⟨r.2.1, hweak _ r.2.2⟩ : { t : Input // Q t }))) := by
  rw [readClosed, bind_assoc]
  apply h.bind
  rintro ⟨q, p'⟩ ⟨_, t, ht⟩ ⟨-, rfl, hinside⟩
  dsimp only
  rw [bind_assoc]
  apply (hinside.tracks_expect .rightParen .closeParen).bind
  rintro p'' ⟨u, hu⟩ hlast
  exact .ok ⟨trivial, rfl, hlast⟩

/-- Each pair of parentheses takes a lexeme and a step of the depth. -/
theorem Shows.tracks_unary (h : Shows source p s) {depth : Nat} (hdepth : s.rest.length < depth)
    (hinside : ∀ t, t.rest.length < s.rest.length → ∀ depth p, t.rest.length < depth → Shows source p t →
      Tracks source (Read source) (Parser.readDisjunction (Parser.readUnary depth) p) (readDisjunction t)) :
    Tracks source (Read source) (Parser.readUnary depth p) (readUnary s) := by
  obtain ⟨depth, rfl⟩ := Nat.exists_eq_add_one_of_ne_zero (Nat.ne_zero_of_lt hdepth)
  rw [Parser.readUnary, readUnary_eq, h.atEnd_eq]
  split
  · exact h.tracks_errorHere _
  · rcases h.cases_advanceIf (· == .bang) with ⟨⟨t, ht⟩, hbang, hat, hshows⟩ | ⟨hbang, hat⟩
    · rw [hbang, hat, pure_bind, if_pos rfl]
      dsimp only [readNegated]
      rcases hshows.cases_advanceIf (· == .leftParen) with ⟨⟨u, hu⟩, hparen, hat, hlater⟩ | ⟨hparen, hat⟩
      · rw [hparen, hat, pure_bind, if_pos rfl, bind_assoc]
        have hu' : u.rest.length < s.rest.length := Nat.lt_trans hu ht
        exact (hinside u hu' depth _ (by omega) hlater).closed .not fun _ hv => Nat.lt_trans hv hu'
      · rw [hparen, hat, pure_bind, if_neg Bool.false_ne_true, bind_assoc]
        apply hshows.tracks_attributeName.bind
        rintro ⟨name, p'⟩ ⟨_, u, hu⟩ ⟨-, rfl, hlast⟩
        exact .ok ⟨trivial, rfl, hlast⟩
    · rw [hbang, hat, pure_bind, if_neg Bool.false_ne_true]
      dsimp only
      rcases h.cases_advanceIf (· == .leftParen) with ⟨⟨t, ht⟩, hparen, hat, hshows⟩ | ⟨hparen, hat⟩
      · rw [hparen, hat, pure_bind, if_pos rfl]
        exact (hinside t ht depth _ (by omega) hshows).closed id fun _ hu => Nat.lt_trans hu ht
      · rw [hparen, hat, pure_bind, if_neg Bool.false_ne_true]
        exact h.tracks_test

/-- The parser reads predicates as the readers do, if the depth is above the number of the lexemes. -/
theorem tracks_predicates (source : String) :
    (∀ s depth p, s.rest.length < depth → Shows source p s →
      Tracks source (Read source) (Parser.readDisjunction (Parser.readUnary depth) p) (readDisjunction s)) ∧
    (∀ q s depth p, s.rest.length < depth → Shows source p s →
      Tracks source (Read source)
        (Parser.addOperands "or" .or (Parser.readConjunction (Parser.readUnary depth)) q p)
        (readAlternatives q s)) ∧
    (∀ s depth p, s.rest.length < depth → Shows source p s →
      Tracks source (Read source) (Parser.readConjunction (Parser.readUnary depth) p) (readConjunction s)) ∧
    (∀ q s depth p, s.rest.length < depth → Shows source p s →
      Tracks source (Read source) (Parser.addOperands "and" .and (Parser.readUnary depth) q p)
        (readFurther q s)) ∧
    (∀ s depth p, s.rest.length < depth → Shows source p s →
      Tracks source (Read source) (Parser.readUnary depth p) (readUnary s)) := by
  apply predicates_induct
  case hdisjunction =>
    intro s hfirst hlater depth p hdepth h
    rw [readDisjunction_eq]
    exact (hfirst depth p hdepth h).members fun q t ht p' =>
      hlater q t ht depth p' (Nat.lt_trans ht hdepth)
  case halternatives =>
    intro q s hmember hlater depth p hdepth h
    rw [readAlternatives_eq]
    exact h.tracks_addMembers q (fun t ht p' => hmember t ht depth p' (Nat.lt_trans ht hdepth))
      fun r t ht p' => hlater r t ht depth p' (Nat.lt_trans ht hdepth)
  case hconjunction =>
    intro s hfirst hlater depth p hdepth h
    rw [readConjunction_eq]
    exact (hfirst depth p hdepth h).members fun q t ht p' =>
      hlater q t ht depth p' (Nat.lt_trans ht hdepth)
  case hfurther =>
    intro q s hmember hlater depth p hdepth h
    rw [readFurther_eq]
    exact h.tracks_addMembers q (fun t ht p' => hmember t ht depth p' (Nat.lt_trans ht hdepth))
      fun r t ht p' => hlater r t ht depth p' (Nat.lt_trans ht hdepth)
  case hunary =>
    intro s hinside depth p hdepth h
    exact h.tracks_unary hdepth hinside

/-- There are more tokens than lexemes, and so no predicate is nested too deep. -/
theorem Shows.tracks_predicate (h : Shows source p s) :
    Tracks source (Read source) p.readPredicate (readDisjunction s) := by
  have hdepth : s.rest.length < p.tokens.length := by
    obtain ⟨after, -⟩ := h
    simp only [Input.parser, List.length_append, List.length_map, List.length_cons]
    omega
  exact (tracks_predicates source).1 s p.tokens.length p hdepth h

end Predicates

end MarkupStream.Selector
