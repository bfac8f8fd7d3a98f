import MarkupStream.Proofs.Parser

/-!
The steps and paths that the parser reads. Its offsets of steps and references, at which errors are shown
later, are not inside a character.
-/
namespace MarkupStream.Selector

open Lexeme Input

section Steps

variable {source : String} {p : Parser} {s : Input}

/-- Empty parentheses are found among the lexemes that are left, or not at all. -/
theorem Shows.cases_isCall (h : Shows source p s) {lexeme : Lexeme} {rest : List Lexeme}
    (hrest : s.rest = lexeme :: rest) :
    (∃ opening opened closing closed left,
        rest = ⟨.leftParen, opening, opened⟩ :: ⟨.rightParen, closing, closed⟩ :: left ∧ p.isCall = pure true) ∨
      (∀ tail, rest.map (·.kind) ≠ .leftParen :: .rightParen :: tail) ∧ p.isCall = pure false := by
  obtain ⟨last, hfirst, hcloses, hsealed⟩ := h.exists_peek 1
  obtain ⟨last', hsecond, hcloses', hsealed'⟩ := h.exists_peek 2
  rw [hrest] at hfirst hsecond hsealed'
  rw [Parser.isCall, hfirst, pure_bind]
  match rest with
  | [] =>
    right
    refine ⟨nofun, ?_⟩
    rcases hcloses with hkind | hkind <;> simp [hkind]
  | ⟨kind, opening, opened⟩ :: rest =>
    by_cases hopening : kind = .leftParen
    · subst hopening
      rw [if_pos (by rfl), hsecond, pure_bind]
      match rest with
      | [] =>
        right
        refine ⟨by simp, ?_⟩
        -- The parser stops right behind the parenthesis, and where it stops nothing closes this one.
        rcases hcloses' with hkind | hkind
        · simp [hkind]
        · exact absurd rfl (hsealed' hkind _ rfl)
      | ⟨kind, closing, closed⟩ :: left =>
        by_cases hclosing : kind = .rightParen
        · subst hclosing
          exact .inl ⟨_, _, _, _, _, rfl, rfl⟩
        · refine .inr ⟨by simp [hclosing], congrArg pure (beq_eq_false_iff_ne.2 ?_)⟩
          exact fun hkind => hclosing (Option.some.inj hkind)
    · exact .inr ⟨by simp [hopening], by simp [Lexeme.token, hopening]⟩

/-- The same position was found, and it is behind the tokens that were counted. -/
inductive ReadPosition {Q : Input → Prop} (source : String) (p : Parser) :
    Option (PositionFilter × Nat) → Option (PositionFilter × { t : Input // Q t }) → Prop
  | none : ReadPosition source p none none
  | some {filter : PositionFilter} {count : Nat} {t : { t : Input // Q t }} : Shows source (p.skip count) t.1 →
      ReadPosition source p (some (filter, count)) (some (filter, t))

theorem Shows.tracks_position (h : Shows source p s) :
    Tracks source (ReadPosition source p) p.readPosition? (readPosition? s) := by
  rw [Parser.readPosition?]
  obtain ⟨text, previous, _ | ⟨⟨kind, offset, length⟩, rest⟩, stop⟩ := s
  · obtain ⟨last, hcurrent, -, hkind | hkind⟩ := h.exists_current rfl
    all_goals
      rw [hcurrent, pure_bind, hkind]
      exact .ok .none
  · rw [h.current_cons rfl, pure_bind]
    cases kind with
    | word word =>
      dsimp only [Lexeme.token]
      by_cases hdigits : word.toList.all Char.isDigit
      · rw [readPosition?, if_pos hdigits]
        dsimp only
        rw [if_pos hdigits]
        cases positionOf? word with
        | some filter => exact .ok (.some (h.advance rfl))
        | none =>
          obtain ⟨hsource, rfl⟩ := h.source_eq
          rw [hsource]
          exact tracks_refuse (h.onBoundary rfl) _ _
      · rw [if_neg hdigits]
        rcases h.cases_isCall rfl with ⟨_, _, _, _, left, rfl, hcall⟩ | ⟨hno, hcall⟩
        · have hshows := ((h.advance rfl).advance rfl).advance rfl
          rw [hcall, pure_bind, if_pos rfl, readPosition?]
          dsimp only
          rw [if_neg hdigits]
          by_cases heven : word = "even"
          · rw [if_pos (.inl heven), if_pos heven, if_pos heven]
            exact .ok (.some hshows)
          · rw [if_neg heven, if_neg heven]
            by_cases hodd : word = "odd"
            · rw [if_pos (.inr hodd), if_pos hodd]
              exact .ok (.some hshows)
            · rw [if_neg (by simp [heven, hodd]), if_neg hodd]
              exact .ok .none
        · rw [readPosition_of_not_call hdigits hno, hcall, pure_bind, if_neg Bool.false_ne_true]
          split <;> exact .ok .none
    | _ => exact .ok .none

/-- A reference whose sign is not inside a character of the source. -/
def Condition.IsPlaced (source : String) : Condition → Prop
  | predicate _ => True
  | reference _ place => OnBoundary source place

/-- The same conditions were read, and added to those that had been found, and the same filter. -/
structure ReadConditions {Q : Input → Prop} (source : String) (found : List Condition)
    (a : List Condition × Option PositionFilter × Parser)
    (b : List Condition × Option PositionFilter × { t : Input // Q t }) : Prop where
  conditions : a.1 = found ++ b.1
  placed : ∀ condition ∈ b.1, condition.IsPlaced source
  filter : a.2.1 = b.2.1
  shows : Shows source a.2.2 b.2.2.1

/-- The condition that was found last is in front of those that are read. -/
theorem Tracks.withCondition {Q Q' : Input → Prop} {found : List Condition} {condition : Condition}
    {x : Outcome (List Condition × Option PositionFilter × Parser)}
    {r : Except SelectorError (List Condition × Option PositionFilter × { t : Input // Q t })}
    (h : Tracks source (ReadConditions source (found ++ [condition])) x r)
    (hplaced : condition.IsPlaced source) (hweak : ∀ t, Q t → Q' t) :
    Tracks source (ReadConditions source found) x
      (r >>= fun b =>
        pure (condition :: b.1, b.2.1, (⟨b.2.2.1, hweak _ b.2.2.2⟩ : { t : Input // Q' t }))) := by
  apply h.followed
  rintro a b ⟨hconditions, hlater, hfilter, hshows⟩
  rw [List.append_assoc] at hconditions
  exact .ok ⟨hconditions, List.forall_mem_cons.2 ⟨hplaced, hlater⟩, hfilter, hshows⟩

theorem Shows.tracks_compared (h : Shows source p s) (name : String) (what : Expectation) :
    Tracks source (ReadWith source (Condition.IsPlaced source)) (p.readCompared name what)
      (s.expectWord what >>= fun r => pure (Condition.predicate (.compare name .equal r.1), r.2)) := by
  apply (h.tracks_expectWord what).bind
  rintro ⟨value, p'⟩ ⟨_, t, ht⟩ ⟨-, rfl, hshows⟩
  exact .ok ⟨trivial, rfl, hshows⟩

theorem tracks_conditions (found : List Condition) (filter : Option PositionFilter) (h : Shows source p s) :
    Tracks source (ReadConditions source found) (p.addConditions found filter) (readConditions filter s) := by
  obtain ⟨n, hlength⟩ : ∃ n, s.rest.length = n := ⟨_, rfl⟩
  -- Every round but the last takes a lexeme, and what it finds is added to what had been found.
  induction n using Nat.strongRecOn generalizing found filter p s with
  | ind n ih =>
    have hnil : Tracks source (ReadConditions source found) (pure (found, filter, p))
        (.ok (([], filter, ⟨s, Nat.le_refl _⟩) : List Condition × Option PositionFilter × s.Within)) :=
      .ok ⟨(List.append_nil found).symm, by simp, rfl, h⟩
    rw [Parser.addConditions, rounds_eq]
    dsimp only
    rw [Parser.addCondition]
    unfold readConditions
    obtain ⟨text, previous, _ | ⟨⟨kind, offset, length⟩, rest⟩, stop⟩ := s
    · rw [h.atEnd_nil rfl, if_pos rfl]
      exact hnil
    · have hshorter : rest.length < n := hlength ▸ Nat.lt_succ_self _
      have hbehind := h.advance rfl
      rw [h.atEnd_cons rfl, if_neg Bool.false_ne_true, h.current_cons rfl, pure_bind]
      cases kind with
      | dot | hash =>
        dsimp only [Lexeme.token]
        rw [bind_assoc]
        apply (hbehind.tracks_compared _ _).bind
        rintro ⟨condition, p'⟩ ⟨_, u, hu⟩ ⟨hplaced, rfl, hshows⟩
        have hlater := ih _ (Nat.lt_trans hu hshorter) (found ++ [condition]) filter hshows rfl
        exact hlater.withCondition hplaced _
      | percent =>
        dsimp only [Lexeme.token]
        rw [bind_assoc]
        apply (hbehind.tracks_expectWord _).bind
        rintro ⟨name, p'⟩ ⟨_, u, hu⟩ ⟨-, rfl, hshows⟩
        have hlater := ih _ (Nat.lt_trans hu hshorter) (found ++ [.reference name offset]) filter hshows rfl
        exact hlater.withCondition (h.onBoundary rfl) _
      | leftBracket =>
        dsimp only [Lexeme.token]
        rw [Parser.readBracket, bind_assoc, bind_assoc]
        apply hbehind.tracks_position.bind
        rintro _ _ (_ | @⟨position, count, u, hshows⟩)
        · rw [bind_assoc]
          apply hbehind.tracks_predicate.bind
          rintro ⟨q, p'⟩ ⟨_, u, hu⟩ ⟨-, rfl, hshows⟩
          rw [pure_bind, bind_assoc]
          apply (hshows.tracks_expect _ _).bind
          rintro p'' ⟨v, hv⟩ hclosed
          have hlater :=
            ih _ (Nat.lt_trans hv (Nat.lt_trans hu hshorter)) (found ++ [.predicate q]) filter hclosed rfl
          exact hlater.withCondition trivial _
        · obtain ⟨hsource, htext⟩ := hbehind.source_eq
          have hrefuse := tracks_refuse
            (R := fun (_ : List Condition × Option PositionFilter × Parser) (_ : Unit) => False)
            (h.onBoundary rfl) 1 .repeatedPosition
          dsimp only at htext ⊢
          by_cases hfilter : filter.isSome
          · rw [if_pos hfilter, if_pos hfilter, hsource, htext]
            exact hrefuse.bind_error _
          · rw [if_neg hfilter, if_neg hfilter, pure_bind, bind_assoc]
            apply (hshows.tracks_expect _ _).bind
            rintro p' ⟨v, hv⟩ hclosed
            have hlater :=
              ih _ (Nat.lt_trans hv (Nat.lt_trans u.2 hshorter)) found (some position) hclosed rfl
            rw [pure_bind]
            dsimp only
            rw [List.append_nil]
            apply hlater.followed
            rintro a b ⟨hconditions, hplaced, hlast, hlater⟩
            exact .ok ⟨hconditions, hplaced, hlast, hlater⟩
      | _ => exact hnil

theorem pure_inj {α : Type} {a b : α} (h : (pure a : Outcome α) = pure b) : a = b :=
  Except.ok.inj (Option.some.inj h)

/-- The kind of the next token tells whether a lexeme of this kind is next, as no parser stops at one. -/
theorem Shows.exists_isAt (h : Shows source p s) (kind : Lexeme.Kind) (hkind : kind ≠ .rightParen) :
    ∃ token, p.current = pure token ∧ p.isAt (· == kind) = pure (token.kind == some kind) := by
  rw [Parser.isAt, h.atEnd_eq]
  cases hrest : s.rest with
  | nil =>
    obtain ⟨last, hcurrent, -, hlast⟩ := h.exists_current hrest
    refine ⟨last, hcurrent, ?_⟩
    have hne : (Lexeme.Kind.rightParen == kind) = false := beq_eq_false_iff_ne.2 hkind.symm
    rw [hcurrent, pure_bind]
    rcases hlast with hlast | hlast <;> simp [hlast, hne]
  | cons lexeme rest =>
    refine ⟨_, h.current_cons hrest, ?_⟩
    rw [h.current_cons hrest, pure_bind]
    rfl

theorem Shows.peek_one (h : Shows source p s) {lexeme : Lexeme} {rest : List Lexeme}
    (hrest : s.rest = lexeme :: rest) : p.peek 1 = p.advance.current := by
  have hlt : p.index < p.stop := by
    simpa [Parser.atEnd] using h.atEnd_cons hrest
  rw [Parser.current, Parser.peek, Parser.peek, Parser.advance, if_pos hlt]

theorem Shows.tracks_node (h : Shows source p s) : Tracks source (Read source) p.readNode (readNode s) := by
  rw [Parser.readNode]
  unfold readNode
  obtain ⟨text, previous, _ | ⟨⟨kind, offset, length⟩, rest⟩, stop⟩ := s
  · obtain ⟨last, hcurrent, -⟩ := h.exists_current rfl
    rw [hcurrent, pure_bind, h.atEnd_nil rfl, if_pos rfl]
    exact h.tracks_errorHere _
  · have hbehind := h.advance rfl
    rw [h.current_cons rfl, pure_bind, h.atEnd_cons rfl, if_neg Bool.false_ne_true]
    cases kind with
    | star => exact .ok ⟨trivial, rfl, hbehind⟩
    | word name =>
      obtain ⟨token, hcurrent, hkind⟩ := hbehind.exists_isAt .leftParen (by decide)
      dsimp only [Lexeme.token]
      rw [h.peek_one rfl, hcurrent, pure_bind]
      rcases hbehind.cases_advanceIf (· == .leftParen) with ⟨⟨u, hu⟩, hparen, hat, hshows⟩ | ⟨hparen, hat⟩
      · have htrue := pure_inj (hkind.symm.trans hat)
        dsimp only at hparen
        rw [hparen, if_pos htrue]
        dsimp only
        cases PseudoNode.ofName? name with
        | none =>
          obtain ⟨hsource, rfl⟩ := h.source_eq
          dsimp only
          rw [hsource]
          exact tracks_refuse (h.onBoundary rfl) _ _
        | some q =>
          apply (hshows.tracks_expect _ _).bind
          rintro p' ⟨v, hv⟩ hlast
          exact .ok ⟨trivial, rfl, hlast⟩
      · have hfalse := pure_inj (hkind.symm.trans hat)
        dsimp only at hparen
        rw [hparen, if_neg (Bool.eq_false_iff.1 hfalse)]
        exact .ok ⟨trivial, rfl, hbehind⟩
    | dot | hash | percent | leftBracket => exact .ok ⟨trivial, rfl, h⟩
    | _ => exact h.tracks_errorHere _

/-- A step whose offset, like those of its references, is not inside a character of the source. -/
structure StepExpr.IsPlaced (source : String) (step : StepExpr) : Prop where
  onBoundary : OnBoundary source step.offset
  conditions : ∀ condition ∈ step.conditions, condition.IsPlaced source

/-- A path of steps that are placed. -/
def PathExpr.IsPlaced (source : String) (path : PathExpr) : Prop := ∀ step ∈ path, step.IsPlaced source

theorem Shows.tracks_behindAxis (h : Shows source p s) (axis : Axis) {offset : Nat}
    (hoffset : OnBoundary source offset) :
    Tracks source (ReadWith source (StepExpr.IsPlaced source)) (p.readBehindAxis axis offset)
      (readStep axis offset s) := by
  obtain ⟨token, hcurrent, hstart, hboundary⟩ := h.exists_offset
  rw [Parser.readBehindAxis, readStep, hcurrent, pure_bind, hstart]
  rw [hstart] at hboundary
  apply h.tracks_node.bind
  rintro ⟨node, p'⟩ ⟨_, t, ht⟩ ⟨-, rfl, hshows⟩
  apply (tracks_conditions [] none hshows).bind
  rintro ⟨conditions, filter, p''⟩ ⟨_, _, u, hu⟩ ⟨rfl, hplaced, rfl, hlast⟩
  obtain ⟨token', hcurrent', hstop, -⟩ := hlast.exists_offset
  have hsource : p''.source = source ∧ s.source = source := ⟨hlast.source_eq.1, h.source_eq.2⟩
  dsimp only
  split
  · rw [hcurrent', pure_bind, hsource.1, hsource.2, hstop]
    exact tracks_refuse hboundary _ _
  · exact .ok ⟨⟨hoffset, hplaced⟩, rfl, hlast⟩

/-- An axis is next where the readers find one. -/
theorem Shows.cases_axis (h : Shows source p s) :
    (∃ axis t, readAxis? s = some (axis, t) ∧ (∀ first, p.readAxis first = pure (axis, p.advance)) ∧
        p.isAt (fun kind => kind == .slash || kind == .doubleSlash) = pure true ∧ Shows source p.advance t.1) ∨
      readAxis? s = none ∧ p.readAxis true = pure (.descendant, p) ∧
        p.isAt (fun kind => kind == .slash || kind == .doubleSlash) = pure false := by
  have heither : ∀ {b c : Bool}, p.isAt (· == .slash) = pure b → p.isAt (· == .doubleSlash) = pure c →
      p.isAt (fun kind => kind == .slash || kind == .doubleSlash) = pure (b || c) := by
    obtain ⟨token, hcurrent, -⟩ := h.exists_offset
    intro b c hslash hdouble
    rw [Parser.isAt, hcurrent, pure_bind] at hslash hdouble ⊢
    rw [← pure_inj hslash, ← pure_inj hdouble]
    cases p.atEnd <;> cases token.kind <;> rfl
  rcases h.cases_advanceIf (· == .slash) with ⟨t, hslash, hat, hshows⟩ | ⟨hslash, hat⟩
  · obtain ⟨token, hcurrent, -⟩ := h.exists_offset
    have hdouble : ∃ c, p.isAt (· == .doubleSlash) = pure c := by
      rw [Parser.isAt, hcurrent, pure_bind]
      exact ⟨_, rfl⟩
    obtain ⟨c, hdouble⟩ := hdouble
    refine .inl ⟨.child, t, by rw [readAxis?, hslash], ?_, heither hat hdouble, hshows⟩
    intro first
    rw [Parser.readAxis, hat, pure_bind, if_pos rfl]
  · rcases h.cases_advanceIf (· == .doubleSlash) with ⟨t, hdouble, hat', hshows⟩ | ⟨hdouble, hat'⟩
    · refine .inl ⟨.descendant, t, by rw [readAxis?, hslash, hdouble]; rfl, ?_, heither hat hat', hshows⟩
      intro first
      rw [Parser.readAxis, hat, pure_bind, if_neg Bool.false_ne_true, hat', pure_bind, if_pos rfl]
    · refine .inr ⟨by rw [readAxis?, hslash, hdouble]; rfl, ?_, heither hat hat'⟩
      rw [Parser.readAxis, hat, pure_bind, if_neg Bool.false_ne_true, hat', pure_bind,
        if_neg Bool.false_ne_true, if_pos rfl]

/-- The same was read, and added to what had been found, with a property of each piece, and the parser is where
the readers are. -/
structure ReadMore {α : Type} {Q : Input → Prop} (source : String) (P : α → Prop) (found : List α)
    (a : List α × Parser) (b : List α × { t : Input // Q t }) : Prop where
  property : ∀ piece ∈ b.1, P piece
  same : a.1 = found ++ b.1
  shows : Shows source a.2 b.2.1

theorem Shows.tracks_addSteps (h : Shows source p s) (found : List StepExpr) :
    Tracks source (ReadMore source (StepExpr.IsPlaced source) found) (p.addSteps found)
      (readFurtherSteps s) := by
  induction s using readFurtherSteps.induct generalizing p found with
  | case1 s hnone =>
    obtain ⟨axis, t, hsome, -⟩ | ⟨-, -, hat⟩ := h.cases_axis
    · cases hnone.symm.trans hsome
    · have hround : p.addStep found = pure (.last (found, p)) := by
        rw [Parser.addStep, hat]
        rfl
      rw [Parser.addSteps, rounds_of_last hround, readFurtherSteps, hnone]
      exact .ok ⟨by simp, (List.append_nil found).symm, h⟩
  | case2 s axis t ht hsome ih =>
    obtain ⟨axis', t', hsome', haxis, hat, hshows⟩ | ⟨hnone, -⟩ := h.cases_axis
    · obtain ⟨rfl, rfl⟩ := Prod.mk.inj (Option.some.inj (hsome.symm.trans hsome'))
      obtain ⟨token, hcurrent, hoffset, hboundary⟩ := h.exists_offset
      rw [hoffset] at hboundary
      rw [Parser.addSteps, rounds_eq]
      dsimp only
      rw [Parser.addStep, readFurtherSteps, hsome, hat, pure_bind, if_pos rfl, Parser.readStep, hcurrent,
        pure_bind, haxis, pure_bind, hoffset, bind_assoc]
      apply (hshows.tracks_behindAxis axis hboundary).bind
      rintro ⟨step, p'⟩ ⟨_, u, hu⟩ ⟨hplaced, rfl, hlast⟩
      have hlater := ih u hu hlast (found ++ [step])
      apply hlater.followed
      rintro a ⟨steps, v, hv⟩ ⟨hrest, hsame, hend⟩
      rw [List.append_assoc] at hsame
      exact .ok ⟨List.forall_mem_cons.2 ⟨hplaced, hrest⟩, hsame, hend⟩
    · cases hnone.symm.trans hsome

theorem Shows.tracks_firstStep (h : Shows source p s) :
    Tracks source (ReadWith source (StepExpr.IsPlaced source)) (p.readStep true) (readFirstStep s) := by
  obtain ⟨token, hcurrent, hoffset, hboundary⟩ := h.exists_offset
  rw [hoffset] at hboundary
  rw [Parser.readStep, readFirstStep, hcurrent, pure_bind, hoffset]
  obtain ⟨axis, ⟨t, ht⟩, hsome, haxis, -, hshows⟩ | ⟨hnone, haxis, -⟩ := h.cases_axis
  · rw [hsome, haxis, pure_bind]
    exact (hshows.tracks_behindAxis axis hboundary).within _
  · rw [hnone, haxis, pure_bind]
    exact h.tracks_behindAxis .descendant hboundary

theorem Shows.tracks_path (h : Shows source p s) :
    Tracks source (ReadWith source (PathExpr.IsPlaced source)) p.readPath (readPath s) := by
  rw [Parser.readPath, readPath]
  apply h.tracks_firstStep.bind
  rintro ⟨step, p'⟩ ⟨_, t, ht⟩ ⟨hplaced, rfl, hshows⟩
  apply (hshows.tracks_addSteps [step]).bind
  rintro ⟨_, p''⟩ ⟨steps, u, hu⟩ ⟨hrest, rfl, hlast⟩
  have hpath : PathExpr.IsPlaced source (step :: steps) := List.forall_mem_cons.2 ⟨hplaced, hrest⟩
  have hlength : minus (step :: steps).length 1 = pure steps.length := by
    rw [minus, if_pos (by simp)]
    rfl
  have hearly : entriesBetween (step :: steps) 0 steps.length = pure (step :: steps).dropLast := by
    rw [entriesBetween, if_pos (by simp), List.dropLast_eq_take]
    rfl
  dsimp only
  rw [List.singleton_append, hlength, pure_bind, hearly, pure_bind]
  cases hfind : (step :: steps).dropLast.find? (·.node.isPseudo) with
  | none => exact .ok ⟨hpath, rfl, hlast⟩
  | some early =>
    have hmem : early ∈ step :: steps := List.dropLast_subset _ (List.mem_of_find?_eq_some hfind)
    have hsource : p''.source = source ∧ s.source = source := ⟨hlast.source_eq.1, h.source_eq.2⟩
    dsimp only
    rw [hsource.1, hsource.2]
    exact tracks_refuse (hpath early hmem).onBoundary _ _

theorem Shows.tracks_addPaths (h : Shows source p s) (found : List PathExpr) :
    Tracks source (ReadMore source (PathExpr.IsPlaced source) found) (p.addPaths found) (readPaths s) := by
  induction s using readPaths.induct generalizing p found with
  | case1 s ih =>
    rw [Parser.addPaths, rounds_eq]
    dsimp only
    rw [Parser.addPath, readPaths, bind_assoc]
    apply h.tracks_path.bind
    rintro ⟨path, p'⟩ ⟨_, t, ht⟩ ⟨hpath, rfl, hshows⟩
    obtain ⟨token, hcurrent, hkind⟩ := hshows.exists_isAt .doublePipe (by decide)
    dsimp only
    rw [hcurrent, pure_bind]
    rcases hshows.cases_advanceIf (· == .doublePipe) with ⟨⟨u, hu⟩, hbar, hat, hbehind⟩ | ⟨hbar, hat⟩
    · have htrue := pure_inj (hkind.symm.trans hat)
      have hlater := ih t ht u hu hbehind (found ++ [path])
      rw [hbar, if_pos htrue]
      apply hlater.followed
      rintro a ⟨paths, v, hv⟩ ⟨hpaths, hsame, hlast⟩
      rw [List.append_assoc] at hsame
      exact .ok ⟨List.forall_mem_cons.2 ⟨hpath, hpaths⟩, hsame, hlast⟩
    · have hfalse := pure_inj (hkind.symm.trans hat)
      rw [hbar, if_neg (Bool.eq_false_iff.1 hfalse)]
      exact .ok ⟨List.forall_mem_singleton.2 hpath, rfl, hshows⟩

end Steps

end MarkupStream.Selector
