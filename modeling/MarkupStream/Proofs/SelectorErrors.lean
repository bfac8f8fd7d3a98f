import MarkupStream.Proofs.ParserSteps

/-!
Errors of selectors. A parser that has dropped the parentheses around everything is still where the readers
are, and so compilation by positions never leaves the source or its tokens. Every error points into the source.
-/
namespace MarkupStream.Selector

open Lexeme Input

section Parentheses

variable {source : String} {p : Parser} {s : Input}

/-- Behind the first parenthesis the depth is never zero, and so it does not go below. -/
theorem closingIndex?_eq (lexemes : List Lexeme) {depth : Nat} (hdepth : 1 ≤ depth) (index : Nat) :
    Parser.closingIndex? depth index (lexemes.map Lexeme.token) =
      pure ((Input.closingIndex? depth lexemes).map (index + ·)) := by
  induction lexemes generalizing depth index with
  | nil => rfl
  | cons lexeme lexemes ih =>
    obtain ⟨kind, offset, length⟩ := lexeme
    have hmap : ∀ depth', (Input.closingIndex? depth' lexemes).map (index + 1 + ·) =
        ((Input.closingIndex? depth' lexemes).map (· + 1)).map (index + ·) := by
      intro depth'
      rw [Option.map_map]
      congr 1
      funext i
      exact Nat.add_right_comm index 1 i |>.trans (Nat.add_assoc index i 1)
    cases kind with
    | leftParen => exact (ih (Nat.le_succ_of_le hdepth) (index + 1)).trans (congrArg pure (hmap _))
    | rightParen =>
      rw [List.map_cons, Parser.closingIndex?]
      dsimp only [Lexeme.token]
      rw [minus, if_pos hdepth, pure_bind, Input.closingIndex?]
      dsimp only
      by_cases hone : depth ≤ 1
      · rw [if_pos (by omega), if_pos hone]
        rfl
      · rw [if_neg (by omega), if_neg hone, ih (by omega) (index + 1), hmap]
    | _ => exact (ih hdepth (index + 1)).trans (congrArg pure (hmap _))

/-- What has just been opened is not closed behind the last parenthesis. -/
theorem kind_of_closingIndex_last {init : List Lexeme} {opened closing : Lexeme} {depth : Nat}
    (hdepth : 1 ≤ depth)
    (h : Input.closingIndex? depth (init ++ [opened, closing]) = some (init.length + 1)) :
    opened.kind ≠ .leftParen := by
  induction init generalizing depth with
  | nil =>
    intro hkind
    rw [List.nil_append, Input.closingIndex?, hkind] at h
    obtain ⟨_, hindex, -⟩ := Option.map_eq_some_iff.1 h
    rw [Input.closingIndex?] at hindex
    split at hindex
    · cases hindex
    · rw [if_neg (by omega)] at hindex
      cases hindex
    · cases hindex
  | cons lexeme init ih =>
    have hlater : ∀ {depth'}, 1 ≤ depth' →
        (Input.closingIndex? depth' (init ++ [opened, closing])).map (· + 1) = some (init.length + 2) →
        opened.kind ≠ .leftParen := by
      intro depth' hdepth' hmap
      obtain ⟨index, hindex, heq⟩ := Option.map_eq_some_iff.1 hmap
      obtain rfl := Nat.succ.inj heq
      exact ih hdepth' hindex
    rw [List.cons_append, Input.closingIndex?, List.length_cons] at h
    split at h
    · exact hlater (Nat.le_succ_of_le hdepth) h
    · split at h
      · cases h
      · exact hlater (by omega) h
    · exact hlater hdepth h

theorem Shows.entryAt_index (h : Shows source p s) : entryAt p.tokens p.index = p.current := by
  have hle : p.index ≤ p.stop := h.stop_eq ▸ Nat.le_add_right _ _
  rw [Parser.current, Parser.peek, Nat.add_zero, Nat.min_eq_left hle]

theorem Shows.entriesBetween_eq (h : Shows source p s) :
    entriesBetween p.tokens p.index p.stop = pure (s.rest.map Lexeme.token) := by
  obtain ⟨after, -⟩ := h
  rename_i before last
  have hstop : before.length + s.rest.length = (before ++ s.rest.map Lexeme.token).length := by
    rw [List.length_append, List.length_map]
  rw [entriesBetween, if_pos ⟨Nat.le_add_right _ _, by simp [Input.parser]⟩]
  dsimp only [Input.parser]
  rw [← List.append_assoc, hstop, List.take_left, List.drop_left]

/-- Where a parenthesis is next, the parser finds the one that closes it. -/
theorem Shows.stripPair_eq {opening : Lexeme} {inside : List Lexeme} (h : Shows source p s)
    (hrest : s.rest = opening :: inside) (hopening : opening.kind = .leftParen) :
    p.stripPair =
      match Input.closingIndex? 1 inside with
      | some place =>
        if p.index + 1 + place + 1 = p.stop then
          pure (.again { p with index := p.index + 1, stop := p.index + 1 + place })
        else pure (.last p)
      | none => pure (.last p) := by
  have hkind : opening.token.kind = some .leftParen := congrArg some hopening
  have hclosing : Parser.closingIndex? 0 p.index (s.rest.map Lexeme.token) =
      pure ((Input.closingIndex? 1 inside).map (p.index + 1 + ·)) := by
    rw [hrest, List.map_cons, Parser.closingIndex?, hkind]
    exact closingIndex?_eq inside (Nat.le_refl 1) _
  rw [Parser.stripPair, h.entryAt_index, h.current_cons hrest, pure_bind, hkind, if_pos (by rfl),
    h.entriesBetween_eq, pure_bind, hclosing, pure_bind]
  cases Input.closingIndex? 1 inside <;> rfl

/-- Between the parentheses that enclose everything. -/
theorem Shows.inside {opening last : Lexeme} {init : List Lexeme} (h : Shows source p s)
    (hrest : s.rest = opening :: (init ++ [last])) (hlast : last.kind = .rightParen)
    (hclosing : Input.closingIndex? 1 (init ++ [last]) = some init.length) :
    Shows source { p with index := p.index + 1, stop := p.index + 1 + init.length }
      ⟨s.source, some opening, init, last.offset⟩ := by
  obtain ⟨after, hstands⟩ := h
  rename_i before stopped
  have hparser : { s.parser before stopped after with
      index := before.length + 1, stop := before.length + 1 + init.length } =
      Input.parser ⟨s.source, some opening, init, last.offset⟩ (before ++ [opening.token]) last.token
        (stopped :: after) := by
    simp [Input.parser, hrest]
  refine hparser ▸ .mk _ ⟨hstands.same, by simp, rfl, .inr (congrArg some hlast), ?_, ?_⟩
  · intro _ lexeme hlexeme
    obtain ⟨front, rfl⟩ := List.getLast?_eq_some_iff.1 hlexeme
    rw [List.append_assoc, List.length_append] at hclosing
    exact kind_of_closingIndex_last (Nat.le_refl 1) hclosing
  · intro token htoken
    apply hstands.onBoundary
    rw [hrest]
    simp only [List.map_cons, List.map_append, List.mem_append, List.mem_cons, List.map_nil] at htoken ⊢
    tauto

theorem Shows.stripPair_of_not_isEnclosed (h : Shows source p s)
    (hnot : ∀ opening inside, ¬ s.IsEnclosed opening inside) : p.stripPair = pure (.last p) := by
  cases hrest : s.rest with
  | nil =>
    obtain ⟨last, hcurrent, -, hkind⟩ := h.exists_current hrest
    rw [Parser.stripPair, h.entryAt_index, hcurrent, pure_bind]
    rcases hkind with hkind | hkind <;> simp [hkind]
  | cons opening inside =>
    by_cases hopening : opening.kind = .leftParen
    · rw [h.stripPair_eq hrest hopening]
      cases hclosing : Input.closingIndex? 1 inside with
      | none => rfl
      | some place =>
        have hstop := h.stop_eq
        rw [hrest, List.length_cons] at hstop
        apply if_neg
        intro hend
        apply hnot opening inside ⟨hrest, hopening, ?_⟩
        rw [hclosing, ← show place = inside.length - 1 by omega]
    · rw [Parser.stripPair, h.entryAt_index, h.current_cons hrest, pure_bind]
      simp [Lexeme.token, hopening]

/-- The parser drops the parentheses that the readers drop. -/
theorem Shows.exists_stripParens (h : Shows source p s) :
    ∃ q, p.stripParens = pure q ∧ Shows source q s.stripParens := by
  obtain ⟨n, hlength⟩ : ∃ n, s.rest.length = n := ⟨_, rfl⟩
  -- A round that is not the last one drops two lexemes.
  induction n using Nat.strongRecOn generalizing p s with
  | ind n ih =>
    by_cases henclosed : ∃ opening inside, s.IsEnclosed opening inside
    · obtain ⟨opening, inside, hinside⟩ := henclosed
      obtain ⟨init, last, rfl, hlast, hstrip⟩ := hinside.exists_closing
      have hstop := h.stop_eq
      have hclosing : Input.closingIndex? 1 (init ++ [last]) = some init.length := by
        simpa using hinside.closing
      rw [hinside.rest, List.length_cons, List.length_append, List.length_singleton] at hstop hlength
      have hagain : p.stripParens =
          Parser.stripParens { p with index := p.index + 1, stop := p.index + 1 + init.length } := by
        apply rounds_of_again
        rw [h.stripPair_eq hinside.rest hinside.opening, hclosing]
        exact if_pos (by omega)
      rw [hagain, hstrip]
      exact ih init.length (by omega) (h.inside hinside.rest hlast hclosing) rfl
    · have hnot : ∀ opening inside, ¬ s.IsEnclosed opening inside :=
        fun opening inside hinside => henclosed ⟨opening, inside, hinside⟩
      rw [stripParens_of_not_isEnclosed hnot]
      exact ⟨p, rounds_of_last (h.stripPair_of_not_isEnclosed hnot), h⟩

end Parentheses

section Sources

variable {source : String} {p : Parser} {s : Input}

theorem tracks_ofSource (source : String) :
    Tracks source (Shows source) (Parser.ofSource source) (Input.ofSource source) := by
  have hmap : Input.ofSource source =
      (lexemes source >>= fun rest => pure (Input.mk source none rest source.utf8ByteSize)) := by
    rw [Input.ofSource]
    cases lexemes source <;> rfl
  rw [Parser.ofSource, hmap]
  apply (tracks_tokens source).bind
  rintro tokens rest ⟨rfl, hboundary⟩
  have hlength : minus (rest.map Lexeme.token ++ [Token.mk none source.utf8ByteSize 0]).length 1 =
      pure rest.length := by
    simp [minus]
  have hstands : Input.Stands ⟨source, none, rest, source.utf8ByteSize⟩ source []
      ⟨none, source.utf8ByteSize, 0⟩ := by
    refine ⟨rfl, rfl, rfl, .inl rfl, by simp, ?_⟩
    intro token htoken
    rw [List.nil_append, List.mem_append, List.mem_map, List.mem_singleton] at htoken
    obtain ⟨lexeme, hlexeme, rfl⟩ | rfl := htoken
    · exact hboundary lexeme hlexeme
    · exact onBoundary_end source
  rw [hlength, pure_bind]
  refine .ok ?_
  simpa [Input.parser] using Shows.mk [] hstands

theorem Shows.tracks_finish {α : Type} {R : α → α → Prop} {result : α} (h : Shows source p s)
    (hresult : R result result) (flaw : SelectorFlaw) :
    Tracks source R (p.finish result flaw)
      (if s.rest.isEmpty then return result else throw (s.errorHere flaw)) := by
  have hstop := h.stop_eq
  rw [Parser.finish]
  cases hrest : s.rest with
  | nil =>
    rw [hrest] at hstop
    have hend : ¬ p.index ≠ p.stop := not_not_intro hstop.symm
    rw [if_neg hend]
    exact .ok hresult
  | cons lexeme rest =>
    rw [hrest, List.length_cons] at hstop
    rw [if_pos (by omega)]
    exact h.tracks_errorHere flaw

theorem tracks_parsePaths (source : String) :
    Tracks source (fun a b => (∀ path ∈ b, PathExpr.IsPlaced source path) ∧ a = b) (Parser.paths source)
      (parsePaths source) := by
  rw [Parser.paths, parsePaths]
  apply (tracks_ofSource source).bind
  intro p s h
  obtain ⟨q, hstrip, hshows⟩ := h.exists_stripParens
  rw [hstrip, pure_bind]
  apply (hshows.tracks_addPaths []).bind
  rintro ⟨_, p'⟩ ⟨paths, t, ht⟩ ⟨hplaced, rfl, hlast⟩
  exact hlast.tracks_finish ⟨hplaced, rfl⟩ .unexpectedToken

theorem tracks_parsePredicate (source : String) :
    Tracks source Eq (Parser.predicate source) (parsePredicate source) := by
  rw [Parser.predicate, parsePredicate]
  apply (tracks_ofSource source).bind
  intro p s h
  apply h.tracks_predicate.bind
  rintro ⟨q, p'⟩ ⟨_, t, ht⟩ ⟨-, rfl, hlast⟩
  exact hlast.tracks_finish rfl .unexpectedTokenInPredicate

end Sources

section Compilation

variable {source : String} {resolver : Option Resolver}

/-- The error in what a reference stands for points elsewhere, but the one that is given for it points into
the source. -/
theorem tracks_reference (resolve : Resolver) (name : String) {offset : Nat} (h : OnBoundary source offset)
    (length : Nat) :
    Tracks source Eq (Parser.reference source resolve name offset length)
      (resolveReference source resolve name offset length) := by
  have hinner := tracks_parsePredicate (resolve name)
  rw [Parser.reference, resolveReference]
  cases hparse : parsePredicate (resolve name) with
  | ok q =>
    rw [hparse] at hinner
    obtain ⟨_, hpredicate, rfl⟩ := hinner.exists_of_ok
    rw [hpredicate]
    exact .ok rfl
  | error e =>
    rw [hparse] at hinner
    rw [hinner.eq_of_error.1]
    exact tracks_refuse h length _

theorem tracks_compileCondition {condition : Condition} (h : condition.IsPlaced source) :
    Tracks source Eq (Parser.condition source resolver condition)
      (compileCondition source resolver condition) := by
  cases condition with
  | predicate q => exact .ok rfl
  | reference name offset =>
    cases resolver with
    | none => exact .ok rfl
    | some resolve => exact tracks_reference resolve name h _

theorem tracks_compileConditions {conditions : List Condition} (found : Option Predicate)
    (h : ∀ condition ∈ conditions, condition.IsPlaced source) :
    Tracks source Eq (Parser.conditions source resolver found conditions)
      (compileConditions source resolver found conditions) := by
  induction conditions generalizing found with
  | nil => exact .ok rfl
  | cons first rest ih =>
    obtain ⟨hfirst, hrest⟩ := List.forall_mem_cons.1 h
    have hmatch : compileConditions source resolver found (first :: rest) =
        (compileCondition source resolver first >>= fun q =>
          compileConditions source resolver (some (conjoin found q)) rest) := by
      rw [compileConditions]
      cases compileCondition source resolver first <;> rfl
    rw [Parser.conditions, hmatch]
    apply (tracks_compileCondition hfirst).bind
    rintro q _ rfl
    exact ih (some (conjoin found q)) hrest

theorem tracks_compileBranches {expr : StepExpr} (h : expr.IsPlaced source) (expands : Bool)
    (predicate : Option Predicate) :
    Tracks source Eq (Parser.branches source resolver expands expr predicate)
      (compileBranches source resolver expands expr predicate) := by
  obtain ⟨axis, node, conditions, filter, offset⟩ := expr
  rw [Parser.branches.eq_def, compileBranches.eq_def]
  cases node with
  | named name =>
    cases resolver with
    | none => exact .ok rfl
    | some resolve =>
      dsimp only
      split
      · have href := tracks_reference resolve name h.onBoundary 1
        dsimp only at href
        cases hresolve : resolveReference source resolve name offset 1 with
        | ok fragment =>
          rw [hresolve] at href
          obtain ⟨_, hfound, rfl⟩ := href.exists_of_ok
          rw [hfound]
          exact .ok rfl
        | error e =>
          rw [hresolve] at href
          exact href.bind_error _
      · exact .ok rfl
  | _ => exact .ok rfl

theorem tracks_compileStep {expr : StepExpr} (h : expr.IsPlaced source) (expands : Bool) :
    Tracks source Eq (Parser.step source resolver expands expr)
      (compileStep source resolver expands expr) := by
  rw [Parser.step, compileStep]
  apply (tracks_compileConditions none h.conditions).bind
  rintro predicate _ rfl
  apply (tracks_compileBranches h expands predicate).bind
  rintro branches _ rfl
  exact .ok rfl

theorem tracks_mapM {α β : Type} {items : List α} {f : α → Outcome β} {g : α → Except SelectorError β}
    (h : ∀ item ∈ items, Tracks source Eq (f item) (g item)) :
    Tracks source Eq (items.mapM f) (items.mapM g) := by
  induction items with
  | nil => exact .ok rfl
  | cons first rest ih =>
    obtain ⟨hfirst, hrest⟩ := List.forall_mem_cons.1 h
    rw [List.mapM_cons, List.mapM_cons]
    apply hfirst.bind
    rintro b _ rfl
    apply (ih hrest).bind
    rintro bs _ rfl
    exact .ok rfl

theorem tracks_compile (source : String) (dialect : Dialect) (resolver : Option Resolver) :
    Tracks source Eq (Parser.selector source resolver dialect) (compile source dialect resolver) := by
  rw [Parser.selector, compile]
  apply (tracks_parsePaths source).bind
  rintro paths _ ⟨hplaced, rfl⟩
  apply (tracks_mapM fun path hpath => tracks_mapM fun expr hexpr =>
    tracks_compileStep (hplaced path hpath expr hexpr) _).bind
  rintro compiled _ rfl
  exact .ok rfl

/-- Whatever a resolver gives, compilation by positions ends, and no index, slice or difference on the way is
out of range. It gives the selector, or an error whose offset is not inside a character and where the source
goes on with the error's fragment. -/
theorem compile_points_into_source (source : String) (dialect : Dialect) (resolver : Option Resolver) :
    (∃ selector, compile source dialect resolver = .ok selector ∧
        (Parser.selector source resolver dialect).run = some (.ok selector)) ∨
      ∃ e, compile source dialect resolver = .error e ∧
        (Parser.selector source resolver dialect).run = some (.error (.refused e)) ∧
        e.offset ≤ source.utf8ByteSize ∧ e.PointsInto source := by
  have htracks := tracks_compile source dialect resolver
  cases hcompile : compile source dialect resolver with
  | ok selector =>
    rw [hcompile] at htracks
    obtain ⟨_, hselector, rfl⟩ := htracks.exists_of_ok
    exact .inl ⟨_, rfl, congrArg ExceptT.run hselector⟩
  | error e =>
    rw [hcompile] at htracks
    obtain ⟨hrefused, hpoints⟩ := htracks.eq_of_error
    exact .inr ⟨e, rfl, congrArg ExceptT.run hrefused, (onBoundary_of_pointsInto hpoints).le, hpoints⟩

/-- Characters of several bytes are shown whole. -/
example : compile "//é[ü" .html none = .error ⟨.cutShort (.expected .closeBracket), "ü", 5⟩ := by
  decide +kernel

end Compilation

end MarkupStream.Selector
