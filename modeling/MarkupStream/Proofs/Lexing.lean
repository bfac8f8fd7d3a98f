import MarkupStream.Selector.Grammar

/-!
How a source is spelled. What is left of it at some place tells the lexemes that are left, by kind; each
lemma puts one more lexeme in front, so the lexemes of a written selector are found from its end.
-/
namespace MarkupStream.Selector

namespace LexemeStream

variable {s t : LexemeStream}

theorem all_of_none (h : s.next = (.ok none, t)) : s.all = .ok [] := by
  rw [all]
  split <;> simp_all

theorem all_of_lexeme {lexeme : Lexeme} (h : s.next = (.ok (some lexeme), t)) :
    s.all = t.all.map (lexeme :: ·) := by
  rw [all]
  split <;> simp_all

theorem all_of_error {e : SelectorError} (h : s.next = (.error e, t)) : s.all = .error e := by
  rw [all]
  split <;> simp_all

theorem all_congr (h : s.next = t.next) : s.all = t.all := by
  rw [all, all, h]

theorem skip_skip (s : LexemeStream) (m n : Nat) : (s.skip m).skip n = s.skip (m + n) := by
  simp only [skip, List.drop_drop, List.take_add, byteSize_append, Nat.add_assoc]

theorem skip_zero (s : LexemeStream) : s.skip 0 = s := rfl

/-- Nothing is skipped in front of a character that is not blank. -/
theorem skipBlanks_eq_self (h : ∀ c ∈ s.rest.head?, ¬ isBlank c) : s.skipBlanks = s := by
  rw [skipBlanks]
  cases hrest : s.rest with
  | nil => exact s.skip_zero
  | cons c rest =>
    have hc := h c (by rw [hrest]; rfl)
    rw [List.takeWhile_cons_of_neg hc]
    exact s.skip_zero

theorem next_of_blank {c : Char} {rest : List Char} (hs : s.rest = c :: rest) (hc : isBlank c) :
    s.next = (s.skip 1).next := by
  have hskip : s.skipBlanks = (s.skip 1).skipBlanks := by
    rw [skipBlanks, skipBlanks, skip_skip, rest_skip, hs, List.takeWhile_cons_of_pos hc]
    simp only [List.drop_succ_cons, List.drop_zero, List.length_cons, Nat.add_comm]
  rw [next, next, hskip]

theorem next_of_plain {c : Char} {rest : List Char} (hs : s.rest = c :: rest) (hc : ¬ isBlank c)
    (hwants : s.wantsValue = false) : s.next = s.readPlain c := by
  have hself : s.skipBlanks = s := by
    apply skipBlanks_eq_self
    intro c' hc'
    rw [hs] at hc'
    obtain rfl := Option.some.inj hc'
    exact hc
  rw [next, hself]
  dsimp only
  rw [hs, hwants]
  rfl

end LexemeStream

open LexemeStream

/-- What is left of a source, with no value due, has lexemes of the given kinds. -/
def Spells (chars : List Char) (kinds : List Lexeme.Kind) : Prop :=
  ∀ s : LexemeStream, s.rest = chars → s.wantsValue = false →
    ∃ lexemes, s.all = .ok lexemes ∧ lexemes.map (·.kind) = kinds

variable {chars rest : List Char} {kinds : List Lexeme.Kind} {kind : Lexeme.Kind}

/-- One more lexeme, which the stream reads before those that it leaves. -/
theorem exists_all_cons {s t : LexemeStream} {lexeme : Lexeme}
    (hnext : s.next = (.ok (some lexeme), t)) (h : Spells t.rest kinds)
    (hwants : t.wantsValue = false) :
    ∃ lexemes, s.all = .ok lexemes ∧ lexemes.map (·.kind) = lexeme.kind :: kinds := by
  obtain ⟨lexemes, hall, hkinds⟩ := h t rfl hwants
  refine ⟨lexeme :: lexemes, ?_, congrArg _ hkinds⟩
  rw [all_of_lexeme hnext, hall]
  rfl

theorem spells_nil : Spells [] [] := by
  intro s hs hwants
  refine ⟨[], all_of_none (t := s.skipBlanks) ?_, rfl⟩
  have hself : s.skipBlanks = s := skipBlanks_eq_self (by simp [hs])
  rw [next, hself, hs]

theorem Spells.blank {c : Char} (h : Spells chars kinds) (hc : isBlank c) : Spells (c :: chars) kinds := by
  intro s hs hwants
  rw [all_congr (next_of_blank hs hc)]
  apply h
  · rw [rest_skip, hs]
    rfl
  · exact hwants

theorem Spells.fixed {c : Char} {count : Nat} (h : Spells rest kinds)
    (hkind : fixedKind? c chars.head? = some (kind, count)) (hplain : ∀ op, kind ≠ .comparison op)
    (hc : ¬ isBlank c) (hrest : (c :: chars).drop count = rest) : Spells (c :: chars) (kind :: kinds) := by
  intro s hs hwants
  have hnext : s.next = s.emit kind count := by
    rw [next_of_plain hs hc hwants, readPlain, hs]
    simp only [List.drop_succ_cons, List.drop_zero, hkind]
  apply exists_all_cons hnext
  · rw [rest_skip, hs, hrest]
    exact h
  · exact hwants

/-- A character that is a lexeme whatever follows it. -/
theorem Spells.mark {c : Char} (h : Spells rest kinds)
    (hkind : ∀ after, fixedKind? c after = some (kind, 1)) (hplain : ∀ op, kind ≠ .comparison op)
    (hc : ¬ isBlank c) : Spells (c :: rest) (kind :: kinds) := h.fixed (hkind _) hplain hc rfl

theorem Spells.leftParen (h : Spells rest kinds) : Spells ('(' :: rest) (.leftParen :: kinds) :=
  h.mark (by rintro (_ | _) <;> rfl) nofun (by decide)

theorem Spells.rightParen (h : Spells rest kinds) : Spells (')' :: rest) (.rightParen :: kinds) :=
  h.mark (by rintro (_ | _) <;> rfl) nofun (by decide)

theorem Spells.leftBracket (h : Spells rest kinds) : Spells ('[' :: rest) (.leftBracket :: kinds) :=
  h.mark (by rintro (_ | _) <;> rfl) nofun (by decide)

theorem Spells.rightBracket (h : Spells rest kinds) :
    Spells (']' :: rest) (.rightBracket :: kinds) :=
  h.mark (by rintro (_ | _) <;> rfl) nofun (by decide)

theorem fixedKind_bang {after : Option Char} (h : after ≠ some '=') :
    fixedKind? '!' after = some (.bang, 1) := by
  unfold fixedKind?
  split <;> simp_all

theorem Spells.bang (h : Spells rest kinds) (hrest : rest.head? ≠ some '=') :
    Spells ('!' :: rest) (.bang :: kinds) :=
  h.fixed (fixedKind_bang hrest) nofun (by decide) rfl

theorem isQuoteMark_iff {c : Char} : isQuoteMark c ↔ c = '\x27' ∨ c = '\x22' := by
  rw [isQuoteMark, Bool.or_eq_true, beq_iff_eq, beq_iff_eq]

theorem not_blank_of_isQuoteMark {c : Char} (h : isQuoteMark c) : ¬ isBlank c := by
  rcases isQuoteMark_iff.1 h with rfl | rfl <;> decide

/-- A character of words begins nothing that is fixed, and no quoted text. -/
theorem fixedKind_of_isWordChar {c : Char} (h : isWordChar c) (after : Option Char) :
    fixedKind? c after = none ∧ ¬ isQuoteMark c := by
  constructor
  · unfold fixedKind?
    split
    all_goals first
      | rfl
      | exact absurd h (by decide)
  · intro hquote
    rcases isQuoteMark_iff.1 hquote with rfl | rfl <;> exact absurd h (by decide)

/-- A name that a selector can have: word characters, the first of which is not blank. -/
structure IsWord (word : String) : Prop where
  head : ∃ c rest, word.toList = c :: rest ∧ ¬ isBlank c
  chars : ∀ c ∈ word.toList, isWordChar c

theorem isWord_iff {word : String} :
    IsWord word ↔ word.toList.head?.any (!isBlank ·) ∧ word.toList.all isWordChar := by
  constructor
  · rintro ⟨⟨c, rest, hchars, hc⟩, hall⟩
    refine ⟨?_, List.all_eq_true.2 hall⟩
    rw [hchars, List.head?_cons, Option.any_some, Bool.not_eq_true']
    exact Bool.eq_false_iff.2 hc
  · rintro ⟨hhead, hall⟩
    refine ⟨?_, List.all_eq_true.1 hall⟩
    cases hchars : word.toList with
    | nil =>
      rw [hchars] at hhead
      cases hhead
    | cons c rest =>
      rw [hchars, List.head?_cons, Option.any_some, Bool.not_eq_true'] at hhead
      exact ⟨c, rest, rfl, Bool.eq_false_iff.1 hhead⟩

instance : DecidablePred IsWord := fun _ => decidable_of_iff _ isWord_iff.symm

/-- The characters end a word. -/
def EndsWord (chars : List Char) : Prop := ∀ c ∈ chars.head?, ¬ isWordChar c

theorem endsWord_cons {c : Char} (hc : ¬ isWordChar c) (chars : List Char) : EndsWord (c :: chars) := by
  rintro c' ⟨⟩
  exact hc

theorem head_of_isWord {word : String} (hword : IsWord word) {c : Char} (hc : ¬ isWordChar c)
    (rest : List Char) : (word.toList ++ rest).head? ≠ some c := by
  obtain ⟨first, more, hchars, -⟩ := hword.head
  rw [hchars]
  intro heq
  obtain rfl := Option.some.inj heq
  exact hc (hword.chars first (by rw [hchars]; exact List.mem_cons_self))

theorem takeWhile_append_of_ends {p : Char → Bool} {inside after : List Char}
    (hinside : ∀ c ∈ inside, p c) (hafter : ∀ c ∈ after.head?, ¬ p c) :
    (inside ++ after).takeWhile p = inside := by
  rw [List.takeWhile_append_of_pos hinside]
  cases after with
  | nil => simp
  | cons c after => rw [List.takeWhile_cons_of_neg (hafter c rfl), List.append_nil]

theorem Spells.word {word : String} (h : Spells rest kinds) (hword : IsWord word)
    (hrest : EndsWord rest) : Spells (word.toList ++ rest) (.word word :: kinds) := by
  obtain ⟨c, more, hchars, hc⟩ := hword.head
  intro s hs hwants
  have htext : s.rest.takeWhile isWordChar = word.toList := by
    rw [hs]
    exact takeWhile_append_of_ends hword.chars hrest
  have hfirst : s.rest = c :: (more ++ rest) := by rw [hs, hchars]; rfl
  have hwordChar : isWordChar c := hword.chars c (by rw [hchars]; exact List.mem_cons_self)
  have hnext : s.next = s.emit (.word word) word.toList.length := by
    obtain ⟨hfixed, hquote⟩ := fixedKind_of_isWordChar hwordChar (s.rest.drop 1).head?
    rw [next_of_plain hfirst hc hwants, readPlain, hfixed]
    dsimp only
    rw [if_neg hquote, htext, if_neg (by rw [hchars]; exact Bool.false_ne_true), String.ofList_toList]
  apply exists_all_cons hnext
  · rw [rest_skip, hs, List.drop_left]
    exact h
  · exact hwants

/-- A value that can be written in quotes of one kind or the other. -/
def Quotable (value : String) : Prop := '\x27' ∉ value.toList ∨ '\x22' ∉ value.toList

/-- The quotes that a value is written in are none that it contains. -/
theorem quote_eq {value : String} (h : Quotable value) :
    ∃ mark, isQuoteMark mark ∧ mark ∉ value.toList ∧
      (quote value).toList = mark :: (value.toList ++ [mark]) := by
  by_cases hsingle : '\x27' ∈ value.toList
  · have hcontains : value.toList.contains '\x27' = true := by simpa using hsingle
    refine ⟨'\x22', rfl, h.resolve_left (not_not_intro hsingle), ?_⟩
    rw [quote, if_pos hcontains]
    simp
  · have hcontains : ¬ value.toList.contains '\x27' = true := by simpa using hsingle
    refine ⟨'\x27', rfl, hsingle, ?_⟩
    rw [quote, if_neg hcontains]
    simp

theorem next_of_quote {s : LexemeStream} {value : String} (hvalue : Quotable value)
    (hs : s.rest = (quote value).toList ++ rest) (hwants : s.wantsValue = true) :
    s.next = LexemeStream.emit { s with wantsValue := false } (.quoted value)
      (quote value).toList.length := by
  obtain ⟨mark, hmark, hnotin, hquote⟩ := quote_eq hvalue
  have hfirst : s.rest = mark :: (value.toList ++ mark :: rest) := by
    rw [hs, hquote]
    simp
  have hself : s.skipBlanks = s := by
    apply skipBlanks_eq_self
    intro c hc
    rw [hfirst] at hc
    obtain rfl := Option.some.inj hc
    exact not_blank_of_isQuoteMark hmark
  have hinner : (value.toList ++ mark :: rest).takeWhile (· != mark) = value.toList := by
    apply takeWhile_append_of_ends
    · intro c hc
      simp only [bne_iff_ne]
      rintro rfl
      exact hnotin hc
    · rintro c ⟨⟩
      simp
  rw [next, hself]
  dsimp only
  rw [hfirst, hwants]
  simp only [if_true, hmark, readQuoted, List.drop_succ_cons, List.drop_zero, hinner]
  rw [if_pos (by simp), String.ofList_toList, hquote]
  simp

theorem fixedKind_equal (after : Option Char) :
    fixedKind? '=' after = some (.comparison .equal, 1) := by
  cases after <;> rfl

theorem readPlain_comparison {s : LexemeStream} (op : Comparison) {c : Char} {more : List Char}
    (hs : s.rest = op.text.toList ++ rest) (hc : op.text.toList = c :: more) :
    s.readPlain c =
      LexemeStream.emit { s with wantsValue := true } (.comparison op) op.text.toList.length := by
  have hkind : fixedKind? c (s.rest.drop 1).head? =
      some (.comparison op, op.text.toList.length) := by
    rw [hs]
    cases op with
    | equal =>
      obtain ⟨rfl, rfl⟩ := List.cons.inj (show ['='] = c :: more from hc)
      exact fixedKind_equal _
    | _ =>
      obtain ⟨rfl, rfl⟩ := List.cons.inj hc
      rfl
  rw [readPlain, hkind]

theorem Spells.comparison {value : String} (op : Comparison) (h : Spells rest kinds)
    (hvalue : Quotable value) :
    Spells (op.text.toList ++ ((quote value).toList ++ rest))
      (.comparison op :: .quoted value :: kinds) := by
  intro s hs hwants
  obtain ⟨c, more, hc, hblank⟩ : ∃ c more, op.text.toList = c :: more ∧ ¬ isBlank c := by
    cases op <;> exact ⟨_, _, rfl, by decide⟩
  have hfirst : s.rest = c :: (more ++ ((quote value).toList ++ rest)) := by
    rw [hs, hc]
    rfl
  have hop := (next_of_plain hfirst hblank hwants).trans (readPlain_comparison op hs hc)
  rw [all_of_lexeme hop]
  have hrest : (LexemeStream.skip { s with wantsValue := true } op.text.toList.length).rest =
      (quote value).toList ++ rest := by
    rw [rest_skip, hs, List.drop_left]
  generalize ht : LexemeStream.skip { s with wantsValue := true } op.text.toList.length = t at hrest
  have hdue : t.wantsValue = true := by rw [← ht]; rfl
  have hafter : Spells (t.rest.drop (quote value).toList.length) kinds := by
    rw [hrest, List.drop_left]
    exact h
  obtain ⟨lexemes, hall, hkinds⟩ := exists_all_cons (next_of_quote hvalue hrest hdue) hafter rfl
  refine ⟨_ :: lexemes, by rw [hall]; rfl, ?_⟩
  rw [List.map_cons, hkinds]

end MarkupStream.Selector
