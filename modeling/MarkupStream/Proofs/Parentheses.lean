import MarkupStream.Proofs.Retracing

/-!
Parentheses around a whole selector. The lexemes of a source in parentheses are those of the source in
parentheses, except that a value which is due at its end is empty. What can be parsed is whole, so no value
is due there and the parentheses match, and they are the ones that are dropped.
-/
namespace MarkupStream.Selector

open Lexeme Input

/-- Whether a value is due behind the lexeme. -/
def Lexeme.Kind.wantsValue (kind : Lexeme.Kind) : Bool := (comparisonOf? kind).isSome

section Closing

/-- The lexemes of a source that is closed with a parenthesis. A value that is due at its end is empty. -/
def closing (due : Bool) : List Lexeme.Kind → List Lexeme.Kind
  | [] => if due then [.bare "", .rightParen] else [.rightParen]
  | kind :: rest => kind :: closing kind.wantsValue rest

/-- Each comparison has its value, and so has one in front of the lexemes if a value is due. -/
def Answered (due : Bool) : List Lexeme.Kind → Prop
  | [] => due = false
  | kind :: rest => (due → (valueOf? kind).isSome) ∧ Answered kind.wantsValue rest

variable {due : Bool} {kinds inner : List Lexeme.Kind}

theorem Answered.append {first second : List Lexeme.Kind} (hfirst : Answered due first)
    (hsecond : Answered false second) : Answered due (first ++ second) := by
  induction first generalizing due with
  | nil =>
    obtain rfl : due = false := hfirst
    exact hsecond
  | cons kind first ih => exact ⟨hfirst.1, ih hfirst.2⟩

theorem wantsValue_of_isMark {kind : Lexeme.Kind} (h : kind.isMark) : kind.wantsValue = false := by
  cases kind with
  | comparison op => cases h
  | _ => rfl

theorem Whole.answered (h : Whole kinds) : Answered false kinds := by
  induction h with
  | nil => rfl
  | mark hmark => exact ⟨nofun, wantsValue_of_isMark hmark⟩
  | comparison op hvalue =>
    exact ⟨nofun, fun _ => hvalue, wantsValue_of_isMark (isMark_of_valueOf hvalue)⟩
  | parens _ ih => exact ⟨nofun, ih.append ⟨nofun, rfl⟩⟩
  | append _ _ ihfirst ihsecond => exact ihfirst.append ihsecond

theorem closing_of_answered (h : Answered due kinds) : closing due kinds = kinds ++ [.rightParen] := by
  induction kinds generalizing due with
  | nil =>
    obtain rfl : due = false := h
    rfl
  | cons kind rest ih => exact congrArg (kind :: ·) (ih h.2)

theorem closing_ne_nil : closing due kinds ≠ [] := by
  cases kinds with
  | nil => cases due <;> exact nofun
  | cons kind rest => exact nofun

/-- The empty value is none, so nothing has been added to lexemes which have all their values. -/
theorem eq_of_closing (h : closing due kinds = inner ++ [.rightParen]) (hinner : Answered due inner) :
    inner = kinds := by
  induction kinds generalizing due inner with
  | nil =>
    cases due with
    | false =>
      have hempty : [] ++ [Lexeme.Kind.rightParen] = inner ++ [.rightParen] := h
      exact (List.append_cancel_right hempty).symm
    | true =>
      have hvalue : [.bare ""] ++ [Lexeme.Kind.rightParen] = inner ++ [.rightParen] := h
      obtain rfl := List.append_cancel_right hvalue
      cases hinner.1 rfl
  | cons kind rest ih =>
    cases inner with
    | nil => exact absurd (List.cons.inj h).2 closing_ne_nil
    | cons kind' inner =>
      obtain ⟨rfl, hrest⟩ := List.cons.inj h
      exact congrArg (kind :: ·) (ih hrest hinner.2)

end Closing

namespace LexemeStream

/-- What is left of the second stream is what is left of the first one and a closing parenthesis. -/
structure Closes (s s' : LexemeStream) : Prop where
  rest : s'.rest = s.rest ++ [')']
  wantsValue : s'.wantsValue = s.wantsValue

/-- The same lexeme has been read from both streams, or none from either because of an error. -/
inductive ClosedStep : Result → Result → Prop
  | lexeme {kind : Lexeme.Kind} {offset offset' length length' : Nat} {t t' : LexemeStream} :
      t.Closes t' → t.wantsValue = kind.wantsValue →
      ClosedStep (.ok (some ⟨kind, offset, length⟩), t) (.ok (some ⟨kind, offset', length'⟩), t')
  | error {e e' : SelectorError} {t t' : LexemeStream} : ClosedStep (.error e, t) (.error e', t')

variable {s s' t : LexemeStream} {c : Char} {more : List Char}

theorem takeWhile_closed {p : Char → Bool} (hp : ¬ p ')') (chars : List Char) :
    (chars ++ [')']).takeWhile p = chars.takeWhile p := by
  rw [List.takeWhile_append, List.takeWhile_cons_of_neg hp, List.append_nil]
  split
  · rename_i hlength
    exact ((List.takeWhile_prefix p).eq_of_length hlength).symm
  · rfl

theorem Closes.skip (h : s.Closes s') {count : Nat} (hcount : count ≤ s.rest.length) :
    (s.skip count).Closes (s'.skip count) where
  rest := by rw [rest_skip, rest_skip, h.rest, List.drop_append_of_le_length hcount]
  wantsValue := h.wantsValue

theorem Closes.emit (h : s.Closes s') (kind : Lexeme.Kind) {count : Nat}
    (hcount : count ≤ s.rest.length) (hwants : s.wantsValue = kind.wantsValue) :
    ClosedStep (s.emit kind count) (s'.emit kind count) :=
  .lexeme (h.skip hcount) hwants

theorem Closes.skipBlanks (h : s.Closes s') : s.skipBlanks.Closes s'.skipBlanks := by
  rw [LexemeStream.skipBlanks, LexemeStream.skipBlanks, h.rest, takeWhile_closed (by decide)]
  exact h.skip (List.takeWhile_prefix _).length_le

theorem readQuoted_of_open (hs : s.rest = c :: more) (h : more.takeWhile (· != c) = more) :
    ∃ e t, s.readQuoted c = (.error e, t) := by
  unfold LexemeStream.readQuoted
  rw [hs, List.drop_succ_cons, List.drop_zero, h, List.length_cons, if_neg (Nat.lt_irrefl _)]
  exact ⟨_, _, rfl⟩

theorem readQuoted_of_closed {inner : List Char} (hs : s.rest = c :: more)
    (h : more.takeWhile (· != c) = inner) (hlength : inner.length < more.length) :
    s.readQuoted c = s.emit (.quoted (String.ofList inner)) (inner.length + 2) := by
  unfold LexemeStream.readQuoted
  rw [hs, List.drop_succ_cons, List.drop_zero, h, List.length_cons, if_pos (Nat.succ_lt_succ hlength)]

/-- A quoted text ends in front of the parenthesis or not at all. -/
theorem Closes.readQuoted (h : s.Closes s') (hs : s.rest = c :: more) (hc : isQuoteMark c)
    (hwants : s.wantsValue = false) : ClosedStep (s.readQuoted c) (s'.readQuoted c) := by
  have hparen : (')' != c) = true := by
    rcases isQuoteMark_iff.1 hc with rfl | rfl <;> rfl
  have hs' : s'.rest = c :: (more ++ [')']) := by
    rw [h.rest, hs]
    rfl
  by_cases hopen : more.takeWhile (· != c) = more
  · -- The parenthesis does not end a text that is open: it becomes a part of it.
    have hopen' : (more ++ [')']).takeWhile (· != c) = more ++ [')'] := by
      rw [List.takeWhile_eq_self_iff] at hopen ⊢
      exact List.forall_mem_append.2 ⟨hopen, List.forall_mem_singleton.2 hparen⟩
    obtain ⟨e, t, herror⟩ := readQuoted_of_open hs hopen
    obtain ⟨e', t', herror'⟩ := readQuoted_of_open hs' hopen'
    rw [herror, herror']
    exact .error
  · have htake := List.takeWhile_prefix (l := more) (· != c)
    have hne : (more.takeWhile (· != c)).length ≠ more.length :=
      fun heq => hopen (htake.eq_of_length heq)
    have hlength : (more.takeWhile (· != c)).length < more.length :=
      Nat.lt_of_le_of_ne htake.length_le hne
    have hsame : (more ++ [')']).takeWhile (· != c) = more.takeWhile (· != c) := by
      rw [List.takeWhile_append, if_neg hne]
    rw [readQuoted_of_closed hs rfl hlength, readQuoted_of_closed hs' hsame (by simp; omega)]
    have hcount : (more.takeWhile (· != c)).length + 2 ≤ s.rest.length := by
      rw [hs, List.length_cons]
      omega
    exact h.emit _ hcount hwants

theorem Closes.readBare (h : s.Closes s') (hwants : s.wantsValue = false) :
    ClosedStep s.readBare s'.readBare := by
  have hle := (List.takeWhile_prefix (l := s.rest) isBareChar).length_le
  unfold LexemeStream.readBare
  rw [h.rest, takeWhile_closed (by decide)]
  dsimp only
  rw [List.drop_append_of_le_length hle]
  cases s.rest.drop (s.rest.takeWhile isBareChar).length with
  | nil => exact h.emit _ hle hwants
  | cons c after =>
    dsimp only [List.cons_append]
    split
    · exact .error
    · exact h.emit _ hle hwants

theorem fixedKind_closed (c : Char) (more : List Char) :
    fixedKind? c (more ++ [')']).head? = fixedKind? c more.head? := by
  cases more with
  | nil =>
    unfold fixedKind?
    split <;> simp_all
  | cons after more => rfl

theorem fixedKind_le {kind : Lexeme.Kind} {count : Nat} (h : fixedKind? c more.head? = some (kind, count)) :
    count ≤ (c :: more).length := by
  cases more with
  | nil =>
    unfold fixedKind? at h
    split at h <;> simp_all
  | cons after more =>
    have hle : count ≤ 2 := by
      unfold fixedKind? at h
      split at h <;> simp at h <;> omega
    simp only [List.length_cons]
    omega

theorem Closes.readPlain (h : s.Closes s') (hs : s.rest = c :: more) (hwants : s.wantsValue = false) :
    ClosedStep (s.readPlain c) (s'.readPlain c) := by
  have hafter : (s.rest.drop 1).head? = more.head? := by rw [hs, List.drop_one, List.tail_cons]
  have hafter' : (s'.rest.drop 1).head? = (more ++ [')']).head? := by
    rw [h.rest, hs, List.drop_one, List.cons_append, List.tail_cons]
  have hword : s'.rest.takeWhile isWordChar = s.rest.takeWhile isWordChar := by
    rw [h.rest, takeWhile_closed (by decide)]
  unfold LexemeStream.readPlain
  rw [hafter, hafter', fixedKind_closed, hword]
  cases hkind : fixedKind? c more.head? with
  | some r =>
    obtain ⟨kind, count⟩ := r
    have hcount : count ≤ s.rest.length := by
      rw [hs]
      exact fixedKind_le hkind
    cases kind with
    | comparison op =>
      have hdue : Closes { s with wantsValue := true } { s' with wantsValue := true } := ⟨h.rest, rfl⟩
      exact hdue.emit (.comparison op) hcount rfl
    | _ => exact h.emit _ hcount hwants
  | none =>
    dsimp only
    split
    · rename_i hquote
      exact h.readQuoted hs hquote hwants
    · split
      · exact .error
      · exact h.emit _ (List.takeWhile_prefix _).length_le hwants

/-- The lexeme that begins with the first character that is not blank. -/
theorem next_of_skipBlanks (h : s.skipBlanks.rest = c :: more) :
    s.next = if s.wantsValue then
        if isQuoteMark c then LexemeStream.readQuoted { s.skipBlanks with wantsValue := false } c
        else LexemeStream.readBare { s.skipBlanks with wantsValue := false }
      else s.skipBlanks.readPlain c := by
  unfold LexemeStream.next
  dsimp only
  split
  · rename_i hnil
    rw [h] at hnil
    cases hnil
  · rename_i heq
    obtain ⟨rfl, rfl⟩ := List.cons.inj (h.symm.trans heq)
    rfl

theorem Closes.next (h : s.Closes s') (hmore : s.skipBlanks.rest = c :: more) :
    ClosedStep s.next s'.next := by
  have hskip := h.skipBlanks
  have hmore' : s'.skipBlanks.rest = c :: (more ++ [')']) := by
    rw [hskip.rest, hmore]
    rfl
  rw [next_of_skipBlanks hmore, next_of_skipBlanks hmore', h.wantsValue]
  have hvalue : Closes { s.skipBlanks with wantsValue := false } { s'.skipBlanks with wantsValue := false } :=
    ⟨hskip.rest, rfl⟩
  split
  · split
    · rename_i hquote
      exact hvalue.readQuoted hmore hquote rfl
    · exact hvalue.readBare rfl
  · rename_i hwants
    exact hskip.readPlain hmore (Bool.eq_false_iff.2 hwants)

theorem next_of_end (h : s.skipBlanks.rest = []) : s.next = (.ok none, s.skipBlanks) := by
  unfold next
  dsimp only
  rw [h]

theorem exists_more (h : s.next.1 ≠ .ok none) : ∃ c more, s.skipBlanks.rest = c :: more := by
  apply List.exists_cons_of_ne_nil
  intro hend
  exact h (congrArg Prod.fst (next_of_end hend))

/-- Where the first stream ends, the parenthesis comes next, behind an empty value if one is due. -/
theorem Closes.exists_all (h : s.Closes s') (hend : s.skipBlanks.rest = []) :
    ∃ lexemes, s'.all = .ok lexemes ∧ lexemes.map (·.kind) = closing s.wantsValue [] := by
  have hrest : s'.skipBlanks.rest = [')'] := by rw [h.skipBlanks.rest, hend, List.nil_append]
  have hnext := next_of_skipBlanks hrest
  rw [h.wantsValue] at hnext
  cases hwants : s.wantsValue with
  | false =>
    have hparen : s'.next = s'.skipBlanks.emit .rightParen 1 := by
      rw [hnext, hwants, if_neg Bool.false_ne_true, LexemeStream.readPlain, hrest]
      rfl
    apply exists_all_cons hparen
    · rw [rest_skip, hrest]
      exact spells_nil
    · exact h.wantsValue.trans hwants
  | true =>
    have hvalue : s'.next = LexemeStream.emit { s'.skipBlanks with wantsValue := false } (.bare "") 0 := by
      rw [hnext, hwants, if_pos rfl, if_neg (by decide), LexemeStream.readBare]
      dsimp only
      rw [hrest]
      rfl
    apply exists_all_cons hvalue _ rfl
    rw [rest_skip, List.drop_zero]
    dsimp only
    rw [hrest]
    exact spells_nil.rightParen

theorem Closes.agree_all (h : s.Closes s') :
    Agree (fun lexemes lexemes' =>
      lexemes'.map (·.kind) = closing s.wantsValue (lexemes.map (·.kind))) s.all s'.all := by
  induction s using all.induct generalizing s' with
  | case1 s t hnext =>
    have hend : s.skipBlanks.rest = [] := by
      cases hmore : s.skipBlanks.rest with
      | nil => rfl
      | cons c more =>
        have hstep := h.next hmore
        rw [hnext] at hstep
        cases hstep
    obtain ⟨lexemes, hall, hkinds⟩ := h.exists_all hend
    rw [all_of_none hnext, hall]
    exact .ok hkinds
  | case2 s lexeme t hnext ih =>
    obtain ⟨c, more, hmore⟩ := exists_more (s := s) (by rw [hnext]; exact nofun)
    have hstep := h.next hmore
    rw [hnext] at hstep
    generalize hnext' : s'.next = r at hstep
    cases hstep with
    | lexeme hclosed hwants =>
      rw [all_of_lexeme hnext, all_of_lexeme hnext']
      apply (ih hclosed).map
      intro lexemes lexemes' hlater
      rw [List.map_cons, hlater, hwants]
      rfl
  | case3 s e t hnext =>
    obtain ⟨c, more, hmore⟩ := exists_more (s := s) (by rw [hnext]; exact nofun)
    have hstep := h.next hmore
    rw [hnext] at hstep
    generalize hnext' : s'.next = r at hstep
    cases hstep with
    | error =>
      rw [all_of_error hnext, all_of_error hnext']
      exact .error

end LexemeStream

/-- A source in parentheses has its own lexemes in parentheses, unless a value is due at its end. -/
theorem agree_ofSource (source : String) :
    Agree (fun s s' => s'.kinds = .leftParen :: closing false s.kinds)
      (Input.ofSource source) (Input.ofSource ("(" ++ source ++ ")")) := by
  have hopen : (LexemeStream.ofSource ("(" ++ source ++ ")")).rest = '(' :: (source.toList ++ [')']) := by
    simp [LexemeStream.ofSource]
  have hwants : (LexemeStream.ofSource ("(" ++ source ++ ")")).wantsValue = false := rfl
  rw [Input.ofSource, Input.ofSource, lexemes, lexemes]
  generalize LexemeStream.ofSource ("(" ++ source ++ ")") = s' at hopen hwants
  have hnext : s'.next = s'.emit .leftParen 1 := by
    rw [LexemeStream.next_of_plain hopen (by decide) hwants, LexemeStream.readPlain]
    cases (s'.rest.drop 1).head? <;> rfl
  have hcloses : (LexemeStream.ofSource source).Closes (s'.skip 1) := by
    refine ⟨?_, hwants⟩
    rw [LexemeStream.rest_skip, hopen]
    rfl
  have hagree := hcloses.agree_all
  rw [LexemeStream.all_of_lexeme hnext]
  generalize (LexemeStream.ofSource source).all = x at hagree ⊢
  generalize (s'.skip 1).all = y at hagree ⊢
  cases hagree with
  | error => exact .error
  | ok hlexemes => exact .ok (congrArg (_ :: ·) hlexemes)

section Stripping

variable {s s' : Input}

theorem closingIndex_congr {lexemes lexemes' : List Lexeme} (depth : Nat)
    (h : lexemes'.map (·.kind) = lexemes.map (·.kind)) :
    closingIndex? depth lexemes' = closingIndex? depth lexemes := by
  induction lexemes generalizing lexemes' depth with
  | nil => rw [List.map_eq_nil_iff.1 h]
  | cons lexeme lexemes ih =>
    obtain ⟨lexeme', rest, rfl, hkind, hrest⟩ := List.map_eq_cons_iff.1 h
    simp only [closingIndex?, hkind, ih _ hrest]

theorem Input.IsEnclosed.exists_of_kinds {opening : Lexeme} {inside : List Lexeme}
    (h : s.IsEnclosed opening inside) (hkinds : s'.kinds = s.kinds) :
    ∃ opening' inside', s'.IsEnclosed opening' inside' := by
  rw [kinds, kinds, h.rest] at hkinds
  obtain ⟨opening', inside', hrest, hopening, hinside⟩ := List.map_eq_cons_iff.1 hkinds
  refine ⟨opening', inside', hrest, hopening.trans h.opening, ?_⟩
  rw [closingIndex_congr 1 hinside, h.closing, ← List.length_map (·.kind), ← hinside, List.length_map]

/-- Which parentheses are dropped depends on the kinds of the lexemes alone. -/
theorem kinds_stripParens_congr (h : s'.kinds = s.kinds) :
    s'.stripParens.kinds = s.stripParens.kinds := by
  obtain ⟨n, hlength⟩ : ∃ n, s.kinds.length = n := ⟨_, rfl⟩
  induction n using Nat.strongRecOn generalizing s s' with
  | ind n ih =>
    by_cases henclosed : ∃ opening inside, s.IsEnclosed opening inside
    · obtain ⟨opening, inside, henclosed⟩ := henclosed
      obtain ⟨opening', inside', henclosed'⟩ := henclosed.exists_of_kinds h
      obtain ⟨t, hkinds, hstrip⟩ := henclosed.exists_inside
      obtain ⟨t', hkinds', hstrip'⟩ := henclosed'.exists_inside
      have hsame : t'.kinds = t.kinds := by
        rw [hkinds, hkinds'] at h
        exact List.append_cancel_right (List.cons.inj h).2
      have hshorter : t.kinds.length < n := by
        rw [← hlength, hkinds, List.length_cons, List.length_append]
        omega
      rw [hstrip, hstrip', ih _ hshorter hsame rfl]
    · have henclosed' : ∀ opening inside, ¬ s'.IsEnclosed opening inside :=
        fun opening inside h' => henclosed (h'.exists_of_kinds h.symm)
      have hnot : ∀ opening inside, ¬ s.IsEnclosed opening inside :=
        fun opening inside h' => henclosed ⟨opening, inside, h'⟩
      rw [stripParens_of_not_isEnclosed henclosed', stripParens_of_not_isEnclosed hnot, h]

/-- The parentheses that are dropped are pairs. -/
theorem whole_of_stripParens (h : Whole s.stripParens.kinds) : Whole s.kinds := by
  obtain ⟨n, hlength⟩ : ∃ n, s.kinds.length = n := ⟨_, rfl⟩
  induction n using Nat.strongRecOn generalizing s with
  | ind n ih =>
    by_cases henclosed : ∃ opening inside, s.IsEnclosed opening inside
    · obtain ⟨opening, inside, henclosed⟩ := henclosed
      obtain ⟨t, hkinds, hstrip⟩ := henclosed.exists_inside
      have hshorter : t.kinds.length < n := by
        rw [← hlength, hkinds, List.length_cons, List.length_append]
        omega
      rw [hkinds]
      exact .parens (ih _ hshorter (hstrip ▸ h) rfl)
    · rwa [stripParens_of_not_isEnclosed fun opening inside h' => henclosed ⟨opening, inside, h'⟩] at h

end Stripping

section Parsing

variable {s s' : Input}

/-- The paths that all of the lexemes make up. -/
def Input.parse (s : Input) : Except SelectorError (List PathExpr) := do
  let (paths, ⟨t, _⟩) ← readPaths s
  if t.rest.isEmpty then return paths else throw (t.errorHere .unexpectedToken)

theorem parsePaths_eq (source : String) :
    parsePaths source = Input.ofSource source >>= fun s => s.stripParens.parse := rfl

/-- The same paths have been read, apart from their offsets. -/
def SamePaths (paths paths' : List PathExpr) : Prop :=
  paths'.map PathExpr.unplaced = paths.map PathExpr.unplaced

theorem agree_parse (h : s'.kinds = s.kinds) : Agree SamePaths s.parse s'.parse := by
  rw [Input.parse, Input.parse]
  apply (agree_paths h).bind
  rintro ⟨paths, t, ht⟩ ⟨paths', t', ht'⟩ ⟨hpaths, hleft, -⟩
  dsimp only at hleft ⊢
  cases sameKinds_of_kinds hleft with
  | done => exact .ok hpaths
  | next => exact .error

theorem whole_of_parse {paths : List PathExpr} (h : s.parse = .ok paths) : Whole s.kinds := by
  rw [Input.parse] at h
  obtain ⟨⟨read, t, ht⟩, hread, hend⟩ := exists_of_bind_eq_ok h
  have hagree := agree_paths (s := s) rfl
  rw [hread] at hagree
  cases hagree with
  | ok hretraced =>
    have htakes := hretraced.takes
    dsimp only at hend htakes
    split at hend
    · rename_i hempty
      rw [kinds, kinds, List.isEmpty_iff.1 hempty] at htakes
      exact htakes.whole
    · cases hend

/-- No path begins with a parenthesis. -/
theorem parse_of_leftParen {more : List Lexeme.Kind} (h : s.kinds = .leftParen :: more) :
    ∃ e, s.parse = .error e := by
  obtain ⟨source, previous, offset, length, rest, stop, rfl, -⟩ := exists_input_of_kinds h
  have haxis : readAxis? ⟨source, previous, ⟨.leftParen, offset, length⟩ :: rest, stop⟩ = none := rfl
  rw [Input.parse, readPaths, readPath, readFirstStep, haxis]
  exact ⟨_, rfl⟩

/-- A source that can be parsed in parentheses has them dropped, and they are the outer ones. -/
theorem exists_inside_of_parse {paths : List PathExpr} (h : s'.kinds = .leftParen :: closing false s.kinds)
    (hparse : s'.stripParens.parse = .ok paths) :
    ∃ t : Input, t.kinds = s.kinds ∧ s'.stripParens = t.stripParens := by
  by_cases henclosed : ∃ opening inside, s'.IsEnclosed opening inside
  · obtain ⟨opening, inside, henclosed⟩ := henclosed
    obtain ⟨t, hkinds, hstrip⟩ := henclosed.exists_inside
    -- What is inside is whole, so no empty value stands at its end for one that was due.
    have hwhole : Whole t.kinds := whole_of_stripParens (whole_of_parse (hstrip ▸ hparse))
    rw [h] at hkinds
    exact ⟨t, eq_of_closing (List.cons.inj hkinds).2 hwhole.answered, hstrip⟩
  · rw [stripParens_of_not_isEnclosed fun opening inside h' => henclosed ⟨opening, inside, h'⟩] at hparse
    obtain ⟨e, herror⟩ := parse_of_leftParen h
    rw [herror] at hparse
    cases hparse

/-- So has one that can be parsed without them. -/
theorem exists_inside_of_parse_inner {paths : List PathExpr}
    (h : s'.kinds = .leftParen :: closing false s.kinds) (hparse : s.stripParens.parse = .ok paths) :
    ∃ t : Input, t.kinds = s.kinds ∧ s'.stripParens = t.stripParens := by
  have hwhole := whole_of_stripParens (whole_of_parse hparse)
  rw [closing_of_answered hwhole.answered] at h
  exact exists_stripParens h hwhole.balanced

theorem agree_parse_closing (h : s'.kinds = .leftParen :: closing false s.kinds) :
    Agree SamePaths s.stripParens.parse s'.stripParens.parse := by
  have hsame : (∃ t : Input, t.kinds = s.kinds ∧ s'.stripParens = t.stripParens) →
      Agree SamePaths s.stripParens.parse s'.stripParens.parse := by
    rintro ⟨t, hkinds, hstrip⟩
    rw [hstrip]
    exact agree_parse (kinds_stripParens_congr hkinds)
  -- A parse that succeeds, on either side, shows which parentheses are dropped.
  cases hparse : s.stripParens.parse with
  | ok paths => exact hparse ▸ hsame (exists_inside_of_parse_inner h hparse)
  | error e =>
    cases hparse' : s'.stripParens.parse with
    | ok paths => exact hparse ▸ hparse' ▸ hsame (exists_inside_of_parse h hparse')
    | error e' => exact .error

theorem agree_parsePaths (source : String) :
    Agree SamePaths (parsePaths source) (parsePaths ("(" ++ source ++ ")")) := by
  rw [parsePaths_eq, parsePaths_eq]
  exact (agree_ofSource source).bind fun s s' h => agree_parse_closing h

end Parsing

section Compilation

variable {source source' : String} {resolver : Option Resolver}

theorem agree_resolveReference (resolver : Resolver) (reference : String)
    (offset offset' length length' : Nat) :
    Agree Eq (resolveReference source resolver reference offset length)
      (resolveReference source' resolver reference offset' length') := by
  rw [resolveReference, resolveReference]
  cases parsePredicate (resolver reference) with
  | ok p => exact .ok rfl
  | error e => exact .error

theorem agree_compileCondition {condition condition' : Condition}
    (h : condition'.unplaced = condition.unplaced) :
    Agree Eq (compileCondition source resolver condition) (compileCondition source' resolver condition') := by
  cases condition with
  | predicate p =>
    cases condition' with
    | predicate p' =>
      obtain rfl := Condition.predicate.inj h
      exact .ok rfl
    | reference name offset => cases h
  | reference name offset =>
    cases condition' with
    | predicate p => cases h
    | reference name' offset' =>
      obtain ⟨rfl, -⟩ := Condition.reference.inj h
      cases resolver with
      | none => exact .ok rfl
      | some resolver => exact agree_resolveReference _ _ _ _ _ _

theorem compileConditions_cons (found : Option Predicate) (condition : Condition)
    (conditions : List Condition) :
    compileConditions source resolver found (condition :: conditions) =
      compileCondition source resolver condition >>= fun p =>
        compileConditions source resolver (some (conjoin found p)) conditions := by
  rw [compileConditions]
  cases compileCondition source resolver condition <;> rfl

theorem agree_compileConditions {conditions conditions' : List Condition} (found : Option Predicate)
    (h : conditions'.map Condition.unplaced = conditions.map Condition.unplaced) :
    Agree Eq (compileConditions source resolver found conditions)
      (compileConditions source' resolver found conditions') := by
  induction conditions generalizing conditions' found with
  | nil =>
    obtain rfl := List.map_eq_nil_iff.1 h
    exact .ok rfl
  | cons condition conditions ih =>
    obtain ⟨condition', rest, rfl, hcondition, hrest⟩ := List.map_eq_cons_iff.1 h
    rw [compileConditions_cons, compileConditions_cons]
    apply (agree_compileCondition hcondition).bind
    rintro p _ rfl
    exact ih _ hrest

theorem any_isReference {conditions conditions' : List Condition}
    (h : conditions'.map Condition.unplaced = conditions.map Condition.unplaced) :
    conditions'.any Condition.isReference = conditions.any Condition.isReference := by
  have hunplaced : Condition.isReference ∘ Condition.unplaced = Condition.isReference := by
    funext condition
    cases condition <;> rfl
  have hany := congrArg (List.any · Condition.isReference) h
  simpa only [List.any_map, hunplaced] using hany

theorem agree_compileBranches {step step' : StepExpr} (expands : Bool) (predicate : Option Predicate)
    (hnode : step'.node = step.node)
    (hconditions : step'.conditions.map Condition.unplaced = step.conditions.map Condition.unplaced) :
    Agree Eq (compileBranches source resolver expands step predicate)
      (compileBranches source' resolver expands step' predicate) := by
  unfold compileBranches
  rw [hnode, any_isReference hconditions]
  cases step.node with
  | any | pseudo p => exact .ok rfl
  | named name =>
    cases resolver with
    | none => exact .ok rfl
    | some resolver =>
      dsimp only
      split
      · have hagree : Agree Eq (resolveReference source resolver name step.offset 1)
            (resolveReference source' resolver name step'.offset 1) := agree_resolveReference _ _ _ _ _ _
        generalize resolveReference source resolver name step.offset 1 = x at hagree ⊢
        generalize resolveReference source' resolver name step'.offset 1 = y at hagree ⊢
        cases hagree with
        | error => exact .error
        | ok hsame =>
          obtain rfl := hsame
          exact .ok rfl
      · exact .ok rfl

theorem agree_compileStep {step step' : StepExpr} (expands : Bool) (h : step'.unplaced = step.unplaced) :
    Agree Eq (compileStep source resolver expands step) (compileStep source' resolver expands step') := by
  obtain ⟨haxis, hnode, hconditions, hfilter, -⟩ := StepExpr.mk.inj h
  rw [compileStep, compileStep, haxis, hfilter]
  apply (agree_compileConditions none hconditions).bind
  rintro predicate _ rfl
  apply (agree_compileBranches expands predicate hnode hconditions).bind
  rintro branches _ rfl
  exact .ok rfl

/-- Lists that are the same in what matters are mapped to the same results. -/
theorem agree_mapM {α β γ : Type} {view : α → γ} {f g : α → Except SelectorError β} {as bs : List α}
    (hfg : ∀ a b, view b = view a → Agree Eq (f a) (g b)) (h : bs.map view = as.map view) :
    Agree Eq (as.mapM f) (bs.mapM g) := by
  induction as generalizing bs with
  | nil =>
    obtain rfl := List.map_eq_nil_iff.1 h
    exact .ok rfl
  | cons a as ih =>
    obtain ⟨b, bs, rfl, hfirst, hrest⟩ := List.map_eq_cons_iff.1 h
    rw [List.mapM_cons, List.mapM_cons]
    apply (hfg a b hfirst).bind
    rintro first _ rfl
    apply (ih hrest).bind
    rintro rest _ rfl
    exact .ok rfl

theorem agree_compilePath {path path' : PathExpr} (h : path'.unplaced = path.unplaced) :
    Agree Eq (compilePath source resolver path) (compilePath source' resolver path') := by
  have hlast : path'.getLast?.map (·.node) = path.getLast?.map (·.node) := by
    have hnode : ∀ path : PathExpr, path.getLast?.map (·.node) = path.unplaced.getLast?.map (·.node) := by
      intro path
      rw [PathExpr.unplaced, List.getLast?_map, Option.map_map]
      rfl
    rw [hnode, h, ← hnode]
  rw [compilePath, compilePath, hlast]
  exact agree_mapM (fun step step' => agree_compileStep _) h

/-- The text in as many pairs of parentheses. -/
def enclose : Nat → String → String
  | 0, text => text
  | n + 1, text => "(" ++ enclose n text ++ ")"

theorem agree_compile (source : String) (dialect : Dialect) (resolver : Option Resolver) :
    Agree (fun s s' => s'.paths = s.paths) (compile source dialect resolver)
      (compile ("(" ++ source ++ ")") dialect resolver) := by
  rw [compile, compile]
  apply (agree_parsePaths source).bind
  intro paths paths' hpaths
  apply (agree_mapM (fun path path' => agree_compilePath) hpaths).bind
  rintro compiled _ rfl
  exact .ok rfl

/-- Parentheses around a whole selector make no difference: however many pairs there are, it is compiled just
if it is compiled without them, and to the same paths. -/
theorem outer_parentheses_redundant (n : Nat) (source : String) (dialect : Dialect)
    (resolver : Option Resolver) :
    (compile (enclose n source) dialect resolver).toOption.map (·.paths) =
      (compile source dialect resolver).toOption.map (·.paths) := by
  induction n with
  | zero => rfl
  | succ n ih =>
    rw [← ih, enclose]
    exact (agree_compile (enclose n source) dialect resolver).toOption fun s s' hpaths => hpaths

end Compilation

end MarkupStream.Selector
