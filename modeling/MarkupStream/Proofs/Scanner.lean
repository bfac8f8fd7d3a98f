import Mathlib.Data.List.TakeWhile
import MarkupStream.Proofs.Boundaries
import MarkupStream.Proofs.Lexing
import MarkupStream.Selector.Scanner

/-!
The scanner reads the lexemes of its source. Wherever it is, what is behind its offset is what is left of the
stream of lexemes, and so it never cuts a character. It finds the same lexemes, or the same error.
-/
namespace MarkupStream.Selector

open LexemeStream

/-- The token of a lexeme. -/
def Lexeme.token (lexeme : Lexeme) : Token := ⟨some lexeme.kind, lexeme.offset, lexeme.length⟩

namespace LexemeStream

/-- The scanner at the same place. -/
def scanner (s : LexemeStream) : Scanner := ⟨s.source, s.offset, s.wantsValue⟩

/-- What is left is what the source has behind the offset. -/
def Placed (s : LexemeStream) : Prop :=
  ∃ before, s.source.toList = before ++ s.rest ∧ byteSize before = s.offset

variable {s t : LexemeStream}

theorem placed_ofSource (source : String) : (ofSource source).Placed := ⟨[], rfl, rfl⟩

theorem Placed.skip (h : s.Placed) (count : Nat) : (s.skip count).Placed := by
  obtain ⟨before, hsource, hoffset⟩ := h
  refine ⟨before ++ s.rest.take count, ?_, ?_⟩
  · rw [rest_skip, List.append_assoc, List.take_append_drop]
    exact hsource
  · rw [byteSize_append, hoffset]
    rfl

theorem offset_skip (s : LexemeStream) (count : Nat) :
    (s.skip count).offset = s.offset + byteSize (s.rest.take count) := rfl

theorem Placed.onBoundary (h : s.Placed) : OnBoundary s.source s.offset := by
  obtain ⟨before, hsource, hoffset⟩ := h
  exact ⟨before, s.rest, hsource, hoffset⟩

theorem Placed.offset_of_end (h : s.Placed) (hrest : s.rest = []) : s.offset = s.source.utf8ByteSize := by
  obtain ⟨before, hsource, hoffset⟩ := h
  rw [utf8ByteSize_eq, hsource, hrest, List.append_nil, hoffset]

/-- The next characters as a slice. -/
theorem Placed.slice_eq (h : s.Placed) (count : Nat) :
    slice s.source s.offset (s.skip count).offset = pure (String.ofList (s.rest.take count)) := by
  obtain ⟨before, hsource, hoffset⟩ := h
  have hpieces : s.source.toList = before ++ (s.rest.take count ++ s.rest.drop count) := by
    rw [List.take_append_drop, hsource]
  have hslice := Selector.slice_eq hpieces
  rwa [hoffset] at hslice

theorem Placed.remaining_eq (h : s.Placed) : s.scanner.remaining = pure s.rest := by
  have hend : (s.skip s.rest.length).offset = s.source.utf8ByteSize :=
    (h.skip s.rest.length).offset_of_end List.drop_length
  have hslice := h.slice_eq s.rest.length
  rw [hend, List.take_length] at hslice
  rw [Scanner.remaining]
  change (do return (← slice s.source s.offset s.source.utf8ByteSize).toList) = _
  rw [hslice, pure_bind, String.toList_ofList]

theorem Placed.peek_eq (h : s.Placed) (ahead : Nat) : s.scanner.peek ahead = pure s.rest[ahead]? := by
  rw [Scanner.peek, h.remaining_eq, pure_bind]

theorem move_scanner {c : Char} {rest : List Char} (hrest : s.rest = c :: rest) :
    s.scanner.move c.utf8Size = (s.skip 1).scanner := by
  simp [Scanner.move, scanner, LexemeStream.skip, hrest]

theorem tokenFrom_skip (s : LexemeStream) (count : Nat) (kind : Option Lexeme.Kind) :
    (s.skip count).scanner.tokenFrom s.offset kind =
      pure (⟨kind, s.offset, byteSize (s.rest.take count)⟩, (s.skip count).scanner) := by
  have hlength : minus (s.skip count).offset s.offset = pure (byteSize (s.rest.take count)) := by
    rw [minus, LexemeStream.skip, if_pos (Nat.le_add_right _ _), Nat.add_sub_cancel_left]
  have hoffset : (s.skip count).scanner.offset = (s.skip count).offset := rfl
  rw [Scanner.tokenFrom, hoffset, hlength, pure_bind]

/-- To skip one character more than there are behind it. -/
theorem skip_takeWhile_cons {c : Char} {rest : List Char} (hrest : s.rest = c :: rest) {accepts : Char → Bool}
    (hc : accepts c) :
    (s.skip 1).skip ((s.skip 1).rest.takeWhile accepts).length = s.skip (s.rest.takeWhile accepts).length := by
  rw [skip_skip, rest_skip, hrest, List.takeWhile_cons_of_pos hc, List.length_cons, Nat.add_comm]
  rfl

theorem Placed.skipWhile_eq (h : s.Placed) (accepts : Char → Bool) :
    s.scanner.skipWhile accepts = pure (s.skip (s.rest.takeWhile accepts).length).scanner := by
  induction hrest : s.rest generalizing s with
  | nil =>
    apply rounds_of_last
    rw [h.peek_eq, pure_bind, hrest]
    rfl
  | cons c rest ih =>
    by_cases hc : accepts c
    · have hskip := skip_takeWhile_cons hrest hc
      have htail : (s.skip 1).rest = rest := by rw [rest_skip, hrest, List.drop_one, List.tail_cons]
      rw [htail, hrest] at hskip
      rw [← hskip, ← ih (h.skip 1) htail]
      apply rounds_of_again
      rw [h.peek_eq, pure_bind, hrest, List.getElem?_cons_zero]
      exact (if_pos hc).trans (congrArg (fun t => pure (Round.again t)) (move_scanner hrest))
    · rw [List.takeWhile_cons_of_neg hc, List.length_nil, skip_zero]
      apply rounds_of_last
      rw [h.peek_eq, pure_bind, hrest, List.getElem?_cons_zero]
      exact if_neg hc

end LexemeStream

/-- The token that stands for a lexeme, or for the end of the source if there is none. -/
inductive TokenOf (source : String) : Option Lexeme → Token → Prop
  | lexeme (lexeme : Lexeme) : OnBoundary source lexeme.offset → TokenOf source (some lexeme) lexeme.token
  | finish : TokenOf source none ⟨none, source.utf8ByteSize, 0⟩

/-- What the scanner found is the lexeme, and it is where the stream is. -/
structure Scanned (source : String) (t : LexemeStream) (found : Token × Scanner) (lexeme : Option Lexeme) :
    Prop where
  token : TokenOf source lexeme found.1
  scanner : found.2 = t.scanner
  placed : t.Placed
  source : t.source = source

/-- The scanner is asked for a token, and the stream for a lexeme. -/
def Scans (source : String) (x : Outcome (Token × Scanner)) (r : LexemeStream.Result) : Prop :=
  Tracks source (Scanned source r.2) x r.1

namespace LexemeStream

variable {s : LexemeStream}

theorem Placed.scans_emit (h : s.Placed) (kind : Lexeme.Kind) (count : Nat) :
    Scans s.source ((s.skip count).scanner.tokenFrom s.offset (some kind)) (s.emit kind count) := by
  rw [tokenFrom_skip]
  exact .ok ⟨.lexeme ⟨kind, s.offset, _⟩ h.onBoundary, rfl, h.skip count, rfl⟩

theorem Placed.scans_fail (h : s.Placed) (length : Nat) (flaw : SelectorFlaw) :
    Scans s.source (refuse s.source s.offset length flaw) (s.fail length flaw) :=
  tracks_refuse h.onBoundary length flaw

/-- A character is found behind those that are different. -/
theorem cases_find? (mark : Char) (chars : List Char) :
    (∃ inner behind, chars = inner ++ mark :: behind ∧ (∀ c ∈ inner, c != mark) ∧
        Scanner.find? mark chars = some (byteSize inner)) ∨
      (∀ c ∈ chars, c != mark) ∧ Scanner.find? mark chars = none := by
  induction chars with
  | nil => exact .inr ⟨by simp, rfl⟩
  | cons c chars ih =>
    rw [Scanner.find?]
    by_cases hc : c == mark
    · rw [if_pos hc, ← beq_iff_eq.1 hc]
      exact .inl ⟨[], chars, rfl, by simp, rfl⟩
    · have hne : (c != mark) = true := by rw [bne, Bool.not_eq_true', ← Bool.not_eq_true]; exact hc
      rw [if_neg hc]
      rcases ih with ⟨inner, behind, rfl, hinner, hfind⟩ | ⟨hall, hfind⟩
      · exact .inl ⟨c :: inner, behind, rfl, List.forall_mem_cons.2 ⟨hne, hinner⟩, by rw [hfind]; rfl⟩
      · exact .inr ⟨List.forall_mem_cons.2 ⟨hne, hall⟩, by rw [hfind]; rfl⟩

theorem utf8Size_of_isQuoteMark {mark : Char} (hmark : isQuoteMark mark) : mark.utf8Size = 1 := by
  rcases isQuoteMark_iff.1 hmark with rfl | rfl <;> rfl

theorem Placed.scans_readQuoted (h : s.Placed) {mark : Char} {tail : List Char} (hrest : s.rest = mark :: tail)
    (hmark : isQuoteMark mark) : Scans s.source (s.scanner.readQuoted mark) (s.readQuoted mark) := by
  have hsize := utf8Size_of_isQuoteMark hmark
  have htail : (s.skip 1).rest = tail := by rw [rest_skip, hrest, List.drop_one, List.tail_cons]
  have hmove : s.scanner.move 1 = (s.skip 1).scanner := by rw [← move_scanner hrest, hsize]
  rw [Scanner.readQuoted, hmove, (h.skip 1).remaining_eq, pure_bind, htail]
  unfold LexemeStream.readQuoted
  dsimp only
  rw [hrest, List.drop_one, List.tail_cons]
  rcases cases_find? mark tail with ⟨inner, behind, rfl, hinner, hfind⟩ | ⟨hall, hfind⟩
  · have htake : (inner ++ mark :: behind).takeWhile (· != mark) = inner := by
      rw [List.takeWhile_append_of_pos hinner, List.takeWhile_cons_of_neg (by simp), List.append_nil]
    rw [hfind, htake, if_pos (by simp)]
    have hinside : (s.skip 1).rest.take inner.length = inner := by rw [htail, List.take_left]
    have hoffset : ((s.skip 1).skip inner.length).offset = (s.skip 1).offset + byteSize inner := by
      rw [offset_skip (s.skip 1), hinside]
    have hslice : slice s.source (s.skip 1).offset ((s.skip 1).skip inner.length).offset =
        pure (String.ofList ((s.skip 1).rest.take inner.length)) := (h.skip 1).slice_eq inner.length
    rw [hoffset, hinside] at hslice
    have hwhole : s.rest.take (inner.length + 2) = mark :: (inner ++ [mark]) := by
      rw [hrest, List.take_succ_cons, List.take_length_add_append]
      rfl
    have hsum : (s.skip 1).offset + (byteSize inner + 1) = (s.skip (inner.length + 2)).offset := by
      rw [offset_skip, offset_skip, hwhole, hrest, List.take_one, List.head?_cons, Option.toList_some,
        byteSize_cons, byteSize_cons, byteSize_append, byteSize_cons, hsize, byteSize_nil]
      omega
    have hend : (s.skip 1).scanner.move (byteSize inner + 1) = (s.skip (inner.length + 2)).scanner :=
      congrArg (Scanner.mk s.source · s.wantsValue) hsum
    change Scans s.source (slice s.source (s.skip 1).offset ((s.skip 1).offset + byteSize inner) >>= _) _
    rw [hslice, pure_bind, hend]
    exact h.scans_emit _ _
  · have htake : tail.takeWhile (· != mark) = tail := List.takeWhile_eq_self_iff.2 hall
    rw [hfind, htake, if_neg (by simp)]
    have hlength : minus s.source.utf8ByteSize s.offset = pure (s.source.utf8ByteSize - s.offset) :=
      if_pos h.onBoundary.le
    change Scans s.source (minus s.source.utf8ByteSize s.offset >>= _) _
    rw [hlength, pure_bind]
    exact tracks_refuse h.onBoundary _ _

/-- A value without quotes is left where it ends, and a quote in it is refused. -/
theorem Placed.skipBare_eq (h : s.Placed) {t : LexemeStream}
    (ht : t = s.skip (s.rest.takeWhile isBareChar).length) :
    s.scanner.skipBare =
      if t.rest.head?.any isQuoteMark then refuse t.source t.offset 1 .quoteInBareValue
      else pure t.scanner := by
  induction hrest : s.rest generalizing s with
  | nil =>
    rw [hrest, List.takeWhile_nil, List.length_nil, skip_zero] at ht
    rw [ht, hrest]
    apply rounds_of_last
    rw [h.peek_eq, pure_bind, hrest]
    rfl
  | cons c rest ih =>
    have htail : (s.skip 1).rest = rest := by rw [rest_skip, hrest, List.drop_one, List.tail_cons]
    have hpeek : s.scanner.peek 0 = pure (some c) := by rw [h.peek_eq, hrest, List.getElem?_cons_zero]
    by_cases hc : isBareChar c
    · have hskip := skip_takeWhile_cons hrest hc
      have hnot : ¬ (isBlank c || c == ']' || c == ')') ∧ ¬ isQuoteMark c := by
        rw [isBareChar, Bool.not_eq_true', Bool.or_eq_false_iff] at hc
        rw [hc.1, hc.2]
        exact ⟨Bool.false_ne_true, Bool.false_ne_true⟩
      rw [← ih (h.skip 1) (ht.trans hskip.symm) htail]
      apply rounds_of_again
      rw [hpeek, pure_bind]
      dsimp only
      rw [if_neg hnot.1, if_neg hnot.2, move_scanner hrest]
    · rw [hrest, List.takeWhile_cons_of_neg hc, List.length_nil, skip_zero] at ht
      rw [ht, hrest, List.head?_cons, Option.any_some]
      by_cases hstop : isBlank c || c == ']' || c == ')'
      · have hquote : ¬ isQuoteMark c := by
          intro hmark
          rcases isQuoteMark_iff.1 hmark with rfl | rfl <;> exact absurd hstop (by decide)
        rw [if_neg hquote]
        apply rounds_of_last
        rw [hpeek, pure_bind]
        exact if_pos hstop
      · have hquote : isQuoteMark c := by
          by_contra hmark
          apply hc
          rw [isBareChar, Bool.not_eq_true', Bool.or_eq_false_iff, ← Bool.not_eq_true, ← Bool.not_eq_true]
          exact ⟨hstop, hmark⟩
        rw [if_pos hquote]
        apply rounds_of_refuse
        rw [hpeek, pure_bind]
        dsimp only
        rw [if_neg hstop, if_pos hquote]
        rfl

/-- The text that was moved over, as a token. -/
theorem Placed.scans_text (h : s.Placed) (kind : String → Lexeme.Kind) {count : Nat} {text : List Char}
    (htext : s.rest.take count = text) :
    Scans s.source (do
        let piece ← slice s.source s.offset (s.skip count).offset
        (s.skip count).scanner.tokenFrom s.offset (some (kind piece)))
      (s.emit (kind (String.ofList text)) count) := by
  rw [h.slice_eq, pure_bind, htext]
  exact h.scans_emit _ _

theorem take_takeWhile (accepts : Char → Bool) (chars : List Char) :
    chars.take (chars.takeWhile accepts).length = chars.takeWhile accepts :=
  (List.prefix_iff_eq_take.1 (List.takeWhile_prefix accepts)).symm

theorem Placed.scans_readBare (h : s.Placed) : Scans s.source s.scanner.readBare s.readBare := by
  have hbare := h.skipBare_eq rfl
  have hemit := h.scans_text .bare (take_takeWhile isBareChar s.rest)
  have hrefuse := tracks_refuse (R := fun (_ : Scanner) (_ : Unit) => False)
    (h.skip (s.rest.takeWhile isBareChar).length).onBoundary 1 .quoteInBareValue
  rw [Scanner.readBare, hbare]
  unfold LexemeStream.readBare
  dsimp only
  rw [rest_skip]
  cases hrest : s.rest.drop (s.rest.takeWhile isBareChar).length with
  | nil => exact hemit
  | cons c rest =>
    rw [List.head?_cons, Option.any_some]
    dsimp only
    split
    · exact hrefuse.bind_error _
    · exact hemit

theorem Placed.scans_readWord (h : s.Placed) :
    Scans s.source s.scanner.readWord
      (s.emit (.word (String.ofList (s.rest.takeWhile isWordChar))) (s.rest.takeWhile isWordChar).length) := by
  rw [Scanner.readWord, h.skipWhile_eq, pure_bind]
  exact h.scans_text .word (take_takeWhile isWordChar s.rest)

/-- The fixed lexemes consist of ASCII characters. -/
theorem byteSize_of_fixedKind {c : Char} {rest : List Char} {kind : Lexeme.Kind} {count : Nat}
    (h : fixedKind? c rest.head? = some (kind, count)) : byteSize ((c :: rest).take count) = count := by
  have hrest : ∀ d, rest.head? = some d → ∃ tail, rest = d :: tail := by
    intro d hd
    exact List.head?_eq_some_iff.1 hd
  unfold fixedKind? at h
  split at h
  all_goals first
    | cases h; done
    | cases h; rfl
    | cases h
      rename_i hafter
      obtain ⟨tail, rfl⟩ := hrest _ hafter
      rfl

theorem Placed.scans_readPlain (h : s.Placed) {c : Char} {tail : List Char} (hrest : s.rest = c :: tail) :
    Scans s.source (s.scanner.readPlain c) (s.readPlain c) := by
  have hahead : s.rest[1]? = tail.head? := by rw [hrest, List.getElem?_cons_succ, List.head?_eq_getElem?]
  have hdrop : (s.rest.drop 1).head? = tail.head? := by rw [hrest, List.drop_one, List.tail_cons]
  rw [Scanner.readPlain, h.peek_eq, pure_bind, hahead]
  unfold LexemeStream.readPlain
  rw [hdrop]
  have hmove : ∀ {kind : Lexeme.Kind} {count : Nat}, fixedKind? c tail.head? = some (kind, count) →
      s.scanner.move count = (s.skip count).scanner := by
    intro kind count hkind
    have hsize := byteSize_of_fixedKind hkind
    rw [← hrest] at hsize
    rw [Scanner.move, scanner, scanner, offset_skip, hsize]
    rfl
  cases hkind : fixedKind? c tail.head? with
  | some pair =>
    obtain ⟨kind, count⟩ := pair
    have hmoved := hmove hkind
    cases kind with
    | comparison op =>
      have hplaced : Placed { s with wantsValue := true } := h
      dsimp only
      rw [hmoved]
      exact hplaced.scans_emit (.comparison op) count
    | _ =>
      dsimp only
      rw [hmoved]
      exact h.scans_emit _ count
  | none =>
    dsimp only
    split
    · rename_i hmark
      exact h.scans_readQuoted hrest hmark
    · by_cases hword : isWordChar c
      · have hsome : ¬ (s.rest.takeWhile isWordChar).isEmpty := by
          rw [hrest, List.takeWhile_cons_of_pos hword]
          exact Bool.false_ne_true
        rw [if_pos hword, if_neg hsome]
        exact h.scans_readWord
      · have hnone : (s.rest.takeWhile isWordChar).isEmpty := by
          rw [hrest, List.takeWhile_cons_of_neg hword]
          rfl
        rw [if_neg hword, if_pos hnone]
        exact h.scans_fail _ _

theorem Placed.scans_next (h : s.Placed) : Scans s.source s.scanner.next s.next := by
  have hskip : s.scanner.skipWhile isBlank = pure s.skipBlanks.scanner := h.skipWhile_eq isBlank
  have hplaced : s.skipBlanks.Placed := h.skip _
  rw [Scanner.next, hskip, pure_bind, hplaced.peek_eq, pure_bind]
  unfold LexemeStream.next
  dsimp only
  cases hrest : s.skipBlanks.rest with
  | nil =>
    have htoken := tokenFrom_skip s.skipBlanks 0 none
    rw [skip_zero, List.take_zero, byteSize_nil, hplaced.offset_of_end hrest] at htoken
    change Scans s.source (s.skipBlanks.scanner.tokenFrom s.skipBlanks.offset none) _
    rw [hplaced.offset_of_end hrest, htoken]
    exact .ok ⟨.finish, rfl, hplaced, rfl⟩
  | cons c tail =>
    rw [List.getElem?_cons_zero]
    dsimp only
    have hwants : s.skipBlanks.scanner.wantsValue = s.skipBlanks.wantsValue := rfl
    rw [hwants]
    split
    · have hvalue : Placed { s.skipBlanks with wantsValue := false } := hplaced
      rw [← hrest]
      split
      · rename_i hmark
        exact hvalue.scans_readQuoted hrest hmark
      · exact hvalue.scans_readBare
    · exact hplaced.scans_readPlain hrest

/-- All tokens of the source, and the end of it behind them. -/
def TokensOf (source : String) (tokens : List Token) (lexemes : List Lexeme) : Prop :=
  tokens = lexemes.map Lexeme.token ++ [⟨none, source.utf8ByteSize, 0⟩] ∧
    ∀ lexeme ∈ lexemes, OnBoundary source lexeme.offset

/-- The tokens that are left are added to those found. -/
theorem Placed.tracks_addTokens (h : s.Placed) (found : List Token) :
    Tracks s.source (fun a lexemes => ∃ later, a.1 = found ++ later ∧ TokensOf s.source later lexemes)
      (Scanner.addTokens found s.scanner) s.all := by
  induction s using all.induct generalizing found with
  | case1 s t hnext =>
    have hscans := h.scans_next
    rw [hnext] at hscans
    obtain ⟨⟨token, u⟩, hfound, hscanned⟩ := Tracks.exists_of_ok hscans
    rw [all_of_none hnext]
    cases hscanned.token with
    | finish =>
      have hround : Scanner.addToken found s.scanner =
          pure (.last (found ++ [⟨none, s.source.utf8ByteSize, 0⟩], u)) := by
        rw [Scanner.addToken, hfound]
        rfl
      rw [Scanner.addTokens, rounds_of_last hround]
      exact .ok ⟨_, rfl, rfl, by simp⟩
  | case2 s lexeme t hnext ih =>
    have hscans := h.scans_next
    rw [hnext] at hscans
    obtain ⟨⟨token, u⟩, hfound, hscanned⟩ := Tracks.exists_of_ok hscans
    have hmap : t.all.map (lexeme :: ·) = t.all >>= fun lexemes => .ok (lexeme :: lexemes) := by
      cases t.all <;> rfl
    have hlater := ih hscanned.placed (found ++ [token])
    rw [hscanned.source, ← hscanned.scanner] at hlater
    rw [all_of_lexeme hnext, hmap]
    cases hscanned.token with
    | lexeme _ hboundary =>
      have hround : Scanner.addToken found s.scanner = pure (.again (found ++ [lexeme.token], u)) := by
        rw [Scanner.addToken, hfound]
        rfl
      have hagain : Scanner.addTokens found s.scanner = Scanner.addTokens (found ++ [lexeme.token]) u :=
        rounds_of_again hround
      rw [hagain]
      apply hlater.followed
      rintro _ lexemes ⟨later, hall, rfl, hrest⟩
      rw [List.append_assoc] at hall
      exact .ok ⟨_, hall, rfl, List.forall_mem_cons.2 ⟨hboundary, hrest⟩⟩
  | case3 s e t hnext =>
    have hscans := h.scans_next
    rw [hnext] at hscans
    rw [Scanner.addTokens, rounds_eq, all_of_error hnext]
    dsimp only
    rw [Scanner.addToken, bind_assoc]
    exact hscans.bind_error _

end LexemeStream

/-- The scanner finds the tokens of the source. -/
theorem tracks_tokens (source : String) :
    Tracks source (LexemeStream.TokensOf source) (Scanner.ofSource source).tokens (lexemes source) := by
  have htracks := (placed_ofSource source).tracks_addTokens []
  rw [Scanner.tokens, lexemes, ← bind_pure (all _)]
  apply htracks.bind
  rintro ⟨found, s⟩ lexemes ⟨later, rfl, hlater⟩
  exact .ok hlater

end MarkupStream.Selector
