import Mathlib.Data.Set.Card
import MarkupStream.Proofs.Rounds
import MarkupStream.Proofs.Tokenizer

/-!
Progress of a tokenizer. However tokens and literal text are asked for, every token takes the bytes from
where the tokenizer stood to where it stands then, and there is one byte at least. So no document has more
tokens than bytes, and once there is no token, for whatever reason, there is none any more. All this holds
in a document of any length, but only if the document is not too long does the span of a token say which bytes
it took.
-/
namespace MarkupStream.Tokenizer

open Cursor

/-- What a caller may ask of a tokenizer. -/
inductive Call where
  | next
  | literalUntil (name : Bytes)
  deriving DecidableEq, Repr

abbrev Answer := Except ParseError (Option Token)

/-- The answers to calls, in order, and the tokenizer after them. -/
def run (t : Tokenizer) : List Call → List Answer × Tokenizer
  | [] => ([], t)
  | .next :: calls => (t.next.1 :: (run t.next.2 calls).1, (run t.next.2 calls).2)
  | .literalUntil name :: calls => run (t.literalUntil name) calls

def token? : Answer → Option Token
  | .ok token? => token?
  | .error _ => none

def tokensOf (answers : List Answer) : List Token := answers.filterMap token?

/-- The token that a call gives. -/
def tokenOn? (t : Tokenizer) : Call → Option Token
  | .next => token? t.next.1
  | .literalUntil _ => none

section End

variable {t : Tokenizer}

theorem token?_eq_none {answer : Answer} : token? answer = none ↔ ∀ token, answer ≠ .ok (some token) := by
  cases answer with
  | error e => exact ⟨fun _ => nofun, fun _ => rfl⟩
  | ok found => cases found <;> simp [token?]

theorem next_of_token? {token : Token} (h : token? t.next.1 = some token) :
    t.next = (.ok (some token), t.next.2) := by
  cases hanswer : t.next.1 with
  | error e =>
    rw [hanswer] at h
    cases h
  | ok found =>
    rw [hanswer] at h
    obtain rfl : found = some token := h
    rw [← hanswer]

theorem next_of_done (h : t.mode = .done) : t.next = (.ok none, t) := by
  rw [next, h]

theorem literalUntil_of_done (h : t.mode = .done) (name : Bytes) : t.literalUntil name = t := by
  rw [literalUntil, h]

/-- A tokenizer that is done stays as it is, whatever it is asked for. -/
theorem run_of_done (h : t.mode = .done) (calls : List Call) :
    t.run calls = (List.replicate (calls.count .next) (.ok none), t) := by
  induction calls with
  | nil => rfl
  | cons call calls ih =>
    cases call with
    | next =>
      rw [run, next_of_done h, ih, List.count_cons_self, List.replicate_succ]
    | literalUntil name =>
      have hcount : (Call.literalUntil name :: calls).count .next = calls.count .next :=
        List.count_cons_of_ne Call.noConfusion
      rw [run, literalUntil_of_done h, ih, hcount]

end End

section Advance

variable {doc : Repetition} {t u : Tokenizer} {token : Token}

/-- What a token is called after is what stands between the tokenizer before it and the tokenizer after it. -/
theorem Stands.span_next (hlength : doc.length ≤ Span.maxInputLength) (h : t.Stands doc)
    (hnext : t.next = (.ok (some token), u)) : token.span = ⟨t.offset, u.offset⟩ := by
  obtain ⟨next, parts, warnings, hu, htiled, -⟩ :=
    (TokenStream.outcome_of_next (h.stream_of_next hlength hnext)).token
  have hcursor : next = u.cursor := (congrArg TokenStream.cursor hu).symm
  rw [htiled.span_eq, hcursor]
  rfl

theorem Stands.run (h : t.Stands doc) (calls : List Call) : (t.run calls).2.Stands doc := by
  induction calls generalizing t with
  | nil => exact h
  | cons call calls ih =>
    cases call with
    | next => exact ih h.next
    | literalUntil name => exact ih (h.literalUntil name)

/-- A tokenizer that gave a token stood in the document, and still does. -/
theorem Stands.reaches (h : t.Stands doc) (hnext : t.next = (.ok (some token), u)) :
    t.doc = doc ∧ (start doc.bytes).Reaches t.cursor ∧ (start doc.bytes).Reaches u.cursor := by
  have ht : t.mode ≠ .done := by
    intro hdone
    rw [next_of_done hdone] at hnext
    cases hnext
  obtain ⟨hdoc, hc⟩ := h ht
  exact ⟨hdoc, hc, hc.trans (reaches_next hnext).2.1⟩

end Advance

section Count

variable {t : Tokenizer}

theorem run_append (t : Tokenizer) (calls more : List Call) :
    t.run (calls ++ more) =
      ((t.run calls).1 ++ ((t.run calls).2.run more).1, ((t.run calls).2.run more).2) := by
  induction calls generalizing t with
  | nil => rfl
  | cons call calls ih =>
    cases call with
    | next => rw [List.cons_append, run, ih, run, List.cons_append]
    | literalUntil name => exact ih _

theorem tokensOf_run_singleton (t : Tokenizer) (call : Call) :
    tokensOf (t.run [call]).1 = (t.tokenOn? call).toList := by
  cases call with
  | next =>
    rw [run, run, tokensOf, List.filterMap_cons, List.filterMap_nil, tokenOn?]
    cases token? t.next.1 <;> rfl
  | literalUntil name => rfl

/-- Every token leaves fewer bytes for those to come. -/
theorem length_tokensOf_run_le (t : Tokenizer) (calls : List Call) :
    (tokensOf (t.run calls).1).length ≤ t.cursor.rest.length := by
  induction calls generalizing t with
  | nil => exact Nat.zero_le _
  | cons call calls ih =>
    cases call with
    | literalUntil name =>
      have hrest := ih (t.literalUntil name)
      rwa [cursor_literalUntil] at hrest
    | next =>
      rw [run, tokensOf, List.filterMap_cons]
      cases htoken : token? t.next.1 with
      | none =>
        have hnothing : tokensOf (List.replicate (calls.count .next) (.ok none)) = [] :=
          List.filterMap_replicate_of_none rfl
        rw [run_of_done (mode_next (token?_eq_none.1 htoken))]
        dsimp only
        rw [← tokensOf, hnothing]
        exact Nat.zero_le _
      | some token =>
        have hlength := length_next_lt (next_of_token? htoken)
        have hrest := ih t.next.2
        rw [tokensOf] at hrest
        rw [List.length_cons]
        omega

/-- The first calls of a sequence that never ends. -/
def firstCalls (calls : Nat → Call) (count : Nat) : List Call := (List.range count).map calls

theorem firstCalls_succ (calls : Nat → Call) (count : Nat) :
    firstCalls calls (count + 1) = firstCalls calls count ++ [calls count] := by
  rw [firstCalls, List.range_succ, List.map_append]
  rfl

/-- The calls that give a token, in a sequence that never ends. -/
def tokenCalls (t : Tokenizer) (calls : Nat → Call) : Set Nat :=
  {i | ((t.run (firstCalls calls i)).2.tokenOn? (calls i)).isSome}

/-- How many tokens the first calls give. -/
def tokenCount (t : Tokenizer) (calls : Nat → Call) (count : Nat) : Nat :=
  (tokensOf (t.run (firstCalls calls count)).1).length

theorem tokenCount_succ (t : Tokenizer) (calls : Nat → Call) (count : Nat) :
    t.tokenCount calls (count + 1) = t.tokenCount calls count +
      ((t.run (firstCalls calls count)).2.tokenOn? (calls count)).toList.length := by
  rw [tokenCount, firstCalls_succ, run_append, tokensOf, List.filterMap_append, List.length_append,
    ← tokensOf, ← tokensOf, tokensOf_run_singleton]
  rfl

theorem tokenCount_lt (calls : Nat → Call) {i j : Nat} (hi : i ∈ t.tokenCalls calls) (hlt : i < j) :
    t.tokenCount calls i < t.tokenCount calls j := by
  have hmono : Monotone (t.tokenCount calls) :=
    monotone_nat_of_le_succ fun count => by
      rw [tokenCount_succ]
      exact Nat.le_add_right _ _
  have hsucc : t.tokenCount calls i < t.tokenCount calls (i + 1) := by
    obtain ⟨token, htoken⟩ := Option.isSome_iff_exists.1 hi
    rw [tokenCount_succ, htoken]
    exact Nat.lt_succ_self _
  exact Nat.lt_of_lt_of_le hsucc (hmono hlt)

/-- Even of infinitely many calls no more give a token than there are bytes left. -/
theorem encard_tokenCalls_le (t : Tokenizer) (calls : Nat → Call) :
    (t.tokenCalls calls).encard ≤ t.cursor.rest.length := by
  -- The calls that give a token are told apart by how many tokens there were before.
  have hinj : Set.InjOn (t.tokenCount calls) (t.tokenCalls calls) := by
    intro i hi j hj heq
    rcases Nat.lt_trichotomy i j with hlt | rfl | hlt
    · exact absurd heq (Nat.ne_of_lt (tokenCount_lt calls hi hlt))
    · rfl
    · exact absurd heq.symm (Nat.ne_of_lt (tokenCount_lt calls hj hlt))
  have hmaps : Set.MapsTo (t.tokenCount calls) (t.tokenCalls calls)
      (Finset.range t.cursor.rest.length) := by
    intro i hi
    have hlt := tokenCount_lt calls hi (Nat.lt_succ_self i)
    have hle := length_tokensOf_run_le t (firstCalls calls (i + 1))
    exact Finset.mem_coe.2 (Finset.mem_range.2 (Nat.lt_of_lt_of_le hlt hle))
  calc (t.tokenCalls calls).encard
      ≤ ((Finset.range t.cursor.rest.length : Finset Nat) : Set Nat).encard :=
        Set.encard_le_encard_of_injOn hmaps hinj
    _ = t.cursor.rest.length := by rw [Set.encard_coe_eq_coe_finsetCard, Finset.card_range]

end Count

/-- Tokens are read with progress, in every document and both dialects, however they are asked for and
wherever literal text is. Whatever has been called so far, a token takes the bytes from the offset before
the call to the offset after it, and one byte at least; as long as the document is not too long, that is what
its span says. If there is no token, then whatever is called later gives none, and nothing is changed by it
any more, not even by asking for literal text. So there are no more tokens than bytes, even of infinitely
many calls, and in each of them every loop ends. -/
theorem tokens_progress (doc : Repetition) (dialect : Dialect) :
    let start := ofDocument doc dialect
    (∀ calls, let t := (start.run calls).2
      (∀ token u, t.next = (.ok (some token), u) → t.offset < u.offset ∧ u.offset ≤ doc.length ∧
        (doc.length ≤ Span.maxInputLength → token.span = ⟨t.offset, u.offset⟩)) ∧
      ((∀ token, t.next.1 ≠ .ok (some token)) → ∀ later,
        t.next.2.run later = (List.replicate (later.count .next) (.ok none), t.next.2))) ∧
    (∀ calls, (tokensOf (start.run calls).1).length ≤ doc.length) ∧
    (∀ calls : Nat → Call, (start.tokenCalls calls).encard ≤ doc.length) ∧
    TokenStream.LoopsEnd := by
  intro start
  have hstart : start.cursor.rest.length = doc.length :=
    (congrArg List.length (Repetition.joined_eq doc)).trans doc.length_bytes
  have hcount := length_tokensOf_run_le start
  have hcalls := encard_tokenCalls_le start
  rw [hstart] at hcount hcalls
  refine ⟨fun calls => ⟨fun token u hnext => ?_, fun hnone later => run_of_done (mode_next hnone) later⟩,
    hcount, hcalls, TokenStream.loopsEnd⟩
  have hstands := (stands_ofDocument doc dialect).run calls
  have hend := (hstands.reaches hnext).2.2.offset_le_length
  rw [doc.length_bytes] at hend
  exact ⟨(reaches_next hnext).2.2, hend, fun hlength => hstands.span_next hlength hnext⟩

/-- A text that is one byte too long takes all its bytes, but its span is that of a text without any. -/
theorem longText_spans_nothing :
    let doc : Repetition := [(Bytes.ofString "x", 4294967296)]
    let t := ofDocument doc .html
    ∃ u, t.next = (.ok (some (.text ⟨0, 0⟩)), u) ∧ t.offset = 0 ∧ u.offset = 4294967296 := by
  intro doc t
  exact ⟨t.next.2, next_of_token? (by decide), rfl, by decide⟩

end MarkupStream.Tokenizer
