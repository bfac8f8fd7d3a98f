import MarkupStream.Proofs.Permissive
import MarkupStream.Proofs.Spelling

/-!
Reading HTML without regard to case. Two documents that differ only in the case of letters inside names
are read in step: no name that is read reaches back behind the cursor, so what the two have in front of
it differs inside the names still to be read, and neither the tokens nor the values of attributes tell
the difference.
-/
namespace MarkupStream

/-- Two documents are the same but for the case of letters inside some names. -/
structure DifferInCase (names : List Span) (a b : Bytes) : Prop where
  foldCase_eq : a.foldCase = b.foldCase
  inside : ∀ i, i < a.length → a[i]? ≠ b[i]? → ∃ name ∈ names, name.start ≤ i ∧ i < name.stop

/-- Between two offsets, two documents differ inside some names at most. -/
def DifferInside (a b : Bytes) (names : List Span) (start stop : Nat) : Prop :=
  ∀ i, start ≤ i → i < stop → a[i]? ≠ b[i]? → ∃ name ∈ names, name.start ≤ i ∧ i < name.stop

/-- Where there are no names, there is no difference. -/
theorem DifferInside.take_drop_eq {a b : Bytes} {names : List Span} {start stop : Nat}
    (h : DifferInside a b names start stop) {span : Span} (hwithin : span.Within start stop)
    (hapart : ∀ name ∈ names, span.Apart name) :
    (a.drop span.start).take (span.stop - span.start) =
      (b.drop span.start).take (span.stop - span.start) := by
  apply List.ext_getElem?
  intro i
  rw [List.getElem?_take, List.getElem?_take, List.getElem?_drop, List.getElem?_drop]
  by_cases hi : i < span.stop - span.start
  · rw [if_pos hi, if_pos hi]
    by_cases heq : a[span.start + i]? = b[span.start + i]?
    · exact heq
    · have hstart := hwithin.start_le
      have hstop := hwithin.stop_le
      obtain ⟨name, hmem, hle, hlt⟩ := h (span.start + i) (by omega) (by omega) heq
      have hname := hapart name hmem
      rw [Span.Apart] at hname
      omega
  · rw [if_neg hi, if_neg hi]

theorem DifferInside.slice_eq {a b : Bytes} {names : List Span} {start stop : Nat}
    (h : DifferInside a b names start stop) {span : Span} (hwithin : span.Within start stop)
    (hapart : ∀ name ∈ names, span.Apart name) : span.slice a = span.slice b := by
  rw [Span.slice, Span.slice, Span.length, h.take_drop_eq hwithin hapart]

/-- The values in a tag are the same in two documents that differ inside its names at most. -/
theorem Token.Opens.values_eq {a b : Bytes} {c next : Cursor} {tag : OpenTag}
    (h : Token.Opens c tag next)
    (hsame : DifferInside a b (Token.openTag tag).names c.offset next.offset) :
    ∀ x ∈ attributesOf tag.parts, x.valueBytes a = x.valueBytes b := by
  intro x hx
  cases hs : x.assigned with
  | none => rw [Attribute.valueBytes, Attribute.valueBytes, hs]
  | some s =>
    have hspan := h.attribute_within hx
    have hname := (h.laidOut x hx).name
    have hvalue := (h.laidOut x hx).value s hs
    have hstart : c.offset ≤ x.name.stop := by
      have htag := h.name
      exact Nat.le_trans (Nat.le_trans htag.start_le htag.le)
        (Nat.le_trans hspan.start_le (Nat.le_trans hname.start_le hname.le))
    rw [Attribute.valueBytes, Attribute.valueBytes, hs]
    exact hsame.slice_eq (hvalue.mono hstart hspan.stop_le) (h.value_apart hx hs)

namespace TokenStream

/-- In HTML a step reads on in the same document. -/
theorem next_html {s : TokenStream} (hd : s.dialect = .html) :
    s.next.2.input = s.input ∧ s.next.2.dialect = s.dialect ∧ s.cursor.Reaches s.next.2.cursor := by
  cases h : s.next with
  | mk answer u =>
    cases answer with
    | error e => exact absurd h (next_ne_error hd)
    | ok token? =>
      cases token? with
      | none =>
        rw [(next_eq_none h).1]
        exact ⟨rfl, rfl, Cursor.Reaches.refl _⟩
      | some token =>
        obtain ⟨next, parts, warnings, rfl, htiled, -⟩ := (outcome_of_next h).token
        exact ⟨rfl, rfl, htiled.1⟩

theorem within_of_next {s u : TokenStream} {token : Token} (h : s.next = (.ok (some token), u)) :
    ∀ name ∈ token.names, name.Within s.cursor.offset u.cursor.offset := by
  cases outcome_of_next h with
  | text => exact fun name hmem => absurd hmem List.not_mem_nil
  | node hread | opened hread | repeated _ hread => exact Token.within_of_mem_names hread

/-- Two streams at the same place in two documents with the same letters, where the attributes of the
last open tag have the same values. -/
structure Alike (a b : Bytes) (s t : TokenStream) : Prop where
  foldCase_eq : s.foldCase = t.foldCase
  dialect : s.dialect = .html
  input : s.input = a
  input' : t.input = b
  reaches : (Cursor.start a).Reaches s.cursor
  reaches' : (Cursor.start b).Reaches t.cursor
  values : ∀ x ∈ attributesOf s.parts, x.valueBytes a = x.valueBytes b

variable {a b : Bytes} {s t : TokenStream}

theorem Alike.offset_eq (h : Alike a b s t) : s.cursor.offset = t.cursor.offset :=
  Cursor.offset_alike (congrArg (·.cursor) h.foldCase_eq)

theorem Alike.dialect' (h : Alike a b s t) : t.dialect = .html :=
  (congrArg (·.dialect) h.foldCase_eq).symm.trans h.dialect

theorem Alike.parts_eq (h : Alike a b s t) : s.parts = t.parts :=
  congrArg (·.parts) h.foldCase_eq

theorem Alike.locate_eq (h : Alike a b s t) : s.locate = t.locate := by
  funext offset
  rw [← locate_foldCase, h.foldCase_eq, locate_foldCase]

theorem Alike.sameNameless (h : Alike a b s t)
    (hsame : ∀ token u, s.next = (.ok (some token), u) →
      DifferInside a b token.names s.cursor.offset u.cursor.offset) :
    SameNameless s t s.next := by
  intro token u hnext hnames
  have hreaches := (next_html h.dialect).2.2
  rw [hnext] at hreaches
  have hapart : ∀ name ∈ token.names, (s.cursor.upTo u.cursor).Apart name := by
    rw [hnames]
    exact fun name hmem => absurd hmem List.not_mem_nil
  have hbytes := (hsame token u hnext).take_drop_eq (Span.within_upTo hreaches) hapart
  have hrest := h.reaches.rest_eq
  have hrest' := h.reaches'.rest_eq
  rw [Cursor.bytesUpTo, Cursor.bytesUpTo, hrest, hrest', ← h.offset_eq]
  exact hbytes

/-- Two streams stay alike as long as the documents differ inside names only. -/
theorem Alike.next (h : Alike a b s t)
    (hsame : ∀ token u, s.next = (.ok (some token), u) →
      DifferInside a b token.names s.cursor.offset u.cursor.offset) :
    s.next.1 = t.next.1 ∧ Alike a b s.next.2 t.next.2 := by
  have hfold := next_alike h.foldCase_eq h.dialect (h.sameNameless hsame)
  obtain ⟨hinput, hdialect, hreaches⟩ := next_html h.dialect
  obtain ⟨hinput', -, hreaches'⟩ := next_html h.dialect'
  obtain ⟨hanswer, hstream⟩ := Prod.mk.inj hfold
  refine ⟨hanswer, hstream, hdialect.trans h.dialect, hinput.trans h.input,
    hinput'.trans h.input', h.reaches.trans hreaches, h.reaches'.trans hreaches', ?_⟩
  cases hnext : s.next with
  | mk answer u =>
    cases answer with
    | error e => exact absurd hnext (next_ne_error h.dialect)
    | ok token? =>
      cases token? with
      | none =>
        rw [(next_eq_none hnext).1]
        exact h.values
      | some token =>
        have hdiffer := hsame token u hnext
        cases outcome_of_next hnext with
        | text _ hparts =>
          rcases hparts with rfl | rfl
          · exact h.values
          · exact fun x hx => absurd hx List.not_mem_nil
        | node => exact h.values
        | opened hread | repeated _ hread =>
          exact (Token.opens_readMarkup hread).values_eq hdiffer

theorem Alike.mode (h : Alike a b s t) {mode mode' : Mode} (hmode : mode.foldCase = mode'.foldCase) :
    Alike a b { s with mode } { t with mode := mode' } := by
  refine ⟨?_, h.2, h.3, h.4, h.5, h.6, h.7⟩
  have hfold := congrArg (fun u : TokenStream => { u with mode := mode.foldCase }) h.foldCase_eq
  simp only [foldCase, hmode] at hfold ⊢
  exact hfold

theorem Alike.moveTo (h : Alike a b s t) (offset : Nat) :
    Alike a b (s.moveTo offset) (t.moveTo offset) := by
  refine ⟨?_, h.2, h.3, h.4, h.5, h.6, h.7⟩
  have hfold :=
    congrArg (fun u : TokenStream => { u with position := s.locate offset }) h.foldCase_eq
  rw [TokenStream.moveTo, TokenStream.moveTo, ← h.locate_eq]
  exact hfold

theorem Alike.literalUntil (h : Alike a b s t) (name : Bytes) :
    Alike a b (s.literalUntil name) (t.literalUntil name) := by
  have hmode : s.mode.foldCase = t.mode.foldCase := congrArg (·.mode) h.foldCase_eq
  rw [TokenStream.literalUntil, TokenStream.literalUntil]
  cases hs : s.mode with
  | done =>
    cases ht : t.mode with
    | done => exact h
    | _ =>
      rw [hs, ht] at hmode
      cases hmode
  | _ =>
    cases ht : t.mode with
    | done =>
      rw [hs, ht] at hmode
      cases hmode
    | _ => exact h.mode rfl

end TokenStream

namespace EventStream

/-- An answer with the names in its error, if it is one, in small letters. -/
def foldAnswer : Answer → Answer := Except.mapError ParseError.foldCase

section Names

/-- The names in the token that the next call reads, if it reads one. -/
def namesOfNext (s : EventStream) : List Span :=
  match s.queue, s.stage, s.tokens.next.1 with
  | [], .running, .ok (some token) => token.names
  | _, _, _ => []

/-- The names in all tokens that calls read. -/
def namesRead (s : EventStream) : List Call → List Span
  | [] => []
  | .next :: calls => s.namesOfNext ++ s.next.2.namesRead calls
  | .literalUntil name :: calls => (s.literalUntil name).namesRead calls

variable {s : EventStream}

theorem namesOfNext_of_token {token : Token} {u : TokenStream} (hq : s.queue = [])
    (hs : s.stage = .running) (h : s.tokens.next = (.ok (some token), u)) :
    s.namesOfNext = token.names := by
  rw [namesOfNext, hq, hs, h]

/-- A call takes the tokens on in the document. -/
structure Advances (s t : EventStream) : Prop where
  dialect : t.tokens.dialect = .html
  reaches : s.tokens.cursor.Reaches t.tokens.cursor
  names : ∀ name ∈ s.namesOfNext, name.Within s.tokens.cursor.offset t.tokens.cursor.offset

theorem tokens_nextQueued (s : EventStream) :
    s.nextQueued.2.tokens.dialect = s.tokens.dialect ∧
      s.nextQueued.2.tokens.cursor = s.tokens.cursor := by
  rw [nextQueued]
  split <;> exact ⟨rfl, rfl⟩

/-- Whatever is queued, the tokens are where the token that was read leaves them. -/
theorem tokens_nextRead (hd : s.tokens.dialect = .html) :
    s.nextRead.2.tokens.dialect = s.tokens.next.2.dialect ∧
      s.nextRead.2.tokens.cursor = s.tokens.next.2.cursor := by
  cases h : s.tokens.next with
  | mk answer u =>
    cases answer with
    | error e => exact absurd h (TokenStream.next_ne_error hd)
    | ok token? =>
      cases token? with
      | none =>
        rw [nextRead_of_none h, (TokenStream.next_eq_none h).1]
        cases s.nesting.finish s.tokens.locate with
        | error e => exact ⟨rfl, rfl⟩
        | ok step => exact tokens_nextQueued (s.loadEnd step)
      | some token =>
        rw [nextRead_of_token h]
        cases s.nesting.accept s.tokens.locate token with
        | error e => exact ⟨rfl, rfl⟩
        | ok step => exact tokens_nextQueued (s.loadToken u step)

theorem advances_of_stays {t : EventStream} (hd : s.tokens.dialect = .html)
    (hnames : s.namesOfNext = [])
    (h : t.tokens.dialect = s.tokens.dialect ∧ t.tokens.cursor = s.tokens.cursor) :
    s.Advances t := by
  obtain ⟨hdialect, hcursor⟩ := h
  refine ⟨hdialect.trans hd, ?_, ?_⟩
  · rw [hcursor]
    exact Cursor.Reaches.refl _
  · rw [hnames]
    exact fun name hmem => absurd hmem List.not_mem_nil

theorem advances_next (hd : s.tokens.dialect = .html) : s.Advances s.next.2 := by
  cases hq : s.queue with
  | cons event queue =>
    have hne : s.queue ≠ [] := by simp [hq]
    have hnames : s.namesOfNext = [] := by rw [namesOfNext, hq]
    rw [next_of_queue hne]
    exact advances_of_stays hd hnames (tokens_nextQueued s)
  | nil =>
    cases hs : s.stage with
    | start =>
      have hnames : s.namesOfNext = [] := by rw [namesOfNext, hq, hs]
      refine advances_of_stays hd hnames ?_
      rw [next_of_start hq hs]
      split <;> exact ⟨rfl, rfl⟩
    | running =>
      obtain ⟨hdialect, hcursor⟩ := tokens_nextRead hd
      obtain ⟨-, hsame, hreaches⟩ := TokenStream.next_html hd
      rw [next_of_running hq hs]
      refine ⟨hdialect.trans (hsame.trans hd), ?_, ?_⟩
      · rw [hcursor]
        exact hreaches
      · intro name hmem
        rw [hcursor]
        rw [namesOfNext, hq, hs] at hmem
        split at hmem
        · rename_i token _ _ hanswer
          have hnext : s.tokens.next = (.ok (some token), s.tokens.next.2) := by rw [← hanswer]
          exact TokenStream.within_of_next hnext name hmem
        · cases hmem
    | done =>
      have hnames : s.namesOfNext = [] := by rw [namesOfNext, hq, hs]
      rw [next_of_done hq hs]
      exact advances_of_stays hd hnames ⟨rfl, rfl⟩

/-- No name that is read reaches back behind the cursor. -/
theorem le_start_of_mem_namesRead (hd : s.tokens.dialect = .html) (calls : List Call) :
    ∀ name ∈ s.namesRead calls, s.tokens.cursor.offset ≤ name.start := by
  induction calls generalizing s with
  | nil => exact fun name hmem => absurd hmem List.not_mem_nil
  | cons call calls ih =>
    cases call with
    | next =>
      have hadvances := advances_next hd
      intro name hmem
      rcases List.mem_append.1 hmem with hmem | hmem
      · exact (hadvances.names name hmem).start_le
      · exact Nat.le_trans hadvances.reaches.offset_le (ih hadvances.dialect name hmem)
    | literalUntil name =>
      obtain ⟨mode, heq⟩ := s.literalUntil_eq name
      rw [namesRead, heq]
      exact ih hd

/-- In front of the cursor, what differs lies inside the names of the token that is read next, and behind
that token inside the names of the tokens after it. -/
theorem differInside_next {a b : Bytes} {calls : List Call} {stop : Nat}
    (hd : s.tokens.dialect = .html)
    (h : DifferInside a b (s.namesRead (.next :: calls)) s.tokens.cursor.offset stop)
    (hstop : s.next.2.tokens.cursor.offset ≤ stop) :
    DifferInside a b s.namesOfNext s.tokens.cursor.offset s.next.2.tokens.cursor.offset ∧
      DifferInside a b (s.next.2.namesRead calls) s.next.2.tokens.cursor.offset stop := by
  have hadvances := advances_next hd
  have hle := hadvances.reaches.offset_le
  constructor
  · intro i hi hlt hne
    obtain ⟨name, hmem, hname⟩ := h i hi (Nat.lt_of_lt_of_le hlt hstop) hne
    rcases List.mem_append.1 hmem with hmem | hmem
    · exact ⟨name, hmem, hname⟩
    · have hlater := le_start_of_mem_namesRead hadvances.dialect calls name hmem
      omega
  · intro i hi hlt hne
    obtain ⟨name, hmem, hname⟩ := h i (Nat.le_trans hle hi) hlt hne
    rcases List.mem_append.1 hmem with hmem | hmem
    · have hearlier := (hadvances.names name hmem).stop_le
      omega
    · exact ⟨name, hmem, hname⟩

end Names

section Pairs

/-- Two streams that have been answered alike so far, on documents with the same letters. -/
structure Alike (a b : Bytes) (s t : EventStream) : Prop where
  tokens : s.tokens.Alike a b t.tokens
  nesting : s.nesting.foldCase = t.nesting.foldCase
  dialect : s.nesting.dialect = .html
  evaluation : s.evaluation = t.evaluation
  slots : ∀ slot ∈ s.evaluation.slots, slot.ignoreCase
  queue : s.queue = t.queue
  warnings : s.warnings.map Warning.foldCase = t.warnings.map Warning.foldCase
  stage : s.stage = t.stage

/-- Two answers that are the same but for the spelling of names, with the streams after them. -/
def AnswersAlike (a b : Bytes) (r r' : Result) : Prop :=
  foldAnswer r.1 = foldAnswer r'.1 ∧ Alike a b r.2 r'.2

variable {a b : Bytes} {s t : EventStream}

theorem Alike.fold_input (h : Alike a b s t) : s.input.foldCase = t.input.foldCase :=
  congrArg (·.input) h.tokens.foldCase_eq

theorem Alike.length_eq (h : Alike a b s t) : s.input.length = t.input.length := by
  rw [← Bytes.length_foldCase, h.fold_input, Bytes.length_foldCase]

theorem Alike.fail (h : Alike a b s t) {e e' : ParseError} (he : e.foldCase = e'.foldCase) :
    AnswersAlike a b (s.fail e) (t.fail e') :=
  ⟨congrArg Except.error he, h.tokens, h.nesting, h.dialect, h.evaluation, h.slots, rfl, h.warnings,
    rfl⟩

theorem Alike.emit (h : Alike a b s t) (event : Event) :
    AnswersAlike a b (s.emit event) (t.emit event) := by
  have hmoved := h.tokens.moveTo event.span.start
  have hposition : (s.tokens.moveTo event.span.start).position =
      (t.tokens.moveTo event.span.start).position := congrArg (·.position) hmoved.foldCase_eq
  have hobserve : s.evaluation.observe event s.tokens.parts s.input =
      t.evaluation.observe event t.tokens.parts t.input := by
    have hvalues : ∀ x ∈ attributesOf s.tokens.parts, x.valueBytes s.input = x.valueBytes t.input := by
      intro x hx
      have hinput : s.input = a := h.tokens.input
      have hinput' : t.input = b := h.tokens.input'
      rw [hinput, hinput']
      exact h.tokens.values x hx
    rw [← h.evaluation, ← h.tokens.parts_eq]
    exact Selector.Evaluation.observe_congr h.slots h.fold_input hvalues event
  have hslots := Selector.Evaluation.slots_observe s.evaluation event s.tokens.parts s.input
  constructor
  · simp only [EventStream.emit, deliver, hposition, hobserve]
  · refine ⟨hmoved, h.nesting, h.dialect, congrArg Prod.snd hobserve, ?_, h.queue, h.warnings, h.stage⟩
    intro slot hmem
    rw [EventStream.emit, deliver] at hmem
    dsimp only at hmem
    rw [hslots] at hmem
    exact h.slots slot hmem

theorem Alike.nextQueued (h : Alike a b s t) : AnswersAlike a b s.nextQueued t.nextQueued := by
  rw [EventStream.nextQueued, EventStream.nextQueued, ← h.queue]
  cases s.queue with
  | nil => exact ⟨rfl, h⟩
  | cons event queue =>
    exact Alike.emit (s := { s with queue }) (t := { t with queue })
      ⟨h.tokens, h.nesting, h.dialect, h.evaluation, h.slots, rfl, h.warnings, h.stage⟩ event

theorem Alike.literalUntil (h : Alike a b s t) (name : Bytes) :
    Alike a b (s.literalUntil name) (t.literalUntil name) :=
  ⟨h.tokens.literalUntil name, h.nesting, h.dialect, h.evaluation, h.slots, h.queue, h.warnings,
    h.stage⟩

theorem Alike.loadToken (h : Alike a b s t) {u v : TokenStream} (hu : u.Alike a b v)
    {step step' : Nesting.Step} (hd : step.nesting.dialect = .html)
    (hstep : step.foldCase = step'.foldCase) :
    Alike a b (s.loadToken u step) (t.loadToken v step') := by
  obtain ⟨hnesting, hevents, hfound, hraw⟩ := Nesting.Step.mk.inj hstep
  have hleft : u.warnings.map Warning.foldCase = v.warnings.map Warning.foldCase :=
    congrArg (·.warnings) hu.foldCase_eq
  refine ⟨?_, hnesting, hd, h.evaluation, h.slots, hevents, ?_, h.stage⟩
  · have hdrained : TokenStream.Alike a b { u with warnings := [] } { v with warnings := [] } :=
      ⟨congrArg (fun w : TokenStream => { w with warnings := [] }) hu.foldCase_eq, hu.2, hu.3, hu.4,
        hu.5, hu.6, hu.7⟩
    apply hdrained.mode
    rw [hraw]
    cases step'.rawText with
    | none => rfl
    | some name =>
      have hslice : (name.slice s.input).foldCase = (name.slice t.input).foldCase := by
        rw [← Span.slice_foldCase, h.fold_input, Span.slice_foldCase]
      exact congrArg TokenStream.Mode.literal hslice
  · simp only [EventStream.loadToken, List.map_append, h.warnings, hfound, hleft]

theorem Alike.loadEnd (h : Alike a b s t) {step step' : Nesting.Step}
    (hd : step.nesting.dialect = .html) (hstep : step.foldCase = step'.foldCase) :
    Alike a b (s.loadEnd step) (t.loadEnd step') := by
  obtain ⟨hnesting, hevents, hfound, -⟩ := Nesting.Step.mk.inj hstep
  refine ⟨h.tokens.mode rfl, hnesting, hd, h.evaluation, h.slots, ?_, ?_, rfl⟩
  · simp only [EventStream.loadEnd, hevents, h.length_eq]
  · simp only [EventStream.loadEnd, List.map_append, h.warnings, hfound]

/-- What is judged alike and queued alike is answered alike. -/
theorem Alike.answerWith (h : Alike a b s t) {u v : TokenStream} (hu : u.Alike a b v)
    {judged judged' : Except ParseError Nesting.Step} {load load' : Nesting.Step → EventStream}
    (hjudged : Nesting.foldJudgement judged = Nesting.foldJudgement judged')
    (hload : ∀ step step', judged = .ok step → step.foldCase = step'.foldCase →
      Alike a b (load step) (load' step')) :
    AnswersAlike a b (s.answerWith u (judged.map load)) (t.answerWith v (judged'.map load')) := by
  have hmoved : Alike a b { s with tokens := u } { t with tokens := v } :=
    ⟨hu, h.nesting, h.dialect, h.evaluation, h.slots, h.queue, h.warnings, h.stage⟩
  cases judged with
  | error e =>
    cases judged' with
    | error e' => exact hmoved.fail (Except.error.inj hjudged)
    | ok step' => cases hjudged
  | ok step =>
    cases judged' with
    | error e' => cases hjudged
    | ok step' => exact (hload step step' rfl (Except.ok.inj hjudged)).nextQueued

theorem Alike.nextRead (h : Alike a b s t)
    (hsame : ∀ token u, s.tokens.next = (.ok (some token), u) →
      DifferInside a b token.names s.tokens.cursor.offset u.cursor.offset) :
    AnswersAlike a b s.nextRead t.nextRead := by
  obtain ⟨hanswer, hu⟩ := h.tokens.next hsame
  cases hs : s.tokens.next with
  | mk answer u =>
    cases ht : t.tokens.next with
    | mk answer' v =>
      rw [hs, ht] at hanswer hu
      obtain rfl : answer = answer' := hanswer
      cases answer with
      | error e => exact absurd hs (TokenStream.next_ne_error h.tokens.dialect)
      | ok token? =>
        cases token? with
        | none =>
          rw [nextRead_of_none hs, nextRead_of_none ht]
          refine h.answerWith hu ?_ ?_
          · rw [← Nesting.finish_foldCase, ← Nesting.finish_foldCase, h.nesting, h.tokens.locate_eq]
          · intro step step' hok hstep
            have hd := (Nesting.finishes_finish hok).same.2.1
            exact h.loadEnd (hd.trans h.dialect) hstep
        | some token =>
          have hd' : t.nesting.dialect = .html :=
            (congrArg (·.dialect) h.nesting).symm.trans h.dialect
          rw [nextRead_of_token hs, nextRead_of_token ht]
          refine h.answerWith hu ?_ ?_
          · rw [← Nesting.accept_foldCase h.dialect, ← Nesting.accept_foldCase hd', h.nesting,
              h.tokens.locate_eq]
          · intro step step' hok hstep
            have hd := (Nesting.accepts_accept hok).same.2.1
            exact h.loadToken hu (hd.trans h.dialect) hstep

/-- A call is answered alike if what it reads differs inside names only. -/
theorem Alike.next (h : Alike a b s t)
    (hsame : DifferInside a b s.namesOfNext s.tokens.cursor.offset
      s.next.2.tokens.cursor.offset) : AnswersAlike a b s.next t.next := by
  by_cases hq : s.queue = []
  · have hq' : t.queue = [] := h.queue.symm.trans hq
    cases hs : s.stage with
    | start =>
      have hs' : t.stage = .start := h.stage.symm.trans hs
      rw [next_of_start hq hs, next_of_start hq' hs', h.length_eq]
      split
      · exact h.fail rfl
      · exact Alike.emit (s := { s with stage := .running }) (t := { t with stage := .running })
          ⟨h.tokens, h.nesting, h.dialect, h.evaluation, h.slots, h.queue, h.warnings, rfl⟩ _
    | running =>
      have hs' : t.stage = .running := h.stage.symm.trans hs
      have hcursor := (tokens_nextRead h.tokens.dialect).2
      rw [next_of_running hq hs] at hsame
      rw [next_of_running hq hs, next_of_running hq' hs']
      apply h.nextRead
      intro token u hnext
      rw [namesOfNext_of_token hq hs hnext, hcursor, hnext] at hsame
      exact hsame
    | done =>
      have hs' : t.stage = .done := h.stage.symm.trans hs
      rw [next_of_done hq hs, next_of_done hq' hs']
      exact ⟨rfl, h⟩
  · have hq' : t.queue ≠ [] := by rwa [← h.queue]
    rw [next_of_queue hq, next_of_queue hq']
    exact h.nextQueued

/-- Calls are answered alike if all that they read differs inside names only. -/
theorem Alike.run (h : Alike a b s t) (calls : List Call)
    (hsame : DifferInside a b (s.namesRead calls) s.tokens.cursor.offset a.length) :
    (s.run calls).1.map foldAnswer = (t.run calls).1.map foldAnswer ∧
      Alike a b (s.run calls).2 (t.run calls).2 := by
  -- By induction on the calls. What differs in front of the cursor is told by the names that are still
  -- to be read, so the hypothesis goes over from the names of one token to those of the tokens after it.
  induction calls generalizing s t with
  | nil => exact ⟨rfl, h⟩
  | cons call calls ih =>
    cases call with
    | next =>
      have hend : s.next.2.tokens.cursor.offset ≤ a.length := by
        have hreaches := h.tokens.reaches.trans (advances_next h.tokens.dialect).reaches
        have hlength := hreaches.length
        simp only [Cursor.start] at hlength
        omega
      obtain ⟨hfirst, hlater⟩ := differInside_next h.tokens.dialect hsame hend
      obtain ⟨hanswer, hnext⟩ := h.next hfirst
      obtain ⟨hanswers, hlast⟩ := ih hnext hlater
      simp only [EventStream.run, List.map_cons, hanswer, hanswers, hlast, and_self]
    | literalUntil name =>
      obtain ⟨mode, heq⟩ := s.literalUntil_eq name
      refine ih (h.literalUntil name) ?_
      rw [namesRead, heq] at hsame
      rw [heq]
      exact hsame

theorem ignoreCase_ofSelectors {selectors : List Selector}
    (h : ∀ selector ∈ selectors, selector.dialect = .html) :
    ∀ slot ∈ (Selector.Evaluation.ofSelectors selectors).slots, slot.ignoreCase := by
  intro slot hmem
  obtain ⟨⟨selector, i⟩, hselector, hslot⟩ := List.mem_flatMap.1 hmem
  obtain ⟨path, hpath, hslot⟩ := List.mem_flatMap.1 hslot
  obtain ⟨⟨step, index⟩, -, rfl⟩ := List.mem_map.1 hslot
  have hhtml := h selector (List.fst_mem_of_mem_zipIdx hselector)
  simp [hhtml, Dialect.ignoresCase]

theorem alike_ofInput (hletters : a.foldCase = b.foldCase) (policy : Policy)
    {selectors : List Selector} (h : ∀ selector ∈ selectors, selector.dialect = .html) :
    Alike a b (ofInput a ⟨.html, policy, selectors⟩) (ofInput b ⟨.html, policy, selectors⟩) where
  tokens := by
    refine ⟨?_, rfl, rfl, rfl, Cursor.Reaches.refl _, Cursor.Reaches.refl _,
      fun x hx => absurd hx List.not_mem_nil⟩
    simp only [ofInput, TokenStream.ofInput, TokenStream.foldCase, Cursor.start, Cursor.foldCase,
      hletters]
  nesting := by simp only [ofInput, Nesting.ofInput, Nesting.foldCase, hletters]
  dialect := rfl
  evaluation := rfl
  slots := ignoreCase_ofSelectors h
  queue := rfl
  warnings := rfl
  stage := rfl

end Pairs

/-- HTML is read without regard to the case of names. Let two documents differ in the case of letters
inside names that the calls read from the first of them, the names of elements in their tags and those
of attributes, and let all selectors be compiled for HTML. Then the calls are answered with the same
events, positions and selections on both, and with the same error if there is one, and the same warnings
are left; only the names in errors and warnings are spelt as they are in each. -/
theorem html_blind_to_case (a b : Bytes) (policy : Policy) (selectors : List Selector)
    (hselectors : ∀ selector ∈ selectors, selector.dialect = .html) (calls : List Call)
    (h : DifferInCase ((ofInput a ⟨.html, policy, selectors⟩).namesRead calls) a b) :
    let first := (ofInput a ⟨.html, policy, selectors⟩).run calls
    let second := (ofInput b ⟨.html, policy, selectors⟩).run calls
    first.1.map foldAnswer = second.1.map foldAnswer ∧
      first.2.warnings.map Warning.foldCase = second.2.warnings.map Warning.foldCase := by
  intro first second
  have halike := alike_ofInput h.foldCase_eq policy hselectors
  obtain ⟨hanswers, hlast⟩ := halike.run calls fun i _ hlt => h.inside i hlt
  exact ⟨hanswers, hlast.warnings⟩

/-- An element and its attributes in two spellings, the second attribute a duplicate of the first, and a
close tag that has nothing to close. -/
theorem twoSpellings_blind_to_case :
    let a := Bytes.ofString "<P Id='x' ID=y>t</p></EM>"
    let b := Bytes.ofString "<p iD='x' id=y>t</P></em>"
    let selectors : List Selector := [⟨"p", .html, [[⟨.descendant, [⟨.named "p", none⟩], none⟩]]⟩]
    let calls := List.replicate 14 Call.next
    (∀ selector ∈ selectors, selector.dialect = .html) ∧
      DifferInCase ((ofInput a ⟨.html, .autoClose, selectors⟩).namesRead calls) a b ∧
      let first := (ofInput a ⟨.html, .autoClose, selectors⟩).run calls
      let second := (ofInput b ⟨.html, .autoClose, selectors⟩).run calls
      first.1.map foldAnswer = second.1.map foldAnswer ∧
        first.2.warnings.map Warning.foldCase = second.2.warnings.map Warning.foldCase := by
  intro a b selectors calls
  have hselectors : ∀ selector ∈ selectors, selector.dialect = .html := by decide
  have hdiffer : DifferInCase ((ofInput a ⟨.html, .autoClose, selectors⟩).namesRead calls) a b :=
    ⟨by decide +kernel, by decide +kernel⟩
  exact ⟨hselectors, hdiffer, html_blind_to_case a b .autoClose selectors hselectors calls hdiffer⟩

end EventStream

end MarkupStream
