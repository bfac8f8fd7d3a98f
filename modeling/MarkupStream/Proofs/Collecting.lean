import MarkupStream.Event.Collection
import MarkupStream.Proofs.Dialogue
import MarkupStream.Proofs.RoundTrip

/-!
Literal text for the collector. It looks for the name of an element among those that were configured, in any
spelling, and asks for text up to a close tag of the configured name. Where that name is the element's own as
the dialect compares names, which in HTML it always is, the text goes up to the first place that closes the
element.
-/
namespace MarkupStream

open Byte Cursor

variable {ignoreCase : Bool} {name wanted : Bytes}

/-- The places that close an element do not depend on the spelling of its name. -/
theorem closesIn_congr {bytes : Bytes} (h : Bytes.sameName ignoreCase wanted name) :
    ClosesIn ignoreCase wanted bytes ↔ ClosesIn ignoreCase name bytes := by
  have hsame : ∀ written, Bytes.sameName ignoreCase written wanted ↔
      Bytes.sameName ignoreCase written name := by
    intro written
    rw [Bytes.sameName_iff] at h
    rw [Bytes.sameName_iff, Bytes.sameName_iff]
    cases ignoreCase <;> simp_all
  simp only [ClosesIn, hsame]

theorem ClosesIn.readMarkup {c : Cursor} (h : ClosesIn ignoreCase name c.rest) (dialect : Dialect) :
    Token.readMarkup dialect c = Token.readCloseTag dialect c := by
  obtain ⟨rest, hrest⟩ := h.exists_cons
  have hover : c.Over (Bytes.ofString "</") ⟨c.offset + 2, rest⟩ := ⟨hrest, rfl⟩
  exact Token.readMarkup_of_closing hover

/-- What is wrong with a close tag is not about literal text. -/
theorem Token.fault_ne_of_readCloseTag {dialect : Dialect} {c : Cursor} {refusal : Refusal}
    (h : readCloseTag dialect c = .error refusal) (offset : Nat) :
    refusal.fault ≠ .unterminated .rawText offset := by
  unfold readCloseTag refuse at h
  dsimp only at h
  repeat' split at h
  all_goals cases h
  all_goals exact nofun

namespace TokenStream

variable {s t : TokenStream} {found : Cursor}

/-- At a place that closes an element literal text is not missed. -/
theorem error_of_closesIn (hm : s.mode = .content) (h : ClosesIn ignoreCase name s.cursor.rest)
    {e : ParseError} (hnext : s.next = (.error e, t)) (position : Position) :
    e ≠ .unterminated .rawText position := by
  rintro rfl
  rw [next_of_closesIn hm h, nextMarkup, h.readMarkup] at hnext
  split at hnext
  · rw [emitOpenTag] at hnext
    dsimp only at hnext
    repeat' split at hnext
    all_goals cases hnext
  · cases hnext
  · rename_i refusal hread
    have hfault := Token.fault_ne_of_readCloseTag hread
    rw [reject] at hnext
    split at hnext
    · have herror := Except.error.inj (Prod.mk.inj hnext).1
      cases hkind : refusal.fault with
      | unterminated construct offset =>
        rw [hkind] at herror
        exact hfault offset (hkind.trans (by rw [(ParseError.unterminated.inj herror).1]))
      | _ =>
        rw [hkind] at herror
        cases herror
    · cases hnext

theorem next_of_literal (hm : s.mode = .literal wanted)
    (hseek : s.cursor.seekCloseTag? wanted s.dialect.ignoresCase = some found) :
    s.next = if s.offset < found.offset
      then emit { s with mode := .content } (.text (s.cursor.upTo found)) found
      else nextContent { s with mode := .content } := by
  rw [next, hm]
  dsimp only
  rw [nextLiteral]
  dsimp only
  rw [hseek]
  rfl

end TokenStream

namespace Nesting

theorem autoCloseEvents_append (offset : Nat) (frames : List Frame) (edge : ElementEdge)
    (span name : Span) (events : List Event) :
    ∃ edge' span' name' events', autoCloseEvents offset frames ++ .element edge span name :: events =
      .element edge' span' name' :: events' := by
  cases frames with
  | nil => exact ⟨_, _, _, _, rfl⟩
  | cons frame outer => exact ⟨_, _, _, _, rfl⟩

/-- A text is the only event of its token. -/
theorem Accepts.events_of_text {n : Nesting} {locate : Nat → Position} {token : Token} {step : Step}
    (h : n.Accepts locate token step) {span : Span} {queue : List Event}
    (hevents : step.events = .text span :: queue) : queue = [] := by
  have helement : ∀ {offset frames edge first name events},
      autoCloseEvents offset frames ++ .element edge first name :: events ≠ .text span :: queue := by
    intro offset frames edge first name events heq
    obtain ⟨_, _, _, _, hfirst⟩ := autoCloseEvents_append offset frames edge first name events
    rw [hfirst] at heq
    cases heq
  cases h with
  | node => exact (List.cons.inj hevents).2.symm
  | standalone | opened | closed => exact absurd hevents helement
  | unmatched => cases hevents

end Nesting

theorem ClosesIn.take_two {bytes : Bytes} (h : ClosesIn ignoreCase name bytes) :
    bytes.take 2 = [lessThan, slash] := by
  obtain ⟨rest, rfl⟩ := h.exists_cons
  rfl

/-- A collector keeps the names that it is given, in order. -/
theorem Collection.foldl_withLiteral (names : List String) (c : Collection) :
    (names.foldl withLiteral c).events = c.events ∧
      (names.foldl withLiteral c).literal = c.literal ++ names := by
  induction names generalizing c with
  | nil => simp
  | cons name names ih => simp [ih, withLiteral]

namespace EventStream

variable {input : Bytes} {settings : Settings} {s t : EventStream}

/-- The stream stands at a place that closes an element, with its literal text behind it. -/
structure AtPlace (input : Bytes) (settings : Settings) (name : Bytes) (place : Nat) (s : EventStream) :
    Prop where
  pace : s.KeepsPace input settings
  running : s.stage = .running
  queue : s.queue = []
  content : s.tokens.mode = .content
  offset : s.tokens.offset = place
  closes : ClosesIn settings.dialect.ignoresCase name s.tokens.cursor.rest

variable {place : Nat}

theorem AtPlace.first_of_loads (h : s.AtPlace input settings name place) (hloads : s.Loads t) {event : Event}
    {queue : List Event} (hq : t.queue = event :: queue) :
    event.span.start = place ∧ ∀ span, event = .text span → place < span.stop := by
  cases hloads with
  | start hs =>
    rw [h.running] at hs
    cases hs
  | @token token tokens step _ htokens hstep =>
    have hevents : step.events = event :: queue := hq
    have hlt := TokenStream.length_next_lt htokens
    obtain ⟨next, _, _, rfl, htiled, -⟩ := (TokenStream.outcome_of_next htokens).token
    have haccepts := Nesting.accepts_accept hstep
    have htiles := haccepts.tiles htiled.2
    rw [hevents] at htiles
    rw [← h.offset]
    refine ⟨htiles.1, ?_⟩
    rintro span rfl
    obtain rfl := haccepts.events_of_text hevents
    have hstop : span.stop = next.offset := htiles.2.2
    have hlength := htiled.1.length
    simp only [TokenStream.offset] at hlt ⊢
    omega
  | finish _ htokens =>
    have hend := (TokenStream.next_eq_none htokens).2 (by simp [h.content])
    obtain ⟨rest, hrest⟩ := h.closes.exists_cons
    rw [hend] at hrest
    cases hrest

/-- The event that comes next begins at that place, and is no empty text. -/
theorem AtPlace.first (h : s.AtPlace input settings name place) {parsed : ParsedEvent}
    (hnext : s.next = (.ok (some parsed), t)) :
    parsed.event.span.start = place ∧ ∀ span, parsed.event = .text span → place < span.stop := by
  have hresponds := responds_next s
  generalize s.next = result at hresponds hnext
  cases hresponds with
  | ended | failed => cases hnext
  | @event u event queue hu hq =>
    obtain ⟨hparsed, rfl⟩ := Prod.mk.inj hnext
    obtain rfl := Option.some.inj (Except.ok.inj hparsed)
    rcases hu with rfl | ⟨-, hloads⟩
    · rw [h.queue] at hq
      cases hq
    · exact h.first_of_loads hloads hq

theorem AtPlace.error (h : s.AtPlace input settings name place) {e : ParseError}
    (hnext : s.next = (.error e, t)) (position : Position) : e ≠ .unterminated .rawText position := by
  have hresponds := responds_next s
  rw [hnext] at hresponds
  cases hresponds with
  | failed _ hfails =>
    cases hfails with
    | tooLarge => exact nofun
    | scan _ htokens => exact TokenStream.error_of_closesIn h.content h.closes htokens position
    | token _ _ hstep =>
      obtain ⟨-, tag, -, rfl⟩ := Nesting.accept_eq_error hstep
      exact nofun
    | finish _ _ hstep =>
      obtain ⟨-, rfl⟩ := Nesting.finish_eq_error hstep
      exact nofun

/-- What follows literal text that goes up to a place: whatever stands there, and no more of the text. The
text has not been missed. -/
structure LeavesText (place : Nat) (events : List Event) (result : Except ParseError Summary) : Prop where
  first : ∀ event ∈ events.head?, event.span.start = place ∧
    ∀ span, event = .text span → place < span.stop
  found : events = [] → ∀ position, result ≠ .error (.unterminated .rawText position)

theorem AtPlace.leavesText (h : s.AtPlace input settings name place) (hnext : t.next = s.next)
    {handler : Handler σ} {state : σ} {turns : List Turn} {outcome : Except ParseError Summary × σ}
    (hserves : Serves handler t state turns outcome) :
    LeavesText place (turns.map (·.parsed.event)) outcome.1 := by
  cases hserves with
  | failed hfailed =>
    rw [hnext] at hfailed
    constructor
    · intro event hmem
      cases hmem
    · intro _ position heq
      exact h.error hfailed position (Except.error.inj heq)
  | ended =>
    constructor
    · intro event hmem
      cases hmem
    · intro _ position heq
      cases heq
  | refused hevent | stopped hevent | goesOn hevent =>
    rw [hnext] at hevent
    constructor
    · rintro event ⟨⟩
      exact h.first hevent
    · intro hnil
      cases hnil

/-- The stream stands in front of literal text that has been asked for under a name. -/
structure AtText (input : Bytes) (settings : Settings) (wanted : Bytes) (s : EventStream) : Prop where
  pace : s.KeepsPace input settings
  running : s.stage = .running
  queue : s.queue = []
  literal : s.tokens.mode = .literal wanted

/-- A text that has been read is handed out alone, with the stream right behind it. -/
theorem next_of_text (hq : s.queue = []) (hs : s.stage = .running) {span : Span}
    {tokens : TokenStream} (htokens : s.tokens.next = (.ok (some (.text span)), tokens)) :
    ∃ parsed t, s.next = (.ok (some parsed), t) ∧ parsed.event = .text span ∧ t.queue = [] ∧
      t.stage = .running ∧ t.tokens.mode = .content ∧ t.tokens.cursor = tokens.cursor := by
  rw [next_of_running hq hs, nextRead_of_token htokens]
  exact ⟨_, _, rfl, rfl, rfl, hs, rfl, rfl⟩

/-- The next event depends on the next token, not on how it was asked for. -/
theorem next_congr (hq : s.queue = []) (hs : s.stage = .running) {mode : TokenStream.Mode}
    (h : s.tokens.next = TokenStream.next { s.tokens with mode }) :
    s.next = EventStream.next { s with tokens := { s.tokens with mode } } := by
  rw [next_of_running hq hs, next_of_running (s := { s with tokens := { s.tokens with mode } }) hq hs]
  rw [nextRead, nextRead, h]

section Collector

variable {c : Collection} {turns : List Turn} {outcome : Except ParseError Summary × Collection}

/-- The collector never fails or stops, so its turns are the events. -/
theorem Serves.collected (h : Serves Collection.collect s c turns outcome) :
    outcome.2.events.toList = c.events.toList ++ turns.map (·.parsed) := by
  generalize hhandler : Collection.collect = handler at h
  induction h with
  | failed | ended => simp
  | refused _ hanswer | stopped _ hanswer =>
    subst hhandler
    obtain ⟨-, rfl⟩ := Prod.mk.inj hanswer
    simp
  | goesOn _ hanswer _ _ ih =>
    subst hhandler
    obtain ⟨-, rfl⟩ := Prod.mk.inj hanswer
    rw [ih]
    simp

/-- After an event the collector has answered with its directive. -/
theorem Serves.collect_cons (h : Serves Collection.collect s c turns outcome) {parsed : ParsedEvent}
    (hnext : s.next = (.ok (some parsed), t)) (hgoesOn : c.directive t.input parsed.event ≠ .stop) :
    ∃ u c' turn turns', t.follow parsed.event (c.directive t.input parsed.event) = some u ∧
      turns = turn :: turns' ∧ turn.parsed = parsed ∧
      Serves Collection.collect u c' turns' outcome := by
  cases h with
  | failed hother | ended hother =>
    rw [hnext] at hother
    cases hother
  | refused hother hanswer => cases (Prod.mk.inj hanswer).1
  | stopped hother hanswer =>
    rw [hnext] at hother
    cases hother
    exact absurd (Except.ok.inj (Prod.mk.inj hanswer).1) hgoesOn
  | @goesOn _ _ u _ c' _ _ turns' _ hother hanswer hfollow hserves =>
    rw [hnext] at hother
    cases hother
    rw [← Except.ok.inj (Prod.mk.inj hanswer).1] at hfollow
    exact ⟨u, c', _, turns', hfollow, rfl, rfl, hserves⟩

theorem AtText.collected (h : s.AtText input settings wanted)
    (hwanted : Bytes.sameName settings.dialect.ignoresCase wanted name)
    (hserves : Serves Collection.collect s c turns outcome)
    (hle : s.tokens.offset ≤ place)
    (hcloses : ClosesIn settings.dialect.ignoresCase name (input.drop place))
    (hfirst : ∀ i, s.tokens.offset ≤ i → i < place →
      ¬ ClosesIn settings.dialect.ignoresCase name (input.drop i)) :
    ∃ behind, turns.map (·.parsed.event) =
        (if s.tokens.offset < place then [.text ⟨s.tokens.offset, place⟩] else []) ++ behind ∧
      LeavesText place behind outcome.1 := by
  have hrest : s.tokens.cursor.rest = input.drop s.tokens.offset := h.pace.reaches.rest_eq
  have hdrop : ∀ i, s.tokens.cursor.rest.drop i = input.drop (s.tokens.offset + i) := by
    intro i
    rw [hrest, List.drop_drop]
  -- The name that was asked for is closed where the element is, and that place is found.
  obtain ⟨found, hseek, hoffset⟩ :
      ∃ found, s.tokens.cursor.seekCloseTag? wanted settings.dialect.ignoresCase = some found ∧
        found.offset = s.tokens.cursor.offset + (place - s.tokens.offset) := by
    apply exists_seekCloseTag?
    · rw [closesIn_congr hwanted, hdrop, Nat.add_sub_cancel' hle]
      exact hcloses
    · intro j hj
      rw [closesIn_congr hwanted, hdrop]
      exact hfirst _ (Nat.le_add_right _ _) (by omega)
  have hplace : found.offset = place := hoffset.trans (Nat.add_sub_cancel' hle)
  have hfound := (closesIn_congr hwanted).1 (closesIn_of_seekCloseTag hseek)
  rw [← h.pace.reads.tokens_dialect] at hseek
  have hnext := TokenStream.next_of_literal h.literal hseek
  by_cases hlt : s.tokens.offset < place
  · rw [if_pos (by rwa [hplace])] at hnext
    obtain ⟨parsed, t, hevent, hparsed, hq, hs, hm, hcursor⟩ :=
      next_of_text h.queue h.running hnext
    have hproceed : c.directive t.input parsed.event = .proceed := by rw [hparsed]; rfl
    obtain ⟨u, c', turn, turns', hfollow, rfl, rfl, hserves⟩ :=
      hserves.collect_cons hevent (by simp [hproceed])
    rw [hproceed] at hfollow
    obtain rfl := Option.some.inj hfollow
    have ht : t.AtPlace input settings name place :=
      ⟨passes_keepsPace.next h.pace hevent, hs, hq, hm, (congrArg _ hcursor).trans hplace,
        by rwa [hcursor]⟩
    have hleaves := ht.leavesText rfl hserves
    have hspan : s.tokens.cursor.upTo found = ⟨s.tokens.offset, place⟩ := by
      rw [upTo, hplace]
      rfl
    refine ⟨_, ?_, hleaves⟩
    rw [List.map_cons, hparsed, hspan, if_pos hlt]
    rfl
  · have hsame : s.tokens.offset = place := by omega
    rw [if_neg (by rwa [hplace])] at hnext
    have hs : AtPlace input settings name place { s with tokens := { s.tokens with mode := .content } } :=
      ⟨h.pace.mode (by simp), h.running, h.queue, rfl, hsame, by rwa [hrest, hsame]⟩
    have hleaves := hs.leavesText (next_congr h.queue h.running hnext) hserves
    exact ⟨_, by rw [if_neg hlt]; rfl, hleaves⟩

/-- After the end of an open tag that the collector wants literal text of, the text is asked for. -/
theorem Serves.exists_atText {turn : Turn} (h : Serves Collection.collect s c (turn :: turns) outcome)
    (hs : s.KeepsPace input settings) {span tagName : Span}
    (hopen : turn.parsed.event = .element .openEnd span tagName) {literal : String}
    (hfind : c.literal.find? (fun l => Bytes.sameName true (Bytes.ofString l) (tagName.slice input)) =
      some literal) :
    ∃ t c', t.AtText input settings (Bytes.ofString literal) ∧ t.tokens.offset = span.stop ∧
      Serves Collection.collect t c' turns outcome := by
  obtain ⟨t, hnext, -, -⟩ := h.next_eq
  obtain ⟨hq, hstage, hoffset⟩ := hs.next_openEnd hnext hopen
  have ht := passes_keepsPace.next hs hnext
  have hinput : t.input = input := ht.reads.tokens_input
  have hdirective : c.directive t.input turn.parsed.event = .literalUntil literal := by
    rw [hopen, hinput, Collection.directive, hfind]
  obtain ⟨u, c', _, _, hfollow, heq, -, hserves⟩ :=
    h.collect_cons hnext (by rw [hdirective]; exact nofun)
  obtain ⟨rfl, rfl⟩ := List.cons.inj heq
  have hisOpen : Nesting.isOpenEnd turn.parsed.event := Nesting.isOpenEnd_iff.2 ⟨_, _, hopen⟩
  rw [hdirective, follow_literalUntil, if_pos hisOpen] at hfollow
  obtain rfl := Option.some.inj hfollow
  have halive : t.tokens.mode ≠ .done := ht.alive (by rw [hstage]; exact nofun)
  have htokens : (t.literalUntil (Bytes.ofString literal)).tokens =
      { t.tokens with mode := .literal (Bytes.ofString literal) } := by
    rw [literalUntil, TokenStream.literalUntil]
    split
    · contradiction
    · rfl
  refine ⟨_, c', ⟨ht.literalUntil _, hstage, hq, ?_⟩, ?_, hserves⟩
  · rw [htokens]
  · rw [htokens]
    exact hoffset

/-- Literal elements work where the name that was configured is the element's own under the dialect. Whenever
the collector gets the end of the open tag of an element that it has a name for, and there is a place behind it
that closes the element, all that stands before the first such place is the one text that comes next, and
the text is not missed; an empty one is no event. -/
theorem literal_collected {input : Bytes} {settings : Settings} {names : List String}
    {result : Except ParseError Summary} {collected : Collection}
    (hparse : parse input settings Collection.collect
      (names.foldl Collection.withLiteral Collection.empty) = (result, collected))
    {before after : List ParsedEvent} {parsed : ParsedEvent} {span tagName : Span}
    (hevents : collected.events.toList = before ++ parsed :: after)
    (hopen : parsed.event = .element .openEnd span tagName) {literal : String}
    (hfind : names.find? (fun l => Bytes.sameName true (Bytes.ofString l) (tagName.slice input)) =
      some literal)
    (hsame : Bytes.sameName settings.dialect.ignoresCase (Bytes.ofString literal)
      (tagName.slice input)) {place : Nat} (hle : span.stop ≤ place)
    (hcloses : ClosesIn settings.dialect.ignoresCase (tagName.slice input) (input.drop place))
    (hfirst : ∀ i, span.stop ≤ i → i < place →
      ¬ ClosesIn settings.dialect.ignoresCase (tagName.slice input) (input.drop i)) :
    ∃ behind, after.map (·.event) =
        (if span.stop < place then [.text ⟨span.stop, place⟩] else []) ++ behind ∧
      LeavesText place behind result := by
  obtain ⟨turns, outcome, h⟩ := exists_serves Collection.collect (ofInput input settings)
    (names.foldl Collection.withLiteral Collection.empty)
  obtain rfl : outcome = (result, collected) := h.push_eq.symm.trans hparse
  have hturns := h.collected
  obtain ⟨hnone, hliteral⟩ := Collection.foldl_withLiteral names Collection.empty
  rw [hevents, hnone] at hturns
  obtain ⟨before, behind, rfl, -, hbehind⟩ := List.map_eq_append_iff.1 hturns.symm
  obtain ⟨turn, turns, rfl, rfl, rfl⟩ := List.map_eq_cons_iff.1 hbehind
  obtain ⟨s, c, hs, hc, -, hserves⟩ :=
    h.exists_turn (Q := fun c => c.literal = names) (fun _ _ _ hc => hc)
      (keepsPace_ofInput input settings) hliteral
  rw [← hc] at hfind
  obtain ⟨t, c', ht, hoffset, hserves⟩ := hserves.exists_atText hs hopen hfind
  rw [← hoffset] at hle hfirst ⊢
  rw [List.map_map]
  exact ht.collected hsame hserves hle hcloses hfirst

/-- In HTML the spellings of the configuration, the open tag and the close tag do not matter. -/
theorem threeSpellings_collected :
    ∃ result collected before parsed after,
      parse (Bytes.ofString "<div>x<b></Div>") ⟨.html, .autoClose, []⟩ Collection.collect
        (["p", "DIV"].foldl Collection.withLiteral Collection.empty) = (result, collected) ∧
      collected.events.toList = before ++ parsed :: after ∧
      parsed.event = .element .openEnd ⟨4, 5⟩ ⟨1, 4⟩ ∧
      ∃ behind, after.map (·.event) = [.text ⟨5, 9⟩] ++ behind ∧ LeavesText 9 behind result := by
  have hpush : ((ofInput (Bytes.ofString "<div>x<b></Div>") ⟨.html, .autoClose, []⟩).pushWithin 8
      Collection.collect (["p", "DIV"].foldl Collection.withLiteral Collection.empty)).map
      (fun outcome => outcome.2.events.toList.map (·.event)) =
    some ([.documentStart, .element .openStart ⟨0, 4⟩ ⟨1, 4⟩] ++
      .element .openEnd ⟨4, 5⟩ ⟨1, 4⟩ :: [.text ⟨5, 9⟩, .element .closeStart ⟨9, 14⟩ ⟨11, 14⟩,
        .element .closeEnd ⟨14, 15⟩ ⟨11, 14⟩, .documentEnd 15]) := by
    decide +kernel
  obtain ⟨⟨result, collected⟩, hwithin, hevents⟩ := Option.map_eq_some_iff.1 hpush
  obtain ⟨before, behind, hsplit, -, hbehind⟩ := List.map_eq_append_iff.1 hevents
  obtain ⟨parsed, after, rfl, hopen, -⟩ := List.map_eq_cons_iff.1 hbehind
  have hparse := push_of_pushWithin hwithin
  refine ⟨result, collected, before, parsed, after, hparse, hsplit, hopen, ?_⟩
  have hfind : ["p", "DIV"].find? (fun l => Bytes.sameName true (Bytes.ofString l)
      (Span.slice ⟨1, 4⟩ (Bytes.ofString "<div>x<b></Div>"))) = some "DIV" := by decide +kernel
  have hle : (⟨4, 5⟩ : Span).stop ≤ 9 := by decide
  refine literal_collected hparse hsplit hopen hfind (by decide +kernel) hle ?_ ?_
  · exact closesIn_cons_cons.2 (by decide +kernel)
  · intro i hle hlt hcloses
    have htwo : ∀ i < 9, 5 ≤ i →
      ((Bytes.ofString "<div>x<b></Div>").drop i).take 2 ≠ [lessThan, slash] := by decide +kernel
    exact htwo i hlt hle hcloses.take_two

/-- In XML the text of an element is not found under another spelling of its name. -/
theorem capitalName_missed :
    Bytes.sameName true (Bytes.ofString "A") (Bytes.ofString "a") ∧
      ClosesIn false (Bytes.ofString "a") ((Bytes.ofString "<a>x</a>").drop 4) ∧
      ∃ collected,
        parse (Bytes.ofString "<a>x</a>") ⟨.xml, .requireBalanced, []⟩ Collection.collect
          (["A"].foldl Collection.withLiteral Collection.empty) =
            (.error (.unterminated .rawText ⟨1, 4, 3⟩), collected) ∧
        collected.events.toList.map (·.event) =
          [.documentStart, .element .openStart ⟨0, 2⟩ ⟨1, 2⟩, .element .openEnd ⟨2, 3⟩ ⟨1, 2⟩] := by
  have hpush : ((ofInput (Bytes.ofString "<a>x</a>") ⟨.xml, .requireBalanced, []⟩).pushWithin 4
      Collection.collect (["A"].foldl Collection.withLiteral Collection.empty)).map
      (fun outcome => (outcome.1, outcome.2.events.toList.map (·.event))) =
    some (.error (.unterminated .rawText ⟨1, 4, 3⟩),
      [.documentStart, .element .openStart ⟨0, 2⟩ ⟨1, 2⟩, .element .openEnd ⟨2, 3⟩ ⟨1, 2⟩]) := by
    decide +kernel
  obtain ⟨⟨result, collected⟩, hwithin, heq⟩ := Option.map_eq_some_iff.1 hpush
  obtain ⟨rfl, hevents⟩ := Prod.mk.inj heq
  refine ⟨by decide +kernel, ?_, collected, push_of_pushWithin hwithin, hevents⟩
  exact closesIn_cons_cons.2 (by decide +kernel)

end Collector

end EventStream

end MarkupStream
