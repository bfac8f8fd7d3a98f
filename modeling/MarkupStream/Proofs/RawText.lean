import MarkupStream.Proofs.Agreement
import MarkupStream.Proofs.Literal

/-!
Element classes over whole documents. In HTML no void element is ever open, and no element inside a raw
text element: from the open tag of a raw text element to its close there is nothing but text.
-/
namespace MarkupStream

open Byte Cursor

section Stacks

/-- Elements that hold other elements: none is void, and none holds literal text. -/
def HoldElements (stack : List Frame) : Prop :=
  ∀ frame ∈ stack, ¬ isVoid frame.name ∧ ¬ isRawText frame.name

/-- No element is void, and none is inside a raw text element. -/
structure KeepClasses (stack : List Frame) : Prop where
  void : ∀ frame ∈ stack, ¬ isVoid frame.name
  rawText : ∀ frame ∈ stack.tail, ¬ isRawText frame.name

variable {stack : List Frame}

theorem holdElements_nil : HoldElements [] := fun _ hmem => absurd hmem List.not_mem_nil

theorem HoldElements.drop (h : HoldElements stack) (count : Nat) : HoldElements (stack.drop count) :=
  fun frame hmem => h frame (List.mem_of_mem_drop hmem)

theorem HoldElements.keepClasses (h : HoldElements stack) : KeepClasses stack :=
  ⟨fun frame hmem => (h frame hmem).1, fun frame hmem => (h frame (List.mem_of_mem_tail hmem)).2⟩

/-- Any element that is not void may be opened outside raw text. -/
theorem HoldElements.cons {frame : Frame} (h : HoldElements stack) (hvoid : ¬ isVoid frame.name) :
    KeepClasses (frame :: stack) :=
  ⟨List.forall_mem_cons.2 ⟨hvoid, h.keepClasses.void⟩, fun outer hmem => (h outer hmem).2⟩

/-- The close of the innermost element leads out of raw text. -/
theorem KeepClasses.holdElements_tail (h : KeepClasses stack) : HoldElements stack.tail :=
  fun frame hmem => ⟨h.void frame (List.mem_of_mem_tail hmem), h.rawText frame hmem⟩

end Stacks

namespace Nesting

variable {n : Nesting}

theorem spec?_html (hd : n.dialect = .html) (name : Bytes) :
    n.spec? name = Catalog.html.lookup name := by
  rw [spec?, hd]

/-- A close tag of a void element ends nothing, as none is open. -/
theorem closeElement_of_isVoid (hd : n.dialect = .html) (h : ∀ frame ∈ n.stack, ¬ isVoid frame.name)
    (locate : Nat → Position) {tag : CloseTag} (hname : isVoid (tag.name.slice n.input)) :
    n.closeElement locate tag =
      if n.policy = .requireBalanced then
        .error (.unbalancedClose (Utf8.decodeLossy (tag.name.slice n.input)) (locate tag.start.start))
      else .ok (n.closeUnmatched locate tag) := by
  have hnone : n.innerCount? (tag.name.slice n.input) = none := by
    refine List.findIdx?_eq_none_iff.2 fun frame hmem => ?_
    rw [Bool.eq_false_iff, hd]
    intro hsame
    apply h frame hmem
    rw [isVoid, Catalog.lookup_eq_of_sameName _ hsame]
    exact hname
  rw [closeElement, hnone]
  cases n.policy <;> rfl

/-- A close tag with the name of the innermost element ends it. -/
theorem closeElement_of_sameName {frame : Frame} {outer : List Frame} (hstack : n.stack = frame :: outer)
    (locate : Nat → Position) {tag : CloseTag}
    (hname : Bytes.sameName n.dialect.ignoresCase frame.name (tag.name.slice n.input)) :
    n.closeElement locate tag = .ok (n.closeMatched locate tag 0) := by
  have hzero : n.innerCount? (tag.name.slice n.input) = some 0 := by
    rw [innerCount?, hstack, List.findIdx?_cons, if_pos hname]
  rw [closeElement, hzero]
  cases n.policy <;> rfl

variable {locate : Nat → Position} {token : Token} {step : Step}

/-- Outside raw text a token either stays outside or opens a raw text element. -/
theorem Accepts.outside (hd : n.dialect = .html) (h : n.Accepts locate token step)
    (hout : HoldElements n.stack) :
    step.rawText = none ∧ HoldElements step.nesting.stack ∨
      ∃ frame outer, step.rawText = some frame.span ∧ frame.name = frame.span.slice n.input ∧
        step.nesting.stack = frame :: outer ∧ isRawText frame.name ∧ ¬ isVoid frame.name ∧
        HoldElements outer := by
  cases h with
  | node | unmatched => exact .inl ⟨rfl, hout⟩
  | standalone | closed => exact .inl ⟨rfl, hout.drop _⟩
  | @opened tag count halone =>
    have houter := hout.drop count
    rw [standsAlone, Bool.or_eq_true, not_or, spec?_html hd] at halone
    rw [spec?_html hd]
    by_cases hraw : isRawText (tag.name.slice n.input)
    · exact .inr ⟨⟨tag.name, tag.name.slice n.input⟩, _, if_pos hraw, rfl, rfl, hraw, halone.2, houter⟩
    · exact .inl ⟨if_neg hraw, List.forall_mem_cons.2 ⟨⟨halone.2, hraw⟩, houter⟩⟩

/-- The event is the end of an open tag, behind which content begins. -/
def isOpenEnd : Event → Bool
  | .element .openEnd _ _ => true
  | _ => false

theorem not_isOpenEnd_autoCloseEvents (offset : Nat) (frames : List Frame) :
    ∀ event ∈ autoCloseEvents offset frames, ¬ isOpenEnd event :=
  forall_mem_autoCloseEvents (fun _ _ => Bool.false_ne_true) (fun _ _ => Bool.false_ne_true) offset
    frames

theorem not_isOpenEnd_parts (parts : List TagPart) :
    ∀ event ∈ parts.map Event.ofPart, ¬ isOpenEnd event :=
  Event.forall_mem_parts (fun _ => Bool.false_ne_true) (fun _ => Bool.false_ne_true) parts

theorem not_isOpenEnd_whitespace (whitespace : Option Span) :
    ∀ event ∈ whitespace.toList.map Event.innerWhitespace, ¬ isOpenEnd event :=
  Event.forall_mem_whitespace (fun _ => Bool.false_ne_true) whitespace

/-- Only an open tag of content has such an end, as the last of its events. -/
theorem Accepts.events_openEnd (h : n.Accepts locate token step) :
    (∀ event ∈ step.events, ¬ isOpenEnd event) ∨
      ∃ tag before, token = .openTag tag ∧
        step.events = before ++ [.element .openEnd tag.close tag.name] ∧
        (∀ event ∈ before, ¬ isOpenEnd event) ∧
        (∃ outer, step.nesting.stack = ⟨tag.name, tag.name.slice n.input⟩ :: outer) ∧
        step.rawText =
          if (n.spec? (tag.name.slice n.input)).any (·.rawText) then some tag.name else none := by
  cases h with
  | @node token event hevent =>
    refine .inl fun event hmem => ?_
    rw [List.mem_singleton.1 hmem]
    cases token <;> cases hevent <;> exact Bool.false_ne_true
  | standalone tag =>
    have htag : ∀ event ∈ openEvents tag .standaloneStart (.standaloneEnd tag.selfClosing),
        ¬ isOpenEnd event :=
      Event.forall_mem_tag Bool.false_ne_true (not_isOpenEnd_parts tag.parts) Bool.false_ne_true
    refine .inl fun event hmem => ?_
    rcases List.mem_append.1 hmem with hmem | hmem
    · exact not_isOpenEnd_autoCloseEvents _ _ event hmem
    · exact htag event hmem
  | @opened tag count =>
    refine .inr ⟨tag, autoCloseEvents tag.start.start (n.stack.take count) ++
      .element .openStart tag.start tag.name :: tag.parts.map Event.ofPart, rfl, ?_, ?_, ⟨_, rfl⟩, rfl⟩
    · simp [openEvents]
    · intro event hmem
      rcases List.mem_append.1 hmem with hmem | hmem
      · exact not_isOpenEnd_autoCloseEvents _ _ event hmem
      · rcases List.mem_cons.1 hmem with rfl | hmem
        · exact Bool.false_ne_true
        · exact not_isOpenEnd_parts tag.parts event hmem
  | closed tag =>
    have htag : ∀ event ∈ closeEvents tag .closeStart .closeEnd, ¬ isOpenEnd event :=
      Event.forall_mem_tag Bool.false_ne_true (not_isOpenEnd_whitespace tag.whitespace)
        Bool.false_ne_true
    refine .inl fun event hmem => ?_
    rcases List.mem_append.1 hmem with hmem | hmem
    · exact not_isOpenEnd_autoCloseEvents _ _ event hmem
    · exact htag event hmem
  | unmatched tag =>
    exact .inl (Event.forall_mem_tag Bool.false_ne_true (not_isOpenEnd_whitespace tag.whitespace)
      Bool.false_ne_true)

/-- What is a last item, and the only one of its kind, has nothing behind it. -/
theorem eq_nil_of_concat {α : Type} {p : α → Prop} {init before after : List α} {last x : α}
    (h : init ++ [last] = before ++ x :: after) (hinit : ∀ y ∈ init, ¬ p y) (hx : p x) :
    after = [] ∧ x = last := by
  rcases List.eq_nil_or_concat after with rfl | ⟨more, y, rfl⟩
  · exact ⟨rfl, (List.singleton_inj.1 (List.append_inj' h rfl).2).symm⟩
  · rw [List.concat_eq_append, ← List.cons_append, ← List.append_assoc] at h
    have hfront := List.append_inj_left' h rfl
    refine absurd hx (hinit x ?_)
    rw [hfront]
    exact List.mem_append_right _ List.mem_cons_self

end Nesting

namespace EventStream

/-- How the tokens that follow are to be read, given the elements that are open. -/
inductive Placed (tokens : TokenStream) (stack : List Frame) : Prop
  | outside : tokens.mode = .content → HoldElements stack → Placed tokens stack
  | inside {frame : Frame} {outer : List Frame} : stack = frame :: outer → isRawText frame.name →
      tokens.InLiteral frame.name → Placed tokens stack

/-- Where the end of the open tag of a raw text element is queued, it is queued last, and the literal text of
the element has been asked for. -/
def AsksForText (input : Bytes) (s : EventStream) : Prop :=
  ∀ before span name after, s.queue = before ++ .element .openEnd span name :: after →
    isRawText (name.slice input) → after = [] ∧ s.stage = .running ∧
      (∃ outer, s.nesting.stack = ⟨name, name.slice input⟩ :: outer) ∧
      s.tokens.mode = .literal (name.slice input) ∧ s.tokens.cursor.offset = span.stop

/-- What holds of a stream of HTML that is asked for nothing but events: the classes of elements are kept,
and the literal text of a raw text element is asked for as soon as it has been opened. -/
structure KeepsRawText (input : Bytes) (settings : Settings) (s : EventStream) : Prop where
  reads : s.Reads input settings
  reaches : (start input).Reaches s.tokens.cursor
  classes : KeepClasses s.nesting.stack
  placed : s.stage ≠ .done → Placed s.tokens s.nesting.stack
  asks : s.AsksForText input

variable {input : Bytes} {settings : Settings} {s t : EventStream}

theorem asksForText_of_no_openEnd (h : ∀ event ∈ s.queue, ¬ Nesting.isOpenEnd event) :
    s.AsksForText input := by
  intro before span name after hqueue
  refine absurd rfl (h (.element .openEnd span name) ?_)
  rw [hqueue]
  exact List.mem_append_right _ List.mem_cons_self

theorem keepsRawText_ofInput (input : Bytes) (settings : Settings) :
    (ofInput input settings).KeepsRawText input settings where
  reads := reads_ofInput input settings
  reaches := Reaches.refl _
  classes := holdElements_nil.keepClasses
  placed := fun _ => .outside rfl holdElements_nil
  asks := asksForText_of_no_openEnd fun _ hmem => absurd hmem List.not_mem_nil

theorem KeepsRawText.alive (h : s.KeepsRawText input settings) : s.Alive := by
  intro hs
  cases h.placed hs with
  | outside hm =>
    rw [hm]
    exact nofun
  | inside _ _ hin =>
    cases hin with
    | opened hm | closing hm | trailing hm =>
      rw [hm]
      exact nofun

theorem KeepsRawText.deliver (h : s.KeepsRawText input settings) {event : Event} {queue : List Event}
    (hq : s.queue = event :: queue) :
    (EventStream.deliver { s with queue } event).2.KeepsRawText input settings where
  reads := h.reads.deliver queue event
  reaches := h.reaches
  classes := h.classes
  placed := fun hs => by
    cases h.placed hs with
    | outside hm hout => exact .outside hm hout
    | inside hstack hraw hin => exact .inside hstack hraw (hin.congr rfl rfl)
  asks := fun before span name after hqueue =>
    h.asks (event :: before) span name after (by rw [hq]; exact congrArg _ hqueue)

theorem mode_loadToken_of_none {tokens : TokenStream} {step : Nesting.Step} (h : step.rawText = none) :
    (s.loadToken tokens step).tokens.mode = .content := by
  rw [loadToken]
  dsimp only
  rw [h]

theorem mode_loadToken_of_some {tokens : TokenStream} {step : Nesting.Step} {name : Span}
    (h : step.rawText = some name) :
    (s.loadToken tokens step).tokens.mode = .literal (name.slice s.input) := by
  rw [loadToken]
  dsimp only
  rw [h]

/-- What is read next inside a raw text element. -/
theorem KeepsRawText.readsLiteral (hd : settings.dialect = .html) (h : s.KeepsRawText input settings)
    {name : Bytes} (hraw : isRawText name) (hin : s.tokens.InLiteral name) :
    s.tokens.ReadsLiteral name s.tokens.next := by
  refine hin.readsLiteral (h.reads.tokens_dialect.trans hd) (isWellFormedName_of_isRawText hraw) ?_
  rw [h.reads.tokens_input]
  exact h.reaches

/-- The close tag of the innermost element ends it. -/
theorem KeepsRawText.accept_closeTag (hd : settings.dialect = .html)
    (h : s.KeepsRawText input settings) {frame : Frame} {outer : List Frame}
    (hstack : s.nesting.stack = frame :: outer) {tag : CloseTag}
    (hname : Bytes.sameName true (tag.name.slice s.tokens.input) frame.name)
    (locate : Nat → Position) :
    s.nesting.accept locate (.closeTag tag) = .ok (s.nesting.closeMatched locate tag 0) := by
  refine Nesting.closeElement_of_sameName hstack locate ?_
  rw [h.reads.nesting_dialect, hd, h.reads.nesting_input, ← h.reads.tokens_input, Bytes.sameName_comm]
  exact hname

section Tokens

variable {token : Token} {tokens : TokenStream} {step : Nesting.Step}

/-- The open tag of a raw text element, once it has been read, is followed by literal text. -/
theorem KeepsRawText.asks_loadToken (hd : settings.dialect = .html) (h : s.KeepsRawText input settings)
    (hs : s.stage = .running) (htokens : s.tokens.next = (.ok (some token), tokens))
    (hstep : s.nesting.accept s.tokens.locate token = .ok step) :
    (s.loadToken tokens step).AsksForText input := by
  have hinput : s.nesting.input = input := h.reads.nesting_input
  have htext : s.input = input := h.reads.tokens_input
  rcases (Nesting.accepts_accept hstep).events_openEnd with
    hnone | ⟨tag, front, rfl, hfront, hnot, hstack, hrawText⟩
  · exact asksForText_of_no_openEnd hnone
  · intro before span name after hevents hraw
    obtain ⟨hafter, heq⟩ := Nesting.eq_nil_of_concat (p := fun event => Nesting.isOpenEnd event)
      (hfront.symm.trans hevents) hnot rfl
    obtain ⟨-, hspan, hname⟩ := Event.element.inj heq
    subst hspan hname
    obtain ⟨next, parts, warnings, rfl, htiled, -⟩ := (TokenStream.outcome_of_next htokens).token
    rw [hinput] at hstack hrawText
    rw [Nesting.spec?_html (h.reads.nesting_dialect.trans hd)] at hrawText
    refine ⟨hafter, hs, hstack, ?_, htiled.stop_close.symm⟩
    rw [mode_loadToken_of_some (hrawText.trans (if_pos hraw)), htext]

/-- A token keeps the classes, and how the next one is to be read is told by what it leaves open. -/
theorem KeepsRawText.placed_loadToken (hd : settings.dialect = .html)
    (h : s.KeepsRawText input settings) (hs : s.stage = .running)
    (htokens : s.tokens.next = (.ok (some token), tokens))
    (hstep : s.nesting.accept s.tokens.locate token = .ok step) :
    KeepClasses step.nesting.stack ∧ Placed (s.loadToken tokens step).tokens step.nesting.stack := by
  cases h.placed (by rw [hs]; exact nofun) with
  | outside hm hout =>
    have haccepts := Nesting.accepts_accept hstep
    rcases haccepts.outside (h.reads.nesting_dialect.trans hd) hout with
      ⟨hnone, hout⟩ | ⟨frame, outer, hsome, hname, hstack, hraw, hvoid, houter⟩
    · exact ⟨hout.keepClasses, .outside (mode_loadToken_of_none hnone) hout⟩
    · refine ⟨hstack ▸ houter.cons hvoid, .inside hstack hraw (.opened ?_)⟩
      rw [mode_loadToken_of_some hsome, hname, h.reads.nesting_input]
      exact congrArg _ (congrArg _ h.reads.tokens_input)
  | @inside frame outer hstack hraw hin =>
    -- Text leaves the element open; its close tag is the only other token, and ends it.
    have hread := h.readsLiteral hd hraw hin
    rw [htokens] at hread
    cases hread with
    | text _ _ _ hm _ hin =>
      obtain rfl := Except.ok.inj hstep
      exact ⟨h.classes, .inside hstack hraw (hin.congr hm.symm rfl)⟩
    | closed _ _ _ _ hname =>
      rw [h.accept_closeTag hd hstack hname] at hstep
      obtain rfl := Except.ok.inj hstep
      have hout : HoldElements (s.nesting.stack.drop 1) :=
        List.drop_one ▸ h.classes.holdElements_tail
      exact ⟨hout.keepClasses, .outside rfl hout⟩

/-- The end of the document opens nothing. -/
theorem KeepsRawText.loadEnd (h : s.KeepsRawText input settings)
    (hfinishes : s.nesting.Finishes s.tokens.locate step) :
    KeepClasses step.nesting.stack ∧ (s.loadEnd step).AsksForText input := by
  refine ⟨?_, asksForText_of_no_openEnd fun event hmem => ?_⟩
  · cases hfinishes with
    | still => exact h.classes
    | implied => exact holdElements_nil.keepClasses
  · rcases List.mem_append.1 hmem with hmem | hmem
    · cases hfinishes with
      | still => cases hmem
      | implied => exact Nesting.not_isOpenEnd_autoCloseEvents _ _ event hmem
    · rw [List.mem_singleton.1 hmem]
      exact Bool.false_ne_true

end Tokens

theorem KeepsRawText.loads (hd : settings.dialect = .html) (h : s.KeepsRawText input settings)
    (hloads : s.Loads t) : t.KeepsRawText input settings := by
  have hreads := h.reads.fills (hloads.fills h.alive)
  cases hloads with
  | start hs =>
    have hasks : AsksForText input { s with stage := .running, queue := [.documentStart] } :=
      asksForText_of_no_openEnd fun event hmem => by
        rw [List.mem_singleton.1 hmem]
        exact Bool.false_ne_true
    exact ⟨hreads, h.reaches, h.classes, fun _ => h.placed (by rw [hs]; exact nofun), hasks⟩
  | token hs htokens hstep =>
    obtain ⟨hclasses, hplaced⟩ := h.placed_loadToken hd hs htokens hstep
    have hasks := h.asks_loadToken hd hs htokens hstep
    obtain ⟨next, parts, warnings, rfl, htiled, -⟩ := (TokenStream.outcome_of_next htokens).token
    exact ⟨hreads, h.reaches.trans htiled.1, hclasses, fun _ => hplaced, hasks⟩
  | finish hs htokens hstep =>
    obtain ⟨hclasses, hasks⟩ := h.loadEnd (Nesting.finishes_finish hstep)
    exact ⟨hreads, h.reaches, hclasses, fun hne => absurd rfl hne, hasks⟩

section Runs

/-- A property that a call for an event keeps, short of failing. -/
structure Passes (P : EventStream → Prop) : Prop where
  loads : ∀ {s t : EventStream}, P s → s.Loads t → P t
  deliver : ∀ {s : EventStream} {event : Event} {queue : List Event}, P s → s.queue = event :: queue →
    P (EventStream.deliver { s with queue } event).2

theorem passes_keepsRawText (hd : settings.dialect = .html) : Passes (KeepsRawText input settings) where
  loads := KeepsRawText.loads hd
  deliver := fun h hq => h.deliver hq

variable {P : EventStream → Prop} {parsed : ParsedEvent}

/-- An event that is handed out was queued, here or by what was read for it. -/
theorem Passes.exists_queued (hP : Passes P) (h : P s) (hnext : s.next = (.ok (some parsed), t)) :
    ∃ u queue, P u ∧ u.queue = parsed.event :: queue ∧
      t = (EventStream.deliver { u with queue } parsed.event).2 := by
  have hresponds := responds_next s
  generalize s.next = result at hresponds hnext
  cases hresponds with
  | ended | failed => cases hnext
  | @event u event queue hu hq =>
    obtain ⟨hparsed, rfl⟩ := Prod.mk.inj hnext
    obtain rfl := Option.some.inj (Except.ok.inj hparsed)
    refine ⟨u, queue, ?_, hq, rfl⟩
    rcases hu with rfl | ⟨-, hloads⟩
    · exact h
    · exact hP.loads h hloads

theorem Passes.next (hP : Passes P) (h : P s) (hnext : s.next = (.ok (some parsed), t)) : P t := by
  obtain ⟨u, queue, hu, hq, rfl⟩ := hP.exists_queued h hnext
  exact hP.deliver hu hq

theorem exists_next_of_rest {after : List ParsedEvent} (hrest : s.rest.1 = parsed :: after) :
    ∃ t, s.next = (.ok (some parsed), t) ∧ t.rest.1 = after := by
  cases hnext : s.next with
  | mk answer t =>
    match answer with
    | .error e =>
      rw [rest_of_error hnext] at hrest
      cases hrest
    | .ok none =>
      rw [rest_of_none hnext] at hrest
      cases hrest
    | .ok (some first) =>
      rw [rest_of_event hnext] at hrest
      obtain ⟨rfl, hafter⟩ := List.cons.inj hrest
      exact ⟨t, rfl, hafter⟩

/-- At each event of a document stands a stream that the others are still to be had from. -/
theorem Passes.exists_next (hP : Passes P) (h : P s) {before after : List ParsedEvent}
    (hrest : s.rest.1 = before ++ parsed :: after) :
    ∃ t u, P t ∧ t.next = (.ok (some parsed), u) ∧ u.rest.1 = after := by
  induction before generalizing s with
  | nil =>
    obtain ⟨u, hnext, hafter⟩ := exists_next_of_rest hrest
    exact ⟨s, u, h, hnext, hafter⟩
  | cons first before ih =>
    obtain ⟨t, hnext, hafter⟩ := exists_next_of_rest hrest
    exact ih (hP.next h hnext) hafter

/-- What calls for events keep of a nesting holds of it after any number of them. -/
theorem Passes.nesting_run (hP : Passes P) (h : P s) (count : Nat) :
    ∃ t, P t ∧ (s.run (List.replicate count .next)).2.nesting = t.nesting := by
  have hdone : ∀ {t : EventStream} (calls : List Call), t.stage = .done → t.queue = [] →
      (t.run calls).2.nesting = t.nesting := by
    intro t calls hs hq
    exact (run_done (P := fun u => u.nesting = t.nesting) (fun _ hu => hu) calls hs hq rfl).2.2.2
  induction count generalizing s with
  | zero => exact ⟨s, h, rfl⟩
  | succ count ih =>
    rw [List.replicate_succ, run]
    have hresponds := responds_next s
    generalize hnext : s.next = result at hresponds
    cases hresponds with
    | event => exact ih (hP.next h hnext)
    | ended hs hq => exact ⟨s, h, hdone _ hs hq⟩
    | failed => exact ⟨s, h, hdone _ rfl rfl⟩

theorem rest_of_done (hs : s.stage = .done) (hq : s.queue = []) : s.rest.1 = [] := by
  rw [rest_of_none (next_of_done hq hs)]

/-- So many calls for events hand out so many of the events that are left. -/
theorem delivered_run (s : EventStream) (count : Nat) :
    delivered (s.run (List.replicate count .next)).1 = s.rest.1.take count := by
  induction count generalizing s with
  | zero => rfl
  | succ count ih =>
    rw [List.replicate_succ, run]
    have hresponds := responds_next s
    generalize hnext : s.next = result at hresponds
    cases hresponds with
    | event =>
      rw [rest_of_event hnext, List.take_succ_cons, ← ih]
      rfl
    | ended hs hq =>
      rw [rest_of_none hnext]
      exact (ih s).trans (by rw [rest_of_done hs hq, List.take_nil, List.take_nil])
    | failed =>
      rw [rest_of_error hnext]
      exact (ih _).trans (by rw [rest_of_done rfl rfl, List.take_nil, List.take_nil])

end Runs

/-- How the events after the open tag of a raw text element go on behind its text: with the close of the
element, or with the end of the document, where some policies leave it open or object to that. -/
inductive EndsRawText (input : Bytes) (policy : Policy) (name : Span) : List Event → Prop
  | closed {span close : Span} {rest : List Event} :
      Bytes.sameName true (close.slice input) (name.slice input) →
      EndsRawText input policy name (.element .closeStart span close :: rest)
  | autoClosed {span : Span} {rest : List Event} : policy = .autoClose →
      EndsRawText input policy name (.element .autoCloseStart span name :: rest)
  | ended {length : Nat} : policy = .noBalancing → EndsRawText input policy name [.documentEnd length]
  | failed : policy = .requireBalanced → EndsRawText input policy name []

/-- The stream stands inside a raw text element, with nothing queued. -/
structure InRawText (input : Bytes) (settings : Settings) (frame : Frame) (s : EventStream) : Prop where
  keeps : s.KeepsRawText input settings
  running : s.stage = .running
  queue : s.queue = []
  stack : ∃ outer, s.nesting.stack = frame :: outer
  rawText : isRawText frame.name

/-- The events that are left. -/
def events (s : EventStream) : List Event := s.rest.1.map (·.event)

theorem InRawText.inLiteral {frame : Frame} (h : InRawText input settings frame s) :
    s.tokens.InLiteral frame.name := by
  obtain ⟨outer, hstack⟩ := h.stack
  cases h.keeps.placed (by rw [h.running]; exact nofun) with
  | outside _ hout =>
    rw [hstack] at hout
    exact absurd h.rawText (hout frame List.mem_cons_self).2
  | inside hstack' _ hin =>
    obtain ⟨rfl, -⟩ := List.cons.inj (hstack.symm.trans hstack')
    exact hin

/-- How the events inside a raw text element begin. -/
inductive Continues (input : Bytes) (settings : Settings) (frame : Frame) (s : EventStream) :
    List Event → Prop
  | text {stop : Cursor} {t : EventStream} : s.tokens.cursor.Reaches stop →
      (ClosesAt frame.name s.tokens.cursor.rest → greaterThan ∉ s.tokens.cursor.rest) →
      (∀ found, s.tokens.mode = .literal frame.name →
        s.tokens.cursor.seekCloseTag? frame.name true = some found →
        s.tokens.offset < found.offset → stop = found) →
      InRawText input settings frame t → t.tokens.cursor = stop → t.Nearer s →
      Continues input settings frame s (.text (s.tokens.cursor.upTo stop) :: t.events)
  | closed {name : Span} {rest : List Event} : ClosesAt frame.name s.tokens.cursor.rest →
      name = Span.ofLength (s.tokens.offset + 2) frame.name.length →
      Bytes.sameName true (name.slice input) frame.name →
      Continues input settings frame s
        (.element .closeStart (Span.ofLength s.tokens.offset (2 + frame.name.length)) name :: rest)
  | ended {rest : List Event} : s.tokens.cursor.rest = [] →
      EndsRawText input settings.policy frame.span rest → Continues input settings frame s rest

/-- Only the end of the document is refused inside a raw text element. -/
theorem InRawText.ends_of_fails (hd : settings.dialect = .html) {frame : Frame}
    (h : InRawText input settings frame s) {e : ParseError} (hfails : s.Fails e) :
    s.tokens.cursor.rest = [] ∧ settings.policy = .requireBalanced := by
  obtain ⟨outer, hstack⟩ := h.stack
  have hread := h.keeps.readsLiteral hd h.rawText h.inLiteral
  cases hfails with
  | tooLarge hs =>
    rw [h.running] at hs
    cases hs
  | scan _ htokens =>
    rw [htokens] at hread
    cases hread
  | token _ htokens hstep =>
    rw [htokens] at hread
    cases hread with
    | text => cases hstep
    | closed _ _ _ _ hname =>
      rw [h.keeps.accept_closeTag hd hstack hname] at hstep
      cases hstep
  | finish _ htokens hstep =>
    rw [htokens] at hread
    cases hread with
    | ended hend =>
      exact ⟨hend, h.keeps.reads.nesting_policy.symm.trans (Nesting.finish_eq_error hstep).1⟩

/-- The end of the document, where it is not refused, closes the element or leaves it open. -/
theorem InRawText.endsRawText_of_finishes {frame : Frame} (h : InRawText input settings frame s)
    {step : Nesting.Step} (hfinishes : s.nesting.Finishes s.tokens.locate step)
    {event : Event} {queue : List Event} (hq : (s.loadEnd step).queue = event :: queue) :
    EndsRawText input settings.policy frame.span
      (event :: (EventStream.deliver { s.loadEnd step with queue } event).2.events) := by
  obtain ⟨outer, hstack⟩ := h.stack
  have hpolicy : s.nesting.policy = settings.policy := h.keeps.reads.nesting_policy
  cases hfinishes with
  | still hstill =>
    obtain ⟨rfl, rfl⟩ := List.cons.inj hq
    rw [events, rest_of_done rfl rfl]
    refine .ended (hpolicy.symm.trans ?_)
    by_contra hne
    rw [hstill hne] at hstack
    cases hstack
  | implied hauto =>
    rw [loadEnd, hstack] at hq
    obtain ⟨rfl, -⟩ := List.cons.inj hq
    exact .autoClosed (hpolicy.symm.trans hauto)

theorem InRawText.continues_of_loads (hd : settings.dialect = .html) {frame : Frame}
    (h : InRawText input settings frame s) {u : EventStream} (hloads : s.Loads u) {event : Event}
    {queue : List Event} (hq : u.queue = event :: queue)
    (hnearer : (EventStream.deliver { u with queue } event).2.Nearer s) :
    Continues input settings frame s
      (event :: (EventStream.deliver { u with queue } event).2.events) := by
  obtain ⟨outer, hstack⟩ := h.stack
  have hread := h.keeps.readsLiteral hd h.rawText h.inLiteral
  have hkeeps := h.keeps.loads hd hloads
  cases hloads with
  | start hs =>
    rw [h.running] at hs
    cases hs
  | token _ htokens hstep =>
    rw [htokens] at hread
    cases hread with
    | text hreach hnot hfound _ hcursor =>
      obtain rfl := Except.ok.inj hstep
      obtain ⟨rfl, rfl⟩ := List.cons.inj hq
      exact .text hreach hnot hfound ⟨hkeeps.deliver hq, h.running, rfl, h.stack, h.rawText⟩ hcursor
        hnearer
    | closed hcloses _ hstart htag hname =>
      rw [h.keeps.accept_closeTag hd hstack hname] at hstep
      obtain rfl := Except.ok.inj hstep
      obtain ⟨rfl, rfl⟩ := List.cons.inj hq
      rw [h.keeps.reads.tokens_input] at hname
      rw [hstart]
      exact .closed hcloses htag hname
  | finish _ htokens hstep =>
    rw [htokens] at hread
    cases hread with
    | ended hend => exact .ended hend (h.endsRawText_of_finishes (Nesting.finishes_finish hstep) hq)

theorem InRawText.continues (hd : settings.dialect = .html) {frame : Frame}
    (h : InRawText input settings frame s) : Continues input settings frame s s.events := by
  have hresponds := responds_next s
  generalize hnext : s.next = result at hresponds
  cases hresponds with
  | ended hs =>
    rw [h.running] at hs
    cases hs
  | failed _ hfails =>
    obtain ⟨hend, hpolicy⟩ := h.ends_of_fails hd hfails
    rw [events, rest_of_error hnext]
    exact .ended hend (.failed hpolicy)
  | @event u event queue hu hq =>
    rw [events, rest_of_event hnext]
    rcases hu with rfl | ⟨-, hloads⟩
    · rw [h.queue] at hq
      cases hq
    · exact h.continues_of_loads hd hloads hq (nearer_next hnext)

/-- Inside a raw text element there is text up to its close. -/
theorem InRawText.exists_texts {s : EventStream} (hd : settings.dialect = .html) {frame : Frame}
    (h : InRawText input settings frame s) (hname : frame.name = frame.span.slice input) :
    ∃ texts tail, s.events = texts ++ tail ∧ (∀ event ∈ texts, ∃ span, event = .text span) ∧
      EndsRawText input settings.policy frame.span tail := by
  -- By the recursion of the rest of the stream: each text leaves it nearer to the end.
  have hcontinues := h.continues hd
  generalize s.events = events at hcontinues ⊢
  cases hcontinues with
  | text _ _ _ hin _ hnearer =>
    obtain ⟨texts, tail, hrest, htexts, hends⟩ := hin.exists_texts hd hname
    refine ⟨_ :: texts, tail, by rw [hrest, List.cons_append], fun event hmem => ?_, hends⟩
    rcases List.mem_cons.1 hmem with rfl | hmem
    · exact ⟨_, rfl⟩
    · exact htexts event hmem
  | closed _ _ hsame =>
    rw [hname] at hsame
    exact ⟨[], _, rfl, nofun, .closed hsame⟩
  | ended _ hends => exact ⟨[], _, rfl, nofun, hends⟩
termination_by s.remaining
decreasing_by exact hnearer

/-- At a place that closes the element the text is over: a close tag begins there, unless none can end. -/
theorem InRawText.exists_first (hd : settings.dialect = .html) {frame : Frame}
    (h : InRawText input settings frame s) (hcloses : ClosesAt frame.name s.tokens.cursor.rest) :
    ∃ first rest, s.events = first :: rest ∧ first.span.start = s.tokens.offset ∧
      (greaterThan ∈ s.tokens.cursor.rest →
        first = .element .closeStart (Span.ofLength s.tokens.offset (2 + frame.name.length))
          (Span.ofLength (s.tokens.offset + 2) frame.name.length)) := by
  have hcontinues := h.continues hd
  generalize s.events = events at hcontinues ⊢
  cases hcontinues with
  | text _ hnot => exact ⟨_, _, rfl, rfl, fun hend => absurd hend (hnot hcloses)⟩
  | closed _ hspan => exact ⟨_, _, rfl, rfl, fun _ => by rw [hspan]⟩
  | ended hend =>
    obtain ⟨rest, hrest⟩ := hcloses.exists_cons
    rw [hend] at hrest
    cases hrest

/-- All that stands before the first place that closes the element is one text. -/
theorem InRawText.events_of_closesAt (hd : settings.dialect = .html) {frame : Frame}
    (h : InRawText input settings frame s) (hm : s.tokens.mode = .literal frame.name) {place : Nat}
    (hle : s.tokens.offset ≤ place) (hcloses : ClosesAt frame.name (input.drop place))
    (hfirst : ∀ i, s.tokens.offset ≤ i → i < place → ¬ ClosesAt frame.name (input.drop i)) :
    ∃ first rest,
      s.events = (if s.tokens.offset < place then [.text ⟨s.tokens.offset, place⟩] else []) ++
        first :: rest ∧
      first.span.start = place ∧
      (greaterThan ∈ input.drop place →
        first = .element .closeStart (Span.ofLength place (2 + frame.name.length))
          (Span.ofLength (place + 2) frame.name.length)) := by
  have hrest : s.tokens.cursor.rest = input.drop s.tokens.offset := h.keeps.reaches.rest_eq
  split
  · rename_i hlt
    have hdrop : ∀ i, s.tokens.cursor.rest.drop i = input.drop (s.tokens.offset + i) := fun i => by
      rw [hrest, List.drop_drop]
    have hplace : ClosesAt frame.name (s.tokens.cursor.rest.drop (place - s.tokens.offset)) := by
      rwa [hdrop, Nat.add_sub_cancel' hle]
    obtain ⟨found, hseek, hoffset⟩ := exists_seekCloseTag? hplace fun i hi => by
      rw [hdrop]
      exact hfirst _ (Nat.le_add_right _ _) (by omega)
    obtain rfl : found.offset = place := hoffset.trans (Nat.add_sub_cancel' hle)
    have hcontinues := h.continues hd
    generalize s.events = events at hcontinues ⊢
    cases hcontinues with
    | @text stop t _ _ hfound hin hcursor =>
      obtain rfl := hfound found hm hseek hlt
      have hbehind : t.tokens.cursor.rest = input.drop stop.offset := by
        rw [hin.keeps.reaches.rest_eq, hcursor]
        rfl
      have hoffset : t.tokens.offset = stop.offset := congrArg _ hcursor
      rw [← hbehind] at hcloses ⊢
      obtain ⟨first, rest, hevents, hspan⟩ := hin.exists_first hd hcloses
      rw [hoffset] at hspan
      exact ⟨first, rest, congrArg _ hevents, hspan⟩
    | closed hbefore =>
      rw [hrest] at hbefore
      exact absurd hbefore (hfirst _ (Nat.le_refl _) hlt)
    | ended hend =>
      rw [hend, List.drop_nil] at hplace
      obtain ⟨rest, hrest⟩ := hplace.exists_cons
      cases hrest
  · rename_i hge
    obtain rfl : s.tokens.offset = place := by omega
    rw [← hrest] at hcloses ⊢
    exact h.exists_first hd hcloses

/-- The end of the open tag of a raw text element takes the stream inside it. -/
theorem KeepsRawText.exists_inRawText (hd : settings.dialect = .html)
    (h : s.KeepsRawText input settings) {before after : List Event} {span name : Span}
    (hevents : s.events = before ++ .element .openEnd span name :: after)
    (hraw : isRawText (name.slice input)) :
    ∃ t, InRawText input settings ⟨name, name.slice input⟩ t ∧ t.events = after ∧
      t.tokens.mode = .literal (name.slice input) ∧ t.tokens.offset = span.stop := by
  obtain ⟨before, behind, hrest, -, hbehind⟩ := List.map_eq_append_iff.1 hevents
  obtain ⟨parsed, after, rfl, hparsed, rfl⟩ := List.map_eq_cons_iff.1 hbehind
  obtain ⟨t, u, ht, hnext, hafter⟩ := (passes_keepsRawText hd).exists_next h hrest
  obtain ⟨v, queue, hv, hq, rfl⟩ := (passes_keepsRawText hd).exists_queued ht hnext
  rw [hparsed] at hq hafter
  obtain ⟨rfl, hs, hstack, hm, hoffset⟩ := hv.asks [] span name queue hq hraw
  exact ⟨_, ⟨hv.deliver hq, hs, rfl, hstack, hraw⟩, by rw [events, hafter], hm, hoffset⟩

/-- The events after the open tag of a raw text element that ends at an offset. There is text up to the
close of the element, and just one text up to the first place that closes it. -/
structure HoldsRawText (input : Bytes) (policy : Policy) (offset : Nat) (name : Span)
    (events : List Event) : Prop where
  texts : ∃ texts tail, events = texts ++ tail ∧ (∀ event ∈ texts, ∃ span, event = .text span) ∧
    EndsRawText input policy name tail
  body : ∀ place, offset ≤ place → ClosesAt (name.slice input) (input.drop place) →
    (∀ i, offset ≤ i → i < place → ¬ ClosesAt (name.slice input) (input.drop i)) →
    ∃ first rest,
      events = (if offset < place then [.text ⟨offset, place⟩] else []) ++ first :: rest ∧
      first.span.start = place ∧
      (greaterThan ∈ input.drop place →
        first = .element .closeStart (Span.ofLength place (2 + (name.slice input).length))
          (Span.ofLength (place + 2) (name.slice input).length))

/-- The classes of elements are kept in every HTML document, under every policy. However many events
have been asked for, no void element is open, so that a close tag of one ends nothing, and a raw text
element has no other inside it. The events that are handed out hold nothing but text from the open tag of
a raw text element to its close. -/
theorem element_classes_hold (input : Bytes) (policy : Policy) (selectors : List Selector) :
    let s := ofInput input ⟨.html, policy, selectors⟩
    (∀ count,
      let after := s.run (List.replicate count .next)
      delivered after.1 = s.rest.1.take count ∧
      (∀ frame ∈ after.2.nesting.stack, ¬ isVoid frame.name) ∧
      (∀ frame ∈ after.2.nesting.stack.tail, ¬ isRawText frame.name) ∧
      ∀ locate tag, isVoid (tag.name.slice input) →
        after.2.nesting.accept locate (.closeTag tag) =
          if policy = .requireBalanced then
            .error (.unbalancedClose (Utf8.decodeLossy (tag.name.slice input))
              (locate tag.start.start))
          else .ok (after.2.nesting.closeUnmatched locate tag)) ∧
    ∀ before span name after, s.events = before ++ .element .openEnd span name :: after →
      isRawText (name.slice input) → HoldsRawText input policy span.stop name after := by
  intro s
  have hkeeps : s.KeepsRawText input ⟨.html, policy, selectors⟩ := keepsRawText_ofInput _ _
  refine ⟨fun count => ?_, fun before span name after hevents hraw => ?_⟩
  · obtain ⟨t, ht, hnesting⟩ := (passes_keepsRawText rfl).nesting_run hkeeps count
    intro after
    refine ⟨delivered_run s count, ?_⟩
    rw [hnesting]
    refine ⟨ht.classes.void, ht.classes.rawText, fun locate tag hvoid => ?_⟩
    rw [← ht.reads.nesting_input] at hvoid
    have hclose := Nesting.closeElement_of_isVoid ht.reads.nesting_dialect ht.classes.void locate hvoid
    rw [ht.reads.nesting_policy, ht.reads.nesting_input] at hclose
    exact hclose
  · obtain ⟨t, ht, rfl, hm, hoffset⟩ := hkeeps.exists_inRawText rfl hevents hraw
    refine ⟨ht.exists_texts rfl rfl, fun place hle hcloses hfirst => ?_⟩
    rw [← hoffset] at hle hfirst ⊢
    exact ht.events_of_closesAt rfl hm hle hcloses hfirst

/-- A close tag of another name is text, and the spelling of the name does not matter. -/
example :
    let s := ofInput (Bytes.ofString "<style>a</b</STYLE >") ⟨.html, .requireBalanced, []⟩
    (delivered (s.run (List.replicate 5 .next)).1).map (·.event) =
      [.documentStart, .element .openStart ⟨0, 6⟩ ⟨1, 6⟩, .element .openEnd ⟨6, 7⟩ ⟨1, 6⟩,
        .text ⟨7, 11⟩, .element .closeStart ⟨11, 18⟩ ⟨13, 18⟩] := by
  decide +kernel

end EventStream

end MarkupStream
