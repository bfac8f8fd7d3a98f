import MarkupStream.Proofs.Calls
import MarkupStream.Proofs.Evaluation

/-!
Selections along whole runs. A stream shows its evaluation one event after the other, each start of an
element with the parts of its tag, so that the evaluation follows the tree of the document from the
first event to the last one handed out.
-/
namespace MarkupStream

open Selector

/-- The starts of elements among events are followed by the given parts of their tag. -/
def HaveParts (parts : List TagPart) : List Event → Prop
  | [] => True
  | event :: rest =>
    (event.isElementStart → ∀ more, leadingParts (rest ++ more) = parts) ∧ HaveParts parts rest

section Parts

variable {parts : List TagPart}

theorem haveParts_append {first rest : List Event} (h : ∀ event ∈ first, ¬ event.isElementStart)
    (hrest : HaveParts parts rest) : HaveParts parts (first ++ rest) := by
  induction first with
  | nil => exact hrest
  | cons event more ih =>
    exact ⟨fun hstart => absurd hstart (h event List.mem_cons_self),
      ih fun other hmem => h other (List.mem_cons_of_mem _ hmem)⟩

theorem haveParts_of_no_start {events : List Event} (h : ∀ event ∈ events, ¬ event.isElementStart) :
    HaveParts parts events := by
  have hnil : HaveParts parts [] := trivial
  have happend := haveParts_append h hnil
  rwa [List.append_nil] at happend

theorem leadingParts_tag (parts : List TagPart) {edge : ElementEdge} {span name : Span}
    (more : List Event) :
    leadingParts (parts.map Event.ofPart ++ .element edge span name :: more) = parts := by
  induction parts with
  | nil => rfl
  | cons part rest ih => cases part <;> exact congrArg _ ih

theorem not_isElementStart_parts (parts : List TagPart) :
    ∀ event ∈ parts.map Event.ofPart, ¬ event.isElementStart :=
  Event.forall_mem_parts (fun _ => Bool.false_ne_true) (fun _ => Bool.false_ne_true) parts

namespace Nesting

theorem not_isElementStart_autoCloseEvents (offset : Nat) (frames : List Frame) :
    ∀ event ∈ autoCloseEvents offset frames, ¬ event.isElementStart :=
  forall_mem_autoCloseEvents (fun _ _ => Bool.false_ne_true) (fun _ _ => Bool.false_ne_true) offset
    frames

theorem not_isElementStart_closeEvents (tag : CloseTag) {first last : ElementEdge}
    (hfirst : ¬ first.isStart) (hlast : ¬ last.isStart) :
    ∀ event ∈ closeEvents tag first last, ¬ event.isElementStart :=
  Event.forall_mem_tag hfirst
    (Event.forall_mem_whitespace (fun _ => Bool.false_ne_true) tag.whitespace) hlast

theorem haveParts_openEvents (tag : OpenTag) {first last : ElementEdge} (hlast : ¬ last.isStart) :
    HaveParts tag.parts (openEvents tag first last) := by
  constructor
  · intro _ more
    rw [List.append_assoc]
    exact leadingParts_tag tag.parts more
  · have hend : HaveParts tag.parts [.element last tag.close tag.name] :=
      ⟨fun hstart => absurd hstart hlast, trivial⟩
    exact haveParts_append (not_isElementStart_parts tag.parts) hend

/-- Among the events of a token the start of an element is followed by the parts of its tag. -/
theorem Accepts.haveParts {n : Nesting} {locate : Nat → Position} {token : Token} {step : Step}
    (h : n.Accepts locate token step) (hparts : ∀ tag, token = .openTag tag → parts = tag.parts) :
    HaveParts parts step.events := by
  cases h with
  | node hevent =>
    obtain ⟨kind, hkind⟩ := Option.isSome_iff_exists.1 (Event.ofToken?_eq_some hevent).1
    refine haveParts_of_no_start fun event hmem => ?_
    rw [List.mem_singleton.1 hmem]
    exact (isElement_of_nodeKind? hkind).1
  | standalone tag | opened tag =>
    rw [hparts tag rfl]
    exact haveParts_append (not_isElementStart_autoCloseEvents _ _) (haveParts_openEvents tag nofun)
  | closed tag =>
    exact haveParts_append (not_isElementStart_autoCloseEvents _ _)
      (haveParts_of_no_start (not_isElementStart_closeEvents tag nofun nofun))
  | unmatched tag => exact haveParts_of_no_start (not_isElementStart_closeEvents tag nofun nofun)

theorem Finishes.no_start {n : Nesting} {locate : Nat → Position} {step : Step}
    (h : n.Finishes locate step) : ∀ event ∈ step.events, ¬ event.isElementStart := by
  cases h with
  | still => simp
  | implied => exact not_isElementStart_autoCloseEvents _ _

end Nesting

end Parts

namespace EventStream

/-- As far as the known events are those of a document, the evaluation follows its tree, and the
events handed out have the selections that the tree asks for. -/
structure Observed (o : Outline) (settings : Settings) (events : List ParsedEvent)
    (s : EventStream) : Prop where
  reads : s.Reads o.input settings
  parts : HaveParts s.tokens.parts s.queue
  follows : known events s <+: o.events → Follows o settings.selectors events.length s.evaluation
  selections : known events s <+: o.events → ∀ i parsed, events[i]? = some parsed →
    o.IsSelection settings.selectors i parsed.selection

theorem observed_ofInput (o : Outline) (settings : Settings) :
    Observed o settings [] (ofInput o.input settings) where
  reads := reads_ofInput o.input settings
  parts := trivial
  follows := fun _ => follows_ofSelectors o settings.selectors
  selections := by simp

theorem Observed.fills {o : Outline} {settings : Settings} {events : List ParsedEvent}
    {s t : EventStream} (h : Observed o settings events s) (hq : s.queue = []) (hf : s.Fills t) :
    Observed o settings events t := by
  have hreads := h.reads.fills hf
  have hword : known events t <+: o.events → known events s <+: o.events := by
    intro ht
    rw [known_of_queue_nil hq]
    exact (List.prefix_append _ t.queue).trans ht
  have hsame : t.evaluation = s.evaluation := by cases hf <;> rfl
  refine ⟨hreads, ?_, fun ht => ?_, fun ht => h.selections (hword ht)⟩
  · cases hf with
    | start => exact ⟨nofun, trivial⟩
    | token hs htiled hparts haccepts => exact haccepts.haveParts hparts
    | finish hs hend hfinishes =>
      exact haveParts_append hfinishes.no_start ⟨nofun, trivial⟩
  · rw [hsame]
    exact h.follows (hword ht)

theorem Observed.deliver {o : Outline} {settings : Settings}
    (hformed : ∀ s ∈ settings.selectors, s.IsFormed)
    {events : List ParsedEvent} {s : EventStream} {event : Event} {queue : List Event}
    (h : Observed o settings events s) (hq : s.queue = event :: queue) :
    Observed o settings (events ++ [(EventStream.deliver { s with queue } event).1])
      (EventStream.deliver { s with queue } event).2 := by
  have hparts := h.parts
  rw [hq] at hparts
  have hobserve : known events s <+: o.events →
      Follows o settings.selectors (events.length + 1)
          (s.evaluation.observe event s.tokens.parts s.input).2 ∧
        o.IsSelection settings.selectors events.length
          (s.evaluation.observe event s.tokens.parts s.input).1 := by
    intro hword
    obtain ⟨more, hmore⟩ := hword
    have hinput : s.input = o.input := h.reads.tokens_input
    have hevents : o.events = events.map (·.event) ++ event :: (queue ++ more) := by
      rw [← hmore, known, hq, List.append_assoc, List.cons_append]
    rw [hinput]
    refine (h.follows ⟨more, hmore⟩).observe hformed ?_ fun hstart => ?_
    · rw [hevents, List.getElem?_append_right (Nat.le_of_eq (List.length_map _))]
      simp
    · rw [← hparts.1 hstart more, hevents, List.drop_append, List.drop_eq_nil_of_le (by simp)]
      simp
  refine ⟨h.reads.deliver queue event, hparts.2, ?_, ?_⟩
  all_goals rw [known_deliver hq]
  · intro hword
    rw [List.length_append]
    exact (hobserve hword).1
  · intro hword i parsed hi
    rcases Nat.lt_trichotomy i events.length with hlt | rfl | hgt
    · rw [List.getElem?_append_left hlt] at hi
      exact h.selections hword i parsed hi
    · rw [List.getElem?_concat_length] at hi
      rw [← Option.some.inj hi]
      exact (hobserve hword).2
    · rw [List.getElem?_eq_none (by rw [List.length_append]; exact hgt)] at hi
      cases hi

theorem kept_observed {o : Outline} {settings : Settings}
    (hformed : ∀ s ∈ settings.selectors, s.IsFormed) :
    Kept (Observed o settings) where
  mode := fun mode h => ⟨h.reads.mode mode, h.parts, h.follows, h.selections⟩
  fills := Observed.fills
  deliver := Observed.deliver hformed

/-- Whatever calls are made on the stream of a document, with whatever compiled selectors, every event
is handed out with the selection that the tree of the document asks for: in ascending order the
selectors that select an element that encloses the event, or the event itself where it is a node. The
tree is that of all known events, those handed out and those that wait to be. -/
theorem selections_follow_outline (input : Bytes) (settings : Settings)
    (hcompiled : ∀ s ∈ settings.selectors, ∃ source dialect resolver,
      Selector.compile source dialect resolver = .ok s) (calls : List Call) :
    let events := delivered ((ofInput input settings).run calls).1
    let outline : Outline := ⟨input, known events ((ofInput input settings).run calls).2⟩
    ∀ i parsed, events[i]? = some parsed →
      outline.IsSelection settings.selectors i parsed.selection := by
  intro events outline
  have hformed : ∀ s ∈ settings.selectors, s.IsFormed := by
    intro s hs
    obtain ⟨source, dialect, resolver, hcompile⟩ := hcompiled s hs
    exact isFormed_of_compile hcompile
  obtain ⟨t, ht, hqueue, -⟩ := run_kept (kept_observed hformed) calls
    (alive_ofInput input settings) (observed_ofInput outline settings)
  refine ht.selections ?_
  rw [known, hqueue]
  exact List.prefix_refl _

/-- A selector of the text in every other item, as it is compiled. -/
def textOfEvenItems : Selector :=
  ⟨"//li[even()]/text()", .html, [[⟨.descendant, [⟨.named "li", none⟩], some .even⟩,
    ⟨.child, [⟨.pseudo (.ofKind .text), none⟩], none⟩]]⟩

/-- The second item implies the close of the first and is its sibling, so that its text is handed out
with that selector. -/
theorem selection_textOfEvenItems :
    let input := Bytes.ofString "<ul><li>a<li>b</ul>"
    let settings : Settings := ⟨.html, .autoClose, [textOfEvenItems]⟩
    let run := (ofInput input settings).run (List.replicate 11 .next)
    (∀ s ∈ settings.selectors, ∃ source dialect resolver,
        Selector.compile source dialect resolver = .ok s) ∧
      (delivered run.1)[10]? = some ⟨.text ⟨13, 14⟩, ⟨1, 14, 13⟩, ⟨[0]⟩⟩ ∧
      Outline.IsSelection ⟨input, known (delivered run.1) run.2⟩ settings.selectors 10 ⟨[0]⟩ := by
  intro input settings run
  have hcompiled : ∀ s ∈ settings.selectors, ∃ source dialect resolver,
      Selector.compile source dialect resolver = .ok s := by
    intro s hs
    rw [List.mem_singleton.1 hs]
    refine ⟨"//li[even()]/text()", .html, none, ?_⟩
    have hresult : (Selector.compile "//li[even()]/text()" .html none).toOption =
        some textOfEvenItems := by decide +kernel
    cases hcompile : Selector.compile "//li[even()]/text()" .html none with
    | error e =>
      rw [hcompile] at hresult
      cases hresult
    | ok found =>
      rw [hcompile] at hresult
      rw [Option.some.inj hresult]
  have hevent : (delivered run.1)[10]? = some ⟨.text ⟨13, 14⟩, ⟨1, 14, 13⟩, ⟨[0]⟩⟩ := by
    decide +kernel
  exact ⟨hcompiled, hevent, selections_follow_outline _ settings hcompiled _ 10 _ hevent⟩

end EventStream

end MarkupStream
