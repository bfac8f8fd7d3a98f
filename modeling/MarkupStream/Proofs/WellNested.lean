import MarkupStream.Proofs.Calls

/-!
The grammar of event streams. Between the two ends of a document stand nodes and whole tags: an open
tag begins an element, a close tag or an implied close ends the innermost element that has begun and
not yet ended, and an unmatched close tag ends nothing. The stack of open elements follows this
grammar, one item or a few for each token, and so does every run of every document.
-/
namespace MarkupStream

section Grammar

variable (dialect : Dialect) (policy : Policy) (input : Bytes)

/-- One item, between the names of the elements that are open before it and after it, innermost first.
An implied close carries the very name of the element it ends, a close tag an equal one. -/
inductive Item : List Span → List Event → List Span → Prop
  | node {stack : List Span} {event : Event} : event.isNode → Item stack [event] stack
  | opened {stack : List Span} {start close name : Span} (parts : List TagPart) :
      Item stack (.element .openStart start name ::
        (parts.map Event.ofPart ++ [.element .openEnd close name])) (name :: stack)
  | standalone {stack : List Span} {start close name : Span} {minimized : Bool}
      (parts : List TagPart) :
      Item stack (.element .standaloneStart start name ::
        (parts.map Event.ofPart ++ [.element (.standaloneEnd minimized) close name])) stack
  | closed {stack : List Span} {start close name innermost : Span} (whitespace : Option Span) :
      Bytes.sameName dialect.ignoresCase (innermost.slice input) (name.slice input) →
      Item (innermost :: stack) (.element .closeStart start name ::
        (whitespace.toList.map Event.innerWhitespace ++ [.element .closeEnd close name])) stack
  | autoClosed {stack : List Span} {span innermost : Span} : policy = .autoClose →
      Item (innermost :: stack) [.element .autoCloseStart span innermost,
        .element .autoCloseEnd span innermost] stack
  | unmatched {stack : List Span} {start close name : Span} (whitespace : Option Span) :
      policy ≠ .requireBalanced →
      Item stack (.element .unmatchedStart start name ::
        (whitespace.toList.map Event.innerWhitespace ++ [.element .unmatchedEnd close name])) stack

/-- Items one after another, each with the elements open that the one before it left open. -/
inductive Nested : List Span → List Event → List Span → Prop
  | nil {stack : List Span} : Nested stack [] stack
  | item {before middle after : List Span} {first rest : List Event} :
      Item dialect policy input before first middle → Nested middle rest after →
      Nested before (first ++ rest) after

end Grammar

section Nested

variable {dialect : Dialect} {policy : Policy} {input : Bytes}

theorem Item.nested {before after : List Span} {events : List Event}
    (h : Item dialect policy input before events after) :
    Nested dialect policy input before events after := by
  have := Nested.item h .nil
  rwa [List.append_nil] at this

theorem Nested.append {before middle after : List Span} {first second : List Event}
    (h : Nested dialect policy input before first middle)
    (h' : Nested dialect policy input middle second after) :
    Nested dialect policy input before (first ++ second) after := by
  induction h with
  | nil => exact h'
  | item hitem _ ih =>
    rw [List.append_assoc]
    exact .item hitem (ih h')

/-- The edges of an implied close. -/
def ElementEdge.isImplied : ElementEdge → Bool
  | autoCloseStart | autoCloseEnd => true
  | _ => false

/-- The edges of a close tag that ends nothing. -/
def ElementEdge.isUnmatched : ElementEdge → Bool
  | unmatchedStart | unmatchedEnd => true
  | _ => false

def Event.isImplied : Event → Bool
  | element edge _ _ => edge.isImplied
  | _ => false

def Event.isUnmatched : Event → Bool
  | element edge _ _ => edge.isUnmatched
  | _ => false

/-- What every event of an item is. -/
structure Inner (policy : Policy) (event : Event) : Prop where
  notEnd : ∀ length, event ≠ .documentEnd length
  implied : event.isImplied → policy = .autoClose
  unmatched : event.isUnmatched → policy ≠ .requireBalanced

theorem inner_node {event : Event} (h : event.isNode) : Inner policy event := by
  cases event with
  | documentStart | documentEnd | element | attr | innerWhitespace => cases h
  | _ => exact ⟨nofun, nofun, nofun⟩

theorem inner_ofPart (part : TagPart) : Inner policy (Event.ofPart part) := by
  cases part <;> exact ⟨nofun, nofun, nofun⟩

theorem inner_parts (parts : List TagPart) :
    ∀ event ∈ parts.map Event.ofPart, Inner policy event :=
  Event.forall_mem_parts (fun a => inner_ofPart (.attr a)) (fun span => inner_ofPart (.whitespace span))
    parts

theorem inner_whitespace (whitespace : Option Span) :
    ∀ event ∈ whitespace.toList.map Event.innerWhitespace, Inner policy event :=
  Event.forall_mem_whitespace (fun span => inner_ofPart (.whitespace span)) whitespace

theorem Item.inner {before after : List Span} {events : List Event}
    (h : Item dialect policy input before events after) : ∀ event ∈ events, Inner policy event := by
  cases h with
  | node hnode =>
    intro event h
    rw [List.mem_singleton.1 h]
    exact inner_node hnode
  | opened parts =>
    exact Event.forall_mem_tag ⟨nofun, nofun, nofun⟩ (inner_parts parts) ⟨nofun, nofun, nofun⟩
  | standalone parts =>
    exact Event.forall_mem_tag ⟨nofun, nofun, nofun⟩ (inner_parts parts) ⟨nofun, nofun, nofun⟩
  | closed whitespace =>
    exact Event.forall_mem_tag ⟨nofun, nofun, nofun⟩ (inner_whitespace whitespace)
      ⟨nofun, nofun, nofun⟩
  | @autoClosed _ _ _ hpolicy =>
    have hnothing : ∀ event ∈ [], Inner policy event := by simp
    exact Event.forall_mem_tag ⟨nofun, fun _ => hpolicy, nofun⟩ hnothing
      ⟨nofun, fun _ => hpolicy, nofun⟩
  | unmatched whitespace hpolicy =>
    exact Event.forall_mem_tag ⟨nofun, nofun, fun _ => hpolicy⟩ (inner_whitespace whitespace)
      ⟨nofun, nofun, fun _ => hpolicy⟩

theorem Nested.inner {before after : List Span} {events : List Event}
    (h : Nested dialect policy input before events after) :
    ∀ event ∈ events, Inner policy event := by
  induction h with
  | nil => simp
  | item hitem _ ih =>
    intro event h
    rcases List.mem_append.1 h with h | h
    · exact hitem.inner event h
    · exact ih event h

end Nested

namespace Nesting

/-- Every open element knows the bytes of its name. -/
def Named (n : Nesting) : Prop := ∀ frame ∈ n.stack, frame.name = frame.span.slice n.input

/-- The names of the open elements, innermost first. -/
def names (n : Nesting) : List Span := n.stack.map Frame.span

/-- An element that has `count` others open inside it stands behind them in the stack, and it has the
name that was asked for. -/
theorem stack_of_innerCount {n : Nesting} {name : Bytes} {count : Nat}
    (h : n.innerCount? name = some count) :
    ∃ frame, n.stack = n.stack.take count ++ frame :: n.stack.drop (count + 1) ∧
      Bytes.sameName n.dialect.ignoresCase frame.name name := by
  obtain ⟨hlt, hname, -⟩ := List.findIdx?_eq_some_iff_getElem.1 h
  refine ⟨n.stack[count], ?_, hname⟩
  rw [← List.drop_eq_getElem_cons hlt, List.take_append_drop]

theorem impliedCount_eq_zero {n : Nesting} {spec : Option ElementSpec}
    (h : n.policy ≠ .autoClose) : n.impliedCount spec = 0 := by
  rw [impliedCount]
  split
  · contradiction
  · rfl

theorem nested_autoCloseEvents (dialect : Dialect) {policy : Policy} (input : Bytes) (offset : Nat)
    (inner outer : List Frame) (h : policy = .autoClose ∨ inner = []) :
    Nested dialect policy input ((inner ++ outer).map Frame.span) (autoCloseEvents offset inner)
      (outer.map Frame.span) := by
  induction inner with
  | nil => exact .nil
  | cons frame rest ih =>
    obtain rfl : policy = .autoClose := by simpa using h
    exact .item (.autoClosed rfl) (ih (.inl rfl))

/-- The closes that an open tag implies are made by automatic closing only. -/
theorem nested_implied (n : Nesting) (offset : Nat) (spec : Option ElementSpec) :
    Nested n.dialect n.policy n.input n.names
      (autoCloseEvents offset (n.stack.take (n.impliedCount spec)))
      ((n.stack.drop (n.impliedCount spec)).map Frame.span) := by
  have hinner : n.policy = .autoClose ∨ n.stack.take (n.impliedCount spec) = [] := by
    by_cases hp : n.policy = .autoClose
    · exact .inl hp
    · rw [impliedCount_eq_zero hp]
      exact .inr rfl
  have himplied := nested_autoCloseEvents n.dialect n.input offset _
    (n.stack.drop (n.impliedCount spec)) hinner
  rwa [List.take_append_drop] at himplied

theorem nested_closeMatched {n : Nesting} {locate : Nat → Position} {tag : CloseTag} {count : Nat}
    (hnamed : n.Named) (h : n.innerCount? (tag.name.slice n.input) = some count)
    (hp : count = 0 ∨ n.policy = .autoClose) :
    Nested n.dialect n.policy n.input n.names (n.closeMatched locate tag count).events
      (n.closeMatched locate tag count).nesting.names := by
  obtain ⟨frame, hstack, hname⟩ := stack_of_innerCount h
  have hframe : frame ∈ n.stack := by
    rw [hstack]
    simp
  rw [hnamed frame hframe] at hname
  have hinner : n.policy = .autoClose ∨ n.stack.take count = [] := by
    rcases hp with rfl | hp
    · exact .inr rfl
    · exact .inl hp
  have himplied := nested_autoCloseEvents n.dialect n.input tag.start.start
    (n.stack.take count) (frame :: n.stack.drop (count + 1)) hinner
  rw [← hstack] at himplied
  exact himplied.append (Item.closed tag.whitespace hname).nested

/-- The events of a token are items that lead from the elements open before it to those after it. -/
theorem Accepts.nested {n : Nesting} {locate : Nat → Position} {token : Token} {step : Step}
    (h : n.Accepts locate token step) (hnamed : n.Named) :
    Nested n.dialect n.policy n.input n.names step.events step.nesting.names := by
  cases h with
  | node hevent => exact (Item.node (Event.ofToken?_eq_some hevent).1).nested
  | standalone tag _ hcount =>
    subst hcount
    exact (nested_implied n _ _).append (Item.standalone tag.parts).nested
  | opened tag _ hcount =>
    subst hcount
    exact (nested_implied n _ _).append (Item.opened tag.parts).nested
  | closed tag hcount hp => exact nested_closeMatched hnamed hcount hp
  | unmatched tag hp => exact (Item.unmatched tag.whitespace hp).nested

theorem Accepts.named {n : Nesting} {locate : Nat → Position} {token : Token} {step : Step}
    (h : n.Accepts locate token step) (hnamed : n.Named) : step.nesting.Named := by
  cases h with
  | node => exact hnamed
  | standalone => exact fun frame hf => hnamed frame (List.mem_of_mem_drop hf)
  | opened =>
    intro frame hf
    rcases List.mem_cons.1 hf with rfl | hf
    · rfl
    · exact hnamed frame (List.mem_of_mem_drop hf)
  | closed tag => exact fun frame hf => hnamed frame (List.mem_of_mem_drop hf)
  | unmatched tag => exact hnamed

theorem Finishes.named {n : Nesting} {locate : Nat → Position} {step : Step}
    (h : n.Finishes locate step) (hnamed : n.Named) : step.nesting.Named := by
  cases h with
  | still => exact hnamed
  | implied => exact fun frame hf => absurd hf List.not_mem_nil

/-- The end of the document closes all elements that are left open, unless none have to be closed. -/
theorem Finishes.nested {n : Nesting} {locate : Nat → Position} {step : Step}
    (h : n.Finishes locate step) :
    Nested n.dialect n.policy n.input n.names step.events step.nesting.names ∧
      (n.policy ≠ .noBalancing → step.nesting.names = []) := by
  cases h with
  | still hstack =>
    refine ⟨.nil, fun hp => ?_⟩
    rw [names, hstack hp]
    rfl
  | implied hp =>
    have himplied := nested_autoCloseEvents n.dialect n.input n.input.length n.stack []
      (.inl hp)
    rw [List.append_nil] at himplied
    exact ⟨himplied, fun _ => rfl⟩

end Nesting

namespace EventStream

/-- The known events are the start of the document and items that lead to the elements now open, and
after the last token the end of the document. -/
structure FollowsGrammar (input : Bytes) (settings : Settings) (events : List ParsedEvent)
    (s : EventStream) : Prop where
  reads : s.Reads input settings
  named : s.nesting.Named
  start : s.stage = .start → known events s = [] ∧ s.nesting.names = []
  running : s.stage = .running → ∃ body, known events s = .documentStart :: body ∧
    Nested settings.dialect settings.policy input [] body s.nesting.names
  done : s.stage = .done → ∃ body,
    known events s = .documentStart :: (body ++ [.documentEnd input.length]) ∧
    Nested settings.dialect settings.policy input [] body s.nesting.names ∧
    (settings.policy ≠ .noBalancing → s.nesting.names = [])

theorem followsGrammar_ofInput (input : Bytes) (settings : Settings) :
    FollowsGrammar input settings [] (ofInput input settings) where
  reads := reads_ofInput input settings
  named := by simp [Nesting.Named, ofInput, Nesting.ofInput]
  start := fun _ => ⟨rfl, rfl⟩
  running := fun h => by cases h
  done := fun h => by cases h

theorem FollowsGrammar.fills {input : Bytes} {settings : Settings} {events : List ParsedEvent}
    {s t : EventStream} (h : FollowsGrammar input settings events s) (hq : s.queue = [])
    (hf : s.Fills t) : FollowsGrammar input settings events t := by
  have hreads := h.reads.fills hf
  cases hf with
  | start hs =>
    obtain ⟨hknown, hnames⟩ := h.start hs
    rw [known_of_queue_nil hq] at hknown
    refine ⟨hreads, h.named, fun hs => (by cases hs), fun _ => ⟨[], ?_, ?_⟩,
      fun hs => (by cases hs)⟩
    · rw [known, hknown]
      rfl
    · rw [hnames]
      exact .nil
  | @token token next parts found step hs htiled hparts haccepts =>
    obtain ⟨body, hknown, hbody⟩ := h.running hs
    rw [known_of_queue_nil hq] at hknown
    have hnested := haccepts.nested h.named
    rw [h.reads.nesting_dialect, h.reads.nesting_policy, h.reads.nesting_input] at hnested
    refine ⟨hreads, haccepts.named h.named, ?_, ?_, ?_⟩
    · intro hs'
      simp [hs] at hs'
    · refine fun _ => ⟨body ++ step.events, ?_, hbody.append hnested⟩
      rw [known, hknown]
      rfl
    · intro hs'
      simp [hs] at hs'
  | @finish step hs hend hfinishes =>
    obtain ⟨body, hknown, hbody⟩ := h.running hs
    rw [known_of_queue_nil hq] at hknown
    obtain ⟨hnested, hnames⟩ := hfinishes.nested
    rw [h.reads.nesting_dialect, h.reads.nesting_policy, h.reads.nesting_input] at hnested
    rw [h.reads.nesting_policy] at hnames
    have hinput : s.input = input := h.reads.tokens_input
    refine ⟨hreads, hfinishes.named h.named, fun hs => (by cases hs), fun hs => (by cases hs),
      fun _ => ⟨body ++ step.events, ?_, hbody.append hnested, hnames⟩⟩
    rw [known, hknown, hinput, List.append_assoc]
    rfl

theorem kept_followsGrammar (input : Bytes) (settings : Settings) :
    Kept (FollowsGrammar input settings) where
  mode := fun mode h => ⟨h.reads.mode mode, h.named, h.start, h.running, h.done⟩
  fills := FollowsGrammar.fills
  deliver := by
    intro events s event queue h hq
    refine ⟨h.reads.deliver queue event, h.named, ?_, ?_, ?_⟩
    all_goals rw [known_deliver hq]
    · exact h.start
    · exact h.running
    · exact h.done

/-- A document's start and items hold no end of a document. -/
theorem documentEnd_not_mem {dialect : Dialect} {policy : Policy} {input : Bytes}
    {before after : List Span} {body : List Event}
    (h : Nested dialect policy input before body after) (length : Nat) :
    .documentEnd length ∉ Event.documentStart :: body := by
  intro hmem
  rcases List.mem_cons.1 hmem with hstart | hbody
  · cases hstart
  · exact (h.inner _ hbody).notEnd length rfl

/-- Once the end of a document has been handed out, nothing is left in the queue. -/
theorem queue_eq_nil_of_end {dialect : Dialect} {policy : Policy} {input : Bytes}
    {before after : List Span} {body events queue : List Event} {length : Nat}
    (h : Nested dialect policy input before body after)
    (heq : events ++ queue = .documentStart :: (body ++ [.documentEnd input.length]))
    (hmem : .documentEnd length ∈ events) : queue = [] := by
  rcases List.eq_nil_or_concat queue with hnil | ⟨rest, last, hlast⟩
  · exact hnil
  · rw [hlast, List.concat_eq_append, ← List.append_assoc, ← List.cons_append] at heq
    have hfront : events ++ rest = .documentStart :: body := List.append_inj_left' heq rfl
    refine absurd ?_ (documentEnd_not_mem h length)
    rw [← hfront]
    exact List.mem_append_left rest hmem

theorem allowed_of_nested {dialect : Dialect} {policy : Policy} {input : Bytes}
    {before after : List Span} {body ending : List Event}
    (h : Nested dialect policy input before body after)
    (hending : ending = [] ∨ ending = [.documentEnd input.length]) :
    ∀ event ∈ Event.documentStart :: (body ++ ending),
      (event.isImplied → policy = .autoClose) ∧ (event.isUnmatched → policy ≠ .requireBalanced) := by
  intro event hmem
  rcases List.mem_cons.1 hmem with rfl | hmem
  · exact ⟨nofun, nofun⟩
  rcases List.mem_append.1 hmem with hmem | hmem
  · exact ⟨(h.inner event hmem).implied, (h.inner event hmem).unmatched⟩
  rcases hending with rfl | rfl
  · cases hmem
  · rw [List.mem_singleton.1 hmem]
    exact ⟨nofun, nofun⟩

/-- What follows the grammar are the events of a document, all of them or as many as there are yet. -/
theorem FollowsGrammar.word {input : Bytes} {settings : Settings} {events : List ParsedEvent}
    {s : EventStream} (h : FollowsGrammar input settings events s) :
    ∃ body stack ending, Nested settings.dialect settings.policy input [] body stack ∧
      (ending = [] ∨ ending = [.documentEnd input.length]) ∧
      events.map (·.event) <+: .documentStart :: (body ++ ending) ∧
      ∀ length, .documentEnd length ∈ events.map (·.event) →
        events.map (·.event) = .documentStart :: (body ++ [.documentEnd input.length]) ∧
        (settings.policy ≠ .noBalancing → stack = []) := by
  cases hs : s.stage with
  | start =>
    have hevents := (List.append_eq_nil_iff.1 (h.start hs).1).1
    refine ⟨[], [], [], .nil, .inl rfl, ?_, ?_⟩
    · rw [hevents]
      exact List.nil_prefix
    · rw [hevents]
      exact fun _ hmem => absurd hmem List.not_mem_nil
  | running =>
    obtain ⟨body, hknown, hbody⟩ := h.running hs
    refine ⟨body, _, [], hbody, .inl rfl, ⟨s.queue, ?_⟩, ?_⟩
    · rw [List.append_nil]
      exact hknown
    · intro length hmem
      refine absurd ?_ (documentEnd_not_mem hbody length)
      rw [← hknown]
      exact List.mem_append_left s.queue hmem
  | done =>
    obtain ⟨body, hknown, hbody, hstack⟩ := h.done hs
    refine ⟨body, _, _, hbody, .inr rfl, ⟨s.queue, hknown⟩, ?_⟩
    intro length hmem
    have hempty := queue_eq_nil_of_end hbody hknown hmem
    rw [known_of_queue_nil hempty] at hknown
    exact ⟨hknown, hstack⟩

/-- Whatever calls are made on the stream of a document, the events handed out are the start of the
document and properly nested items, or a beginning of them; with the end of the document they are
complete, and then no element is left open unless none has to be closed. Only automatic closing implies
a close, and where tags must balance no close tag is unmatched. -/
theorem events_wellNested (input : Bytes) (settings : Settings) (calls : List Call) :
    let events := (delivered ((ofInput input settings).run calls).1).map (·.event)
    (∃ body stack ending, Nested settings.dialect settings.policy input [] body stack ∧
      (ending = [] ∨ ending = [.documentEnd input.length]) ∧
      events <+: .documentStart :: (body ++ ending) ∧
      ∀ length, .documentEnd length ∈ events →
        events = .documentStart :: (body ++ [.documentEnd input.length]) ∧
        (settings.policy ≠ .noBalancing → stack = [])) ∧
      (settings.policy ≠ .autoClose → ∀ event ∈ events, ¬ event.isImplied) ∧
      (settings.policy = .requireBalanced → ∀ event ∈ events, ¬ event.isUnmatched) := by
  intro events
  obtain ⟨t, ht, -, -⟩ := run_kept (kept_followsGrammar input settings) calls
    (alive_ofInput input settings) (followsGrammar_ofInput input settings)
  obtain ⟨body, stack, ending, hbody, hending, hword, hend⟩ := ht.word
  have hallowed : ∀ event ∈ events, (event.isImplied → settings.policy = .autoClose) ∧
      (event.isUnmatched → settings.policy ≠ .requireBalanced) :=
    fun event hmem => allowed_of_nested hbody hending event (hword.subset hmem)
  refine ⟨⟨body, stack, ending, hbody, hending, hword, hend⟩, ?_, ?_⟩
  · intro hpolicy event hmem himplied
    exact hpolicy ((hallowed event hmem).1 himplied)
  · intro hpolicy event hmem hunmatched
    exact (hallowed event hmem).2 hunmatched hpolicy

end EventStream

end MarkupStream
