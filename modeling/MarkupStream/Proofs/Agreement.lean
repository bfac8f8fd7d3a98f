import MarkupStream.Proofs.Calls

/-!
Agreement of the policies. As long as the tags of an XML document balance, every policy does the same
and none has anything to warn of. The first close tag that is out of place, or the end of the document
inside an element, is an error where balance is required, and earns a warning where missing close tags
are supplied.
-/
namespace MarkupStream

namespace Nesting

/-- The same nesting under another policy. -/
def under (n : Nesting) (policy : Policy) : Nesting := { n with policy }

def Step.under (step : Step) (policy : Policy) : Step :=
  { step with nesting := step.nesting.under policy }

/-- The judgements of the policies: all are satisfied and come to the same, or the one that requires
balance objects where the one that closes automatically warns. -/
inductive Agrees (judge : Policy → Except ParseError Step) : Prop
  | balanced (step : Step) : step.warnings = [] →
      (∀ policy, judge policy = .ok (step.under policy)) → Agrees judge
  | imbalanced (e : ParseError) (step : Step) : judge .requireBalanced = .error e →
      judge .autoClose = .ok step → step.warnings ≠ [] → Agrees judge

theorem frameWarnings_ne_nil {kind : WarningKind} {position : Position} {frames : List Frame}
    (h : frames ≠ []) : frameWarnings kind position frames ≠ [] := by
  intro hnil
  exact h (List.map_eq_nil_iff.1 hnil)

theorem innerCount?_lt {n : Nesting} {name : Bytes} {count : Nat}
    (h : n.innerCount? name = some count) : count < n.stack.length := by
  rw [innerCount?, List.findIdx?_eq_some_iff_findIdx_eq] at h
  exact h.1

theorem agrees_closeElement {n : Nesting} (hd : n.dialect = .xml) (locate : Nat → Position)
    (tag : CloseTag) : Agrees fun policy => (n.under policy).closeElement locate tag := by
  have hcount : ∀ policy, (n.under policy).innerCount? (tag.name.slice (n.under policy).input) =
      n.innerCount? (tag.name.slice n.input) := fun _ => rfl
  simp only [closeElement, hcount]
  cases hc : n.innerCount? (tag.name.slice n.input) with
  | none => exact .imbalanced _ _ rfl rfl (List.cons_ne_nil _ _)
  | some count =>
    cases count with
    | zero =>
      refine .balanced (n.closeMatched locate tag 0) ?_ fun _ => rfl
      simp [closeMatched, frameWarnings]
    | succ count =>
      refine .imbalanced _ _ rfl rfl ?_
      have hlt := innerCount?_lt hc
      have hinner : n.stack.take (count + 1) ≠ [] := by
        apply List.ne_nil_of_length_pos
        rw [List.length_take]
        omega
      simp only [closeMatched, under, hd, Dialect.isStrict, if_true]
      exact frameWarnings_ne_nil hinner

theorem agrees_accept {n : Nesting} (hd : n.dialect = .xml) (locate : Nat → Position)
    (token : Token) : Agrees fun policy => (n.under policy).accept locate token := by
  cases token with
  | openTag tag =>
    -- Without a catalog no element is void and none implies a close.
    have hspec : ∀ policy name, (n.under policy).spec? name = none := by
      intro policy name
      simp [spec?, under, hd]
    have hopen : ∀ policy, (n.under policy).openElement tag = (n.openElement tag).under policy := by
      intro policy
      simp only [under] at hspec
      simp only [openElement, impliedCount, under, hspec, Option.bind_none, Option.any_none,
        Bool.or_false]
      split <;> rfl
    refine .balanced (n.openElement tag) ?_ fun policy => congrArg Except.ok (hopen policy)
    rw [openElement]
    split <;> rfl
  | closeTag tag => exact agrees_closeElement hd locate tag
  | _ => exact .balanced ⟨n, [_], [], none⟩ rfl fun _ => rfl

theorem agrees_finish {n : Nesting} (hd : n.dialect = .xml) (locate : Nat → Position) :
    Agrees fun policy => (n.under policy).finish locate := by
  simp only [finish, under, hd, Dialect.isStrict, if_true]
  cases hs : n.stack with
  | nil =>
    refine .balanced ⟨n, [], [], none⟩ rfl fun policy => ?_
    rw [Step.under, under, hs, hd]
  | cons frame outer =>
    exact .imbalanced _ _ rfl rfl (frameWarnings_ne_nil (List.cons_ne_nil _ _))

end Nesting

namespace EventStream

section Warnings

/-!
Warnings are added to those there are, never taken away.
-/

theorem Loads.warnings_prefix {s t : EventStream} (h : s.Loads t) : s.warnings <+: t.warnings := by
  cases h with
  | start => exact List.prefix_refl _
  | token =>
    rw [loadToken, List.append_assoc]
    exact List.prefix_append _ _
  | finish => exact List.prefix_append _ _

theorem warnings_prefix_next (s : EventStream) : s.warnings <+: s.next.2.warnings := by
  have hresponds := responds_next s
  generalize s.next = result at hresponds
  cases hresponds with
  | event hu =>
    rcases hu with rfl | ⟨-, hloads⟩
    · exact List.prefix_refl _
    · exact hloads.warnings_prefix
  | ended | failed => exact List.prefix_refl _

theorem warnings_prefix_rest (s : EventStream) : s.warnings <+: s.rest.2.2.warnings := by
  have hnext := s.warnings_prefix_next
  fun_induction rest s with
  | case1 s t h | case2 s e t h =>
    rw [h] at hnext
    exact hnext
  | case3 s event t h events error last hrest ih =>
    rw [h] at hnext
    rw [hrest] at ih
    exact hnext.trans (ih t.warnings_prefix_next)

end Warnings

theorem rest_of_none {s t : EventStream} (h : s.next = (.ok none, t)) : s.rest = ([], none, t) := by
  rw [rest]
  split <;> simp_all

theorem rest_of_error {s t : EventStream} {e : ParseError} (h : s.next = (.error e, t)) :
    s.rest = ([], some e, t) := by
  rw [rest]
  split <;> simp_all

theorem rest_of_event {s t : EventStream} {event : ParsedEvent}
    (h : s.next = (.ok (some event), t)) : s.rest = (event :: t.rest.1, t.rest.2) := by
  rw [rest]
  split <;> simp_all

/-- The same stream under another policy. -/
def under (s : EventStream) (policy : Policy) : EventStream :=
  { s with nesting := s.nesting.under policy }

/-- A stream that reads XML. No token of XML is warned of. -/
structure ReadsXml (s : EventStream) : Prop where
  tokens_dialect : s.tokens.dialect = .xml
  nesting_dialect : s.nesting.dialect = .xml
  warnings_eq : s.tokens.warnings = []

/-- How a call for an event compares under the policies: it is answered alike, or the policy that
requires balance fails where the one that closes automatically goes on with a warning. -/
inductive Compares (s : EventStream) : Prop
  | ended (t : EventStream) : t.warnings = s.warnings →
      (∀ policy, (s.under policy).next = (.ok none, t.under policy)) → Compares s
  | failed (e : ParseError) (t : EventStream) : t.warnings = s.warnings →
      (∀ policy, (s.under policy).next = (.error e, t.under policy)) → Compares s
  | event (parsed : ParsedEvent) (t : EventStream) : t.ReadsXml → t.warnings = s.warnings →
      (∀ policy, (s.under policy).next = (.ok (some parsed), t.under policy)) → Compares s
  | parted (e : ParseError) (parsed : ParsedEvent) (t u : EventStream) :
      (s.under .requireBalanced).next = (.error e, t) →
      (s.under .autoClose).next = (.ok (some parsed), u) → u.warnings ≠ [] → Compares s

theorem nextQueued_under (s : EventStream) (policy : Policy) :
    (s.under policy).nextQueued = (s.nextQueued.1, s.nextQueued.2.under policy) := by
  simp only [nextQueued, under]
  split <;> rfl

theorem exists_nextQueued {s : EventStream} (hq : s.queue ≠ []) :
    ∃ parsed t, s.nextQueued = (.ok (some parsed), t) ∧ t.warnings = s.warnings ∧
      (s.ReadsXml → t.ReadsXml) := by
  obtain ⟨event, queue, hqueue⟩ := List.exists_cons_of_ne_nil hq
  rw [nextQueued]
  rw [hqueue]
  exact ⟨_, _, rfl, rfl, fun h => ⟨h.1, h.2, h.3⟩⟩

/-- How the filling of the queue compares under the policies. -/
inductive LoadsAlike (s : EventStream) (load : Policy → Except ParseError EventStream) : Prop
  | balanced (t : EventStream) : t.queue ≠ [] → t.warnings = s.warnings → t.ReadsXml →
      (∀ policy, load policy = .ok (t.under policy)) → LoadsAlike s load
  | imbalanced (e : ParseError) (t : EventStream) : load .requireBalanced = .error e →
      load .autoClose = .ok t → t.queue ≠ [] → t.warnings ≠ [] → LoadsAlike s load

theorem LoadsAlike.compares {s : EventStream} {load : Policy → Except ParseError EventStream}
    (h : s.LoadsAlike load) (tokens : TokenStream)
    (hnext : ∀ policy, (s.under policy).next = (s.under policy).answerWith tokens (load policy)) :
    s.Compares := by
  cases h with
  | balanced t hq hwarnings hxml hload =>
    obtain ⟨parsed, u, hqueued, hsame, hreads⟩ := exists_nextQueued hq
    refine .event parsed u (hreads hxml) (hsame.trans hwarnings) fun policy => ?_
    rw [hnext, hload, answerWith, nextQueued_under, hqueued]
  | imbalanced e t herror hok hq hwarnings =>
    obtain ⟨parsed, u, hqueued, hsame, -⟩ := exists_nextQueued hq
    refine .parted e parsed ((s.under .requireBalanced).answerWith tokens (.error e)).2 u ?_ ?_
      (hsame ▸ hwarnings)
    · rw [hnext, herror]
      rfl
    · rw [hnext, hok]
      exact hqueued

theorem ReadsXml.loadsAlike_token {s : EventStream} (h : s.ReadsXml) {token : Token}
    {tokens : TokenStream} (htokens : s.tokens.next = (.ok (some token), tokens)) :
    s.LoadsAlike fun policy => ((s.nesting.under policy).accept s.tokens.locate token).map
      ((s.under policy).loadToken tokens) := by
  obtain ⟨hdialect, hwarnings⟩ : tokens.dialect = .xml ∧ tokens.warnings = [] := by
    have hout := TokenStream.outcome_of_next htokens
    cases hout with
    | text | node | opened => exact ⟨h.tokens_dialect, h.warnings_eq⟩
    | repeated hloose =>
      rw [h.tokens_dialect] at hloose
      exact absurd rfl hloose
  cases Nesting.agrees_accept h.nesting_dialect s.tokens.locate token with
  | balanced step hnone haccept =>
    have hstep := haccept s.nesting.policy
    have hevents : (step.under s.nesting.policy).events ≠ [] := Nesting.events_ne_nil hstep
    refine .balanced (s.loadToken tokens step) hevents ?_ ?_ fun policy => ?_
    · simp [loadToken, hnone, hwarnings]
    · have hsame := (Nesting.accepts_accept hstep).same
      exact ⟨hdialect, hsame.2.1.trans h.nesting_dialect, rfl⟩
    · rw [haccept]
      rfl
  | imbalanced e step herror hok hsome =>
    refine .imbalanced e ((s.under .autoClose).loadToken tokens step) ?_ ?_ ?_ ?_
    · rw [herror]
      rfl
    · rw [hok]
      rfl
    · exact Nesting.events_ne_nil hok
    · simp [loadToken, hsome]

theorem ReadsXml.loadsAlike_end {s : EventStream} (h : s.ReadsXml) :
    s.LoadsAlike fun policy => ((s.nesting.under policy).finish s.tokens.locate).map
      (s.under policy).loadEnd := by
  cases Nesting.agrees_finish h.nesting_dialect s.tokens.locate with
  | balanced step hnone hfinish =>
    have hstep := hfinish s.nesting.policy
    refine .balanced (s.loadEnd step) (by simp [loadEnd]) ?_ ?_ fun policy => ?_
    · simp [loadEnd, hnone]
    · have hsame := (Nesting.finishes_finish hstep).same
      exact ⟨h.tokens_dialect, hsame.2.1.trans h.nesting_dialect, h.warnings_eq⟩
    · rw [hfinish]
      rfl
  | imbalanced e step herror hok hsome =>
    refine .imbalanced e ((s.under .autoClose).loadEnd step) ?_ ?_ (by simp [loadEnd]) ?_
    · rw [herror]
      rfl
    · rw [hok]
      rfl
    · simp [loadEnd, hsome]

theorem ReadsXml.compares {s : EventStream} (h : s.ReadsXml) : s.Compares := by
  by_cases hq : s.queue = []
  · cases hs : s.stage with
    | start =>
      have hstart : ∀ policy, (s.under policy).next =
          if s.input.length > Span.maxInputLength
          then (s.under policy).fail (.inputTooLarge s.input.length)
          else { s.under policy with stage := .running }.emit .documentStart :=
        fun policy => next_of_start (s := s.under policy) hq hs
      by_cases hlong : s.input.length > Span.maxInputLength
      · refine .failed (.inputTooLarge s.input.length)
          { s with stage := .done, queue := [] } rfl fun policy => ?_
        rw [hstart, if_pos hlong]
        rfl
      · refine .event (deliver { s with stage := .running } .documentStart).1
          (deliver { s with stage := .running } .documentStart).2 ⟨h.1, h.2, h.3⟩ rfl fun policy => ?_
        rw [hstart, if_neg hlong]
        rfl
    | running =>
      have hread : ∀ policy, (s.under policy).next = (s.under policy).nextRead :=
        fun policy => next_of_running (s := s.under policy) hq hs
      cases htokens : s.tokens.next with
      | mk answer tokens =>
        cases answer with
        | error e =>
          refine .failed e { s with tokens, stage := .done, queue := [] } rfl fun policy => ?_
          rw [hread]
          exact nextRead_of_error htokens
        | ok token? =>
          cases token? with
          | none =>
            refine h.loadsAlike_end.compares tokens fun policy => ?_
            rw [hread]
            exact nextRead_of_none htokens
          | some token =>
            refine (h.loadsAlike_token htokens).compares tokens fun policy => ?_
            rw [hread]
            exact nextRead_of_token htokens
    | done =>
      exact .ended s rfl fun policy => next_of_done (s := s.under policy) hq hs
  · obtain ⟨parsed, t, hqueued, hsame, hreads⟩ := exists_nextQueued hq
    refine .event parsed t (hreads h) hsame fun policy => ?_
    rw [next_of_queue (s := s.under policy) hq, nextQueued_under, hqueued]

/-- How what is left of a document compares under the policies. -/
theorem ReadsXml.rest_agrees {s : EventStream} (h : s.ReadsXml) :
    (∃ events error, ∃ last : EventStream, last.warnings = s.warnings ∧
      ∀ policy, (s.under policy).rest = (events, error, last.under policy)) ∨
    ((s.under .requireBalanced).rest.2.1 ≠ none ∧ (s.under .autoClose).rest.2.2.warnings ≠ []) := by
  cases h.compares with
  | ended t hwarnings hnext =>
    exact .inl ⟨[], none, t, hwarnings, fun policy => rest_of_none (hnext policy)⟩
  | failed e t hwarnings hnext =>
    exact .inl ⟨[], some e, t, hwarnings, fun policy => rest_of_error (hnext policy)⟩
  | event parsed t hxml hwarnings hnext =>
    have hnearer := nearer_next (hnext s.nesting.policy)
    rcases hxml.rest_agrees with ⟨events, error, last, hlast, hrest⟩ | ⟨herror, hsome⟩
    · refine .inl ⟨parsed :: events, error, last, hlast.trans hwarnings, fun policy => ?_⟩
      rw [rest_of_event (hnext policy), hrest]
    · refine .inr ⟨?_, ?_⟩
      · rwa [rest_of_event (hnext .requireBalanced)]
      · rwa [rest_of_event (hnext .autoClose)]
  | parted e parsed t u herror hok hsome =>
    refine .inr ⟨?_, ?_⟩
    · rw [rest_of_error herror]
      exact Option.some_ne_none e
    · rw [rest_of_event hok]
      intro hnil
      have hprefix := u.warnings_prefix_rest
      rw [hnil, List.prefix_nil] at hprefix
      exact hsome hprefix
termination_by s.remaining
decreasing_by exact hnearer

/-- The policies agree on balanced XML. A document is read to its end under the policy that requires
balance just when the policy that closes automatically reads it to its end without a warning; and then
every policy does so, with the same events at the same positions, as deep and without a warning. -/
theorem policies_agree_on_balanced (input : Bytes) (selectors : List Selector) :
    let parse (policy : Policy) := parseEvents input ⟨.xml, policy, selectors⟩
    let final (policy : Policy) := (ofInput input ⟨.xml, policy, selectors⟩).rest.2.2
    ((∃ events, parse .requireBalanced = .ok events) ↔
        (∃ events, parse .autoClose = .ok events) ∧ (final .autoClose).warnings = []) ∧
      ∀ events, parse .requireBalanced = .ok events → ∃ depth, ∀ policy,
        parse policy = .ok events ∧ (final policy).maxDepth = depth ∧
          (final policy).warnings = [] := by
  intro parse final
  have hxml : (ofInput input ⟨.xml, .autoClose, selectors⟩).ReadsXml := ⟨rfl, rfl, rfl⟩
  have hunder : ∀ policy, (ofInput input ⟨.xml, policy, selectors⟩).rest =
      ((ofInput input ⟨.xml, .autoClose, selectors⟩).under policy).rest := fun _ => rfl
  rcases hxml.rest_agrees with ⟨events, error, last, hnone, hrest⟩ | ⟨herror, hsome⟩
  · have hparse : ∀ policy, parse policy = match error with
        | none => .ok events
        | some e => .error e := by
      intro policy
      simp only [parse, parseEvents, hunder, hrest]
      cases error <;> rfl
    have hfinal : ∀ policy, final policy = last.under policy := by
      intro policy
      simp only [final, hunder, hrest]
    constructor
    · rw [hparse, hparse, hfinal]
      exact ⟨fun hok => ⟨hok, hnone⟩, fun hok => hok.1⟩
    · intro found hok
      refine ⟨last.maxDepth, fun policy => ⟨?_, ?_, ?_⟩⟩
      · rw [hparse] at hok ⊢
        exact hok
      · rw [hfinal]
        rfl
      · rw [hfinal]
        exact hnone
  · have hfails : ∀ events, parse .requireBalanced ≠ .ok events := by
      intro events
      simp only [parse, parseEvents, hunder]
      generalize hrest : EventStream.rest _ = rest at herror
      obtain ⟨found, error, last⟩ := rest
      cases error with
      | none => exact absurd rfl herror
      | some e => exact nofun
    constructor
    · constructor
      · rintro ⟨events, hok⟩
        exact absurd hok (hfails events)
      · rintro ⟨-, hnone⟩
        exact absurd hnone hsome
    · intro events hok
      exact absurd hok (hfails events)

end EventStream

end MarkupStream
