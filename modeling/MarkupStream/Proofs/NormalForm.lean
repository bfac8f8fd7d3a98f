import MarkupStream.Proofs.WellNested

/-!
A normal form of token sequences. Automatic closing closes some elements by implication and passes
over close tags that end nothing. With a close tag written out for every implied close and without the
close tags that ended nothing, the same events come out of a sequence that has nothing left to
balance: it is accepted where tags must balance, and automatic closing finds nothing to close.
-/
namespace MarkupStream

namespace Nesting

/-- The events and warnings of all the tokens that are left, the end of the document included. -/
def balance (n : Nesting) (locate : Nat → Position) :
    List Token → Except ParseError (List Event × List Warning)
  | [] => do
    let step ← n.finish locate
    return (step.events, step.warnings)
  | token :: rest => do
    let step ← n.accept locate token
    let (events, warnings) ← step.nesting.balance locate rest
    return (step.events ++ events, step.warnings ++ warnings)

end Nesting

/-- The close tag that an implied close stands for: it takes no room and has the name of the element. -/
def Event.impliedClose? : Event → Option Token
  | .element .autoCloseStart span name => some (.closeTag ⟨span, name, none, span⟩)
  | _ => none

/-- The close tags of the implied closes among events. -/
def impliedCloses (events : List Event) : List Token := events.filterMap Event.impliedClose?

/-- A token as it stands in the normal form, given its events: behind the close tags of the closes that
it implies, and left out if it is a close tag that ends nothing. -/
def explicitToken (token : Token) (events : List Event) : List Token :=
  impliedCloses events ++ if events.any Event.isUnmatched then [] else [token]

/-- The normal form of the tokens that are left. -/
def Nesting.normalForm (n : Nesting) (locate : Nat → Position) : List Token → List Token
  | [] =>
    match n.finish locate with
    | .ok step => impliedCloses step.events
    | .error _ => []
  | token :: rest =>
    match n.accept locate token with
    | .ok step => explicitToken token step.events ++ step.nesting.normalForm locate rest
    | .error _ => []

/-- Events with every implied close read as a close tag and without the close tags that end nothing;
`skipping` says whether such a tag has begun and not yet ended. -/
def explicitFrom (skipping : Bool) : List Event → List Event
  | [] => []
  | event :: rest =>
    match event, skipping with
    | .element .unmatchedEnd _ _, _ => explicitFrom false rest
    | .element .unmatchedStart _ _, _ => explicitFrom true rest
    | _, true => explicitFrom true rest
    | .element .autoCloseStart span name, false =>
      .element .closeStart span name :: explicitFrom false rest
    | .element .autoCloseEnd span name, false =>
      .element .closeEnd span name :: explicitFrom false rest
    | event, false => event :: explicitFrom false rest

def explicitEvents (events : List Event) : List Event := explicitFrom false events

/-- Neither an implied close nor a close tag that ends nothing. -/
def Event.IsExplicit (event : Event) : Prop := ¬ event.isImplied ∧ ¬ event.isUnmatched

theorem isExplicit_of_mem_explicitFrom {events : List Event} {skipping : Bool} {event : Event}
    (h : event ∈ explicitFrom skipping events) : event.IsExplicit := by
  induction events generalizing skipping with
  | nil => cases h
  | cons first rest ih =>
    rw [explicitFrom.eq_def] at h
    dsimp only at h
    split at h
    · exact ih h
    · exact ih h
    · exact ih h
    · rcases List.mem_cons.1 h with rfl | h
      · exact ⟨nofun, nofun⟩
      · exact ih h
    · rcases List.mem_cons.1 h with rfl | h
      · exact ⟨nofun, nofun⟩
      · exact ih h
    · rename_i hunmatchedEnd hunmatchedStart hstart hend
      rcases List.mem_cons.1 h with rfl | h
      · cases event with
        | element edge span name =>
          cases edge with
          | autoCloseStart => exact absurd rfl (hstart span name)
          | autoCloseEnd => exact absurd rfl (hend span name)
          | unmatchedStart => exact absurd rfl (hunmatchedStart span name)
          | unmatchedEnd => exact absurd rfl (hunmatchedEnd span name)
          | _ => exact ⟨nofun, nofun⟩
        | _ => exact ⟨nofun, nofun⟩
      · exact ih h

/-- An explicit event is read as it is. -/
theorem explicitFrom_cons {event : Event} (h : event.IsExplicit) (rest : List Event) :
    explicitFrom false (event :: rest) = event :: explicitFrom false rest := by
  cases event with
  | element edge span name =>
    cases edge with
    | autoCloseStart | autoCloseEnd => exact absurd rfl h.1
    | unmatchedStart | unmatchedEnd => exact absurd rfl h.2
    | _ => rfl
  | _ => rfl

theorem explicitFrom_append {events : List Event} (h : ∀ event ∈ events, event.IsExplicit)
    (rest : List Event) : explicitFrom false (events ++ rest) = events ++ explicitFrom false rest := by
  induction events with
  | nil => rfl
  | cons event more ih =>
    rw [List.cons_append, explicitFrom_cons (h event List.mem_cons_self),
      ih fun other hmem => h other (List.mem_cons_of_mem _ hmem), List.cons_append]

/-- The close tags that end some elements, all at one offset. -/
def closesAt (offset : Nat) (frames : List Frame) : List Token :=
  frames.map fun frame => .closeTag ⟨Span.empty offset, frame.span, none, Span.empty offset⟩

theorem impliedCloses_autoCloseEvents (offset : Nat) (frames : List Frame) :
    impliedCloses (Nesting.autoCloseEvents offset frames) = closesAt offset frames := by
  induction frames with
  | nil => rfl
  | cons frame outer ih => exact congrArg _ ih

theorem impliedCloses_eq_nil {events : List Event} (h : ∀ event ∈ events, event.IsExplicit) :
    impliedCloses events = [] := by
  refine List.filterMap_eq_nil_iff.2 fun event hmem => ?_
  cases event with
  | element edge span name =>
    cases edge with
    | autoCloseStart => exact absurd rfl (h _ hmem).1
    | _ => rfl
  | _ => rfl

theorem not_any_isUnmatched {events : List Event} (h : ∀ event ∈ events, event.IsExplicit) :
    events.any Event.isUnmatched = false :=
  List.any_eq_false.2 fun event hmem => (h event hmem).2

theorem any_isUnmatched_autoCloseEvents (offset : Nat) (frames : List Frame) :
    (Nesting.autoCloseEvents offset frames).any Event.isUnmatched = false := by
  induction frames with
  | nil => rfl
  | cons frame outer ih => exact ih

/-- A token that first implies the close of some elements and whose own events are explicit. -/
theorem explicitToken_append {events : List Event} (token : Token) (offset : Nat)
    (frames : List Frame) (h : ∀ event ∈ events, event.IsExplicit) :
    explicitToken token (Nesting.autoCloseEvents offset frames ++ events) =
      closesAt offset frames ++ [token] := by
  have hcloses : impliedCloses (Nesting.autoCloseEvents offset frames ++ events) =
      closesAt offset frames := by
    rw [impliedCloses, List.filterMap_append]
    change impliedCloses _ ++ impliedCloses _ = _
    rw [impliedCloses_autoCloseEvents, impliedCloses_eq_nil h, List.append_nil]
  have hany : (Nesting.autoCloseEvents offset frames ++ events).any Event.isUnmatched = false := by
    rw [List.any_append, any_isUnmatched_autoCloseEvents, not_any_isUnmatched h]
    rfl
  rw [explicitToken, hcloses, hany]
  rfl

/-- The events of the close tags that end some elements, all at one offset. -/
def closedAt (offset : Nat) (frames : List Frame) : List Event :=
  explicitEvents (Nesting.autoCloseEvents offset frames)

theorem explicitFrom_autoCloseEvents (offset : Nat) (frames : List Frame) (rest : List Event) :
    explicitFrom false (Nesting.autoCloseEvents offset frames ++ rest) =
      closedAt offset frames ++ explicitFrom false rest := by
  induction frames with
  | nil => rfl
  | cons frame outer ih => exact congrArg (_ :: _ :: ·) ih

theorem explicitFrom_unmatched (tag : CloseTag) (rest : List Event) :
    explicitFrom false (Nesting.closeEvents tag .unmatchedStart .unmatchedEnd ++ rest) =
      explicitFrom false rest := by
  cases hw : tag.whitespace <;> simp only [Nesting.closeEvents, hw] <;> rfl

theorem explicitToken_unmatched (tag : CloseTag) :
    explicitToken (.closeTag tag) (Nesting.closeEvents tag .unmatchedStart .unmatchedEnd) = [] := by
  cases hw : tag.whitespace <;> simp only [Nesting.closeEvents, hw] <;> rfl

namespace Nesting

theorem balance_nil {n : Nesting} {locate : Nat → Position} {step : Step}
    (h : n.finish locate = .ok step) : n.balance locate [] = .ok (step.events, step.warnings) := by
  rw [balance, h]
  rfl

theorem balance_cons {n : Nesting} {locate : Nat → Position} {token : Token} {rest : List Token}
    {step : Step} {events : List Event} {warnings : List Warning}
    (h : n.accept locate token = .ok step)
    (hrest : step.nesting.balance locate rest = .ok (events, warnings)) :
    n.balance locate (token :: rest) = .ok (step.events ++ events, step.warnings ++ warnings) := by
  simp only [balance, h, hrest, bind, Except.bind, pure, Except.pure]

/-- A close tag with the name of the innermost element ends it, under every policy. -/
theorem accept_innermost {n : Nesting} (locate : Nat → Position) (tag : CloseTag) {frame : Frame}
    {outer : List Frame} (hstack : n.stack = frame :: outer)
    (hname : Bytes.sameName n.dialect.ignoresCase frame.name (tag.name.slice n.input)) :
    n.accept locate (.closeTag tag) =
      .ok ⟨{ n with stack := outer }, closeEvents tag .closeStart .closeEnd, [], none⟩ := by
  have hcount : n.innerCount? (tag.name.slice n.input) = some 0 := by
    rw [innerCount?, hstack, List.findIdx?_cons, hname]
    rfl
  rw [accept, closeElement]
  simp only [hcount]
  simp [closeMatched, hstack, autoCloseEvents, frameWarnings]

/-- Written out, implied closes end the elements that they name. -/
theorem balance_closesAt {locate : Nat → Position} (offset : Nat) {inner outer : List Frame}
    {n : Nesting} {rest : List Token} {events : List Event} {warnings : List Warning}
    (hnamed : n.Named) (hstack : n.stack = inner ++ outer)
    (h : ({ n with stack := outer } : Nesting).balance locate rest = .ok (events, warnings)) :
    n.balance locate (closesAt offset inner ++ rest) =
      .ok (closedAt offset inner ++ events, warnings) := by
  induction inner generalizing n with
  | nil =>
    obtain rfl : n.stack = outer := hstack
    exact h
  | cons frame more ih =>
    rw [List.cons_append] at hstack
    have hframe : frame.name = frame.span.slice n.input :=
      hnamed frame (by rw [hstack]; exact List.mem_cons_self)
    have hmore : Named { n with stack := more ++ outer } :=
      fun other hmem => hnamed other (by rw [hstack]; exact List.mem_cons_of_mem _ hmem)
    have hclose := accept_innermost locate
      ⟨Span.empty offset, frame.span, none, Span.empty offset⟩ hstack (by simp [hframe])
    exact balance_cons hclose (ih hmore rfl h)

/-- A rule has nothing left to close once what it closes is closed. -/
theorem siblingCount_drop (rule : SiblingRule) (stack : List Frame) :
    siblingCount rule (stack.drop (siblingCount rule stack)) = 0 := by
  induction stack with
  | nil => rfl
  | cons frame outer ih =>
    by_cases hlimit : rule.isLimit frame.name
    · simp [siblingCount, hlimit]
    · cases hcount : siblingCount rule outer with
      | zero =>
        by_cases hcloses : rule.closesName frame.name
        · simp [siblingCount, hlimit, hcount, hcloses]
        · simp [siblingCount, hlimit, hcount, hcloses]
      | succ count =>
        rw [hcount] at ih
        simpa [siblingCount, hlimit, hcount] using ih

/-- An open tag implies no close once what it implies is closed. -/
theorem impliedCount_drop {n : Nesting} (h : n.policy = .autoClose) (spec : Option ElementSpec)
    (policy : Policy) :
    impliedCount { n with stack := n.stack.drop (n.impliedCount spec), policy } spec = 0 := by
  by_cases hpolicy : policy = .autoClose
  · subst hpolicy
    cases hrule : spec.bind (·.sibling) with
    | none => simp [impliedCount, hrule]
    | some rule =>
      simp only [impliedCount, hrule, h]
      exact siblingCount_drop rule n.stack
  · exact impliedCount_eq_zero hpolicy

/-- A token first closes elements by implication, and once these are closed it comes to the rest of its
events and to no warning, whatever the policy. -/
structure Splits (n : Nesting) (token : Token) (step : Step) (offset : Nat)
    (inner outer : List Frame) (own : List Event) : Prop where
  stack : n.stack = inner ++ outer
  events : step.events = autoCloseEvents offset inner ++ own
  again : ∀ (policy : Policy) (locate : Nat → Position),
    ({ n with stack := outer, policy } : Nesting).accept locate token =
      .ok ⟨{ step.nesting with policy }, own, [], step.rawText⟩

/-- An open tag splits: with what it implies closed it opens just the same. -/
theorem splits_openElement {n : Nesting} (h : n.policy = .autoClose) {tag : OpenTag} {step : Step}
    {locate : Nat → Position} (haccepts : n.Accepts locate (.openTag tag) step) :
    ∃ inner outer own, n.Splits (.openTag tag) step tag.start.start inner outer own := by
  obtain ⟨spec, hspec⟩ : ∃ spec, n.spec? (tag.name.slice n.input) = spec := ⟨_, rfl⟩
  have hspecs : ∀ (outer : List Frame) (policy : Policy),
      spec? { n with stack := outer, policy } (tag.name.slice n.input) = spec := fun _ _ => hspec
  have hstack := (List.take_append_drop (n.impliedCount spec) n.stack).symm
  have hcount := impliedCount_drop h spec
  cases haccepts with
  | node hevent => cases hevent
  | standalone _ halone hcloses =>
    subst hcloses
    rw [standsAlone, hspec] at halone
    refine ⟨_, _, _, hstack, by rw [hspec], ?_⟩
    intro policy locate'
    simp only [accept, openElement, hspec, hspecs, hcount, if_pos halone]
    rfl
  | opened _ halone hcloses =>
    subst hcloses
    rw [standsAlone, hspec] at halone
    refine ⟨_, _, _, hstack, by rw [hspec], ?_⟩
    intro policy locate'
    simp only [accept, openElement, hspec, hspecs, hcount, if_neg halone]
    rfl

/-- Every token splits, but for a close tag that ends nothing. -/
theorem splits_accept {n : Nesting} {locate : Nat → Position} {token : Token} {step : Step}
    (hp : n.policy = .autoClose) (h : n.Accepts locate token step) :
    (∃ offset inner outer own, n.Splits token step offset inner outer own) ∨
      ∃ tag, token = .closeTag tag ∧ step = n.closeUnmatched locate tag := by
  cases token with
  | openTag tag => exact .inl ⟨_, splits_openElement hp h⟩
  | closeTag tag =>
    cases h with
    | node hevent => cases hevent
    | closed _ hcount =>
      obtain ⟨frame, hstack, hname⟩ := stack_of_innerCount hcount
      refine .inl ⟨_, _, _, _, hstack, rfl, fun policy locate' => ?_⟩
      exact accept_innermost locate' tag rfl hname
    | unmatched => exact .inr ⟨tag, rfl, rfl⟩
  | _ =>
    cases h with
    | node hevent =>
      cases hevent
      exact .inl ⟨0, [], n.stack, _, rfl, rfl, fun _ _ => rfl⟩

/-- Automatic closing takes every token. -/
theorem exists_accept {n : Nesting} (h : n.policy = .autoClose) (locate : Nat → Position)
    (token : Token) : ∃ step, n.accept locate token = .ok step := by
  cases token with
  | closeTag tag =>
    rw [accept, closeElement]
    cases n.innerCount? (tag.name.slice n.input) with
    | none => simp [h]
    | some count => cases count <;> simp [h]
  | _ => exact ⟨_, rfl⟩

/-- Where tags must balance, every event is explicit. -/
theorem isExplicit_of_accept {n : Nesting} {locate : Nat → Position} {token : Token} {step : Step}
    (hp : n.policy = .requireBalanced) (hnamed : n.Named) (h : n.accept locate token = .ok step) :
    ∀ event ∈ step.events, event.IsExplicit := by
  intro event hmem
  have hinner := ((accepts_accept h).nested hnamed).inner event hmem
  rw [hp] at hinner
  exact ⟨fun himplied => (nomatch hinner.implied himplied),
    fun hunmatched => hinner.unmatched hunmatched rfl⟩

theorem Splits.explicit {n : Nesting} {token : Token} {step : Step} {offset : Nat}
    {inner outer : List Frame} {own : List Event} (h : n.Splits token step offset inner outer own)
    (hnamed : n.Named) : ∀ event ∈ own, event.IsExplicit := by
  have houter : Named { n with stack := outer, policy := .requireBalanced } :=
    fun frame hmem => hnamed frame (by rw [h.stack]; exact List.mem_append_right inner hmem)
  exact isExplicit_of_accept rfl houter (h.again .requireBalanced fun _ => .start)

/-- In place of a token its normal form comes to the explicit reading of its events, whatever comes
after it. -/
theorem balance_explicitToken {n : Nesting} {locate locate' : Nat → Position} {token : Token}
    {step : Step} {policy : Policy} {rest : List Token} {found : List Event}
    (hp : n.policy = .autoClose) (hnamed : n.Named) (h : n.Accepts locate token step)
    (hrest : ({ step.nesting with policy } : Nesting).balance locate' rest =
      .ok (explicitEvents found, [])) :
    ({ n with policy } : Nesting).balance locate' (explicitToken token step.events ++ rest) =
      .ok (explicitEvents (step.events ++ found), []) := by
  rcases splits_accept hp h with ⟨offset, inner, outer, own, hsplits⟩ | ⟨tag, rfl, rfl⟩
  · have hexplicit := hsplits.explicit hnamed
    have hevents : explicitEvents (step.events ++ found) =
        closedAt offset inner ++ (own ++ explicitEvents found) := by
      rw [hsplits.events, List.append_assoc, explicitEvents, explicitFrom_autoCloseEvents,
        explicitFrom_append hexplicit, ← explicitEvents]
    have htokens : explicitToken token step.events ++ rest =
        closesAt offset inner ++ (token :: rest) := by
      rw [hsplits.events, explicitToken_append token offset inner hexplicit, List.append_assoc]
      rfl
    rw [hevents, htokens]
    exact balance_closesAt offset hnamed hsplits.stack
      (balance_cons (hsplits.again policy locate') hrest)
  · rw [closeUnmatched] at hrest ⊢
    rw [explicitToken_unmatched, explicitEvents, explicitFrom_unmatched]
    exact hrest

theorem finish_autoClose {n : Nesting} (h : n.policy = .autoClose) (locate : Nat → Position) :
    ∃ warnings, n.finish locate =
      .ok ⟨{ n with stack := [] }, autoCloseEvents n.input.length n.stack, warnings, none⟩ := by
  obtain ⟨input, dialect, policy, stack, maxDepth⟩ := n
  obtain rfl : policy = .autoClose := h
  cases stack with
  | nil => exact ⟨[], rfl⟩
  | cons frame outer => exact ⟨_, rfl⟩

theorem balance_normalForm_of_named {n : Nesting} (hp : n.policy = .autoClose) (hnamed : n.Named)
    (locate : Nat → Position) (tokens : List Token) :
    ∃ events warnings, n.balance locate tokens = .ok (events, warnings) ∧
      ∀ (policy : Policy) (locate' : Nat → Position),
        ({ n with policy } : Nesting).balance locate' (n.normalForm locate tokens) =
          .ok (explicitEvents events, []) := by
  induction tokens generalizing n with
  | nil =>
    obtain ⟨warnings, hfinish⟩ := finish_autoClose hp locate
    refine ⟨_, _, balance_nil hfinish, fun policy locate' => ?_⟩
    have hclosed : ({ n with policy, stack := [] } : Nesting).balance locate' [] = .ok ([], []) := rfl
    have hcloses := balance_closesAt (n := { n with policy }) n.input.length hnamed
      (List.append_nil n.stack).symm hclosed
    rw [normalForm, hfinish]
    dsimp only
    rw [impliedCloses_autoCloseEvents]
    rw [List.append_nil, List.append_nil] at hcloses
    exact hcloses
  | cons token rest ih =>
    obtain ⟨step, hstep⟩ := exists_accept hp locate token
    have haccepts := accepts_accept hstep
    obtain ⟨events, warnings, hrest, hnormal⟩ :=
      ih (haccepts.same.2.2.trans hp) (haccepts.named hnamed)
    refine ⟨_, _, balance_cons hstep hrest, fun policy locate' => ?_⟩
    rw [normalForm, hstep]
    exact balance_explicitToken hp hnamed haccepts (hnormal policy locate')

/-- Automatic closing takes every sequence of tokens to the end, and the normal form of the sequence is
taken under every policy, with no warning and no event that is implied or unmatched: its events are
those of the sequence itself with implied closes read as close tags and without the unmatched ones. -/
theorem balance_normalForm (input : Bytes) (dialect : Dialect) (locate : Nat → Position)
    (tokens : List Token) :
    ∃ events warnings,
      (ofInput input dialect .autoClose).balance locate tokens = .ok (events, warnings) ∧
      (∀ event ∈ explicitEvents events, event.IsExplicit) ∧
      ∀ (policy : Policy) (locate' : Nat → Position),
        (ofInput input dialect policy).balance locate'
            ((ofInput input dialect .autoClose).normalForm locate tokens) =
          .ok (explicitEvents events, []) := by
  have hnamed : (ofInput input dialect .autoClose).Named := by simp [Named, ofInput]
  obtain ⟨events, warnings, hbalance, hnormal⟩ :=
    balance_normalForm_of_named rfl hnamed locate tokens
  refine ⟨events, warnings, hbalance, ?_, hnormal⟩
  exact fun event hmem => isExplicit_of_mem_explicitFrom hmem

end Nesting

end MarkupStream
