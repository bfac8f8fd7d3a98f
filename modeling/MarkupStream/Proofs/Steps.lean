import MarkupStream.Event.Stream
import MarkupStream.Proofs.Tiling

/-!
What one step of a stream can do, and what a run of calls can do. A step of the token stream reads a
token, finds the end or fails; an event stream first fills its queue if it is empty and then hands out
the first event of it. Whatever filling, handing out and asking for literal text leave true is true of
every run, up to the first error.
-/
namespace MarkupStream

namespace TokenStream

/-- What a step comes to that starts with the document not yet ended. A fault, a name that is repeated
and literal text without an end are errors in XML only; in HTML the step reads a token or finds the
end. -/
inductive Outcome (s : TokenStream) : Result → Prop
  | ended : s.cursor.rest = [] → Outcome s (.ok none, { s with mode := .done })
  | text {next : Cursor} {parts : List TagPart} : s.cursor.Reaches next →
      parts = s.parts ∨ parts = [] → Outcome s (.ok (some (.text (s.cursor.upTo next))),
        { s with cursor := next, mode := .content, parts })
  | node {token : Token} {next : Cursor} :
      Token.readMarkup s.dialect s.cursor = .ok (token, next) → (∀ tag, token ≠ .openTag tag) →
      Outcome s (.ok (some token), { s with cursor := next, mode := .content })
  | opened {tag : OpenTag} {next : Cursor} :
      Token.readMarkup s.dialect s.cursor = .ok (.openTag tag, next) →
      duplicateName? tag.parts s.input s.dialect.ignoresCase = none →
      Outcome s (.ok (some (.openTag tag)),
        { s with cursor := next, mode := .content, parts := tag.parts })
  | repeated {tag : OpenTag} {next : Cursor} {name : Span} : ¬ s.dialect.isStrict →
      Token.readMarkup s.dialect s.cursor = .ok (.openTag tag, next) →
      duplicateName? tag.parts s.input s.dialect.ignoresCase = some name →
      Outcome s (.ok (some (.openTag tag)), { s with
        cursor := next
        mode := .content
        parts := tag.parts
        warnings := s.warnings ++
          [⟨.duplicateAttribute, s.nameText name, s.locate name.start⟩] })
  | duplicate {tag : OpenTag} {next : Cursor} {name : Span} {t : TokenStream} : s.dialect.isStrict →
      Token.readMarkup s.dialect s.cursor = .ok (.openTag tag, next) →
      duplicateName? tag.parts s.input s.dialect.ignoresCase = some name →
      Outcome s (.error (.duplicateAttribute (s.nameText name) (s.locate name.start)), t)
  | refused {refusal : Refusal} {t : TokenStream} : s.dialect.isStrict →
      Token.readMarkup s.dialect s.cursor = .error refusal →
      Outcome s (.error (refusal.fault.toError s.locate), t)
  | unended {t : TokenStream} : s.dialect.isStrict →
      Outcome s (.error (.unterminated .rawText (s.locate s.offset)), t)

/-- The mode that a step starts in is not kept, so it may be taken for any other. -/
theorem Outcome.of_mode {s : TokenStream} {r : Result} (mode : Mode)
    (h : Outcome { s with mode } r) : Outcome s r := by
  cases h with
  | ended hend => exact .ended hend
  | text hreach hparts => exact .text hreach hparts
  | node hread hnot => exact .node hread hnot
  | opened hread hnone => exact .opened hread hnone
  | repeated hloose hread hname => exact .repeated hloose hread hname
  | duplicate hstrict hread hname => exact .duplicate hstrict hread hname
  | refused hstrict hread => exact .refused hstrict hread
  | unended hstrict => exact .unended hstrict

theorem outcome_text {s : TokenStream} {next : Cursor} (hm : s.mode = .content)
    (h : s.cursor.Reaches next) : s.Outcome (s.emit (.text (s.cursor.upTo next)) next) := by
  obtain ⟨input, dialect, cursor, mode, parts, position, warnings⟩ := s
  obtain rfl : mode = .content := hm
  exact .text h (.inl rfl)

theorem outcome_nextMarkup {s : TokenStream} (hm : s.mode = .content) :
    s.Outcome s.nextMarkup := by
  obtain ⟨input, dialect, cursor, mode, parts, position, warnings⟩ := s
  obtain rfl : mode = .content := hm
  rw [nextMarkup]
  split
  · rename_i tag next hread
    rw [emitOpenTag]
    split
    · rename_i hnone
      exact .opened hread hnone
    · rename_i name hname
      split
      · rename_i hstrict
        exact .duplicate hstrict hread hname
      · rename_i hloose
        exact .repeated hloose hread hname
  · rename_i token next hnot hread
    exact .node hread hnot
  · rename_i refusal hread
    rw [reject]
    split
    · rename_i hstrict
      exact .refused hstrict hread
    · exact .text ((cursor.reaches_advance 1).trans (Cursor.reaches_nextTag _)) (.inr rfl)

theorem outcome_nextContent {s : TokenStream} (hm : s.mode = .content) :
    s.Outcome s.nextContent := by
  rw [nextContent]
  cases hp : s.cursor.peek? with
  | none => exact .ended (List.head?_eq_none_iff.1 hp)
  | some b =>
    dsimp only
    split
    · exact outcome_nextMarkup hm
    · exact outcome_text hm s.cursor.reaches_nextTag

theorem outcome_nextLiteral (s : TokenStream) (name : Bytes) : s.Outcome (s.nextLiteral name) := by
  apply Outcome.of_mode .content
  have finish : ∀ stop : Cursor, s.cursor.Reaches stop →
      Outcome { s with mode := .content } (if s.cursor.offset < stop.offset
        then emit { s with mode := .content } (.text (s.cursor.upTo stop)) stop
        else nextContent { s with mode := .content }) := by
    intro stop hstop
    split
    · exact outcome_text rfl hstop
    · exact outcome_nextContent rfl
  rw [nextLiteral]
  split
  · rename_i stop hstop
    exact finish stop (Cursor.reaches_seekCloseTag hstop)
  · split
    · rename_i hstrict
      exact .unended hstrict
    · exact finish _ (s.cursor.reaches_skip _)

theorem outcome_next {s : TokenStream} (h : s.mode ≠ .done) : s.Outcome s.next := by
  rw [next]
  split
  · contradiction
  · exact outcome_nextLiteral s _
  · rename_i hm
    exact outcome_nextContent hm

/-- A token is read for as many bytes as its pieces tile, and an open tag leaves its parts behind. -/
theorem Outcome.token {s t : TokenStream} {token : Token}
    (h : s.Outcome (.ok (some token), t)) :
    ∃ next parts warnings, t = { s with cursor := next, mode := .content, parts, warnings } ∧
      token.Tiled s.cursor next ∧ ∀ tag, token = .openTag tag → parts = tag.parts := by
  cases h with
  | text hreach => exact ⟨_, _, _, rfl, Token.text_tiled hreach, nofun⟩
  | node hread hnot =>
    exact ⟨_, _, _, rfl, Token.readMarkup_tiled hread, fun tag htag => absurd htag (hnot tag)⟩
  | opened hread | repeated _ hread =>
    exact ⟨_, _, _, rfl, Token.readMarkup_tiled hread, by rintro _ ⟨⟩; rfl⟩

/-- A stream that gave a token had not ended. -/
theorem outcome_of_next {s t : TokenStream} {token : Token}
    (h : s.next = (.ok (some token), t)) : s.Outcome (.ok (some token), t) := by
  rw [← h]
  refine outcome_next fun hdone => ?_
  rw [next, hdone] at h
  cases h

/-- Nor had one that failed. -/
theorem outcome_of_error {s t : TokenStream} {e : ParseError} (h : s.next = (.error e, t)) :
    s.Outcome (.error e, t) := by
  rw [← h]
  refine outcome_next fun hdone => ?_
  rw [next, hdone] at h
  cases h

/-- A stream that gave no token has ended, now or before. -/
theorem next_eq_none {s t : TokenStream} (h : s.next = (.ok none, t)) :
    t = { s with mode := .done } ∧ (s.mode ≠ .done → s.cursor.rest = []) := by
  by_cases hm : s.mode = .done
  · obtain ⟨input, dialect, cursor, mode, parts, position, warnings⟩ := s
    obtain rfl : mode = .done := hm
    cases h
    exact ⟨rfl, fun hne => absurd rfl hne⟩
  · have hout := outcome_next hm
    rw [h] at hout
    cases hout with
    | ended hend => exact ⟨rfl, fun _ => hend⟩

end TokenStream

/-- The event of a token that is no tag. -/
def Event.ofToken? : Token → Option Event
  | .text span => some (.text span)
  | .comment span content => some (.comment span content)
  | .cdata span content => some (.cdata span content)
  | .doctype d => some (.doctype d)
  | .xmlDeclaration d => some (.xmlDeclaration d)
  | .instruction span target content => some (.instruction span target content)
  | .openTag _ | .closeTag _ => none

theorem Event.ofToken?_eq_some {token : Token} {event : Event} (h : ofToken? token = some event) :
    event.isNode ∧ token.pieces = [event.span] := by
  cases token <;> simp only [ofToken?, Option.some.injEq, reduceCtorEq] at h
  all_goals
    rw [← h]
    exact ⟨rfl, rfl⟩

/-- A property of the two edges of a tag and of all that stands between them. -/
theorem Event.forall_mem_tag {P : Event → Prop} {first last : Event} {inside : List Event}
    (hfirst : P first) (hinside : ∀ event ∈ inside, P event) (hlast : P last) :
    ∀ event ∈ first :: (inside ++ [last]), P event := by
  intro event h
  rcases List.mem_cons.1 h with rfl | h
  · exact hfirst
  rcases List.mem_append.1 h with h | h
  · exact hinside event h
  · rw [List.mem_singleton.1 h]
    exact hlast

/-- Between the edges of an open tag there are attributes and whitespace. -/
theorem Event.forall_mem_parts {P : Event → Prop} (hattr : ∀ a, P (.attr a))
    (hwhitespace : ∀ span, P (.innerWhitespace span)) (parts : List TagPart) :
    ∀ event ∈ parts.map Event.ofPart, P event := by
  intro event h
  obtain ⟨part, -, rfl⟩ := List.mem_map.1 h
  cases part with
  | attr a => exact hattr a
  | whitespace span => exact hwhitespace span

/-- Between those of a close tag there is whitespace at most. -/
theorem Event.forall_mem_whitespace {P : Event → Prop}
    (hwhitespace : ∀ span, P (.innerWhitespace span)) (whitespace : Option Span) :
    ∀ event ∈ whitespace.toList.map Event.innerWhitespace, P event := by
  intro event h
  obtain ⟨span, -, rfl⟩ := List.mem_map.1 h
  exact hwhitespace span

namespace Nesting

/-- A property of the edges of every implied close. -/
theorem forall_mem_autoCloseEvents {P : Event → Prop}
    (hstart : ∀ span name, P (.element .autoCloseStart span name))
    (hend : ∀ span name, P (.element .autoCloseEnd span name)) (offset : Nat) (frames : List Frame) :
    ∀ event ∈ autoCloseEvents offset frames, P event := by
  intro event h
  obtain ⟨frame, -, h⟩ := List.mem_flatMap.1 h
  rcases List.mem_cons.1 h with rfl | h
  · exact hstart _ _
  · rw [List.mem_singleton.1 h]
    exact hend _ _

/-- The events of an open tag between the given edges. -/
def openEvents (tag : OpenTag) (first last : ElementEdge) : List Event :=
  .element first tag.start tag.name ::
    (tag.parts.map Event.ofPart ++ [.element last tag.close tag.name])

/-- Whether an open tag opens nothing, be it by its form or by its name. -/
def standsAlone (n : Nesting) (tag : OpenTag) : Bool :=
  tag.selfClosing || (n.spec? (tag.name.slice n.input)).any (·.void)

/-- What the acceptance of a token comes to. -/
inductive Accepts (n : Nesting) (locate : Nat → Position) : Token → Step → Prop
  | node {token : Token} {event : Event} : Event.ofToken? token = some event →
      Accepts n locate token ⟨n, [event], [], none⟩
  | standalone (tag : OpenTag) {count : Nat} : n.standsAlone tag →
      n.impliedCount (n.spec? (tag.name.slice n.input)) = count →
      Accepts n locate (.openTag tag)
        ⟨{ n with
            stack := n.stack.drop count
            maxDepth := max n.maxDepth ((n.stack.drop count).length + 1) },
          autoCloseEvents tag.start.start (n.stack.take count) ++
            openEvents tag .standaloneStart (.standaloneEnd tag.selfClosing), [], none⟩
  | opened (tag : OpenTag) {count : Nat} : ¬ n.standsAlone tag →
      n.impliedCount (n.spec? (tag.name.slice n.input)) = count →
      Accepts n locate (.openTag tag)
        ⟨{ n with
            stack := ⟨tag.name, tag.name.slice n.input⟩ :: n.stack.drop count
            maxDepth := max n.maxDepth ((n.stack.drop count).length + 1) },
          autoCloseEvents tag.start.start (n.stack.take count) ++
            openEvents tag .openStart .openEnd, [],
          if (n.spec? (tag.name.slice n.input)).any (·.rawText) then some tag.name else none⟩
  | closed (tag : CloseTag) {count : Nat} : n.innerCount? (tag.name.slice n.input) = some count →
      count = 0 ∨ n.policy = .autoClose →
      Accepts n locate (.closeTag tag) (n.closeMatched locate tag count)
  | unmatched (tag : CloseTag) : n.policy ≠ .requireBalanced →
      (∀ count, n.innerCount? (tag.name.slice n.input) = some count →
        count ≠ 0 ∧ n.policy ≠ .autoClose) →
      Accepts n locate (.closeTag tag) (n.closeUnmatched locate tag)

theorem accepts_openElement (n : Nesting) (locate : Nat → Position) (tag : OpenTag) :
    n.Accepts locate (.openTag tag) (n.openElement tag) := by
  rw [openElement]
  split
  · rename_i halone
    exact .standalone tag halone rfl
  · rename_i halone
    exact .opened tag halone rfl

theorem accepts_closeElement {n : Nesting} {locate : Nat → Position} {tag : CloseTag} {step : Step}
    (h : n.closeElement locate tag = .ok step) : n.Accepts locate (.closeTag tag) step := by
  rw [closeElement] at h
  split at h
  · rename_i hcount
    rw [← Except.ok.inj h]
    exact .closed tag hcount (.inl rfl)
  · rename_i count _ hcount hpolicy
    rw [← Except.ok.inj h]
    exact .closed tag hcount (.inr hpolicy)
  · cases h
  · rename_i hzero hrequire hauto
    rw [← Except.ok.inj h]
    refine .unmatched tag hrequire ?_
    intro count hcount
    have hne : count ≠ 0 := by
      rintro rfl
      exact hzero hcount
    exact ⟨hne, hauto count hcount⟩

theorem accepts_accept {n : Nesting} {locate : Nat → Position} {token : Token} {step : Step}
    (h : n.accept locate token = .ok step) : n.Accepts locate token step := by
  cases token with
  | openTag tag =>
    rw [← Except.ok.inj h]
    exact accepts_openElement n locate tag
  | closeTag tag => exact accepts_closeElement h
  | _ =>
    rw [← Except.ok.inj h]
    exact .node rfl

/-- A nesting is for one document, one dialect and one policy throughout. -/
theorem Accepts.same {n : Nesting} {locate : Nat → Position} {token : Token} {step : Step}
    (h : n.Accepts locate token step) :
    step.nesting.input = n.input ∧ step.nesting.dialect = n.dialect ∧
      step.nesting.policy = n.policy := by
  cases h with
  | node | standalone | opened | closed | unmatched => exact ⟨rfl, rfl, rfl⟩

/-- What the end of the document comes to. -/
inductive Finishes (n : Nesting) (locate : Nat → Position) : Step → Prop
  | still : (n.policy ≠ .noBalancing → n.stack = []) → Finishes n locate ⟨n, [], [], none⟩
  | implied {warnings : List Warning} : n.policy = .autoClose →
      Finishes n locate
        ⟨{ n with stack := [] }, autoCloseEvents n.input.length n.stack, warnings, none⟩

theorem Finishes.same {n : Nesting} {locate : Nat → Position} {step : Step}
    (h : n.Finishes locate step) :
    step.nesting.input = n.input ∧ step.nesting.dialect = n.dialect ∧
      step.nesting.policy = n.policy := by
  cases h with
  | still => exact ⟨rfl, rfl, rfl⟩
  | implied => exact ⟨rfl, rfl, rfl⟩

theorem finishes_finish {n : Nesting} {locate : Nat → Position} {step : Step}
    (h : n.finish locate = .ok step) : n.Finishes locate step := by
  unfold finish at h
  dsimp only at h
  split at h
  · rename_i hstack
    rw [← Except.ok.inj h]
    exact .still fun _ => hstack
  · rename_i hpolicy _
    rw [← Except.ok.inj h]
    exact .still fun hne => absurd hpolicy hne
  · cases h
  · rename_i hpolicy _
    rw [← Except.ok.inj h]
    exact .implied hpolicy

/-- The one error that a token can be. -/
theorem accept_eq_error {n : Nesting} {locate : Nat → Position} {token : Token} {e : ParseError}
    (h : n.accept locate token = .error e) :
    n.policy = .requireBalanced ∧ ∃ tag, token = .closeTag tag ∧
      e = .unbalancedClose (Utf8.decodeLossy (tag.name.slice n.input)) (locate tag.start.start) := by
  cases token with
  | closeTag tag =>
    simp only [accept, closeElement] at h
    split at h
    · cases h
    · cases h
    · rename_i hpolicy _
      exact ⟨hpolicy, tag, rfl, (Except.error.inj h).symm⟩
    · cases h
  | _ => cases h

/-- The one error that the end of the document can be. -/
theorem finish_eq_error {n : Nesting} {locate : Nat → Position} {e : ParseError}
    (h : n.finish locate = .error e) :
    n.policy = .requireBalanced ∧
      e = .unclosedElements (n.stack.reverse.map (Utf8.decodeLossy ·.name)) (locate n.input.length) := by
  unfold finish at h
  dsimp only at h
  split at h
  · cases h
  · cases h
  · rename_i hpolicy _
    exact ⟨hpolicy, (Except.error.inj h).symm⟩
  · cases h

theorem events_ne_nil {n : Nesting} {locate : Nat → Position} {token : Token} {step : Step}
    (h : n.accept locate token = .ok step) : step.events ≠ [] := by
  cases accepts_accept h with
  | node => simp
  | standalone | opened => simp [openEvents]
  | closed tag => simp [closeMatched, closeEvents]
  | unmatched tag => simp [closeUnmatched, closeEvents]

end Nesting

end MarkupStream
