import MarkupStream.Proofs.Layout
import MarkupStream.Proofs.RoundTrip

/-!
Exact positions. All positions come from one that only moves forward and that gives itself for what lies
behind it. Nothing behind it is ever asked for: events are located at the offset that they start at, in
the order of the document, and what a diagnostic is about lies in what was read last, whose events are
still to be handed out.
-/
namespace MarkupStream

namespace Position

/-- The line and column are those that counting from the start of the document gives. -/
def Exact (input : Bytes) (p : Position) : Prop := p = ofOffset input p.offset

theorem advance_start_reverse (bytes : Bytes) :
    start.advance bytes.reverse =
      ⟨1 + bytes.count Byte.newline,
        1 + (bytes.takeWhile (· != Byte.newline)).countP (!Byte.isContinuation ·), bytes.length⟩ := by
  induction bytes with
  | nil => rfl
  | cons b bytes ih =>
    rw [List.reverse_cons, advance_append, ih, advance_cons, advance_nil, step]
    by_cases hnewline : b = Byte.newline
    · simp [hnewline, Nat.add_assoc]
    · by_cases hcontinuation : Byte.isContinuation b
      · simp [hnewline, hcontinuation]
      · simp [hnewline, hcontinuation, Nat.add_assoc]

/-- Counting gives what walking from the start gives. -/
theorem ofOffset_eq_advance (input : Bytes) (offset : Nat) :
    ofOffset input offset = start.advance (input.take offset) := by
  have hwalk := advance_start_reverse (input.take offset).reverse
  rw [List.reverse_reverse, List.count_reverse, List.length_reverse] at hwalk
  exact hwalk.symm

@[simp] theorem offset_ofOffset (input : Bytes) (offset : Nat) :
    (ofOffset input offset).offset = min offset input.length := List.length_take

theorem exact_ofOffset (input : Bytes) (offset : Nat) : (ofOffset input offset).Exact input := by
  rw [Exact, offset_ofOffset, ofOffset_eq_advance, ofOffset_eq_advance, ← List.take_take,
    List.take_length]

theorem exact_start (input : Bytes) : start.Exact input := rfl

/-- From an exact position every offset that does not lie behind it is located exactly. -/
theorem Exact.locate_eq {input : Bytes} {p : Position} (h : p.Exact input) {offset : Nat}
    (hle : p.offset ≤ offset) : p.locate input offset = ofOffset input offset := by
  have hsum : offset = p.offset + (offset - p.offset) := by omega
  have htake : input.take offset =
      input.take p.offset ++ (input.drop p.offset).take (offset - p.offset) := by
    rw [← List.take_add, ← hsum]
  rw [ofOffset_eq_advance, htake, advance_append, ← ofOffset_eq_advance, ← h, locate]

theorem Exact.locate {input : Bytes} {p : Position} (h : p.Exact input) (offset : Nat) :
    (p.locate input offset).Exact input := by
  by_cases hle : p.offset ≤ offset
  · rw [h.locate_eq hle]
    exact exact_ofOffset input offset
  · have hzero : offset - p.offset = 0 := by omega
    rw [Position.locate, hzero, List.take_zero, advance_nil]
    exact h

end Position

/-- The offset to blame. -/
def Fault.offset : Fault → Nat
  | .unterminated _ offset | .invalidName offset | .malformed _ offset | .unseparatedContent offset
  | .misplacedDeclaration offset => offset

theorem Fault.toError_congr {fault : Fault} {f g : Nat → Position}
    (h : f fault.offset = g fault.offset) : fault.toError f = fault.toError g := by
  cases fault <;> simp only [toError, offset] at h ⊢ <;> rw [h]

theorem Fault.position?_toError (fault : Fault) (f : Nat → Position) :
    (fault.toError f).position? = some (f fault.offset) := by
  cases fault <;> rfl

section Blame

/-!
What is to blame for a fault does not lie in front of where reading began.
-/

open Cursor

namespace Tag

variable {dialect : Dialect} {c : Cursor} {tagStart : Nat} {refusal : Refusal}

theorem offset_le_readName (h : readName dialect c = .error refusal) :
    c.offset ≤ refusal.fault.offset := by
  unfold readName at h
  split at h
  · split at h
    · cases h
    · rw [← Except.error.inj h]
      exact Nat.le_refl _
  · cases h

theorem offset_le_readValue (hstart : tagStart ≤ c.offset)
    (h : readValue dialect tagStart c = .error refusal) : tagStart ≤ refusal.fault.offset := by
  unfold readValue at h
  split at h
  · rw [← Except.error.inj h]
    exact Nat.le_refl _
  · split at h
    · have hinner := (c.reaches_advance 1).offset_le
      dsimp only at h
      split at h
      · rw [← Except.error.inj h]
        exact hstart
      · split at h
        · rename_i bad hbad
          have hfound := (reaches_seek hbad).offset_le
          split at h
          · rw [← Except.error.inj h]
            exact Nat.le_trans hstart (Nat.le_trans hinner hfound)
          · cases h
        · cases h
    · split at h
      · rw [← Except.error.inj h]
        exact hstart
      · cases h

theorem offset_le_readAttribute (hstart : tagStart ≤ c.offset)
    (h : readAttribute dialect tagStart c = .error refusal) : tagStart ≤ refusal.fault.offset := by
  rw [readAttribute] at h
  split at h
  · rename_i hname
    rw [← Except.error.inj h]
    exact Nat.le_trans hstart (offset_le_readName hname)
  · rename_i named hnamed
    have hname := reaches_readName hnamed
    dsimp only at h
    split at h
    · split at h
      · rename_i hvalue
        rw [← Except.error.inj h]
        have hvalued := hname.trans (named.reaches_skipWhitespace.trans
          ((named.skipWhitespace.reaches_advance 1).trans (reaches_skipWhitespace _)))
        exact offset_le_readValue (Nat.le_trans hstart hvalued.offset_le) hvalue
      · cases h
    · split at h
      · rw [← Except.error.inj h]
        exact Nat.le_trans hstart hname.offset_le
      · cases h

theorem map_eq_error {r : Except Refusal α} {f : α → β} (h : r.map f = .error refusal) :
    r = .error refusal := by
  cases r with
  | error e => exact congrArg _ (Except.error.inj h)
  | ok a => cases h

theorem offset_le_readParts {separated : Bool} (hstart : tagStart ≤ c.offset)
    (h : readParts dialect tagStart separated c = .error refusal) :
    tagStart ≤ refusal.fault.offset := by
  fun_induction readParts dialect tagStart separated c with
  | case1 =>
    rw [← Except.error.inj h]
    exact Nat.le_refl _
  | case2 separated c =>
    rename_i ih
    exact ih (Nat.le_trans hstart c.reaches_skipWhitespace.offset_le) (map_eq_error h)
  | case3 | case4 => cases h
  | case5 | case7 =>
    rw [← Except.error.inj h]
    exact hstart
  | case6 separated c =>
    rename_i ih
    exact ih (Nat.le_trans hstart (c.reaches_advance 1).offset_le) (map_eq_error h)
  | case8 separated c b rest hc _ _ _ _ found ha =>
    rw [← Except.error.inj h]
    exact offset_le_readAttribute hstart ha
  | case9 separated c b rest hc _ _ _ _ a next ha ih =>
    exact ih (Nat.le_trans hstart (readAttribute_spec ha).1.offset_le) (map_eq_error h)

end Tag

namespace Token

variable {dialect : Dialect} {c : Cursor} {refusal : Refusal}

theorem offset_le_readDelimited {construct : Construct} {make : Span → Span → Token} {opening : Nat}
    {terminator : Bytes} (h : readDelimited construct make opening terminator c = .error refusal) :
    c.offset ≤ refusal.fault.offset := by
  rw [readDelimited] at h
  dsimp only at h
  split at h
  · cases h
  · rw [← Except.error.inj h]
    exact Nat.le_refl _

theorem offset_le_readDoctype (h : readDoctype c = .error refusal) :
    c.offset ≤ refusal.fault.offset := by
  rw [readDoctype] at h
  dsimp only at h
  split at h
  · rw [← Except.error.inj h]
    exact Nat.le_refl _
  · split at h
    · rw [← Except.error.inj h]
      exact Nat.le_refl _
    · cases h

theorem offset_le_readInstruction (h : readInstruction dialect c = .error refusal) :
    c.offset ≤ refusal.fault.offset := by
  have htarget := c.reaches_advance 2
  rw [readInstruction] at h
  split at h
  · rw [← Except.error.inj h]
    exact htarget.offset_le
  · rename_i named hnamed
    have hcontent := htarget.trans ((reaches_afterName hnamed).trans named.reaches_skipWhitespace)
    rw [readBehindTarget] at h
    split at h
    · rw [← Except.error.inj h]
      exact Nat.le_refl _
    · split at h
      · rw [readDeclaration] at h
        dsimp only at h
        rw [makeDeclaration] at h
        split at h
        · rw [← Except.error.inj h]
          exact Nat.le_refl _
        · cases h
      · dsimp only at h
        split at h
        · rw [← Except.error.inj h]
          exact hcontent.offset_le
        · cases h

theorem offset_le_readCloseTag (h : readCloseTag dialect c = .error refusal) :
    c.offset ≤ refusal.fault.offset := by
  have htarget := c.reaches_advance 2
  rw [readCloseTag] at h
  dsimp only at h
  split at h
  · rw [← Except.error.inj h]
    exact htarget.offset_le
  · rename_i named hnamed
    have htail := htarget.trans ((reaches_afterName hnamed).trans named.reaches_skipWhitespace)
    split at h
    · rw [← Except.error.inj h]
      exact Nat.le_refl _
    · split at h
      · cases h
      · split at h
        · rw [← Except.error.inj h]
          exact htail.offset_le
        · split at h
          · cases h
          · rw [← Except.error.inj h]
            exact Nat.le_refl _

theorem offset_le_readOpenTag (h : readOpenTag dialect c = .error refusal) :
    c.offset ≤ refusal.fault.offset := by
  have htarget := c.reaches_advance 1
  rw [readOpenTag] at h
  split at h
  · rw [← Except.error.inj h]
    exact htarget.offset_le
  · rename_i named hnamed
    have hname := htarget.trans (reaches_afterName hnamed)
    split at h
    · rename_i found hparts
      rw [← Except.error.inj h]
      exact Tag.offset_le_readParts hname.offset_le hparts
    · cases h

theorem offset_le_readMarkup (h : readMarkup dialect c = .error refusal) :
    c.offset ≤ refusal.fault.offset := by
  rw [readMarkup] at h
  split at h
  · exact offset_le_readDelimited h
  split at h
  · exact offset_le_readDelimited h
  split at h
  · exact offset_le_readDoctype h
  split at h
  · exact offset_le_readInstruction h
  split at h
  · exact offset_le_readCloseTag h
  exact offset_le_readOpenTag h

end Token

end Blame

theorem mem_of_firstRepeated {input : Bytes} {ignoreCase : Bool} {seen : List Bytes}
    {attributes : List Attribute} {name : Span}
    (h : firstRepeated? (Span.slice · input) ignoreCase seen attributes = some name) :
    ∃ a ∈ attributes, name = a.name := by
  induction attributes generalizing seen with
  | nil => cases h
  | cons a rest ih =>
    rw [firstRepeated?] at h
    split at h
    · exact ⟨a, List.mem_cons_self, (Option.some.inj h).symm⟩
    · obtain ⟨b, hmem, hb⟩ := ih h
      exact ⟨b, List.mem_cons_of_mem _ hmem, hb⟩

theorem Token.Opens.offset_le_duplicate {c next : Cursor} {tag : OpenTag} (h : Opens c tag next)
    {input : Bytes} {ignoreCase : Bool} {name : Span}
    (hname : duplicateName? tag.parts input ignoreCase = some name) : c.offset ≤ name.start := by
  obtain ⟨a, hmem, rfl⟩ := mem_of_firstRepeated hname
  have hspan := h.attribute_within hmem
  have hlaid := (h.laidOut a hmem).name
  exact Nat.le_trans h.name.start_le
    (Nat.le_trans h.name.le (Nat.le_trans hspan.start_le hlaid.start_le))

namespace TokenStream

/-- The same stream with another position to walk on from. -/
def walkingFrom (s : TokenStream) (p : Position) : TokenStream := { s with position := p }

def Result.walkingFrom (r : Result) (p : Position) : Result := (r.1, r.2.walkingFrom p)

/-- Another position gives the same as that of the stream for all that does not lie behind the cursor. -/
def LocatesAlike (s : TokenStream) (p : Position) : Prop :=
  ∀ offset, s.cursor.offset ≤ offset → (s.walkingFrom p).locate offset = s.locate offset

variable {s : TokenStream} {p : Position}

theorem emitOpenTag_walkingFrom {tag : OpenTag} {next : Cursor}
    (h : ∀ name, duplicateName? tag.parts s.input s.dialect.ignoresCase = some name →
      (s.walkingFrom p).locate name.start = s.locate name.start) :
    (s.walkingFrom p).emitOpenTag tag next = (s.emitOpenTag tag next).walkingFrom p := by
  obtain ⟨input, dialect, cursor, mode, parts, position, warnings⟩ := s
  simp only [walkingFrom, locate] at h
  simp only [emitOpenTag, walkingFrom, locate, nameText]
  cases hname : duplicateName? tag.parts input dialect.ignoresCase with
  | none => rfl
  | some name =>
    dsimp only
    rw [h name hname]
    cases dialect <;> rfl

theorem reject_walkingFrom {refusal : Refusal}
    (h : (s.walkingFrom p).locate refusal.fault.offset = s.locate refusal.fault.offset) :
    (s.walkingFrom p).reject refusal = (s.reject refusal).walkingFrom p := by
  have hfault := Fault.toError_congr h
  obtain ⟨input, dialect, cursor, mode, parts, position, warnings⟩ := s
  rw [reject, reject, hfault]
  cases dialect <;> rfl

theorem nextMarkup_walkingFrom (h : s.LocatesAlike p) :
    (s.walkingFrom p).nextMarkup = s.nextMarkup.walkingFrom p := by
  have hread : Token.readMarkup (s.walkingFrom p).dialect (s.walkingFrom p).cursor =
      Token.readMarkup s.dialect s.cursor := rfl
  rw [nextMarkup, nextMarkup, hread]
  cases hmarkup : Token.readMarkup s.dialect s.cursor with
  | error refusal => exact reject_walkingFrom (h _ (Token.offset_le_readMarkup hmarkup))
  | ok read =>
    obtain ⟨token, next⟩ := read
    cases token with
    | openTag tag =>
      apply emitOpenTag_walkingFrom
      intro name hname
      exact h _ ((Token.opens_readMarkup hmarkup).offset_le_duplicate hname)
    | _ => rfl

theorem nextContent_walkingFrom (h : s.LocatesAlike p) :
    (s.walkingFrom p).nextContent = s.nextContent.walkingFrom p := by
  have hcursor : (s.walkingFrom p).cursor = s.cursor := rfl
  rw [nextContent, nextContent, hcursor]
  cases s.cursor.peek? with
  | none => rfl
  | some b =>
    dsimp only
    split
    · exact nextMarkup_walkingFrom h
    · rfl

theorem nextLiteral_walkingFrom (h : s.LocatesAlike p) (name : Bytes) :
    (s.walkingFrom p).nextLiteral name = (s.nextLiteral name).walkingFrom p := by
  have hcontent := nextContent_walkingFrom (s := { s with mode := .content }) h
  have hunended : p.locate s.input s.cursor.offset = s.position.locate s.input s.cursor.offset :=
    h _ (Nat.le_refl _)
  have hfinish : ∀ stop : Cursor,
      (if s.cursor.offset < stop.offset
        then emit ({ s with mode := .content }.walkingFrom p) (.text (s.cursor.upTo stop)) stop
        else nextContent ({ s with mode := .content }.walkingFrom p)) =
      Result.walkingFrom (if s.cursor.offset < stop.offset
        then emit { s with mode := .content } (.text (s.cursor.upTo stop)) stop
        else nextContent { s with mode := .content }) p := by
    intro stop
    split
    · rfl
    · exact hcontent
  obtain ⟨input, dialect, cursor, mode, parts, position, warnings⟩ := s
  rw [nextLiteral, nextLiteral]
  cases hstop : cursor.seekCloseTag? name dialect.ignoresCase with
  | some stop =>
    simp only [walkingFrom, hstop]
    exact hfinish stop
  | none =>
    cases dialect with
    | xml =>
      simp only [walkingFrom, hstop, Dialect.isStrict, if_true, locate, offset]
      rw [hunended]
      rfl
    | html =>
      simp only [walkingFrom, hstop]
      exact hfinish _

/-- A step asks for no position behind the cursor, and leaves the one that it walks on from. -/
theorem next_walkingFrom (h : s.LocatesAlike p) :
    (s.walkingFrom p).next = s.next.walkingFrom p := by
  have hmode : (s.walkingFrom p).mode = s.mode := rfl
  rw [next, next, hmode]
  cases s.mode with
  | done => rfl
  | literal name => exact nextLiteral_walkingFrom h name
  | content => exact nextContent_walkingFrom h

/-- The warnings of a step are added to those there are, at positions that it asked for. -/
theorem located_next {s t : TokenStream} {token : Token} (h : s.next = (.ok (some token), t)) :
    t.position = s.position ∧
      ∀ w ∈ t.warnings, w ∈ s.warnings ∨ ∃ offset, w.position = s.locate offset := by
  cases outcome_of_next h with
  | text | node | opened => exact ⟨rfl, fun w hw => .inl hw⟩
  | repeated =>
    refine ⟨rfl, fun w hw => ?_⟩
    rcases List.mem_append.1 hw with hw | hw
    · exact .inl hw
    · rw [List.mem_singleton.1 hw]
      exact .inr ⟨_, rfl⟩

theorem located_error {s t : TokenStream} {e : ParseError} (h : s.next = (.error e, t)) :
    ∃ offset, e.position? = some (s.locate offset) := by
  cases outcome_of_error h with
  | duplicate | unended => exact ⟨_, rfl⟩
  | refused => exact ⟨_, Fault.position?_toError _ _⟩

end TokenStream

namespace Nesting

variable {n : Nesting} {locate : Nat → Position}

/-- The only position that is asked for is that of a close tag. -/
theorem accept_congr {f g : Nat → Position} {token : Token}
    (h : ∀ tag, token = .closeTag tag → f tag.start.start = g tag.start.start) :
    n.accept f token = n.accept g token := by
  cases token with
  | closeTag tag =>
    have htag := h tag rfl
    simp only [accept, closeElement, closeMatched, closeUnmatched, htag]
  | _ => rfl

theorem finish_congr {f g : Nat → Position} (h : f n.input.length = g n.input.length) :
    n.finish f = n.finish g := by
  simp only [finish, h]

theorem located_frameWarnings {kind : WarningKind} {offset : Nat} {frames : List Frame} {w : Warning}
    (h : w ∈ frameWarnings kind (locate offset) frames) : ∃ offset, w.position = locate offset := by
  obtain ⟨frame, -, rfl⟩ := List.mem_map.1 h
  exact ⟨offset, rfl⟩

theorem located_accept {token : Token} {step : Step} (h : n.accept locate token = .ok step) :
    ∀ w ∈ step.warnings, ∃ offset, w.position = locate offset := by
  intro w hw
  cases accepts_accept h with
  | node | standalone | opened => cases hw
  | closed tag =>
    rw [closeMatched] at hw
    split at hw
    · exact located_frameWarnings hw
    · cases hw
  | unmatched tag =>
    rw [List.mem_singleton.1 hw]
    exact ⟨_, rfl⟩

theorem located_finish {step : Step} (h : n.finish locate = .ok step) :
    ∀ w ∈ step.warnings, ∃ offset, w.position = locate offset := by
  intro w hw
  unfold finish at h
  dsimp only at h
  split at h
  · rw [← Except.ok.inj h] at hw
    cases hw
  · rw [← Except.ok.inj h] at hw
    cases hw
  · cases h
  · rw [← Except.ok.inj h] at hw
    split at hw
    · exact located_frameWarnings hw
    · cases hw

end Nesting

namespace EventStream

/-- Everything has been located exactly, and the position that the stream walks on from does not lie
behind any event that is still to be handed out. -/
structure Located (input : Bytes) (settings : Settings) (events : List ParsedEvent)
    (s : EventStream) : Prop where
  alive : s.Alive
  tiles : TilesRead input settings events s
  exact : s.tokens.position.Exact input
  behind : ∀ stop, Tiles 0 (events.map (·.event.span)) stop → s.tokens.position.offset ≤ stop
  positions : ∀ parsed ∈ events,
    parsed.position = Position.ofOffset input parsed.event.span.start
  warnings : ∀ w ∈ s.warnings, w.position.Exact input
  drained : s.tokens.warnings = []

variable {input : Bytes} {settings : Settings} {events : List ParsedEvent} {s : EventStream}

theorem located_ofInput (input : Bytes) (settings : Settings) :
    Located input settings [] (ofInput input settings) where
  alive := alive_ofInput input settings
  tiles := tilesRead_ofInput input settings
  exact := Position.exact_start input
  behind := fun _ _ => Nat.zero_le _
  positions := nofun
  warnings := nofun
  drained := rfl

/-- The events handed out tile the document up to where the queued ones begin. -/
theorem Located.exists_tiles (h : Located input settings events s) :
    ∃ stop, Tiles 0 (events.map (·.event.span)) stop ∧
      Tiles stop (s.queue.map Event.span) s.tokens.cursor.offset ∧
      s.tokens.position.offset ≤ stop := by
  have htiles := h.tiles.tiles
  rw [known, List.map_append, List.map_map, tiles_append] at htiles
  obtain ⟨stop, hevents, hqueue⟩ := htiles
  exact ⟨stop, hevents, hqueue, h.behind stop hevents⟩

theorem Located.offset_le_cursor (h : Located input settings events s) :
    s.tokens.position.offset ≤ s.tokens.cursor.offset := by
  obtain ⟨stop, -, hqueue, hle⟩ := h.exists_tiles
  exact Nat.le_trans hle hqueue.le

theorem Located.cursor_le_length (h : Located input settings events s) :
    s.tokens.cursor.offset ≤ input.length := h.tiles.cursor.offset_le_length

theorem Located.offset_le_event (h : Located input settings events s) {event : Event}
    {queue : List Event} (hq : s.queue = event :: queue) :
    s.tokens.position.offset ≤ event.span.start := by
  obtain ⟨stop, -, hqueue, hle⟩ := h.exists_tiles
  rw [hq] at hqueue
  rw [hqueue.1]
  exact hle

theorem Located.locate_eq (h : Located input settings events s) {offset : Nat}
    (hle : s.tokens.position.offset ≤ offset) :
    s.tokens.locate offset = Position.ofOffset input offset := by
  rw [TokenStream.locate, h.tiles.reads.tokens_input]
  exact h.exact.locate_eq hle

theorem Located.exact_locate (h : Located input settings events s) {w : Position}
    (hw : ∃ offset, w = s.tokens.locate offset) : w.Exact input := by
  obtain ⟨offset, rfl⟩ := hw
  rw [TokenStream.locate, h.tiles.reads.tokens_input]
  exact h.exact.locate offset

theorem Located.loads {t : EventStream} (h : Located input settings events s) (hq : s.queue = [])
    (hl : s.Loads t) : Located input settings events t := by
  have hfills := hl.fills h.alive
  have halive := h.alive.fills hfills
  have htiles := h.tiles.fills hq hfills
  cases hl with
  | start => exact ⟨halive, htiles, h.exact, h.behind, h.positions, h.warnings, h.drained⟩
  | @token token tokens step hs htokens hstep =>
    obtain ⟨hposition, hfound⟩ := TokenStream.located_next htokens
    have hsame : (s.loadToken tokens step).tokens.position = s.tokens.position := hposition
    refine ⟨halive, htiles, ?_, ?_, h.positions, ?_, rfl⟩
    · rw [hsame]
      exact h.exact
    · rw [hsame]
      exact h.behind
    · intro w hw
      rcases List.mem_append.1 hw with hw | hw
      · rcases List.mem_append.1 hw with hw | hw
        · exact h.warnings w hw
        · exact h.exact_locate (Nesting.located_accept hstep w hw)
      · rcases hfound w hw with hold | hnew
        · rw [h.drained] at hold
          cases hold
        · exact h.exact_locate hnew
  | finish hs htokens hstep =>
    refine ⟨halive, htiles, h.exact, h.behind, h.positions, ?_, h.drained⟩
    intro w hw
    rcases List.mem_append.1 hw with hw | hw
    · exact h.warnings w hw
    · exact h.exact_locate (Nesting.located_finish hstep w hw)

theorem keeps_located (input : Bytes) (settings : Settings) : Keeps (Located input settings) where
  literalUntil := by
    intro events s name h
    have hdrained : (s.literalUntil name).tokens.warnings = [] := by
      obtain ⟨mode, heq⟩ := s.literalUntil_eq name
      rw [heq]
      exact h.drained
    have htiles := (kept_tilesRead input settings).literalUntil h.tiles name
    obtain ⟨mode, heq⟩ := s.literalUntil_eq name
    refine ⟨h.alive.literalUntil name, htiles, ?_, ?_, h.positions, h.warnings, hdrained⟩
    all_goals rw [heq]
    · exact h.exact
    · exact h.behind
  loads := Located.loads
  deliver := by
    intro events s event queue h hq
    have hposition : (EventStream.deliver { s with queue } event).1.position =
        Position.ofOffset input event.span.start := h.locate_eq (h.offset_le_event hq)
    refine ⟨h.alive, (kept_tilesRead input settings).deliver h.tiles hq, ?_, ?_, ?_, h.warnings,
      h.drained⟩
    · rw [show (EventStream.deliver { s with queue } event).2.tokens.position = _ from hposition]
      exact Position.exact_ofOffset _ _
    · intro stop hstop
      rw [show (EventStream.deliver { s with queue } event).2.tokens.position = _ from hposition,
        Position.offset_ofOffset]
      rw [List.map_append, tiles_append] at hstop
      obtain ⟨middle, -, hstart, hle, hend⟩ := hstop
      have hmin := Nat.min_le_left event.span.start input.length
      change event.span.start = middle at hstart
      change event.span.stop = stop at hend
      change middle ≤ event.span.stop at hle
      omega
    · intro parsed hmem
      rcases List.mem_append.1 hmem with hmem | hmem
      · exact h.positions parsed hmem
      · rw [List.mem_singleton.1 hmem]
        exact hposition

theorem Located.exact_error (h : Located input settings events s) {e : ParseError}
    (hfails : s.Fails e) {p : Position} (hp : e.position? = some p) : p.Exact input := by
  apply h.exact_locate
  cases hfails with
  | tooLarge => cases hp
  | scan _ htokens =>
    obtain ⟨offset, hoffset⟩ := TokenStream.located_error htokens
    exact ⟨offset, Option.some.inj (hp.symm.trans hoffset)⟩
  | token _ _ hstep =>
    obtain ⟨-, tag, -, rfl⟩ := Nesting.accept_eq_error hstep
    exact ⟨_, (Option.some.inj hp).symm⟩
  | finish _ _ hstep =>
    obtain ⟨-, rfl⟩ := Nesting.finish_eq_error hstep
    exact ⟨_, (Option.some.inj hp).symm⟩

/-- The same stream with its position taken back to the start of the document, behind which nothing
lies. -/
def rewind (s : EventStream) : EventStream :=
  { s with tokens := s.tokens.walkingFrom Position.start }

theorem Located.locatesAlike (h : Located input settings events s) {offset : Nat}
    (hle : s.tokens.position.offset ≤ offset) :
    s.rewind.tokens.locate offset = s.tokens.locate offset := by
  have hinput : s.tokens.input = input := h.tiles.reads.tokens_input
  rw [h.locate_eq hle, TokenStream.locate]
  change Position.start.locate s.tokens.input offset = _
  rw [hinput]
  exact (Position.exact_start input).locate_eq (Nat.zero_le _)

/-- Two results that tell a caller the same. -/
def Result.SaysTheSame (r r' : Result) : Prop := r.1 = r'.1 ∧ r.2.warnings = r'.2.warnings

theorem emit_rewind {event : Event}
    (h : s.rewind.tokens.locate event.span.start = s.tokens.locate event.span.start) :
    (s.rewind.emit event).SaysTheSame (s.emit event) := by
  refine ⟨?_, rfl⟩
  simp only [emit, deliver, TokenStream.moveTo]
  rw [h]
  rfl

theorem Located.nextQueued_rewind (h : Located input settings events s) :
    s.rewind.nextQueued.SaysTheSame s.nextQueued := by
  have hqueue : s.rewind.queue = s.queue := rfl
  rw [nextQueued, nextQueued, hqueue]
  cases hq : s.queue with
  | nil => exact ⟨rfl, rfl⟩
  | cons event queue =>
    exact emit_rewind (s := { s with queue }) (h.locatesAlike (h.offset_le_event hq))

theorem Located.nextRead_rewind (h : Located input settings events s) (hq : s.queue = [])
    (hs : s.stage = .running) : s.rewind.nextRead.SaysTheSame s.nextRead := by
  have halike : s.tokens.LocatesAlike Position.start :=
    fun offset hle => h.locatesAlike (Nat.le_trans h.offset_le_cursor hle)
  have hnext : s.rewind.tokens.next = s.tokens.next.walkingFrom Position.start :=
    TokenStream.next_walkingFrom halike
  cases htokens : s.tokens.next with
  | mk answer tokens =>
    rw [htokens] at hnext
    cases answer with
    | error e =>
      rw [nextRead_of_error htokens, nextRead_of_error hnext]
      exact ⟨rfl, rfl⟩
    | ok token? =>
      cases token? with
      | none =>
        have hfinish : s.rewind.nesting.finish s.rewind.tokens.locate =
            s.nesting.finish s.tokens.locate := by
          apply Nesting.finish_congr
          apply h.locatesAlike
          have hlength : s.rewind.nesting.input = input := h.tiles.reads.nesting_input
          rw [hlength]
          exact Nat.le_trans h.offset_le_cursor h.cursor_le_length
        rw [nextRead_of_none htokens, nextRead_of_none hnext, hfinish]
        cases hstep : s.nesting.finish s.tokens.locate with
        | error e => exact ⟨rfl, rfl⟩
        | ok step => exact (h.loads hq (.finish hs htokens hstep)).nextQueued_rewind
      | some token =>
        have haccept : s.rewind.nesting.accept s.rewind.tokens.locate token =
            s.nesting.accept s.tokens.locate token := by
          apply Nesting.accept_congr
          rintro tag rfl
          obtain ⟨next, parts, warnings, -, htiled, -⟩ :=
            (TokenStream.outcome_of_next htokens).token
          have hstart : tag.start.start = s.tokens.cursor.offset := htiled.2.1
          rw [hstart]
          exact h.locatesAlike h.offset_le_cursor
        rw [nextRead_of_token htokens, nextRead_of_token hnext, haccept]
        cases hstep : s.nesting.accept s.tokens.locate token with
        | error e => exact ⟨rfl, rfl⟩
        | ok step => exact (h.loads hq (.token hs htokens hstep)).nextQueued_rewind

/-- The next answer is the same after rewinding, since nothing behind the position is asked for. -/
theorem Located.next_rewind (h : Located input settings events s) :
    s.rewind.next.SaysTheSame s.next := by
  cases hq : s.queue with
  | cons event queue =>
    have hne : s.queue ≠ [] := by simp [hq]
    rw [next_of_queue hne, next_of_queue (s := s.rewind) hne]
    exact h.nextQueued_rewind
  | nil =>
    cases hs : s.stage with
    | start =>
      have hinput : s.rewind.input = s.input := rfl
      rw [next_of_start hq hs, next_of_start (s := s.rewind) hq hs, hinput]
      split
      · exact ⟨rfl, rfl⟩
      · have hcursor := h.offset_le_cursor
        rw [h.tiles.start hs] at hcursor
        exact emit_rewind (s := { s with stage := .running }) (h.locatesAlike hcursor)
    | running =>
      rw [next_of_running hq hs, next_of_running (s := s.rewind) hq hs]
      exact h.nextRead_rewind hq hs
    | done =>
      rw [next_of_done hq hs, next_of_done (s := s.rewind) hq hs]
      exact ⟨rfl, rfl⟩

/-- What leaves a stream behind that has been located has it so, too. -/
theorem Located.leaves (h : Located input settings events s) {answers : List Answer} {t : EventStream}
    (hleaves : s.Leaves answers t) :
    t.warnings = s.warnings ∧ t.rewind.next.SaysTheSame t.next ∧
      ∀ e p, .error e ∈ answers → e.position? = some p → p.Exact input := by
  cases hleaves with
  | waiting => exact ⟨rfl, h.next_rewind, nofun⟩
  | ended =>
    refine ⟨rfl, h.next_rewind, fun e p hmem => ?_⟩
    cases List.eq_of_mem_replicate hmem
  | failed _ hfails hstage hqueue hwarnings =>
    refine ⟨hwarnings, ?_, fun e p hmem hp => ?_⟩
    · rw [next_of_done hqueue hstage, next_of_done (s := t.rewind) hqueue hstage]
      exact ⟨rfl, rfl⟩
    · rcases List.mem_cons.1 hmem with hfirst | hlater
      · rw [Except.error.inj hfirst] at hp
        exact h.exact_error hfails hp
      · cases List.eq_of_mem_replicate hlater

/-- Whatever calls are made on the stream of a document, every position is the one that counting from
the start of the document gives for its offset, be it that of an event, which is located where its span
starts, of a warning or of an error. Nor is any of them the position of an offset that was asked for too
late: at any time the next answer and the warnings after it are the same if all positions are counted
afresh from the start of the document. -/
theorem positions_exact (input : Bytes) (settings : Settings) (calls : List Call) :
    let run := (ofInput input settings).run calls
    (∀ parsed ∈ delivered run.1,
      parsed.position = Position.ofOffset input parsed.event.span.start ∧
        parsed.position.offset = parsed.event.span.start) ∧
    (∀ w ∈ run.2.warnings, w.position = Position.ofOffset input w.position.offset) ∧
    (∀ e p, .error e ∈ run.1 → e.position? = some p → p = Position.ofOffset input p.offset) ∧
    run.2.rewind.next.SaysTheSame run.2.next := by
  intro run
  obtain ⟨found, tail, t, hanswers, ht, hleaves⟩ := run_keeps (keeps_located input settings) calls
    (located_ofInput input settings)
  rw [List.nil_append] at ht
  obtain ⟨hwarnings, hrewind, herrors⟩ := ht.leaves hleaves
  have hfound : delivered run.1 = found := by
    rw [show run.1 = handedOut found ++ tail from hanswers, delivered_handedOut, hleaves.delivered,
      List.append_nil]
  refine ⟨fun parsed hmem => ?_, fun w hw => ?_, fun e p hmem hp => ?_, hrewind⟩
  · rw [hfound] at hmem
    have hposition := ht.positions parsed hmem
    obtain ⟨stop, hevents, hqueue, -⟩ := ht.exists_tiles
    have hspan := hevents.within _ (List.mem_map_of_mem hmem)
    have hstop := Nat.le_trans hqueue.le ht.cursor_le_length
    have hmin : min parsed.event.span.start input.length = parsed.event.span.start := by
      have hstart := hspan.le
      have hend := hspan.stop_le
      omega
    refine ⟨hposition, ?_⟩
    rw [hposition, Position.offset_ofOffset, hmin]
  · rw [show run.2.warnings = t.warnings from hwarnings] at hw
    exact ht.warnings w hw
  · rw [show run.1 = handedOut found ++ tail from hanswers] at hmem
    rcases List.mem_append.1 hmem with hevent | htail
    · simp [handedOut] at hevent
    · exact herrors e p htail hp

end EventStream

end MarkupStream
