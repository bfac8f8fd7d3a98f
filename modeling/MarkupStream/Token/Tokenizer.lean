import MarkupStream.Token.Stream
import MarkupStream.Token.Words

/-!
Tokens in words. A tokenizer reads a document of any length as a token stream does, but the tokens that it
hands out are held in words, and so is what it looks up by their spans. It passes over repeated pieces
without writing them out.

What a tokenizer hands out of a document that is not too long is what the token stream does.
-/
namespace MarkupStream

/-- A place in a document: the offset, and the pieces that are left. -/
structure Place where
  offset : Nat
  left : Repetition
  deriving DecidableEq, Repr

namespace Place

def start (doc : Repetition) : Place := ⟨0, doc⟩

def ofCursor (c : Cursor) : Place := ⟨c.offset, .ofBytes c.rest⟩

/-- The same place with the bytes written out. -/
def cursor (p : Place) : Cursor := ⟨p.offset, p.left.joined⟩

def peek? (p : Place) : Option UInt8 := p.left.head?

/-- Moves over the bytes of one class. -/
def skip (p : Place) (inClass : UInt8 → Bool) : Place :=
  let (passed, left) := p.left.skip inClass
  ⟨p.offset + passed, left⟩

def upTo (p next : Place) : Span := ⟨p.offset, next.offset⟩

@[simp] theorem cursor_ofCursor (c : Cursor) : (ofCursor c).cursor = c := by
  rw [cursor, Repetition.joined_eq, ofCursor, Repetition.bytes_ofBytes]

@[simp] theorem cursor_skip (p : Place) (inClass : UInt8 → Bool) :
    (p.skip inClass).cursor = p.cursor.skip inClass := by
  obtain ⟨hpassed, hleft⟩ := Repetition.skip_eq inClass p.left
  simp only [cursor, skip, Cursor.skip, Repetition.joined_eq, hpassed, hleft]

theorem peek?_eq (p : Place) : p.peek? = p.cursor.peek? := by
  rw [peek?, Repetition.head?_eq, Cursor.peek?, cursor, Repetition.joined_eq]

end Place

/-- `parts` are those of the last open tag, and `position` is the last position that was moved to. -/
structure Tokenizer where
  doc : Repetition
  dialect : Dialect
  place : Place
  mode : TokenStream.Mode
  parts : List TagPart
  position : Position
  warnings : List Warning
  deriving Repr

namespace Tokenizer

def ofDocument (doc : Repetition) (dialect : Dialect) : Tokenizer :=
  ⟨doc, dialect, .start doc, .content, [], Position.start, []⟩

def ofInput (input : Bytes) (dialect : Dialect) : Tokenizer := ofDocument (.ofBytes input) dialect

def offset (t : Tokenizer) : Nat := t.place.offset

def cursor (t : Tokenizer) : Cursor := t.place.cursor

/-- The token stream that stands where the tokenizer does. -/
def stream (t : Tokenizer) : TokenStream :=
  ⟨t.doc.bytes, t.dialect, t.cursor, t.mode, t.parts, t.position, t.warnings⟩

/-- The position of an offset, which leaves the last position where it is. -/
def locate (t : Tokenizer) (offset : Nat) : Position :=
  t.position.advance (t.doc.between t.position.offset offset).bytes

/-- Moves to the position of an offset. -/
def moveTo (t : Tokenizer) (offset : Nat) : Tokenizer := { t with position := t.locate offset }

/-- Reads the bytes that follow as text up to a close tag of the given name. -/
def literalUntil (t : Tokenizer) (name : Bytes) : Tokenizer :=
  match t.mode with
  | .done => t
  | _ => { t with mode := .literal name }

def drainWarnings (t : Tokenizer) : List Warning × Tokenizer := (t.warnings, { t with warnings := [] })

/-- The result of asking for a token: nothing when the document has ended. -/
abbrev Result := Except ParseError (Option Token) × Tokenizer

def Result.stream (r : Result) : TokenStream.Result := (r.1, r.2.stream)

def fail (t : Tokenizer) (e : ParseError) : Result := (.error e, { t with mode := .done })

/-- Goes on at a place after a token, which is handed out in words. -/
def emit (t : Tokenizer) (token : Token) (next : Place) : Result :=
  (.ok (some token.inWords), { t with place := next })

/-- A tag whose attributes repeat a name is an error in XML and earns a warning in HTML. The names are those
that are found by the words for them. -/
def emitOpenTag (t : Tokenizer) (tag : OpenTag) (next : Place) : Result :=
  let t := { t with parts := tag.inWords.parts }
  match firstRepeated? t.doc.slice t.dialect.ignoresCase [] (attributesOf t.parts) with
  | none => t.emit (.openTag tag) next
  | some name =>
    let found := Utf8.decodeLossy (t.doc.slice name)
    if t.dialect.isStrict then
      { t with place := next }.fail (.duplicateAttribute found (t.locate name.start))
    else
      let warning := ⟨.duplicateAttribute, found, t.locate name.start⟩
      { t with warnings := t.warnings ++ [warning] }.emit (.openTag tag) next

/-- What a `<` that begins no construct comes to. -/
def reject (t : Tokenizer) (refusal : Refusal) : Result :=
  if t.dialect.isStrict then
    let parts := if refusal.fault.keepsParts then t.parts else []
    { t with parts, place := .ofCursor refusal.cursor }.fail (refusal.fault.toError t.locate)
  else
    let next := Place.ofCursor (t.cursor.advance 1).nextTag
    { t with parts := [] }.emit (.text (t.place.upTo next)) next

/-- The token at a `<`. -/
def nextMarkup (t : Tokenizer) : Result :=
  match Token.readMarkupInWords t.dialect t.doc t.cursor with
  | .ok (.openTag tag, next) => t.emitOpenTag tag (.ofCursor next)
  | .ok (token, next) => t.emit token (.ofCursor next)
  | .error refusal => t.reject refusal

/-- The token at the place where the tokenizer stands, outside literal mode. -/
def nextContent (t : Tokenizer) : Result :=
  match t.place.peek? with
  | none => (.ok none, { t with mode := .done })
  | some b =>
    if b == Byte.lessThan then t.nextMarkup
    else
      let next := t.place.skip (· != Byte.lessThan)
      t.emit (.text (t.place.upTo next)) next

/-- The text up to a close tag of the given name, or what comes after if there is none in between. -/
def nextLiteral (t : Tokenizer) (name : Bytes) : Result :=
  let t := { t with mode := .content }
  let finish (stop : Place) : Result :=
    if t.offset < stop.offset then t.emit (.text (t.place.upTo stop)) stop else t.nextContent
  match t.cursor.seekCloseTag? name t.dialect.ignoresCase with
  | some stop => finish (.ofCursor stop)
  | none =>
    if t.dialect.isStrict then t.fail (.unterminated .rawText (t.locate t.offset))
    else finish (t.place.skip fun _ => true)

def next (t : Tokenizer) : Result :=
  match t.mode with
  | .done => (.ok none, t)
  | .literal name => t.nextLiteral name
  | .content => t.nextContent

section Stream

/-!
A tokenizer and its stream do the same with a token that is held in words.
-/

variable (t : Tokenizer)

@[simp] theorem stream_ofDocument (doc : Repetition) (dialect : Dialect) :
    (ofDocument doc dialect).stream = .ofInput doc.bytes dialect := by
  simp [stream, ofDocument, TokenStream.ofInput, cursor, Place.cursor, Place.start, Cursor.start]

theorem locate_eq (offset : Nat) : t.locate offset = t.stream.locate offset := by
  rw [locate, Repetition.bytes_between]
  rfl

theorem slice_eq : t.doc.slice = (Span.slice · t.stream.input) := funext (Repetition.slice_eq t.doc)

theorem cursor_literalUntil (name : Bytes) : (t.literalUntil name).cursor = t.cursor := by
  obtain ⟨doc, dialect, place, mode, parts, position, warnings⟩ := t
  cases mode <;> rfl

theorem stream_fail (e : ParseError) : (t.fail e).stream = t.stream.fail e := rfl

theorem stream_emit (token : Token) (next : Place) :
    (t.emit token next).stream = t.stream.emit token.inWords next.cursor := rfl

theorem stream_emitOpenTag (tag : OpenTag) (next : Place) :
    (t.emitOpenTag tag next).stream = t.stream.emitOpenTag tag.inWords next.cursor := by
  have hname : firstRepeated? t.doc.slice t.dialect.ignoresCase [] (attributesOf tag.inWords.parts) =
      duplicateName? tag.inWords.parts t.stream.input t.stream.dialect.ignoresCase := by
    rw [slice_eq]
    rfl
  rw [emitOpenTag, TokenStream.emitOpenTag]
  dsimp only
  rw [hname]
  cases duplicateName? tag.inWords.parts t.stream.input t.stream.dialect.ignoresCase with
  | none => rfl
  | some name =>
    have hfound : Utf8.decodeLossy (t.doc.slice name) = t.stream.nameText name := by
      rw [slice_eq]
      rfl
    have hlocate : locate { t with parts := tag.inWords.parts } name.start =
        TokenStream.locate { t.stream with parts := tag.inWords.parts } name.start := locate_eq _ _
    dsimp only
    rw [hfound, hlocate]
    exact apply_ite Result.stream _ _ _

end Stream

section Progress

/-!
A token takes at least one byte, whatever becomes of its spans.
-/

/-- A step that gave a token, if it did, left fewer bytes. -/
def Result.Shorter (t : Tokenizer) (r : Result) : Prop :=
  ∀ token, r.1 = .ok (some token) → r.2.cursor.rest.length < t.cursor.rest.length

theorem shorter_fail (t u : Tokenizer) (e : ParseError) : (u.fail e).Shorter t := nofun

theorem shorter_emit {t u : Tokenizer} {token : Token} {next : Place}
    (h : next.cursor.rest.length < t.cursor.rest.length) : (u.emit token next).Shorter t :=
  fun _ _ => h

theorem shorter_emit_ofCursor {t u : Tokenizer} {token : Token} {next : Cursor}
    (h : next.rest.length < t.cursor.rest.length) : (u.emit token (.ofCursor next)).Shorter t :=
  shorter_emit (by rwa [Place.cursor_ofCursor])

theorem shorter_emit_skip {t u : Tokenizer} {token : Token} {inClass : UInt8 → Bool} {b : UInt8}
    (hb : t.cursor.peek? = some b) (hclass : inClass b) : (u.emit token (t.place.skip inClass)).Shorter t := by
  obtain ⟨rest, hrest⟩ := List.head?_eq_some_iff.1 hb
  apply shorter_emit
  rw [Place.cursor_skip]
  exact Cursor.length_skip_lt hrest hclass

theorem shorter_emitOpenTag {t u : Tokenizer} {tag : OpenTag} {next : Cursor}
    (h : next.rest.length < t.cursor.rest.length) : (u.emitOpenTag tag (.ofCursor next)).Shorter t := by
  unfold emitOpenTag
  dsimp only
  split
  · exact shorter_emit_ofCursor h
  · split
    · exact shorter_fail _ _ _
    · exact shorter_emit_ofCursor h

variable {t : Tokenizer}

theorem shorter_nextMarkup (hc : t.cursor.rest ≠ []) : t.nextMarkup.Shorter t := by
  unfold nextMarkup
  split
  · rename_i hread
    exact shorter_emitOpenTag (Token.length_readMarkupInWords_lt hc hread)
  · rename_i hread
    exact shorter_emit_ofCursor (Token.length_readMarkupInWords_lt hc hread)
  · unfold reject
    split
    · exact shorter_fail _ _ _
    · exact shorter_emit_ofCursor (TokenStream.length_nextTag_advance_lt hc)

theorem shorter_nextContent (t : Tokenizer) : t.nextContent.Shorter t := by
  unfold nextContent
  rw [Place.peek?_eq]
  split
  · exact nofun
  · rename_i b hb
    split
    · refine shorter_nextMarkup fun hend => ?_
      rw [Cursor.peek?, show t.place.cursor.rest = [] from hend] at hb
      cases hb
    · rename_i hplain
      exact shorter_emit_skip hb (by simpa using hplain)

theorem shorter_nextLiteral (t : Tokenizer) (name : Bytes) : (t.nextLiteral name).Shorter t := by
  have hcontent : Result.Shorter t (nextContent { t with mode := .content }) :=
    shorter_nextContent { t with mode := .content }
  unfold nextLiteral
  dsimp only
  split
  · rename_i stop hstop
    split
    · rename_i hlt
      have hbehind : t.cursor.offset < stop.offset := hlt
      have hsum : stop.offset + stop.rest.length = t.cursor.offset + t.cursor.rest.length :=
        TokenStream.length_lt_of_closeTagFrom hstop
      exact shorter_emit_ofCursor (by omega)
    · exact hcontent
  · split
    · exact shorter_fail _ _ _
    · split
      · rename_i hlt
        cases hb : t.cursor.peek? with
        | none =>
          have hstay := t.place.cursor_skip fun _ => true
          have hend : t.place.cursor.rest = [] := List.head?_eq_none_iff.1 hb
          rw [Cursor.skip, hend] at hstay
          exact absurd (congrArg Cursor.offset hstay) (Nat.ne_of_gt hlt)
        | some b => exact shorter_emit_skip hb rfl
      · exact hcontent

theorem length_next_lt {t u : Tokenizer} {token : Token} (h : t.next = (.ok (some token), u)) :
    u.cursor.rest.length < t.cursor.rest.length := by
  have hshorter : t.next.Shorter t := by
    unfold next
    split
    · exact nofun
    · exact shorter_nextLiteral t _
    · exact shorter_nextContent t
  rw [h] at hshorter
  exact hshorter token rfl

end Progress

/-- The tokens that are left, up to the error if there is one. -/
def rest (t : Tokenizer) : List Token × Option ParseError × Tokenizer :=
  match _h : t.next with
  | (.ok none, u) => ([], none, u)
  | (.error e, u) => ([], some e, u)
  | (.ok (some token), u) =>
    let (tokens, error, last) := u.rest
    (token :: tokens, error, last)
termination_by t.cursor.rest.length
decreasing_by exact length_next_lt _h

end Tokenizer

end MarkupStream
