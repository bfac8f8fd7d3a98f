import MarkupStream.Token.Scan
import MarkupStream.Utf8

/-!
The tokens of a document, one at a time. Between two tokens a caller may ask for literal mode, in
which everything up to a close tag of a given name is one text. In HTML whatever begins with `<` and
is no construct becomes text up to the next `<`; in XML it ends the stream with an error. After an
error or the end there are no more tokens.
-/
namespace MarkupStream

/-- How the next bytes are to be read. -/
inductive TokenStream.Mode where
  | content
  | literal (name : Bytes)
  | done
  deriving DecidableEq, Repr

/-- `parts` are those of the last open tag, and `position` is the last position that was moved to. -/
structure TokenStream where
  input : Bytes
  dialect : Dialect
  cursor : Cursor
  mode : TokenStream.Mode
  parts : List TagPart
  position : Position
  warnings : List Warning
  deriving Repr

namespace TokenStream

def ofInput (input : Bytes) (dialect : Dialect) : TokenStream :=
  ⟨input, dialect, Cursor.start input, .content, [], Position.start, []⟩

def offset (s : TokenStream) : Nat := s.cursor.offset

/-- The position of an offset, which leaves the last position where it is. -/
def locate (s : TokenStream) (offset : Nat) : Position := s.position.locate s.input offset

/-- Moves to the position of an offset. -/
def moveTo (s : TokenStream) (offset : Nat) : TokenStream :=
  { s with position := s.locate offset }

/-- Reads the bytes that follow as text up to a close tag of the given name. -/
def literalUntil (s : TokenStream) (name : Bytes) : TokenStream :=
  match s.mode with
  | .done => s
  | _ => { s with mode := .literal name }

def drainWarnings (s : TokenStream) : List Warning × TokenStream :=
  (s.warnings, { s with warnings := [] })

/-- The result of asking for a token: nothing when the document has ended. -/
abbrev Result := Except ParseError (Option Token) × TokenStream

def fail (s : TokenStream) (e : ParseError) : Result := (.error e, { s with mode := .done })

/-- Goes on at a cursor after a token. -/
def emit (s : TokenStream) (token : Token) (next : Cursor) : Result :=
  (.ok (some token), { s with cursor := next })

/-- The name of a duplicate attribute as it is reported. -/
def nameText (s : TokenStream) (name : Span) : String := Utf8.decodeLossy (name.slice s.input)

/-- A tag whose attributes repeat a name is an error in XML and earns a warning in HTML. -/
def emitOpenTag (s : TokenStream) (tag : OpenTag) (next : Cursor) : Result :=
  let s := { s with parts := tag.parts }
  match duplicateName? tag.parts s.input s.dialect.ignoresCase with
  | none => s.emit (.openTag tag) next
  | some name =>
    if s.dialect.isStrict then
      { s with cursor := next }.fail (.duplicateAttribute (s.nameText name) (s.locate name.start))
    else
      let warning := ⟨.duplicateAttribute, s.nameText name, s.locate name.start⟩
      { s with warnings := s.warnings ++ [warning] }.emit (.openTag tag) next

/-- What a `<` that begins no construct comes to. -/
def reject (s : TokenStream) (refusal : Refusal) : Result :=
  if s.dialect.isStrict then
    let parts := if refusal.fault.keepsParts then s.parts else []
    { s with parts, cursor := refusal.cursor }.fail (refusal.fault.toError s.locate)
  else
    let next := (s.cursor.advance 1).nextTag
    { s with parts := [] }.emit (.text (s.cursor.upTo next)) next

/-- The token at a `<`. -/
def nextMarkup (s : TokenStream) : Result :=
  match Token.readMarkup s.dialect s.cursor with
  | .ok (.openTag tag, next) => s.emitOpenTag tag next
  | .ok (token, next) => s.emit token next
  | .error refusal => s.reject refusal

/-- The token at the cursor, outside literal mode. -/
def nextContent (s : TokenStream) : Result :=
  match s.cursor.peek? with
  | none => (.ok none, { s with mode := .done })
  | some b =>
    if b == Byte.lessThan then s.nextMarkup
    else
      let next := s.cursor.nextTag
      s.emit (.text (s.cursor.upTo next)) next

/-- The text up to a close tag of the given name, or what comes after if there is none in between. -/
def nextLiteral (s : TokenStream) (name : Bytes) : Result :=
  let s := { s with mode := .content }
  let finish (stop : Cursor) : Result :=
    if s.offset < stop.offset then s.emit (.text (s.cursor.upTo stop)) stop else s.nextContent
  match s.cursor.seekCloseTag? name s.dialect.ignoresCase with
  | some stop => finish stop
  | none =>
    if s.dialect.isStrict then s.fail (.unterminated .rawText (s.locate s.offset))
    else finish (s.cursor.skip fun _ => true)

def next (s : TokenStream) : Result :=
  match s.mode with
  | .done => (.ok none, s)
  | .literal name => s.nextLiteral name
  | .content => s.nextContent

section Progress

/-!
A token takes at least one byte, so no document has more tokens than bytes.
-/

/-- A step that gave a token, if it did, left fewer bytes. -/
def Result.Shorter (s : TokenStream) (r : Result) : Prop :=
  ∀ token, r.1 = .ok (some token) → r.2.cursor.rest.length < s.cursor.rest.length

theorem shorter_fail (s t : TokenStream) (e : ParseError) : (t.fail e).Shorter s := by
  intro token h
  simp [fail] at h

theorem shorter_emit {s t : TokenStream} {token : Token} {next : Cursor}
    (h : next.rest.length < s.cursor.rest.length) : (t.emit token next).Shorter s :=
  fun _ _ => h

theorem length_nextTag_advance_lt {c : Cursor} (hc : c.rest ≠ []) :
    (c.advance 1).nextTag.rest.length < c.rest.length :=
  Nat.lt_of_le_of_lt (Cursor.length_skip_le _ _) (Token.length_advance_lt hc (by decide))

theorem shorter_emitOpenTag {s t : TokenStream} {tag : OpenTag} {next : Cursor}
    (h : next.rest.length < s.cursor.rest.length) : (t.emitOpenTag tag next).Shorter s := by
  unfold emitOpenTag
  dsimp only
  split
  · exact shorter_emit h
  · split
    · exact shorter_fail _ _ _
    · exact shorter_emit h

theorem shorter_nextMarkup {s : TokenStream} (hc : s.cursor.rest ≠ []) :
    s.nextMarkup.Shorter s := by
  unfold nextMarkup
  split
  · rename_i h
    exact shorter_emitOpenTag (Token.length_readMarkup_lt hc h)
  · rename_i h
    exact shorter_emit (Token.length_readMarkup_lt hc h)
  · unfold reject
    split
    · exact shorter_fail _ _ _
    · exact shorter_emit (length_nextTag_advance_lt hc)

theorem shorter_nextContent (s : TokenStream) : s.nextContent.Shorter s := by
  unfold nextContent
  split
  · intro token h
    simp at h
  · rename_i b hb
    have hc : s.cursor.rest ≠ [] := by
      intro h
      simp [Cursor.peek?, h] at hb
    split
    · exact shorter_nextMarkup hc
    · rename_i hlt
      apply shorter_emit
      obtain ⟨b', rest, hrest⟩ := List.exists_cons_of_ne_nil hc
      refine Cursor.length_skip_lt hrest ?_
      simp [Cursor.peek?, hrest] at hb
      simpa [hb] using hlt

theorem length_lt_of_closeTagFrom {name : Bytes} {ignoreCase : Bool} {offset : Nat} {bytes : Bytes}
    {stop : Cursor} (h : Cursor.closeTagFrom name ignoreCase offset bytes = some stop) :
    stop.offset + stop.rest.length = offset + bytes.length := by
  fun_induction Cursor.closeTagFrom name ignoreCase offset bytes with
  | case1 => simp at h
  | case2 => simp at h
  | case3 => simp at h; subst h; simp
  | case4 offset a b rest _ _ ih => have := ih h; simp; omega
  | case5 offset a b rest _ ih => have := ih h; simp at *; omega

theorem shorter_nextLiteral (s : TokenStream) (name : Bytes) : (s.nextLiteral name).Shorter s := by
  have hcontent : ({ s with mode := .content } : TokenStream).nextContent.Shorter s :=
    shorter_nextContent { s with mode := .content }
  unfold nextLiteral
  dsimp only
  split
  · rename_i stop hstop
    split
    · rename_i hlt
      apply shorter_emit
      have := length_lt_of_closeTagFrom hstop
      simp only [offset] at hlt
      omega
    · exact hcontent
  · split
    · exact shorter_fail _ _ _
    · split
      · rename_i hlt
        apply shorter_emit
        cases hr : s.cursor.rest with
        | nil => simp [offset, Cursor.skip, hr] at hlt
        | cons b rest => rw [← hr]; exact Cursor.length_skip_lt hr rfl
      · exact hcontent

theorem length_next_lt {s t : TokenStream} {token : Token} (h : s.next = (.ok (some token), t)) :
    t.cursor.rest.length < s.cursor.rest.length := by
  have hs : s.next.Shorter s := by
    unfold next
    split
    · intro token h
      simp at h
    · exact shorter_nextLiteral s _
    · exact shorter_nextContent s
  simpa [h] using hs token (by rw [h])

end Progress

/-- The tokens that are left, up to the error if there is one. -/
def rest (s : TokenStream) : List Token × Option ParseError × TokenStream :=
  match _h : s.next with
  | (.ok none, t) => ([], none, t)
  | (.error e, t) => ([], some e, t)
  | (.ok (some token), t) =>
    let (tokens, error, last) := t.rest
    (token :: tokens, error, last)
termination_by s.cursor.rest.length
decreasing_by exact length_next_lt _h

end TokenStream

end MarkupStream
