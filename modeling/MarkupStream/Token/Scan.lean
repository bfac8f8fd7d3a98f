import MarkupStream.Tag.Scan
import MarkupStream.Token

/-!
The construct at a `<`. Each reader takes the cursor in front of the `<` and gives back the token with
the cursor behind it, or the fault that keeps the bytes from being that construct. Whether a fault
is an error or makes the bytes text is not decided here.
-/
namespace MarkupStream.Token

open Byte

/-- A construct that runs from an opening of fixed length to the first terminator after it. -/
def readDelimited (construct : Construct) (make : Span → Span → Token) (opening : Nat)
    (terminator : Bytes) (c : Cursor) : Except Refusal (Token × Cursor) :=
  let content := c.advance opening
  match content.seekBytes? terminator with
  | some stop =>
    let next := stop.advance terminator.length
    .ok (make (c.upTo next) (content.upTo stop), next)
  | none => content.refuse (.unterminated construct c.offset)

def readComment : Cursor → Except Refusal (Token × Cursor) :=
  readDelimited .comment comment 4 (Bytes.ofString "-->")

def readCData : Cursor → Except Refusal (Token × Cursor) :=
  readDelimited .cdata cdata 9 (Bytes.ofString "]]>")

/-- The inside of a quoted literal and the cursor behind it. A quote that never closes is not read. -/
def readQuoted? (c : Cursor) : Option (Span × Cursor) :=
  match c.peek? with
  | some b =>
    if isQuote b then
      let inner := c.advance 1
      (inner.seekByte? b).map fun close => (inner.upTo close, close.advance 1)
    else none
  | none => none

/-- A quoted literal ends at the next quote of its kind. -/
theorem readQuoted?_eq_some_iff {c next : Cursor} {value : Span} :
    readQuoted? c = some (value, next) ↔
      ∃ quote close, c.peek? = some quote ∧ isQuote quote ∧
        (c.advance 1).seekByte? quote = some close ∧
        value = (c.advance 1).upTo close ∧ next = close.advance 1 := by
  constructor
  · intro h
    rw [readQuoted?] at h
    split at h
    · rename_i quote hopening
      split at h
      · rename_i hquote
        obtain ⟨close, hclosing, heq⟩ := Option.map_eq_some_iff.1 h
        obtain ⟨rfl, rfl⟩ := Prod.mk.inj heq
        exact ⟨quote, close, hopening, hquote, hclosing, rfl, rfl⟩
      · cases h
    · cases h
  · rintro ⟨quote, close, hopening, hquote, hclosing, rfl, rfl⟩
    rw [readQuoted?, hopening]
    dsimp only
    rw [if_pos hquote, hclosing]
    rfl

/-- A quoted literal that may be missing. -/
def readOptionalQuoted (c : Cursor) : Option Span × Cursor :=
  match readQuoted? c with
  | some (span, next) => (some span, next)
  | none => (none, c)

/-- The external identifier of a DOCTYPE: the keyword, the public and the system literal. -/
def readExternalId (c : Cursor) : Option Span × Option Span × Option Span × Cursor :=
  let afterKeyword := c.advance 6
  if c.startsWithIgnoringCase (Bytes.ofString "PUBLIC") then
    let (publicId, c₁) := readOptionalQuoted afterKeyword.skipWhitespace
    let (systemId, c₂) := readOptionalQuoted c₁.skipWhitespace
    (some (c.upTo afterKeyword), publicId, systemId, c₂)
  else if c.startsWithIgnoringCase (Bytes.ofString "SYSTEM") then
    let (systemId, c₁) := readOptionalQuoted afterKeyword.skipWhitespace
    (some (c.upTo afterKeyword), none, systemId, c₁)
  else (none, none, none, c)

/-- Whether the bytes start with the bracket that ends an internal subset. -/
def endsSubset (bytes : Bytes) : Bool :=
  bytes.head? == some 0x5D && (bytes.tail.dropWhile isWhitespace).head? == some greaterThan

/-- The internal subset, if a bracket opens one here. One that does not end is no subset at all. -/
def readSubset? (c : Cursor) : Option (Option Span × Cursor) :=
  if c.peek? == some 0x5B then
    let inner := c.advance 1
    (inner.seek? endsSubset).map fun close => (some (inner.upTo close), close.advance 1)
  else some (none, c)

theorem cases_readSubset {c next : Cursor} {subset : Option Span}
    (h : readSubset? c = some (subset, next)) :
    (∃ close, (c.advance 1).seek? endsSubset = some close ∧ next = close.advance 1 ∧
      subset = some ((c.advance 1).upTo close)) ∨ (next = c ∧ subset = none) := by
  rw [readSubset?] at h
  split at h
  · obtain ⟨close, hclose, heq⟩ := Option.map_eq_some_iff.1 h
    obtain ⟨rfl, rfl⟩ := Prod.mk.inj heq
    exact .inl ⟨close, hclose, rfl, rfl⟩
  · obtain ⟨rfl, rfl⟩ := Prod.mk.inj (Option.some.inj h)
    exact .inr ⟨rfl, rfl⟩

/-- A DOCTYPE takes whatever else stands before its `>`. -/
def readDoctype (c : Cursor) : Except Refusal (Token × Cursor) :=
  let keyword := c.advance 2
  let afterKeyword := c.advance 9
  let rootStart := afterKeyword.skipWhitespace
  let rootEnd := (rootStart.afterLooseName? [0x5B]).getD rootStart
  let (kind, publicId, systemId, afterId) := readExternalId rootEnd.skipWhitespace
  let tail := afterId.skipWhitespace
  match readSubset? tail with
  | none => (tail.advance 1).refuse (.unterminated .doctype c.offset)
  | some (internalSubset, afterSubset) =>
    match afterSubset.seekByte? greaterThan with
    | none => afterSubset.refuse (.unterminated .doctype c.offset)
    | some close =>
      let next := close.advance 1
      .ok (doctype ⟨c.upTo next, keyword.upTo afterKeyword, rootStart.upTo? rootEnd, kind, publicId,
        systemId, internalSubset⟩, next)

/-- One pseudo-attribute of an XML declaration: its name, its value, and the cursor behind it. -/
def readPseudoAttribute? (c : Cursor) : Option (Bytes × Span × Cursor) :=
  match c.skipWhitespace.afterName? with
  | none => none
  | some named =>
    let assign := named.skipWhitespace
    if c.offset < c.skipWhitespace.offset && assign.peek? == some equals then
      (readQuoted? (assign.advance 1).skipWhitespace).map fun (value, next) =>
        (c.skipWhitespace.bytesUpTo named, value, next)
    else none

theorem exists_of_readPseudoAttribute {c next : Cursor} {name : Bytes} {value : Span}
    (h : readPseudoAttribute? c = some (name, value, next)) :
    ∃ named, c.skipWhitespace.afterName? = some named ∧ c.offset < c.skipWhitespace.offset ∧
      named.skipWhitespace.peek? = some equals ∧
      readQuoted? (named.skipWhitespace.advance 1).skipWhitespace = some (value, next) ∧
      name = c.skipWhitespace.bytesUpTo named := by
  rw [readPseudoAttribute?] at h
  split at h
  · cases h
  · rename_i named hnamed
    dsimp only at h
    split at h
    · rename_i hcondition
      obtain ⟨hapart, hoperator⟩ := Bool.and_eq_true_iff.1 hcondition
      obtain ⟨⟨inside, last⟩, hquoted, heq⟩ := Option.map_eq_some_iff.1 h
      simp only [Prod.mk.injEq] at heq
      obtain ⟨rfl, rfl, rfl⟩ := heq
      exact ⟨named, hnamed, of_decide_eq_true hapart, beq_iff_eq.1 hoperator, hquoted, rfl⟩
    · cases h

theorem length_readQuoted_lt {c next : Cursor} {span : Span}
    (h : readQuoted? c = some (span, next)) : next.rest.length < c.rest.length := by
  obtain ⟨quote, close, hopening, -, hclose, -, rfl⟩ := readQuoted?_eq_some_iff.1 h
  have hpos : 0 < c.rest.length := List.length_pos_of_mem (List.mem_of_head? hopening)
  have hinner := Cursor.length_seek_le hclose
  simp only [Cursor.rest_advance, List.length_drop] at hinner ⊢
  omega

theorem length_readPseudoAttribute_lt {c next : Cursor} {name : Bytes} {value : Span}
    (h : readPseudoAttribute? c = some (name, value, next)) :
    next.rest.length < c.rest.length := by
  obtain ⟨named, hnamed, -, -, hquoted, -⟩ := exists_of_readPseudoAttribute h
  have h1 := length_readQuoted_lt hquoted
  have h2 := (named.skipWhitespace.advance 1).rest_skipWhitespace_le
  have h3 := named.rest_skipWhitespace_le
  have h4 := Cursor.length_afterName_lt hnamed
  have h5 := c.rest_skipWhitespace_le
  simp only [Cursor.rest_advance, List.length_drop] at h2
  omega

/-- The pseudo-attributes from a cursor on, as far as they are well formed, and whether that is to the
end. -/
def readPseudoAttributes (c : Cursor) : List (Bytes × Span) × Bool :=
  if c.skipWhitespace.rest.isEmpty then ([], true)
  else
    match _h : readPseudoAttribute? c with
    | none => ([], false)
    | some (name, value, next) =>
      let (found, complete) := readPseudoAttributes next
      ((name, value) :: found, complete)
termination_by c.rest.length
decreasing_by exact length_readPseudoAttribute_lt _h

/-- The names that an XML declaration may use. -/
def pseudoNames : List Bytes := ["version", "encoding", "standalone"].map Bytes.ofString

/-- The value that a name was given last. -/
def lastValue? (found : List (Bytes × Span)) (name : String) : Option Span :=
  (found.reverse.find? (·.1 == Bytes.ofString name)).map (·.2)

/-- An XML declaration, from the cursor behind its keyword, the one in front of its `?>`, and the
pseudo-attributes that are found between them, with whether that is to the end. Strict XML wants it at the
very start of the document, well formed, and with a version. -/
def makeDeclaration (dialect : Dialect) (c named stop : Cursor) (found : List (Bytes × Span))
    (complete : Bool) : Except Refusal (Token × Cursor) :=
  let next := stop.advance 2
  let version := lastValue? found "version"
  let wellFormed := complete && found.all (pseudoNames.contains ·.1) && version.isSome
  if dialect.isStrict && !(c.offset == 0 && wellFormed) then
    named.refuse (.misplacedDeclaration c.offset)
  else
    .ok (xmlDeclaration ⟨c.upTo next, (c.advance 2).upTo named, version,
      lastValue? found "encoding", lastValue? found "standalone"⟩, next)

/-- An XML declaration, from the cursor behind its keyword and the one in front of its `?>`. -/
def readDeclaration (dialect : Dialect) (c named stop : Cursor) : Except Refusal (Token × Cursor) :=
  let (found, complete) := readPseudoAttributes ⟨named.offset, named.bytesUpTo stop⟩
  makeDeclaration dialect c named stop found complete

/-- A processing instruction, from the cursor behind its target, or what is read as an XML declaration. -/
def readBehindTarget (dialect : Dialect) (c named : Cursor) (isDeclaration : Bool)
    (declaration : Cursor → Except Refusal (Token × Cursor)) : Except Refusal (Token × Cursor) :=
  match named.seekBytes? (Bytes.ofString "?>") with
  | none =>
    named.refuse (.unterminated (if isDeclaration then .xmlDeclaration else .instruction) c.offset)
  | some stop =>
    if isDeclaration then declaration stop
    else
      let content := named.skipWhitespace
      if dialect.isStrict && named.offset == content.offset && content.offset != stop.offset then
        content.refuse (.unseparatedContent content.offset)
      else
        let next := stop.advance 2
        .ok (instruction (c.upTo next) ((c.advance 2).upTo named) (content.upTo? stop), next)

/-- A processing instruction, or the XML declaration when its target is `xml`. -/
def readInstruction (dialect : Dialect) (c : Cursor) : Except Refusal (Token × Cursor) :=
  let target := c.advance 2
  match target.afterName? with
  | none => target.refuse (.invalidName target.offset)
  | some named =>
    readBehindTarget dialect c named
      (Bytes.sameName dialect.ignoresCase (target.bytesUpTo named) (Bytes.ofString "xml"))
      (readDeclaration dialect c named)

/-- A close tag. In HTML anything may stand between its name and its `>`. -/
def readCloseTag (dialect : Dialect) (c : Cursor) : Except Refusal (Token × Cursor) :=
  let target := c.advance 2
  match target.afterName? with
  | none => target.refuse (.invalidName target.offset)
  | some named =>
    let tail := named.skipWhitespace
    let finish (whitespace : Option Span) (close : Cursor) :=
      (closeTag ⟨c.upTo named, target.upTo named, whitespace, close.upTo (close.advance 1)⟩,
        close.advance 1)
    match tail.peek? with
    | none => tail.refuse (.unterminated .closeTag c.offset)
    | some b =>
      if b == greaterThan then .ok (finish (named.upTo? tail) tail)
      else if dialect.isStrict then tail.refuse (.malformed .closeTagContent tail.offset)
      else
        match tail.seekByte? greaterThan with
        | some close => .ok (finish (some (named.upTo close)) close)
        | none => tail.refuse (.unterminated .closeTag c.offset)

def readOpenTag (dialect : Dialect) (c : Cursor) : Except Refusal (Token × Cursor) :=
  let target := c.advance 1
  match target.afterName? with
  | none => c.refuse (.invalidName target.offset)
  | some named =>
    match Tag.readParts dialect c.offset false named with
    | .error refusal => .error refusal
    | .ok (parts, close, selfClosing, next) =>
      .ok (openTag ⟨c.upTo named, target.upTo named, parts, close, selfClosing⟩, next)

/-- The construct at a `<`, told by the bytes after it. -/
def readMarkup (dialect : Dialect) (c : Cursor) : Except Refusal (Token × Cursor) :=
  if c.startsWith (Bytes.ofString "<!--") then readComment c
  else if c.startsWith (Bytes.ofString "<![CDATA[") then readCData c
  else if c.startsWithIgnoringCase (Bytes.ofString "<!DOCTYPE") then readDoctype c
  else if c.startsWith (Bytes.ofString "<?") then readInstruction dialect c
  else if c.startsWith (Bytes.ofString "</") then readCloseTag dialect c
  else readOpenTag dialect c

section Success

/-!
What a reader has found where it succeeds, said once for each of them. What is proved of the tokens that
are read starts from here and not from the readers.
-/

variable {dialect : Dialect} {c next : Cursor} {token : Token}

theorem exists_of_readDelimited {construct : Construct} {make : Span → Span → Token} {opening : Nat}
    {terminator : Bytes} (h : readDelimited construct make opening terminator c = .ok (token, next)) :
    ∃ stop, (c.advance opening).seekBytes? terminator = some stop ∧
      next = stop.advance terminator.length ∧
      token = make (c.upTo next) ((c.advance opening).upTo stop) := by
  rw [readDelimited] at h
  dsimp only at h
  split at h
  · rename_i stop hstop
    obtain ⟨rfl, rfl⟩ := Prod.mk.inj (Except.ok.inj h)
    exact ⟨stop, hstop, rfl, rfl⟩
  · cases h

theorem exists_of_readDoctype (h : readDoctype c = .ok (token, next)) :
    ∃ rootEnd afterId subset afterSubset close,
      rootEnd = ((c.advance 9).skipWhitespace.afterLooseName? [0x5B]).getD (c.advance 9).skipWhitespace ∧
      afterId = (readExternalId rootEnd.skipWhitespace).2.2.2 ∧
      readSubset? afterId.skipWhitespace = some (subset, afterSubset) ∧
      afterSubset.seekByte? greaterThan = some close ∧ next = close.advance 1 ∧
      token = doctype ⟨c.upTo next, (c.advance 2).upTo (c.advance 9),
        (c.advance 9).skipWhitespace.upTo? rootEnd, (readExternalId rootEnd.skipWhitespace).1,
        (readExternalId rootEnd.skipWhitespace).2.1, (readExternalId rootEnd.skipWhitespace).2.2.1,
        subset⟩ := by
  rw [readDoctype] at h
  dsimp only at h
  split at h
  · cases h
  · rename_i subset afterSubset hsubset
    split at h
    · cases h
    · rename_i close hclose
      obtain ⟨rfl, rfl⟩ := Prod.mk.inj (Except.ok.inj h)
      exact ⟨_, _, subset, afterSubset, close, rfl, rfl, hsubset, hclose, rfl, rfl⟩

theorem makeDeclaration_eq_ok {named stop : Cursor} {found : List (Bytes × Span)} {complete : Bool}
    (h : makeDeclaration dialect c named stop found complete = .ok (token, next)) :
    (dialect.isStrict → c.offset = 0 ∧ complete ∧ found.all (pseudoNames.contains ·.1) ∧
      (lastValue? found "version").isSome) ∧
    next = stop.advance 2 ∧
    token = xmlDeclaration ⟨c.upTo next, (c.advance 2).upTo named, lastValue? found "version",
      lastValue? found "encoding", lastValue? found "standalone"⟩ := by
  rw [makeDeclaration] at h
  split at h
  · cases h
  · rename_i hadmitted
    obtain ⟨rfl, rfl⟩ := Prod.mk.inj (Except.ok.inj h)
    refine ⟨fun hstrict => ?_, rfl, rfl⟩
    simp only [hstrict, Bool.true_and, Bool.not_eq_true, Bool.not_eq_false', Bool.and_eq_true, beq_iff_eq,
      and_assoc] at hadmitted
    exact hadmitted

theorem exists_of_readDeclaration {named stop : Cursor}
    (h : readDeclaration dialect c named stop = .ok (token, next)) :
    ∃ found complete, readPseudoAttributes ⟨named.offset, named.bytesUpTo stop⟩ = (found, complete) ∧
      (dialect.isStrict → c.offset = 0 ∧ complete ∧ found.all (pseudoNames.contains ·.1) ∧
        (lastValue? found "version").isSome) ∧
      next = stop.advance 2 ∧
      token = xmlDeclaration ⟨c.upTo next, (c.advance 2).upTo named, lastValue? found "version",
        lastValue? found "encoding", lastValue? found "standalone"⟩ :=
  ⟨_, _, rfl, makeDeclaration_eq_ok h⟩

/-- What a target is followed by runs up to a `?>`, be it read as a declaration or not. -/
theorem exists_of_readBehindTarget {named : Cursor} {isDeclaration : Bool}
    {declaration : Cursor → Except Refusal (Token × Cursor)}
    (h : readBehindTarget dialect c named isDeclaration declaration = .ok (token, next)) :
    ∃ stop, named.seekBytes? (Bytes.ofString "?>") = some stop ∧
      ((isDeclaration ∧ declaration stop = .ok (token, next)) ∨
      (¬ isDeclaration ∧ next = stop.advance 2 ∧ token = instruction (c.upTo next)
        ((c.advance 2).upTo named) (named.skipWhitespace.upTo? stop))) := by
  rw [readBehindTarget] at h
  split at h
  · cases h
  · rename_i stop hstop
    refine ⟨stop, hstop, ?_⟩
    split at h
    · rename_i hxml
      exact .inl ⟨hxml, h⟩
    · rename_i hother
      dsimp only at h
      split at h
      · cases h
      · obtain ⟨rfl, rfl⟩ := Prod.mk.inj (Except.ok.inj h)
        exact .inr ⟨hother, rfl, rfl⟩

/-- An instruction with the target `xml` is a declaration. -/
theorem exists_of_readInstruction (h : readInstruction dialect c = .ok (token, next)) :
    ∃ named stop, (c.advance 2).afterName? = some named ∧
      named.seekBytes? (Bytes.ofString "?>") = some stop ∧
      ((Bytes.sameName dialect.ignoresCase ((c.advance 2).bytesUpTo named) (Bytes.ofString "xml") ∧
        readDeclaration dialect c named stop = .ok (token, next)) ∨
      (¬ Bytes.sameName dialect.ignoresCase ((c.advance 2).bytesUpTo named) (Bytes.ofString "xml") ∧
        next = stop.advance 2 ∧ token = instruction (c.upTo next) ((c.advance 2).upTo named)
          (named.skipWhitespace.upTo? stop))) := by
  rw [readInstruction] at h
  split at h
  · cases h
  · rename_i named hnamed
    obtain ⟨stop, hstop, hread⟩ := exists_of_readBehindTarget h
    exact ⟨named, stop, hnamed, hstop, hread⟩

/-- A close tag ends at its `>`, which stands behind whitespace at most, or in HTML behind anything. -/
theorem exists_of_readCloseTag (h : readCloseTag dialect c = .ok (token, next)) :
    ∃ named whitespace close, (c.advance 2).afterName? = some named ∧ next = close.advance 1 ∧
      token = closeTag ⟨c.upTo named, (c.advance 2).upTo named, whitespace, close.upTo next⟩ ∧
      ((close = named.skipWhitespace ∧ close.peek? = some greaterThan ∧ whitespace = named.upTo? close) ∨
      (dialect = .html ∧ named.skipWhitespace.seekByte? greaterThan = some close ∧
        whitespace = some (named.upTo close))) := by
  rw [readCloseTag] at h
  dsimp only at h
  split at h
  · cases h
  · rename_i named hnamed
    split at h
    · cases h
    · rename_i b hb
      split at h
      · rename_i hclose
        obtain ⟨rfl, rfl⟩ := Prod.mk.inj (Except.ok.inj h)
        rw [beq_iff_eq.1 hclose] at hb
        exact ⟨named, _, _, hnamed, rfl, rfl, .inl ⟨rfl, hb, rfl⟩⟩
      · split at h
        · cases h
        · rename_i hloose
          split at h
          · rename_i close hclose
            obtain ⟨rfl, rfl⟩ := Prod.mk.inj (Except.ok.inj h)
            have hhtml : dialect = .html := by cases dialect <;> simp_all [Dialect.isStrict]
            exact ⟨named, _, close, hnamed, rfl, rfl, .inr ⟨hhtml, hclose, rfl⟩⟩
          · cases h

theorem exists_of_readOpenTag (h : readOpenTag dialect c = .ok (token, next)) :
    ∃ named parts close selfClosing, (c.advance 1).afterName? = some named ∧
      Tag.readParts dialect c.offset false named = .ok (parts, close, selfClosing, next) ∧
      token = openTag ⟨c.upTo named, (c.advance 1).upTo named, parts, close, selfClosing⟩ := by
  rw [readOpenTag] at h
  split at h
  · cases h
  · rename_i named hnamed
    split at h
    · cases h
    · rename_i parts close selfClosing last hparts
      obtain ⟨rfl, rfl⟩ := Prod.mk.inj (Except.ok.inj h)
      exact ⟨named, parts, close, selfClosing, hnamed, hparts, rfl⟩

end Success

section Progress

/-!
Every construct is at least one byte long.
-/

theorem length_advance_lt {c : Cursor} (hc : c.rest ≠ []) {n : Nat} (hn : 0 < n) :
    (c.advance n).rest.length < c.rest.length := by
  have := List.length_pos_iff.2 hc
  simp
  omega

theorem length_readDelimited_lt {construct : Construct} {make : Span → Span → Token}
    {opening : Nat} {terminator : Bytes} {c next : Cursor} {token : Token} (hc : c.rest ≠ [])
    (hn : 0 < opening) (h : readDelimited construct make opening terminator c = .ok (token, next)) :
    next.rest.length < c.rest.length := by
  obtain ⟨stop, hstop, rfl, -⟩ := exists_of_readDelimited h
  have h1 := Cursor.length_seek_le hstop
  have h2 := length_advance_lt hc hn
  have h3 : (stop.advance terminator.length).rest.length ≤ stop.rest.length := by simp
  omega

theorem length_readOptionalQuoted_le (c : Cursor) :
    (readOptionalQuoted c).2.rest.length ≤ c.rest.length := by
  unfold readOptionalQuoted
  split
  · exact Nat.le_of_lt (length_readQuoted_lt (by assumption))
  · exact Nat.le_refl _

theorem length_readExternalId_le (c : Cursor) :
    (readExternalId c).2.2.2.rest.length ≤ c.rest.length := by
  have h0 : (c.advance 6).rest.length ≤ c.rest.length := by simp
  have h1 := (c.advance 6).rest_skipWhitespace_le
  have h2 := length_readOptionalQuoted_le (c.advance 6).skipWhitespace
  unfold readExternalId
  dsimp only
  split
  · have h3 := (readOptionalQuoted (c.advance 6).skipWhitespace).2.rest_skipWhitespace_le
    have h4 := length_readOptionalQuoted_le
      (readOptionalQuoted (c.advance 6).skipWhitespace).2.skipWhitespace
    dsimp only
    omega
  · split
    · dsimp only
      omega
    · exact Nat.le_refl _

theorem length_readSubset_le {c next : Cursor} {subset : Option Span}
    (h : readSubset? c = some (subset, next)) : next.rest.length ≤ c.rest.length := by
  rcases cases_readSubset h with ⟨close, hclose, rfl, -⟩ | ⟨rfl, -⟩
  · have hinner := Cursor.length_seek_le hclose
    simp only [Cursor.rest_advance, List.length_drop] at hinner ⊢
    omega
  · exact Nat.le_refl _

theorem length_getD_afterLooseName_le (c : Cursor) (stops : Bytes) :
    ((c.afterLooseName? stops).getD c).rest.length ≤ c.rest.length := by
  cases h : c.afterLooseName? stops with
  | none => simp
  | some next => simpa using Nat.le_of_lt (Cursor.length_afterLooseName_lt h)

theorem length_readDoctype_lt {c next : Cursor} {token : Token} (hc : c.rest ≠ [])
    (h : readDoctype c = .ok (token, next)) : next.rest.length < c.rest.length := by
  obtain ⟨rootEnd, afterId, subset, afterSubset, close, hroot, hid, hsubset, hclose, rfl, -⟩ :=
    exists_of_readDoctype h
  have h1 := length_advance_lt hc (n := 9) (by decide)
  have h2 := (c.advance 9).rest_skipWhitespace_le
  have h3 : rootEnd.rest.length ≤ (c.advance 9).skipWhitespace.rest.length := by
    rw [hroot]
    exact length_getD_afterLooseName_le _ _
  have h4 := rootEnd.rest_skipWhitespace_le
  have h5 : afterId.rest.length ≤ rootEnd.skipWhitespace.rest.length := by
    rw [hid]
    exact length_readExternalId_le _
  have h6 := afterId.rest_skipWhitespace_le
  have h7 := length_readSubset_le hsubset
  have h8 := Cursor.length_seek_le hclose
  have h9 : (close.advance 1).rest.length ≤ close.rest.length := by simp
  omega

theorem length_readBehindTarget_lt {dialect : Dialect} {c named next : Cursor} {token : Token}
    {isDeclaration : Bool} {declaration : Cursor → Except Refusal (Token × Cursor)} (hc : c.rest ≠ [])
    (hnamed : (c.advance 2).afterName? = some named)
    (hdeclaration : ∀ stop, declaration stop = .ok (token, next) → next = stop.advance 2)
    (h : readBehindTarget dialect c named isDeclaration declaration = .ok (token, next)) :
    next.rest.length < c.rest.length := by
  obtain ⟨stop, hstop, hread⟩ := exists_of_readBehindTarget h
  have hnext : next = stop.advance 2 := by
    rcases hread with ⟨-, hread⟩ | ⟨-, hnext, -⟩
    · exact hdeclaration stop hread
    · exact hnext
  have h1 := length_advance_lt hc (n := 2) (by decide)
  have h2 := Cursor.length_afterName_lt hnamed
  have h3 := Cursor.length_seek_le hstop
  have h4 : (stop.advance 2).rest.length ≤ stop.rest.length := by simp
  rw [hnext]
  omega

theorem length_readInstruction_lt {dialect : Dialect} {c next : Cursor} {token : Token}
    (hc : c.rest ≠ []) (h : readInstruction dialect c = .ok (token, next)) :
    next.rest.length < c.rest.length := by
  rw [readInstruction] at h
  split at h
  · cases h
  · rename_i named hnamed
    exact length_readBehindTarget_lt hc hnamed (fun stop hread => (makeDeclaration_eq_ok hread).2.1) h

theorem length_readCloseTag_lt {dialect : Dialect} {c next : Cursor} {token : Token}
    (hc : c.rest ≠ []) (h : readCloseTag dialect c = .ok (token, next)) :
    next.rest.length < c.rest.length := by
  obtain ⟨named, _, close, hnamed, rfl, -, hclose⟩ := exists_of_readCloseTag h
  have h1 := length_advance_lt hc (n := 2) (by decide)
  have h2 := Cursor.length_afterName_lt hnamed
  have h3 := named.rest_skipWhitespace_le
  have h4 : close.rest.length ≤ named.skipWhitespace.rest.length := by
    rcases hclose with ⟨rfl, -, -⟩ | ⟨-, hseek, -⟩
    · exact Nat.le_refl _
    · exact Cursor.length_seek_le hseek
  have h5 : (close.advance 1).rest.length ≤ close.rest.length := by simp
  omega

theorem length_readOpenTag_lt {dialect : Dialect} {c next : Cursor} {token : Token}
    (hc : c.rest ≠ []) (h : readOpenTag dialect c = .ok (token, next)) :
    next.rest.length < c.rest.length := by
  obtain ⟨named, parts, close, selfClosing, hnamed, hparts, -⟩ := exists_of_readOpenTag h
  have h1 := length_advance_lt hc (n := 1) (by decide)
  have h2 := Cursor.length_afterName_lt hnamed
  have h3 := Tag.length_readParts_le hparts
  dsimp only at h3
  omega

theorem length_readMarkup_lt {dialect : Dialect} {c next : Cursor} {token : Token}
    (hc : c.rest ≠ []) (h : readMarkup dialect c = .ok (token, next)) :
    next.rest.length < c.rest.length := by
  unfold readMarkup at h
  split at h
  · exact length_readDelimited_lt hc (by decide) h
  split at h
  · exact length_readDelimited_lt hc (by decide) h
  split at h
  · exact length_readDoctype_lt hc h
  split at h
  · exact length_readInstruction_lt hc h
  split at h
  · exact length_readCloseTag_lt hc h
  exact length_readOpenTag_lt hc h

end Progress

end MarkupStream.Token
