import MarkupStream.Proofs.Literal

/-!
The grammar of attributes in strict XML: whitespace, a name, an equals sign with or without whitespace
around it, and a value between two equal quotes. Tags and XML declarations share it. Given the place where
an attribute begins, its written form tells the spans of its parts, and readers take the written form and
nothing else.
-/
namespace MarkupStream

open Byte Cursor

/-- Nothing but whitespace. -/
def Bytes.IsSpace (bytes : Bytes) : Prop := ∀ b ∈ bytes, isWhitespace b

instance : DecidablePred Bytes.IsSpace := fun bytes =>
  inferInstanceAs (Decidable (∀ b ∈ bytes, isWhitespace b))

theorem Bytes.isSpace_nil : Bytes.IsSpace [] := List.forall_mem_nil _

/-- An attribute as it is written, with the whitespace in front of it and around its equals sign. -/
structure SpacedAttribute where
  before : Bytes
  name : Bytes
  beforeEquals : Bytes
  afterEquals : Bytes
  quote : UInt8
  value : Bytes
  deriving DecidableEq, Repr

namespace SpacedAttribute

def source (a : SpacedAttribute) : Bytes :=
  a.before ++ (a.name ++ (a.beforeEquals ++ ([equals] ++ (a.afterEquals ++ ([a.quote] ++
    (a.value ++ [a.quote]))))))

/-- Whitespace must stand in front of an attribute, and no value holds the quote around it. -/
structure WellFormed (a : SpacedAttribute) : Prop where
  apart : a.before ≠ []
  before : a.before.IsSpace
  name : a.name.isWellFormedName
  beforeEquals : a.beforeEquals.IsSpace
  afterEquals : a.afterEquals.IsSpace
  quote : isQuote a.quote
  notQuote : a.quote ∉ a.value

instance (a : SpacedAttribute) : Decidable a.WellFormed :=
  decidable_of_iff (a.before ≠ [] ∧ a.before.IsSpace ∧ a.name.isWellFormedName ∧
    a.beforeEquals.IsSpace ∧ a.afterEquals.IsSpace ∧ isQuote a.quote ∧ a.quote ∉ a.value)
    ⟨fun ⟨h₁, h₂, h₃, h₄, h₅, h₆, h₇⟩ => ⟨h₁, h₂, h₃, h₄, h₅, h₆, h₇⟩,
      fun h => ⟨h.1, h.2, h.3, h.4, h.5, h.6, h.7⟩⟩

section Spans

variable (a : SpacedAttribute) (offset : Nat)

/-- The name of an attribute whose whitespace begins at an offset. -/
def nameSpan : Span := .ofLength (offset + a.before.length) a.name.length

/-- The offset of the first quote. -/
def quoteOffset : Nat :=
  (a.nameSpan offset).stop + a.beforeEquals.length + 1 + a.afterEquals.length

def valueSpan : Span := .ofLength (a.quoteOffset offset + 1) a.value.length

/-- The spans of the attribute. -/
def spans : Attribute :=
  ⟨a.nameSpan offset, some ⟨⟨(a.nameSpan offset).stop, a.quoteOffset offset⟩,
    .ofLength (a.quoteOffset offset) (a.value.length + 2), a.valueSpan offset⟩⟩

end Spans

end SpacedAttribute

namespace Cursor

variable {c next : Cursor} {bytes : Bytes}

/-- Reading on without getting further leads nowhere. -/
theorem Reaches.eq_of_offset_le (h : c.Reaches next) (hle : next.offset ≤ c.offset) : next = c := by
  obtain ⟨bytes, hrest, hoffset⟩ := h
  obtain rfl := List.eq_nil_of_length_eq_zero (l := bytes) (by omega)
  exact over_nil.1 ⟨hrest, hoffset⟩

theorem Over.upTo_eq (h : c.Over bytes next) : c.upTo next = .ofLength c.offset bytes.length := by
  rw [upTo, h.offset]
  rfl

/-- Skipping a class of bytes passes over bytes of the class and stops in front of another one. -/
theorem exists_over_skip (c : Cursor) (inClass : UInt8 → Bool) :
    ∃ bytes, c.Over bytes (c.skip inClass) ∧ (∀ b ∈ bytes, inClass b) ∧
      ∀ b, (c.skip inClass).peek? = some b → ¬ inClass b := by
  refine ⟨c.rest.takeWhile inClass, ⟨List.takeWhile_append_dropWhile.symm, rfl⟩,
    List.all_eq_true.1 List.all_takeWhile, ?_⟩
  intro b hb
  have hnot := List.head?_dropWhile_not inClass c.rest
  rw [show (c.rest.dropWhile inClass).head? = some b from hb] at hnot
  exact Bool.eq_false_iff.1 hnot

theorem exists_over_skipWhitespace (c : Cursor) :
    ∃ bytes, c.Over bytes c.skipWhitespace ∧ bytes.IsSpace ∧
      ∀ b, c.skipWhitespace.peek? = some b → ¬ isWhitespace b := c.exists_over_skip _

theorem Over.skipSpace (h : c.Over bytes next) (hbytes : bytes.IsSpace)
    (hnext : ∀ b, next.peek? = some b → ¬ isWhitespace b) : c.skipWhitespace = next :=
  h.skip hbytes hnext

theorem over_of_peek? {b : UInt8} (h : c.peek? = some b) : c.Over [b] (c.advance 1) := by
  obtain ⟨rest, hrest⟩ := List.head?_eq_some_iff.1 h
  refine ⟨?_, ?_⟩
  · rw [rest_advance, hrest]
    rfl
  · rw [advance, hrest]
    rfl

theorem over_of_startsWith (h : c.startsWith bytes) : c.Over bytes (c.advance bytes.length) := by
  obtain ⟨rest, hrest⟩ := List.isPrefixOf_iff_prefix.1 h
  refine ⟨?_, ?_⟩
  · rw [rest_advance, ← hrest, List.drop_left]
  · rw [advance, ← hrest, List.take_left]

theorem exists_over_of_afterName? (h : c.afterName? = some next) :
    ∃ name, c.Over name next ∧ name.isWellFormedName ∧ ∀ b, next.peek? = some b → ¬ isName b := by
  unfold afterName? at h
  split at h
  · rename_i b rest hrest
    split at h
    · rename_i hstart
      obtain rfl := Option.some.inj h
      obtain ⟨name, hover, hall, hnext⟩ := c.exists_over_skip isName
      refine ⟨name, hover, ?_, hnext⟩
      cases name with
      | nil =>
        have hself : c.skip isName = c := over_nil.1 hover
        rw [hself] at hnext
        have hpeek : c.peek? = some b := by rw [peek?, hrest]; rfl
        exact absurd (isName_of_isNameStart hstart) (hnext b hpeek)
      | cons first more =>
        obtain ⟨rfl, -⟩ := List.cons.inj (hrest.symm.trans hover.rest)
        rw [Bytes.isWellFormedName, Bool.and_eq_true]
        exact ⟨hstart, List.all_eq_true.2 fun b hb => hall b (List.mem_cons_of_mem _ hb)⟩
    · cases h
  · cases h

/-- What a search passes over is that which it looks for beginning nowhere in it. -/
theorem exists_over_of_seek? {found : Bytes → Bool} (h : c.seek? found = some next) :
    ∃ bytes, c.Over bytes next ∧
      ∀ tail, tail <:+ bytes → tail ≠ [] → ¬ found (tail ++ next.rest) := by
  obtain ⟨offset, rest⟩ := c
  rw [seek?] at h
  dsimp only at h
  induction rest generalizing offset with
  | nil =>
    rw [seekFrom] at h
    split at h
    · obtain rfl := Option.some.inj h
      exact ⟨[], over_nil.2 rfl, fun tail htail hne => absurd (List.suffix_nil.1 htail) hne⟩
    · cases h
  | cons b rest ih =>
    rw [seekFrom] at h
    split at h
    · obtain rfl := Option.some.inj h
      exact ⟨[], over_nil.2 rfl, fun tail htail hne => absurd (List.suffix_nil.1 htail) hne⟩
    · rename_i hnot
      obtain ⟨bytes, hover, hnone⟩ := ih (offset + 1) h
      refine ⟨b :: bytes, over_cons.2 ⟨⟨offset + 1, rest⟩, ⟨rfl, rfl⟩, hover⟩, ?_⟩
      intro tail htail hne
      rcases List.suffix_cons_iff.1 htail with rfl | htail
      · have hrest : rest = bytes ++ next.rest := hover.rest
        rwa [List.cons_append, ← hrest]
      · exact hnone tail htail hne

theorem exists_over_of_seekByte? {b : UInt8} (h : c.seekByte? b = some next) :
    ∃ bytes, c.Over bytes next ∧ b ∉ bytes := by
  obtain ⟨bytes, hover, hnone⟩ := exists_over_of_seek? h
  refine ⟨bytes, hover, fun hmem => ?_⟩
  obtain ⟨init, more, rfl⟩ := List.append_of_mem hmem
  exact hnone (b :: more) (List.suffix_append init _) (List.cons_ne_nil b more) (beq_iff_eq.2 rfl)

theorem exists_over_of_seekBytes? {pattern : Bytes} (hne : pattern ≠ [])
    (h : c.seekBytes? pattern = some next) : ∃ bytes, c.Over bytes next ∧ ¬ pattern <:+: bytes := by
  obtain ⟨bytes, hover, hnone⟩ := exists_over_of_seek? h
  refine ⟨bytes, hover, ?_⟩
  rintro ⟨init, more, rfl⟩
  rw [List.append_assoc] at hnone
  refine hnone (pattern ++ more) (List.suffix_append init _) (by simp [hne]) ?_
  rw [List.append_assoc]
  exact List.isPrefixOf_iff_prefix.2 (List.prefix_append _ _)

/-- A passage holds a byte just if the byte is found before its end. -/
theorem Over.not_mem_iff {b : UInt8} (h : c.Over bytes next) :
    b ∉ bytes ↔ ∀ found, c.seekByte? b = some found → next.offset ≤ found.offset := by
  refine ⟨fun hb found hfound => h.le_of_seekByte? hb hfound, fun hnone hmem => ?_⟩
  obtain ⟨init, more, rfl, hinit⟩ := List.eq_append_cons_of_mem hmem
  obtain ⟨found, hfirst, hrest⟩ := over_append.1 h
  have hle := hnone found (hfirst.seekByte? hinit hrest.peek?)
  rw [hrest.offset, List.length_cons] at hle
  omega

theorem isSpace_table {b : UInt8} (h : isWhitespace b) : ¬ isName b ∧ ¬ isQuote b :=
  forall_of_table (P := fun b => isWhitespace b → ¬ isName b ∧ ¬ isQuote b) (by decide +kernel) b h

theorem not_isSpace_of_isQuote {b : UInt8} (h : isQuote b) : ¬ isWhitespace b :=
  fun hb => (isSpace_table hb).2 h

/-- Behind whitespace and before something else there is either of them. -/
theorem Over.exists_peek?_of_isSpace {P : UInt8 → Prop} {bytes more : Bytes} {b : UInt8}
    (h : c.Over (bytes ++ b :: more) next) (hbytes : bytes.IsSpace)
    (hspace : ∀ b, isWhitespace b → P b) (hb : P b) : ∃ b, c.peek? = some b ∧ P b := by
  cases bytes with
  | nil => exact ⟨b, h.peek?, hb⟩
  | cons b' rest => exact ⟨b', h.peek?, hspace b' (hbytes b' List.mem_cons_self)⟩

end Cursor

namespace SpacedAttribute

variable {c next : Cursor} {a : SpacedAttribute}

/-- The places between the parts of a written attribute. -/
structure Passed (a : SpacedAttribute) (c first named valued inner close next : Cursor) : Prop where
  before : c.Over a.before first
  name : first.Over a.name named
  operator : named.Over (a.beforeEquals ++ ([equals] ++ a.afterEquals)) valued
  opening : valued.Over [a.quote] inner
  value : inner.Over a.value close
  closing : close.Over [a.quote] next

theorem over_source : c.Over a.source next ↔
    ∃ first named valued inner close, a.Passed c first named valued inner close next := by
  constructor
  · intro h
    obtain ⟨first, hbefore, h⟩ := over_append.1 h
    obtain ⟨named, hname, h⟩ := over_append.1 h
    rw [← List.append_assoc [equals], ← List.append_assoc a.beforeEquals] at h
    obtain ⟨valued, hoperator, h⟩ := over_append.1 h
    obtain ⟨inner, hopening, h⟩ := over_append.1 h
    obtain ⟨close, hvalue, hclosing⟩ := over_append.1 h
    exact ⟨first, named, valued, inner, close, hbefore, hname, hoperator, hopening, hvalue, hclosing⟩
  · rintro ⟨first, named, valued, inner, close, hbefore, hname, hoperator, hopening, hvalue, hclosing⟩
    rw [source, ← List.append_assoc [equals], ← List.append_assoc a.beforeEquals]
    refine over_append.2 ⟨first, hbefore, over_append.2 ⟨named, hname, ?_⟩⟩
    refine over_append.2 ⟨valued, hoperator, over_append.2 ⟨inner, hopening, ?_⟩⟩
    exact over_append.2 ⟨close, hvalue, hclosing⟩

/-- An attribute begins with whitespace. -/
theorem exists_peek?_of_source (ha : a.WellFormed) {more : Bytes} (h : c.Over (a.source ++ more) next) :
    ∃ b, c.peek? = some b ∧ isWhitespace b := by
  obtain ⟨b, spaces, hspaces⟩ := List.exists_cons_of_ne_nil ha.apart
  rw [source, hspaces] at h
  exact ⟨b, Over.peek? h, ha.before b (hspaces ▸ List.mem_cons_self)⟩

namespace Passed

variable {first named valued inner close : Cursor}

theorem nameSpan_eq (h : a.Passed c first named valued inner close next) :
    a.nameSpan c.offset = first.upTo named := by
  rw [h.name.upTo_eq, h.before.offset]
  rfl

theorem quoteOffset_eq (h : a.Passed c first named valued inner close next) :
    a.quoteOffset c.offset = valued.offset := by
  rw [quoteOffset, h.nameSpan_eq, h.operator.offset]
  simp only [upTo, List.length_append, List.length_singleton]
  omega

theorem valueSpan_eq (h : a.Passed c first named valued inner close next) :
    a.valueSpan c.offset = inner.upTo close := by
  rw [valueSpan, h.quoteOffset_eq, h.value.upTo_eq, h.opening.offset]
  rfl

theorem spans_eq (h : a.Passed c first named valued inner close next) :
    a.spans c.offset =
      ⟨first.upTo named, some ⟨named.upTo valued, valued.upTo next, inner.upTo close⟩⟩ := by
  have houter : valued.upTo next = .ofLength valued.offset (a.value.length + 2) := by
    have hover : valued.Over ([a.quote] ++ (a.value ++ [a.quote])) next :=
      over_append.2 ⟨inner, h.opening, over_append.2 ⟨close, h.value, h.closing⟩⟩
    rw [hover.upTo_eq]
    congr 1
    simp only [List.length_append, List.length_singleton]
    omega
  rw [spans, h.nameSpan_eq, h.quoteOffset_eq, h.valueSpan_eq, houter]
  rfl

end Passed

section Reading

/-- What a reader finds behind the whitespace in front of an attribute: a name, an equals sign that may have
whitespace around it, and a quote that is closed by another one. -/
structure Found (first named valued close : Cursor) (quote : UInt8) : Prop where
  name : first.afterName? = some named
  operator : named.skipWhitespace.peek? = some equals
  behind : (named.skipWhitespace.advance 1).skipWhitespace = valued
  opening : valued.peek? = some quote
  quoted : isQuote quote
  closing : (valued.advance 1).seekByte? quote = some close

variable {first named valued inner close : Cursor} {quote : UInt8} {before : Bytes}

/-- What is found has a written form. -/
theorem Found.exists_passed (h : Found first named valued close quote) (hover : c.Over before first)
    (hapart : before ≠ []) (hbefore : before.IsSpace) :
    ∃ a : SpacedAttribute, a.WellFormed ∧
      a.Passed c first named valued (valued.advance 1) close (close.advance 1) := by
  obtain ⟨name, hname, hwellFormed, -⟩ := exists_over_of_afterName? h.name
  obtain ⟨beforeEquals, hbeforeEquals, hspaceBefore, -⟩ := named.exists_over_skipWhitespace
  have hequals := over_of_peek? h.operator
  obtain ⟨afterEquals, hafterEquals, hspaceAfter, -⟩ :=
    (named.skipWhitespace.advance 1).exists_over_skipWhitespace
  obtain ⟨value, hvalue, hnotQuote⟩ := exists_over_of_seekByte? h.closing
  have hclosing := over_of_peek? (peek?_of_seekByte? h.closing)
  rw [h.behind] at hafterEquals
  refine ⟨⟨before, name, beforeEquals, afterEquals, quote, value⟩,
    ⟨hapart, hbefore, hwellFormed, hspaceBefore, hspaceAfter, h.quoted, hnotQuote⟩,
    hover, hname, ?_, over_of_peek? h.opening, hvalue, hclosing⟩
  exact over_append.2 ⟨_, hbeforeEquals, over_append.2 ⟨_, hequals, hafterEquals⟩⟩

/-- What has a written form is found. -/
theorem Passed.found (h : a.Passed c first named valued inner close next) (ha : a.WellFormed) :
    Found first named valued close a.quote ∧ c.skipWhitespace = first ∧ valued.advance 1 = inner ∧
      close.advance 1 = next := by
  obtain ⟨assign, hbeforeEquals, hoperator⟩ := over_append.1 h.operator
  obtain ⟨behind, hequals, hafterEquals⟩ := over_append.1 hoperator
  have hinner : valued.advance 1 = inner := h.opening.advance
  have hbehind : assign.advance 1 = behind := hequals.advance
  obtain ⟨b, hb, hnotName⟩ := Over.exists_peek?_of_isSpace (P := fun b => ¬ isName b) h.operator
    ha.beforeEquals (fun b hb => (isSpace_table hb).1) (by decide)
  obtain ⟨b', hb', hstart⟩ := h.name.exists_peek?_of_name ha.name
  have hfirst : c.skipWhitespace = first := by
    refine h.before.skipSpace ha.before fun b hb => ?_
    rw [hb'] at hb
    obtain rfl := Option.some.inj hb
    exact (isNameStart_table hstart).1
  have hassign : named.skipWhitespace = assign := by
    refine hbeforeEquals.skipSpace ha.beforeEquals fun b hb => ?_
    rw [hequals.peek?] at hb
    obtain rfl := Option.some.inj hb
    decide
  have hvalued : behind.skipWhitespace = valued := by
    refine hafterEquals.skipSpace ha.afterEquals fun b hb => ?_
    rw [h.opening.peek?] at hb
    obtain rfl := Option.some.inj hb
    exact not_isSpace_of_isQuote ha.quote
  refine ⟨⟨h.name.afterName? ha.name hb hnotName, ?_, ?_, h.opening.peek?, ha.quote, ?_⟩, hfirst, hinner,
    h.closing.advance⟩
  · rw [hassign, hequals.peek?]
  · rw [hassign, hbehind, hvalued]
  · rw [hinner]
    exact h.value.seekByte? ha.notQuote h.closing.peek?

end Reading

end SpacedAttribute

end MarkupStream
