import MarkupStream.Markup
import MarkupStream.Proofs.StrictReading

/-!
Passages: the bytes between two cursors. A reader that is given the bytes in front of it in advance ends
where they do: a class of bytes that the passage consists of, a search for a terminator that it does not
hold, a name.
-/
namespace MarkupStream

open Byte

namespace Cursor

/-- Reading over the given bytes leads from one cursor to another. -/
structure Over (c : Cursor) (bytes : Bytes) (next : Cursor) : Prop where
  rest : c.rest = bytes ++ next.rest
  offset : next.offset = c.offset + bytes.length

variable {c middle next : Cursor} {bytes : Bytes}

theorem Over.reaches (h : c.Over bytes next) : c.Reaches next := ⟨bytes, h.rest, h.offset⟩

theorem over_nil : c.Over [] next ↔ next = c := by
  constructor
  · intro h
    obtain ⟨offset, rest⟩ := next
    obtain rfl : offset = c.offset := h.offset
    obtain rfl : c.rest = rest := h.rest
    rfl
  · rintro rfl
    exact ⟨rfl, rfl⟩

theorem over_append {first second : Bytes} :
    c.Over (first ++ second) next ↔ ∃ middle, c.Over first middle ∧ middle.Over second next := by
  constructor
  · intro h
    refine ⟨⟨c.offset + first.length, second ++ next.rest⟩, ⟨?_, rfl⟩, rfl, ?_⟩
    · rw [h.rest, List.append_assoc]
    · rw [h.offset, List.length_append, Nat.add_assoc]
  · rintro ⟨middle, hfirst, hsecond⟩
    refine ⟨?_, ?_⟩
    · rw [hfirst.rest, hsecond.rest, List.append_assoc]
    · rw [hsecond.offset, hfirst.offset, List.length_append, Nat.add_assoc]

theorem over_cons {b : UInt8} :
    c.Over (b :: bytes) next ↔ ∃ middle, c.Over [b] middle ∧ middle.Over bytes next :=
  @over_append c next [b] bytes

theorem Over.advance (h : c.Over bytes next) : c.advance bytes.length = next := by
  obtain ⟨offset, rest⟩ := next
  rw [Cursor.advance, h.rest, List.take_left, List.drop_left]
  exact congrArg (Cursor.mk · rest) h.offset.symm

theorem Over.bytesUpTo (h : c.Over bytes next) : c.bytesUpTo next = bytes := by
  have hlength : next.offset - c.offset = bytes.length := by
    rw [h.offset]
    omega
  rw [Cursor.bytesUpTo, hlength, h.rest, List.take_left]

/-- A span between two cursors covers the passage between them. -/
theorem Over.slice {input : Bytes} (hc : (start input).Reaches c) (h : c.Over bytes next) :
    (c.upTo next).slice input = bytes := (hc.slice_upTo h.reaches).trans h.bytesUpTo

theorem Over.peek? {b : UInt8} {more : Bytes} (h : c.Over (b :: more) next) : c.peek? = some b := by
  rw [Cursor.peek?, h.rest]
  rfl

/-- A span is left out if the passage is empty. -/
theorem Over.upTo? (h : c.Over bytes next) :
    c.upTo? next = if bytes = [] then none else some (c.upTo next) := by
  rw [Cursor.upTo?, h.offset]
  cases bytes with
  | nil => rw [if_pos rfl, if_neg (by rw [List.length_nil]; omega)]
  | cons b more => rw [if_pos (by rw [List.length_cons]; omega), if_neg (List.cons_ne_nil b more)]

theorem Over.skip {inClass : UInt8 → Bool} (h : c.Over bytes next) (hall : ∀ b ∈ bytes, inClass b)
    (hend : ∀ b, next.peek? = some b → ¬ inClass b) : c.skip inClass = next := by
  have hstop : next.rest.takeWhile inClass = [] ∧ next.rest.dropWhile inClass = next.rest := by
    cases hrest : next.rest with
    | nil => exact ⟨rfl, rfl⟩
    | cons b more =>
      have hb := hend b (by rw [Cursor.peek?, hrest]; rfl)
      exact ⟨List.takeWhile_cons_of_neg hb, List.dropWhile_cons_of_neg hb⟩
  rw [Cursor.skip, h.rest, List.takeWhile_append_of_pos hall, List.dropWhile_append_of_pos hall,
    hstop.1, hstop.2, List.append_nil, ← h.offset]

theorem Over.skipWhitespace {b : UInt8} (h : c.Over [0x20] next) (hnext : next.peek? = some b)
    (hb : ¬ isWhitespace b) : c.skipWhitespace = next := by
  refine h.skip (fun b' hb' => ?_) fun b' hb' => ?_
  · obtain rfl := List.mem_singleton.1 hb'
    rfl
  · rw [hnext] at hb'
    rwa [← Option.some.inj hb']

theorem skipWhitespace_eq_self {b : UInt8} (hc : c.peek? = some b) (hb : ¬ isWhitespace b) :
    c.skipWhitespace = c := by
  refine (over_nil.2 rfl).skip (fun _ hmem => absurd hmem List.not_mem_nil) fun b' hb' => ?_
  rw [hc] at hb'
  rwa [← Option.some.inj hb']

section Search

/-- A search goes over a passage if what it looks for begins nowhere in it. -/
theorem Over.seek? {found : Bytes → Bool} (h : c.Over bytes next) (hfound : found next.rest)
    (hnone : ∀ tail, tail <:+ bytes → tail ≠ [] → ¬ found (tail ++ next.rest)) :
    c.seek? found = some next := by
  -- Byte by byte over the passage.
  induction bytes generalizing c with
  | nil =>
    obtain rfl := over_nil.1 h
    rw [Cursor.seek?]
    cases hrest : next.rest with
    | nil =>
      rw [hrest] at hfound
      rw [seekFrom, if_pos hfound, ← hrest]
    | cons b rest =>
      rw [hrest] at hfound
      rw [seekFrom, if_pos hfound, ← hrest]
  | cons b more ih =>
    obtain ⟨first, hfirst, hmore⟩ := over_cons.1 h
    have hrest : c.rest = b :: first.rest := hfirst.rest
    have hstart : ¬ found (b :: first.rest) := by
      rw [← hrest, h.rest]
      exact hnone _ (List.suffix_refl _) (List.cons_ne_nil b more)
    have hoffset : first.offset = c.offset + 1 := hfirst.offset
    rw [Cursor.seek?, hrest, seekFrom, if_neg hstart, ← hoffset]
    exact ih hmore fun tail htail => hnone tail (htail.trans (List.suffix_cons b more))

theorem Over.seekByte? {b : UInt8} (h : c.Over bytes next) (hb : b ∉ bytes)
    (hnext : next.peek? = some b) : c.seekByte? b = some next := by
  refine h.seek? (beq_iff_eq.2 hnext) fun tail htail hne hfound => ?_
  obtain ⟨b', more, rfl⟩ := List.exists_cons_of_ne_nil hne
  obtain rfl : b' = b := Option.some.inj (beq_iff_eq.1 hfound)
  exact hb (htail.subset List.mem_cons_self)

/-- A byte that a passage does not hold is not found before its end. -/
theorem Over.le_of_seekByte? {b : UInt8} {found : Cursor} (h : c.Over bytes next) (hb : b ∉ bytes)
    (hfound : c.seekByte? b = some found) : next.offset ≤ found.offset := by
  induction bytes generalizing c with
  | nil =>
    obtain rfl := over_nil.1 h
    exact (reaches_seek hfound).offset_le
  | cons b' more ih =>
    obtain ⟨first, hfirst, hmore⟩ := over_cons.1 h
    have hrest : c.rest = b' :: first.rest := hfirst.rest
    have hoffset : first.offset = c.offset + 1 := hfirst.offset
    have hother : ¬ ((b' :: first.rest).head? == some b) := by
      intro heq
      exact hb (Option.some.inj (beq_iff_eq.1 heq) ▸ List.mem_cons_self)
    rw [Cursor.seekByte?, Cursor.seek?, hrest, seekFrom, if_neg hother, ← hoffset] at hfound
    exact ih hmore (fun hmem => hb (List.mem_cons_of_mem _ hmem)) hfound

/-- A terminator whose last byte is not repeated in it does not overlap itself. So it begins nowhere in a
content that does not hold it, whatever the last bytes of the content are. -/
theorem not_prefix_of_terminator {pattern content tail more : Bytes} {last : UInt8}
    (hlast : pattern = pattern.dropLast ++ [last]) (honce : last ∉ pattern.dropLast)
    (hcontent : ¬ pattern <:+: content) (htail : tail <:+ content) (hne : tail ≠ []) :
    ¬ pattern <+: tail ++ (pattern ++ more) := by
  rintro ⟨after, hafter⟩
  have hinside : ¬ pattern <+: tail := fun h => hcontent (h.isInfix.trans htail.isInfix)
  rcases List.append_eq_append_iff.1 hafter with ⟨rest, htail, -⟩ | ⟨rest, hpattern, hrest⟩
  · exact hinside ⟨rest, htail.symm⟩
  · -- The rest of the pattern behind the content is a beginning of the pattern as well.
    rcases List.eq_nil_or_concat rest with rfl | ⟨init, b, rfl⟩
    · exact hinside ⟨[], by rw [hpattern, List.append_nil, List.append_nil]⟩
    · rw [List.concat_eq_append] at hpattern hrest
      have hlength : (init ++ [b]).length < pattern.length := by
        have hpos := List.length_pos_iff.2 hne
        have := congrArg List.length hpattern
        rw [List.length_append] at this
        omega
      have hstart : init ++ [b] <+: pattern :=
        List.prefix_of_prefix_length_le ⟨after, hrest.symm⟩ ⟨more, rfl⟩ (Nat.le_of_lt hlength)
      have hdrop : init ++ [b] <+: pattern.dropLast := by
        rw [hlast, List.prefix_concat_iff] at hstart
        rcases hstart with heq | hstart
        · rw [heq, ← hlast] at hlength
          exact absurd hlength (Nat.lt_irrefl _)
        · exact hstart
      have hb : b = last := by
        have hsame : pattern.dropLast ++ [last] = (tail ++ init) ++ [b] := by
          rw [← hlast, hpattern, List.append_assoc]
        exact (List.singleton_inj.1 (List.append_inj' hsame rfl).2).symm
      exact honce (hb ▸ hdrop.subset (List.mem_append_right _ List.mem_cons_self))

theorem Over.seekBytes? {pattern : Bytes} {after : Cursor} (h : c.Over bytes next)
    (hnext : next.Over pattern after) (last : UInt8) (hlast : pattern = pattern.dropLast ++ [last])
    (honce : last ∉ pattern.dropLast) (hnone : ¬ pattern <:+: bytes) :
    c.seekBytes? pattern = some next := by
  refine h.seek? ?_ fun tail htail hne hfound => ?_
  · exact List.isPrefixOf_iff_prefix.2 ⟨after.rest, hnext.rest.symm⟩
  · rw [hnext.rest] at hfound
    exact not_prefix_of_terminator hlast honce hnone htail hne (List.isPrefixOf_iff_prefix.1 hfound)

end Search

section Names

theorem isName_of_isWellFormedName (h : bytes.isWellFormedName) : ∀ b ∈ bytes, isName b := by
  cases bytes with
  | nil => cases h
  | cons b more =>
    obtain ⟨hb, hmore⟩ := Bool.and_eq_true_iff.1 h
    intro b' hmem
    rcases List.mem_cons.1 hmem with rfl | hmem
    · exact isName_of_isNameStart hb
    · exact List.all_eq_true.1 hmore b' hmem

/-- A well-formed name is read whole if no byte of a name follows. -/
theorem Over.afterName?_of_ends (h : c.Over bytes next) (hname : bytes.isWellFormedName)
    (hend : ∀ b, next.peek? = some b → ¬ isName b) : c.afterName? = some next := by
  have hskip : c.skip isName = next := h.skip (isName_of_isWellFormedName hname) hend
  cases bytes with
  | nil => cases hname
  | cons b' more =>
    have hstart : isNameStart b' := (Bool.and_eq_true_iff.1 hname).1
    have hrest : c.rest = b' :: (more ++ next.rest) := h.rest
    rw [Cursor.afterName?, hrest]
    dsimp only
    rw [if_pos hstart, hskip]

theorem Over.afterName? {b : UInt8} (h : c.Over bytes next) (hname : bytes.isWellFormedName)
    (hnext : next.peek? = some b) (hb : ¬ isName b) : c.afterName? = some next := by
  refine h.afterName?_of_ends hname fun b' hb' => ?_
  rw [hnext] at hb'
  rwa [← Option.some.inj hb']

/-- The first byte of a name is none that the grammar gives another meaning. -/
theorem isNameStart_table {b : UInt8} (h : isNameStart b) :
    ¬ isWhitespace b ∧ b ≠ greaterThan ∧ b ≠ slash ∧
      toLower b ≠ 0x21 ∧ toLower b ≠ 0x2F ∧ toLower b ≠ 0x3F :=
  forall_of_table (P := fun b => isNameStart b → ¬ isWhitespace b ∧ b ≠ greaterThan ∧ b ≠ slash ∧
    toLower b ≠ 0x21 ∧ toLower b ≠ 0x2F ∧ toLower b ≠ 0x3F) (by decide +kernel) b h

theorem Over.exists_peek?_of_name (h : c.Over bytes next) (hname : bytes.isWellFormedName) :
    ∃ b, c.peek? = some b ∧ isNameStart b := by
  cases bytes with
  | nil => cases hname
  | cons b more => exact ⟨b, h.peek?, (Bool.and_eq_true_iff.1 hname).1⟩

end Names

section Openings

/-- What stands in front of a cursor does not start with a pattern if neither is a beginning of the other. -/
theorem Over.not_startsWith {pattern : Bytes} (h : c.Over bytes next) (hpattern : ¬ pattern <+: bytes)
    (hbytes : ¬ bytes <+: pattern) : ¬ c.startsWith pattern := by
  intro hstart
  have hprefix : pattern <+: c.rest := List.isPrefixOf_iff_prefix.1 hstart
  rcases List.prefix_or_prefix_of_prefix hprefix ⟨next.rest, h.rest.symm⟩ with hle | hle
  · exact hpattern hle
  · exact hbytes hle

theorem Over.startsWith (h : c.Over bytes next) : c.startsWith bytes :=
  List.isPrefixOf_iff_prefix.2 ⟨next.rest, h.rest.symm⟩

theorem Over.startsWithIgnoringCase (h : c.Over bytes next) : c.startsWithIgnoringCase bytes :=
  Token.startsWithIgnoringCase_of_startsWith h.startsWith

theorem Over.not_startsWithIgnoringCase {pattern : Bytes} (h : c.Over bytes next)
    (hpattern : ¬ pattern.foldCase <+: bytes.foldCase)
    (hbytes : ¬ bytes.foldCase <+: pattern.foldCase) : ¬ c.startsWithIgnoringCase pattern := by
  intro hstart
  have hfold : Bytes.foldCase (c.rest.take pattern.length) = pattern.foldCase := by
    rwa [Cursor.startsWithIgnoringCase, Bytes.sameName_iff, if_pos rfl] at hstart
  have hprefix : pattern.foldCase <+: Bytes.foldCase c.rest := by
    rw [← hfold, ← Bytes.take_foldCase]
    exact List.take_prefix _ _
  have hover : bytes.foldCase <+: c.rest.foldCase := by
    rw [h.rest, Bytes.foldCase_append]
    exact List.prefix_append _ _
  rcases List.prefix_or_prefix_of_prefix hprefix hover with hle | hle
  · exact hpattern hle
  · exact hbytes hle

end Openings

end Cursor

/-- What begins with `<?` is read as an instruction or not at all. -/
theorem Token.readMarkup_of_instruction {dialect : Dialect} {c opened : Cursor}
    (h : c.Over (Bytes.ofString "<?") opened) : readMarkup dialect c = readInstruction dialect c := by
  rw [readMarkup, if_neg (h.not_startsWith (by decide) (by decide)),
    if_neg (h.not_startsWith (by decide) (by decide)),
    if_neg (h.not_startsWithIgnoringCase (by decide) (by decide)), if_pos h.startsWith]

/-- What begins with `</` is read as a close tag or not at all. -/
theorem Token.readMarkup_of_closing {dialect : Dialect} {c opened : Cursor}
    (h : c.Over (Bytes.ofString "</") opened) : readMarkup dialect c = readCloseTag dialect c := by
  rw [readMarkup, if_neg (h.not_startsWith (by decide) (by decide)),
    if_neg (h.not_startsWith (by decide) (by decide)),
    if_neg (h.not_startsWithIgnoringCase (by decide) (by decide)),
    if_neg (h.not_startsWith (by decide) (by decide)), if_pos h.startsWith]

end MarkupStream
