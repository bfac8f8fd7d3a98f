import MarkupStream.Token.Stream

/-!
Reading and the case of letters. Small letters in place of all capital ones leave what is read the same:
its spans, its parts and where it ends. The grammar tells no letter from its other form except in
the keyword of a CDATA section and in the names inside an XML declaration, which are not folded here.
-/
namespace MarkupStream

namespace Byte

/-- What holds of each entry of the table of bytes. -/
theorem forall_of_table {P : UInt8 → Prop} (h : ∀ n : Fin 256, P (UInt8.ofNat n)) (b : UInt8) :
    P b := by
  have hb := h ⟨b.toNat, b.toNat_lt⟩
  rwa [UInt8.ofNat_toNat] at hb

/-- A class of bytes with either both forms of a letter or none. -/
def Caseless (inClass : UInt8 → Bool) : Prop := ∀ b, inClass (toLower b) = inClass b

/-- The table of bytes, as far as it tells letters in either form apart from other bytes. -/
theorem toLower_table (b : UInt8) :
    toLower (toLower b) = toLower b ∧ isLetter (toLower b) = isLetter b ∧
      isWhitespace (toLower b) = isWhitespace b ∧ isNameStart (toLower b) = isNameStart b ∧
      isName (toLower b) = isName b ∧ isContinuation (toLower b) = isContinuation b := by
  revert b
  refine forall_of_table ?_
  decide +kernel

@[simp] theorem toLower_toLower (b : UInt8) : toLower (toLower b) = toLower b := (toLower_table b).1

theorem isLetter_toLower (b : UInt8) : isLetter (toLower b) = isLetter b := (toLower_table b).2.1

theorem caseless_isWhitespace : Caseless isWhitespace := fun b => (toLower_table b).2.2.1

theorem caseless_isNameStart : Caseless isNameStart := fun b => (toLower_table b).2.2.2.1

theorem caseless_isName : Caseless isName := fun b => (toLower_table b).2.2.2.2.1

theorem caseless_isContinuation : Caseless isContinuation := fun b => (toLower_table b).2.2.2.2.2

theorem toLower_of_not_letter {b : UInt8} (h : isLetter b = false) : toLower b = b := by
  rw [isLetter, Bool.or_eq_false_iff] at h
  rw [toLower, if_neg (Bool.eq_false_iff.1 h.1)]

theorem not_letter_of_isQuote {b : UInt8} (h : isQuote b) : isLetter b = false := by
  simp only [isQuote, Bool.or_eq_true, beq_iff_eq] at h
  rcases h with rfl | rfl <;> rfl

theorem beq_toLower {b : UInt8} (h : isLetter b = false) (x : UInt8) :
    (toLower x == b) = (x == b) := by
  by_cases hx : isLetter x
  · have hne : ∀ y, isLetter y → (y == b) = false := by
      intro y hy
      rw [beq_eq_false_iff_ne]
      rintro rfl
      rw [h] at hy
      cases hy
    rw [hne x hx, hne (toLower x) (by rwa [isLetter_toLower])]
  · rw [toLower_of_not_letter (by simpa using hx)]

theorem caseless_beq {b : UInt8} (h : isLetter b = false) : Caseless (· == b) := beq_toLower h

theorem Caseless.not {inClass : UInt8 → Bool} (h : Caseless inClass) :
    Caseless fun b => !inClass b := fun b => congrArg (!·) (h b)

theorem Caseless.or {first second : UInt8 → Bool} (h : Caseless first) (h' : Caseless second) :
    Caseless fun b => first b || second b :=
  fun b => (congrArg (· || second (toLower b)) (h b)).trans (congrArg (first b || ·) (h' b))

theorem caseless_isQuote : Caseless isQuote := (caseless_beq rfl).or (caseless_beq rfl)

theorem caseless_contains {stops : Bytes} (h : stops.all (!isLetter ·)) :
    Caseless (stops.contains ·) := by
  induction stops with
  | nil => exact fun _ => rfl
  | cons stop rest ih =>
    rw [List.all_cons, Bool.and_eq_true, Bool.not_eq_true'] at h
    simp only [List.contains_cons]
    exact (caseless_beq h.1).or (ih h.2)

end Byte

namespace Bytes

open Byte

@[simp] theorem foldCase_foldCase (bytes : Bytes) : bytes.foldCase.foldCase = bytes.foldCase := by
  simp [foldCase, Function.comp_def]

theorem take_foldCase (n : Nat) (bytes : Bytes) :
    (foldCase bytes).take n = foldCase (bytes.take n) := List.map_take.symm

theorem drop_foldCase (n : Nat) (bytes : Bytes) :
    (foldCase bytes).drop n = foldCase (bytes.drop n) := List.map_drop.symm

theorem takeWhile_foldCase {inClass : UInt8 → Bool} (h : Caseless inClass) (bytes : Bytes) :
    (foldCase bytes).takeWhile inClass = foldCase (bytes.takeWhile inClass) := by
  have hclass : inClass ∘ toLower = inClass := funext h
  rw [foldCase, List.takeWhile_map, hclass]
  rfl

theorem dropWhile_foldCase {inClass : UInt8 → Bool} (h : Caseless inClass) (bytes : Bytes) :
    (foldCase bytes).dropWhile inClass = foldCase (bytes.dropWhile inClass) := by
  have hclass : inClass ∘ toLower = inClass := funext h
  rw [foldCase, List.dropWhile_map, hclass]
  rfl

theorem head?_foldCase (bytes : Bytes) : (foldCase bytes).head? = bytes.head?.map toLower :=
  List.head?_map

theorem head?_beq_foldCase {b : UInt8} (h : isLetter b = false) (bytes : Bytes) :
    ((foldCase bytes).head? == some b) = (bytes.head? == some b) := by
  cases bytes with
  | nil => rfl
  | cons first rest => exact caseless_beq h first

theorem isPrefixOf_foldCase {pattern : Bytes} (h : pattern.all (!isLetter ·)) (bytes : Bytes) :
    pattern.isPrefixOf (foldCase bytes) = pattern.isPrefixOf bytes := by
  induction pattern generalizing bytes with
  | nil => rfl
  | cons first rest ih =>
    rw [List.all_cons, Bool.and_eq_true, Bool.not_eq_true'] at h
    cases bytes with
    | nil => rfl
    | cons b bytes =>
      have hb : (first == toLower b) = (first == b) := by
        rw [Bool.beq_comm, Bool.beq_comm (a := first)]
        exact beq_toLower h.1 b
      rw [foldCase_cons, List.isPrefixOf, List.isPrefixOf, ih h.2, hb]

@[simp] theorem sameName_foldCase_left (a b : Bytes) :
    sameName true a.foldCase b = sameName true a b := by
  simp [sameName]

@[simp] theorem sameName_foldCase_right (a b : Bytes) :
    sameName true a b.foldCase = sameName true a b := by
  simp [sameName]

end Bytes

@[simp] theorem Span.slice_foldCase (span : Span) (input : Bytes) :
    span.slice input.foldCase = (span.slice input).foldCase := by
  simp only [slice, Bytes.drop_foldCase, Bytes.take_foldCase, Bytes.length_foldCase]
  split <;> rfl

namespace Cursor

open Byte

/-- The cursor in the document with small letters for capital ones. -/
def foldCase (c : Cursor) : Cursor := ⟨c.offset, c.rest.foldCase⟩

@[simp] theorem offset_foldCase (c : Cursor) : c.foldCase.offset = c.offset := rfl
@[simp] theorem rest_foldCase (c : Cursor) : c.foldCase.rest = c.rest.foldCase := rfl

@[simp] theorem advance_foldCase (c : Cursor) (n : Nat) :
    c.foldCase.advance n = (c.advance n).foldCase := by
  simp [foldCase, advance, Bytes.take_foldCase, Bytes.drop_foldCase]

theorem skip_foldCase {inClass : UInt8 → Bool} (h : Caseless inClass) (c : Cursor) :
    c.foldCase.skip inClass = (c.skip inClass).foldCase := by
  simp [foldCase, skip, Bytes.takeWhile_foldCase h, Bytes.dropWhile_foldCase h]

@[simp] theorem skipWhitespace_foldCase (c : Cursor) :
    c.foldCase.skipWhitespace = c.skipWhitespace.foldCase := skip_foldCase caseless_isWhitespace c

@[simp] theorem nextTag_foldCase (c : Cursor) : c.foldCase.nextTag = c.nextTag.foldCase :=
  skip_foldCase (caseless_beq rfl).not c

@[simp] theorem upTo_foldCase (c next : Cursor) :
    c.foldCase.upTo next.foldCase = c.upTo next := rfl

@[simp] theorem upTo?_foldCase (c next : Cursor) :
    c.foldCase.upTo? next.foldCase = c.upTo? next := rfl

@[simp] theorem bytesUpTo_foldCase (c next : Cursor) :
    c.foldCase.bytesUpTo next.foldCase = (c.bytesUpTo next).foldCase :=
  Bytes.take_foldCase _ _

@[simp] theorem peek?_foldCase (c : Cursor) : c.foldCase.peek? = c.peek?.map toLower :=
  Bytes.head?_foldCase c.rest

theorem peek?_beq_foldCase {b : UInt8} (h : isLetter b = false) (c : Cursor) :
    (c.foldCase.peek? == some b) = (c.peek? == some b) := Bytes.head?_beq_foldCase h c.rest

theorem startsWith_foldCase {pattern : Bytes} (h : pattern.all (!isLetter ·)) (c : Cursor) :
    c.foldCase.startsWith pattern = c.startsWith pattern := Bytes.isPrefixOf_foldCase h c.rest

@[simp] theorem startsWithIgnoringCase_foldCase (c : Cursor) (bytes : Bytes) :
    c.foldCase.startsWithIgnoringCase bytes = c.startsWithIgnoringCase bytes := by
  simp [startsWithIgnoringCase, Bytes.take_foldCase]

theorem seek?_foldCase {found : Bytes → Bool} (h : ∀ bytes : Bytes, found bytes.foldCase = found bytes)
    (c : Cursor) : c.foldCase.seek? found = (c.seek? found).map foldCase := by
  obtain ⟨offset, bytes⟩ := c
  simp only [seek?, foldCase]
  induction bytes generalizing offset with
  | nil =>
    have hnil := h []
    rw [Bytes.foldCase_nil] at hnil ⊢
    rw [seekFrom]
    split <;> rfl
  | cons b rest ih =>
    have hcons := h (b :: rest)
    rw [Bytes.foldCase_cons] at hcons ⊢
    rw [seekFrom, seekFrom, hcons]
    split
    · rfl
    · exact ih (offset + 1)

theorem seekByte?_foldCase {b : UInt8} (h : isLetter b = false) (c : Cursor) :
    c.foldCase.seekByte? b = (c.seekByte? b).map foldCase :=
  seek?_foldCase (Bytes.head?_beq_foldCase h) c

theorem seekBytes?_foldCase {pattern : Bytes} (h : pattern.all (!isLetter ·)) (c : Cursor) :
    c.foldCase.seekBytes? pattern = (c.seekBytes? pattern).map foldCase :=
  seek?_foldCase (Bytes.isPrefixOf_foldCase h) c

theorem closesWith_foldCase (name bytes : Bytes) :
    closesWith name.foldCase true bytes.foldCase = closesWith name true bytes := by
  rw [closesWith, closesWith, Bytes.length_foldCase, Bytes.take_foldCase, Bytes.drop_foldCase,
    Bytes.sameName_foldCase_left, Bytes.sameName_foldCase_right]
  cases bytes.drop name.length with
  | nil => rfl
  | cons b rest =>
    have hends : Caseless fun b => isWhitespace b || b == greaterThan || b == slash :=
      (caseless_isWhitespace.or (caseless_beq rfl)).or (caseless_beq rfl)
    exact congrArg (Bytes.sameName true (bytes.take name.length) name && ·) (hends b)

theorem seekCloseTag?_foldCase (c : Cursor) (name : Bytes) :
    c.foldCase.seekCloseTag? name.foldCase true = (c.seekCloseTag? name true).map foldCase := by
  obtain ⟨offset, bytes⟩ := c
  simp only [seekCloseTag?, foldCase]
  fun_induction closeTagFrom name true offset bytes with
  | case1 | case2 => rfl
  | case3 offset a b rest hpair hcloses =>
    have hpair' : (toLower a == lessThan && toLower b == slash) = true := by
      rwa [beq_toLower rfl, beq_toLower rfl]
    rw [Bytes.foldCase_cons, Bytes.foldCase_cons, closeTagFrom, if_pos hpair', closesWith_foldCase,
      if_pos hcloses]
    rfl
  | case4 offset a b rest hpair hcloses ih =>
    have hpair' : (toLower a == lessThan && toLower b == slash) = true := by
      rwa [beq_toLower rfl, beq_toLower rfl]
    rw [Bytes.foldCase_cons, Bytes.foldCase_cons, closeTagFrom, if_pos hpair', closesWith_foldCase,
      if_neg hcloses]
    exact ih
  | case5 offset a b rest hpair ih =>
    have hpair' : ¬ (toLower a == lessThan && toLower b == slash) = true := by
      rwa [beq_toLower rfl, beq_toLower rfl]
    rw [Bytes.foldCase_cons, Bytes.foldCase_cons, closeTagFrom, if_neg hpair']
    exact ih

theorem afterName?_foldCase (c : Cursor) :
    c.foldCase.afterName? = c.afterName?.map foldCase := by
  rw [afterName?, afterName?, rest_foldCase, skip_foldCase caseless_isName]
  cases c.rest with
  | nil => rfl
  | cons b rest =>
    rw [Bytes.foldCase_cons]
    dsimp only
    rw [caseless_isNameStart b]
    split <;> rfl

theorem afterLooseName?_foldCase {stops : Bytes} (h : stops.all (!isLetter ·)) (c : Cursor) :
    c.foldCase.afterLooseName? stops = (c.afterLooseName? stops).map foldCase := by
  have hclass : Caseless fun b =>
      !(isWhitespace b || b == slash || b == greaterThan || stops.contains b) :=
    (((caseless_isWhitespace.or (caseless_beq rfl)).or (caseless_beq rfl)).or
      (caseless_contains h)).not
  rw [afterLooseName?, afterLooseName?, skip_foldCase hclass, apply_ite (Option.map foldCase)]
  rfl

end Cursor

def Refusal.foldCase (refusal : Refusal) : Refusal := ⟨refusal.fault, refusal.cursor.foldCase⟩

/-- What is read in the folded document, told by what is read in the document itself. -/
def foldRead (fold : α → α) : Except Refusal α → Except Refusal α
  | .error refusal => .error refusal.foldCase
  | .ok a => .ok (fold a)

namespace Tag

open Byte Cursor

variable {dialect : Dialect} {tagStart : Nat}

theorem readName_foldCase (c : Cursor) :
    readName dialect c.foldCase = foldRead foldCase (readName dialect c) := by
  cases dialect with
  | xml =>
    rw [readName, readName, afterName?_foldCase]
    cases c.afterName? <;> rfl
  | html =>
    rw [readName, readName, afterLooseName?_foldCase rfl, advance_foldCase]
    cases c.afterLooseName? [equals] <;> rfl

theorem readValue_foldCase (c : Cursor) :
    readValue dialect tagStart c.foldCase =
      foldRead (fun (outer, value, next) => (outer, value, next.foldCase))
        (readValue dialect tagStart c) := by
  unfold readValue
  rw [peek?_foldCase]
  cases c.peek? with
  | none => rfl
  | some b =>
    dsimp only [Option.map_some]
    rw [caseless_isQuote b]
    by_cases hquote : isQuote b
    · have hletter := not_letter_of_isQuote hquote
      rw [if_pos hquote, if_pos hquote, toLower_of_not_letter hletter, advance_foldCase,
        seekByte?_foldCase hletter, seekByte?_foldCase (b := lessThan) rfl]
      cases (c.advance 1).seekByte? b with
      | none => rfl
      | some close =>
        simp only [Option.map_some, advance_foldCase, upTo_foldCase]
        cases dialect with
        | html => rfl
        | xml =>
          cases (c.advance 1).seekByte? lessThan with
          | none => rfl
          | some bad =>
            dsimp only [Option.map_some]
            rw [apply_ite (foldRead _)]
            rfl
    · have hbare : Caseless fun b => !(isWhitespace b || b == greaterThan) :=
        (caseless_isWhitespace.or (caseless_beq rfl)).not
      rw [if_neg hquote, if_neg hquote, skip_foldCase hbare]
      cases dialect <;> rfl

theorem readAttribute_foldCase (c : Cursor) :
    readAttribute dialect tagStart c.foldCase =
      foldRead (fun (a, next) => (a, next.foldCase)) (readAttribute dialect tagStart c) := by
  rw [readAttribute, readAttribute, readName_foldCase]
  cases readName dialect c with
  | error refusal => rfl
  | ok named =>
    simp only [foldRead, skipWhitespace_foldCase, advance_foldCase, readValue_foldCase,
      peek?_beq_foldCase (b := equals) rfl]
    split
    · cases readValue dialect tagStart (named.skipWhitespace.advance 1).skipWhitespace <;> rfl
    · cases dialect <;> rfl

/-- The first step of reading the parts of a tag. -/
theorem readParts_cons {separated : Bool} {c : Cursor} {b : UInt8} {rest : Bytes}
    (h : c.rest = b :: rest) :
    readParts dialect tagStart separated c =
      if isWhitespace b then
        (readParts dialect tagStart true c.skipWhitespace).map fun (found, tail) =>
          (.whitespace (c.upTo c.skipWhitespace) :: found, tail)
      else if b == greaterThan then .ok ([], c.upTo (c.advance 1), false, c.advance 1)
      else if b == slash then
        if rest.head? == some greaterThan then .ok ([], c.upTo (c.advance 2), true, c.advance 2)
        else if dialect.isStrict then c.refuse (.malformed .straySlash c.offset)
        else
          (readParts dialect tagStart true (c.advance 1)).map fun (found, tail) =>
            (.whitespace (c.upTo (c.advance 1)) :: found, tail)
      else if dialect.isStrict && !separated then c.refuse (.malformed .missingSeparator c.offset)
      else
        match readAttribute dialect tagStart c with
        | .error refusal => .error refusal
        | .ok (a, next) =>
          (readParts dialect tagStart false next).map fun (found, tail) =>
            (.attr a :: found, tail) := by
  rw [readParts]
  split
  · rename_i hnil
    rw [h] at hnil
    cases hnil
  · rename_i b' rest' h'
    obtain ⟨rfl, rfl⟩ := List.cons.inj (h.symm.trans h')
    refine ite_congr rfl (fun _ => rfl) fun _ => ite_congr rfl (fun _ => rfl) fun _ =>
      ite_congr rfl (fun _ => rfl) fun _ => ite_congr rfl (fun _ => rfl) fun _ => ?_
    split
    all_goals
      rename_i ha
      rw [ha]

/-- The parts of a tag and its end in the folded document. -/
def foldEnd : List TagPart × Span × Bool × Cursor → List TagPart × Span × Bool × Cursor
  | (found, close, selfClosing, next) => (found, close, selfClosing, next.foldCase)

theorem map_foldEnd {r r' : Except Refusal (List TagPart × Span × Bool × Cursor)}
    (h : r' = foldRead foldEnd r) (part : TagPart) :
    (r'.map fun (found, tail) => (part :: found, tail)) =
      foldRead foldEnd (r.map fun (found, tail) => (part :: found, tail)) := by
  rw [h]
  cases r <;> rfl

theorem readParts_foldCase (separated : Bool) (c : Cursor) :
    readParts dialect tagStart separated c.foldCase =
      foldRead foldEnd (readParts dialect tagStart separated c) := by
  have hcons : ∀ {c : Cursor} {b : UInt8} {rest : Bytes}, c.rest = b :: rest →
      c.foldCase.rest = toLower b :: Bytes.foldCase rest := by
    intro c b rest h
    rw [rest_foldCase, h, Bytes.foldCase_cons]
  fun_induction readParts dialect tagStart separated c with
  | case1 separated c h =>
    rw [readParts]
    split
    · rfl
    · rename_i hrest
      rw [rest_foldCase, h] at hrest
      cases hrest
  | case2 separated c b rest h hspace next =>
    rename_i ih
    rw [readParts_cons (hcons h), caseless_isWhitespace, if_pos hspace, skipWhitespace_foldCase,
      upTo_foldCase]
    exact map_foldEnd ih _
  | case3 separated c b rest h hspace hclose =>
    rw [readParts_cons (hcons h), caseless_isWhitespace, if_neg hspace, beq_toLower rfl,
      if_pos hclose, advance_foldCase]
    rfl
  | case4 separated c b rest h hspace hclose hslash hend =>
    rw [readParts_cons (hcons h), caseless_isWhitespace, if_neg hspace, beq_toLower rfl,
      if_neg hclose, beq_toLower rfl, if_pos hslash, Bytes.head?_beq_foldCase rfl, if_pos hend,
      advance_foldCase]
    rfl
  | case5 separated c b rest h hspace hclose hslash hend hstrict =>
    rw [readParts_cons (hcons h), caseless_isWhitespace, if_neg hspace, beq_toLower rfl,
      if_neg hclose, beq_toLower rfl, if_pos hslash, Bytes.head?_beq_foldCase rfl, if_neg hend,
      if_pos hstrict]
    rfl
  | case6 separated c b rest h hspace hclose hslash hend hstrict next =>
    rename_i ih
    rw [readParts_cons (hcons h), caseless_isWhitespace, if_neg hspace, beq_toLower rfl,
      if_neg hclose, beq_toLower rfl, if_pos hslash, Bytes.head?_beq_foldCase rfl, if_neg hend,
      if_neg hstrict, advance_foldCase, upTo_foldCase]
    exact map_foldEnd ih _
  | case7 separated c b rest h hspace hclose hslash hstrict =>
    rw [readParts_cons (hcons h), caseless_isWhitespace, if_neg hspace, beq_toLower rfl,
      if_neg hclose, beq_toLower rfl, if_neg hslash, if_pos hstrict]
    rfl
  | case8 separated c b rest h hspace hclose hslash hstrict refusal ha =>
    rw [readParts_cons (hcons h), caseless_isWhitespace, if_neg hspace, beq_toLower rfl,
      if_neg hclose, beq_toLower rfl, if_neg hslash, if_neg hstrict, readAttribute_foldCase, ha]
    rfl
  | case9 separated c b rest h hspace hclose hslash hstrict a next ha ih =>
    rw [readParts_cons (hcons h), caseless_isWhitespace, if_neg hspace, beq_toLower rfl,
      if_neg hclose, beq_toLower rfl, if_neg hslash, if_neg hstrict, readAttribute_foldCase, ha]
    exact map_foldEnd ih _

end Tag

namespace Token

open Byte Cursor

variable {dialect : Dialect}

/-- A token is told by spans, so that only the cursor behind it is folded. -/
def foldNext : Token × Cursor → Token × Cursor
  | (token, next) => (token, next.foldCase)

theorem readDelimited_foldCase {construct : Construct} {make : Span → Span → Token} {opening : Nat}
    {terminator : Bytes} (h : terminator.all (!isLetter ·)) (c : Cursor) :
    readDelimited construct make opening terminator c.foldCase =
      foldRead foldNext (readDelimited construct make opening terminator c) := by
  rw [readDelimited, readDelimited, advance_foldCase, seekBytes?_foldCase h]
  cases (c.advance opening).seekBytes? terminator with
  | none => rfl
  | some stop =>
    dsimp only [Option.map_some]
    rw [advance_foldCase]
    rfl

theorem readQuoted?_foldCase (c : Cursor) :
    readQuoted? c.foldCase = (readQuoted? c).map fun (span, next) => (span, next.foldCase) := by
  rw [readQuoted?, readQuoted?, peek?_foldCase]
  cases c.peek? with
  | none => rfl
  | some b =>
    dsimp only [Option.map_some]
    rw [caseless_isQuote b]
    by_cases hquote : isQuote b
    · have hletter := not_letter_of_isQuote hquote
      rw [if_pos hquote, if_pos hquote, toLower_of_not_letter hletter, advance_foldCase,
        seekByte?_foldCase hletter]
      cases (c.advance 1).seekByte? b with
      | none => rfl
      | some close =>
        dsimp only [Option.map_some]
        rw [advance_foldCase]
        rfl
    · rw [if_neg hquote, if_neg hquote]
      rfl

theorem readOptionalQuoted_foldCase (c : Cursor) :
    readOptionalQuoted c.foldCase =
      ((readOptionalQuoted c).1, (readOptionalQuoted c).2.foldCase) := by
  rw [readOptionalQuoted, readOptionalQuoted, readQuoted?_foldCase]
  cases readQuoted? c <;> rfl

theorem readExternalId_foldCase (c : Cursor) :
    readExternalId c.foldCase = ((readExternalId c).1, (readExternalId c).2.1,
      (readExternalId c).2.2.1, (readExternalId c).2.2.2.foldCase) := by
  simp only [readExternalId, startsWithIgnoringCase_foldCase, advance_foldCase,
    skipWhitespace_foldCase, readOptionalQuoted_foldCase, upTo_foldCase]
  split
  · rfl
  · split <;> rfl

theorem endsSubset_foldCase (bytes : Bytes) : endsSubset bytes.foldCase = endsSubset bytes := by
  have htail : bytes.foldCase.tail = Bytes.foldCase bytes.tail := List.map_tail.symm
  rw [endsSubset, endsSubset, Bytes.head?_beq_foldCase rfl, htail,
    Bytes.dropWhile_foldCase caseless_isWhitespace, Bytes.head?_beq_foldCase rfl]

theorem readSubset?_foldCase (c : Cursor) :
    readSubset? c.foldCase = (readSubset? c).map fun (span, next) => (span, next.foldCase) := by
  rw [readSubset?, readSubset?, peek?_beq_foldCase rfl]
  by_cases hopen : c.peek? == some 0x5B
  · rw [if_pos hopen, if_pos hopen, advance_foldCase]
    dsimp only
    rw [seek?_foldCase endsSubset_foldCase]
    cases (c.advance 1).seek? endsSubset with
    | none => rfl
    | some close =>
      dsimp only [Option.map_some]
      rw [advance_foldCase]
      rfl
  · rw [if_neg hopen, if_neg hopen]
    rfl

theorem readDoctype_foldCase (c : Cursor) :
    readDoctype c.foldCase = foldRead foldNext (readDoctype c) := by
  have hroot : ∀ c : Cursor, (c.foldCase.afterLooseName? [0x5B]).getD c.foldCase =
      ((c.afterLooseName? [0x5B]).getD c).foldCase := by
    intro c
    rw [afterLooseName?_foldCase rfl]
    cases c.afterLooseName? [0x5B] <;> rfl
  simp only [readDoctype, advance_foldCase, skipWhitespace_foldCase, hroot,
    readExternalId_foldCase, readSubset?_foldCase]
  generalize readSubset? _ = found
  cases found with
  | none => rfl
  | some found =>
    obtain ⟨subset, afterSubset⟩ := found
    dsimp only [Option.map_some]
    rw [seekByte?_foldCase rfl]
    cases afterSubset.seekByte? greaterThan with
    | none => rfl
    | some close =>
      dsimp only [Option.map_some]
      rw [advance_foldCase]
      rfl

theorem readCloseTag_foldCase (c : Cursor) :
    readCloseTag dialect c.foldCase = foldRead foldNext (readCloseTag dialect c) := by
  rw [readCloseTag, readCloseTag, advance_foldCase, afterName?_foldCase]
  cases (c.advance 2).afterName? with
  | none => rfl
  | some named =>
    dsimp only [Option.map_some]
    rw [skipWhitespace_foldCase, peek?_foldCase, seekByte?_foldCase (b := greaterThan) rfl]
    cases named.skipWhitespace.peek? with
    | none => rfl
    | some b =>
      dsimp only [Option.map_some]
      rw [beq_toLower rfl]
      by_cases hclose : b == greaterThan
      · rw [if_pos hclose, if_pos hclose, advance_foldCase]
        rfl
      · rw [if_neg hclose, if_neg hclose]
        cases dialect with
        | xml => rfl
        | html =>
          cases named.skipWhitespace.seekByte? greaterThan with
          | none => rfl
          | some close =>
            dsimp only [Option.map_some]
            rw [advance_foldCase]
            rfl

theorem readOpenTag_foldCase (c : Cursor) :
    readOpenTag dialect c.foldCase = foldRead foldNext (readOpenTag dialect c) := by
  rw [readOpenTag, readOpenTag, advance_foldCase, afterName?_foldCase]
  cases (c.advance 1).afterName? with
  | none => rfl
  | some named =>
    dsimp only [Option.map_some, offset_foldCase]
    rw [Tag.readParts_foldCase]
    cases Tag.readParts dialect c.offset false named with
    | error refusal => rfl
    | ok found =>
      obtain ⟨parts, close, selfClosing, next⟩ := found
      rfl

end Token

end MarkupStream
