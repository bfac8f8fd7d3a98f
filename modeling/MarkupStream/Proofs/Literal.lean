import MarkupStream.Proofs.Passage
import MarkupStream.Proofs.Siblings

/-!
Literal text in the token stream. From the open tag of a raw text element on everything is text up to the
first place that closes the element. There the close tag is read if any `>` follows; if none does, no
construct can end in the rest of the document, and the rest is text as well.
-/
namespace MarkupStream

open Byte Cursor

section Classes

/-- Whether HTML has the elements of a name stand alone. -/
def isVoid (name : Bytes) : Bool := (Catalog.html.lookup name).any (·.void)

/-- Whether HTML has the elements of a name hold literal text. -/
def isRawText (name : Bytes) : Bool := (Catalog.html.lookup name).any (·.rawText)

theorem Catalog.lookup_eq_of_sameName (catalog : Catalog) {a b : Bytes} (h : Bytes.sameName true a b) :
    catalog.lookup a = catalog.lookup b := by
  rw [Bytes.sameName_iff, if_pos rfl] at h
  rw [← lookup_foldCase, h, lookup_foldCase]

theorem Catalog.sameName_of_lookup {catalog : Catalog} {name : Bytes} {spec : ElementSpec}
    (h : catalog.lookup name = some spec) : Bytes.sameName true spec.name name := by
  rw [lookup] at h
  split at h
  · cases h
  · split at h
    · cases h
    · have hfound := List.find?_some h
      exact hfound

theorem Bytes.isWellFormedName_foldCase (name : Bytes) :
    name.foldCase.isWellFormedName = name.isWellFormedName := by
  cases name with
  | nil => rfl
  | cons b rest =>
    have hrest : (foldCase rest).all isName = rest.all isName := by
      rw [foldCase, List.all_map]
      exact List.all_congr rfl caseless_isName
    rw [foldCase_cons, isWellFormedName, isWellFormedName, caseless_isNameStart, hrest]

/-- A name in another spelling is well formed as well. -/
theorem Bytes.isWellFormedName_of_sameName {a b : Bytes} (h : sameName true a b)
    (hb : b.isWellFormedName) : a.isWellFormedName := by
  rw [sameName_iff, if_pos rfl] at h
  rwa [← isWellFormedName_foldCase, h, isWellFormedName_foldCase]

theorem isWellFormedName_of_isRawText {name : Bytes} (h : isRawText name) : name.isWellFormedName := by
  have htable : ∀ spec ∈ ElementSpec.all, spec.name.isWellFormedName := by decide +kernel
  obtain ⟨spec, hspec, -⟩ := (Option.any_eq_true _ _).1 h
  refine Bytes.isWellFormedName_of_sameName ?_ (htable spec (Catalog.mem_of_lookup hspec))
  rw [Bytes.sameName_comm]
  exact Catalog.sameName_of_lookup hspec

end Classes

section Places

/-- The bytes begin with `</`, the name, with case ignored on demand, and then their end or a byte that ends
a name in a close tag. -/
def ClosesIn (ignoreCase : Bool) (name bytes : Bytes) : Prop :=
  ∃ written behind, bytes = lessThan :: slash :: (written ++ behind) ∧
    Bytes.sameName ignoreCase written name ∧
    ∀ b ∈ behind.head?, isWhitespace b ∨ b = slash ∨ b = greaterThan

/-- The same with the name in any spelling, as HTML has it. -/
abbrev ClosesAt (name bytes : Bytes) : Prop := ClosesIn true name bytes

theorem Bytes.length_eq_of_sameName {ignoreCase : Bool} {a b : Bytes} (h : sameName ignoreCase a b) :
    a.length = b.length := by
  rw [sameName_iff] at h
  split at h
  · simpa using congrArg List.length h
  · exact congrArg List.length h

section Seeking

variable {ignoreCase : Bool} {name : Bytes}

theorem closesIn_cons_cons {bytes : Bytes} :
    ClosesIn ignoreCase name (lessThan :: slash :: bytes) ↔ closesWith name ignoreCase bytes := by
  rw [closesWith, Bool.and_eq_true]
  constructor
  · rintro ⟨written, behind, heq, hname, hbehind⟩
    obtain rfl : bytes = written ++ behind := by simpa using heq
    rw [← Bytes.length_eq_of_sameName hname, List.take_left, List.drop_left]
    refine ⟨hname, ?_⟩
    cases behind with
    | nil => rfl
    | cons b more =>
      have hb := hbehind b rfl
      simpa [or_comm, or_assoc, or_left_comm] using hb
  · rintro ⟨hname, hbehind⟩
    refine ⟨bytes.take name.length, bytes.drop name.length, ?_, hname, ?_⟩
    · rw [List.take_append_drop]
    · intro b hb
      obtain ⟨more, hmore⟩ := List.head?_eq_some_iff.1 hb
      rw [hmore] at hbehind
      simpa [or_comm, or_assoc, or_left_comm] using hbehind

theorem ClosesIn.exists_cons {bytes : Bytes} (h : ClosesIn ignoreCase name bytes) :
    ∃ rest, bytes = lessThan :: slash :: rest := by
  obtain ⟨written, behind, heq, -, -⟩ := h
  exact ⟨_, heq⟩

theorem closesIn_of_closeTagFrom {offset : Nat} {bytes : Bytes} {stop : Cursor}
    (h : closeTagFrom name ignoreCase offset bytes = some stop) :
    ClosesIn ignoreCase name stop.rest := by
  fun_induction closeTagFrom name ignoreCase offset bytes with
  | case1 | case2 => cases h
  | case3 offset a b rest hpair hcloses =>
    obtain rfl := Option.some.inj h
    obtain ⟨ha, hb⟩ := Bool.and_eq_true_iff.1 hpair
    obtain rfl := beq_iff_eq.1 ha
    obtain rfl := beq_iff_eq.1 hb
    exact closesIn_cons_cons.2 hcloses
  | case4 offset a b rest hpair hcloses ih => exact ih h
  | case5 offset a b rest hpair ih => exact ih h

/-- No place before the one that is found closes the element, and none at all if none is found. -/
theorem not_closesIn_of_closeTagFrom {offset : Nat} {bytes : Bytes} {i : Nat}
    (h : ∀ stop, closeTagFrom name ignoreCase offset bytes = some stop → offset + i < stop.offset) :
    ¬ ClosesIn ignoreCase name (bytes.drop i) := by
  intro hcloses
  -- Two bytes are passed over where a pair fails, and its slash begins no pair.
  fun_induction closeTagFrom name ignoreCase offset bytes generalizing i with
  | case1 =>
    obtain ⟨rest, hrest⟩ := hcloses.exists_cons
    rw [List.drop_nil] at hrest
    cases hrest
  | case2 =>
    obtain ⟨rest, hrest⟩ := hcloses.exists_cons
    have := congrArg List.length hrest
    simp only [List.length_drop, List.length_cons, List.length_nil] at this
    omega
  | case3 offset a b rest =>
    have := h _ rfl
    dsimp only at this
    omega
  | case4 offset a b rest hpair hnot ih =>
    obtain ⟨ha, hb⟩ := Bool.and_eq_true_iff.1 hpair
    obtain rfl := beq_iff_eq.1 ha
    obtain rfl := beq_iff_eq.1 hb
    rcases i with _ | _ | i
    · exact hnot (closesIn_cons_cons.1 hcloses)
    · obtain ⟨rest', hrest⟩ := hcloses.exists_cons
      exact absurd (List.cons.inj hrest).1 (by decide)
    · exact ih (fun stop hstop => by have := h stop hstop; omega) hcloses
  | case5 offset a b rest hpair ih =>
    cases i with
    | zero =>
      obtain ⟨rest', hrest⟩ := hcloses.exists_cons
      obtain ⟨ha, hrest⟩ := List.cons.inj (show a :: b :: rest = _ from hrest)
      obtain ⟨hb, -⟩ := List.cons.inj hrest
      exact hpair (Bool.and_eq_true_iff.2 ⟨beq_iff_eq.2 ha, beq_iff_eq.2 hb⟩)
    | succ i => exact ih (fun stop hstop => by have := h stop hstop; omega) hcloses

theorem closesIn_of_seekCloseTag {c stop : Cursor}
    (h : c.seekCloseTag? name ignoreCase = some stop) : ClosesIn ignoreCase name stop.rest :=
  closesIn_of_closeTagFrom h

theorem not_closesIn_of_seekCloseTag {c : Cursor} {i : Nat}
    (h : ∀ stop, c.seekCloseTag? name ignoreCase = some stop → c.offset + i < stop.offset) :
    ¬ ClosesIn ignoreCase name (c.rest.drop i) := not_closesIn_of_closeTagFrom h

/-- The first place that closes an element is the one that is found. -/
theorem exists_seekCloseTag? {c : Cursor} {i : Nat} (hi : ClosesIn ignoreCase name (c.rest.drop i))
    (hfirst : ∀ j < i, ¬ ClosesIn ignoreCase name (c.rest.drop j)) :
    ∃ found, c.seekCloseTag? name ignoreCase = some found ∧ found.offset = c.offset + i := by
  cases hseek : c.seekCloseTag? name ignoreCase with
  | none =>
    refine absurd hi (not_closesIn_of_seekCloseTag fun found hfound => ?_)
    exact absurd (hseek.symm.trans hfound) nofun
  | some found =>
    refine ⟨found, rfl, ?_⟩
    have hreach := reaches_seekCloseTag hseek
    have hle := hreach.offset_le
    have hcloses := closesIn_of_seekCloseTag hseek
    rw [hreach.rest_eq] at hcloses
    have hnotBefore : ¬ found.offset - c.offset < i := fun hlt => hfirst _ hlt hcloses
    have hnotAfter : ¬ c.offset + i < found.offset := by
      intro hlt
      refine not_closesIn_of_seekCloseTag (fun stop hstop => ?_) hi
      rwa [Option.some.inj (hstop.symm.trans hseek)]
    omega

end Seeking

end Places

section Ends

/-!
Every construct ends in a `>`.
-/

variable {c next : Cursor}

theorem Cursor.Reaches.mem {b : UInt8} (h : c.Reaches next) (hb : b ∈ next.rest) : b ∈ c.rest := by
  obtain ⟨bytes, hrest, -⟩ := h
  rw [hrest]
  exact List.mem_append_right _ hb

theorem Cursor.mem_of_peek? {b : UInt8} (h : c.peek? = some b) : b ∈ c.rest := List.mem_of_head? h

theorem Cursor.found_of_seek? {found : Bytes → Bool} (h : c.seek? found = some next) :
    found next.rest := by
  obtain ⟨offset, bytes⟩ := c
  rw [seek?] at h
  dsimp only at h
  induction bytes generalizing offset with
  | nil =>
    rw [seekFrom] at h
    split at h
    · obtain rfl := Option.some.inj h
      assumption
    · cases h
  | cons b rest ih =>
    rw [seekFrom] at h
    split at h
    · obtain rfl := Option.some.inj h
      assumption
    · exact ih _ h

theorem Cursor.peek?_of_seekByte? {b : UInt8} (h : c.seekByte? b = some next) :
    next.peek? = some b := beq_iff_eq.1 (found_of_seek? h)

theorem Cursor.mem_of_seekByte? {b : UInt8} (h : c.seekByte? b = some next) : b ∈ c.rest :=
  (reaches_seek h).mem (mem_of_peek? (peek?_of_seekByte? h))

theorem Cursor.mem_of_seekBytes? {b : UInt8} {bytes : Bytes} (hb : b ∈ bytes)
    (h : c.seekBytes? bytes = some next) : b ∈ c.rest :=
  (reaches_seek h).mem ((List.isPrefixOf_iff_prefix.1 (found_of_seek? h)).subset hb)

/-- A byte that is left is found. -/
theorem Cursor.exists_seekByte? {b : UInt8} (h : b ∈ c.rest) : ∃ found, c.seekByte? b = some found := by
  obtain ⟨offset, bytes⟩ := c
  rw [seekByte?, seek?]
  dsimp only at h ⊢
  induction bytes generalizing offset with
  | nil => cases h
  | cons b' rest ih =>
    rw [seekFrom]
    split
    · exact ⟨_, rfl⟩
    · rename_i hother
      rcases List.mem_cons.1 h with rfl | h
      · exact absurd (beq_iff_eq.2 rfl) hother
      · exact ih _ h

theorem Cursor.mem_skipWhitespace {b : UInt8} (h : b ∈ c.rest) (hb : ¬ isWhitespace b) :
    b ∈ c.skipWhitespace.rest := by
  rw [← List.takeWhile_append_dropWhile (p := isWhitespace) (l := c.rest)] at h
  rcases List.mem_append.1 h with h | h
  · exact absurd (List.all_eq_true.1 List.all_takeWhile b h) hb
  · exact h

theorem Tag.greaterThan_mem_of_readParts {dialect : Dialect} {tagStart : Nat} {separated : Bool}
    {found : List TagPart} {tail : Span × Bool × Cursor}
    (h : readParts dialect tagStart separated c = .ok (found, tail)) : greaterThan ∈ c.rest := by
  fun_induction readParts dialect tagStart separated c generalizing found tail with
  | case1 | case5 | case7 | case8 => cases h
  | case2 separated c =>
    rename_i ih
    obtain ⟨more, hmore, -⟩ := map_cons_eq_ok h
    exact c.reaches_skipWhitespace.mem (ih hmore)
  | case3 separated c b rest hc hspace hclose =>
    rw [hc, beq_iff_eq.1 hclose]
    exact List.mem_cons_self
  | case4 separated c b rest hc hspace hclose hslash hend =>
    rw [hc]
    exact List.mem_cons_of_mem _ (List.mem_of_head? (beq_iff_eq.1 hend))
  | case6 separated c =>
    rename_i ih
    obtain ⟨more, hmore, -⟩ := map_cons_eq_ok h
    exact (c.reaches_advance 1).mem (ih hmore)
  | case9 separated c b rest hc hspace hclose hslash hseparated a next ha ih =>
    obtain ⟨more, hmore, -⟩ := map_cons_eq_ok h
    exact (readAttribute_spec ha).1.mem (ih hmore)

namespace Token

variable {dialect : Dialect} {token : Token}

theorem greaterThan_mem_of_readDelimited {construct : Construct} {make : Span → Span → Token}
    {opening : Nat} {terminator : Bytes} (hterminator : greaterThan ∈ terminator)
    (h : readDelimited construct make opening terminator c = .ok (token, next)) :
    greaterThan ∈ c.rest := by
  obtain ⟨stop, hstop, -⟩ := exists_of_readDelimited h
  exact (c.reaches_advance opening).mem (mem_of_seekBytes? hterminator hstop)

theorem greaterThan_mem_of_readDoctype (h : readDoctype c = .ok (token, next)) :
    greaterThan ∈ c.rest := by
  obtain ⟨rootEnd, afterId, subset, afterSubset, close, hroot, hid, hsubset, hclose, -⟩ :=
    exists_of_readDoctype h
  exact (reaches_afterSubset hroot hid hsubset).mem (mem_of_seekByte? hclose)

theorem greaterThan_mem_of_readInstruction (h : readInstruction dialect c = .ok (token, next)) :
    greaterThan ∈ c.rest := by
  obtain ⟨named, stop, hnamed, hstop, -⟩ := exists_of_readInstruction h
  exact ((c.reaches_advance 2).trans (reaches_afterName hnamed)).mem
    (mem_of_seekBytes? (by decide) hstop)

theorem greaterThan_mem_of_readCloseTag (h : readCloseTag dialect c = .ok (token, next)) :
    greaterThan ∈ c.rest := by
  obtain ⟨named, whitespace, close, hnamed, -, -, hclose⟩ := exists_of_readCloseTag h
  have htail := (c.reaches_advance 2).trans
    ((reaches_afterName hnamed).trans named.reaches_skipWhitespace)
  rcases hclose with ⟨rfl, hpeek, -⟩ | ⟨-, hseek, -⟩
  · exact htail.mem (mem_of_peek? hpeek)
  · exact htail.mem (mem_of_seekByte? hseek)

theorem greaterThan_mem_of_readOpenTag (h : readOpenTag dialect c = .ok (token, next)) :
    greaterThan ∈ c.rest := by
  obtain ⟨named, parts, close, selfClosing, hnamed, hparts, -⟩ := exists_of_readOpenTag h
  exact ((c.reaches_advance 1).trans (reaches_afterName hnamed)).mem
    (Tag.greaterThan_mem_of_readParts hparts)

theorem greaterThan_mem_of_readMarkup (h : readMarkup dialect c = .ok (token, next)) :
    greaterThan ∈ c.rest := by
  rw [readMarkup] at h
  split at h
  · exact greaterThan_mem_of_readDelimited (by decide) h
  split at h
  · exact greaterThan_mem_of_readDelimited (by decide) h
  split at h
  · exact greaterThan_mem_of_readDoctype h
  split at h
  · exact greaterThan_mem_of_readInstruction h
  split at h
  · exact greaterThan_mem_of_readCloseTag h
  exact greaterThan_mem_of_readOpenTag h

/-- A close tag is read in HTML if any `>` stands behind its name. -/
theorem readCloseTag_of_mem {opened named : Cursor} (hopened : c.advance 2 = opened)
    (hnamed : opened.afterName? = some named) (hend : greaterThan ∈ named.rest) :
    ∃ tag next, readCloseTag .html c = .ok (.closeTag tag, next) ∧ tag.start = c.upTo named ∧
      tag.name = opened.upTo named := by
  have htail := mem_skipWhitespace hend (by decide)
  rw [readCloseTag]
  dsimp only
  rw [hopened, hnamed]
  dsimp only
  split
  · rename_i hnone
    rw [List.head?_eq_none_iff.1 hnone] at htail
    cases htail
  · split
    · exact ⟨_, _, rfl, rfl, rfl⟩
    · obtain ⟨close, hclose⟩ := exists_seekByte? htail
      rw [if_neg (by decide), hclose]
      exact ⟨_, _, rfl, rfl, rfl⟩

/-- At a place that closes an element, with a `>` still to come, a close tag of that name is read. -/
theorem readMarkup_of_closesAt {name : Bytes} {input : Bytes} (hname : name.isWellFormedName)
    (hc : (start input).Reaches c) (h : ClosesAt name c.rest) (hend : greaterThan ∈ c.rest) :
    ∃ tag next, readMarkup .html c = .ok (.closeTag tag, next) ∧
      tag.start = Span.ofLength c.offset (2 + name.length) ∧
      tag.name = Span.ofLength (c.offset + 2) name.length ∧
      Bytes.sameName true (tag.name.slice input) name := by
  obtain ⟨written, behind, hrest, hsame, hbehind⟩ := h
  have hlength := Bytes.length_eq_of_sameName hsame
  have hwritten := Bytes.isWellFormedName_of_sameName hsame hname
  have hover : c.Over (Bytes.ofString "</" ++ written) ⟨c.offset + (2 + written.length), behind⟩ :=
    ⟨hrest, by rw [List.length_append]; rfl⟩
  obtain ⟨opened, hopening, hover⟩ := over_append.1 hover
  have hadvance : c.advance 2 = opened := hopening.advance
  have hopened : opened.offset = c.offset + 2 := hopening.offset
  -- The `>` is not among the bytes of the name, so something follows the name.
  have hmem : greaterThan ∈ behind := by
    rw [hrest] at hend
    rcases List.mem_append.1 (show greaterThan ∈ ([lessThan, slash] ++ written) ++ behind from hend) with
      hend | hend
    · rcases List.mem_append.1 hend with hend | hend
      · exact absurd hend (by decide)
      · exact absurd (isName_of_isWellFormedName hwritten _ hend) (by decide)
    · exact hend
  obtain ⟨b, more, rfl⟩ := List.exists_cons_of_ne_nil (List.ne_nil_of_mem hmem)
  have hnotName : ¬ isName b := by
    rcases hbehind b rfl with hb | rfl | rfl
    · exact forall_of_table (P := fun b => isWhitespace b → ¬ isName b) (by decide +kernel) b hb
    · decide
    · decide
  generalize hnamed : Cursor.mk (c.offset + (2 + written.length)) (b :: more) = named at hover
  have hoffset : named.offset = c.offset + (2 + name.length) := by rw [← hnamed, hlength]
  have hpeek : named.peek? = some b := by rw [← hnamed]; rfl
  have hstart : c.upTo named = Span.ofLength c.offset (2 + name.length) := by
    rw [upTo, hoffset, Span.ofLength]
  have htag : opened.upTo named = Span.ofLength (c.offset + 2) name.length := by
    rw [upTo, hoffset, hopened, Span.ofLength, Nat.add_assoc]
  obtain ⟨tag, next, hread, htagStart, htagName⟩ := readCloseTag_of_mem hadvance
    (hover.afterName? hwritten hpeek hnotName) (by rw [← hnamed]; exact hmem)
  refine ⟨tag, next, (readMarkup_of_closing hopening).trans hread, htagStart.trans hstart,
    htagName.trans htag, ?_⟩
  rwa [htagName, hover.slice (hc.trans hopening.reaches)]

end Token

end Ends

namespace TokenStream

variable {s t : TokenStream} {name : Bytes}

/-- The stream is inside a raw text element: in front of its literal text, at the place that closes it, or
where no construct can end any more. -/
inductive InLiteral (s : TokenStream) (name : Bytes) : Prop
  | opened : s.mode = .literal name → InLiteral s name
  | closing : s.mode = .content → ClosesAt name s.cursor.rest → greaterThan ∈ s.cursor.rest →
      InLiteral s name
  | trailing : s.mode = .content → greaterThan ∉ s.cursor.rest → InLiteral s name

theorem InLiteral.congr (h : s.InLiteral name) (hmode : t.mode = s.mode)
    (hcursor : t.cursor = s.cursor) : t.InLiteral name := by
  cases h with
  | opened hm => exact .opened (hmode.trans hm)
  | closing hm hcloses hend =>
    rw [← hcursor] at hcloses hend
    exact .closing (hmode.trans hm) hcloses hend
  | trailing hm hnone =>
    rw [← hcursor] at hnone
    exact .trailing (hmode.trans hm) hnone

/-- What is read inside a raw text element. The literal text goes up to the place that closes the element,
and where there is a close tag it is read. -/
inductive ReadsLiteral (s : TokenStream) (name : Bytes) : Result → Prop
  | text {stop : Cursor} {t : TokenStream} : s.cursor.Reaches stop →
      (ClosesAt name s.cursor.rest → greaterThan ∉ s.cursor.rest) →
      (∀ found, s.mode = .literal name → s.cursor.seekCloseTag? name true = some found →
        s.offset < found.offset → stop = found) →
      t.mode = .content → t.cursor = stop → t.InLiteral name →
      ReadsLiteral s name (.ok (some (.text (s.cursor.upTo stop))), t)
  | closed {tag : CloseTag} {t : TokenStream} : ClosesAt name s.cursor.rest → t.mode = .content →
      tag.start = Span.ofLength s.offset (2 + name.length) →
      tag.name = Span.ofLength (s.offset + 2) name.length →
      Bytes.sameName true (tag.name.slice s.input) name →
      ReadsLiteral s name (.ok (some (.closeTag tag)), t)
  | ended {t : TokenStream} : s.cursor.rest = [] → ReadsLiteral s name (.ok none, t)

theorem next_of_lessThan (hm : s.mode = .content) (h : s.cursor.peek? = some lessThan) :
    s.next = s.nextMarkup := by
  rw [next, hm]
  dsimp only
  rw [nextContent, h]
  rfl

theorem next_of_closesIn {ignoreCase : Bool} (hm : s.mode = .content)
    (h : ClosesIn ignoreCase name s.cursor.rest) : s.next = s.nextMarkup := by
  obtain ⟨rest, hrest⟩ := h.exists_cons
  refine next_of_lessThan hm ?_
  rw [peek?, hrest]
  rfl

section Reading

variable (hd : s.dialect = .html)

include hd

theorem readsLiteral_trailing (hm : s.mode = .content) (hnone : greaterThan ∉ s.cursor.rest) :
    s.ReadsLiteral name s.next := by
  have hloose : ¬ s.dialect.isStrict := by
    rw [hd]
    exact nofun
  have hout := outcome_next (s := s) (by rw [hm]; exact nofun)
  generalize s.next = result at hout
  cases hout with
  | ended hend => exact .ended hend
  | text hreach =>
    refine .text hreach (fun _ => hnone) (fun found hliteral => ?_) rfl rfl ?_
    · rw [hm] at hliteral
      cases hliteral
    · exact .trailing rfl fun hmem => hnone (hreach.mem hmem)
  | node hread | opened hread | repeated _ hread =>
    exact absurd (Token.greaterThan_mem_of_readMarkup hread) hnone
  | duplicate hstrict | refused hstrict | unended hstrict => exact absurd hstrict hloose

theorem readsLiteral_closing (hname : name.isWellFormedName) (hc : (start s.input).Reaches s.cursor)
    (hm : s.mode = .content) (hcloses : ClosesAt name s.cursor.rest)
    (hend : greaterThan ∈ s.cursor.rest) : s.ReadsLiteral name s.next := by
  obtain ⟨tag, after, hread, hstart, htag, hsame⟩ :=
    Token.readMarkup_of_closesAt hname hc hcloses hend
  have hnot : ∀ tag', Token.closeTag tag ≠ .openTag tag' := fun _ heq => by cases heq
  rw [next_of_closesIn hm hcloses, nextMarkup_of_node (by rw [hd]; exact hread) hnot]
  exact .closed hcloses hm hstart htag hsame

/-- What is read does not depend on the mode once the literal text is over. -/
theorem readsLiteral_content (hname : name.isWellFormedName) (hc : (start s.input).Reaches s.cursor)
    (hm : s.mode = .content)
    (h : ClosesAt name s.cursor.rest ∨ greaterThan ∉ s.cursor.rest) :
    s.ReadsLiteral name s.next := by
  by_cases hend : greaterThan ∈ s.cursor.rest
  · exact readsLiteral_closing hd hname hc hm (h.resolve_right (not_not_intro hend)) hend
  · exact readsLiteral_trailing hd hm hend

end Reading

/-- The place that closes an element, or the end of the document. -/
theorem closesAt_or_end (c : Cursor) (name : Bytes) :
    let stop := (c.seekCloseTag? name true).getD (c.skip fun _ => true)
    c.Reaches stop ∧ (ClosesAt name stop.rest ∨ greaterThan ∉ stop.rest) := by
  intro stop
  cases hseek : c.seekCloseTag? name true with
  | none =>
    have hstop : stop = c.skip fun _ => true := congrArg (Option.getD · _) hseek
    have hall : c.Over c.rest ⟨c.offset + c.rest.length, []⟩ := ⟨(List.append_nil _).symm, rfl⟩
    have hrest : stop.rest = [] := by
      rw [hstop, hall.skip (fun _ _ => rfl) nofun]
    refine ⟨?_, .inr ?_⟩
    · rw [hstop]
      exact c.reaches_skip _
    · rw [hrest]
      exact List.not_mem_nil
  | some found =>
    have hstop : stop = found := congrArg (Option.getD · _) hseek
    rw [hstop]
    exact ⟨reaches_seekCloseTag hseek, .inl (closesIn_of_seekCloseTag hseek)⟩

/-- Once the literal text is over, the stream reads as if it had not been asked for it. -/
theorem ReadsLiteral.of_content {r : Result} (h : ReadsLiteral { s with mode := .content } name r)
    (hover : ∀ found, s.cursor.seekCloseTag? name true = some found → ¬ s.offset < found.offset) :
    s.ReadsLiteral name r := by
  cases h with
  | ended hend => exact .ended hend
  | closed hcloses hm hstart htag hsame => exact .closed hcloses hm hstart htag hsame
  | text hreach hnot _ hm hcursor hin =>
    exact .text hreach hnot (fun found _ hfound hlt => absurd hlt (hover found hfound)) hm hcursor hin

theorem InLiteral.readsLiteral (hd : s.dialect = .html) (hname : name.isWellFormedName)
    (hc : (start s.input).Reaches s.cursor) (h : s.InLiteral name) : s.ReadsLiteral name s.next := by
  cases h with
  | closing hm hcloses hend => exact readsLiteral_closing hd hname hc hm hcloses hend
  | trailing hm hnone => exact readsLiteral_trailing hd hm hnone
  | opened hm =>
    obtain ⟨hreach, hstop⟩ := closesAt_or_end s.cursor name
    have hnext : s.next = s.nextLiteral name := by rw [TokenStream.next, hm]
    rw [hnext, nextLiteral_html hd, textUpTo]
    generalize hseek : (s.cursor.seekCloseTag? name true).getD (s.cursor.skip fun _ => true) = stop
      at hreach hstop ⊢
    have hfound : ∀ found, s.cursor.seekCloseTag? name true = some found → stop = found := by
      intro found hfound
      rw [hfound, Option.getD_some] at hseek
      exact hseek.symm
    by_cases hlt : s.offset < stop.offset
    · rw [if_pos (show ({ s with mode := .content } : TokenStream).offset < stop.offset from hlt)]
      refine .text hreach (fun hcloses => absurd hcloses ?_) (fun found _ hseek _ => hfound found hseek)
        rfl rfl ?_
      · refine not_closesIn_of_seekCloseTag (i := 0) fun found hseek => ?_
        rw [← hfound found hseek]
        exact hlt
      · by_cases hend : greaterThan ∈ stop.rest
        · exact .closing rfl (hstop.resolve_right (not_not_intro hend)) hend
        · exact .trailing rfl hend
    · -- Nothing is left of the literal text, and what comes after it is read at once.
      rw [if_neg (show ¬ ({ s with mode := .content } : TokenStream).offset < stop.offset from hlt)]
      have hsame : stop = s.cursor := by
        obtain ⟨bytes, hrest, hoffset⟩ := hreach
        have hnil : bytes.length = 0 := by
          rw [hoffset] at hlt
          simp only [offset] at hlt
          omega
        obtain rfl := List.eq_nil_of_length_eq_zero hnil
        exact over_nil.1 ⟨hrest, hoffset⟩
      rw [hsame] at hstop
      have hread := readsLiteral_content (s := { s with mode := .content }) hd hname hc rfl hstop
      refine hread.of_content fun found hseek => ?_
      rw [← hfound found hseek]
      exact hlt

end TokenStream

end MarkupStream
