import MarkupStream.Element.Segments
import MarkupStream.Proofs.FoldedNames

/-!
Looking up elements. One pass over a table extends the segment of each letter from the first entry that begins
with the letter to the last one, whatever stands between the two. So a name is found in the segment of its own
letter if the table has it at all; and if the table is sorted, no name is compared with one of another letter.
The indices are words as long as the table has fewer entries than there are words.
-/
namespace MarkupStream.Catalog

section Initials

/-- The place in the alphabet of the letter that a name begins with. -/
def initial? (name : Bytes) : Option Nat := name.head?.bind letterIndex?

def beginsSmall (name : Bytes) : Bool := name.head?.any fun b => 0x61 ≤ b && b ≤ 0x7A

variable {a b name : Bytes} {letter : Nat}

theorem initial?_lt (h : initial? name = some letter) : letter < 26 := by
  obtain ⟨b, -, hb⟩ := Option.bind_eq_some_iff.1 h
  rw [letterIndex?] at hb
  split at hb
  · rename_i hsmall
    simp only [Bool.and_eq_true, decide_eq_true_eq, UInt8.le_iff_toNat_le] at hsmall
    have hlast : (0x7A : UInt8).toNat = 122 := rfl
    obtain rfl := Option.some.inj hb
    omega
  · cases hb

theorem initial?_of_sameName (h : Bytes.sameName true a b) : initial? a = initial? b := by
  have hfold : ∀ name : Bytes, initial? name.foldCase = initial? name := by
    intro name
    cases name with
    | nil => rfl
    | cons b rest => exact letterIndex?_toLower b
  rw [Bytes.sameName_iff, if_pos rfl] at h
  rw [← hfold a, h, hfold b]

/-- The first byte of such a name is its own small form, so that it gives the place itself. -/
theorem exists_initial (h : beginsSmall name) :
    ∃ b rest, name = b :: rest ∧ 0x61 ≤ b.toNat ∧ b.toNat ≤ 0x7A ∧
      initial? name = some (b.toNat - 0x61) := by
  cases name with
  | nil => cases h
  | cons b rest =>
    have hsmall : 0x61 ≤ b.toNat ∧ b.toNat ≤ 0x7A := by
      simp only [beginsSmall, List.head?_cons, Option.any_some, Bool.and_eq_true, decide_eq_true_eq,
        UInt8.le_iff_toNat_le] at h
      exact h
    have hlower : Byte.toLower b = b := by
      rw [Byte.toLower, if_neg]
      simp only [Bool.and_eq_true, decide_eq_true_eq, UInt8.le_iff_toNat_le]
      have hcapital : (0x5A : UInt8).toNat = 90 := rfl
      omega
    refine ⟨b, rest, rfl, hsmall.1, hsmall.2, ?_⟩
    rw [initial?, List.head?_cons, Option.bind_some, letterIndex?, hlower]
    exact if_pos h

/-- Names that begin with small letters are ordered by these in the first place. -/
theorem initial?_le_of_lt (h : a < b) (ha : beginsSmall a) (hb : beginsSmall b) {i j : Nat}
    (hi : initial? a = some i) (hj : initial? b = some j) : i ≤ j := by
  obtain ⟨x, xs, rfl, -, -, hx⟩ := exists_initial ha
  obtain ⟨y, ys, rfl, -, -, hy⟩ := exists_initial hb
  obtain rfl := Option.some.inj (hx.symm.trans hi)
  obtain rfl := Option.some.inj (hy.symm.trans hj)
  have hle : x.toNat ≤ y.toNat := by
    rcases List.cons_lt_cons_iff.1 h with hlt | ⟨rfl, -⟩
    · exact Nat.le_of_lt (UInt8.lt_iff_toNat_lt.1 hlt)
    · exact Nat.le_refl _
  omega

end Initials

section Tables

/-- All names of the table begin with small letters. -/
def IsSmall (table : List ElementSpec) : Prop := ∀ spec ∈ table, beginsSmall spec.name

def IsSorted (table : List ElementSpec) : Prop := table.Pairwise fun a b => a.name < b.name

/-- There is an entry at the index, and it begins with the letter. -/
def BeginsAt (table : List ElementSpec) (letter i : Nat) : Prop :=
  ∃ spec, table[i]? = some spec ∧ initial? spec.name = some letter

variable {table before : List ElementSpec} {spec : ElementSpec} {letter i j k : Nat}

theorem isSmall_all : IsSmall ElementSpec.all := by
  unfold IsSmall
  decide

theorem isSorted_all : IsSorted ElementSpec.all := by
  unfold IsSorted
  decide

theorem BeginsAt.lt (h : BeginsAt table letter i) : i < table.length := by
  obtain ⟨spec, hspec, -⟩ := h
  exact (List.getElem?_eq_some_iff.1 hspec).1

theorem beginsAt_concat : BeginsAt (before ++ [spec]) letter i ↔
    BeginsAt before letter i ∨ i = before.length ∧ initial? spec.name = some letter := by
  constructor
  · rintro ⟨other, hother, hletter⟩
    by_cases hi : i < before.length
    · rw [List.getElem?_append_left hi] at hother
      exact .inl ⟨other, hother, hletter⟩
    · rw [List.getElem?_append_right (Nat.le_of_not_lt hi), List.getElem?_singleton] at hother
      split at hother
      · obtain rfl := Option.some.inj hother
        exact .inr ⟨by omega, hletter⟩
      · cases hother
  · rintro (h | ⟨rfl, hletter⟩)
    · obtain ⟨other, hother, hletter⟩ := id h
      exact ⟨other, (List.getElem?_append_left h.lt).trans hother, hletter⟩
    · exact ⟨spec, List.getElem?_concat_length, hletter⟩

/-- In a sorted table no other letter comes between two entries that begin with a letter. -/
theorem IsSorted.beginsAt_between (hsorted : IsSorted table) (hsmall : IsSmall table)
    (hi : BeginsAt table letter i) (hj : BeginsAt table letter j) (hik : i ≤ k) (hkj : k ≤ j) :
    BeginsAt table letter k := by
  have hle : ∀ {m n x y : Nat}, BeginsAt table x m → BeginsAt table y n → m ≤ n → x ≤ y := by
    rintro m n x y ⟨a, hm, hx⟩ ⟨b, hn, hy⟩ hmn
    obtain ⟨hmlt, rfl⟩ := List.getElem?_eq_some_iff.1 hm
    obtain ⟨hnlt, rfl⟩ := List.getElem?_eq_some_iff.1 hn
    rcases Nat.eq_or_lt_of_le hmn with rfl | hlt
    · exact Nat.le_of_eq (Option.some.inj (hx.symm.trans hy))
    · exact initial?_le_of_lt (List.pairwise_iff_getElem.1 hsorted m n hmlt hnlt hlt)
        (hsmall _ (List.getElem_mem _)) (hsmall _ (List.getElem_mem _)) hx hy
  have hk : k < table.length := Nat.lt_of_le_of_lt hkj hj.lt
  -- The letter at the place between is neither before the letter of the ends nor behind it.
  obtain ⟨_, _, -, -, -, hinitial⟩ := exists_initial (hsmall _ (List.getElem_mem hk))
  have hbegins : BeginsAt table _ k := ⟨_, List.getElem?_eq_getElem hk, hinitial⟩
  rwa [Nat.le_antisymm (hle hbegins hj hkj) (hle hi hbegins hik)] at hbegins

end Tables

section Segments

variable {table before rest : List ElementSpec} {spec : ElementSpec} {segment : Segment}
  {segments : List Segment} {letter : Nat}

/-- The segment goes from the first entry that begins with the letter to the last one, or it has not begun
and there is none. -/
structure Segment.Spans (segment : Segment) (letter : Nat) (table : List ElementSpec) : Prop where
  ends : segment = ⟨0, 0⟩ ∨ segment.start < segment.stop ∧
    BeginsAt table letter segment.start ∧ BeginsAt table letter (segment.stop - 1)
  covers : ∀ i, BeginsAt table letter i → segment.start ≤ i ∧ i < segment.stop

theorem Segment.Spans.inside (h : segment.Spans letter table) :
    segment.start ≤ segment.stop ∧ segment.stop ≤ table.length := by
  rcases h.ends with rfl | ⟨hlt, -, hlast⟩
  · exact ⟨Nat.le_refl _, Nat.zero_le _⟩
  · have hinside := hlast.lt
    omega

theorem Segment.Spans.keep (h : segment.Spans letter before) (hspec : initial? spec.name ≠ some letter) :
    segment.Spans letter (before ++ [spec]) := by
  have hsame : ∀ i, BeginsAt (before ++ [spec]) letter i ↔ BeginsAt before letter i := by
    intro i
    rw [beginsAt_concat, or_iff_left fun hnew => hspec hnew.2]
  refine ⟨?_, ?_⟩
  · rw [hsame, hsame]
    exact h.ends
  · intro i hi
    exact h.covers i ((hsame i).1 hi)

/-- The new entry is the last one of its letter, and the first one if the segment has not begun. -/
theorem Segment.Spans.extend (h : segment.Spans letter before) (hspec : initial? spec.name = some letter) :
    (segment.extend before.length).Spans letter (before ++ [spec]) := by
  have hnew : BeginsAt (before ++ [spec]) letter before.length := beginsAt_concat.2 (.inr ⟨rfl, hspec⟩)
  rcases h.ends with rfl | ⟨hlt, hfirst, -⟩
  · refine ⟨.inr ⟨Nat.lt_succ_self _, hnew, hnew⟩, ?_⟩
    intro i hi
    change before.length ≤ i ∧ i < before.length + 1
    rcases beginsAt_concat.1 hi with hold | ⟨rfl, -⟩
    · exact absurd (h.covers i hold).2 (Nat.not_lt_zero i)
    · exact ⟨Nat.le_refl _, Nat.lt_succ_self _⟩
  · have hextend : segment.extend before.length = ⟨segment.start, before.length + 1⟩ := by
      rw [Segment.extend, if_neg]
      rw [beq_iff_eq]
      omega
    have hstart := hfirst.lt
    rw [hextend]
    refine ⟨.inr ⟨Nat.lt_succ_of_lt hstart, beginsAt_concat.2 (.inl hfirst), hnew⟩, ?_⟩
    intro i hi
    change segment.start ≤ i ∧ i < before.length + 1
    rcases beginsAt_concat.1 hi with hold | ⟨rfl, -⟩
    · exact ⟨(h.covers i hold).1, Nat.lt_succ_of_lt hold.lt⟩
    · exact ⟨Nat.le_of_lt hstart, Nat.lt_succ_self _⟩

/-- There is a segment for each letter, and it goes from the first entry of the letter to the last. -/
structure Spanned (segments : List Segment) (table : List ElementSpec) : Prop where
  length : segments.length = 26
  spans : ∀ (letter : Nat) (segment : Segment), segments[letter]? = some segment →
    segment.Spans letter table

theorem spanned_replicate : Spanned (List.replicate 26 ⟨0, 0⟩) [] := by
  refine ⟨List.length_replicate, ?_⟩
  intro letter segment hsegment
  obtain ⟨-, rfl⟩ := List.mem_replicate.1 (List.mem_of_getElem? hsegment)
  exact ⟨.inl rfl, fun i hi => absurd hi.lt (Nat.not_lt_zero i)⟩

/-- One entry is added. -/
theorem Spanned.add (h : Spanned segments before) (hspec : initial? spec.name = some letter) :
    Spanned (segments.modify letter (·.extend before.length)) (before ++ [spec]) := by
  refine ⟨(List.length_modify _ _ _).trans h.length, ?_⟩
  intro other segment hsegment
  rw [List.getElem?_modify] at hsegment
  obtain ⟨old, hold, rfl⟩ := Option.map_eq_some_iff.1 hsegment
  have hspans := h.spans other old hold
  by_cases hletter : letter = other
  · subst hletter
    rw [if_pos rfl]
    exact hspans.extend hspec
  · rw [if_neg hletter]
    apply hspans.keep
    rw [hspec]
    exact fun heq => hletter (Option.some.inj heq)

/-- All entries are added. -/
theorem Spanned.segmentsFrom (h : Spanned segments before) (hsmall : IsSmall rest) :
    Spanned (segmentsFrom segments before.length rest) (before ++ rest) := by
  induction rest generalizing segments before with
  | nil => rwa [Catalog.segmentsFrom, List.append_nil]
  | cons spec rest ih =>
    obtain ⟨hspec, hrest⟩ := List.forall_mem_cons.1 hsmall
    obtain ⟨_, _, -, -, -, hinitial⟩ := exists_initial hspec
    have hlength : before.length + 1 = (before ++ [spec]).length := by
      rw [List.length_append, List.length_singleton]
    have hlater := ih (h.add hinitial) hrest
    rw [← List.append_cons, ← hlength] at hlater
    rw [initial?] at hinitial
    rwa [Catalog.segmentsFrom, hinitial]

theorem spanned_ofSorted (hsmall : IsSmall table) : Spanned (ofSorted table).segments table :=
  spanned_replicate.segmentsFrom hsmall

/-- If the table is sorted, the entries of a segment begin with its letter. -/
theorem Spanned.initial_of_mem_entries (h : Spanned segments table) (hsorted : IsSorted table)
    (hsmall : IsSmall table) (hsegment : segments[letter]? = some segment)
    (hspec : spec ∈ entries ⟨table, segments⟩ segment) : initial? spec.name = some letter := by
  obtain ⟨i, hi⟩ := List.getElem?_of_mem hspec
  rw [entries, List.getElem?_take] at hi
  split at hi
  · rename_i hlt
    rw [List.getElem?_drop] at hi
    rcases (h.spans letter segment hsegment).ends with rfl | ⟨-, hfirst, hlast⟩
    · exact absurd hlt (Nat.not_lt_zero i)
    · obtain ⟨other, hother, hletter⟩ :=
        hsorted.beginsAt_between hsmall hfirst hlast (Nat.le_add_right segment.start i) (by omega)
      rwa [← Option.some.inj (hi.symm.trans hother)] at hletter
  · cases hi

end Segments

section Lookup

variable {table : List ElementSpec} {segments : List Segment} {name : Bytes}

/-- What lies outside a slice is no find. -/
theorem find?_slice {α : Type} {p : α → Bool} {items : List α} {start stop : Nat}
    (h : ∀ i x, items[i]? = some x → p x → start ≤ i ∧ i < stop) :
    ((items.drop start).take (stop - start)).find? p = items.find? p := by
  have hbefore : (items.take start).find? p = none := by
    rw [List.find?_eq_none]
    intro x hx hp
    obtain ⟨i, hi⟩ := List.getElem?_of_mem hx
    rw [List.getElem?_take] at hi
    split at hi
    · have hin := h i x hi hp
      omega
    · cases hi
  have hbehind : ((items.drop start).drop (stop - start)).find? p = none := by
    rw [List.find?_eq_none]
    intro x hx hp
    obtain ⟨i, hi⟩ := List.getElem?_of_mem hx
    rw [List.drop_drop, List.getElem?_drop] at hi
    have hin := h _ x hi hp
    omega
  have hparts : items = items.take start ++
      ((items.drop start).take (stop - start) ++ (items.drop start).drop (stop - start)) := by
    rw [List.take_append_drop, List.take_append_drop]
  have hfind := congrArg (List.find? p) hparts
  rw [List.find?_append, hbefore, Option.none_or, List.find?_append, hbehind, Option.or_none] at hfind
  exact hfind.symm

theorem lookup_of_initial {letter : Nat} (hname : initial? name = some letter)
    (hlt : letter < segments.length) :
    lookup ⟨table, segments⟩ name =
      ((table.drop segments[letter].start).take (segments[letter].stop - segments[letter].start)).find?
        fun spec => Bytes.sameName true spec.name name := by
  rw [initial?] at hname
  simp only [lookup, hname, List.getElem?_eq_getElem hlt, entries]

/-- The segments give what a search of the whole table gives, in whatever order the table is. -/
theorem Spanned.lookup_eq_find? (h : Spanned segments table) (hsmall : IsSmall table) (name : Bytes) :
    lookup ⟨table, segments⟩ name = table.find? fun spec => Bytes.sameName true spec.name name := by
  cases hname : initial? name with
  | none =>
    have hlookup : lookup ⟨table, segments⟩ name = none := by
      rw [initial?] at hname
      rw [lookup, hname]
    rw [hlookup, eq_comm, List.find?_eq_none]
    intro spec hspec hsame
    obtain ⟨_, _, -, -, -, hsome⟩ := exists_initial (hsmall spec hspec)
    rw [initial?_of_sameName hsame, hname] at hsome
    cases hsome
  | some letter =>
    have hlt := initial?_lt hname
    rw [← h.length] at hlt
    have hspans := h.spans letter _ (List.getElem?_eq_getElem hlt)
    rw [lookup_of_initial hname hlt]
    apply find?_slice
    intro i spec hspec hsame
    exact hspans.covers i ⟨spec, hspec, (initial?_of_sameName hsame).trans hname⟩

end Lookup

section Words

variable {table before rest : List ElementSpec} {segments : List Segment}

def Segment.toWords (segment : Segment) : WordSegment :=
  ⟨segment.start.toUInt16, segment.stop.toUInt16⟩

theorem toNat_toUInt16 {n : Nat} (h : n < 65536) : n.toUInt16.toNat = n := Nat.mod_eq_of_lt h

theorem extend_toWords {segment : Segment} (h : segment.stop < 65536) (index : Nat) :
    segment.toWords.extend index = (segment.extend index).toWords := by
  have hzero : (segment.stop.toUInt16 == 0) = (segment.stop == 0) := by
    rw [Bool.eq_iff_iff, beq_iff_eq, beq_iff_eq, ← UInt16.toNat_inj, toNat_toUInt16 h]
    rfl
  rw [WordSegment.extend, Segment.extend, Segment.toWords, Segment.toWords, hzero]
  split <;> rfl

theorem placeOf?_of_le {b : UInt8} (h : 0x61 ≤ b.toNat) : placeOf? b = some (b.toNat - 0x61) := by
  have hle : (0x61 : UInt8) ≤ b := UInt8.le_iff_toNat_le.2 h
  rw [placeOf?, if_pos hle, UInt8.toNat_sub_of_le _ _ hle]
  rfl

theorem slice?_eq {start stop : Nat} (h : start ≤ stop ∧ stop ≤ table.length) :
    slice? table start stop = some ((table.drop start).take (stop - start)) := by
  rw [slice?, if_pos h, List.drop_take]

theorem set_toWords {letter index : Nat} (hlt : letter < segments.length)
    (hstop : segments[letter].stop < 65536) :
    (segments.map Segment.toWords).set letter (segments[letter].toWords.extend index) =
      (segments.modify letter (·.extend index)).map Segment.toWords := by
  have hmodify : segments.modify letter (·.extend index) =
      segments.set letter (segments[letter].extend index) := by
    refine List.ext_getElem ?_ fun i _ _ => ?_
    · rw [List.length_modify, List.length_set]
    · rw [List.getElem_modify, List.getElem_set]
      split
      · subst letter
        rfl
      · rfl
  rw [extend_toWords hstop, hmodify, List.map_set]

/-- The pass in words does what the pass in numbers does, and no read leaves what there is. -/
theorem Spanned.fillFrom?_toWords (h : Spanned segments before) (hsmall : IsSmall rest)
    (hfits : (before ++ rest).length < 65536) :
    fillFrom? (segments.map Segment.toWords) before.length rest =
      some ((Catalog.segmentsFrom segments before.length rest).map Segment.toWords) := by
  induction rest generalizing segments before with
  | nil => rfl
  | cons spec rest ih =>
    obtain ⟨hspec, hrest⟩ := List.forall_mem_cons.1 hsmall
    obtain ⟨b, tail, hname, hfirst, hlast, hinitial⟩ := exists_initial hspec
    have hlength : before.length + 1 = (before ++ [spec]).length := by
      rw [List.length_append, List.length_singleton]
    have hhead : spec.name.head? = some b := by rw [hname, List.head?_cons]
    have hlt : b.toNat - 0x61 < segments.length := by
      rw [h.length]
      omega
    have hget : segments[b.toNat - 0x61]? = some segments[b.toNat - 0x61] := List.getElem?_eq_getElem hlt
    -- A segment stops within the entries that have been added, and so it does at a word.
    have hstop : segments[b.toNat - 0x61].stop < 65536 := by
      have hinside := (h.spans _ _ hget).inside.2
      rw [List.length_append] at hfits
      omega
    rw [List.append_cons] at hfits
    have hlater := ih (h.add hinitial) hrest hfits
    rw [← set_toWords hlt hstop, ← hlength] at hlater
    rw [initial?] at hinitial
    rw [Catalog.segmentsFrom, hinitial]
    simpa only [fillFrom?, hhead, placeOf?_of_le hfirst, List.getElem?_map, hget, Option.map_some,
      Option.bind_eq_bind, Option.bind_some] using hlater

theorem wordSegments?_eq (hsmall : IsSmall table) (hfits : table.length < 65536) :
    wordSegments? table = some ((ofSorted table).segments.map Segment.toWords) :=
  spanned_replicate.fillFrom?_toWords hsmall hfits

/-- Looking a name up in words finds what looking it up in numbers does, and no read leaves what there is. -/
theorem Spanned.lookupIn?_toWords (h : Spanned segments table) (hfits : table.length < 65536) (name : Bytes) :
    lookupIn? table (segments.map Segment.toWords) name = some (lookup ⟨table, segments⟩ name) := by
  cases name with
  | nil => rfl
  | cons b rest =>
    have hinitial : initial? (b :: rest) = letterIndex? b := rfl
    rw [letterIndex?] at hinitial
    rw [lookupIn?, List.head?_cons]
    dsimp only at hinitial ⊢
    split
    · rename_i hsmall
      have hle : 0x61 ≤ Byte.toLower b := of_decide_eq_true (Bool.and_eq_true_iff.1 hsmall).1
      have hplace : (Byte.toLower b - 0x61).toNat = (Byte.toLower b).toNat - 0x61 :=
        UInt8.toNat_sub_of_le _ _ hle
      rw [if_pos hsmall, ← hplace] at hinitial
      have hlt := initial?_lt hinitial
      rw [← h.length] at hlt
      have hget := List.getElem?_eq_getElem hlt
      have hinside := (h.spans _ _ hget).inside
      rw [lookup_of_initial hinitial hlt, List.getElem?_map, hget]
      simp only [Option.map_some, Option.bind_eq_bind, Option.bind_some, Segment.toWords,
        toNat_toUInt16 (Nat.lt_of_le_of_lt hinside.2 hfits),
        toNat_toUInt16 (Nat.lt_of_le_of_lt (Nat.le_trans hinside.1 hinside.2) hfits), slice?_eq hinside]
      rfl
    · rename_i hother
      rw [if_neg hother, initial?] at hinitial
      rw [lookup, hinitial]

end Words

/-- The pass over the elements of HTML never leaves what there is. The segment that it gives to a letter has only
entries that begin with the letter, and looking a name up in the segments, be it in words or in numbers, finds
what searching all elements finds: the first one of that name, or none. -/
theorem lookup_finds_first :
    ∃ segments, wordSegments? ElementSpec.all = some segments ∧
      segments = html.segments.map Segment.toWords ∧
      (∀ (letter : Nat) (segment : Segment), html.segments[letter]? = some segment →
        ∀ spec ∈ html.entries segment, initial? spec.name = some letter) ∧
      ∀ name : Bytes,
        lookupIn? ElementSpec.all segments name =
            some (ElementSpec.all.find? fun spec => Bytes.sameName true spec.name name) ∧
          html.lookup name = ElementSpec.all.find? fun spec => Bytes.sameName true spec.name name := by
  have hspanned := spanned_ofSorted isSmall_all
  have hfits : ElementSpec.all.length < 65536 := by decide
  refine ⟨_, wordSegments?_eq isSmall_all hfits, rfl, ?_, ?_⟩
  · intro letter segment hsegment spec hspec
    exact hspanned.initial_of_mem_entries isSorted_all isSmall_all hsegment hspec
  · intro name
    have hlookup := hspanned.lookup_eq_find? isSmall_all name
    exact ⟨(hspanned.lookupIn?_toWords hfits name).trans (congrArg some hlookup), hlookup⟩

example : html.lookup (Bytes.ofString "TextArea") = some (.ofRawText "textarea") := by decide

end MarkupStream.Catalog
