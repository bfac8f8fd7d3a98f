import MarkupStream.Proofs.Tiling

/-!
The layout of tags. Every part of a tag takes a byte at least, the name of an attribute stands in front
of its value, and all of them stand between the `<` of the tag and its end. So no name in a tag reaches
into the value of an attribute.
-/
namespace MarkupStream

namespace Span

/-- No byte belongs to both spans. -/
def Apart (a b : Span) : Prop := a.stop ≤ b.start ∨ b.stop ≤ a.start

/-- The span lies between two offsets. -/
structure Within (start stop : Nat) (span : Span) : Prop where
  start_le : start ≤ span.start
  le : span.start ≤ span.stop
  stop_le : span.stop ≤ stop

theorem Within.mono {start stop : Nat} {span : Span} (h : span.Within start stop)
    {first last : Nat} (hfirst : first ≤ start) (hlast : stop ≤ last) : span.Within first last :=
  ⟨Nat.le_trans hfirst h.start_le, h.le, Nat.le_trans h.stop_le hlast⟩

theorem within_upTo {c next : Cursor} (h : c.Reaches next) :
    (c.upTo next).Within c.offset next.offset := ⟨Nat.le_refl _, h.offset_le, Nat.le_refl _⟩

end Span

theorem Tiles.within {start stop : Nat} {spans : List Span} (h : Tiles start spans stop) :
    ∀ span ∈ spans, span.Within start stop := by
  induction spans generalizing start with
  | nil => intro span hmem; cases hmem
  | cons first rest ih =>
    obtain ⟨hs, hle, hrest⟩ := h
    intro span hmem
    rcases List.mem_cons.1 hmem with rfl | hmem
    · exact ⟨Nat.le_of_eq hs.symm, by omega, hrest.le⟩
    · exact (ih hrest span hmem).mono hle (Nat.le_refl _)

/-- The name of an attribute comes first in it, and its value behind the name. -/
structure Attribute.LaidOut (a : Attribute) : Prop where
  start_eq : a.name.start = a.span.start
  name : a.name.Within a.span.start a.span.stop
  value : ∀ s, a.assigned = some s → s.value.Within a.name.stop a.span.stop

theorem mem_attributesOf {a : Attribute} {parts : List TagPart} :
    a ∈ attributesOf parts ↔ TagPart.attr a ∈ parts := by
  simp only [attributesOf, List.mem_filterMap]
  constructor
  · rintro ⟨part, hmem, hpart⟩
    cases part with
    | attr b =>
      obtain rfl : b = a := Option.some.inj hpart
      exact hmem
    | whitespace span => cases hpart
  · exact fun hmem => ⟨_, hmem, rfl⟩

/-- In parts that tile a piece of a document, no value reaches into a name. -/
theorem value_apart_name {parts : List TagPart} {start stop : Nat}
    (ht : Tiles start (parts.map TagPart.span) stop)
    (hl : ∀ a ∈ attributesOf parts, a.LaidOut) {a b : Attribute} {s : Assignment}
    (ha : a ∈ attributesOf parts) (hb : b ∈ attributesOf parts) (hs : a.assigned = some s) :
    s.value.Apart b.name := by
  have hva := (hl a ha).value s hs
  have hnb := (hl b hb).name
  have hna := (hl a ha).name
  simp only [mem_attributesOf] at ha hb hl
  induction parts generalizing start with
  | nil => cases ha
  | cons part rest ih =>
    obtain ⟨-, -, hrest⟩ := ht
    have hlater : ∀ c : Attribute, .attr c ∈ rest → part.span.stop ≤ c.span.start :=
      fun c hc => (hrest.within _ (List.mem_map_of_mem hc)).start_le
    rcases List.mem_cons.1 ha with rfl | ha'
    · rcases List.mem_cons.1 hb with hb' | hb'
      · obtain rfl : b = a := TagPart.attr.inj hb'
        exact .inr hva.start_le
      · have hstart : a.span.stop ≤ b.span.start := hlater b hb'
        exact .inl (Nat.le_trans hva.stop_le (Nat.le_trans hstart hnb.start_le))
    · rcases List.mem_cons.1 hb with rfl | hb'
      · have hstart : b.span.stop ≤ a.span.start := hlater a ha'
        refine .inr (Nat.le_trans hnb.stop_le (Nat.le_trans hstart ?_))
        exact Nat.le_trans hna.start_le (Nat.le_trans hna.le hva.start_le)
      · exact ih hrest ha' hb' fun c hc => hl c (List.mem_cons_of_mem _ hc)

namespace Tag

open Cursor

theorem readValue_within {dialect : Dialect} {tagStart : Nat} {c next : Cursor} {outer value : Span}
    (h : readValue dialect tagStart c = .ok (outer, value, next)) :
    value.Within c.offset next.offset := by
  rcases cases_readValue h with
    ⟨quote, close, -, -, hclose, -, rfl, -, rfl⟩ | ⟨b, -, -, -, rfl, rfl, rfl⟩
  · exact (Span.within_upTo (reaches_seek hclose)).mono (c.reaches_advance 1).offset_le
      (close.reaches_advance 1).offset_le
  · exact Span.within_upTo (c.reaches_skip _)

theorem laidOut_readAttribute {dialect : Dialect} {tagStart : Nat} {c next : Cursor} {a : Attribute}
    (h : readAttribute dialect tagStart c = .ok (a, next)) : a.LaidOut := by
  obtain ⟨named, hnamed, ⟨_, outer, value, -, rfl, hvalue, rfl⟩ | ⟨-, rfl, rfl⟩⟩ :=
    exists_of_readAttribute h
  · obtain ⟨hreach, rfl⟩ := readValue_spec hvalue
    have hvalued := reaches_valued named
    refine ⟨rfl, (Span.within_upTo (reaches_readName hnamed)).mono (Nat.le_refl _) ?_, ?_⟩
    · exact (hvalued.trans hreach).offset_le
    · rintro s ⟨⟩
      exact (readValue_within hvalue).mono hvalued.offset_le (Nat.le_refl _)
  · exact ⟨rfl, Span.within_upTo (reaches_readName hnamed), fun s hs => by cases hs⟩

theorem laidOut_readParts {dialect : Dialect} {tagStart : Nat} {separated : Bool} {c : Cursor}
    {parts : List TagPart} {tail : Span × Bool × Cursor}
    (h : readParts dialect tagStart separated c = .ok (parts, tail)) :
    ∀ a ∈ attributesOf parts, a.LaidOut := by
  simp only [mem_attributesOf]
  fun_induction readParts dialect tagStart separated c generalizing parts tail with
  | case1 | case5 | case7 | case8 => simp at h
  | case2 | case6 =>
    rename_i ih
    obtain ⟨rest, hr, rfl⟩ := map_cons_eq_ok h
    intro a hmem
    rcases List.mem_cons.1 hmem with hfirst | hmem
    · cases hfirst
    · exact ih hr a hmem
  | case3 | case4 =>
    simp only [Except.ok.injEq, Prod.mk.injEq] at h
    rw [← h.1]
    exact fun a hmem => absurd hmem List.not_mem_nil
  | case9 =>
    rename_i ha ih
    obtain ⟨rest, hr, rfl⟩ := map_cons_eq_ok h
    intro a hmem
    rcases List.mem_cons.1 hmem with hfirst | hmem
    · rw [TagPart.attr.inj hfirst]
      exact laidOut_readAttribute ha
    · exact ih hr a hmem

/-- Every part takes at least one byte, and the end of the tag another one. -/
theorem length_parts_lt {dialect : Dialect} {tagStart : Nat} {separated : Bool} {c : Cursor}
    {parts : List TagPart} {tail : Span × Bool × Cursor}
    (h : readParts dialect tagStart separated c = .ok (parts, tail)) :
    parts.length + tail.2.2.rest.length < c.rest.length := by
  fun_induction readParts dialect tagStart separated c generalizing parts tail with
  | case1 | case5 | case7 | case8 => simp at h
  | case2 separated c b rest hc hb next =>
    rename_i ih
    obtain ⟨found, hr, rfl⟩ := map_cons_eq_ok h
    have h1 := ih hr
    have h2 : next.rest.length < c.rest.length := length_skip_lt hc hb
    rw [List.length_cons]
    omega
  | case3 separated c b rest hc =>
    simp only [Except.ok.injEq, Prod.mk.injEq] at h
    rw [← h.1, ← h.2, rest_advance, hc]
    simp
  | case4 separated c b rest hc =>
    simp only [Except.ok.injEq, Prod.mk.injEq] at h
    rw [← h.1, ← h.2, rest_advance, hc]
    simp only [List.length_nil, List.length_drop, List.length_cons]
    omega
  | case6 separated c b rest hc _ _ _ _ _ next =>
    rename_i ih
    obtain ⟨found, hr, rfl⟩ := map_cons_eq_ok h
    have h1 := ih hr
    have h2 : next.rest.length < c.rest.length := by simp [next, hc]
    rw [List.length_cons]
    omega
  | case9 separated c b rest hc _ _ _ _ a next ha ih =>
    obtain ⟨found, hr, rfl⟩ := map_cons_eq_ok h
    have h1 := ih hr
    have h2 := length_readAttribute_lt (by simp [hc]) ha
    rw [List.length_cons]
    omega

end Tag

namespace Token

open Cursor

/-- The names in a tag: that of its element and those of its attributes. -/
def names : Token → List Span
  | openTag tag => tag.name :: (attributesOf tag.parts).map (·.name)
  | closeTag tag => [tag.name]
  | _ => []

/-- What an open tag is read as: its name, its parts and its end, one after the other. -/
structure Opens (c : Cursor) (tag : OpenTag) (next : Cursor) : Prop where
  name : tag.name.Within c.offset tag.name.stop
  parts : Tiles tag.name.stop (tag.parts.map TagPart.span ++ [tag.close]) next.offset
  laidOut : ∀ a ∈ attributesOf tag.parts, a.LaidOut
  count : tag.parts.length + next.rest.length < c.rest.length

theorem opens_readOpenTag {dialect : Dialect} {c next : Cursor} {token : Token}
    (h : readOpenTag dialect c = .ok (token, next)) :
    ∃ tag, token = openTag tag ∧ Opens c tag next := by
  obtain ⟨named, parts, close, selfClosing, hnamed, hparts, rfl⟩ := exists_of_readOpenTag h
  have hopened := c.reaches_advance 1
  have hname := reaches_afterName hnamed
  refine ⟨_, rfl, ?_, (Tag.readParts_spec hparts).2, Tag.laidOut_readParts hparts, ?_⟩
  · exact (Span.within_upTo hname).mono hopened.offset_le (Nat.le_refl _)
  · have hcount := Tag.length_parts_lt hparts
    have hlength := (hopened.trans hname).length
    have hle := (hopened.trans hname).offset_le
    dsimp only at hcount ⊢
    omega

theorem names_readDelimited {construct : Construct} {make : Span → Span → Token}
    (hmake : ∀ span content, (make span content).names = []) {opening : Nat} {terminator : Bytes}
    {c next : Cursor} {token : Token}
    (h : readDelimited construct make opening terminator c = .ok (token, next)) :
    token.names = [] := by
  obtain ⟨stop, -, -, rfl⟩ := exists_of_readDelimited h
  exact hmake _ _

theorem names_readDoctype {c next : Cursor} {token : Token}
    (h : readDoctype c = .ok (token, next)) : token.names = [] := by
  obtain ⟨_, _, _, _, _, -, -, -, -, -, rfl⟩ := exists_of_readDoctype h
  rfl

theorem names_readInstruction {dialect : Dialect} {c next : Cursor} {token : Token}
    (h : readInstruction dialect c = .ok (token, next)) : token.names = [] := by
  obtain ⟨named, stop, -, -, ⟨-, hdeclaration⟩ | ⟨-, -, rfl⟩⟩ := exists_of_readInstruction h
  · obtain ⟨_, _, -, -, -, rfl⟩ := exists_of_readDeclaration hdeclaration
    rfl
  · rfl

theorem within_readCloseTag {dialect : Dialect} {c next : Cursor} {token : Token}
    (h : readCloseTag dialect c = .ok (token, next)) :
    ∃ tag, token = closeTag tag ∧ tag.name.Within c.offset next.offset := by
  obtain ⟨named, whitespace, close, hnamed, rfl, rfl, hclose⟩ := exists_of_readCloseTag h
  have htail : named.Reaches close := by
    rcases hclose with ⟨rfl, -, -⟩ | ⟨-, hseek, -⟩
    · exact named.reaches_skipWhitespace
    · exact named.reaches_skipWhitespace.trans (reaches_seek hseek)
  exact ⟨_, rfl, (Span.within_upTo (reaches_afterName hnamed)).mono (c.reaches_advance 2).offset_le
    (htail.trans (close.reaches_advance 1)).offset_le⟩

/-- What is read as markup is an open tag, a close tag or a node without names. -/
theorem cases_readMarkup {dialect : Dialect} {c next : Cursor} {token : Token}
    (h : readMarkup dialect c = .ok (token, next)) :
    token.names = [] ∨ (∃ tag, token = closeTag tag ∧ tag.name.Within c.offset next.offset) ∨
      ∃ tag, token = openTag tag ∧ Opens c tag next := by
  rw [readMarkup] at h
  split at h
  · exact .inl (names_readDelimited (fun _ _ => rfl) h)
  split at h
  · exact .inl (names_readDelimited (fun _ _ => rfl) h)
  split at h
  · exact .inl (names_readDoctype h)
  split at h
  · exact .inl (names_readInstruction h)
  split at h
  · exact .inr (.inl (within_readCloseTag h))
  exact .inr (.inr (opens_readOpenTag h))

theorem opens_readMarkup {dialect : Dialect} {c next : Cursor} {tag : OpenTag}
    (h : readMarkup dialect c = .ok (openTag tag, next)) : Opens c tag next := by
  rcases cases_readMarkup h with hnone | ⟨_, htag, -⟩ | ⟨_, ⟨⟩, hopens⟩
  · cases hnone
  · cases htag
  · exact hopens

theorem Opens.attribute_within {c next : Cursor} {tag : OpenTag} (h : Opens c tag next)
    {a : Attribute} (ha : a ∈ attributesOf tag.parts) :
    a.span.Within tag.name.stop next.offset := by
  refine h.parts.within _ (List.mem_append_left _ (List.mem_map.2 ⟨.attr a, ?_, rfl⟩))
  exact mem_attributesOf.1 ha

/-- The names of a token lie in what was read for it. -/
theorem within_of_mem_names {dialect : Dialect} {c next : Cursor} {token : Token}
    (h : readMarkup dialect c = .ok (token, next)) :
    ∀ name ∈ token.names, name.Within c.offset next.offset := by
  intro name hmem
  rcases cases_readMarkup h with hnone | ⟨tag, rfl, hname⟩ | ⟨tag, rfl, hopens⟩
  · rw [hnone] at hmem
    cases hmem
  · rw [List.mem_singleton.1 hmem]
    exact hname
  · rcases List.mem_cons.1 hmem with rfl | hmem
    · exact hopens.name.mono (Nat.le_refl _) hopens.parts.le
    · obtain ⟨a, ha, rfl⟩ := List.mem_map.1 hmem
      have hspan := hopens.attribute_within ha
      have hstart := Nat.le_trans hopens.name.start_le hopens.name.le
      exact (hopens.laidOut a ha).name.mono (Nat.le_trans hstart hspan.start_le) hspan.stop_le

/-- No value in a tag reaches into a name in it. -/
theorem Opens.value_apart {c next : Cursor} {tag : OpenTag} (h : Opens c tag next)
    {a : Attribute} {s : Assignment} (ha : a ∈ attributesOf tag.parts) (hs : a.assigned = some s) :
    ∀ name ∈ (openTag tag).names, s.value.Apart name := by
  intro name hmem
  rcases List.mem_cons.1 hmem with rfl | hmem
  · have hname := (h.laidOut a ha).name
    have hvalue := (h.laidOut a ha).value s hs
    have hspan := h.attribute_within ha
    refine .inr (Nat.le_trans hspan.start_le (Nat.le_trans hname.start_le ?_))
    exact Nat.le_trans hname.le hvalue.start_le
  · obtain ⟨b, hb, rfl⟩ := List.mem_map.1 hmem
    obtain ⟨stop, hparts, -⟩ := (tiles_append _ _).1 h.parts
    exact value_apart_name hparts h.laidOut ha hb hs

/-- A token has at most two pieces more than bytes. -/
theorem length_pieces_le {dialect : Dialect} {c next : Cursor} {token : Token} (hc : c.rest ≠ [])
    (h : readMarkup dialect c = .ok (token, next)) :
    token.pieces.length + next.rest.length ≤ c.rest.length + 2 := by
  have hlength := length_readMarkup_lt hc h
  cases token with
  | openTag tag =>
    have hcount := (opens_readMarkup h).count
    simp only [pieces, List.length_cons, List.length_append, List.length_map, List.length_nil]
    omega
  | closeTag tag =>
    have hspace : tag.whitespace.toList.length ≤ 1 := by cases tag.whitespace <;> simp
    simp only [pieces, List.length_cons, List.length_append, List.length_nil]
    omega
  | _ =>
    simp only [pieces, List.length_cons, List.length_nil]
    omega

end Token

end MarkupStream
