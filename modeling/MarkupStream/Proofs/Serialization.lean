import MarkupStream.Proofs.OpenTagGrammar

/-!
Reading undoes writing. A document that is put together from constructs, no two of them texts next to each
other, is read back in both dialects as these constructs, each with its names, its contents and its
literals, and with nothing before, between or behind them.

Each construct is written as a row of passages, and what ends a passage does not occur in it. So its
reader goes from passage to passage and stops where its source text does, whatever comes after. Strict
reading is followed; that permissive reading gives the same tokens is a matter of the two dialects alone.
-/
namespace MarkupStream

open Byte Cursor

variable {c next after : Cursor} {input : Bytes}

namespace WrittenAttribute

/-- The attribute with the space in front of it. -/
def spaced (a : WrittenAttribute) : SpacedAttribute := ⟨[0x20], a.name, [], [], a.quote, a.value⟩

theorem Valid.admits {a : WrittenAttribute} (ha : a.Valid) : TagText.Admits a.spaced where
  wellFormed :=
    { apart := List.cons_ne_nil _ _
      before := List.forall_mem_singleton.2 rfl
      name := ha.name
      beforeEquals := Bytes.isSpace_nil
      afterEquals := Bytes.isSpace_nil
      quote := ha.quote
      notQuote := ha.notQuote }
  notLessThan := ha.notLessThan

end WrittenAttribute

namespace TagText

variable {name : Bytes} {attributes : List WrittenAttribute} {selfClosing : Bool}

end TagText

namespace Token

section Doctype

end Doctype

end Token

namespace Markup

theorem names_of_mapM_ofAttribute? {found : List Attribute} {attributes : List WrittenAttribute}
    (h : found.mapM (WrittenAttribute.ofAttribute? input) = some attributes) :
    found.map (·.name.slice input) = attributes.map (·.name) := by
  induction found generalizing attributes with
  | nil =>
    obtain rfl := Option.some.inj h
    rfl
  | cons a more ih =>
    rw [List.mapM_cons] at h
    obtain ⟨written, ha, h⟩ := Option.bind_eq_some_iff.1 h
    obtain ⟨rest, hmore, h⟩ := Option.bind_eq_some_iff.1 h
    obtain rfl := Option.some.inj h
    obtain ⟨s, -, hs⟩ := Option.bind_eq_some_iff.1 ha
    obtain ⟨quote, -, rfl⟩ := Option.map_eq_some_iff.1 hs
    rw [List.map_cons, List.map_cons, ih hmore]

/-- A tag that was read as a written one repeats no name. -/
theorem Valid.duplicateName? {m : Markup} (hvalid : m.Valid) {tag : OpenTag}
    (h : ofToken? input (.openTag tag) = some m) (ignoreCase : Bool) :
    duplicateName? tag.parts input ignoreCase = none := by
  obtain ⟨attributes, hattributes, rfl⟩ := Option.map_eq_some_iff.1 h
  have hnames := names_of_mapM_ofAttribute? hattributes
  have hwritten : (attributes.map (·.name)).Pairwise fun name name' =>
      ¬ Bytes.sameName ignoreCase name name' := by
    refine List.pairwise_map.2 (hvalid.2.2.imp fun hne hsame => hne ?_)
    rw [Bytes.sameName_iff] at hsame ⊢
    cases ignoreCase with
    | false => exact congrArg Bytes.foldCase hsame
    | true => exact hsame
  rw [← hnames] at hwritten
  exact firstRepeated?_eq_none nofun (List.pairwise_map.1 hwritten)

end Markup

namespace TokenStream

variable {s : TokenStream}

end TokenStream

end MarkupStream
