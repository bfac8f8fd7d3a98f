import Mathlib.Order.Nat
import MarkupStream.Proofs.Literal
import MarkupStream.Proofs.Rounds

/-!
The search for the end of literal text. It goes from one `</` to the next and takes the first one behind which
the name is closed. What it gives is the least place, from where it began, that closes the name: it leaves out
the places between two pairs and the slash of each, and none of them begins with `</`.
-/
namespace MarkupStream

open Byte

section Places

/-- The bytes between two offsets, if both lie inside. -/
def Bytes.between? (input : Bytes) (start stop : Nat) : Option Bytes :=
  if start ≤ stop ∧ stop ≤ input.length then some ((input.drop start).take (stop - start)) else none

/-- Whether a name may end in front of a byte, or in front of the end of the document. -/
def endsNameAt (input : Bytes) (offset : Nat) : Bool :=
  (input[offset]?).all fun b => isWhitespace b || b == greaterThan || b == slash

variable {input name : Bytes} {ignoreCase : Bool} {offset : Nat}

/-- A name that does not fit in front of the end is not there, be it looked at as a piece or as what is
left of one. -/
theorem closesWith_drop (h : offset ≤ input.length) :
    Cursor.closesWith name ignoreCase (input.drop offset) =
      ((input.between? offset (offset + name.length)).any (Bytes.sameName ignoreCase · name) &&
        endsNameAt input (offset + name.length)) := by
  rw [Cursor.closesWith]
  congr 1
  · rw [Bytes.between?]
    by_cases hfits : offset + name.length ≤ input.length
    · rw [if_pos ⟨Nat.le_add_right _ _, hfits⟩, Nat.add_sub_cancel_left, Option.any_some]
    · rw [if_neg fun hinside => hfits hinside.2, Option.any_none, Bool.eq_false_iff]
      intro hsame
      have hlength := Bytes.length_eq_of_sameName hsame
      rw [List.length_take, List.length_drop] at hlength
      omega
  · rw [List.drop_drop, endsNameAt, ← List.head?_drop]
    cases input.drop (offset + name.length) <;> rfl

end Places

section Loop

variable {σ τ α β : Type} {round : σ → σ ⊕ α} {round' : τ → τ ⊕ β}

/-- A loop goes round like another one if it does in each of its rounds. -/
theorem EndsWithin.image (P : σ → Prop) (view : σ → τ) (result : α → β)
    (hagain : ∀ {s t}, P s → round s = .inl t → P t ∧ round' (view s) = .inl (view t))
    (hleave : ∀ {s a}, P s → round s = .inr a → round' (view s) = .inr (result a))
    {bound : Nat} {s : σ} {a : α} (hs : P s) (h : EndsWithin round bound s a) :
    EndsWithin round' bound (view s) (result a) := by
  obtain ⟨rounds, hle, hleaves⟩ := h
  refine ⟨rounds, hle, ?_⟩
  clear hle
  induction hleaves with
  | leave hround => exact .leave (hleave hs hround)
  | again hround _ ih =>
    obtain ⟨ht, hround'⟩ := hagain hs hround
    exact .again hround' (ih ht)

end Loop

section Search

variable {input name : Bytes} {ignoreCase : Bool}

/-- One round of the search: the next `</` from an offset on, which either closes the name or is passed over,
both its bytes. -/
def searchRound (input name : Bytes) (ignoreCase : Bool) (start : Nat) : Nat ⊕ Option Nat :=
  match (Cursor.ofOffset input start).seekBytes? [lessThan, slash] with
  | none => .inr none
  | some pair =>
    let nameStart := pair.offset + 2
    let nameStop := nameStart + name.length
    if (input.between? nameStart nameStop).any (Bytes.sameName ignoreCase · name) &&
        endsNameAt input nameStop then .inr (some pair.offset)
    else .inl nameStart

theorem Cursor.reaches_ofOffset (input : Bytes) (offset : Nat) :
    (start input).Reaches (ofOffset input offset) := by
  refine ⟨input.take offset, (List.take_append_drop offset input).symm, ?_⟩
  rw [start, Nat.zero_add]
  rfl

/-- A cursor is known by its offset. -/
theorem Cursor.Reaches.eq_ofOffset {c : Cursor} (h : (start input).Reaches c) :
    c = ofOffset input c.offset := by
  obtain ⟨before, hinput, hoffset⟩ := h
  obtain ⟨offset, rest⟩ := c
  obtain rfl : input = before ++ rest := hinput
  obtain rfl : offset = before.length := hoffset.trans (Nat.zero_add _)
  simp [ofOffset]

/-- Where a pair was found there are two bytes at least. -/
theorem Cursor.reaches_pair {c pair : Cursor} (h : c.seekBytes? [lessThan, slash] = some pair) :
    c.Reaches pair ∧ c.Reaches (pair.advance 2) ∧ (pair.advance 2).offset = pair.offset + 2 := by
  obtain ⟨rest, hrest⟩ := List.isPrefixOf_iff_prefix.1 (found_of_seek? h)
  refine ⟨reaches_seek h, (reaches_seek h).trans (reaches_advance pair 2), ?_⟩
  rw [advance, ← hrest]
  rfl

/-- The round of the search at an offset, by what is found from a cursor there. -/
theorem searchRound_offset {c : Cursor} (hc : (Cursor.start input).Reaches c) :
    searchRound input name ignoreCase c.offset =
      match c.seekBytes? [lessThan, slash] with
      | none => .inr none
      | some pair =>
        if Cursor.closesWith name ignoreCase (pair.advance 2).rest then .inr (some pair.offset)
        else .inl (pair.advance 2).offset := by
  rw [searchRound, ← hc.eq_ofOffset]
  cases hseek : c.seekBytes? [lessThan, slash] with
  | none => rfl
  | some pair =>
    obtain ⟨-, hbehind, hoffset⟩ := Cursor.reaches_pair hseek
    have hplace := (hc.trans hbehind).eq_ofOffset
    have hrest : (pair.advance 2).rest = input.drop (pair.offset + 2) := by
      rw [hplace, hoffset]
      rfl
    have hle := (hc.trans hbehind).offset_le_length
    rw [hoffset] at hle
    dsimp only
    rw [hrest, closesWith_drop hle, hoffset]

/-- The search on offsets goes round like the one on cursors. -/
theorem endsWithin_search (name : Bytes) (ignoreCase : Bool) {c : Cursor} (hc : (Cursor.start input).Reaches c) :
    EndsWithin (searchRound input name ignoreCase) (c.rest.length + 1) c.offset
      ((c.seekCloseTag? name ignoreCase).map (·.offset)) := by
  refine EndsWithin.image (Cursor.start input).Reaches Cursor.offset (Option.map Cursor.offset) ?_ ?_ hc
    (Cursor.endsWithin_closeTag name ignoreCase c)
  · intro s t hs hround
    rw [Cursor.closeTagRound] at hround
    rw [searchRound_offset hs]
    cases hseek : s.seekBytes? [lessThan, slash] with
    | none =>
      rw [hseek] at hround
      cases hround
    | some pair =>
      rw [hseek] at hround
      dsimp only at hround ⊢
      split at hround
      · cases hround
      · rename_i hother
        obtain rfl := Sum.inl.inj hround
        exact ⟨hs.trans (Cursor.reaches_pair hseek).2.1, if_neg hother⟩
  · intro s a hs hround
    rw [Cursor.closeTagRound] at hround
    rw [searchRound_offset hs]
    cases hseek : s.seekBytes? [lessThan, slash] with
    | none =>
      rw [hseek] at hround
      obtain rfl := Sum.inr.inj hround
      rfl
    | some pair =>
      rw [hseek] at hround
      dsimp only at hround ⊢
      split at hround
      · rename_i hcloses
        obtain rfl := Sum.inr.inj hround
        exact if_pos hcloses
      · cases hround

/-- A round that does not end the search moves it on, and not out of the document. -/
theorem searchRound_moves {start next : Nat}
    (h : searchRound input name ignoreCase start = .inl next) :
    start < next ∧ next ≤ input.length := by
  have hle : start ≤ input.length := by
    by_contra hbeyond
    have hempty : Cursor.ofOffset input start = ⟨input.length, []⟩ := by
      rw [Cursor.ofOffset, List.take_of_length_le (by omega), List.drop_of_length_le (by omega)]
    rw [searchRound, hempty] at h
    cases h
  have hoffset : (Cursor.ofOffset input start).offset = start := by
    rw [Cursor.ofOffset, List.length_take, Nat.min_eq_left hle]
  have hreach := Cursor.reaches_ofOffset input start
  rw [← hoffset, searchRound_offset hreach] at h
  cases hseek : (Cursor.ofOffset input start).seekBytes? [lessThan, slash] with
  | none =>
    rw [hseek] at h
    cases h
  | some pair =>
    obtain ⟨hpair, hbehind, hnext⟩ := Cursor.reaches_pair hseek
    rw [hseek] at h
    dsimp only at h
    split at h
    · cases h
    · obtain rfl := Sum.inl.inj h
      have hbefore := hpair.offset_le
      exact ⟨by omega, (hreach.trans hbehind).offset_le_length⟩

end Search

section First

variable {input name : Bytes} {ignoreCase : Bool} {position o : Nat}

/-- Only inside the document can anything be closed. -/
theorem lt_length_of_closesIn (h : ClosesIn ignoreCase name (input.drop o)) : o < input.length := by
  obtain ⟨rest, hrest⟩ := h.exists_cons
  have hlength := congrArg List.length hrest
  rw [List.length_drop, List.length_cons, List.length_cons] at hlength
  omega

/-- The place that is found closes the name. -/
theorem closesIn_of_found {stop : Cursor}
    (h : (Cursor.ofOffset input position).seekCloseTag? name ignoreCase = some stop) :
    ClosesIn ignoreCase name (input.drop stop.offset) := by
  have hreach := (Cursor.reaches_ofOffset input position).trans (Cursor.reaches_seekCloseTag h)
  have hcloses := closesIn_of_seekCloseTag h
  rwa [hreach.eq_ofOffset] at hcloses

/-- The first place of all that close the name from the position on is the one that is found. -/
theorem found_of_isLeast
    (h : IsLeast {p | position ≤ p ∧ ClosesIn ignoreCase name (input.drop p)} o) :
    ((Cursor.ofOffset input position).seekCloseTag? name ignoreCase).map (·.offset) = some o := by
  obtain ⟨⟨hle, ho⟩, hleast⟩ := h
  have hlt := lt_length_of_closesIn ho
  have hdrop : ∀ i, (Cursor.ofOffset input position).rest.drop i = input.drop (position + i) :=
    fun i => List.drop_drop
  have hplace : ClosesIn ignoreCase name ((Cursor.ofOffset input position).rest.drop (o - position)) := by
    rwa [hdrop, Nat.add_sub_cancel' hle]
  have hfirst : ∀ i < o - position,
      ¬ ClosesIn ignoreCase name ((Cursor.ofOffset input position).rest.drop i) := by
    intro i hi hcloses
    rw [hdrop] at hcloses
    have hbefore := hleast ⟨Nat.le_add_right _ _, hcloses⟩
    omega
  obtain ⟨stop, hstop, hoffset⟩ := exists_seekCloseTag? hplace hfirst
  have hbegin : (Cursor.ofOffset input position).offset = position := by
    rw [Cursor.ofOffset, List.length_take, Nat.min_eq_left (by omega)]
  rw [hstop, Option.map_some, hoffset, hbegin, Nat.add_sub_cancel' hle]

/-- The search finds the first place of all that close the name from the position on, if there is any. It goes
on from `</` to `</`, each time further into the document and never out of it, and ends after no more rounds than
there are bytes left and one. -/
theorem closeTag_search_exact (input : Bytes) (position : Nat) (name : Bytes) (ignoreCase : Bool) :
    let found := ((Cursor.ofOffset input position).seekCloseTag? name ignoreCase).map (·.offset)
    (∀ o, found = some o ↔
        IsLeast {p | position ≤ p ∧ ClosesIn ignoreCase name (input.drop p)} o) ∧
      (found = none ↔ ∀ p, position ≤ p → ¬ ClosesIn ignoreCase name (input.drop p)) ∧
      EndsWithin (searchRound input name ignoreCase) (input.length - position + 1)
        (min position input.length) found ∧
      ∀ start next, searchRound input name ignoreCase start = .inl next →
        start < next ∧ next ≤ input.length := by
  intro found
  -- If there is any place there is a first one, and that is found.
  have hfirst : ∀ p, position ≤ p → ClosesIn ignoreCase name (input.drop p) →
      ∃ o, IsLeast {p | position ≤ p ∧ ClosesIn ignoreCase name (input.drop p)} o ∧ found = some o := by
    classical
    intro p hp hcloses
    have hplaces : {p | position ≤ p ∧ ClosesIn ignoreCase name (input.drop p)}.Nonempty := ⟨p, hp, hcloses⟩
    exact ⟨_, hplaces.isLeast_natFind, found_of_isLeast hplaces.isLeast_natFind⟩
  have hplace : ∀ o, found = some o → position ≤ o ∧ ClosesIn ignoreCase name (input.drop o) := by
    intro o ho
    obtain ⟨stop, hstop, rfl⟩ := Option.map_eq_some_iff.1 ho
    have hcloses := closesIn_of_found hstop
    have hbefore : (input.take position).length ≤ stop.offset :=
      (Cursor.reaches_seekCloseTag hstop).offset_le
    have hinside := lt_length_of_closesIn hcloses
    rw [List.length_take] at hbefore
    exact ⟨by omega, hcloses⟩
  refine ⟨fun o => ⟨?_, found_of_isLeast⟩, ⟨?_, ?_⟩, ?_, fun _ _ => searchRound_moves⟩
  · intro ho
    obtain ⟨hle, hcloses⟩ := hplace o ho
    obtain ⟨least, hleast, hfound⟩ := hfirst o hle hcloses
    rwa [Option.some.inj (ho.symm.trans hfound)]
  · intro hnone p hp hcloses
    obtain ⟨least, -, hfound⟩ := hfirst p hp hcloses
    exact absurd (hnone.symm.trans hfound) nofun
  · intro hnowhere
    cases hfound : found with
    | none => rfl
    | some o => exact absurd (hplace o hfound).2 (hnowhere o (hplace o hfound).1)
  · have hsearch := endsWithin_search name ignoreCase (Cursor.reaches_ofOffset input position)
    have hrest : (Cursor.ofOffset input position).rest.length = input.length - position :=
      List.length_drop
    have hoffset : (Cursor.ofOffset input position).offset = min position input.length :=
      List.length_take
    rwa [hrest, hoffset] at hsearch

/-- A name with the bytes of a close tag in it, where the first pair does not close it and the second does. -/
example : ((Cursor.ofOffset (Bytes.ofString "</</a</</A>") 0).seekCloseTag? (Bytes.ofString "</a") true).map
    (·.offset) = some 5 := by decide

end First

end MarkupStream
