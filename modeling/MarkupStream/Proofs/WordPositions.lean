import Mathlib.Data.List.TakeWhile
import MarkupStream.Proofs.Location
import MarkupStream.Position.Tracker

/-!
Lines and columns in words of 32 bits. All that a tracker adds up is counted in a beginning of the document,
so no sum is greater than one and the length of the document. Among the documents that may be read only one
kind is long enough for that to be too much: those of the greatest length in which every byte adds to the
same of the two numbers.
-/
namespace MarkupStream

namespace Stretch

/-- The position behind a stretch from the start of the document. -/
def position (s : Stretch) : Position := ⟨1 + s.newlines, 1 + s.characters, s.bytes⟩

theorem position_ofBytes_take (input : Bytes) (offset : Nat) :
    (ofBytes (input.take offset)).position = Position.ofOffset input offset := rfl

variable (s u : Stretch)

@[simp] theorem bytes_append : (s ++ u).bytes = s.bytes + u.bytes := rfl
@[simp] theorem newlines_append : (s ++ u).newlines = s.newlines + u.newlines := rfl
@[simp] theorem characters_append : (s ++ u).characters =
    if u.newlines = 0 then s.characters + u.characters else u.characters := rfl

@[ext] theorem eq_of_counts {s u : Stretch} (hbytes : s.bytes = u.bytes) (hnewlines : s.newlines = u.newlines)
    (hcharacters : s.characters = u.characters) : s = u := by
  cases s
  cases u
  congr

theorem newlines_ofBytes_eq_zero {bytes : Bytes} :
    (ofBytes bytes).newlines = 0 ↔ ∀ b ∈ bytes, (b != Byte.newline) = true := by
  simp only [ofBytes, List.count_eq_zero, bne_iff_ne]
  exact ⟨fun h b hb heq => h (heq ▸ hb), fun h hmem => h _ hmem rfl⟩

theorem ofBytes_append (a b : Bytes) : ofBytes (a ++ b) = ofBytes a ++ ofBytes b := by
  ext
  · exact List.length_append
  · exact List.count_append
  · rw [characters_append]
    by_cases h : (ofBytes b).newlines = 0
    · have hall : ∀ x ∈ b.reverse, (x != Byte.newline) = true :=
        fun x hx => newlines_ofBytes_eq_zero.1 h x (List.mem_reverse.1 hx)
      rw [if_pos h]
      simp only [ofBytes, List.reverse_append]
      rw [List.takeWhile_append_of_pos hall, List.countP_append,
        List.takeWhile_eq_self_iff.2 hall, Nat.add_comm]
    · have hstops : (b.reverse.takeWhile (· != Byte.newline)).length ≠ b.reverse.length := by
        intro heq
        have hself := (List.takeWhile_prefix _).eq_of_length heq
        exact h (newlines_ofBytes_eq_zero.2 fun x hx =>
          List.takeWhile_eq_self_iff.1 hself x (List.mem_reverse.2 hx))
      rw [if_neg h]
      simp only [ofBytes, List.reverse_append]
      rw [List.takeWhile_append, if_neg hstops]

theorem characters_ofBytes_le (bytes : Bytes) : (ofBytes bytes).characters ≤ bytes.length := by
  rw [← List.length_reverse]
  exact Nat.le_trans List.countP_le_length (List.takeWhile_prefix _).length_le

/-- Every byte of a stretch adds to the column just if there are neither newlines nor continuation bytes
in it. -/
theorem characters_ofBytes_eq_length {bytes : Bytes} :
    (ofBytes bytes).characters = bytes.length ↔
      ∀ b ∈ bytes, b ≠ Byte.newline ∧ Byte.isContinuation b ≠ true := by
  have hcharacters : (ofBytes bytes).characters =
      (bytes.reverse.takeWhile (· != Byte.newline)).countP (!Byte.isContinuation ·) := rfl
  have htake := List.takeWhile_prefix (· != Byte.newline) (l := bytes.reverse)
  rw [hcharacters, ← List.length_reverse]
  constructor
  · intro h b hb
    have hcount := List.countP_le_length (p := (!Byte.isContinuation ·))
      (l := bytes.reverse.takeWhile (· != Byte.newline))
    have hself := htake.eq_of_length (Nat.le_antisymm htake.length_le (h ▸ hcount))
    rw [hself, List.countP_eq_length] at h
    have hmem := List.mem_reverse.2 hb
    exact ⟨bne_iff_ne.1 (List.takeWhile_eq_self_iff.1 hself b hmem), by simpa using h b hmem⟩
  · intro h
    have hself : bytes.reverse.takeWhile (· != Byte.newline) = bytes.reverse :=
      List.takeWhile_eq_self_iff.2 fun b hb => bne_iff_ne.2 (h b (List.mem_reverse.1 hb)).1
    rw [hself, List.countP_eq_length]
    intro b hb
    simp [(h b (List.mem_reverse.1 hb)).2]

end Stretch

namespace Repetition

end Repetition

namespace Tracker

section Counting

variable {m : Type → Type} [Monad m] (add : UInt32 → UInt32 → m UInt32)

end Counting

theorem checked_eq_some {a b : UInt32} (h : a.toNat + b.toNat < UInt32.size) :
    checked a b = some (a + b) ∧ (a + b).toNat = a.toNat + b.toNat :=
  ⟨if_pos h, (UInt32.toNat_add a b).trans (Nat.mod_eq_of_lt h)⟩

/-- A tracker moves over a stretch as long as the line and the column behind it are words. -/
theorem exists_across {t : Tracker} {s u : Stretch} (ht : t.position = s.position)
    (hline : (s ++ u).position.line < UInt32.size)
    (hcolumn : (s ++ u).position.column < UInt32.size) :
    ∃ v, t.across checked u = some v ∧ v.position = (s ++ u).position := by
  obtain ⟨htline, htcolumn, htoffset⟩ := Position.mk.inj ht
  simp only [Stretch.position, Stretch.newlines_append, Stretch.characters_append,
    Stretch.bytes_append] at hline hcolumn ⊢
  by_cases h : u.newlines = 0
  · rw [if_pos h] at hcolumn ⊢
    have hcharacters : u.characters.toUInt32.toNat = u.characters :=
      UInt32.toNat_ofNat_of_lt' (by omega)
    obtain ⟨hsum, hvalue⟩ := checked_eq_some (a := t.column) (b := u.characters.toUInt32) (by omega)
    refine ⟨⟨t.line, t.column + u.characters.toUInt32, t.offset + u.bytes⟩, ?_, ?_⟩
    · rw [across, if_pos h, hsum]
      rfl
    · rw [position, hvalue, hcharacters, htline, htcolumn, htoffset, h, Nat.add_zero, Nat.add_assoc]
  · rw [if_neg h] at hcolumn ⊢
    have hnewlines : u.newlines.toUInt32.toNat = u.newlines := UInt32.toNat_ofNat_of_lt' (by omega)
    have hcharacters : u.characters.toUInt32.toNat = u.characters :=
      UInt32.toNat_ofNat_of_lt' (by omega)
    have hone : (1 : UInt32).toNat = 1 := rfl
    obtain ⟨hlines, hline⟩ := checked_eq_some (a := t.line) (b := u.newlines.toUInt32) (by omega)
    obtain ⟨hcolumns, hcolumn⟩ := checked_eq_some (a := 1) (b := u.characters.toUInt32) (by omega)
    refine ⟨⟨t.line + u.newlines.toUInt32, 1 + u.characters.toUInt32, t.offset + u.bytes⟩, ?_, ?_⟩
    · rw [across, if_neg h, hlines, hcolumns]
      rfl
    · rw [position, hline, hcolumn, hnewlines, hcharacters, hone, htline, htoffset, Nat.add_assoc]

end Tracker

/-- What is asked for a document of the greatest length that may be read: one of its bytes does not add to
the line, and one does not add to the column. -/
def Bytes.LeavesRoom (input : Bytes) : Prop :=
  input.length = Span.maxInputLength →
    (∃ b ∈ input, b ≠ Byte.newline) ∧ ∃ b ∈ input, b = Byte.newline ∨ Byte.isContinuation b = true

instance (input : Bytes) : Decidable input.LeavesRoom :=
  inferInstanceAs (Decidable (_ → _ ∧ _))

namespace Bytes

variable {input : Bytes}

theorem LeavesRoom.line_lt (h : input.LeavesRoom) (hlength : input.length ≤ Span.maxInputLength)
    (offset : Nat) : (Position.ofOffset input offset).line < UInt32.size := by
  have hsize : Span.maxInputLength + 1 = UInt32.size := rfl
  have hline : (Position.ofOffset input offset).line = 1 + (input.take offset).count Byte.newline := rfl
  have hcount : (input.take offset).count Byte.newline ≤ (input.take offset).length := List.count_le_length
  have htake := List.length_take_le' offset input
  by_contra hge
  have hwhole : input.take offset = input := (List.take_prefix offset input).eq_of_length (by omega)
  rw [hwhole] at hline hcount
  obtain ⟨⟨b, hb, hne⟩, -⟩ := h (by omega)
  exact hne (List.count_eq_length.1 (by omega) b hb).symm

theorem LeavesRoom.column_lt (h : input.LeavesRoom) (hlength : input.length ≤ Span.maxInputLength)
    (offset : Nat) : (Position.ofOffset input offset).column < UInt32.size := by
  have hsize : Span.maxInputLength + 1 = UInt32.size := rfl
  have hcolumn : (Position.ofOffset input offset).column =
      1 + (Stretch.ofBytes (input.take offset)).characters := rfl
  have hcharacters := Stretch.characters_ofBytes_le (input.take offset)
  have htake := List.length_take_le' offset input
  by_contra hge
  have hwhole : input.take offset = input := (List.take_prefix offset input).eq_of_length (by omega)
  rw [hwhole] at hcolumn hcharacters
  obtain ⟨-, b, hb, hspared⟩ := h (by omega)
  obtain ⟨hnewline, hcontinuation⟩ := Stretch.characters_ofBytes_eq_length.1 (by omega) b hb
  exact hspared.elim hnewline hcontinuation

end Bytes

namespace Tracker

variable {input : Bytes} {t : Tracker}

/-- Where a tracker is exact, the next position that it gives is the one that is walked to without words. -/
theorem exists_peek (hroom : input.LeavesRoom) (hlength : input.length ≤ Span.maxInputLength)
    (ht : t.position.Exact input) (offset : Nat) :
    ∃ u, t.peek checked input offset = some u ∧ u.position = t.position.locate input offset := by
  have hoffset : t.position.offset = t.offset := rfl
  unfold peek
  dsimp only
  split
  · rename_i hle
    refine ⟨t, rfl, ?_⟩
    have hempty : (input.drop t.offset).take (offset - t.offset) = [] := by
      rw [← List.length_eq_zero_iff, List.length_take, List.length_drop]
      omega
    rw [Position.locate, hoffset, hempty, Position.advance_nil]
  · rename_i hlt
    have hbefore : t.offset ≤ min offset input.length := Nat.le_of_not_le hlt
    have hstretch : Stretch.ofBytes (input.take t.offset) ++
        Stretch.ofBytes ((input.drop t.offset).take (min offset input.length - t.offset)) =
          Stretch.ofBytes (input.take offset) := by
      rw [← Stretch.ofBytes_append, ← List.take_add, Nat.add_sub_cancel' hbefore,
        ← List.take_take, List.take_length]
    obtain ⟨u, hu, hposition⟩ := exists_across (s := .ofBytes (input.take t.offset))
      (u := .ofBytes ((input.drop t.offset).take (min offset input.length - t.offset))) ht
      (hstretch ▸ hroom.line_lt hlength offset) (hstretch ▸ hroom.column_lt hlength offset)
    refine ⟨u, hu, ?_⟩
    rw [hposition, hstretch, ht.locate_eq (by omega), Stretch.position_ofBytes_take]

end Tracker

end MarkupStream
