import MarkupStream.Token.Scan

/-!
Reading never leaves the document: a cursor that is read on from another stands behind the bytes that
were read, and what is left of the document there is what was left before without those bytes.
-/
namespace MarkupStream

namespace Cursor

/-- Reading on from a cursor leads to another one. -/
def Reaches (c next : Cursor) : Prop :=
  ∃ bytes, c.rest = bytes ++ next.rest ∧ next.offset = c.offset + bytes.length

theorem Reaches.refl (c : Cursor) : c.Reaches c := ⟨[], rfl, rfl⟩

theorem Reaches.trans {a b c : Cursor} (h : a.Reaches b) (h' : b.Reaches c) : a.Reaches c := by
  obtain ⟨x, hx, hxo⟩ := h
  obtain ⟨y, hy, hyo⟩ := h'
  refine ⟨x ++ y, ?_, ?_⟩
  · rw [hx, hy, List.append_assoc]
  · rw [hyo, hxo, List.length_append, Nat.add_assoc]

theorem Reaches.offset_le {c next : Cursor} (h : c.Reaches next) : c.offset ≤ next.offset := by
  obtain ⟨bytes, -, ho⟩ := h
  omega

/-- The end of the document stays where it is. -/
theorem Reaches.length {c next : Cursor} (h : c.Reaches next) :
    next.offset + next.rest.length = c.offset + c.rest.length := by
  obtain ⟨bytes, hr, ho⟩ := h
  rw [hr, ho, List.length_append, Nat.add_assoc]

theorem Reaches.offset_le_length {input : Bytes} {c : Cursor} (h : (start input).Reaches c) :
    c.offset ≤ input.length := by
  have hlength := h.length
  simp only [start] at hlength
  omega

/-- What a span between two cursors covers is what stands between them. -/
theorem Reaches.slice_upTo {input : Bytes} {c next : Cursor} (hc : (start input).Reaches c)
    (h : c.Reaches next) : (c.upTo next).slice input = c.bytesUpTo next := by
  obtain ⟨before, hbefore, hoffset⟩ := hc
  have hstart : c.offset = before.length := by simpa [start] using hoffset
  have hinput : input = before ++ c.rest := hbefore
  have hend := h.length
  rw [Span.slice_eq_of_le, bytesUpTo]
  · rw [upTo, hinput, hstart, List.drop_left]
  · rw [upTo, hinput, List.length_append]
    dsimp only
    omega

theorem reaches_advance (c : Cursor) (n : Nat) : c.Reaches (c.advance n) :=
  ⟨c.rest.take n, (List.take_append_drop n c.rest).symm, rfl⟩

theorem reaches_skip (c : Cursor) (inClass : UInt8 → Bool) : c.Reaches (c.skip inClass) :=
  ⟨c.rest.takeWhile inClass, List.takeWhile_append_dropWhile.symm, rfl⟩

theorem reaches_skipWhitespace (c : Cursor) : c.Reaches c.skipWhitespace := c.reaches_skip _

theorem reaches_nextTag (c : Cursor) : c.Reaches c.nextTag := c.reaches_skip _

theorem reaches_seekFrom {found : Bytes → Bool} {offset : Nat} {bytes : Bytes} {next : Cursor}
    (h : seekFrom found offset bytes = some next) : (Cursor.mk offset bytes).Reaches next := by
  induction bytes generalizing offset with
  | nil =>
    simp only [seekFrom, Option.ite_none_right_eq_some, Option.some.injEq] at h
    rw [← h.2]
    exact Reaches.refl _
  | cons b rest ih =>
    rw [seekFrom] at h
    split at h
    · rw [← Option.some.inj h]
      exact Reaches.refl _
    · exact Reaches.trans ⟨[b], rfl, rfl⟩ (ih h)

theorem reaches_seek {c next : Cursor} {found : Bytes → Bool} (h : c.seek? found = some next) :
    c.Reaches next := reaches_seekFrom h

theorem reaches_closeTagFrom {name : Bytes} {ignoreCase : Bool} {offset : Nat} {bytes : Bytes}
    {next : Cursor} (h : closeTagFrom name ignoreCase offset bytes = some next) :
    (Cursor.mk offset bytes).Reaches next := by
  fun_induction closeTagFrom name ignoreCase offset bytes with
  | case1 => cases h
  | case2 => cases h
  | case3 =>
    rw [← Option.some.inj h]
    exact Reaches.refl _
  | case4 offset a b rest _ _ ih => exact Reaches.trans ⟨[a, b], rfl, rfl⟩ (ih h)
  | case5 offset a b rest _ ih => exact Reaches.trans ⟨[a], rfl, rfl⟩ (ih h)

theorem reaches_seekCloseTag {c next : Cursor} {name : Bytes} {ignoreCase : Bool}
    (h : c.seekCloseTag? name ignoreCase = some next) : c.Reaches next := reaches_closeTagFrom h

theorem reaches_afterName {c next : Cursor} (h : c.afterName? = some next) : c.Reaches next := by
  rw [afterName?] at h
  split at h
  · split at h
    · rw [← Option.some.inj h]
      exact c.reaches_skip _
    · cases h
  · cases h

theorem reaches_afterLooseName {c next : Cursor} {stops : Bytes}
    (h : c.afterLooseName? stops = some next) : c.Reaches next := by
  simp only [afterLooseName?, Option.ite_none_right_eq_some, Option.some.injEq] at h
  rw [← h.2]
  exact c.reaches_skip _

theorem reaches_getD_afterLooseName {c other : Cursor} (stops : Bytes) (h : c.Reaches other) :
    c.Reaches ((c.afterLooseName? stops).getD other) := by
  cases hn : c.afterLooseName? stops with
  | none => exact h
  | some next => exact reaches_afterLooseName hn

end Cursor

section Scanning

open Cursor

theorem Tag.reaches_readName {dialect : Dialect} {c next : Cursor}
    (h : Tag.readName dialect c = .ok next) : c.Reaches next := by
  cases dialect with
  | xml => exact reaches_afterName (afterName?_of_readName h)
  | html =>
    simp only [readName, Except.ok.injEq] at h
    rw [← h]
    exact reaches_getD_afterLooseName _ (c.reaches_advance 1)

theorem Token.reaches_readQuoted {c next : Cursor} {span : Span}
    (h : readQuoted? c = some (span, next)) : c.Reaches next := by
  obtain ⟨quote, close, -, -, hclose, -, rfl⟩ := readQuoted?_eq_some_iff.1 h
  exact (c.reaches_advance 1).trans ((reaches_seek hclose).trans (close.reaches_advance 1))

theorem Token.reaches_readOptionalQuoted (c : Cursor) : c.Reaches (readOptionalQuoted c).2 := by
  rw [readOptionalQuoted]
  split
  · rename_i span next hquoted
    exact reaches_readQuoted hquoted
  · exact Reaches.refl c

theorem Token.reaches_readExternalId (c : Cursor) : c.Reaches (readExternalId c).2.2.2 := by
  have keyword : c.Reaches (c.advance 6).skipWhitespace :=
    (c.reaches_advance 6).trans (c.advance 6).reaches_skipWhitespace
  have first := keyword.trans (reaches_readOptionalQuoted _)
  rw [readExternalId]
  split
  · exact first.trans ((reaches_skipWhitespace _).trans (reaches_readOptionalQuoted _))
  · split
    · exact first
    · exact Reaches.refl c

theorem Token.reaches_readSubset {c next : Cursor} {subset : Option Span}
    (h : readSubset? c = some (subset, next)) : c.Reaches next := by
  rcases cases_readSubset h with ⟨close, hclose, rfl, -⟩ | ⟨rfl, -⟩
  · exact (c.reaches_advance 1).trans ((reaches_seek hclose).trans (close.reaches_advance 1))
  · exact Reaches.refl _

end Scanning

end MarkupStream
