import MarkupStream.Selector.Bounds

/-!
Slices that stay in range. An offset between two characters splits the source there, from such an offset on the
search for the end of an error's fragment ends, and the error is the one that is shown at the offset.
-/
namespace MarkupStream

/-- The source goes on with the fragment of the error at its offset, which is not inside a character. -/
def SelectorError.PointsInto (e : SelectorError) (source : String) : Prop :=
  ∃ before behind : List Char, source.toList = before ++ (e.fragment.toList ++ behind) ∧
    Selector.byteSize before = e.offset

namespace Selector

section Tracking

variable {α β γ δ : Type} {source : String} {R : α → β → Prop} {R' : γ → δ → Prop}

/-- A read by positions gives a result like that of another read, or it is refused with the same error, which
points into the source. -/
inductive Tracks (source : String) (R : α → β → Prop) : Outcome α → Except SelectorError β → Prop
  | ok {a : α} {b : β} : R a b → Tracks source R (pure a) (.ok b)
  | error {e : SelectorError} : e.PointsInto source → Tracks source R (throw (.refused e)) (.error e)

theorem Tracks.bind {x : Outcome α} {r : Except SelectorError β} {f : α → Outcome γ}
    {g : β → Except SelectorError δ} (h : Tracks source R x r)
    (hf : ∀ a b, R a b → Tracks source R' (f a) (g b)) :
    Tracks source R' (x >>= f) (r >>= g) := by
  cases h with
  | ok hresult => exact hf _ _ hresult
  | error hpoints => exact .error hpoints

/-- The other read may still do something with its result. -/
theorem Tracks.followed {x : Outcome α} {r : Except SelectorError β} {R' : α → δ → Prop}
    {g : β → Except SelectorError δ} (h : Tracks source R x r)
    (hg : ∀ a b, R a b → Tracks source R' (pure a) (g b)) :
    Tracks source R' x (r >>= g) := by
  cases h with
  | ok hresult => exact hg _ _ hresult
  | error hpoints => exact .error hpoints

theorem Tracks.exists_of_ok {x : Outcome α} {b : β} (h : Tracks source R x (.ok b)) :
    ∃ a, x = pure a ∧ R a b := by
  generalize hr : Except.ok b = r at h
  cases h with
  | ok hresult =>
    cases hr
    exact ⟨_, rfl, hresult⟩
  | error => cases hr

theorem Tracks.eq_of_error {x : Outcome α} {e : SelectorError} (h : Tracks source R x (.error e)) :
    x = throw (.refused e) ∧ e.PointsInto source := by
  generalize hr : Except.error e = r at h
  cases h with
  | ok => cases hr
  | error hpoints =>
    cases hr
    exact ⟨rfl, hpoints⟩

theorem Tracks.bind_error {x : Outcome α} {e : SelectorError} (h : Tracks source R x (.error e))
    (f : α → Outcome γ) : Tracks source R' (x >>= f) (.error e) := by
  obtain ⟨rfl, hpoints⟩ := h.eq_of_error
  exact .error hpoints

end Tracking

section Rounds

variable {α : Type} {round : α → Outcome (Round α)} {state next : α}

/-- A loop does the first round, and it goes on from there unless that is the last one. -/
theorem rounds_eq (round : α → Outcome (Round α)) (state : α) :
    rounds round state = (do
      match ← round state with
      | .again next => rounds round next
      | .last final => pure final) := by
  have : Nonempty α := ⟨state⟩
  rw [rounds, repeatM_eq_of_monadTail, repeatM.body, bind_assoc]
  congr 1
  funext next
  cases next <;> rfl

theorem rounds_of_again (h : round state = pure (.again next)) :
    rounds round state = rounds round next := by
  rw [rounds_eq, h]
  rfl

theorem rounds_of_last (h : round state = pure (.last next)) : rounds round state = pure next := by
  rw [rounds_eq, h]
  rfl

theorem rounds_of_refuse {source : String} {offset length : Nat} {flaw : SelectorFlaw}
    (h : round state = refuse source offset length flaw) :
    rounds round state = refuse source offset length flaw := by
  have hthrow : ∀ (e : Halt) (f : Round α → Outcome α), (throw e : Outcome (Round α)) >>= f = throw e :=
    fun _ _ => rfl
  rw [rounds_eq, h]
  simp only [refuse, bind_assoc, hthrow]

end Rounds

section Splits

variable {source : String} {before piece behind : List Char}

theorem splitAtByte_zero (chars : List Char) : splitAtByte? 0 chars = some ([], chars) := by
  cases chars <;> rfl

theorem splitAtByte_append (before behind : List Char) (offset : Nat) :
    splitAtByte? (byteSize before + offset) (before ++ behind) =
      (splitAtByte? offset behind).map fun (first, rest) => (before ++ first, rest) := by
  induction before with
  | nil => simp
  | cons c before ih =>
    have hpos := c.utf8Size_pos
    have hoffset : byteSize (c :: before) + offset - c.utf8Size = byteSize before + offset := by
      rw [byteSize_cons]
      omega
    rw [List.cons_append, splitAtByte?, if_neg (by simp; omega), if_pos (by simp; omega), hoffset, ih,
      Option.map_map]
    rfl

theorem eq_of_splitAtByte {offset : Nat} {chars : List Char}
    (h : splitAtByte? offset chars = some (before, behind)) :
    chars = before ++ behind ∧ byteSize before = offset := by
  induction chars generalizing offset before with
  | nil =>
    rw [splitAtByte?] at h
    split at h
    · rename_i hoffset
      obtain ⟨rfl, rfl⟩ := Prod.mk.inj (Option.some.inj h)
      exact ⟨rfl, hoffset.symm⟩
    · cases h
  | cons c rest ih =>
    rw [splitAtByte?] at h
    split at h
    · rename_i hoffset
      obtain ⟨rfl, rfl⟩ := Prod.mk.inj (Option.some.inj h)
      exact ⟨rfl, hoffset.symm⟩
    · split at h
      · rename_i hle
        obtain ⟨⟨first, last⟩, hsplit, hpair⟩ := Option.map_eq_some_iff.1 h
        obtain ⟨rfl, rfl⟩ := Prod.mk.inj hpair
        obtain ⟨rfl, hsize⟩ := ih hsplit
        exact ⟨rfl, by rw [byteSize_cons, hsize]; omega⟩
      · cases h

theorem utf8ByteSize_ofList (chars : List Char) : (String.ofList chars).utf8ByteSize = byteSize chars := by
  induction chars with
  | nil => rfl
  | cons c chars ih =>
    rw [String.ofList_cons, String.utf8ByteSize_append, String.utf8ByteSize_singleton, ih, byteSize_cons]

theorem utf8ByteSize_eq (source : String) : source.utf8ByteSize = byteSize source.toList := by
  rw [← utf8ByteSize_ofList, String.ofList_toList]

/-- An offset that is not inside a character. -/
def OnBoundary (source : String) (offset : Nat) : Prop :=
  ∃ before behind, source.toList = before ++ behind ∧ byteSize before = offset

theorem OnBoundary.le {offset : Nat} (h : OnBoundary source offset) : offset ≤ source.utf8ByteSize := by
  obtain ⟨before, behind, hsource, rfl⟩ := h
  rw [utf8ByteSize_eq, hsource, byteSize_append]
  omega

theorem onBoundary_of_pointsInto {e : SelectorError} (h : e.PointsInto source) :
    OnBoundary source e.offset := by
  obtain ⟨before, behind, hsource, hoffset⟩ := h
  exact ⟨before, _, hsource, hoffset⟩

theorem onBoundary_end (source : String) : OnBoundary source source.utf8ByteSize :=
  ⟨source.toList, [], (List.append_nil _).symm, (utf8ByteSize_eq source).symm⟩

theorem slice_eq (h : source.toList = before ++ (piece ++ behind)) :
    slice source (byteSize before) (byteSize before + byteSize piece) = pure (String.ofList piece) := by
  have hsplit := splitAtByte_append before (piece ++ behind) 0
  have hpiece := splitAtByte_append piece behind 0
  simp only [Nat.add_zero, splitAtByte_zero, Option.map_some, List.append_nil] at hsplit hpiece
  rw [slice, minus, if_pos (by omega), pure_bind, h, hsplit]
  simp only [Nat.add_sub_cancel_left, hpiece]

end Splits

section Fragments

variable {source : String} {before piece behind : List Char}

/-- Characters before the first offset do not count. -/
theorem charsBetween_append {start stop here : Nat} (h : here + byteSize before ≤ start) :
    SelectorError.charsBetween start stop here (before ++ behind) =
      SelectorError.charsBetween start stop (here + byteSize before) behind := by
  induction before generalizing here with
  | nil => simp
  | cons c before ih =>
    have hpos := c.utf8Size_pos
    rw [byteSize_cons] at h ⊢
    rw [List.cons_append, SelectorError.charsBetween, if_neg (by omega), ih (by omega), Nat.add_assoc]

theorem charsBetween_behind {start stop here : Nat} (h : stop ≤ here) :
    SelectorError.charsBetween start stop here behind = [] := by
  induction behind generalizing here with
  | nil => rfl
  | cons c behind ih =>
    rw [SelectorError.charsBetween, if_neg (by omega), ih (by omega)]

theorem charsBetween_piece {start here : Nat} (h : start ≤ here) :
    SelectorError.charsBetween start (here + byteSize piece) here (piece ++ behind) = piece := by
  induction piece generalizing here with
  | nil => exact charsBetween_behind (by simp)
  | cons c piece ih =>
    have hpos := c.utf8Size_pos
    have hstop : here + byteSize (c :: piece) = here + c.utf8Size + byteSize piece := by
      rw [byteSize_cons, Nat.add_assoc]
    rw [List.cons_append, SelectorError.charsBetween, hstop, if_pos (by omega), ih (by omega)]

/-- No character begins inside another one. -/
theorem charsBetween_succ {start here count : Nat} (h : splitAtByte? count behind = none) :
    SelectorError.charsBetween start (here + count + 1) here behind =
      SelectorError.charsBetween start (here + count) here behind := by
  induction behind generalizing here count with
  | nil => rfl
  | cons c rest ih =>
    have hpos := c.utf8Size_pos
    rw [splitAtByte?] at h
    split at h
    · cases h
    · rename_i hcount
      rw [SelectorError.charsBetween, SelectorError.charsBetween]
      have hhere : start ≤ here ∧ here < here + count + 1 ↔ start ≤ here ∧ here < here + count := by omega
      have htail : SelectorError.charsBetween start (here + count + 1) (here + c.utf8Size) rest =
          SelectorError.charsBetween start (here + count) (here + c.utf8Size) rest := by
        split at h
        · rename_i hle
          have hstop : here + count = here + c.utf8Size + (count - c.utf8Size) := by omega
          rw [hstop]
          exact ih (Option.map_eq_none_iff.1 h)
        · rw [charsBetween_behind (by omega), charsBetween_behind (by omega)]
      simp only [htail, hhere]

/-- From any offset in the source on a boundary is found, and the characters that begin before the offset end
there. -/
theorem exists_nextBoundary (h : source.toList = before ++ behind) {count : Nat}
    (hcount : count ≤ byteSize behind) :
    ∃ piece rest, behind = piece ++ rest ∧
      nextBoundary source (byteSize before + count) = pure (byteSize before + byteSize piece) ∧
      SelectorError.charsBetween (byteSize before) (byteSize before + count) (byteSize before) behind =
        piece := by
  have hboundary : isBoundary source (byteSize before + count) = (splitAtByte? count behind).isSome := by
    rw [isBoundary, h, splitAtByte_append, Option.isSome_map]
  cases hsplit : splitAtByte? count behind with
  | some pair =>
    obtain ⟨piece, rest⟩ := pair
    obtain ⟨rfl, rfl⟩ := eq_of_splitAtByte hsplit
    refine ⟨piece, rest, rfl, ?_, charsBetween_piece (Nat.le_refl _)⟩
    apply rounds_of_last
    rw [hboundary, hsplit, Option.isSome_some, if_pos rfl]
  | none =>
    -- The offset is inside a character, and so before the end of the source.
    have hlt : count ≠ byteSize behind := by
      rintro rfl
      have hwhole := splitAtByte_append behind [] 0
      rw [Nat.add_zero, List.append_nil, hsplit] at hwhole
      cases hwhole
    have hmore : count + 1 ≤ byteSize behind := by omega
    obtain ⟨piece, rest, hpieces, hnext, hchars⟩ := exists_nextBoundary h hmore
    refine ⟨piece, rest, hpieces, ?_, ?_⟩
    · rw [← hnext]
      apply rounds_of_again
      rw [hboundary, hsplit, Option.isSome_none, if_neg Bool.false_ne_true]
      rfl
    · rw [← charsBetween_succ hsplit]
      exact hchars
termination_by byteSize behind - count

end Fragments

/-- On a boundary an error is made as it is without slices. -/
theorem tracks_refuse {α β : Type} {source : String} {R : α → β → Prop} {offset : Nat}
    (h : OnBoundary source offset) (length : Nat) (flaw : SelectorFlaw) :
    Tracks source R (refuse source offset length flaw)
      (.error (SelectorError.locate source offset length flaw)) := by
  have hle := h.le
  obtain ⟨before, behind, hsource, rfl⟩ := h
  have hsize : source.utf8ByteSize = byteSize before + byteSize behind := by
    rw [utf8ByteSize_eq, hsource, byteSize_append]
  have hstop : min (byteSize before + max length 1) source.utf8ByteSize =
      byteSize before + min (max length 1) (byteSize behind) := by
    rw [hsize, Nat.add_min_add_left]
  obtain ⟨piece, rest, rfl, hnext, hchars⟩ := exists_nextBoundary hsource (Nat.min_le_right (max length 1) _)
  have hlocate : SelectorError.locate source (byteSize before) length flaw =
      ⟨flaw, String.ofList piece, byteSize before⟩ := by
    rw [SelectorError.locate, Nat.min_eq_left hle, hstop, hsource, charsBetween_append (by omega), Nat.zero_add,
      hchars]
  have hrefuse : refuse source (byteSize before) length flaw =
      (throw (.refused ⟨flaw, String.ofList piece, byteSize before⟩) : Outcome α) := by
    rw [refuse, Nat.min_eq_left hle, hstop, hnext, pure_bind, slice_eq hsource, pure_bind]
  rw [hrefuse, hlocate]
  refine .error ⟨before, rest, ?_, rfl⟩
  rw [String.toList_ofList, hsource]

end Selector

end MarkupStream
