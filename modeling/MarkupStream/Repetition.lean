import MarkupStream.Span

/-!
Documents that are written as pieces with the number of times that each of them is repeated. Such a document
may be far longer than what can be held of it. Each operation has beside it what it comes to on the bytes.
-/
namespace MarkupStream

abbrev Repetition := List (Bytes × Nat)

namespace Repetition

def bytes (doc : Repetition) : Bytes := doc.flatMap fun (piece, count) => (List.replicate count piece).flatten

def length : Repetition → Nat
  | [] => 0
  | (piece, count) :: rest => count * piece.length + length rest

@[simp] theorem bytes_nil : bytes [] = [] := rfl

theorem bytes_cons (piece : Bytes) (count : Nat) (rest : Repetition) :
    bytes ((piece, count) :: rest) = (List.replicate count piece).flatten ++ bytes rest := rfl

theorem bytes_cons_succ (piece : Bytes) (count : Nat) (rest : Repetition) :
    bytes ((piece, count + 1) :: rest) = piece ++ bytes ((piece, count) :: rest) := by
  rw [bytes_cons, bytes_cons, List.replicate_succ, List.flatten_cons, List.append_assoc]

theorem length_flatten_replicate (piece : Bytes) (count : Nat) :
    (List.replicate count piece).flatten.length = count * piece.length := by simp

theorem length_bytes (doc : Repetition) : doc.bytes.length = doc.length := by
  induction doc with
  | nil => rfl
  | cons entry rest ih =>
    obtain ⟨piece, count⟩ := entry
    rw [bytes_cons, List.length_append, length_flatten_replicate, ih, length]

@[simp] theorem bytes_append (doc more : Repetition) : bytes (doc ++ more) = doc.bytes ++ more.bytes :=
  List.flatMap_append

@[simp] theorem length_append (doc more : Repetition) : length (doc ++ more) = doc.length + more.length := by
  rw [← length_bytes, bytes_append, List.length_append, length_bytes, length_bytes]

theorem exists_mem_of_mem_bytes {doc : Repetition} {b : UInt8} (h : b ∈ doc.bytes) :
    ∃ entry ∈ doc, b ∈ entry.1 := by
  obtain ⟨entry, hentry, hmem⟩ := List.mem_flatMap.1 h
  obtain ⟨piece, hpiece, hb⟩ := List.mem_flatten.1 hmem
  exact ⟨entry, hentry, List.eq_of_mem_replicate hpiece ▸ hb⟩

/-- Bytes that are written out. -/
def ofBytes (bytes : Bytes) : Repetition := [(bytes, 1)]

@[simp] theorem bytes_ofBytes (bytes : Bytes) : (ofBytes bytes).bytes = bytes := by simp [ofBytes, bytes_cons]

/-- The bytes, of which a single piece is not copied. -/
def joined : Repetition → Bytes
  | [(piece, 1)] => piece
  | doc => doc.bytes

@[simp] theorem joined_eq (doc : Repetition) : doc.joined = doc.bytes := by
  unfold joined
  split
  · rw [← ofBytes, bytes_ofBytes]
  · rfl

/-- A piece in front of a document, unless there is nothing of it. -/
def push (piece : Bytes) (count : Nat) (rest : Repetition) : Repetition :=
  if count = 0 ∨ piece = [] then rest else (piece, count) :: rest

@[simp] theorem bytes_push (piece : Bytes) (count : Nat) (rest : Repetition) :
    (push piece count rest).bytes = bytes ((piece, count) :: rest) := by
  unfold push
  split
  · rename_i hnothing
    rcases hnothing with rfl | rfl <;> simp [bytes_cons]
  · rfl

section Parts

/-- The document up to an offset. -/
def upTo : Repetition → Nat → Repetition
  | [], _ => []
  | (piece, count) :: rest, offset =>
    if count * piece.length ≤ offset then (piece, count) :: upTo rest (offset - count * piece.length)
    else [(piece, offset / piece.length), (piece.take (offset % piece.length), 1)]

/-- The document from an offset on. -/
def behind : Repetition → Nat → Repetition
  | [], _ => []
  | (piece, count) :: rest, offset =>
    if count * piece.length ≤ offset then behind rest (offset - count * piece.length)
    else push (piece.drop (offset % piece.length)) 1 (push piece (count - offset / piece.length - 1) rest)

/-- An offset among repeated pieces lies in one of them. -/
theorem flatten_replicate_split {piece : Bytes} {count offset : Nat} (h : offset < count * piece.length) :
    let first := (List.replicate (offset / piece.length) piece).flatten ++ piece.take (offset % piece.length)
    first.length = offset ∧ (List.replicate count piece).flatten =
      first ++ (piece.drop (offset % piece.length) ++
        (List.replicate (count - offset / piece.length - 1) piece).flatten) := by
  intro first
  have hpos : 0 < piece.length := by
    refine Nat.pos_of_ne_zero fun hzero => ?_
    rw [hzero, Nat.mul_zero] at h
    exact Nat.not_lt_zero _ h
  have hquotient : offset / piece.length < count := Nat.div_lt_of_lt_mul (Nat.mul_comm count _ ▸ h)
  have hwhole : List.replicate count piece = List.replicate (offset / piece.length) piece ++
      piece :: List.replicate (count - offset / piece.length - 1) piece := by
    rw [← List.replicate_succ, List.replicate_append_replicate]
    congr 1
    omega
  refine ⟨?_, ?_⟩
  · rw [List.length_append, length_flatten_replicate,
      List.length_take_of_le (Nat.le_of_lt (Nat.mod_lt _ hpos)), Nat.div_add_mod']
  · rw [hwhole, List.flatten_append, List.flatten_cons, List.append_assoc,
      ← List.append_assoc (piece.take _), List.take_append_drop]

theorem bytes_upTo (doc : Repetition) (offset : Nat) : (doc.upTo offset).bytes = doc.bytes.take offset := by
  induction doc generalizing offset with
  | nil => rw [upTo, bytes_nil, List.take_nil]
  | cons entry rest ih =>
    obtain ⟨piece, count⟩ := entry
    have hlength := length_flatten_replicate piece count
    rw [upTo, bytes_cons]
    split
    · rename_i hle
      rw [bytes_cons, ih, List.take_append, hlength,
        List.take_of_length_le (Nat.le_trans (Nat.le_of_eq hlength) hle)]
    · rename_i hlt
      obtain ⟨hfirst, hwhole⟩ := flatten_replicate_split (Nat.lt_of_not_le hlt)
      rw [hwhole, List.append_assoc, List.take_left' hfirst, bytes_cons, ← ofBytes, bytes_ofBytes]

theorem bytes_behind (doc : Repetition) (offset : Nat) : (doc.behind offset).bytes = doc.bytes.drop offset := by
  induction doc generalizing offset with
  | nil => rw [behind, bytes_nil, List.drop_nil]
  | cons entry rest ih =>
    obtain ⟨piece, count⟩ := entry
    have hlength := length_flatten_replicate piece count
    rw [behind, bytes_cons]
    split
    · rename_i hle
      rw [ih, List.drop_append, hlength,
        List.drop_of_length_le (Nat.le_trans (Nat.le_of_eq hlength) hle), List.nil_append]
    · rename_i hlt
      obtain ⟨hfirst, hwhole⟩ := flatten_replicate_split (Nat.lt_of_not_le hlt)
      rw [hwhole, List.append_assoc, List.drop_left' hfirst, bytes_push, bytes_cons_succ, bytes_cons,
        bytes_push, bytes_cons, List.append_assoc]
      rfl

/-- The document between two offsets. -/
def between (doc : Repetition) (start stop : Nat) : Repetition := (doc.behind start).upTo (stop - start)

theorem bytes_between (doc : Repetition) (start stop : Nat) :
    (doc.between start stop).bytes = (doc.bytes.drop start).take (stop - start) := by
  rw [between, bytes_upTo, bytes_behind]

/-- The bytes that a span covers, none unless it lies inside. -/
def slice (doc : Repetition) (span : Span) : Bytes :=
  if span.stop ≤ doc.length then (doc.between span.start span.stop).bytes else []

theorem slice_eq (doc : Repetition) (span : Span) : doc.slice span = span.slice doc.bytes := by
  rw [slice, ← length_bytes]
  split
  · rename_i hle
    rw [bytes_between, Span.slice_eq_of_le hle]
  · rename_i hlt
    rw [Span.slice_eq_nil_of_lt (Nat.lt_of_not_le hlt)]

end Parts

section Front

def head? : Repetition → Option UInt8
  | [] => none
  | (piece, count) :: rest => if count = 0 then head? rest else piece.head?.or (head? rest)

theorem head?_eq (doc : Repetition) : doc.head? = doc.bytes.head? := by
  induction doc with
  | nil => rfl
  | cons entry rest ih =>
    obtain ⟨piece, count⟩ := entry
    rw [head?]
    cases count with
    | zero =>
      rw [if_pos rfl, ih]
      rfl
    | succ count =>
      rw [if_neg (Nat.succ_ne_zero count), ih, bytes_cons_succ, List.head?_append]
      cases piece with
      | nil => simp [bytes_cons]
      | cons b piece => rfl

/-- Passes over the bytes of one class: how many there are, and what is left. -/
def skip (inClass : UInt8 → Bool) : Repetition → Nat × Repetition
  | [] => (0, [])
  | (piece, count) :: rest =>
    let left := piece.dropWhile inClass
    if count = 0 ∨ left.isEmpty then
      let (passed, left) := skip inClass rest
      (count * piece.length + passed, left)
    else ((piece.takeWhile inClass).length, push left 1 (push piece (count - 1) rest))

theorem skip_eq (inClass : UInt8 → Bool) (doc : Repetition) :
    (skip inClass doc).1 = (doc.bytes.takeWhile inClass).length ∧
      (skip inClass doc).2.bytes = doc.bytes.dropWhile inClass := by
  induction doc with
  | nil => exact ⟨rfl, rfl⟩
  | cons entry rest ih =>
    obtain ⟨piece, count⟩ := entry
    rw [skip, bytes_cons]
    dsimp only
    split
    · rename_i hwhole
      have hall : ∀ b ∈ (List.replicate count piece).flatten, inClass b := by
        intro b hb
        obtain ⟨other, hother, hmem⟩ := List.mem_flatten.1 hb
        obtain ⟨hcount, rfl⟩ := List.mem_replicate.1 hother
        have hpassed := List.takeWhile_append_dropWhile (p := inClass) (l := other)
        rw [List.isEmpty_iff.1 (hwhole.resolve_left hcount), List.append_nil] at hpassed
        exact List.all_eq_true.1 List.all_takeWhile b (hpassed ▸ hmem)
      rw [List.takeWhile_append_of_pos hall, List.dropWhile_append_of_pos hall, List.length_append,
        length_flatten_replicate, ih.1]
      exact ⟨rfl, ih.2⟩
    · rename_i hleft
      obtain ⟨hcount, hstop⟩ := not_or.1 hleft
      obtain ⟨count, rfl⟩ := Nat.exists_eq_succ_of_ne_zero hcount
      have hinside : (piece.takeWhile inClass).length ≠ piece.length := by
        intro hall
        have hpassed := congrArg List.length (List.takeWhile_append_dropWhile (p := inClass) (l := piece))
        rw [List.length_append] at hpassed
        exact hstop (List.isEmpty_iff.2 (List.eq_nil_of_length_eq_zero (by omega)))
      rw [← bytes_cons, bytes_cons_succ, List.takeWhile_append, if_neg hinside, List.dropWhile_append,
        if_neg hstop, bytes_push, bytes_cons_succ, bytes_cons, bytes_push]
      exact ⟨rfl, rfl⟩

end Front

end Repetition

end MarkupStream
