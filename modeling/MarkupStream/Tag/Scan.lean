import MarkupStream.Cursor
import MarkupStream.Diagnostic
import MarkupStream.Options
import MarkupStream.Tag

/-!
Scanning of tags. Strict XML wants every attribute separated by whitespace and given a quoted value;
HTML takes loose names, bare values and stray slashes. Each step reads at least one byte, so a tag
is finished or found faulty by the end of the document.
-/
namespace MarkupStream

/-- A fault, with the cursor where reading stopped because of it. -/
structure Refusal where
  fault : Fault
  cursor : Cursor
  deriving DecidableEq, Repr

/-- Stops reading at a cursor. -/
def Cursor.refuse (c : Cursor) (fault : Fault) : Except Refusal α := .error ⟨fault, c⟩

@[simp] theorem Cursor.refuse_ne_ok (c : Cursor) (fault : Fault) (a : α) :
    (c.refuse fault = .ok a) = False := by
  simp [Cursor.refuse]

namespace Tag

open Byte

/-- The cursor after an attribute name. In HTML a lone `=` is a name of its own. -/
def readName (dialect : Dialect) (c : Cursor) : Except Refusal Cursor :=
  match dialect with
  | .xml => match c.afterName? with
    | some next => .ok next
    | none => c.refuse (.invalidName c.offset)
  | .html => .ok ((c.afterLooseName? [equals]).getD (c.advance 1))

/-- The value at a cursor: with its quotes, without them, and the cursor after it. -/
def readValue (dialect : Dialect) (tagStart : Nat) (c : Cursor) :
    Except Refusal (Span × Span × Cursor) :=
  match c.peek? with
  | none => c.refuse (.unterminated .openTag tagStart)
  | some b =>
    if isQuote b then
      let inner := c.advance 1
      match inner.seekByte? b with
      | none => inner.refuse (.unterminated .attributeValue c.offset)
      | some close =>
        let next := close.advance 1
        match dialect, inner.seekByte? lessThan with
        | .xml, some bad =>
          if bad.offset < close.offset then inner.refuse (.malformed .lessThanInValue bad.offset)
          else .ok (c.upTo next, inner.upTo close, next)
        | _, _ => .ok (c.upTo next, inner.upTo close, next)
    else
      match dialect with
      | .xml => c.refuse (.malformed .unquotedValue c.offset)
      | .html =>
        let next := c.skip fun b => !(isWhitespace b || b == greaterThan)
        .ok (c.upTo next, c.upTo next, next)

/-- The attribute at a byte that is neither whitespace nor the end of its tag. -/
def readAttribute (dialect : Dialect) (tagStart : Nat) (c : Cursor) :
    Except Refusal (Attribute × Cursor) :=
  match readName dialect c with
  | .error refusal => .error refusal
  | .ok named =>
    let atSign := named.skipWhitespace
    if atSign.peek? == some equals then
      let valued := (atSign.advance 1).skipWhitespace
      match readValue dialect tagStart valued with
      | .error refusal => .error refusal
      | .ok (outer, value, next) => .ok (⟨c.upTo named, some ⟨named.upTo valued, outer, value⟩⟩, next)
    else
      match dialect with
      | .xml => named.refuse (.malformed .missingValue named.offset)
      | .html => .ok (⟨c.upTo named, none⟩, named)

theorem afterName?_of_readName {c next : Cursor} (h : readName .xml c = .ok next) :
    c.afterName? = some next := by
  rw [readName] at h
  split at h
  · rename_i named hnamed
    rw [hnamed, Except.ok.inj h]
  · cases h

theorem length_readName_lt {dialect : Dialect} {c next : Cursor} (hc : c.rest ≠ [])
    (h : readName dialect c = .ok next) : next.rest.length < c.rest.length := by
  cases dialect with
  | xml => exact Cursor.length_afterName_lt (afterName?_of_readName h)
  | html =>
    obtain rfl := Except.ok.inj h
    cases hn : c.afterLooseName? [equals] with
    | some next => simpa using Cursor.length_afterLooseName_lt hn
    | none =>
      have hpos := List.length_pos_iff.2 hc
      simp only [Option.getD_none, Cursor.rest_advance, List.length_drop]
      omega

/-- A value that is read is quoted, in XML with no `<` before the closing quote, or in HTML it is bare. -/
theorem cases_readValue {dialect : Dialect} {tagStart : Nat} {c next : Cursor} {outer value : Span}
    (h : readValue dialect tagStart c = .ok (outer, value, next)) :
    (∃ quote close, c.peek? = some quote ∧ isQuote quote ∧ (c.advance 1).seekByte? quote = some close ∧
      (dialect = .xml →
        ∀ bad, (c.advance 1).seekByte? lessThan = some bad → close.offset ≤ bad.offset) ∧
      next = close.advance 1 ∧ outer = c.upTo next ∧ value = (c.advance 1).upTo close) ∨
    (∃ b, dialect = .html ∧ c.peek? = some b ∧ ¬ isQuote b ∧
      next = c.skip (fun b => !(isWhitespace b || b == greaterThan)) ∧ outer = c.upTo next ∧
      value = outer) := by
  unfold readValue at h
  split at h
  · cases h
  · rename_i b hb
    split at h
    · rename_i hquote
      dsimp only at h
      split at h
      · cases h
      · rename_i close hclose
        refine .inl ⟨b, close, hb, hquote, hclose, ?_⟩
        split at h
        · rename_i bad hbad
          split at h
          · cases h
          · rename_i hle
            simp only [Except.ok.injEq, Prod.mk.injEq] at h
            obtain ⟨rfl, rfl, rfl⟩ := h
            refine ⟨fun _ bad' hbad' => ?_, rfl, rfl, rfl⟩
            obtain rfl := Option.some.inj (hbad.symm.trans hbad')
            exact Nat.not_lt.1 hle
        · rename_i hnone
          simp only [Except.ok.injEq, Prod.mk.injEq] at h
          obtain ⟨rfl, rfl, rfl⟩ := h
          exact ⟨fun hxml bad hbad => absurd hbad (hnone bad hxml), rfl, rfl, rfl⟩
    · rename_i hbare
      split at h
      · cases h
      · simp only [Except.ok.injEq, Prod.mk.injEq] at h
        obtain ⟨rfl, rfl, rfl⟩ := h
        exact .inr ⟨b, rfl, hb, hbare, rfl, rfl, rfl⟩

/-- An attribute that is read has a value behind an `=`, or in HTML it is a name alone. -/
theorem exists_of_readAttribute {dialect : Dialect} {tagStart : Nat} {c next : Cursor} {a : Attribute}
    (h : readAttribute dialect tagStart c = .ok (a, next)) :
    ∃ named, readName dialect c = .ok named ∧
      ((∃ valued outer value, named.skipWhitespace.peek? = some equals ∧
        valued = (named.skipWhitespace.advance 1).skipWhitespace ∧
        readValue dialect tagStart valued = .ok (outer, value, next) ∧
        a = ⟨c.upTo named, some ⟨named.upTo valued, outer, value⟩⟩) ∨
      (dialect = .html ∧ next = named ∧ a = ⟨c.upTo named, none⟩)) := by
  rw [readAttribute] at h
  split at h
  · cases h
  · rename_i named hnamed
    refine ⟨named, hnamed, ?_⟩
    dsimp only at h
    split at h
    · rename_i hassigned
      split at h
      · cases h
      · rename_i outer value last hvalue
        obtain ⟨rfl, rfl⟩ := Prod.mk.inj (Except.ok.inj h)
        exact .inl ⟨_, outer, value, beq_iff_eq.1 hassigned, rfl, hvalue, rfl⟩
    · split at h
      · cases h
      · obtain ⟨rfl, rfl⟩ := Prod.mk.inj (Except.ok.inj h)
        exact .inr ⟨rfl, rfl, rfl⟩

theorem length_readValue_le {dialect : Dialect} {tagStart : Nat} {c next : Cursor}
    {outer value : Span} (h : readValue dialect tagStart c = .ok (outer, value, next)) :
    next.rest.length ≤ c.rest.length := by
  rcases cases_readValue h with ⟨quote, close, -, -, hclose, -, rfl, -⟩ | ⟨b, -, -, -, rfl, -⟩
  · have hinner := Cursor.length_seek_le hclose
    simp only [Cursor.rest_advance, List.length_drop] at hinner ⊢
    omega
  · exact c.length_skip_le _

theorem length_readAttribute_lt {dialect : Dialect} {tagStart : Nat} {c next : Cursor} {a : Attribute}
    (hc : c.rest ≠ []) (h : readAttribute dialect tagStart c = .ok (a, next)) :
    next.rest.length < c.rest.length := by
  obtain ⟨named, hnamed, ⟨_, outer, value, -, rfl, hvalue, -⟩ | ⟨-, rfl, -⟩⟩ := exists_of_readAttribute h
  · have hname := length_readName_lt hc hnamed
    have hassign := named.rest_skipWhitespace_le
    have hspace := (named.skipWhitespace.advance 1).rest_skipWhitespace_le
    have hlast := length_readValue_le hvalue
    simp only [Cursor.rest_advance, List.length_drop] at hspace
    omega
  · exact length_readName_lt hc hnamed

/-- The parts of an open tag from a cursor behind its name on, its end, whether it closes itself, and
the cursor behind it. `separated` says whether whitespace, or in HTML a slash, has just been read. -/
def readParts (dialect : Dialect) (tagStart : Nat) (separated : Bool) (c : Cursor) :
    Except Refusal (List TagPart × Span × Bool × Cursor) :=
  match _h : c.rest with
  | [] => c.refuse (.unterminated .openTag tagStart)
  | b :: rest =>
    if isWhitespace b then
      let next := c.skipWhitespace
      (readParts dialect tagStart true next).map fun (found, tail) =>
        (.whitespace (c.upTo next) :: found, tail)
    else if b == greaterThan then
      .ok ([], c.upTo (c.advance 1), false, c.advance 1)
    else if b == slash then
      if rest.head? == some greaterThan then
        .ok ([], c.upTo (c.advance 2), true, c.advance 2)
      else if dialect.isStrict then c.refuse (.malformed .straySlash c.offset)
      else
        let next := c.advance 1
        (readParts dialect tagStart true next).map fun (found, tail) =>
          (.whitespace (c.upTo next) :: found, tail)
    else if dialect.isStrict && !separated then
      c.refuse (.malformed .missingSeparator c.offset)
    else
      match _ha : readAttribute dialect tagStart c with
      | .error refusal => .error refusal
      | .ok (a, next) =>
        (readParts dialect tagStart false next).map fun (found, tail) => (.attr a :: found, tail)
termination_by c.rest.length
decreasing_by
  · rename_i hb
    exact Cursor.length_skip_lt _h hb
  · simp [_h]
  · exact length_readAttribute_lt (by simp [_h]) _ha

/-- The result of reading on after a part, with that part put in front. -/
theorem map_cons_eq_ok {r : Except Refusal (List TagPart × Span × Bool × Cursor)} {part : TagPart}
    {found : List TagPart} {tail : Span × Bool × Cursor}
    (h : r.map (fun (found, tail) => (part :: found, tail)) = .ok (found, tail)) :
    ∃ rest, r = .ok (rest, tail) ∧ found = part :: rest := by
  cases r with
  | error => simp [Except.map] at h
  | ok r =>
    obtain ⟨rest, tail'⟩ := r
    simp [Except.map] at h
    exact ⟨rest, by rw [h.2], h.1.symm⟩

theorem length_readParts_le {dialect : Dialect} {tagStart : Nat} {separated : Bool} {c : Cursor}
    {found : List TagPart} {tail : Span × Bool × Cursor}
    (h : readParts dialect tagStart separated c = .ok (found, tail)) :
    tail.2.2.rest.length ≤ c.rest.length := by
  fun_induction readParts dialect tagStart separated c generalizing found tail with
  | case1 => simp at h
  | case2 =>
    rename_i c _ _ _ _ _ ih
    obtain ⟨_, hr, -⟩ := map_cons_eq_ok h
    exact Nat.le_trans (ih hr) c.rest_skipWhitespace_le
  | case3 => simp at h; simp [← h.2]
  | case4 => simp at h; simp [← h.2]
  | case5 => simp at h
  | case6 =>
    rename_i c _ _ _ _ _ _ _ _ _ ih
    obtain ⟨_, hr, -⟩ := map_cons_eq_ok h
    have h1 : (c.advance 1).rest.length ≤ c.rest.length := by simp
    exact Nat.le_trans (ih hr) h1
  | case7 => simp at h
  | case8 => simp at h
  | case9 =>
    rename_i hc _ _ _ _ _ _ ha ih
    obtain ⟨_, hr, -⟩ := map_cons_eq_ok h
    have h1 := ih hr
    have h2 := length_readAttribute_lt (by simp [hc]) ha
    omega

end Tag

end MarkupStream
