import MarkupStream.Proofs.AttributeGrammar

/-!
Loops. The reading of one token goes round in several loops: over the bytes of a class, the parts of a tag,
the attributes of a declaration, the brackets of a DOCTYPE, the close tags in literal text, and between
literal text and content. Each is told here by what a single round does, and it ends: after no more rounds
than there are bytes left and one it has left with what the definitions by recursion give.
-/
namespace MarkupStream

section Loop

variable {σ α : Type} {round : σ → σ ⊕ α}

/-- A loop goes on to another state or leaves with a result, in each round. After so many rounds it has
left. -/
inductive Leaves (round : σ → σ ⊕ α) : Nat → σ → α → Prop
  | leave {s : σ} {a : α} : round s = .inr a → Leaves round 1 s a
  | again {s t : σ} {a : α} {rounds : Nat} : round s = .inl t → Leaves round rounds t a →
      Leaves round (rounds + 1) s a

/-- The loop leaves with the result after a bounded number of rounds. -/
def EndsWithin (round : σ → σ ⊕ α) (bound : Nat) (s : σ) (a : α) : Prop :=
  ∃ rounds ≤ bound, Leaves round rounds s a

variable {s t : σ} {a : α} {bound : Nat}

theorem endsWithin_leave (h : round s = .inr a) (bound : Nat) : EndsWithin round (bound + 1) s a :=
  ⟨1, by omega, .leave h⟩

theorem EndsWithin.again (h : EndsWithin round bound t a) (hs : round s = .inl t) :
    EndsWithin round (bound + 1) s a := by
  obtain ⟨rounds, hle, hleaves⟩ := h
  exact ⟨rounds + 1, by omega, .again hs hleaves⟩

theorem EndsWithin.mono (h : EndsWithin round bound s a) {more : Nat} (hle : bound ≤ more) :
    EndsWithin round more s a := by
  obtain ⟨rounds, hrounds, hleaves⟩ := h
  exact ⟨rounds, Nat.le_trans hrounds hle, hleaves⟩

/-- States that a round does not tell apart are left alike. -/
theorem EndsWithin.congr (h : EndsWithin round bound t a) (hs : round s = round t) :
    EndsWithin round bound s a := by
  obtain ⟨rounds, hle, hleaves⟩ := h
  refine ⟨rounds, hle, ?_⟩
  cases hleaves with
  | leave ht => exact .leave (hs.trans ht)
  | again ht hrest => exact .again (hs.trans ht) hrest

end Loop

namespace Cursor

open Byte

variable {b : UInt8} {offset : Nat} {rest : Bytes}

section Skip

variable {inClass : UInt8 → Bool}

/-- One byte of a run of bytes of a class. -/
def skipRound (inClass : UInt8 → Bool) (c : Cursor) : Cursor ⊕ Cursor :=
  match c.peek? with
  | some b => if inClass b then .inl (c.advance 1) else .inr c
  | none => .inr c

theorem skip_of_true (h : inClass b) :
    (Cursor.mk offset (b :: rest)).skip inClass = (Cursor.mk (offset + 1) rest).skip inClass := by
  simp only [skip, List.takeWhile_cons_of_pos h, List.dropWhile_cons_of_pos h, List.length_cons]
  rw [Nat.add_assoc, Nat.add_comm 1]

theorem skip_of_false (h : ¬ inClass b) :
    (Cursor.mk offset (b :: rest)).skip inClass = ⟨offset, b :: rest⟩ := by
  simp only [skip, List.takeWhile_cons_of_neg h, List.dropWhile_cons_of_neg h, List.length_nil,
    Nat.add_zero]

theorem endsWithin_skip (inClass : UInt8 → Bool) (c : Cursor) :
    EndsWithin (skipRound inClass) (c.rest.length + 1) c (c.skip inClass) := by
  obtain ⟨offset, rest⟩ := c
  induction rest generalizing offset with
  | nil =>
    refine endsWithin_leave ?_ _
    rfl
  | cons b rest ih =>
    by_cases hb : inClass b
    · rw [skip_of_true hb]
      refine (ih (offset + 1)).again ?_
      exact if_pos hb
    · rw [skip_of_false hb]
      refine endsWithin_leave ?_ _
      exact if_neg hb

end Skip

section Seek

/-- A byte that cannot be what is sought is passed over. -/
theorem seek?_cons {found : Bytes → Bool} (h : ¬ found (b :: rest)) :
    (Cursor.mk offset (b :: rest)).seek? found = (Cursor.mk (offset + 1) rest).seek? found := by
  rw [seek?, seekFrom, if_neg h]
  rfl

theorem seek?_self {found : Bytes → Bool} (h : found (b :: rest)) :
    (Cursor.mk offset (b :: rest)).seek? found = some ⟨offset, b :: rest⟩ := by
  rw [seek?, seekFrom, if_pos h]

/-- So are all bytes of a class of such. -/
theorem seek?_skip {found : Bytes → Bool} {inClass : UInt8 → Bool}
    (h : ∀ b rest, inClass b → ¬ found (b :: rest)) (c : Cursor) :
    (c.skip inClass).seek? found = c.seek? found := by
  obtain ⟨offset, rest⟩ := c
  induction rest generalizing offset with
  | nil => rfl
  | cons b rest ih =>
    by_cases hb : inClass b
    · rw [skip_of_true hb, ih, seek?_cons (h b rest hb)]
    · rw [skip_of_false hb]

end Seek

section Subset

/-- One closing bracket in an internal subset: it ends the subset if a `>` follows, with whitespace at most
in between. -/
def subsetRound (c : Cursor) : Cursor ⊕ Option Cursor :=
  match c.seekByte? 0x5D with
  | none => .inr none
  | some close =>
    let probe := (close.advance 1).skipWhitespace
    if probe.peek? == some greaterThan then .inr (some close) else .inl probe

theorem not_endsSubset (h : b ≠ 0x5D) : ¬ Token.endsSubset (b :: rest) := by
  simp [Token.endsSubset, h]

theorem endsWithin_subset (c : Cursor) :
    EndsWithin subsetRound (c.rest.length + 1) c (c.seek? Token.endsSubset) := by
  obtain ⟨offset, rest⟩ := c
  match rest with
  | [] =>
    refine endsWithin_leave ?_ _
    rfl
  | b :: rest =>
    by_cases hb : b = 0x5D
    · subst hb
      have hclose : (Cursor.mk offset (0x5D :: rest)).seekByte? 0x5D = some ⟨offset, 0x5D :: rest⟩ :=
        seek?_self rfl
      have hadvance : (Cursor.mk offset (0x5D :: rest)).advance 1 = ⟨offset + 1, rest⟩ := rfl
      by_cases hend : Token.endsSubset (0x5D :: rest)
      · rw [seek?_self hend]
        refine endsWithin_leave ?_ _
        rw [subsetRound, hclose]
        exact if_pos hend
      · -- The search goes on behind the whitespace, where no bracket is missed.
        have hpass : ∀ (b : UInt8) (rest : Bytes),
            isWhitespace b → ¬ Token.endsSubset (b :: rest) := by
          intro b rest hspace
          apply not_endsSubset
          rintro rfl
          exact absurd hspace (by decide)
        have hlength := (Cursor.mk (offset + 1) rest).rest_skipWhitespace_le
        rw [seek?_cons hend, ← seek?_skip hpass]
        refine ((endsWithin_subset (Cursor.mk (offset + 1) rest).skipWhitespace).again ?_).mono ?_
        · rw [subsetRound, hclose]
          exact if_neg hend
        · exact Nat.succ_le_succ (Nat.succ_le_succ hlength)
    · have hround : subsetRound ⟨offset, b :: rest⟩ = subsetRound ⟨offset + 1, rest⟩ := by
        have hnot : ¬ ((b :: rest).head? == some 0x5D) := by simpa using hb
        rw [subsetRound, subsetRound, seekByte?, seek?_cons hnot]
        rfl
      rw [seek?_cons (not_endsSubset hb)]
      exact ((endsWithin_subset ⟨offset + 1, rest⟩).congr hround).mono (Nat.le_succ _)
termination_by c.rest.length
decreasing_by
  · exact Nat.lt_succ_of_le hlength
  · exact Nat.lt_succ_self _

end Subset

section CloseTag

variable {name : Bytes} {ignoreCase : Bool}

/-- One `</` in literal text: it ends the text if the name goes on as it should. -/
def closeTagRound (name : Bytes) (ignoreCase : Bool) (c : Cursor) : Cursor ⊕ Option Cursor :=
  match c.seekBytes? [lessThan, slash] with
  | none => .inr none
  | some pair =>
    if closesWith name ignoreCase (pair.advance 2).rest then .inr (some pair)
    else .inl (pair.advance 2)

theorem isPrefixOf_pair {a b : UInt8} {rest : Bytes} :
    [lessThan, slash].isPrefixOf (a :: b :: rest) = (a == lessThan && b == slash) := by
  rw [List.isPrefixOf_cons_cons, List.isPrefixOf_cons_cons, List.isPrefixOf_nil_left, Bool.and_true,
    BEq.comm (a := lessThan), BEq.comm (a := slash)]

theorem endsWithin_closeTagFrom (name : Bytes) (ignoreCase : Bool) (offset : Nat) (bytes : Bytes) :
    EndsWithin (closeTagRound name ignoreCase) (bytes.length + 1) ⟨offset, bytes⟩
      (closeTagFrom name ignoreCase offset bytes) := by
  fun_induction closeTagFrom name ignoreCase offset bytes with
  | case1 offset =>
    refine endsWithin_leave ?_ _
    rfl
  | case2 offset a =>
    have hnot : ¬ [lessThan, slash].isPrefixOf [a] := by simp [List.isPrefixOf]
    refine endsWithin_leave ?_ _
    rw [closeTagRound, seekBytes?, seek?_cons hnot]
    rfl
  | case3 offset a b rest hpair hcloses =>
    refine endsWithin_leave ?_ _
    rw [closeTagRound, seekBytes?, seek?_self (isPrefixOf_pair.trans hpair)]
    exact if_pos hcloses
  | case4 offset a b rest hpair hcloses ih =>
    refine (ih.again ?_).mono (Nat.le_succ _)
    rw [closeTagRound, seekBytes?, seek?_self (isPrefixOf_pair.trans hpair)]
    exact if_neg hcloses
  | case5 offset a b rest hpair ih =>
    refine (ih.congr ?_).mono (Nat.le_succ _)
    have hnot : ¬ [lessThan, slash].isPrefixOf (a :: b :: rest) := by rwa [isPrefixOf_pair]
    rw [closeTagRound, closeTagRound, seekBytes?, seek?_cons hnot]
    rfl

theorem endsWithin_closeTag (name : Bytes) (ignoreCase : Bool) (c : Cursor) :
    EndsWithin (closeTagRound name ignoreCase) (c.rest.length + 1) c (c.seekCloseTag? name ignoreCase) :=
  endsWithin_closeTagFrom name ignoreCase c.offset c.rest

end CloseTag

end Cursor

namespace Tag

open Byte

/-- One part of an open tag, or its end. -/
def partsRound (dialect : Dialect) (tagStart : Nat) (state : Cursor × Bool × List TagPart) :
    (Cursor × Bool × List TagPart) ⊕ Except Refusal (List TagPart × Span × Bool × Cursor) :=
  let (c, separated, parts) := state
  match c.peek? with
  | none => .inr (c.refuse (.unterminated .openTag tagStart))
  | some b =>
    if isWhitespace b then
      .inl (c.skipWhitespace, true, parts ++ [.whitespace (c.upTo c.skipWhitespace)])
    else if b == greaterThan then .inr (.ok (parts, c.upTo (c.advance 1), false, c.advance 1))
    else if b == slash then
      if (c.advance 1).peek? == some greaterThan then
        .inr (.ok (parts, c.upTo (c.advance 2), true, c.advance 2))
      else if dialect.isStrict then .inr (c.refuse (.malformed .straySlash c.offset))
      else .inl (c.advance 1, true, parts ++ [.whitespace (c.upTo (c.advance 1))])
    else if dialect.isStrict && !separated then
      .inr (c.refuse (.malformed .missingSeparator c.offset))
    else
      match readAttribute dialect tagStart c with
      | .error refusal => .inr (.error refusal)
      | .ok (a, next) => .inl (next, false, parts ++ [.attr a])

variable {dialect : Dialect} {tagStart : Nat} {separated : Bool} {parts : List TagPart} {c : Cursor}
  {b : UInt8} {rest : Bytes}

theorem partsRound_nil (h : c.rest = []) :
    partsRound dialect tagStart (c, separated, parts) =
      .inr (c.refuse (.unterminated .openTag tagStart)) := by
  rw [partsRound, Cursor.peek?, h]
  rfl

theorem partsRound_cons (h : c.rest = b :: rest) :
    partsRound dialect tagStart (c, separated, parts) =
      if isWhitespace b then
        .inl (c.skipWhitespace, true, parts ++ [.whitespace (c.upTo c.skipWhitespace)])
      else if b == greaterThan then .inr (.ok (parts, c.upTo (c.advance 1), false, c.advance 1))
      else if b == slash then
        if rest.head? == some greaterThan then
          .inr (.ok (parts, c.upTo (c.advance 2), true, c.advance 2))
        else if dialect.isStrict then .inr (c.refuse (.malformed .straySlash c.offset))
        else .inl (c.advance 1, true, parts ++ [.whitespace (c.upTo (c.advance 1))])
      else if dialect.isStrict && !separated then
        .inr (c.refuse (.malformed .missingSeparator c.offset))
      else
        match readAttribute dialect tagStart c with
        | .error refusal => .inr (.error refusal)
        | .ok (a, next) => .inl (next, false, parts ++ [.attr a]) := by
  have hnext : (c.advance 1).peek? = rest.head? := by
    rw [Cursor.peek?, Cursor.rest_advance, h]
    rfl
  rw [partsRound, hnext, Cursor.peek?, h]
  rfl

/-- A part may be put in front of those behind it or behind those in front of it. -/
theorem map_append_map (r : Except Refusal (List TagPart × Span × Bool × Cursor)) (part : TagPart)
    (parts : List TagPart) :
    (r.map fun (found, tail) => (part :: found, tail)).map (fun (found, tail) => (parts ++ found, tail)) =
      r.map fun (found, tail) => (parts ++ [part] ++ found, tail) := by
  cases r with
  | error => rfl
  | ok found =>
    simp [Except.map]

theorem map_append_nil (parts : List TagPart) (tail : Span × Bool × Cursor) :
    (Except.ok ([], tail) : Except Refusal _).map
      (fun ((found, tail) : List TagPart × _) => (parts ++ found, tail)) = .ok (parts, tail) := by
  simp [Except.map]

theorem endsWithin_parts (dialect : Dialect) (tagStart : Nat) (separated : Bool) (c : Cursor)
    (parts : List TagPart) :
    EndsWithin (partsRound dialect tagStart) (c.rest.length + 1) (c, separated, parts)
      ((readParts dialect tagStart separated c).map fun (found, tail) => (parts ++ found, tail)) := by
  fun_induction readParts dialect tagStart separated c generalizing parts with
  | case1 separated c hc =>
    refine endsWithin_leave ?_ _
    rw [partsRound_nil hc]
    rfl
  | case2 separated c b rest hc hspace next ih =>
    rw [map_append_map]
    refine ((ih _).again ?_).mono (Nat.succ_le_succ (Cursor.length_skip_lt hc hspace))
    rw [partsRound_cons hc, if_pos hspace]
  | case3 separated c b rest hc hspace hend =>
    refine endsWithin_leave ?_ _
    rw [partsRound_cons hc, if_neg hspace, if_pos hend, map_append_nil]
  | case4 separated c b rest hc hspace hend hslash hclosing =>
    refine endsWithin_leave ?_ _
    rw [partsRound_cons hc, if_neg hspace, if_neg hend, if_pos hslash, if_pos hclosing,
      map_append_nil]
  | case5 separated c b rest hc hspace hend hslash hclosing hstrict =>
    refine endsWithin_leave ?_ _
    rw [partsRound_cons hc, if_neg hspace, if_neg hend, if_pos hslash, if_neg hclosing, if_pos hstrict]
    rfl
  | case6 separated c b rest hc hspace hend hslash hclosing hloose next ih =>
    have hlength : next.rest.length < c.rest.length := Token.length_advance_lt (by simp [hc]) (by decide)
    rw [map_append_map]
    refine ((ih _).again ?_).mono (Nat.succ_le_succ hlength)
    rw [partsRound_cons hc, if_neg hspace, if_neg hend, if_pos hslash, if_neg hclosing, if_neg hloose]
  | case7 separated c b rest hc hspace hend hslash hmissing =>
    refine endsWithin_leave ?_ _
    rw [partsRound_cons hc, if_neg hspace, if_neg hend, if_neg hslash, if_pos hmissing]
    rfl
  | case8 separated c b rest hc hspace hend hslash hmissing refusal hattribute =>
    refine endsWithin_leave ?_ _
    rw [partsRound_cons hc, if_neg hspace, if_neg hend, if_neg hslash, if_neg hmissing, hattribute]
    rfl
  | case9 separated c b rest hc hspace hend hslash hmissing a next hattribute ih =>
    have hlength := length_readAttribute_lt (by simp [hc]) hattribute
    rw [map_append_map]
    refine ((ih _).again ?_).mono (Nat.succ_le_succ hlength)
    rw [partsRound_cons hc, if_neg hspace, if_neg hend, if_neg hslash, if_neg hmissing, hattribute]

end Tag

namespace Token

/-- One pseudo-attribute of an XML declaration. -/
def pseudoRound (state : Cursor × List (Bytes × Span)) :
    (Cursor × List (Bytes × Span)) ⊕ (List (Bytes × Span) × Bool) :=
  let (c, found) := state
  if c.skipWhitespace.rest.isEmpty then .inr (found, true)
  else
    match readPseudoAttribute? c with
    | none => .inr (found, false)
    | some (name, value, next) => .inl (next, found ++ [(name, value)])

theorem endsWithin_pseudoAttributes (c : Cursor) (before : List (Bytes × Span)) :
    EndsWithin pseudoRound (c.rest.length + 1) (c, before)
      (before ++ (readPseudoAttributes c).1, (readPseudoAttributes c).2) := by
  fun_induction readPseudoAttributes c generalizing before with
  | case1 c hend =>
    refine endsWithin_leave ?_ _
    rw [pseudoRound, if_pos hend, List.append_nil]
  | case2 c hend hnone =>
    refine endsWithin_leave ?_ _
    rw [pseudoRound, if_neg hend, hnone, List.append_nil]
  | case3 c hend name value next hsome found complete hrest ih =>
    rw [hrest] at ih
    have hafter := ih (before ++ [(name, value)])
    rw [List.append_assoc] at hafter
    refine (hafter.again ?_).mono (Nat.succ_le_succ (length_readPseudoAttribute_lt hsome))
    rw [pseudoRound, if_neg hend, hsome]

end Token

namespace TokenStream

/-- The literal text that is read first, and nothing if it is empty; either way what follows is content. -/
def scanLiteral (s : TokenStream) (name : Bytes) : Result :=
  let s := { s with mode := .content }
  let finish (stop : Cursor) : Result :=
    (.ok (if s.offset < stop.offset then some (.text (s.cursor.upTo stop)) else none),
      { s with cursor := stop })
  match s.cursor.seekCloseTag? name s.dialect.ignoresCase with
  | some stop => finish stop
  | none =>
    if s.dialect.isStrict then s.fail (.unterminated .rawText (s.locate s.offset))
    else finish (s.cursor.skip fun _ => true)

/-- One look at the mode. Literal text that is empty is no token, so it is looked at again. -/
def scanRound (s : TokenStream) : TokenStream ⊕ Result :=
  match s.mode with
  | .done => .inr (.ok none, s)
  | .literal name =>
    match s.scanLiteral name with
    | (.ok none, t) => .inl t
    | result => .inr result
  | .content => .inr s.nextContent

theorem endsWithin_scan_content {s : TokenStream} (h : s.mode = .content) (bound : Nat) :
    EndsWithin scanRound (bound + 1) s s.nextContent := by
  refine endsWithin_leave ?_ _
  rw [scanRound, h]

/-- Literal text up to a cursor is a token or, if it is empty, goes over to content. -/
theorem endsWithin_scan_literal {s : TokenStream} {name : Bytes} {stop : Cursor}
    (hm : s.mode = .literal name) (hstop : s.cursor.Reaches stop)
    (hscan : s.scanLiteral name =
      (.ok (if s.offset < stop.offset then some (.text (s.cursor.upTo stop)) else none),
        { s with mode := .content, cursor := stop })) :
    EndsWithin scanRound 2 s (if s.offset < stop.offset
      then emit { s with mode := .content } (.text (s.cursor.upTo stop)) stop
      else nextContent { s with mode := .content }) := by
  by_cases hlt : s.offset < stop.offset
  · rw [if_pos hlt] at hscan ⊢
    refine endsWithin_leave ?_ _
    rw [scanRound, hm]
    dsimp only
    rw [hscan]
    rfl
  · obtain rfl : stop = s.cursor := hstop.eq_of_offset_le (Nat.le_of_not_lt hlt)
    rw [if_neg hlt] at hscan ⊢
    refine (endsWithin_scan_content rfl 0).again ?_
    rw [scanRound, hm]
    dsimp only
    rw [hscan]

theorem endsWithin_scan (s : TokenStream) : EndsWithin scanRound 2 s s.next := by
  rw [next]
  cases hm : s.mode with
  | done =>
    refine endsWithin_leave ?_ _
    rw [scanRound, hm]
  | content => exact endsWithin_scan_content hm 1
  | literal name =>
    dsimp only
    rw [nextLiteral]
    cases hstop : s.cursor.seekCloseTag? name s.dialect.ignoresCase with
    | some stop =>
      refine endsWithin_scan_literal hm (Cursor.reaches_seekCloseTag hstop) ?_
      rw [scanLiteral, hstop]
      rfl
    | none =>
      by_cases hstrict : s.dialect.isStrict
      · rw [if_pos hstrict]
        refine endsWithin_leave ?_ _
        rw [scanRound, hm]
        dsimp only
        rw [scanLiteral, hstop, if_pos hstrict]
        rfl
      · rw [if_neg hstrict]
        refine endsWithin_scan_literal hm (s.cursor.reaches_skip _) ?_
        rw [scanLiteral, hstop, if_neg hstrict]
        rfl

/-- All loops that the reading of one token goes round in end, with what the definitions by recursion
give. -/
structure LoopsEnd : Prop where
  scan : ∀ s, EndsWithin scanRound 2 s s.next
  run : ∀ inClass (c : Cursor),
    EndsWithin (Cursor.skipRound inClass) (c.rest.length + 1) c (c.skip inClass)
  closeTag : ∀ name ignoreCase (c : Cursor),
    EndsWithin (Cursor.closeTagRound name ignoreCase) (c.rest.length + 1) c
      (c.seekCloseTag? name ignoreCase)
  parts : ∀ dialect tagStart (c : Cursor),
    EndsWithin (Tag.partsRound dialect tagStart) (c.rest.length + 1) (c, false, [])
      (Tag.readParts dialect tagStart false c)
  subset : ∀ c : Cursor,
    EndsWithin Cursor.subsetRound (c.rest.length + 1) c (c.seek? Token.endsSubset)
  pseudoAttributes : ∀ c : Cursor,
    EndsWithin Token.pseudoRound (c.rest.length + 1) (c, []) (Token.readPseudoAttributes c)

theorem loopsEnd : LoopsEnd where
  scan := endsWithin_scan
  run := Cursor.endsWithin_skip
  closeTag := Cursor.endsWithin_closeTag
  parts := by
    intro dialect tagStart c
    have hparts := Tag.endsWithin_parts dialect tagStart false c []
    cases hread : Tag.readParts dialect tagStart false c with
    | error refusal | ok read =>
      rw [hread] at hparts
      exact hparts
  subset := Cursor.endsWithin_subset
  pseudoAttributes := fun c => Token.endsWithin_pseudoAttributes c []

end TokenStream

end MarkupStream
