import MarkupStream.Proofs.Spelling

/-!
What strict reading accepts, permissive reading reads the same. HTML has rules of its own for names,
values and ends of tags only where XML has none but an error; where XML reads a construct, HTML reads
the same one from the same bytes. The targets of instructions are the exception: in HTML a target `xml`
in any spelling makes an XML declaration.
-/
namespace MarkupStream

open Byte Cursor

namespace Cursor

/-- A byte of a loose name. -/
def isLoose (stops : Bytes) (b : UInt8) : Bool :=
  !(isWhitespace b || b == slash || b == greaterThan || stops.contains b)

/-- Two classes of bytes take the same from a cursor if the first byte that the smaller one leaves is in
neither of them. -/
theorem skip_eq_skip {p q : UInt8 → Bool} (hpq : ∀ b, p b → q b) {c : Cursor}
    (hstop : ∀ b, (c.skip p).peek? = some b → ¬ q b) : c.skip q = c.skip p := by
  obtain ⟨offset, bytes⟩ := c
  have hlist : bytes.takeWhile q = bytes.takeWhile p ∧ bytes.dropWhile q = bytes.dropWhile p := by
    simp only [skip, peek?] at hstop
    induction bytes with
    | nil => exact ⟨rfl, rfl⟩
    | cons b rest ih =>
      by_cases hb : p b
      · have hq := hpq b hb
        rw [List.dropWhile_cons_of_pos hb] at hstop
        obtain ⟨htake, hdrop⟩ := ih hstop
        simp [hb, hq, htake, hdrop]
      · have hq : ¬ q b := hstop b (by rw [List.dropWhile_cons_of_neg hb]; rfl)
        simp [hb, hq]
  simp only [skip, hlist]

/-- A name is a loose name as well if it ends where a loose name has to. -/
theorem afterLooseName?_of_afterName? {stops : Bytes} (hstops : stops.all (!isName ·))
    {c named : Cursor} (h : c.afterName? = some named)
    (hend : ∀ b, named.peek? = some b → ¬ isLoose stops b) :
    c.afterLooseName? stops = some named := by
  have hloose : ∀ b, isName b → isLoose stops b := by
    intro b hb
    have hclass : isName b → (isWhitespace b || b == slash || b == greaterThan) = false := by
      revert b
      refine forall_of_table ?_
      decide +kernel
    have hnot : stops.contains b = false := by
      rw [Bool.eq_false_iff]
      intro hmem
      have hb' := List.all_eq_true.1 hstops b (List.contains_iff_mem.1 hmem)
      rw [hb] at hb'
      cases hb'
    rw [isLoose, hclass hb, hnot]
    rfl
  rw [afterName?] at h
  split at h
  · rename_i b rest hc
    split at h
    · rename_i hb
      obtain rfl := Option.some.inj h
      have hlength : (c.skip isName).rest.length < c.rest.length :=
        length_skip_lt hc (isName_of_isNameStart hb)
      have hsame := (c.reaches_skip isName).length
      have hskip := skip_eq_skip hloose hend
      have hlt : c.offset < (c.skip isName).offset := by omega
      rw [← hskip] at hlt ⊢
      exact if_pos hlt
    · cases h
  · cases h

end Cursor

namespace Tag

variable {tagStart : Nat} {c next : Cursor}

theorem readName_html_of_xml (h : readName .xml c = .ok next)
    (hassigned : next.skipWhitespace.peek? = some equals) : readName .html c = .ok next := by
  have hname := afterName?_of_readName h
  have hend : ∀ b, next.peek? = some b → ¬ isLoose [equals] b := by
    intro b hb hloose
    by_cases hspace : isWhitespace b
    · simp [isLoose, hspace] at hloose
    · have hsame : next.skipWhitespace.peek? = next.peek? := by
        obtain ⟨rest, hrest⟩ := List.head?_eq_some_iff.1 hb
        rw [skipWhitespace, skip, hrest, peek?, peek?, hrest, List.dropWhile_cons_of_neg hspace]
      rw [hsame, hb] at hassigned
      obtain rfl := Option.some.inj hassigned
      cases hloose
  rw [readName, afterLooseName?_of_afterName? rfl hname hend]
  rfl

theorem readValue_html_of_xml {outer value : Span}
    (h : readValue .xml tagStart c = .ok (outer, value, next)) :
    readValue .html tagStart c = .ok (outer, value, next) := by
  unfold readValue at h ⊢
  split at h
  · cases h
  · split at h
    · rename_i hquote
      rw [if_pos hquote]
      dsimp only at h ⊢
      split at h
      · cases h
      · split at h
        · split at h
          · cases h
          · exact h
        · exact h
    · cases h

theorem readAttribute_html_of_xml {a : Attribute}
    (h : readAttribute .xml tagStart c = .ok (a, next)) :
    readAttribute .html tagStart c = .ok (a, next) := by
  obtain ⟨named, hnamed, ⟨_, outer, value, hassigned, rfl, hvalue, rfl⟩ | ⟨hhtml, -⟩⟩ :=
    exists_of_readAttribute h
  · rw [readAttribute, readName_html_of_xml hnamed hassigned]
    dsimp only
    rw [if_pos (beq_iff_eq.2 hassigned), readValue_html_of_xml hvalue]
  · cases hhtml

theorem readParts_html_of_xml {separated separated' : Bool} {found : List TagPart}
    {tail : Span × Bool × Cursor} (h : readParts .xml tagStart separated c = .ok (found, tail)) :
    readParts .html tagStart separated' c = .ok (found, tail) := by
  -- By the recursion of the strict reader. What its cases ask of `separated` the permissive one does not.
  fun_induction readParts .xml tagStart separated c generalizing separated' found tail with
  | case1 | case5 | case7 | case8 => cases h
  | case2 separated c b rest hc hspace =>
    rename_i ih
    obtain ⟨more, hmore, rfl⟩ := map_cons_eq_ok h
    rw [readParts_cons hc, if_pos hspace, ih hmore]
    rfl
  | case3 separated c b rest hc hspace hclose =>
    rw [readParts_cons hc, if_neg hspace, if_pos hclose]
    exact h
  | case4 separated c b rest hc hspace hclose hslash hend =>
    rw [readParts_cons hc, if_neg hspace, if_neg hclose, if_pos hslash, if_pos hend]
    exact h
  | case6 _ _ _ _ _ _ _ _ _ hloose => exact absurd rfl hloose
  | case9 separated c b rest hc hspace hclose hslash _ a next ha ih =>
    obtain ⟨more, hmore, rfl⟩ := map_cons_eq_ok h
    rw [readParts_cons hc, if_neg hspace, if_neg hclose, if_neg hslash, if_neg (by simp [Dialect.isStrict]),
      readAttribute_html_of_xml ha]
    dsimp only
    rw [ih hmore]
    rfl

end Tag

namespace Token

variable {c next : Cursor} {token : Token}

theorem readOpenTag_html_of_xml (h : readOpenTag .xml c = .ok (token, next)) :
    readOpenTag .html c = .ok (token, next) := by
  obtain ⟨named, parts, close, selfClosing, hnamed, hparts, rfl⟩ := exists_of_readOpenTag h
  rw [readOpenTag, hnamed]
  dsimp only
  rw [Tag.readParts_html_of_xml hparts]

theorem readCloseTag_html_of_xml (h : readCloseTag .xml c = .ok (token, next)) :
    readCloseTag .html c = .ok (token, next) := by
  obtain ⟨named, _, _, hnamed, rfl, rfl, ⟨rfl, hpeek, rfl⟩ | ⟨hhtml, -⟩⟩ := exists_of_readCloseTag h
  · rw [readCloseTag, hnamed]
    dsimp only
    rw [hpeek]
    rfl
  · cases hhtml

/-- The target of an instruction. -/
def target? : Token → Option Span
  | instruction _ target _ => some target
  | _ => none

/-- The token is no instruction with a target that is `xml` in another spelling. -/
def KeepsTarget (input : Bytes) (token : Token) : Prop :=
  ∀ target ∈ token.target?, Bytes.sameName true (target.slice input) (Bytes.ofString "xml") →
    target.slice input = Bytes.ofString "xml"

theorem readInstruction_html_of_xml {input : Bytes} (hc : (start input).Reaches c)
    (h : readInstruction .xml c = .ok (token, next)) (htarget : token.KeepsTarget input) :
    readInstruction .html c = .ok (token, next) := by
  obtain ⟨named, stop, hnamed, hstop, hread⟩ := exists_of_readInstruction h
  rw [readInstruction_html hnamed hstop]
  rcases hread with ⟨hxml, hdeclaration⟩ | ⟨hxml, rfl, rfl⟩
  · have hsame : Bytes.sameName true ((c.advance 2).bytesUpTo named) (Bytes.ofString "xml") := by
      rw [Bytes.sameName_iff] at hxml ⊢
      exact congrArg Bytes.foldCase hxml
    obtain ⟨found, complete, hfound, -, rfl, rfl⟩ := exists_of_readDeclaration hdeclaration
    rw [if_pos hsame, readDeclaration_html, hfound]
  · have hslice := (hc.trans (c.reaches_advance 2)).slice_upTo (reaches_afterName hnamed)
    refine if_neg fun hsame => hxml ?_
    rw [← hslice] at hsame ⊢
    rw [Bytes.sameName_iff]
    exact htarget _ rfl hsame

/-- Of two choices on one condition, the second accepts what the first does if its branches do. -/
theorem ite_eq_ok {ε α : Type} {p : Prop} [Decidable p] {x y x' y' : Except ε α} {a : α}
    (h : (if p then x else y) = .ok a) (hx : x = .ok a → x' = .ok a) (hy : y = .ok a → y' = .ok a) :
    (if p then x' else y') = .ok a := by
  by_cases hp : p
  · rw [if_pos hp] at h ⊢
    exact hx h
  · rw [if_neg hp] at h ⊢
    exact hy h

/-- A construct that strict reading accepts is read the same permissively. -/
theorem readMarkup_html_of_xml {input : Bytes} (hc : (start input).Reaches c)
    (h : readMarkup .xml c = .ok (token, next)) (htarget : token.KeepsTarget input) :
    readMarkup .html c = .ok (token, next) := by
  rw [readMarkup] at h ⊢
  refine ite_eq_ok h id fun h => ite_eq_ok h id fun h => ite_eq_ok h id fun h => ?_
  refine ite_eq_ok h (fun h => readInstruction_html_of_xml hc h htarget) fun h => ?_
  exact ite_eq_ok h readCloseTag_html_of_xml readOpenTag_html_of_xml

end Token

namespace TokenStream

variable {s t : TokenStream}

theorem rest_of_none (h : s.next = (.ok none, t)) : s.rest = ([], none, t) := by
  rw [rest]
  split <;> simp_all

theorem rest_of_error {e : ParseError} (h : s.next = (.error e, t)) : s.rest = ([], some e, t) := by
  rw [rest]
  split <;> simp_all

theorem rest_of_token {token : Token} (h : s.next = (.ok (some token), t)) :
    s.rest = (token :: t.rest.1, t.rest.2) := by
  rw [rest]
  split <;> simp_all

/-- The same place in a document read permissively, with what has been warned of on the way there. -/
def permissive (s : TokenStream) (warnings : List Warning) : TokenStream :=
  { s with dialect := .html, warnings }

/-- A stream that reads XML and is asked for nothing but the next token. -/
structure ReadsStrictly (s : TokenStream) : Prop where
  dialect : s.dialect = .xml
  content : s.mode = .content
  reaches : (start s.input).Reaches s.cursor

theorem readsStrictly_ofInput (input : Bytes) : (ofInput input .xml).ReadsStrictly :=
  ⟨rfl, rfl, Reaches.refl _⟩

theorem ReadsStrictly.next (hs : s.ReadsStrictly) {token : Token}
    (h : s.next = (.ok (some token), t)) : t.ReadsStrictly ∧ t.input = s.input := by
  obtain ⟨next, parts, warnings, rfl, htiled, -⟩ := (outcome_of_next h).token
  exact ⟨⟨hs.dialect, rfl, hs.reaches.trans htiled.1⟩, rfl⟩

/-- An open tag that is no error in XML is handed out in HTML, be it with a warning. -/
theorem emitOpenTag_permissive (hd : s.dialect = .xml) {tag : OpenTag} {next : Cursor} {token : Token}
    (h : s.emitOpenTag tag next = (.ok (some token), t)) (warnings : List Warning) :
    token = .openTag tag ∧ ∃ warnings', (s.permissive warnings).emitOpenTag tag next =
      (.ok (some token), t.permissive warnings') := by
  have hstrict : s.dialect.isStrict := by rw [hd]; rfl
  rw [emitOpenTag] at h
  dsimp only at h
  split at h
  · obtain ⟨htoken, rfl⟩ := Prod.mk.inj h
    obtain rfl := Option.some.inj (Except.ok.inj htoken)
    refine ⟨rfl, ?_⟩
    rw [emitOpenTag]
    dsimp only
    split
    · exact ⟨_, rfl⟩
    · exact ⟨_, rfl⟩
  · rw [if_pos hstrict] at h
    cases h

theorem ReadsStrictly.nextMarkup_permissive (hs : s.ReadsStrictly) {token : Token}
    (h : s.nextMarkup = (.ok (some token), t)) (htarget : token.KeepsTarget s.input)
    (warnings : List Warning) :
    ∃ warnings', (s.permissive warnings).nextMarkup =
      (.ok (some token), t.permissive warnings') := by
  cases hread : Token.readMarkup s.dialect s.cursor with
  | error refusal =>
    rw [nextMarkup_of_error hread, reject, if_pos (by rw [hs.dialect]; rfl)] at h
    cases h
  | ok read =>
    obtain ⟨found, next⟩ := read
    rw [hs.dialect] at hread
    by_cases hopen : ∃ tag, found = .openTag tag
    · obtain ⟨tag, rfl⟩ := hopen
      rw [nextMarkup_of_openTag (by rw [hs.dialect]; exact hread)] at h
      obtain ⟨rfl, hemit⟩ := emitOpenTag_permissive hs.dialect h warnings
      have hhtml := Token.readMarkup_html_of_xml hs.reaches hread htarget
      rwa [← nextMarkup_of_openTag (s := s.permissive warnings) hhtml] at hemit
    · have hnot : ∀ tag, found ≠ .openTag tag := fun tag htag => hopen ⟨tag, htag⟩
      rw [nextMarkup_of_node (by rw [hs.dialect]; exact hread) hnot] at h
      obtain ⟨htoken, rfl⟩ := Prod.mk.inj h
      obtain rfl := Option.some.inj (Except.ok.inj htoken)
      have hhtml := Token.readMarkup_html_of_xml hs.reaches hread htarget
      refine ⟨warnings, ?_⟩
      rw [nextMarkup_of_node (s := s.permissive warnings) hhtml hnot]
      rfl

/-- The token that strict reading gives is the one that permissive reading gives. -/
theorem ReadsStrictly.next_permissive (hs : s.ReadsStrictly) {token : Token}
    (h : s.next = (.ok (some token), t)) (htarget : token.KeepsTarget s.input)
    (warnings : List Warning) :
    ∃ warnings', (s.permissive warnings).next = (.ok (some token), t.permissive warnings') := by
  have hmode : (s.permissive warnings).mode = .content := hs.content
  have hcursor : (s.permissive warnings).cursor = s.cursor := rfl
  rw [TokenStream.next, hs.content] at h
  rw [TokenStream.next, hmode]
  dsimp only at h ⊢
  rw [nextContent] at h ⊢
  rw [hcursor]
  cases hp : s.cursor.peek? with
  | none =>
    rw [hp] at h
    cases h
  | some b =>
    rw [hp] at h
    dsimp only at h ⊢
    by_cases hlt : b == lessThan
    · rw [if_pos hlt] at h ⊢
      exact hs.nextMarkup_permissive h htarget warnings
    · rw [if_neg hlt] at h ⊢
      obtain ⟨htoken, rfl⟩ := Prod.mk.inj h
      obtain rfl := Option.some.inj (Except.ok.inj htoken)
      exact ⟨warnings, rfl⟩

/-- In XML what is no construct is an error. -/
theorem fails_of_error (hd : s.dialect = .xml) {refusal : Refusal}
    (h : Token.readMarkup .xml s.cursor = .error refusal) : ∃ e t, s.nextMarkup = (.error e, t) := by
  rw [← hd] at h
  rw [nextMarkup_of_error h, reject, if_pos (by rw [hd]; rfl)]
  exact ⟨_, _, rfl⟩

/-- The end that strict reading finds is the one that permissive reading finds. -/
theorem ReadsStrictly.next_eq_none (hs : s.ReadsStrictly) (h : s.next = (.ok none, t))
    (warnings : List Warning) :
    (s.permissive warnings).next = (.ok none, t.permissive warnings) := by
  obtain ⟨rfl, hend⟩ := TokenStream.next_eq_none h
  have hmode : (s.permissive warnings).mode = .content := hs.content
  have hrest : s.cursor.rest = [] := hend (by rw [hs.content]; exact nofun)
  have hpeek : (s.permissive warnings).cursor.peek? = none := by
    rw [peek?]
    exact List.head?_eq_none_iff.2 hrest
  rw [TokenStream.next, hmode]
  dsimp only
  rw [nextContent, hpeek]
  rfl

/-- A document that strict reading takes to its end is read permissively with the same tokens. -/
theorem ReadsStrictly.rest_permissive {tokens : List Token} {last : TokenStream}
    (hs : s.ReadsStrictly) (h : s.rest = (tokens, none, last))
    (htargets : ∀ token ∈ tokens, token.KeepsTarget s.input) (warnings : List Warning) :
    ∃ warnings', (s.permissive warnings).rest = (tokens, none, last.permissive warnings') := by
  -- By the recursion of the strict run, with whatever has been warned of before.
  fun_induction rest s generalizing tokens last warnings with
  | case1 s t hnext =>
    obtain ⟨rfl, rfl⟩ : [] = tokens ∧ t = last := by simpa using h
    exact ⟨warnings, rest_of_none (hs.next_eq_none hnext warnings)⟩
  | case2 s e t hnext => simp at h
  | case3 s token t hnext more error final hmore ih =>
    obtain ⟨rfl, rfl, rfl⟩ : token :: more = tokens ∧ error = none ∧ final = last := by simpa using h
    obtain ⟨ht, hinput⟩ := hs.next hnext
    rw [← hinput] at htargets
    obtain ⟨warnings', hfirst⟩ := hs.next_permissive hnext
      (by rw [← hinput]; exact htargets token List.mem_cons_self) warnings
    obtain ⟨warnings'', hrest⟩ := ih ht hmore
      (fun other hmem => htargets other (List.mem_cons_of_mem _ hmem)) warnings'
    exact ⟨warnings'', by rw [rest_of_token hfirst, hrest]⟩

end TokenStream

end MarkupStream
