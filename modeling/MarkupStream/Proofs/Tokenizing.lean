import MarkupStream.Proofs.DeclarationGrammar
import MarkupStream.Proofs.OpenTagGrammar
import MarkupStream.Proofs.Progress
import MarkupStream.Proofs.Serialization

/-!
What a tokenizer makes of a document. Each of these results is one about the token stream, and holds of the
tokenizer as long as the document is not too long. Behind each of them stands a document that is too long by
a little, of which it fails: there the words for a span name another one, which holds other bytes, or none.
-/
namespace MarkupStream.Tokenizer

open Byte Cursor

section Rest

variable {t u : Tokenizer}

theorem rest_of_none (h : t.next = (.ok none, u)) : t.rest = ([], none, u) := by
  rw [rest]
  split <;> simp_all

theorem rest_of_token {token : Token} (h : t.next = (.ok (some token), u)) :
    t.rest = (token :: u.rest.1, u.rest.2) := by
  rw [rest]
  split <;> simp_all

theorem exists_rest_of_last {token : Token} (h : token? t.next.1 = some token)
    (hend : t.next.2.next.1 = .ok none) : ∃ last, t.rest = ([token], none, last) :=
  ⟨_, by rw [rest_of_token (next_of_token? h), rest_of_none (Prod.ext hend rfl)]⟩

end Rest

section Written

end Written

section Extended

/-- Permissive scanning extends strict scanning. If XML reads a document to its end, and no instruction in
it has a target that is `xml` in another spelling, then HTML reads it to its end with the same tokens: the
same constructs with the same spans, and the same parts in every tag. -/
theorem html_extends_xml {doc : Repetition} {tokens : List Token} {last : Tokenizer}
    (hlength : doc.length ≤ Span.maxInputLength) (h : (ofDocument doc .xml).rest = (tokens, none, last))
    (htargets : ∀ token ∈ tokens, ∀ target ∈ token.target?,
      Bytes.sameName true (target.slice doc.bytes) (Bytes.ofString "xml") →
      target.slice doc.bytes = Bytes.ofString "xml") :
    ∃ warnings last', (ofDocument doc .html).rest = (tokens, none, last') ∧
      last'.stream = last.stream.permissive warnings := by
  have hstrict := (exists_rest_iff hlength).1 ⟨last, h, rfl⟩
  obtain ⟨warnings, hpermissive⟩ :=
    (TokenStream.readsStrictly_ofInput doc.bytes).rest_permissive hstrict htargets []
  obtain ⟨last', hrest, hlast⟩ := (exists_rest_iff hlength).2 hpermissive
  exact ⟨warnings, last', hrest, hlast⟩

/-- A declaration, an attribute whose value holds an end of a tag, an instruction and a close tag with
whitespace in it. -/
theorem declaredDocument_extends_xml :
    let doc : Repetition := .ofBytes (Bytes.ofString "<?xml version='1.0'?><a b = \"/>\"><?go on?></a >")
    let strict := (ofDocument doc .xml).rest
    doc.length ≤ Span.maxInputLength ∧ strict.2.1 = none ∧
      (∀ token ∈ strict.1, ∀ target ∈ token.target?,
        Bytes.sameName true (target.slice doc.bytes) (Bytes.ofString "xml") →
        target.slice doc.bytes = Bytes.ofString "xml") ∧
      ∃ warnings last, (ofDocument doc .html).rest = (strict.1, none, last) ∧
        last.stream = strict.2.2.stream.permissive warnings := by
  intro doc strict
  have hlength : doc.length ≤ Span.maxInputLength := by decide
  have hend : strict.2.1 = none := by decide +kernel
  have htargets : ∀ token ∈ strict.1, ∀ target ∈ token.target?,
      Bytes.sameName true (target.slice doc.bytes) (Bytes.ofString "xml") →
      target.slice doc.bytes = Bytes.ofString "xml" := by
    decide +kernel
  have hstrict : (ofDocument doc .xml).rest = (strict.1, none, strict.2.2) := by
    rw [← hend]
  exact ⟨hlength, hend, htargets, html_extends_xml hlength hstrict htargets⟩

/-- The words for the target of an instruction that stands too far behind name three letters at the front. The
only target in the document is another word, and still HTML takes the instruction for a declaration. -/
theorem farTarget_declared :
    let before : Repetition := [(Bytes.ofString "xxXML", 1), (Bytes.ofString "x", 4294967291)]
    let doc : Repetition := before ++ .ofBytes (Bytes.ofString "<?foo bar?>")
    lessThan ∉ before.bytes ∧
      (∃ last, (ofDocument doc .xml).rest =
        ([.text ⟨0, 0⟩, .instruction ⟨0, 11⟩ ⟨2, 5⟩ (some ⟨6, 9⟩)], none, last)) ∧
      ∃ last, (ofDocument doc .html).rest =
        ([.text ⟨0, 0⟩, .xmlDeclaration ⟨⟨0, 11⟩, ⟨2, 5⟩, none, none, none⟩], none, last) := by
  intro before doc
  have hbefore : lessThan ∉ before.bytes := by
    intro hmem
    obtain ⟨entry, hentry, hpiece⟩ := Repetition.exists_mem_of_mem_bytes hmem
    have hplain : ∀ entry ∈ before, lessThan ∉ entry.1 := by decide
    exact hplain entry hentry hpiece
  have hread : ∀ {dialect : Dialect} {token : Token},
      token? (ofDocument doc dialect).next.1 = some (.text ⟨0, 0⟩) →
      token? (ofDocument doc dialect).next.2.next.1 = some token →
      (ofDocument doc dialect).next.2.next.2.next.1 = .ok none →
      ∃ last, (ofDocument doc dialect).rest = ([.text ⟨0, 0⟩, token], none, last) := by
    intro dialect token hfirst hsecond hend
    obtain ⟨last, hrest⟩ := exists_rest_of_last hsecond hend
    exact ⟨last, by rw [rest_of_token (next_of_token? hfirst), hrest]⟩
  exact ⟨hbefore, hread (by decide) (by decide) (by decide),
    hread (by decide) (by decide) (by decide)⟩

end Extended

section Decided

end Decided

section Grammar

variable {t : Tokenizer}

/-- Strict open tags are accepted by their grammar. At a `<` and a byte that a name may start with, an open
tag is handed out just if the bytes from there on are the source text of a well-formed one; it ends where
the source text ends, and its parts are the whitespace and the attributes of the source text in order. If
there is none, reading fails. -/
theorem openTags_follow_grammar {b : UInt8} {rest : Bytes} (hs : t.stream.ReadsStrictly)
    (hlength : t.doc.length ≤ Span.maxInputLength) (hrest : t.cursor.rest = lessThan :: b :: rest)
    (hb : isNameStart b) :
    (∀ tag s, (∃ u, t.next = (.ok (some (.openTag tag)), u) ∧ u.stream = s) ↔
      ∃ (w : TagText) (next : Cursor), w.WellFormed ∧ t.cursor.Over w.source next ∧
        tag = w.openTag t.offset ∧ s = { t.stream with parts := tag.parts, cursor := next }) ∧
    ((¬ ∃ (w : TagText) (next : Cursor), w.WellFormed ∧ t.cursor.Over w.source next) →
      ∃ e u, t.next = (.error e, u)) := by
  have hstands := stands_of_reaches hs.reaches
  obtain ⟨hgiven, hfails⟩ := hs.next_openTag hrest hb
  refine ⟨fun tag s => (hstands.exists_next_iff hlength).trans (hgiven tag s), fun hnone => ?_⟩
  obtain ⟨e, s, hnext⟩ := hfails hnone
  obtain ⟨u, hnext, -⟩ := (hstands.exists_next_iff hlength).2 hnext
  exact ⟨e, u, hnext⟩

/-- A tag with whitespace around an equals sign, and with values that hold an end of a tag. -/
def spaciousTag : TagText :=
  ⟨Bytes.ofString "a", [⟨[0x20], Bytes.ofString "b", [0x20], [0x20], 0x27, Bytes.ofString "/>"⟩,
    ⟨[0x20, 0x0A], Bytes.ofString "c", [], [], 0x22, Bytes.ofString "'>"⟩], [0x20], true⟩

theorem spaciousTag_handed_out :
    let t := ofInput spaciousTag.source .xml
    t.stream.ReadsStrictly ∧ t.doc.length ≤ Span.maxInputLength ∧
      t.cursor.rest = lessThan :: 0x61 :: spaciousTag.source.drop 2 ∧ isNameStart 0x61 ∧
      ∃ u, t.next = (.ok (some (.openTag ⟨⟨0, 2⟩, ⟨1, 2⟩,
        [.whitespace ⟨2, 3⟩, .attr ⟨⟨3, 4⟩, some ⟨⟨4, 7⟩, ⟨7, 11⟩, ⟨8, 10⟩⟩⟩,
          .whitespace ⟨11, 13⟩, .attr ⟨⟨13, 14⟩, some ⟨⟨14, 15⟩, ⟨15, 19⟩, ⟨16, 18⟩⟩⟩,
          .whitespace ⟨19, 20⟩], ⟨20, 22⟩, true⟩)), u) := by
  intro t
  have hs : t.stream.ReadsStrictly := by
    rw [show t.stream = _ from stream_ofDocument _ _]
    exact TokenStream.readsStrictly_ofInput _
  have hlength : t.doc.length ≤ Span.maxInputLength := by decide
  have hrest : t.cursor.rest = lessThan :: 0x61 :: spaciousTag.source.drop 2 := by decide
  have hover : t.cursor.Over spaciousTag.source ⟨22, []⟩ := ⟨by decide, by decide⟩
  have hwellFormed : spaciousTag.WellFormed := by decide +kernel
  have hgrammar := openTags_follow_grammar hs hlength hrest (by decide)
  obtain ⟨u, hnext, -⟩ := (hgrammar.1 _ _).2 ⟨spaciousTag, _, hwellFormed, hover, rfl, rfl⟩
  exact ⟨hs, hlength, hrest, by decide, u, hnext⟩

/-- A tag with two names. -/
def distinctTag : TagText :=
  ⟨Bytes.ofString "a", [⟨[0x20], Bytes.ofString "b", [], [], 0x27, []⟩,
    ⟨[0x20], Bytes.ofString "c", [], [], 0x27, []⟩], [], false⟩

/-- The words for the names of attributes that stand too far behind name equal letters at the front. The tag is
well-formed, and still it is rejected for a name that it does not have. -/
theorem farNames_repeated :
    let doc : Repetition := [(Bytes.ofString "x", 4294967296), (distinctTag.source, 1)]
    let t := (ofDocument doc .xml).next.2
    t.stream.ReadsStrictly ∧ t.cursor.rest = lessThan :: 0x61 :: distinctTag.source.drop 2 ∧
      distinctTag.WellFormed ∧ t.cursor.Over distinctTag.source ⟨4294967309, []⟩ ∧
      ∃ u, t.next = (.error (.duplicateAttribute "x" ⟨1, 9, 8⟩), u) := by
  intro doc t
  have hfirst : (ofDocument doc .xml).next = (.ok (some (.text ⟨0, 0⟩)), t) :=
    next_of_token? (by decide)
  have hdoc : t.doc = doc := (reaches_next hfirst).1
  have hreaches := ((stands_ofDocument doc .xml).reaches hfirst).2.2
  rw [← hdoc] at hreaches
  have hmode : t.mode = .content := by decide
  have hover : t.cursor.Over distinctTag.source ⟨4294967309, []⟩ := ⟨by decide, by decide⟩
  exact ⟨⟨by decide, hmode, hreaches⟩, hover.rest, by decide +kernel, hover,
    _, Prod.ext (by decide +kernel) rfl⟩

/-- Strict XML declarations are accepted by their grammar. A declaration is handed out just if the document
starts with the source text of one, and the tokenizer stands there and is not asked for literal text. It
gives each name the value that stands last in the source text. Wherever else the target `xml` stands,
reading fails. -/
theorem declarations_follow_grammar (hd : t.dialect = .xml) (hlength : t.doc.length ≤ Span.maxInputLength)
    (hc : (start t.doc.bytes).Reaches t.cursor) :
    (∀ d s, (∃ u, t.next = (.ok (some (.xmlDeclaration d)), u) ∧ u.stream = s) ↔
      t.mode = .content ∧ t.cursor = start t.doc.bytes ∧ ∃ (w : DeclarationText) (next : Cursor),
        w.Spelled ∧ t.cursor.Over w.source next ∧ w.Declares d ∧ s = { t.stream with cursor := next }) ∧
    ∀ named, t.mode = .content → t.cursor.Over (Bytes.ofString "<?xml") named →
      (∀ b, named.peek? = some b → ¬ isName b) →
      (t.cursor = start t.doc.bytes → ¬ ∃ (w : DeclarationText) (next : Cursor),
        w.Spelled ∧ t.cursor.Over w.source next) →
      ∃ e u, t.next = (.error e, u) := by
  have hstands := stands_of_reaches hc
  obtain ⟨hgiven, hfails⟩ := TokenStream.next_xmlDeclaration (s := t.stream) hd hc
  refine ⟨fun d s => (hstands.exists_next_iff hlength).trans (hgiven d s),
    fun named hm hover hend hnone => ?_⟩
  obtain ⟨e, s, hnext⟩ := hfails named hm hover hend hnone
  obtain ⟨u, hnext, -⟩ := (hstands.exists_next_iff hlength).2 hnext
  exact ⟨e, u, hnext⟩

/-- A standalone flag, and behind it a version with whitespace around its equals sign. -/
def spaciousDeclaration : DeclarationText :=
  ⟨[⟨[0x20], Bytes.ofString "standalone", [], [], 0x27, Bytes.ofString "yes"⟩,
    ⟨[0x0A], Bytes.ofString "version", [0x20], [0x20], 0x22, Bytes.ofString "1.0"⟩], [0x20]⟩

theorem spaciousDeclaration_handed_out :
    let t := ofInput spaciousDeclaration.source .xml
    t.dialect = .xml ∧ t.doc.length ≤ Span.maxInputLength ∧ (start t.doc.bytes).Reaches t.cursor ∧
      ∃ u, t.next = (.ok (some (.xmlDeclaration
        ⟨⟨0, 41⟩, ⟨2, 5⟩, some ⟨34, 37⟩, none, some ⟨18, 21⟩⟩)), u) := by
  intro t
  have hlength : t.doc.length ≤ Span.maxInputLength := by decide
  have hstart : t.cursor = start t.doc.bytes := congrArg TokenStream.cursor (stream_ofDocument _ _)
  have hc : (start t.doc.bytes).Reaches t.cursor := hstart ▸ Reaches.refl _
  have hover : t.cursor.Over spaciousDeclaration.source ⟨41, []⟩ := ⟨by decide, by decide⟩
  have hdeclares : spaciousDeclaration.Declares
      ⟨⟨0, 41⟩, ⟨2, 5⟩, some ⟨34, 37⟩, none, some ⟨18, 21⟩⟩ :=
    DeclarationText.declares_iff.2 (by decide)
  have hspelled : spaciousDeclaration.Spelled := by decide +kernel
  have hgrammar := declarations_follow_grammar rfl hlength hc
  obtain ⟨u, hnext, -⟩ := (hgrammar.1 _ _).2
    ⟨rfl, hstart, spaciousDeclaration, _, hspelled, hover, hdeclares, rfl⟩
  exact ⟨rfl, hlength, hc, u, hnext⟩

/-- Two versions. -/
def repeatedVersion : DeclarationText :=
  ⟨[⟨[0x20], Bytes.ofString "version", [], [], 0x27, Bytes.ofString "1.0"⟩,
    ⟨[0x20], Bytes.ofString "version", [], [], 0x27, Bytes.ofString "1.1"⟩], []⟩

/-- A name that is given twice is not noticed. The document does not start with a well-formed declaration,
and yet one is handed out, with the last value. -/
theorem repeatedVersion_accepted :
    let input := Bytes.ofString "<?xml version='1.0' version='1.1'?>"
    (∃ u, (ofInput input .xml).next =
      (.ok (some (.xmlDeclaration ⟨⟨0, 35⟩, ⟨2, 5⟩, some ⟨29, 32⟩, none, none⟩)), u)) ∧
      ¬ ∃ (w : DeclarationText) (next : Cursor), w.WellFormed ∧ (start input).Over w.source next := by
  intro input
  have hover : (start input).Over repeatedVersion.source ⟨35, []⟩ := ⟨by decide, by decide⟩
  have hspelled : repeatedVersion.Spelled := by decide +kernel
  refine ⟨⟨_, next_of_token? (by decide +kernel)⟩, ?_⟩
  rintro ⟨w, next, hw, hover'⟩
  have hdistinct := hw.distinct
  rw [hw.names_eq hspelled hover' hover] at hdistinct
  exact absurd hdistinct (by decide)

end Grammar

section Geometry

/-- Tokens keep to their geometry. Whatever has been called so far, a token ends in the document; its pieces
tile it; all the spans in it, those of the parts of a tag with it, lie inside of it and so cover as many
bytes as they are long; and each of them lies where its name says. The parts that the tokenizer shows behind
an open tag are those of the tag. -/
theorem tokens_keep_geometry {doc : Repetition} (hlength : doc.length ≤ Span.maxInputLength)
    (dialect : Dialect) (calls : List Call) {token : Token} {u : Tokenizer}
    (h : ((ofDocument doc dialect).run calls).2.next = (.ok (some token), u)) :
    token.span.stop ≤ doc.length ∧
      Tiles token.span.start token.pieces token.span.stop ∧
      (∀ span ∈ token.spans, span.Within token.span.start token.span.stop ∧
        span.slice doc.bytes = (doc.bytes.drop span.start).take span.length ∧
        (span.slice doc.bytes).length = span.length) ∧
      token.Shaped doc.bytes ∧
      ∀ tag, token = .openTag tag → u.parts = tag.parts := by
  have hstands := (stands_ofDocument doc dialect).run calls
  obtain ⟨hdoc, hc, -⟩ := hstands.reaches h
  have hinput : ((ofDocument doc dialect).run calls).2.stream.input = doc.bytes :=
    congrArg Repetition.bytes hdoc
  have houtcome := TokenStream.outcome_of_next (hstands.stream_of_next hlength h)
  obtain ⟨next, parts, warnings, hu, htiled, hparts⟩ := houtcome.token
  obtain rfl : next = u.cursor := (congrArg TokenStream.cursor hu).symm
  have hend := (hc.trans htiled.1).offset_le_length
  rw [← hinput] at hc
  have hlies := houtcome.lies hc
  rw [hinput] at hlies
  rw [htiled.span_eq]
  refine ⟨doc.length_bytes ▸ hend, htiled.2, fun span hspan => ⟨hlies.within span hspan,
    (hlies.within span hspan).covers hend⟩, hlies.shaped, fun tag htag => ?_⟩
  rw [← hparts tag htag]
  exact congrArg TokenStream.parts hu

/-- A DOCTYPE with all its parts. -/
def fullDoctype : Doctype :=
  ⟨⟨5, 36⟩, ⟨7, 14⟩, some ⟨15, 16⟩, some ⟨17, 23⟩, some ⟨25, 26⟩, some ⟨29, 30⟩, some ⟨33, 34⟩⟩

/-- It stands behind literal text and the close tag that ends it. -/
theorem fullDoctype_keeps_geometry :
    let doc : Repetition := .ofBytes (Bytes.ofString "x</a><!DOCTYPE b PUBLIC 'c' \"d\" [e]>")
    let t := ((ofDocument doc .html).run [.literalUntil (Bytes.ofString "a"), .next, .next]).2
    doc.length ≤ Span.maxInputLength ∧ ∃ u, t.next = (.ok (some (.doctype fullDoctype)), u) ∧
      fullDoctype.pieces.Pairwise (fun a b => a.stop ≤ b.start) ∧
      ∀ span ∈ fullDoctype.pieces, (span.slice doc.bytes).length = span.length := by
  intro doc t
  have hlength : doc.length ≤ Span.maxInputLength := by decide
  have hnext : t.next = (.ok (some (.doctype fullDoctype)), t.next.2) :=
    next_of_token? (by decide)
  have hgeometry := tokens_keep_geometry hlength .html _ hnext
  exact ⟨hlength, t.next.2, hnext, hgeometry.2.2.2.1,
    fun span hspan => (hgeometry.2.2.1 span (List.mem_cons_of_mem _ hspan)).2.2⟩

/-- The content of a comment that stands too far behind starts at the front of the document, and so outside
of the comment. -/
theorem farContent_outside :
    let doc : Repetition := [(Bytes.ofString "x", 4294967292), (Bytes.ofString "<!--abcdef-->", 1)]
    let t := ((ofDocument doc .xml).run [.next]).2
    (∃ u, t.next = (.ok (some (.comment ⟨4294967292, 4294967305⟩ ⟨0, 6⟩)), u)) ∧
      ¬ (⟨0, 6⟩ : Span).Within 4294967292 4294967305 := by
  intro doc t
  exact ⟨⟨_, next_of_token? (by decide)⟩, fun hwithin => absurd hwithin.1 (by decide)⟩

end Geometry

end MarkupStream.Tokenizer
