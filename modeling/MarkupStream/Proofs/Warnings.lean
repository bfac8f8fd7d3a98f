import MarkupStream.Proofs.Location
import MarkupStream.Proofs.OpenTagGrammar
import MarkupStream.Proofs.Selection

/-!
Warnings. They are given while a token is read, ahead of its events, by the reader of tags and by the
nesting, at positions that have not been reached yet. Still they can be told from the events alone: there is
one for every close tag that ends nothing, in XML one for every implied close, and in HTML one for every
open tag that repeats a name, in the order of the events and where those are reported.
-/
namespace MarkupStream

/-- An event, and where it was reported. -/
abbrev Sighting := Event × Position

def ParsedEvent.sighting (parsed : ParsedEvent) : Sighting := (parsed.event, parsed.position)

/-- The attributes of a tag, and where they were reported, given what follows its start. -/
def leadingAttributes : List Sighting → List (Attribute × Position)
  | (.attr a, position) :: rest => (a, position) :: leadingAttributes rest
  | (.innerWhitespace _, _) :: rest => leadingAttributes rest
  | _ => []

/-- The kind of warning for what a close tag or the end of the document closes by implication. -/
def Event.impliedKind? : Event → Option WarningKind
  | element .closeStart _ _ => some .autoClosed
  | documentEnd _ => some .unclosedAtEnd
  | _ => none

/-- An event that there may be a warning about. -/
def Event.mayWarn : Event → Bool
  | element edge _ _ => edge.isStart || edge == .unmatchedStart || edge == .autoCloseStart
  | _ => false

section Mirror

variable (dialect : Dialect) (input : Bytes)

/-- Two attributes have one name, but for letter case. -/
def Repeats (earlier later : Attribute × Position) : Prop :=
  Bytes.sameName true (earlier.1.name.slice input) (later.1.name.slice input)

/-- No attribute has the name of another. -/
def Distinct (attributes : List (Attribute × Position)) : Prop :=
  attributes.Pairwise fun earlier later => ¬ Repeats input earlier later

/-- The first attribute with the name of an earlier one: those before it have distinct names, and one of
them has its name. -/
def FirstRepeat (attributes : List (Attribute × Position)) (found : Attribute × Position) : Prop :=
  ∃ before after, attributes = before ++ found :: after ∧ Distinct input before ∧
    ∃ earlier ∈ before, Repeats input earlier found

/-- A warning that names the bytes of a span. -/
def warningAt (kind : WarningKind) (name : Span) (position : Position) : Warning :=
  ⟨kind, Utf8.decodeLossy (name.slice input), position⟩

/-- Warnings mirror events, in order. A close tag that ends nothing has a warning where it starts. In XML so
has every implied close, of the kind that the first event behind the implied closes gives. An open tag has
one in HTML if it repeats a name, where the first repetition is. There are no others. -/
inductive Mirrors : List Sighting → List Warning → Prop
  | nil : Mirrors [] []
  | unmatched {span name : Span} {position : Position} {rest : List Sighting}
      {warnings : List Warning} : Mirrors rest warnings →
      Mirrors ((.element .unmatchedStart span name, position) :: rest)
        (warningAt input .unmatchedClose name position :: warnings)
  | implied {span name : Span} {position : Position} {rest : List Sighting} {cause : Sighting}
      {kind : WarningKind} {warnings : List Warning} : dialect = .xml →
      rest.find? (fun sighting => !sighting.1.isImplied) = some cause →
      cause.1.impliedKind? = some kind → Mirrors rest warnings →
      Mirrors ((.element .autoCloseStart span name, position) :: rest)
        (warningAt input kind name position :: warnings)
  | tacit {span name : Span} {position : Position} {rest : List Sighting}
      {warnings : List Warning} : dialect = .html → Mirrors rest warnings →
      Mirrors ((.element .autoCloseStart span name, position) :: rest) warnings
  | repeated {edge : ElementEdge} {span name : Span} {position : Position} {rest : List Sighting}
      {found : Attribute × Position} {warnings : List Warning} : dialect = .html → edge.isStart →
      FirstRepeat input (leadingAttributes rest) found → Mirrors rest warnings →
      Mirrors ((.element edge span name, position) :: rest)
        (warningAt input .duplicateAttribute found.1.name found.2 :: warnings)
  | distinct {edge : ElementEdge} {span name : Span} {position : Position} {rest : List Sighting}
      {warnings : List Warning} : edge.isStart →
      (dialect = .html → Distinct input (leadingAttributes rest)) → Mirrors rest warnings →
      Mirrors ((.element edge span name, position) :: rest) warnings
  | silent {event : Event} {position : Position} {rest : List Sighting} {warnings : List Warning} :
      ¬ event.mayWarn → Mirrors rest warnings → Mirrors ((event, position) :: rest) warnings

end Mirror

section Unique

variable {dialect : Dialect} {input : Bytes} {attributes : List (Attribute × Position)}
  {found other : Attribute × Position} {sightings : List Sighting} {warnings others : List Warning}

theorem not_distinct_of_repeats {before after : List (Attribute × Position)}
    {earlier : Attribute × Position} (hmem : earlier ∈ before) (hrepeats : Repeats input earlier found) :
    ¬ Distinct input (before ++ found :: after) :=
  fun h => (List.pairwise_append.1 h).2.2 earlier hmem found List.mem_cons_self hrepeats

theorem FirstRepeat.not_distinct (h : FirstRepeat input attributes found) :
    ¬ Distinct input attributes := by
  obtain ⟨before, after, rfl, -, earlier, hmem, hrepeats⟩ := h
  exact not_distinct_of_repeats hmem hrepeats

theorem FirstRepeat.unique (h : FirstRepeat input attributes found)
    (h' : FirstRepeat input attributes other) : found = other := by
  obtain ⟨before, after, rfl, hbefore, earlier, hmem, hrepeats⟩ := h
  obtain ⟨before', after', heq, hbefore', earlier', hmem', hrepeats'⟩ := h'
  -- Neither can stand among the attributes in front of the other, which are distinct.
  rcases List.append_eq_append_iff.1 heq with ⟨between, hfront, hback⟩ | ⟨between, hfront, hback⟩
  · cases between with
    | nil => exact (List.cons.inj hback).1
    | cons first more =>
      obtain ⟨rfl, -⟩ := List.cons.inj hback
      rw [hfront] at hbefore'
      exact absurd hbefore' (not_distinct_of_repeats hmem hrepeats)
  · cases between with
    | nil => exact (List.cons.inj hback).1.symm
    | cons first more =>
      obtain ⟨rfl, -⟩ := List.cons.inj hback
      rw [hfront] at hbefore
      exact absurd hbefore (not_distinct_of_repeats hmem' hrepeats')

/-- Events have no more than one mirror. -/
theorem Mirrors.unique (h : Mirrors dialect input sightings warnings)
    (h' : Mirrors dialect input sightings others) : warnings = others := by
  induction h generalizing others with
  | nil =>
    cases h' with
    | nil => rfl
  | unmatched _ ih =>
    cases h' with
    | unmatched hrest => rw [ih hrest]
    | repeated _ hedge | distinct hedge => cases hedge
    | silent hevent => exact absurd rfl hevent
  | implied hd hcause hkind _ ih =>
    cases h' with
    | implied _ hcause' hkind' hrest =>
      obtain rfl := Option.some.inj (hcause.symm.trans hcause')
      obtain rfl := Option.some.inj (hkind.symm.trans hkind')
      rw [ih hrest]
    | tacit hd' => cases hd.symm.trans hd'
    | repeated _ hedge | distinct hedge => cases hedge
    | silent hevent => exact absurd rfl hevent
  | tacit hd _ ih =>
    cases h' with
    | implied hd' => cases hd.symm.trans hd'
    | tacit _ hrest => exact ih hrest
    | repeated _ hedge | distinct hedge => cases hedge
    | silent hevent => exact absurd rfl hevent
  | repeated hd hedge hfound _ ih =>
    cases h' with
    | unmatched | implied | tacit => cases hedge
    | repeated _ _ hfound' hrest => rw [hfound.unique hfound', ih hrest]
    | distinct _ hdistinct => exact absurd (hdistinct hd) hfound.not_distinct
    | silent hevent => exact absurd (by simp [Event.mayWarn, hedge]) hevent
  | distinct hedge hdistinct _ ih =>
    cases h' with
    | unmatched | implied | tacit => cases hedge
    | repeated hd _ hfound => exact absurd (hdistinct hd) hfound.not_distinct
    | distinct _ _ hrest => exact ih hrest
    | silent hevent => exact absurd (by simp [Event.mayWarn, hedge]) hevent
  | silent hevent _ ih =>
    cases h' with
    | unmatched | implied | tacit => exact absurd rfl hevent
    | repeated _ hedge | distinct hedge => exact absurd (by simp [Event.mayWarn, hedge]) hevent
    | silent _ hrest => exact ih hrest

end Unique

section Settled

/-- Events that end inside an open tag tell too little about it. -/
def Event.insideTag : Event → Bool
  | element edge _ _ => edge.isStart
  | attr _ | innerWhitespace _ => true
  | _ => false

/-- No open tag is left unfinished by the events. -/
def Settled (sightings : List Sighting) : Prop := ∀ last ∈ sightings.getLast?, ¬ last.1.insideTag

variable {dialect : Dialect} {input : Bytes} {sighting : Sighting} {sightings rest more : List Sighting}
  {warnings others : List Warning}

theorem settled_nil : Settled [] := nofun

theorem Settled.tail (h : Settled (sighting :: rest)) : Settled rest := by
  cases rest with
  | nil => exact settled_nil
  | cons next rest => exact h

theorem settled_concat (sightings : List Sighting) {last : Sighting} (h : ¬ last.1.insideTag) :
    Settled (sightings ++ [last]) := by
  intro other hother
  rw [List.getLast?_append, List.getLast?_singleton] at hother
  rw [← Option.some.inj hother]
  exact h

theorem Settled.append (h : Settled rest) (hmore : Settled more) : Settled (rest ++ more) := by
  intro last hlast
  rw [List.getLast?_append] at hlast
  cases hback : more.getLast? with
  | none =>
    rw [hback] at hlast
    exact h last hlast
  | some other =>
    rw [hback] at hlast
    exact hmore last (hback.trans hlast)

/-- The attributes of a tag that is finished are not added to by what follows. -/
theorem Settled.leadingAttributes_append (h : Settled rest) (hne : rest ≠ []) :
    leadingAttributes (rest ++ more) = leadingAttributes rest := by
  induction rest with
  | nil => exact absurd rfl hne
  | cons first rest ih =>
    obtain ⟨event, position⟩ := first
    cases event with
    | attr a =>
      have hrest : rest ≠ [] := by
        rintro rfl
        exact h _ rfl rfl
      exact congrArg (_ :: ·) (ih h.tail hrest)
    | innerWhitespace span =>
      have hrest : rest ≠ [] := by
        rintro rfl
        exact h _ rfl rfl
      exact ih h.tail hrest
    | _ => rfl

theorem Settled.leadingAttributes_start {edge : ElementEdge} {span name : Span} {position : Position}
    (h : Settled ((.element edge span name, position) :: rest)) (hedge : edge.isStart) :
    leadingAttributes (rest ++ more) = leadingAttributes rest := by
  apply h.tail.leadingAttributes_append
  rintro rfl
  exact h _ rfl hedge

/-- What mirrors events that leave no tag unfinished goes on to mirror those that follow. -/
theorem Mirrors.append (h : Mirrors dialect input sightings warnings) (hsettled : Settled sightings)
    (hmore : Mirrors dialect input more others) :
    Mirrors dialect input (sightings ++ more) (warnings ++ others) := by
  induction h with
  | nil => exact hmore
  | unmatched _ ih => exact .unmatched (ih hsettled.tail)
  | implied hd hcause hkind _ ih =>
    rw [List.cons_append]
    refine .implied hd ?_ hkind (ih hsettled.tail)
    rw [List.find?_append, hcause]
    rfl
  | tacit hd _ ih => exact .tacit hd (ih hsettled.tail)
  | repeated hd hedge hfound _ ih =>
    rw [List.cons_append]
    refine .repeated hd hedge ?_ (ih hsettled.tail)
    rw [hsettled.leadingAttributes_start hedge]
    exact hfound
  | distinct hedge hdistinct _ ih =>
    rw [List.cons_append]
    refine .distinct hedge ?_ (ih hsettled.tail)
    rw [hsettled.leadingAttributes_start hedge]
    exact hdistinct
  | silent hevent _ ih => exact .silent hevent (ih hsettled.tail)

end Settled

/-- An event, where counting from the start of the document puts it. -/
def Event.sight (input : Bytes) (event : Event) : Sighting :=
  (event, Position.ofOffset input event.span.start)

section Batches

variable {dialect : Dialect} {input : Bytes} {events : List Event} {rest : List Sighting}
  {warnings : List Warning}

theorem mirrors_silent (h : ∀ event ∈ events, ¬ event.mayWarn)
    (hrest : Mirrors dialect input rest warnings) :
    Mirrors dialect input (events.map (Event.sight input) ++ rest) warnings := by
  induction events with
  | nil => exact hrest
  | cons event events ih =>
    obtain ⟨hevent, hevents⟩ := List.forall_mem_cons.1 h
    exact .silent hevent (ih hevents)

theorem not_mayWarn_parts (parts : List TagPart) :
    ∀ event ∈ parts.map Event.ofPart, ¬ event.mayWarn :=
  Event.forall_mem_parts (fun _ => Bool.false_ne_true) (fun _ => Bool.false_ne_true) parts

theorem not_mayWarn_whitespace (whitespace : Option Span) :
    ∀ event ∈ whitespace.toList.map Event.innerWhitespace, ¬ event.mayWarn :=
  Event.forall_mem_whitespace (fun _ => Bool.false_ne_true) whitespace

/-- All elements that are closed together have the cause of the last of them. -/
theorem find?_autoCloseEvents (offset : Nat) (frames : List Frame) :
    ((Nesting.autoCloseEvents offset frames).map (Event.sight input) ++ rest).find?
      (fun sighting => !sighting.1.isImplied) = rest.find? fun sighting => !sighting.1.isImplied := by
  induction frames with
  | nil => rfl
  | cons frame frames ih => exact ih

theorem mirrors_tacit (hd : dialect = .html) (offset : Nat) (frames : List Frame)
    (hrest : Mirrors dialect input rest warnings) :
    Mirrors dialect input ((Nesting.autoCloseEvents offset frames).map (Event.sight input) ++ rest)
      warnings := by
  induction frames with
  | nil => exact hrest
  | cons frame frames ih => exact .tacit hd (.silent Bool.false_ne_true ih)

theorem mirrors_implied (hd : dialect = .xml) {cause : Sighting} {kind : WarningKind}
    (hcause : rest.find? (fun sighting => !sighting.1.isImplied) = some cause)
    (hkind : cause.1.impliedKind? = some kind) (offset : Nat) {frames : List Frame}
    (hnamed : ∀ frame ∈ frames, frame.name = frame.span.slice input)
    (hrest : Mirrors dialect input rest warnings) :
    Mirrors dialect input ((Nesting.autoCloseEvents offset frames).map (Event.sight input) ++ rest)
      (Nesting.frameWarnings kind (Position.ofOffset input offset) frames ++ warnings) := by
  induction frames with
  | nil => exact hrest
  | cons frame frames ih =>
    obtain ⟨hname, hnamed⟩ := List.forall_mem_cons.1 hnamed
    have hwarning : (⟨kind, Utf8.decodeLossy frame.name, Position.ofOffset input offset⟩ : Warning) =
        warningAt input kind frame.span (Position.ofOffset input offset) := by rw [hname, warningAt]
    rw [Nesting.frameWarnings, List.map_cons, hwarning]
    exact .implied hd ((find?_autoCloseEvents offset frames).trans hcause) hkind
      (.silent Bool.false_ne_true (ih hnamed))

/-- Where the attributes of a tag are reported. -/
def sightAttributes (input : Bytes) (attributes : List Attribute) : List (Attribute × Position) :=
  attributes.map fun a => (a, Position.ofOffset input a.span.start)

theorem leadingAttributes_parts (parts : List TagPart) (edge : ElementEdge) (span name : Span) :
    leadingAttributes
        ((parts.map Event.ofPart ++ [Event.element edge span name]).map (Event.sight input)) =
      sightAttributes input (attributesOf parts) := by
  induction parts with
  | nil => rfl
  | cons part parts ih =>
    cases part with
    | attr a => exact congrArg (_ :: ·) ih
    | whitespace => exact ih

theorem Attribute.start_span (a : Attribute) : a.span.start = a.name.start := by
  unfold span
  split <;> rfl

/-- The first name that is repeated, told without the names met before. -/
theorem exists_of_firstRepeated {ignoreCase : Bool} {seen : List Bytes} {attributes : List Attribute}
    {name : Span} (h : firstRepeated? (Span.slice · input) ignoreCase seen attributes = some name) :
    ∃ before a after, attributes = before ++ a :: after ∧ name = a.name ∧
      firstRepeated? (Span.slice · input) ignoreCase seen before = none ∧
      ((∃ earlier ∈ seen, Bytes.sameName ignoreCase earlier (a.name.slice input)) ∨
        ∃ earlier ∈ before,
          Bytes.sameName ignoreCase (earlier.name.slice input) (a.name.slice input)) := by
  induction attributes generalizing seen with
  | nil => cases h
  | cons a rest ih =>
    rw [firstRepeated?] at h
    split at h
    · rename_i hseen
      exact ⟨[], a, rest, rfl, (Option.some.inj h).symm, rfl, .inl (List.any_eq_true.1 hseen)⟩
    · rename_i hnew
      obtain ⟨before, found, after, rfl, hname, hnone, hsame⟩ := ih h
      refine ⟨a :: before, found, after, rfl, hname, ?_, ?_⟩
      · rw [firstRepeated?, if_neg hnew]
        exact hnone
      · rcases hsame with ⟨earlier, hmem, hsame⟩ | ⟨earlier, hmem, hsame⟩
        · rcases List.mem_cons.1 hmem with rfl | hmem
          · exact .inr ⟨a, List.mem_cons_self, hsame⟩
          · exact .inl ⟨earlier, hmem, hsame⟩
        · exact .inr ⟨earlier, List.mem_cons_of_mem _ hmem, hsame⟩

theorem distinct_of_firstRepeated {attributes : List Attribute} {seen : List Bytes}
    (h : firstRepeated? (Span.slice · input) true seen attributes = none) :
    Distinct input (sightAttributes input attributes) :=
  List.pairwise_map.2 (distinct_of_firstRepeated? h).2

theorem firstRepeat_of_duplicateName {parts : List TagPart} {name : Span}
    (h : duplicateName? parts input true = some name) :
    ∃ found, found.1.name = name ∧ found.2 = Position.ofOffset input name.start ∧
      FirstRepeat input (sightAttributes input (attributesOf parts)) found := by
  obtain ⟨before, a, after, hparts, rfl, hnone, hsame⟩ := exists_of_firstRepeated h
  refine ⟨(a, Position.ofOffset input a.name.start), rfl, rfl, sightAttributes input before,
    sightAttributes input after, ?_, distinct_of_firstRepeated hnone, ?_⟩
  · rw [hparts, ← a.start_span]
    exact List.map_append
  · rcases hsame with ⟨earlier, hmem, -⟩ | ⟨earlier, hmem, hsame⟩
    · cases hmem
    · exact ⟨_, List.mem_map_of_mem hmem, hsame⟩

/-- The warnings of the reader of tags. -/
def tagWarnings (dialect : Dialect) (input : Bytes) (locate : Nat → Position) : Token → List Warning
  | .openTag tag =>
    match dialect with
    | .xml => []
    | .html => (duplicateName? tag.parts input true).toList.map fun name =>
      warningAt input .duplicateAttribute name (locate name.start)
  | _ => []

/-- The events of an open tag, without those of the closes that it implies. -/
theorem mirrors_openEvents (tag : OpenTag) (first last : ElementEdge) (hfirst : first.isStart)
    (hlast : ∀ span name, ¬ (Event.element last span name).mayWarn) {locate : Nat → Position}
    (hlocate : ∀ name, duplicateName? tag.parts input true = some name →
      locate name.start = Position.ofOffset input name.start) :
    Mirrors dialect input ((Nesting.openEvents tag first last).map (Event.sight input))
      (tagWarnings dialect input locate (.openTag tag)) := by
  have hinside : Mirrors dialect input
      ((tag.parts.map Event.ofPart ++ [Event.element last tag.close tag.name]).map (Event.sight input))
      [] := by
    rw [List.map_append]
    exact mirrors_silent (not_mayWarn_parts tag.parts) (.silent (hlast _ _) .nil)
  have hattributes : leadingAttributes _ = sightAttributes input _ :=
    leadingAttributes_parts tag.parts last tag.close tag.name
  cases dialect with
  | xml => exact .distinct hfirst nofun hinside
  | html =>
    cases hname : duplicateName? tag.parts input true with
    | none =>
      simp only [tagWarnings, hname, Option.toList_none, List.map_nil]
      refine .distinct hfirst (fun _ => ?_) hinside
      rw [hattributes]
      exact distinct_of_firstRepeated hname
    | some name =>
      obtain ⟨found, hfound, hposition, hrepeat⟩ := firstRepeat_of_duplicateName hname
      simp only [tagWarnings, hname, Option.toList_some, List.map_cons, List.map_nil]
      rw [hlocate name hname, ← hposition, ← hfound]
      rw [← hattributes] at hrepeat
      exact .repeated rfl hfirst hrepeat hinside

end Batches

namespace Nesting

variable {n : Nesting} {locate : Nat → Position} {token : Token} {step : Step}

theorem impliedCount_xml (hd : n.dialect = .xml) (name : Bytes) :
    n.impliedCount (n.spec? name) = 0 := by
  rw [spec?, hd]
  rfl

/-- In XML an open tag implies no close. -/
theorem mirrors_open (tag : OpenTag) (first last : ElementEdge) (hfirst : first.isStart)
    (hlast : ∀ span name, ¬ (Event.element last span name).mayWarn) {count : Nat}
    (hcount : n.impliedCount (n.spec? (tag.name.slice n.input)) = count)
    (hlocate : ∀ name, duplicateName? tag.parts n.input true = some name →
      locate name.start = Position.ofOffset n.input name.start) :
    Mirrors n.dialect n.input
      ((autoCloseEvents tag.start.start (n.stack.take count) ++ openEvents tag first last).map
        (Event.sight n.input))
      (tagWarnings n.dialect n.input locate (.openTag tag)) := by
  have htag : Mirrors n.dialect n.input _ _ := mirrors_openEvents tag first last hfirst hlast hlocate
  rw [List.map_append]
  cases hd : n.dialect with
  | xml =>
    rw [impliedCount_xml hd] at hcount
    rw [← hcount, List.take_zero, ← hd]
    exact htag
  | html =>
    rw [hd] at htag
    exact mirrors_tacit rfl _ _ htag

theorem mirrors_closeEvents {dialect : Dialect} {input : Bytes} (tag : CloseTag)
    (first last : ElementEdge) (hfirst : ∀ span name, ¬ (Event.element first span name).mayWarn)
    (hlast : ∀ span name, ¬ (Event.element last span name).mayWarn) :
    Mirrors dialect input ((closeEvents tag first last).map (Event.sight input)) [] := by
  have hevents : ∀ event ∈ closeEvents tag first last, ¬ event.mayWarn :=
    Event.forall_mem_tag (hfirst _ _) (not_mayWarn_whitespace tag.whitespace) (hlast _ _)
  have hmirrors : Mirrors dialect input _ [] := mirrors_silent hevents .nil
  rwa [List.append_nil] at hmirrors

/-- The warnings of a token, those of the reader of tags included, mirror its events. -/
theorem Accepts.mirrors (h : n.Accepts locate token step) (hnamed : n.Named)
    (hclose : ∀ tag, token = .closeTag tag →
      locate tag.start.start = Position.ofOffset n.input tag.start.start)
    (hrepeat : ∀ tag name, token = .openTag tag → duplicateName? tag.parts n.input true = some name →
      locate name.start = Position.ofOffset n.input name.start) :
    Mirrors n.dialect n.input (step.events.map (Event.sight n.input))
      (step.warnings ++ tagWarnings n.dialect n.input locate token) := by
  cases h with
  | @node token event hevent =>
    have hsilent : ¬ event.mayWarn := by
      cases token <;> cases hevent <;> exact Bool.false_ne_true
    have htag : tagWarnings n.dialect n.input locate token = [] := by
      cases token <;> cases hevent <;> rfl
    rw [htag]
    exact .silent hsilent .nil
  | standalone tag _ hcount =>
    exact mirrors_open tag .standaloneStart (.standaloneEnd tag.selfClosing) rfl
      (fun _ _ => Bool.false_ne_true) hcount (hrepeat tag · rfl)
  | opened tag _ hcount =>
    exact mirrors_open tag .openStart .openEnd rfl (fun _ _ => Bool.false_ne_true) hcount
      (hrepeat tag · rfl)
  | @closed tag count =>
    have htag : Mirrors n.dialect n.input _ [] :=
      mirrors_closeEvents tag .closeStart .closeEnd (fun _ _ => Bool.false_ne_true)
        fun _ _ => Bool.false_ne_true
    have hinner : ∀ frame ∈ n.stack.take count, frame.name = frame.span.slice n.input :=
      fun frame hmem => hnamed frame (List.mem_of_mem_take hmem)
    rw [closeMatched, hclose tag rfl, List.map_append]
    cases hd : n.dialect with
    | xml =>
      rw [hd] at htag
      have hcause : ((closeEvents tag .closeStart .closeEnd).map (Event.sight n.input)).find?
          (fun sighting => !sighting.1.isImplied) =
            some (Event.sight n.input (.element .closeStart tag.start tag.name)) := rfl
      exact mirrors_implied rfl hcause rfl _ hinner htag
    | html =>
      rw [hd] at htag
      exact mirrors_tacit rfl _ _ htag
  | unmatched tag =>
    have hinside : ∀ event ∈ tag.whitespace.toList.map Event.innerWhitespace ++
        [Event.element .unmatchedEnd tag.close tag.name], ¬ event.mayWarn := by
      intro event hmem
      rcases List.mem_append.1 hmem with hmem | hmem
      · exact not_mayWarn_whitespace tag.whitespace event hmem
      · rw [List.mem_singleton.1 hmem]
        exact Bool.false_ne_true
    have hrest : Mirrors n.dialect n.input _ [] := mirrors_silent hinside .nil
    rw [List.append_nil] at hrest
    rw [closeUnmatched, hclose tag rfl]
    exact .unmatched hrest

/-- A token leaves no tag unfinished. -/
theorem Accepts.settled {input : Bytes} (h : n.Accepts locate token step) :
    Settled (step.events.map (Event.sight input)) := by
  cases h with
  | @node token event hevent =>
    have hlast : ¬ event.insideTag := by
      cases token <;> cases hevent <;> exact Bool.false_ne_true
    exact settled_concat [] hlast
  | standalone tag | opened tag =>
    rw [openEvents, List.map_append, List.map_cons, List.map_append, ← List.cons_append,
      ← List.append_assoc]
    exact settled_concat _ Bool.false_ne_true
  | closed tag =>
    rw [closeMatched, closeEvents, List.map_append, List.map_cons, List.map_append, ← List.cons_append,
      ← List.append_assoc]
    exact settled_concat _ Bool.false_ne_true
  | unmatched tag =>
    rw [closeUnmatched, closeEvents, List.map_cons, List.map_append, ← List.cons_append]
    exact settled_concat _ Bool.false_ne_true

/-- What is closed at the end of the document, with the warnings about it. -/
theorem exists_finish (h : n.finish locate = .ok step) :
    ∃ frames, (∀ frame ∈ frames, frame ∈ n.stack) ∧
      step.events = autoCloseEvents n.input.length frames ∧
      step.warnings =
        if n.dialect.isStrict then frameWarnings .unclosedAtEnd (locate n.input.length) frames else [] := by
  have hnothing : ([] : List Warning) =
      if n.dialect.isStrict then frameWarnings .unclosedAtEnd (locate n.input.length) [] else [] :=
    (ite_self _).symm
  unfold finish at h
  dsimp only at h
  split at h
  · rw [← Except.ok.inj h]
    exact ⟨[], nofun, rfl, hnothing⟩
  · rw [← Except.ok.inj h]
    exact ⟨[], nofun, rfl, hnothing⟩
  · cases h
  · rw [← Except.ok.inj h]
    exact ⟨n.stack, fun _ hmem => hmem, rfl, rfl⟩

/-- The warnings of the end of the document mirror its events. -/
theorem mirrors_finish (h : n.finish locate = .ok step) (hnamed : n.Named)
    (hlocate : locate n.input.length = Position.ofOffset n.input n.input.length) :
    Mirrors n.dialect n.input
      ((step.events ++ [Event.documentEnd n.input.length]).map (Event.sight n.input)) step.warnings := by
  obtain ⟨frames, hmem, hevents, hwarnings⟩ := exists_finish h
  have hend : Mirrors n.dialect n.input ([Event.documentEnd n.input.length].map (Event.sight n.input))
      [] := .silent Bool.false_ne_true .nil
  have hinner : ∀ frame ∈ frames, frame.name = frame.span.slice n.input :=
    fun frame hframe => hnamed frame (hmem frame hframe)
  rw [hevents, hwarnings, hlocate, List.map_append]
  cases hd : n.dialect with
  | xml =>
    rw [hd] at hend
    have hcause : ([Event.documentEnd n.input.length].map (Event.sight n.input)).find?
        (fun sighting => !sighting.1.isImplied) =
          some (Event.sight n.input (.documentEnd n.input.length)) := rfl
    have hmirrors := mirrors_implied rfl hcause rfl n.input.length hinner hend
    rwa [List.append_nil] at hmirrors
  | html =>
    rw [hd] at hend
    exact mirrors_tacit rfl _ _ hend

end Nesting

namespace TokenStream

/-- What the reader of tags warns about in a token that it has read. -/
theorem Outcome.warnings {s t : TokenStream} {token : Token} (h : s.Outcome (.ok (some token), t)) :
    t.warnings = s.warnings ++ tagWarnings s.dialect s.input s.locate token := by
  cases h with
  | text => exact (List.append_nil _).symm
  | node _ hnot =>
    cases token with
    | openTag tag => exact absurd rfl (hnot tag)
    | _ => exact (List.append_nil _).symm
  | @opened tag _ _ hnone =>
    cases hd : s.dialect with
    | xml => exact (List.append_nil _).symm
    | html =>
      rw [hd] at hnone
      have hnone : duplicateName? tag.parts s.input true = none := hnone
      simp only [tagWarnings, hnone, Option.toList_none, List.map_nil, List.append_nil]
  | @repeated tag _ name hloose _ hname =>
    cases hd : s.dialect with
    | xml => exact absurd (congrArg Dialect.isStrict hd) hloose
    | html =>
      rw [hd] at hname
      have hname : duplicateName? tag.parts s.input true = some name := hname
      simp only [tagWarnings, hname, Option.toList_some, List.map_cons, List.map_nil]
      rfl

theorem Outcome.exists_read {s t : TokenStream} {tag : OpenTag}
    (h : s.Outcome (.ok (some (.openTag tag)), t)) :
    ∃ next, Token.readMarkup s.dialect s.cursor = .ok (.openTag tag, next) := by
  cases h with
  | node _ hnot => exact absurd rfl (hnot tag)
  | opened hread | repeated _ hread => exact ⟨_, hread⟩

end TokenStream

namespace EventStream

/-- The warnings so far mirror the events that are known, be they handed out or still queued. -/
structure Warned (input : Bytes) (settings : Settings) (events : List ParsedEvent) (s : EventStream) :
    Prop where
  located : Located input settings events s
  named : s.nesting.Named
  settled : Settled ((known events s).map (Event.sight input))
  mirrors : Mirrors settings.dialect input ((known events s).map (Event.sight input)) s.warnings

variable {input : Bytes} {settings : Settings} {events : List ParsedEvent} {s t : EventStream}

theorem warned_ofInput (input : Bytes) (settings : Settings) :
    Warned input settings [] (ofInput input settings) :=
  ⟨located_ofInput input settings, nofun, settled_nil, .nil⟩

/-- What is queued next is mirrored by the warnings that are added. -/
theorem Warned.queues (h : Warned input settings events s) (hq : s.queue = [])
    (hlocated : Located input settings events t) (hnamed : t.nesting.Named) {more : List Warning}
    (hsettled : Settled (t.queue.map (Event.sight input)))
    (hmirrors : Mirrors settings.dialect input (t.queue.map (Event.sight input)) more)
    (hwarnings : t.warnings = s.warnings ++ more) : Warned input settings events t := by
  have hbefore := h.settled
  have hold := h.mirrors
  rw [known_of_queue_nil hq] at hbefore hold
  refine ⟨hlocated, hnamed, ?_, ?_⟩
  · rw [known, List.map_append]
    exact hbefore.append hsettled
  · rw [known, List.map_append, hwarnings]
    exact hold.append hbefore hmirrors

theorem Warned.loads (h : Warned input settings events s) (hq : s.queue = []) (hloads : s.Loads t) :
    Warned input settings events t := by
  have hlocated := h.located.loads hq hloads
  have hreads := h.located.tiles.reads
  have hcursor := h.located.offset_le_cursor
  cases hloads with
  | start =>
    exact h.queues hq hlocated h.named (settled_concat [] Bool.false_ne_true)
      (.silent Bool.false_ne_true .nil) (List.append_nil _).symm
  | @token token tokens step hs htokens hstep =>
    have houtcome := TokenStream.outcome_of_next htokens
    have haccepts := Nesting.accepts_accept hstep
    obtain ⟨next, parts, warnings, -, htiled, -⟩ := houtcome.token
    have hfound : tokens.warnings = tagWarnings settings.dialect input s.tokens.locate token := by
      rw [houtcome.warnings, h.located.drained, List.nil_append, hreads.tokens_dialect,
        hreads.tokens_input]
    have hmirrors := haccepts.mirrors h.named
    rw [hreads.nesting_input, hreads.nesting_dialect] at hmirrors
    refine h.queues hq hlocated (haccepts.named h.named) haccepts.settled (hmirrors ?_ ?_) ?_
    · rintro tag rfl
      have hstart : tag.start.start = s.tokens.cursor.offset := htiled.2.1
      rw [hstart]
      exact h.located.locate_eq hcursor
    · rintro tag name rfl hname
      obtain ⟨behind, hread⟩ := houtcome.exists_read
      have hle := (Token.opens_readMarkup hread).offset_le_duplicate hname
      exact h.located.locate_eq (Nat.le_trans hcursor hle)
    · rw [← hfound, ← List.append_assoc]
      rfl
  | @finish tokens step hs htokens hstep =>
    have hmirrors := Nesting.mirrors_finish hstep h.named
    rw [hreads.nesting_input, hreads.nesting_dialect] at hmirrors
    have hnamed := (Nesting.finishes_finish hstep).named h.named
    have hqueue : (s.loadEnd step).queue = step.events ++ [.documentEnd input.length] := by
      rw [← hreads.tokens_input]
      rfl
    refine h.queues hq hlocated hnamed ?_ ?_ rfl
    · rw [hqueue, List.map_append]
      exact settled_concat _ Bool.false_ne_true
    · rw [hqueue]
      exact hmirrors (h.located.locate_eq (Nat.le_trans hcursor h.located.cursor_le_length))

theorem keeps_warned (input : Bytes) (settings : Settings) : Keeps (Warned input settings) where
  literalUntil := fun name h =>
    ⟨(keeps_located input settings).literalUntil name h.located, h.named, h.settled, h.mirrors⟩
  loads := Warned.loads
  deliver := by
    intro events s event queue h hq
    refine ⟨(keeps_located input settings).deliver h.located hq, h.named, ?_, ?_⟩
    · rw [known_deliver hq]
      exact h.settled
    · rw [known_deliver hq]
      exact h.mirrors

/-- Events are where they were reported to be. -/
theorem Located.sightings_eq (h : Located input settings events s) :
    events.map ParsedEvent.sighting = (events.map (·.event)).map (Event.sight input) := by
  rw [List.map_map]
  refine List.map_congr_left fun parsed hmem => ?_
  rw [ParsedEvent.sighting, h.positions parsed hmem]
  rfl

/-- A document is read to its end by calls of which none fails and one finds nothing more. -/
def ReadToEnd (answers : List Answer) : Prop := (∀ e, .error e ∉ answers) ∧ .ok none ∈ answers

theorem readToEnd_of_all {answers : List Answer} (hall : answers.all Except.toBool)
    (hmem : answers.any fun answer => answer matches .ok none) : ReadToEnd answers := by
  refine ⟨fun e he => Bool.false_ne_true (List.all_eq_true.1 hall _ he), ?_⟩
  obtain ⟨answer, hanswer, hnone⟩ := List.any_eq_true.1 hmem
  split at hnone
  · exact hanswer
  · cases hnone

/-- The warnings of a document that is read to its end mirror its events, and there is no other mirror of
them. This holds whatever the policy is and whatever is asked for as literal text on the way: no warning is
lost and none is given twice, and they stand in the order of the events that they are about and name the
positions where those were reported. -/
theorem warnings_mirror_events (input : Bytes) (settings : Settings) (calls : List Call)
    (hend : ReadToEnd ((ofInput input settings).run calls).1) (warnings : List Warning) :
    let run := (ofInput input settings).run calls
    Mirrors settings.dialect input ((delivered run.1).map ParsedEvent.sighting) warnings ↔
      warnings = run.2.warnings := by
  intro run
  obtain ⟨hno, hnone⟩ := hend
  obtain ⟨found, tail, t, hanswers, ht, hleaves⟩ := run_keeps (keeps_warned input settings) calls
    (warned_ofInput input settings)
  rw [List.nil_append] at ht
  have hdelivered : delivered run.1 = found := by
    rw [show run.1 = handedOut found ++ tail from hanswers, delivered_handedOut, hleaves.delivered,
      List.append_nil]
  have hmirrors : Mirrors settings.dialect input ((delivered run.1).map ParsedEvent.sighting)
      run.2.warnings := by
    have hknown := ht.mirrors
    rw [hanswers] at hno hnone
    rw [hdelivered, ht.located.sightings_eq]
    generalize ((ofInput input settings).run calls).2 = last at hleaves
    cases hleaves with
    | waiting => simp [handedOut] at hnone
    | ended _ hempty =>
      rw [known_of_queue_nil hempty] at hknown
      exact hknown
    | failed => exact absurd (List.mem_append_right _ List.mem_cons_self) (hno _)
  constructor
  · intro h
    exact h.unique hmirrors
  · rintro rfl
    exact hmirrors

/-- In XML a close tag that closes another element by implication, one that closes nothing, and an element
that is left open; in HTML a name given three times, the last time after the first repetition. -/
theorem carelessTags_mirrored :
    let xml := ofInput (Bytes.ofString "<a><b></a></c><d>") ⟨.xml, .autoClose, []⟩
    let html := ofInput (Bytes.ofString "<a x=1 y X Y></b>") ⟨.html, .noBalancing, []⟩
    let calls := List.replicate 20 Call.next
    ReadToEnd (xml.run calls).1 ∧ ReadToEnd (html.run calls).1 ∧
      (xml.run calls).2.warnings =
        [⟨.autoClosed, "b", ⟨1, 7, 6⟩⟩, ⟨.unmatchedClose, "c", ⟨1, 11, 10⟩⟩,
          ⟨.unclosedAtEnd, "d", ⟨1, 18, 17⟩⟩] ∧
      (html.run calls).2.warnings =
        [⟨.duplicateAttribute, "X", ⟨1, 10, 9⟩⟩, ⟨.unmatchedClose, "b", ⟨1, 14, 13⟩⟩] ∧
      Mirrors .xml (Bytes.ofString "<a><b></a></c><d>")
        ((delivered (xml.run calls).1).map ParsedEvent.sighting) (xml.run calls).2.warnings ∧
      Mirrors .html (Bytes.ofString "<a x=1 y X Y></b>")
        ((delivered (html.run calls).1).map ParsedEvent.sighting) (html.run calls).2.warnings := by
  intro xml html calls
  have hxml : ReadToEnd (xml.run calls).1 :=
    readToEnd_of_all (by decide +kernel) (by decide +kernel)
  have hhtml : ReadToEnd (html.run calls).1 :=
    readToEnd_of_all (by decide +kernel) (by decide +kernel)
  refine ⟨hxml, hhtml, by decide +kernel, by decide +kernel, ?_, ?_⟩
  · exact (warnings_mirror_events (Bytes.ofString "<a><b></a></c><d>") ⟨.xml, .autoClose, []⟩ calls hxml
      (xml.run calls).2.warnings).2 rfl
  · exact (warnings_mirror_events (Bytes.ofString "<a x=1 y X Y></b>") ⟨.html, .noBalancing, []⟩ calls
      hhtml (html.run calls).2.warnings).2 rfl

end EventStream

end MarkupStream
