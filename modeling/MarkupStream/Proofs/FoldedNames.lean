import MarkupStream.Event.Stream
import MarkupStream.Proofs.Folding

/-!
Names and the case of letters. Where case is ignored, names in small letters have the same element
entries, close the same elements, are duplicates of the same names and satisfy the same selectors; only
the names in warnings and errors are spelt with small letters, too.
-/
namespace MarkupStream

namespace Utf8

open Byte

theorem lt_or_toLower_eq (b : UInt8) : b < 0x80 ∧ toLower b < 0x80 ∨ toLower b = b :=
  forall_of_table (P := fun b => b < 0x80 ∧ toLower b < 0x80 ∨ toLower b = b) (by decide +kernel) b

theorem ofNat_toLower (b : UInt8) (h : b < 0x80) :
    Char.ofNat (toLower b).toNat = (Char.ofNat b.toNat).toLower :=
  forall_of_table
    (P := fun b => b < 0x80 → Char.ofNat (toLower b).toNat = (Char.ofNat b.toNat).toLower)
    (by decide +kernel) b h

theorem lead_of_lt {b : UInt8} (h : b < 0x80) : lead b = .whole (Char.ofNat b.toNat) := if_pos h

/-- A character that is begun, and that will lie outside ASCII however it goes on. -/
def Pending.isMultibyte (p : Pending) : Bool :=
  0x80 ≤ p.least && p.greatest ≤ 0xBF &&
    (if p.owed ≤ 1 then 128 else 2) ≤ p.value * 64 + p.least.toNat % 64

theorem isMultibyte_of_lead {b : UInt8} {p : Pending} (h : lead b = .opens p) : p.isMultibyte := by
  have htable := forall_of_table
    (P := fun b => (match lead b with
      | .opens p => p.isMultibyte
      | _ => true) = true) (by decide +kernel) b
  rwa [h] at htable

theorem Pending.isMultibyte_iff {p : Pending} : p.isMultibyte ↔
    128 ≤ p.least.toNat ∧ p.greatest.toNat ≤ 191 ∧
      (if p.owed ≤ 1 then 128 else 2) ≤ p.value * 64 + p.least.toNat % 64 := by
  simp only [isMultibyte, Bool.and_eq_true, decide_eq_true_eq, UInt8.le_iff_toNat_le, and_assoc]
  rfl

theorem Pending.accepts_iff {p : Pending} {b : UInt8} :
    p.accepts b ↔ p.least.toNat ≤ b.toNat ∧ b.toNat ≤ p.greatest.toNat := by
  simp only [accepts, Bool.and_eq_true, decide_eq_true_eq, UInt8.le_iff_toNat_le]

/-- A character that is completed lies outside ASCII. -/
theorem le_value_push {p : Pending} {b : UInt8} (h : p.isMultibyte) (hb : p.accepts b)
    (howed : p.owed ≤ 1) : 128 ≤ (p.push b).value := by
  obtain ⟨hleast, hgreatest, hvalue⟩ := Pending.isMultibyte_iff.1 h
  obtain ⟨hfirst, hlast⟩ := Pending.accepts_iff.1 hb
  rw [if_pos howed] at hvalue
  simp only [Pending.push]
  omega

theorem isMultibyte_push {p : Pending} {b : UInt8} (h : p.isMultibyte) (hb : p.accepts b)
    (howed : ¬ p.owed ≤ 1) : (p.push b).isMultibyte := by
  obtain ⟨hleast, hgreatest, hvalue⟩ := Pending.isMultibyte_iff.1 h
  obtain ⟨hfirst, hlast⟩ := Pending.accepts_iff.1 hb
  rw [if_neg howed] at hvalue
  refine Pending.isMultibyte_iff.2 ⟨Nat.le_refl 128, Nat.le_refl 191, ?_⟩
  have hsum : 2 ≤ p.value * 64 + b.toNat % 64 := by omega
  have hnext : (Pending.push p b).value * 64 ≥ 128 := by
    simp only [Pending.push]
    omega
  split <;> omega

theorem toLower_ofNat {n : Nat} (h : 128 ≤ n) : (Char.ofNat n).toLower = Char.ofNat n := by
  by_cases hvalid : n.isValidChar
  · have hval : (Char.ofNat n).val.toNat = n := by
      rw [Char.ofNat, dif_pos hvalid]
      rfl
    have hcapital : ¬ ((Char.ofNat n).val ≥ 'A'.val ∧ (Char.ofNat n).val ≤ 'Z'.val) := by
      rintro ⟨-, hle⟩
      rw [UInt32.le_iff_toNat_le, hval] at hle
      have hlast : 'Z'.val.toNat = 90 := rfl
      omega
    exact dif_neg hcapital
  · rw [Char.ofNat, dif_neg hvalid]
    rfl

/-- A byte that begins no ASCII character is left alone, so that what it opens is the same. -/
theorem lead_toLower (b : UInt8) : lead (toLower b) =
    match lead b with
    | .whole c => .whole c.toLower
    | .opens p => .opens p
    | .illFormed => .illFormed := by
  by_cases hb : b < 0x80
  · have hlower : toLower b < 0x80 := by
      rcases lt_or_toLower_eq b with ⟨-, hlt⟩ | heq
      · exact hlt
      · rwa [heq]
    rw [lead_of_lt hb, lead_of_lt hlower, ofNat_toLower b hb]
  · have heq : toLower b = b := by
      rcases lt_or_toLower_eq b with ⟨hlt, -⟩ | heq
      · exact absurd hlt hb
      · exact heq
    have hwhole : ∀ c, lead b ≠ .whole c := by
      intro c h
      unfold lead at h
      rw [if_neg hb] at h
      repeat' split at h
      all_goals cases h
    rw [heq]
    cases hlead : lead b with
    | whole c => exact absurd hlead (hwhole c)
    | opens p => rfl
    | illFormed => rfl

/-- Inside a character no letter goes on, whichever its form. -/
theorem accepts_toLower {p : Pending} (h : p.isMultibyte) (b : UInt8) :
    p.accepts (toLower b) = p.accepts b ∧ (p.accepts b → toLower b = b) := by
  rcases lt_or_toLower_eq b with ⟨hlt, hlower⟩ | heq
  · have hnone : ∀ x : UInt8, x < 0x80 → ¬ p.accepts x := by
      intro x hx haccepts
      have hleast := (Pending.isMultibyte_iff.1 h).1
      have hfirst := (Pending.accepts_iff.1 haccepts).1
      have hbound : x.toNat < 128 := UInt8.lt_iff_toNat_lt.1 hx
      omega
    rw [Bool.eq_false_iff.2 (hnone b hlt), Bool.eq_false_iff.2 (hnone _ hlower)]
    exact ⟨rfl, nofun⟩
  · rw [heq]
    exact ⟨rfl, fun _ => rfl⟩

theorem pieces_foldCase (bytes : Bytes) :
    pieces bytes.foldCase = (pieces bytes).map (Option.map Char.toLower) ∧
      ∀ p : Pending, p.isMultibyte →
        piecesAfter p bytes.foldCase = (piecesAfter p bytes).map (Option.map Char.toLower) := by
  induction bytes with
  | nil => exact ⟨rfl, fun _ _ => rfl⟩
  | cons b rest ih =>
    obtain ⟨hpieces, hafter⟩ := ih
    constructor
    · rw [Bytes.foldCase_cons, pieces, pieces, lead_toLower]
      cases hlead : lead b with
      | whole c => simp [hpieces]
      | opens p => exact hafter p (isMultibyte_of_lead hlead)
      | illFormed => simp [hpieces]
    · intro p hp
      obtain ⟨haccepts, hsame⟩ := accepts_toLower hp b
      rw [Bytes.foldCase_cons, piecesAfter, piecesAfter, haccepts]
      by_cases hb : p.accepts b
      · rw [if_pos hb, if_pos hb, hsame hb]
        by_cases howed : p.owed ≤ 1
        · rw [if_pos howed, if_pos howed, hpieces, List.map_cons, Option.map_some,
            toLower_ofNat (le_value_push hp hb howed)]
        · rw [if_neg howed, if_neg howed]
          exact hafter (p.push b) (isMultibyte_push hp hb howed)
      · rw [if_neg hb, if_neg hb, lead_toLower]
        cases hlead : lead b with
        | whole c => simp [hpieces]
        | opens q => simp [hafter q (isMultibyte_of_lead hlead)]
        | illFormed => simp [hpieces]

/-- The text of folded bytes is the text of the bytes in small letters. -/
theorem decodeLossy_foldCase (bytes : Bytes) :
    decodeLossy bytes.foldCase = (decodeLossy bytes).map Char.toLower := by
  apply String.toList_inj.1
  rw [String.toList_map, decodeLossy, decodeLossy, String.toList_ofList, String.toList_ofList,
    (pieces_foldCase bytes).1, List.map_map, List.map_map]
  congr 1
  funext piece
  cases piece with
  | none => decide
  | some c => rfl

end Utf8

theorem Position.locate_foldCase (p : Position) (input : Bytes) (offset : Nat) :
    p.locate input.foldCase offset = p.locate input offset := by
  have hstep : ∀ (p : Position) (b : UInt8), p.step (Byte.toLower b) = p.step b := by
    intro p b
    rw [step, step, Byte.beq_toLower rfl, Byte.caseless_isContinuation b]
  have hadvance : ∀ (bytes : Bytes) (p : Position), p.advance bytes.foldCase = p.advance bytes := by
    intro bytes
    induction bytes with
    | nil => exact fun _ => rfl
    | cons b rest ih =>
      intro p
      rw [Bytes.foldCase_cons, advance_cons, advance_cons, hstep, ih]
  rw [locate, locate, Bytes.drop_foldCase, Bytes.take_foldCase, hadvance]

/-- A warning with the name in small letters. -/
def Warning.foldCase (w : Warning) : Warning := { w with name := w.name.map Char.toLower }

/-- An error with the names in small letters. -/
def ParseError.foldCase : ParseError → ParseError
  | .duplicateAttribute name p => .duplicateAttribute (name.map Char.toLower) p
  | .unbalancedClose name p => .unbalancedClose (name.map Char.toLower) p
  | .unclosedElements names p => .unclosedElements (names.map (·.map Char.toLower)) p
  | e => e

section Tags

theorem firstRepeated?_foldCase (input : Bytes) (seen : List Bytes) (attributes : List Attribute) :
    firstRepeated? (Span.slice · input.foldCase) true (seen.map Bytes.foldCase) attributes =
      firstRepeated? (Span.slice · input) true seen attributes := by
  induction attributes generalizing seen with
  | nil => rfl
  | cons a rest ih =>
    have hseen : (seen.map Bytes.foldCase).any
        (Bytes.sameName true · (a.name.slice input).foldCase) =
        seen.any (Bytes.sameName true · (a.name.slice input)) := by
      simp [List.any_map, Function.comp_def]
    rw [firstRepeated?, firstRepeated?, Span.slice_foldCase, hseen, ← List.map_cons, ih]

theorem duplicateName?_foldCase (parts : List TagPart) (input : Bytes) :
    duplicateName? parts input.foldCase true = duplicateName? parts input true :=
  firstRepeated?_foldCase input [] (attributesOf parts)

end Tags

section Elements

theorem Catalog.letterIndex?_toLower (b : UInt8) : letterIndex? (Byte.toLower b) = letterIndex? b := by
  rw [letterIndex?, letterIndex?, Byte.toLower_toLower]

theorem Catalog.lookup_foldCase (catalog : Catalog) (name : Bytes) :
    catalog.lookup name.foldCase = catalog.lookup name := by
  have hletter : name.foldCase.head?.bind letterIndex? = name.head?.bind letterIndex? := by
    cases name with
    | nil => rfl
    | cons b rest => exact letterIndex?_toLower b
  simp only [lookup, hletter, Bytes.sameName_foldCase_right]

namespace Nesting

/-- An open element with its name in small letters. -/
def foldFrame (frame : Frame) : Frame := ⟨frame.span, frame.name.foldCase⟩

/-- The nesting in the folded document. -/
def foldCase (n : Nesting) : Nesting :=
  { n with input := n.input.foldCase, stack := n.stack.map foldFrame }

def Step.foldCase (step : Step) : Step :=
  { step with nesting := step.nesting.foldCase, warnings := step.warnings.map Warning.foldCase }

/-- What is judged in the folded document, told by what is judged in the document itself. -/
def foldJudgement : Except ParseError Step → Except ParseError Step
  | .error e => .error e.foldCase
  | .ok step => .ok step.foldCase

theorem siblingCount_foldCase (rule : SiblingRule) (frames : List Frame) :
    siblingCount rule (frames.map foldFrame) = siblingCount rule frames := by
  induction frames with
  | nil => rfl
  | cons frame outer ih =>
    have hlimit : rule.isLimit (foldFrame frame).name = rule.isLimit frame.name := by
      simp [SiblingRule.isLimit, foldFrame]
    have hcloses : rule.closesName (foldFrame frame).name = rule.closesName frame.name := by
      simp [SiblingRule.closesName, foldFrame]
    rw [List.map_cons, siblingCount, siblingCount, hlimit, hcloses, ih]

theorem autoCloseEvents_foldCase (offset : Nat) (frames : List Frame) :
    autoCloseEvents offset (frames.map foldFrame) = autoCloseEvents offset frames := by
  rw [autoCloseEvents, autoCloseEvents, List.flatMap_map]
  rfl

theorem frameWarnings_foldCase (kind : WarningKind) (position : Position) (frames : List Frame) :
    frameWarnings kind position (frames.map foldFrame) =
      (frameWarnings kind position frames).map Warning.foldCase := by
  simp only [frameWarnings, List.map_map, Function.comp_def, foldFrame, Warning.foldCase,
    Utf8.decodeLossy_foldCase]

variable {n : Nesting}

theorem openElement_foldCase (hd : n.dialect = .html) (tag : OpenTag) :
    n.foldCase.openElement tag = (n.openElement tag).foldCase := by
  have hspec : n.foldCase.spec? (tag.name.slice n.input).foldCase =
      n.spec? (tag.name.slice n.input) := by
    simp only [spec?, foldCase, hd, Catalog.lookup_foldCase]
  have hcount : ∀ spec, n.foldCase.impliedCount spec = n.impliedCount spec := by
    intro spec
    simp only [impliedCount, foldCase, siblingCount_foldCase]
  have hinput : n.foldCase.input = n.input.foldCase := rfl
  simp only [openElement, hinput, Span.slice_foldCase, hspec, hcount]
  simp only [foldCase, ← List.map_take, ← List.map_drop, autoCloseEvents_foldCase, List.length_map]
  split <;> rfl

theorem innerCount?_foldCase (hd : n.dialect = .html) (name : Bytes) :
    n.foldCase.innerCount? name.foldCase = n.innerCount? name := by
  simp only [innerCount?, foldCase, hd, Dialect.ignoresCase, foldFrame, List.findIdx?_map,
    Function.comp_def, Bytes.sameName_foldCase_left, Bytes.sameName_foldCase_right]

theorem closeMatched_foldCase (locate : Nat → Position) (tag : CloseTag) (count : Nat) :
    n.foldCase.closeMatched locate tag count = (n.closeMatched locate tag count).foldCase := by
  simp only [closeMatched, foldCase, ← List.map_take, ← List.map_drop, autoCloseEvents_foldCase,
    frameWarnings_foldCase, Step.foldCase]
  congr 1
  split <;> rfl

theorem closeUnmatched_foldCase (locate : Nat → Position) (tag : CloseTag) :
    n.foldCase.closeUnmatched locate tag = (n.closeUnmatched locate tag).foldCase := by
  simp only [closeUnmatched, foldCase, Span.slice_foldCase, Utf8.decodeLossy_foldCase]
  rfl

theorem closeElement_foldCase (hd : n.dialect = .html) (locate : Nat → Position) (tag : CloseTag) :
    n.foldCase.closeElement locate tag = foldJudgement (n.closeElement locate tag) := by
  have hinput : n.foldCase.input = n.input.foldCase := rfl
  have hpolicy : n.foldCase.policy = n.policy := rfl
  simp only [closeElement, hinput, hpolicy, Span.slice_foldCase, innerCount?_foldCase hd,
    closeMatched_foldCase, closeUnmatched_foldCase, Utf8.decodeLossy_foldCase]
  split <;> rfl

theorem accept_foldCase (hd : n.dialect = .html) (locate : Nat → Position) (token : Token) :
    n.foldCase.accept locate token = foldJudgement (n.accept locate token) := by
  cases token with
  | openTag tag => exact congrArg Except.ok (openElement_foldCase hd tag)
  | closeTag tag => exact closeElement_foldCase hd locate tag
  | _ => rfl

theorem finish_foldCase (locate : Nat → Position) :
    n.foldCase.finish locate = foldJudgement (n.finish locate) := by
  obtain ⟨input, dialect, policy, stack, maxDepth⟩ := n
  have hnames : ((stack.map foldFrame).reverse.map (Utf8.decodeLossy ·.name)) =
      (stack.reverse.map (Utf8.decodeLossy ·.name)).map (·.map Char.toLower) := by
    simp [← List.map_reverse, Function.comp_def, foldFrame, Utf8.decodeLossy_foldCase]
  have hevents := autoCloseEvents_foldCase input.length stack
  have hwarnings := frameWarnings_foldCase .unclosedAtEnd (locate input.length) stack
  cases stack with
  | nil => cases policy <;> rfl
  | cons frame outer =>
    simp only [finish, foldCase, Bytes.length_foldCase]
    cases policy with
    | noBalancing => rfl
    | requireBalanced =>
      exact congrArg
        (fun names => Except.error (ParseError.unclosedElements names (locate input.length))) hnames
    | autoClose =>
      simp only [List.map_cons] at hevents hwarnings ⊢
      rw [hevents, hwarnings]
      cases dialect <;> rfl

end Nesting

end Elements

namespace Selector

/-- Attributes with their names in small letters and their values as they are. -/
def AttributeValues.foldCase (attributes : AttributeValues) : AttributeValues :=
  attributes.map fun (name, value) => (name.foldCase, value)

theorem AttributeValues.value?_foldCase (attributes : AttributeValues) (name : Bytes) :
    attributes.foldCase.value? true name = attributes.value? true name := by
  simp only [value?, foldCase, List.find?_map, Function.comp_def, Bytes.sameName_foldCase_left,
    Option.map_map]

theorem Predicate.holds_foldCase (attributes : AttributeValues) (p : Predicate) :
    p.holds true attributes.foldCase = p.holds true attributes := by
  induction p with
  | compare | has | lacks => simp only [holds, AttributeValues.value?_foldCase]
  | not p ih => rw [holds, holds, ih]
  | and l r ihl ihr | or l r ihl ihr => rw [holds, holds, ihl, ihr]

theorem Slot.acceptsElement_foldCase {slot : Slot} (h : slot.ignoreCase) (name : Bytes)
    (attributes : AttributeValues) :
    slot.acceptsElement name.foldCase attributes.foldCase = slot.acceptsElement name attributes := by
  have hnode : ∀ node : NodeTest,
      node.acceptsElement true name.foldCase = node.acceptsElement true name := by
    intro node
    cases node with
    | any => rfl
    | named expected => exact Bytes.sameName_foldCase_left name _
    | pseudo p => cases p <;> rfl
  simp only [acceptsElement, Branch.acceptsElement, h, hnode, Predicate.holds_foldCase]

namespace Evaluation

theorem present_congr {f g : Slot → Bool} {slots : List Slot} (h : ∀ slot ∈ slots, f slot = g slot)
    (atRoot : Bool) (previous : Cell) (cells : List Cell) :
    present f atRoot previous slots cells = present g atRoot previous slots cells := by
  induction slots generalizing previous cells with
  | nil => rfl
  | cons slot rest ih =>
    cases cells with
    | nil => rfl
    | cons cell cells =>
      have hrest := ih (fun other hmem => h other (List.mem_cons_of_mem _ hmem)) cell cells
      rw [present, present, h slot List.mem_cons_self, hrest]

theorem enter_foldCase {e : Evaluation} (h : ∀ slot ∈ e.slots, slot.ignoreCase) (name : Bytes)
    (attributes : AttributeValues) :
    e.enter name.foldCase attributes.foldCase = e.enter name attributes := by
  have hverdicts : e.verdicts (·.acceptsElement name.foldCase attributes.foldCase) =
      e.verdicts (·.acceptsElement name attributes) := by
    apply present_congr
    intro slot hmem
    exact Slot.acceptsElement_foldCase (h slot hmem) name attributes
  simp only [enter, hverdicts]

/-- An event is observed alike in two documents whose names differ in case only and whose attributes
have the same values. -/
theorem observe_congr {e : Evaluation} (h : ∀ slot ∈ e.slots, slot.ignoreCase) {input input' : Bytes}
    (hinput : input.foldCase = input'.foldCase) {parts : List TagPart}
    (hvalues : ∀ a ∈ attributesOf parts, a.valueBytes input = a.valueBytes input') (event : Event) :
    e.observe event parts input = e.observe event parts input' := by
  have hslice : ∀ span : Span, (span.slice input).foldCase = (span.slice input').foldCase := by
    intro span
    rw [← Span.slice_foldCase, hinput, Span.slice_foldCase]
  have hattributes : (attributeValues parts input).foldCase =
      (attributeValues parts input').foldCase := by
    simp only [AttributeValues.foldCase, attributeValues, List.map_map]
    apply List.map_congr_left
    intro a hmem
    simp only [Function.comp_apply, hslice, hvalues a hmem]
  have henter : ∀ name : Span,
      e.enter (name.slice input) (attributeValues parts input) =
        e.enter (name.slice input') (attributeValues parts input') := by
    intro name
    rw [← enter_foldCase h, ← enter_foldCase h (name.slice input'), hslice, hattributes]
  cases event with
  | element edge span name => simp only [observe, henter]
  | _ => rfl

theorem slots_withParentCells (e : Evaluation) (cells : List Cell) :
    (e.withParentCells cells).slots = e.slots := by
  rw [withParentCells]
  split <;> rfl

theorem slots_leave (e : Evaluation) : e.leave.slots = e.slots := by
  rw [leave]
  split <;> rfl

theorem slots_observe (e : Evaluation) (event : Event) (parts : List TagPart) (input : Bytes) :
    (e.observe event parts input).2.slots = e.slots := by
  unfold observe
  by_cases hempty : e.isEmpty
  · rw [if_pos hempty]
  · rw [if_neg hempty]
    cases event with
    | element edge span name =>
      dsimp only
      split
      · exact slots_withParentCells e _
      · split
        · exact slots_leave e
        · rfl
    | documentStart | documentEnd | attr | innerWhitespace => rfl
    | _ => exact slots_withParentCells e _

end Evaluation

end Selector

end MarkupStream
