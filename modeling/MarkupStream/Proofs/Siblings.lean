import MarkupStream.Proofs.NormalForm

/-!
Separation of siblings. While elements are closed automatically, HTML never has an element open inside
one that its tag should have closed: between the two stands a limit of its rule. An open tag closes up
to the nearest limit of its rule and no further, so an open limit shields itself and all around it.
Places in the stack are counted from the innermost element.
-/
namespace MarkupStream

/-- The sibling rule of an element, told by its name. -/
def siblingRule? (name : Bytes) : Option SiblingRule :=
  (Catalog.html.lookup name).bind (·.sibling)

/-- What a lookup finds is an entry of the table. -/
theorem Catalog.mem_of_lookup {catalog : Catalog} {name : Bytes} {spec : ElementSpec}
    (h : catalog.lookup name = some spec) : spec ∈ catalog.table := by
  rw [lookup] at h
  split at h
  · cases h
  · split at h
    · cases h
    · exact List.mem_of_mem_drop (List.mem_of_mem_take (List.mem_of_find?_eq_some h))

namespace SiblingRule

/-- No name that the rule closes is a limit of it. -/
def Disjoint (rule : SiblingRule) : Prop :=
  ∀ closed ∈ rule.closes, ∀ limit ∈ rule.limits, ¬ Bytes.sameName true closed limit

instance (rule : SiblingRule) : Decidable rule.Disjoint :=
  inferInstanceAs
    (Decidable (∀ closed ∈ rule.closes, ∀ limit ∈ rule.limits, ¬ Bytes.sameName true closed limit))

theorem Disjoint.not_isLimit {rule : SiblingRule} (h : rule.Disjoint) {name : Bytes}
    (hcloses : rule.closesName name) : ¬ rule.isLimit name := by
  intro hlimit
  obtain ⟨closed, hclosed, hname⟩ := List.any_eq_true.1 hcloses
  obtain ⟨limit, hmem, hsame⟩ := List.any_eq_true.1 hlimit
  apply h closed hclosed limit hmem
  rw [Bytes.sameName_iff] at hname hsame ⊢
  exact hname.trans hsame.symm

theorem disjoint_of_siblingRule {name : Bytes} {rule : SiblingRule}
    (h : siblingRule? name = some rule) : rule.Disjoint := by
  have htable : ∀ spec ∈ ElementSpec.all, ∀ rule, spec.sibling = some rule → rule.Disjoint := by
    decide
  obtain ⟨spec, hspec, hrule⟩ := Option.bind_eq_some_iff.1 h
  exact htable spec (Catalog.mem_of_lookup hspec) rule hrule

end SiblingRule

/-- Whatever the rule closes in a stack has a limit of the rule inside it. -/
def Shielded (rule : SiblingRule) (stack : List Frame) : Prop :=
  ∀ (j : Nat) (outer : Frame), stack[j]? = some outer → rule.closesName outer.name →
    ∃ (k : Nat) (limit : Frame), k < j ∧ stack[k]? = some limit ∧ rule.isLimit limit.name

/-- Between an element and an outer one that its rule closes, a limit of the rule is open. -/
def SiblingsApart (stack : List Frame) : Prop :=
  ∀ (i j : Nat) (frame outer : Frame) (rule : SiblingRule), i < j → stack[i]? = some frame →
    stack[j]? = some outer → siblingRule? frame.name = some rule → rule.closesName outer.name →
    ∃ (k : Nat) (limit : Frame), i < k ∧ k < j ∧ stack[k]? = some limit ∧ rule.isLimit limit.name

theorem siblingsApart_nil : SiblingsApart [] := by
  intro i j frame outer rule _ hframe
  cases hframe

/-- Elements that are closed from the inside leave the others apart. -/
theorem SiblingsApart.drop {stack : List Frame} (h : SiblingsApart stack) (n : Nat) :
    SiblingsApart (stack.drop n) := by
  intro i j frame outer rule hij hframe houter hrule hcloses
  rw [List.getElem?_drop] at hframe houter
  obtain ⟨k, limit, hik, hkj, hk, hlimit⟩ :=
    h (n + i) (n + j) frame outer rule (by omega) hframe houter hrule hcloses
  refine ⟨k - n, limit, by omega, by omega, ?_, hlimit⟩
  rw [List.getElem?_drop, Nat.add_sub_cancel' (by omega)]
  exact hk

/-- An element may be opened where whatever its rule closes is shielded. -/
theorem SiblingsApart.cons {frame : Frame} {stack : List Frame} (h : SiblingsApart stack)
    (hframe : ∀ rule, siblingRule? frame.name = some rule → Shielded rule stack) :
    SiblingsApart (frame :: stack) := by
  intro i j inner outer rule hij hinner houter hrule hcloses
  obtain ⟨j, rfl⟩ := Nat.exists_eq_add_one_of_ne_zero (Nat.ne_zero_of_lt hij)
  rw [List.getElem?_cons_succ] at houter
  cases i with
  | zero =>
    obtain rfl : frame = inner := Option.some.inj hinner
    obtain ⟨k, limit, hkj, hk, hlimit⟩ := hframe rule hrule j outer houter hcloses
    exact ⟨k + 1, limit, by omega, by omega, hk, hlimit⟩
  | succ i =>
    rw [List.getElem?_cons_succ] at hinner
    obtain ⟨k, limit, hik, hkj, hk, hlimit⟩ :=
      h i j inner outer rule (by omega) hinner houter hrule hcloses
    exact ⟨k + 1, limit, by omega, by omega, hk, hlimit⟩

namespace Nesting

/-- A rule closes nothing from its nearest limit on outwards. -/
theorem siblingCount_le {rule : SiblingRule} {stack : List Frame} {i : Nat} {limit : Frame}
    (hi : stack[i]? = some limit) (hlimit : rule.isLimit limit.name) :
    siblingCount rule stack ≤ i := by
  induction stack generalizing i with
  | nil => cases hi
  | cons frame outer ih =>
    rw [siblingCount]
    split
    · exact Nat.zero_le i
    · rename_i hframe
      cases i with
      | zero =>
        obtain rfl : frame = limit := Option.some.inj hi
        exact absurd hlimit hframe
      | succ i =>
        rw [List.getElem?_cons_succ] at hi
        have hle := ih hi
        split
        · split <;> omega
        · omega

/-- What is left for a rule to close, where it closes nothing, is shielded. -/
theorem shielded_of_siblingCount {rule : SiblingRule} (hrule : rule.Disjoint) {stack : List Frame}
    (h : siblingCount rule stack = 0) : Shielded rule stack := by
  induction stack with
  | nil => exact fun j outer hj => by cases hj
  | cons frame outer ih =>
    intro j closed hj hcloses
    by_cases hlimit : rule.isLimit frame.name
    · cases j with
      | zero =>
        obtain rfl : frame = closed := Option.some.inj hj
        exact absurd hlimit (hrule.not_isLimit hcloses)
      | succ j => exact ⟨0, frame, by omega, rfl, hlimit⟩
    · rw [siblingCount, if_neg hlimit] at h
      split at h
      · rename_i hcount
        cases j with
        | zero =>
          obtain rfl : frame = closed := Option.some.inj hj
          rw [if_pos hcloses] at h
          cases h
        | succ j =>
          obtain ⟨k, limit, hkj, hk, hlimit'⟩ := ih hcount j closed hj hcloses
          exact ⟨k + 1, limit, by omega, hk, hlimit'⟩
      · omega

/-- The nesting after some tokens, each taken with the positions that its diagnostics need. -/
def acceptAll (n : Nesting) : List (Token × (Nat → Position)) → Except ParseError Nesting
  | [] => .ok n
  | (token, locate) :: rest => do
    let step ← n.accept locate token
    step.nesting.acceptAll rest

section Html

variable {n : Nesting}

theorem impliedCount_html (hd : n.dialect = .html) (hp : n.policy = .autoClose) (name : Bytes) :
    n.impliedCount (n.spec? name) = match siblingRule? name with
      | some rule => siblingCount rule n.stack
      | none => 0 := by
  have hspec : n.spec? name = Catalog.html.lookup name := by rw [spec?, hd]
  rw [impliedCount, hspec, hp, ← siblingRule?]
  cases siblingRule? name <;> rfl

/-- Once an open tag has closed what it implies, whatever its rule closes is shielded. -/
theorem shielded_drop (hd : n.dialect = .html) (hp : n.policy = .autoClose) {name : Bytes}
    {rule : SiblingRule} (hrule : siblingRule? name = some rule) :
    Shielded rule (n.stack.drop (n.impliedCount (n.spec? name))) := by
  rw [impliedCount_html hd hp, hrule]
  exact shielded_of_siblingCount (SiblingRule.disjoint_of_siblingRule hrule)
    (siblingCount_drop rule n.stack)

theorem Accepts.siblingsApart (hd : n.dialect = .html) (hp : n.policy = .autoClose)
    {locate : Nat → Position} {token : Token} {step : Step} (h : n.Accepts locate token step)
    (hapart : SiblingsApart n.stack) : SiblingsApart step.nesting.stack := by
  cases h with
  | node | unmatched => exact hapart
  | standalone | closed => exact hapart.drop _
  | opened tag _ hcount =>
    subst hcount
    exact (hapart.drop _).cons fun rule hrule => shielded_drop hd hp hrule

/-- Automatic closing takes any tokens and keeps siblings apart. -/
theorem acceptAll_apart (hd : n.dialect = .html) (hp : n.policy = .autoClose)
    (hapart : SiblingsApart n.stack) (tokens : List (Token × (Nat → Position))) :
    ∃ m, n.acceptAll tokens = .ok m ∧ m.input = n.input ∧ m.dialect = .html ∧
      m.policy = .autoClose ∧ SiblingsApart m.stack := by
  induction tokens generalizing n with
  | nil => exact ⟨n, rfl, rfl, hd, hp, hapart⟩
  | cons first rest ih =>
    obtain ⟨token, locate⟩ := first
    obtain ⟨step, hstep⟩ := exists_accept hp locate token
    have haccepts := accepts_accept hstep
    obtain ⟨hinput, hdialect, hpolicy⟩ := haccepts.same
    obtain ⟨m, hm, hinput', hrest⟩ := ih (hdialect.trans hd) (hpolicy.trans hp)
      (haccepts.siblingsApart hd hp hapart)
    refine ⟨m, ?_, hinput'.trans hinput, hrest⟩
    simp only [acceptAll, hstep, bind, Except.bind]
    exact hm

/-- An open tag leaves a limit of its rule open, with all that stands around it. -/
theorem drop_suffix_openElement (hd : n.dialect = .html) (hp : n.policy = .autoClose)
    {tag : OpenTag} {rule : SiblingRule} (hrule : siblingRule? (tag.name.slice n.input) = some rule)
    {i : Nat} {limit : Frame} (hi : n.stack[i]? = some limit) (hlimit : rule.isLimit limit.name) :
    n.stack.drop i <:+ (n.openElement tag).nesting.stack := by
  have hle : n.impliedCount (n.spec? (tag.name.slice n.input)) ≤ i := by
    rw [impliedCount_html hd hp, hrule]
    exact siblingCount_le hi hlimit
  have hdrop := List.drop_suffix_drop_left n.stack hle
  have haccepts := accepts_openElement n (fun _ => Position.start) tag
  generalize n.openElement tag = step at haccepts
  cases haccepts with
  | node hevent => cases hevent
  | standalone _ _ hcount =>
    subst hcount
    exact hdrop
  | opened _ _ hcount =>
    subst hcount
    exact hdrop.trans (List.suffix_cons _ _)

end Html

/-- After any tokens of an HTML document that are closed automatically, an element whose rule closes an
outer one has a limit of that rule open between the two. A further open tag closes neither a limit of
its rule nor an element around one. -/
theorem siblings_apart (input : Bytes) (tokens : List (Token × (Nat → Position))) :
    ∃ n, (ofInput input .html .autoClose).acceptAll tokens = .ok n ∧ SiblingsApart n.stack ∧
      ∀ (tag : OpenTag) (rule : SiblingRule), siblingRule? (tag.name.slice input) = some rule →
        ∀ (i : Nat) (limit : Frame), n.stack[i]? = some limit → rule.isLimit limit.name →
          n.stack.drop i <:+ (n.openElement tag).nesting.stack := by
  obtain ⟨n, hn, hinput, hd, hp, hapart⟩ :=
    acceptAll_apart (n := ofInput input .html .autoClose) rfl rfl siblingsApart_nil tokens
  obtain rfl : n.input = input := hinput
  exact ⟨n, hn, hapart, fun tag rule hrule i limit hi hlimit =>
    drop_suffix_openElement hd hp hrule hi hlimit⟩

end Nesting

end MarkupStream
