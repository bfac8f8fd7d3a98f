import MarkupStream.Selector.Grammar

/-!
References to fragments. A resolver says, as the text of a predicate, which elements declare the
fragment of a given name; the usual one looks at an attribute and at the data attribute that stands for it.
-/
namespace MarkupStream.Selector

abbrev Resolver := String → String

/-- The attribute that declares fragments. -/
structure FragmentAttribute where
  name : String
  deriving DecidableEq, Repr

namespace FragmentAttribute

def standard : FragmentAttribute := ⟨"th:fragment"⟩

/-- The data attribute that stands for it, with hyphens for colons. -/
def dataName (a : FragmentAttribute) : String :=
  "data-" ++ a.name.map fun c => if c == ':' then '-' else c

/-- The predicate text of a reference: either attribute has the name as its value. -/
def resolve (a : FragmentAttribute) : Resolver := fun reference =>
  a.name ++ "=" ++ quote reference ++ " OR " ++ a.dataName ++ "=" ++ quote reference

/-- Some fragment is declared, whatever its name. -/
def isDeclared (a : FragmentAttribute) : Predicate :=
  .or (.compare a.name .notEqual "") (.compare a.dataName .notEqual "")

end FragmentAttribute

/-- The predicate that a reference stands for; an error is shown at the reference, not in its text. -/
def resolveReference (source : String) (resolver : Resolver) (reference : String)
    (offset length : Nat) : Except SelectorError Predicate :=
  match parsePredicate (resolver reference) with
  | .ok p => .ok p
  | .error e =>
    .error (SelectorError.locate source offset length
      (.unresolvable reference (resolver reference) e.flaw))

end MarkupStream.Selector
