/-!
What a reading of a document is configured by: the dialect decides the scanning rules and whether
names differ by case, the policy decides what becomes of close tags that do not match.
-/
namespace MarkupStream

/-- Strict XML, where malformed markup is an error, or permissive HTML, where it is text. -/
inductive Dialect where
  | xml | html
  deriving DecidableEq, Repr, Inhabited

/-- What happens to a close tag that does not match the innermost open element. -/
inductive Policy where
  | noBalancing | autoClose | requireBalanced
  deriving DecidableEq, Repr, Inhabited

/-- An option was given a value that it does not have. -/
structure UnknownOption where
  kind : String
  value : String
  deriving DecidableEq, Repr

def UnknownOption.message (e : UnknownOption) : String :=
  "unknown " ++ e.kind ++ " '" ++ e.value ++ "'"

namespace Dialect

def isStrict : Dialect → Bool
  | xml => true
  | html => false

def ignoresCase : Dialect → Bool
  | xml => false
  | html => true

def name : Dialect → String
  | xml => "xml-strict"
  | html => "html-permissive"

def ofName (name : String) : Except UnknownOption Dialect :=
  if name = "xml-strict" ∨ name = "xml" then .ok xml
  else if name = "html-permissive" ∨ name = "html" then .ok html
  else .error ⟨"dialect", name⟩

@[simp] theorem ofName_name (d : Dialect) : ofName d.name = .ok d := by
  cases d <;> rfl

end Dialect

namespace Policy

def name : Policy → String
  | noBalancing => "no-balancing"
  | autoClose => "auto-close"
  | requireBalanced => "require-balanced"

def ofName (name : String) : Except UnknownOption Policy :=
  if name = "no-balancing" then .ok noBalancing
  else if name = "auto-close" then .ok autoClose
  else if name = "require-balanced" then .ok requireBalanced
  else .error ⟨"balancing policy", name⟩

@[simp] theorem ofName_name (p : Policy) : ofName p.name = .ok p := by
  cases p <;> rfl

end Policy

end MarkupStream
