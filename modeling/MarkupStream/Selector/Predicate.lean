import MarkupStream.Selector.Lexeme
import MarkupStream.Tag

/-!
Predicates on the attributes of a tag: how they are written and when they hold. A comparison with an
attribute that the tag does not have is false. The value of a class attribute also equals each of
its parts between whitespace.
-/
namespace MarkupStream.Selector

inductive Predicate where
  | compare (name : String) (op : Comparison) (value : String)
  | has (name : String)
  | lacks (name : String)
  | not (p : Predicate)
  | and (l r : Predicate)
  | or (l r : Predicate)
  deriving DecidableEq, Repr

/-- A value in quotes that it does not contain, as far as one of the two will do. -/
def quote (value : String) : String :=
  if value.toList.contains '\x27' then "\"" ++ value ++ "\"" else "'" ++ value ++ "'"

namespace Predicate

def isDisjunction : Predicate → Bool
  | or _ _ => true
  | _ => false

/-- The written form: a disjunction stands in parentheses inside a conjunction. -/
def text : Predicate → String
  | compare name op value => name ++ op.text ++ quote value
  | has name => name
  | lacks name => "!" ++ name
  | not p => "!(" ++ p.text ++ ")"
  | and l r =>
    (if l.isDisjunction then "(" ++ l.text ++ ")" else l.text) ++ " AND " ++
      (if r.isDisjunction then "(" ++ r.text ++ ")" else r.text)
  | or l r => l.text ++ " OR " ++ r.text

end Predicate

/-- The attributes of a tag by name and value. -/
abbrev AttributeValues := List (Bytes × Bytes)

def attributeValues (parts : List TagPart) (input : Bytes) : AttributeValues :=
  (attributesOf parts).map fun a => (a.name.slice input, a.valueBytes input)

/-- The value of the first attribute of a name. -/
def AttributeValues.value? (attributes : AttributeValues) (ignoreCase : Bool) (name : Bytes) :
    Option Bytes :=
  (attributes.find? fun a => Bytes.sameName ignoreCase a.1 name).map (·.2)

/-- The pieces between whitespace bytes, among them the empty ones. -/
def splitWhitespace : Bytes → List Bytes
  | [] => [[]]
  | b :: rest =>
    if Byte.isWhitespace b then [] :: splitWhitespace rest
    else match splitWhitespace rest with
      | piece :: pieces => (b :: piece) :: pieces
      | [] => [[b]]

/-- Whether some piece of the bytes equals the given ones. -/
def occursIn (piece : Bytes) : Bytes → Bool
  | [] => piece.isEmpty
  | b :: rest => piece.isPrefixOf (b :: rest) || occursIn piece rest

/-- Whether a value counts as equal to the wanted one. -/
def equalValue (isClass : Bool) (actual wanted : Bytes) : Bool :=
  actual == wanted || (isClass && (splitWhitespace actual).contains wanted)

def Comparison.holds (op : Comparison) (isClass : Bool) (actual wanted : Bytes) : Bool :=
  match op with
  | equal => equalValue isClass actual wanted
  | notEqual => !equalValue isClass actual wanted
  | startsWith => wanted.isPrefixOf actual
  | endsWith => wanted.isSuffixOf actual
  | contains => occursIn wanted actual

def isClassName (ignoreCase : Bool) (name : Bytes) : Bool :=
  Bytes.sameName ignoreCase name (Bytes.ofString "class")

def Predicate.holds (ignoreCase : Bool) (attributes : AttributeValues) : Predicate → Bool
  | compare name op value =>
    match attributes.value? ignoreCase (Bytes.ofString name) with
    | some actual =>
      op.holds (isClassName ignoreCase (Bytes.ofString name)) actual (Bytes.ofString value)
    | none => false
  | has name => (attributes.value? ignoreCase (Bytes.ofString name)).isSome
  | lacks name => (attributes.value? ignoreCase (Bytes.ofString name)).isNone
  | not p => !p.holds ignoreCase attributes
  | and l r => l.holds ignoreCase attributes && r.holds ignoreCase attributes
  | or l r => l.holds ignoreCase attributes || r.holds ignoreCase attributes

end MarkupStream.Selector
