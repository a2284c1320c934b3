/-
Values of a session.

A session stores values of several kinds in one map.  Values are compared part
by part; a number that differs from itself makes every list around it differ
from itself too.  A value has a text on one line, and a spread one with a line
for every item of a list.
-/
import NibbleTrie.Decimal
import NibbleTrie.Text.Quoted

namespace NibbleTrie

/-- What a session needs of its values. -/
class Datum (ν : Type u) extends BEq ν where
  /-- The value of a counter. -/
  ofInt : Int64 → ν
  /-- What a value adds to a sum; a value that is no integer adds nothing. -/
  toInt : ν → Int64
  /-- The text of a value on one line. -/
  render : ν → String
  /-- The spread text of a value, indented by `margin` from its second line on. -/
  renderSpread : (margin : Nat) → ν → String

/-- A value of one of several kinds. -/
inductive Value where
  | null
  | bool (b : Bool)
  | int (n : Int64)
  | decimal (x : Decimal)
  | text (s : String)
  | list (items : List Value)

namespace Value

mutual

/-- Equality of values; values of different kinds differ. -/
def same : Value → Value → Bool
  | null, null => true
  | bool a, bool b => a == b
  | int a, int b => a == b
  | decimal a, decimal b => a == b
  | text a, text b => a == b
  | list as, list bs => sameAll as bs
  | _, _ => false

/-- Equality of lists of values. -/
def sameAll : List Value → List Value → Bool
  | [], [] => true
  | a :: as, b :: bs => same a b && sameAll as bs
  | _, _ => false

end

instance : BEq Value := ⟨same⟩

/-- The text of a value that is no list. -/
def renderAtom : Value → String
  | null => "null"
  | bool b => if b then "true" else "false"
  | int n => toString n.toInt
  | decimal x => x.render
  | text s => quoted s
  | list _ => ""

mutual

/-- The text of a value on one line. -/
def render : Value → String
  | list items => "[" ++ renderItems items ++ "]"
  | v => renderAtom v

/-- The items of a list, with commas between them. -/
def renderItems : List Value → String
  | [] => ""
  | [v] => render v
  | v :: vs => render v ++ ", " ++ renderItems vs

end

/-- A line break and a margin. -/
def newline (margin : Nat) : String := "\n" ++ String.ofList (List.replicate margin ' ')

/-- How far an item of a spread list or map stands to the right of what encloses it. -/
def indent : Nat := 4

mutual

/-- The spread text of a value: every item of a list on a line of its own, with a comma. -/
def renderSpread (margin : Nat) : Value → String
  | list [] => "[]"
  | list (v :: vs) =>
    "[" ++ newline (margin + indent) ++ renderSpread (margin + indent) v ++ "," ++
      renderSpreadItems margin vs ++ newline margin ++ "]"
  | v => renderAtom v

/-- The items of a spread list, each on a line of its own. -/
def renderSpreadItems (margin : Nat) : List Value → String
  | [] => ""
  | v :: vs =>
    newline (margin + indent) ++ renderSpread (margin + indent) v ++ "," ++
      renderSpreadItems margin vs

end

/-- What a value adds to a sum. -/
def toInt : Value → Int64
  | int n => n
  | _ => 0

instance : Datum Value where
  ofInt := int
  toInt := toInt
  render := render
  renderSpread := renderSpread

end Value

end NibbleTrie
