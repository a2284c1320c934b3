/-
Decimal numbers with the equality of floating-point arithmetic.

Beside the finite numbers, which have a sign also at zero, there are two
infinities and the result of an undefined calculation.  The latter differs from
everything, itself included, and the two zeros are equal.
-/

namespace NibbleTrie

/-- A number that is compared as floating-point numbers are. -/
inductive Decimal where
  /-- The result of an undefined calculation. -/
  | nan
  /-- Beyond all finite numbers. -/
  | infinite (negative : Bool)
  /-- A number of units of the decimal place `places + 1` behind the point, with a sign. -/
  | finite (negative : Bool) (units places : Nat)

namespace Decimal

/-- How many units of the decimal place `n` behind the point make up one. -/
def scale : (n : Nat) → Nat
  | 0 => 1
  | n + 1 => 10 * scale n

/-- Equality of numbers; not reflexive. -/
def same : Decimal → Decimal → Bool
  | infinite s, infinite s' => s == s'
  | finite s u p, finite s' u' p' =>
    u * scale p' == u' * scale p && (s == s' || u == 0)
  | _, _ => false

instance : BEq Decimal := ⟨same⟩

/-- The text of a number: a point always, and a digit at least on either side of it. -/
def render : Decimal → String
  | nan => "NaN"
  | infinite negative => if negative then "-inf" else "inf"
  | finite negative units places =>
    let one := scale (places + 1)
    let digits := Nat.toDigits 10 (units % one)
    let fraction := List.replicate (places + 1 - digits.length) '0' ++ digits
    (if negative then "-" else "") ++ toString (units / one) ++ "." ++ String.ofList fraction

/-- The number of a non-empty run of digits. -/
def digitsOf? (cs : List Char) : Option Nat :=
  if cs.isEmpty || !cs.all Char.isDigit then none
  else some (cs.foldl (fun n c => 10 * n + (c.toNat - '0'.toNat)) 0)

/-- The finite number with the given digits before and behind the point. -/
def ofParts? (negative : Bool) (whole fraction : List Char) : Option Decimal := do
  let fraction := ((fraction.reverse.dropWhile (· == '0')).reverse)
  let fraction := if fraction.isEmpty then ['0'] else fraction
  let w ← digitsOf? whole
  let f ← digitsOf? fraction
  let places := fraction.length - 1
  return finite negative (w * scale (places + 1) + f) places

/-- Reads the text of a number. -/
def ofText? (s : String) : Option Decimal :=
  match s.toList with
  | ['N', 'a', 'N'] => some nan
  | ['i', 'n', 'f'] => some (infinite false)
  | ['-', 'i', 'n', 'f'] => some (infinite true)
  | '-' :: cs => parts? true cs
  | cs => parts? false cs
where
  /-- Splits digits at the point. -/
  parts? (negative : Bool) (cs : List Char) : Option Decimal :=
    ofParts? negative (cs.takeWhile (· != '.')) ((cs.dropWhile (· != '.')).drop 1)

end Decimal

end NibbleTrie
