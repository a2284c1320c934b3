/-
A short account of many entries: their number, the sums of their keys and
values, and a number that depends on their order.
-/
import NibbleTrie.Key
import NibbleTrie.Value

namespace NibbleTrie

/-- An account of some entries in order. -/
structure Digest where
  /-- How many there are. -/
  size : Nat
  /-- The sum of the words of their keys. -/
  keySum : UInt64
  /-- The sum of their values. -/
  valueSum : Int64
  /-- The words of their keys as digits to the base 31, first key first. -/
  order : UInt64

/-- The account of some entries. -/
def Digest.ofList {κ : Type u} {ν : Type v} [Key κ] [Datum ν] (entries : List (κ × ν)) : Digest :=
  entries.foldl (fun d (k, v) =>
    ⟨d.size + 1, d.keySum + Key.word k, d.valueSum + Datum.toInt v, d.order * 31 + Key.word k⟩)
    ⟨0, 0, 0, 0⟩

end NibbleTrie
