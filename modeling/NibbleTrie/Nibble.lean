/-
Four-bit groups of a hash.

The trie reads a 64-bit hash one group at a time, from the top group down to
the bottom one.  A level names a group: level 0 is the lowest group and level
15 the highest, so the level that holds a group is also the number of groups
below it.  This module holds the group of a hash at a level and the level on
which two hashes part.
-/

namespace NibbleTrie

/-- A group of four bits; it selects one of the sixteen slots of a branch. -/
abbrev Nibble := Fin 16

/-- Groups in a hash, and so the greatest number of branches on one path. -/
def hashGroups : Nat := 16

/-- The number of hash bits below the group at `level`. -/
def shiftOf (level : Nat) : Nat := 4 * level

/-- The group of `h` at `level`, counted from the lowest group. -/
def nibble (h : UInt64) (level : Nat) : Nibble :=
  Fin.ofNat 16 (h.toNat >>> shiftOf level)

/-- The highest level below `level` on which two hashes have different groups. -/
def splitLevel (h₁ h₂ : UInt64) : (level : Nat) → Option Nat
  | 0 => none
  | level + 1 =>
    if nibble h₁ level = nibble h₂ level then splitLevel h₁ h₂ level else some level

/-- All groups in slot order. -/
def allNibbles : List Nibble := List.finRange 16

end NibbleTrie
