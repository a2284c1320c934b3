/-
Tries with branches built ahead.

For a large capacity hint the upper levels of a trie are built before the
first insert, so that the first inserts need not split slots.  The hint is no
limit.
-/
import NibbleTrie.Trie.Basic

namespace NibbleTrie

/-- The greatest number of levels built ahead. -/
def maxPrebuiltLevels : Nat := 3

/-- How many slots there are in the lowest of `levels` full levels below a root. -/
def slotsAt (levels : Nat) : Nat := 1 <<< shiftOf (levels + 1)

/-- How many levels are built for a capacity hint: as many as have no more slots than the hint,
up to the limit. -/
def levelsFor (capacity : Nat) : Nat :=
  upTo maxPrebuiltLevels
where
  /-- The greatest such number up to `levels`. -/
  upTo : (levels : Nat) → Nat
    | 0 => 0
    | levels + 1 => if slotsAt (levels + 1) ≤ capacity then levels + 1 else upTo levels

namespace Trie

variable {κ : Type u} {ν : Type v}

/-- Fills every slot of a branch with empty branches, `levels` deep. -/
def fillLevels : (levels : Nat) → (b : BranchId) → Trie κ ν → Trie κ ν
  | 0, _, t => t
  | levels + 1, b, t =>
    allNibbles.foldl (fun t i =>
      let child := t.branches.size
      fillLevels levels child
        ((t.pushBranches [Branch.new (some b)]).setSlot b i (.branch child))) t

/-- A trie without entries that has `levels` full levels of branches below its root. -/
def prebuilt (levels : Nat) : Trie κ ν := fillLevels levels root empty

end Trie

end NibbleTrie
