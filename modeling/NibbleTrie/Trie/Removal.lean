/-
Removing from a slot.

When the last entry of a slot goes, the branch of the slot may be left empty.
It is then dropped: marked dead, and cleared from its parent's slot.  That can
leave the parent empty, and so on upwards.  The root is never dropped.
-/
import NibbleTrie.Trie.Chain

namespace NibbleTrie

namespace Trie

variable {κ : Type u} {ν : Type v}

/-- Drops empty branches from `b` upwards along the path of `h`.  The slots of `b` are selected
at `level`, and fewer than `fuel` branches stand above it. -/
def dropEmptyFrom (h : UInt64) :
    (fuel : Nat) → (b : BranchId) → (level : Nat) → Trie κ ν → Trie κ ν × List Event
  | 0, _, _, t => (t, [])
  | fuel + 1, b, level, t =>
    match t.parent? b with
    | none => (t, [])
    | some p =>
      if t.isEmptyBranch b then
        let (t, events) := dropEmptyFrom h fuel p (level + 1)
          ((t.markDead b).setSlot p (nibble h (level + 1)) .empty)
        (t, .dropped (level + 1) :: events)
      else
        (t, [])

/-- Drops the branches that are empty from a slot of the path of `h` upwards. -/
def dropEmpty (t : Trie κ ν) (site : Site) (h : UInt64) : Trie κ ν × List Event :=
  dropEmptyFrom h (hashGroups - site.level) site.branch site.level t

/-- Takes an entry out of the chain of a slot, and drops the branches this leaves empty. -/
def removeAt (t : Trie κ ν) (site : Site) (h : UInt64) (x : Placed κ ν) : Trie κ ν × List Event :=
  let t := t.unlink x
  if (t.slot site.branch site.index).isEmpty then t.dropEmpty site h else (t, [])

end Trie

end NibbleTrie
