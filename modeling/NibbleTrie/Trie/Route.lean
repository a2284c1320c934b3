/-
The route of a hash from the root.

The route takes one group of the hash per branch, highest first, and ends on
the first slot that holds no branch.
-/
import NibbleTrie.Trie.Basic

namespace NibbleTrie

namespace Trie

variable {κ : Type u} {ν : Type v}

/-- The route of `h` from the branch `b`, whose slots are selected at the level below `level`:
the slot on which it ends, and the head of the chain held there. -/
def routeFrom (t : Trie κ ν) (h : UInt64) :
    (level : Nat) → (b : BranchId) → Except Fault (Site × Option EntryId)
  | 0, _ => .error .routeExhausted
  | level + 1, b =>
    match t.slot b (nibble h level) with
    | .branch child => t.routeFrom h level child
    | .chain head => .ok (⟨b, nibble h level, level⟩, some head)
    | .empty => .ok (⟨b, nibble h level, level⟩, none)

/-- The route of `h` from the root. -/
def route (t : Trie κ ν) (h : UInt64) : Except Fault (Site × Option EntryId) :=
  t.routeFrom h hashGroups root

end Trie

end NibbleTrie
