/-
Inserting into a slot.

A fresh entry takes an empty slot, becomes the head of a chain of its own
hash, or splits the slot: nested branches take its place, one for each group
that the two hashes have in common and one more on which they part.  The old
chain is moved whole, and its hash is that of its head.
-/
import NibbleTrie.Trie.Basic

namespace NibbleTrie

/-- The nested branches that part the chain `old` of hash `h₁` from the entry `fresh` of hash
`h₂`, outermost first.  The outermost one stands at `level`, below `parent`, and gets the id
`first`.  There are none if the hashes agree on all groups below `level`. -/
def splitBranches (h₁ h₂ : UInt64) (old fresh : EntryId) :
    (level : Nat) → (parent first : BranchId) → Option (List Branch)
  | 0, _, _ => none
  | level + 1, parent, first =>
    if nibble h₁ level = nibble h₂ level then
      (splitBranches h₁ h₂ old fresh level first (first + 1)).map fun below =>
        (Branch.new (some parent)).set (nibble h₁ level) (.branch (first + 1)) :: below
    else
      some [((Branch.new (some parent)).set (nibble h₁ level) (.chain old)).set
        (nibble h₂ level) (.chain fresh)]

namespace Trie

variable {κ : Type u} {ν : Type v}

/-- Adds an entry and branches, lets a slot hold `s`, and counts one entry more. -/
def publish (t : Trie κ ν) (site : Site) (x : Entry κ ν) (bs : List Branch) (s : Slot) :
    Trie κ ν :=
  (((t.pushEntry x).pushBranches bs).setSlot site.branch site.index s).addCount 1

/-- The hash of the chain with this head. -/
def chainHash (t : Trie κ ν) (hash : κ → UInt64) (head : EntryId) : Option UInt64 :=
  t.entries[head]?.map fun x => hash x.key

/-- Inserts an entry for a key of hash `h` that its slot is known not to hold. -/
def insertAt (t : Trie κ ν) (hash : κ → UInt64) (site : Site) (h : UInt64) (k : κ) (v : ν) :
    Effect (Trie κ ν) Unit :=
  let fresh := t.entries.size
  match t.slot site.branch site.index with
  | .branch _ => .fail t .branchInChain
  | .empty => .pure (t.publish site ⟨k, v, none, fresh⟩ [] (.chain fresh)) ()
  | .chain head =>
    let h₁ := (t.chainHash hash head).getD h
    if h₁ = h then
      ⟨.ok (), t.publish site ⟨k, v, some head, fresh⟩ [] (.chain fresh), [.chained site.level]⟩
    else
      let first := t.branches.size
      match splitBranches h₁ h head fresh site.level site.branch first with
      | none => .fail t .splitExhausted
      | some bs =>
        ⟨.ok (), t.publish site ⟨k, v, none, fresh⟩ bs (.branch first),
          [.split bs.length (site.level - bs.length)]⟩

end Trie

end NibbleTrie
