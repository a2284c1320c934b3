/-
The tables of one trie.

A trie keeps its entries and branches in two tables that only grow: an entry
or a branch that is no longer reachable stays where it is, with the links it
had, so a reader that still stands on it can go on.  Only links change, and
the mark of a branch that was dropped.  All accessors are total; an id outside
its table reads as nothing.
-/
import NibbleTrie.Effect

namespace NibbleTrie

/-- The place of an entry in the entry table. -/
abbrev EntryId := Nat

/-- The place of a branch in the branch table. -/
abbrev BranchId := Nat

/-- A key with its value, and the link to the next entry of its chain. -/
structure Entry (κ : Type u) (ν : Type v) where
  /-- The key, as it was handed in. -/
  key : κ
  /-- The value; another value for the key is another entry. -/
  value : ν
  /-- The entry behind this one in its chain. -/
  next : Option EntryId
  /-- When the key was inserted while absent.  A replacement inherits it, and
  along a chain it strictly falls. -/
  birth : Nat

/-- What a slot of a branch holds. -/
inductive Slot where
  | empty
  /-- The first entry of a chain. -/
  | chain (head : EntryId)
  /-- A branch one level down. -/
  | branch (child : BranchId)
deriving DecidableEq

namespace Slot

/-- A slot that holds the chain with this head, if there is one. -/
def ofHead : Option EntryId → Slot
  | none => empty
  | some e => chain e

/-- The head of the chain a slot holds. -/
def head? : Slot → Option EntryId
  | chain e => some e
  | empty | branch _ => none

/-- True of a slot that holds nothing. -/
def isEmpty : Slot → Bool
  | empty => true
  | chain _ | branch _ => false

/-- True of a slot that holds a branch. -/
def isBranch : Slot → Bool
  | branch _ => true
  | empty | chain _ => false

end Slot

/-- A node with sixteen slots. -/
structure Branch where
  /-- The branch one level up; the root has none. -/
  parent : Option BranchId
  /-- Set once the branch has been dropped from the trie, and never unset. -/
  dead : Bool
  /-- The slots, one for each group. -/
  slots : Vector Slot 16

namespace Branch

/-- A live branch whose slots are all empty. -/
def new (parent : Option BranchId) : Branch := ⟨parent, false, Vector.replicate 16 .empty⟩

/-- The content of a slot. -/
def get (b : Branch) (i : Nibble) : Slot := b.slots[i]

/-- The branch with another content of one slot. -/
def set (b : Branch) (i : Nibble) (s : Slot) : Branch := { b with slots := b.slots.set i s }

/-- True of a branch whose slots are all empty. -/
def isEmpty (b : Branch) : Bool := b.slots.all Slot.isEmpty

end Branch

/-- One trie: its tables and the number of its entries.  Branch 0 is the root. -/
structure Trie (κ : Type u) (ν : Type v) where
  /-- Every entry ever published in the trie. -/
  entries : Array (Entry κ ν)
  /-- Every branch ever published in the trie. -/
  branches : Array Branch
  /-- The running count of entries. -/
  count : Int

/-- A slot of a trie: a branch, a group, and the level whose group selects the slot. -/
structure Site where
  branch : BranchId
  index : Nibble
  level : Nat
deriving DecidableEq

/-- A place that can point at an entry. -/
inductive Link where
  /-- A slot. -/
  | slot (branch : BranchId) (index : Nibble)
  /-- The link of an entry to the next one. -/
  | next (entry : EntryId)
deriving DecidableEq

namespace Trie

variable {κ : Type u} {ν : Type v}

/-- The root of every trie. -/
def root : BranchId := 0

/-- A trie with nothing but its root. -/
def empty : Trie κ ν := ⟨#[], #[Branch.new none], 0⟩

/-- The number of entries, as a size. -/
def size (t : Trie κ ν) : Nat := t.count.toNat

/-- The content of a slot. -/
def slot (t : Trie κ ν) (b : BranchId) (i : Nibble) : Slot :=
  (t.branches[b]?.map (·.get i)).getD .empty

/-- True of a branch that was dropped. -/
def isDead (t : Trie κ ν) (b : BranchId) : Bool :=
  (t.branches[b]?.map (·.dead)).getD true

/-- The branch one level up. -/
def parent? (t : Trie κ ν) (b : BranchId) : Option BranchId :=
  t.branches[b]?.bind (·.parent)

/-- True of a branch whose slots are all empty. -/
def isEmptyBranch (t : Trie κ ν) (b : BranchId) : Bool :=
  (t.branches[b]?.map (·.isEmpty)).getD false

/-- The entry behind `e`, by the link as it is now. -/
def next? (t : Trie κ ν) (e : EntryId) : Option EntryId :=
  t.entries[e]?.bind (·.next)

/-- A bound on the length of a chain from its head: links lead to earlier births. -/
def chainBound (t : Trie κ ν) (head : EntryId) : Nat :=
  (t.entries[head]?.map (·.birth + 1)).getD 0

/-- Writes a slot. -/
def setSlot (t : Trie κ ν) (b : BranchId) (i : Nibble) (s : Slot) : Trie κ ν :=
  { t with branches := t.branches.modify b fun x => x.set i s }

/-- Writes the link of an entry. -/
def setNext (t : Trie κ ν) (e : EntryId) (n : Option EntryId) : Trie κ ν :=
  { t with entries := t.entries.modify e fun x => { x with next := n } }

/-- Writes a link. -/
def setLink (t : Trie κ ν) (l : Link) (n : Option EntryId) : Trie κ ν :=
  match l with
  | .slot b i => t.setSlot b i (.ofHead n)
  | .next e => t.setNext e n

/-- Marks a branch as dropped. -/
def markDead (t : Trie κ ν) (b : BranchId) : Trie κ ν :=
  { t with branches := t.branches.modify b fun x => { x with dead := true } }

/-- Adds an entry to the table; nothing points at it yet. -/
def pushEntry (t : Trie κ ν) (x : Entry κ ν) : Trie κ ν :=
  { t with entries := t.entries.push x }

/-- Adds branches to the table; nothing points at them yet. -/
def pushBranches (t : Trie κ ν) (bs : List Branch) : Trie κ ν :=
  { t with branches := t.branches ++ bs.toArray }

/-- Moves the running count. -/
def addCount (t : Trie κ ν) (n : Int) : Trie κ ν :=
  { t with count := t.count + n }

/-- True of a slot that can still be written: its branch is live and it holds no branch. -/
def isWritable (t : Trie κ ν) (site : Site) : Bool :=
  !t.isDead site.branch && !(t.slot site.branch site.index).isBranch

end Trie

end NibbleTrie
