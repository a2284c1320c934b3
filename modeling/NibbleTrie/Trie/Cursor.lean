/-
Walking a trie step by step.

A cursor holds the branches it is in, each with the slots it has still to look
at, and the entry that it will yield next.  The link of an entry is followed
before the entry is yielded, and a slot is read when the cursor comes to it, so
a step shows the trie as it is then, and an entry in hand stays in hand.
-/
import NibbleTrie.Trie.Basic

namespace NibbleTrie

/-- A branch under a walk, with the slots still to be looked at. -/
structure Frame where
  branch : BranchId
  rest : List Nibble

/-- A walk of a trie that can be left and taken up again. -/
structure Cursor where
  /-- The branches of the walk, innermost first. -/
  stack : List Frame
  /-- The entry that the next step yields. -/
  pending : Option EntryId

namespace Cursor

variable {κ : Type u} {ν : Type v}

/-- A walk that has not begun. -/
def start : Cursor := ⟨[⟨Trie.root, allNibbles⟩], none⟩

/-- The first chain in the given slots of a branch, with the stack to go on with; `down` looks
in a branch one level below, on top of a stack. -/
def seekSlots (t : Trie κ ν) (down : BranchId → List Frame → Option (EntryId × List Frame))
    (b : BranchId) (below : List Frame) : List Nibble → Option (EntryId × List Frame)
  | [] => none
  | i :: rest =>
    match t.slot b i with
    | .empty => seekSlots t down b below rest
    | .chain head => some (head, ⟨b, rest⟩ :: below)
    | .branch child =>
      match down child (⟨b, rest⟩ :: below) with
      | some found => some found
      | none => seekSlots t down b below rest

/-- The first chain below a branch that has at most `levels` levels. -/
def seekBranch (t : Trie κ ν) :
    (levels : Nat) → BranchId → List Frame → Option (EntryId × List Frame)
  | 0, _, _ => none
  | levels + 1, b, below => seekSlots t (seekBranch t levels) b below allNibbles

/-- The first chain that a stack leads to; the depth of a frame fixes the levels below it. -/
def seek (t : Trie κ ν) : List Frame → Option (EntryId × List Frame)
  | [] => none
  | frame :: below =>
    match seekSlots t (seekBranch t (hashGroups - 1 - below.length)) frame.branch below
      frame.rest with
    | some found => some found
    | none => seek t below

/-- Yields the entry `e` and goes on behind it. -/
def yieldEntry (t : Trie κ ν) (stack : List Frame) (e : EntryId) : Option (κ × ν) × Cursor :=
  match t.entries[e]? with
  | some x => (some (x.key, x.value), ⟨stack, x.next⟩)
  | none => (none, ⟨[], none⟩)

/-- One step: the next key and value, or nothing at the end, where the cursor stays. -/
def next (t : Trie κ ν) (c : Cursor) : Option (κ × ν) × Cursor :=
  match c.pending with
  | some e => yieldEntry t c.stack e
  | none =>
    match seek t c.stack with
    | some (e, stack) => yieldEntry t stack e
    | none => (none, ⟨[], none⟩)

/-- The answers of `n` steps. -/
def steps (t : Trie κ ν) : (n : Nat) → Cursor → List (Option (κ × ν)) × Cursor
  | 0, c => ([], c)
  | n + 1, c =>
    let (item, c) := c.next t
    let (items, c) := c.steps t n
    (item :: items, c)

/-- One step of a walk that shows a part of each entry: its key alone, or its value alone. -/
def nextPart (t : Trie κ ν) (part : κ × ν → ρ) (c : Cursor) : Option ρ × Cursor :=
  let (item, c) := c.next t
  (item.map part, c)

/-- The answers of `n` steps of a walk that shows a part of each entry. -/
def stepsPart (t : Trie κ ν) (part : κ × ν → ρ) : (n : Nat) → Cursor → List (Option ρ) × Cursor
  | 0, c => ([], c)
  | n + 1, c =>
    let (item, c) := c.nextPart t part
    let (items, c) := c.stepsPart t part n
    (item :: items, c)

/-- What a walk yields from `c` to its end, up to `fuel` items. -/
def remaining (t : Trie κ ν) : (fuel : Nat) → Cursor → List (κ × ν)
  | 0, _ => []
  | fuel + 1, c =>
    match c.next t with
    | (none, _) => []
    | (some item, c) => item :: c.remaining t fuel

/-- What a walk that shows a part of each entry yields from `c` to its end, up to `fuel` parts. -/
def remainingPart (t : Trie κ ν) (part : κ × ν → ρ) : (fuel : Nat) → Cursor → List ρ
  | 0, _ => []
  | fuel + 1, c =>
    match c.nextPart t part with
    | (none, _) => []
    | (some r, c) => r :: c.remainingPart t part fuel

end Cursor

namespace Trie

variable {κ : Type u} {ν : Type v}

/-- The keys and values of a trie, in the order of its walks.  An entry is reached by one link
alone, so there are no more of them than table rows. -/
def toList (t : Trie κ ν) : List (κ × ν) :=
  Cursor.start.remaining t t.entries.size

/-- A part of each entry of a trie, in the order of its walks. -/
def listOf (t : Trie κ ν) (part : κ × ν → ρ) : List ρ :=
  Cursor.start.remainingPart t part t.entries.size

end Trie

end NibbleTrie
