/-
A map and its generations.

A map is a hash function and a trie.  Clearing the map puts an empty trie in
the place of the current one; the old trie is kept as a detached generation,
since a walk or an operation that began on it goes on there.  An operation
first arrives at a slot without any hold on it, and later holds the slot it
arrived at, if the slot can still be written.
-/
import NibbleTrie.Trie.Cursor
import NibbleTrie.Trie.Insertion
import NibbleTrie.Trie.Prebuilt
import NibbleTrie.Trie.Removal
import NibbleTrie.Trie.Route
import NibbleTrie.Trie.Sweep

namespace NibbleTrie

/-- A map from keys to values. -/
structure TrieMap (κ : Type u) (ν : Type v) where
  /-- The hash of a key.  Nothing is assumed of it. -/
  hash : κ → UInt64
  /-- The tries given up by `clear`, oldest first. -/
  detached : Array (Trie κ ν)
  /-- The trie on which new operations begin. -/
  current : Trie κ ν

/-- Where an operation arrived from the root, with no hold on the slot. -/
structure Arrival where
  /-- The generation of the trie. -/
  generation : Nat
  /-- The slot. -/
  site : Site
  /-- The head of the chain that the slot held then. -/
  head : Option EntryId

/-- A slot that an operation holds: its branch is live and it holds no branch. -/
structure Held where
  /-- The generation of the trie. -/
  generation : Nat
  /-- The slot. -/
  site : Site

namespace TrieMap

variable {κ : Type u} {ν : Type v}

/-- An empty map without branches built ahead. -/
def empty (hash : κ → UInt64) : TrieMap κ ν := ⟨hash, #[], Trie.empty⟩

/-- An empty map with branches built ahead for about `capacity` entries. -/
def withCapacity (hash : κ → UInt64) (capacity : Nat) : Effect (TrieMap κ ν) Unit :=
  let levels := levelsFor capacity
  ⟨.ok (), ⟨hash, #[], Trie.prebuilt levels⟩,
    if levels = 0 then [] else [.prebuilt levels capacity]⟩

/-- The generation of the current trie. -/
def generation (m : TrieMap κ ν) : Nat := m.detached.size

/-- The trie of a generation. -/
def trieAt (m : TrieMap κ ν) (g : Nat) : Trie κ ν := m.detached[g]?.getD m.current

/-- Changes the trie of a generation. -/
def update (m : TrieMap κ ν) (g : Nat) (change : Trie κ ν → Effect (Trie κ ν) ρ) :
    Effect (TrieMap κ ν) ρ :=
  match m with
  | ⟨hash, detached, current⟩ =>
    match detached[g]? with
    | some t =>
      let e := change t
      ⟨e.result, ⟨hash, detached.setIfInBounds g e.state, current⟩, e.events⟩
    | none =>
      let e := change current
      ⟨e.result, ⟨hash, detached, e.state⟩, e.events⟩

/-- The number of entries. -/
def size (m : TrieMap κ ν) : Nat := m.current.size

/-- True of a map without entries. -/
def isEmpty (m : TrieMap κ ν) : Bool := m.size == 0

/-- The keys and values in the order of a walk. -/
def toList (m : TrieMap κ ν) : List (κ × ν) := m.current.toList

/-- A part of each entry, in the order of a walk. -/
def listOf (m : TrieMap κ ν) (part : κ × ν → ρ) : List ρ := m.current.listOf part

/-- Gives up the current trie for an empty one. -/
def clear (m : TrieMap κ ν) : Effect (TrieMap κ ν) Unit :=
  ⟨.ok (), ⟨m.hash, m.detached.push m.current, Trie.empty⟩, [.cleared]⟩

/-! ## Reaching a slot -/

/-- Where the route of a hash through the current trie arrives. -/
def arrive (m : TrieMap κ ν) (h : UInt64) : Except Fault Arrival :=
  (m.current.route h).map fun (site, head) => ⟨m.generation, site, head⟩

/-- Holds the slot of an arrival, unless it was split or its branch was dropped since. -/
def hold? (m : TrieMap κ ν) (a : Arrival) : Option Held :=
  if (m.trieAt a.generation).isWritable a.site then some ⟨a.generation, a.site⟩ else none

/-- Holds the slot of a hash.  One arrival decides: another one in the unchanged map would end
at the same slot. -/
def holdSlot (m : TrieMap κ ν) (h : UInt64) : Except Fault Held :=
  match m.arrive h with
  | .error f => .error f
  | .ok a =>
    match m.hold? a with
    | some held => .ok held
    | none => .error .unsettled

/-- Holds the slot of an arrival if the chain from the head found there has an entry for `k`
with an accepted value.  If the slot can no longer be held, begins again from the root, at most
`retries` times. -/
def holdMatching [BEq κ] (m : TrieMap κ ν) (k : κ) (accept : ν → Bool) :
    (retries : Nat) → Arrival → Except Fault (Option Held)
  | retries, a =>
    match a.head.bind fun head => (m.trieAt a.generation).search head k accept with
    | none => .ok none
    | some _ =>
      match m.hold? a, retries with
      | some held, _ => .ok (some held)
      | none, 0 => .error .unsettled
      | none, retries + 1 =>
        match m.arrive (m.hash k) with
        | .error f => .error f
        | .ok a => m.holdMatching k accept retries a

end TrieMap

end NibbleTrie
