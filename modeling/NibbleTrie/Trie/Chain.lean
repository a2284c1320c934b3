/-
Chains of entries.

Entries whose hashes agree in full hang behind one another in one slot.  There
are two searches: one follows the links from an entry in hand and needs no
hold on the slot, the other starts at the slot and also returns the link that
points at what it found, so that replacing or unlinking is one write to that
link wherever the entry stands.  Keys are compared with `==` and hashes are not
looked at.
-/
import NibbleTrie.Trie.Basic

namespace NibbleTrie

/-- An entry found by the search from a slot, with the link that points at it. -/
structure Placed (κ : Type u) (ν : Type v) where
  /-- The slot, or the link of the entry in front. -/
  link : Link
  /-- The place of the entry. -/
  id : EntryId
  /-- The entry itself. -/
  entry : Entry κ ν

namespace Trie

variable {κ : Type u} {ν : Type v} [BEq κ]

/-- The first of at most `fuel` entries from `cur` on with key `k` and an accepted value. -/
def searchFrom (t : Trie κ ν) (k : κ) (accept : ν → Bool) :
    (fuel : Nat) → (cur : Option EntryId) → Option (EntryId × Entry κ ν)
  | 0, _ | _, none => none
  | fuel + 1, some e =>
    match t.entries[e]? with
    | none => none
    | some x =>
      if x.key == k && accept x.value then some (e, x) else t.searchFrom k accept fuel x.next

/-- The first entry from `head` on with key `k` and an accepted value. -/
def search (t : Trie κ ν) (head : EntryId) (k : κ) (accept : ν → Bool) :
    Option (EntryId × Entry κ ν) :=
  t.searchFrom k accept (t.chainBound head) (some head)

/-- Like `searchFrom`, with the link that leads to `cur`. -/
def locateFrom (t : Trie κ ν) (k : κ) (accept : ν → Bool) :
    (fuel : Nat) → (link : Link) → (cur : Option EntryId) → Option (Placed κ ν)
  | 0, _, _ | _, _, none => none
  | fuel + 1, link, some e =>
    match t.entries[e]? with
    | none => none
    | some x =>
      if x.key == k && accept x.value then some ⟨link, e, x⟩
      else t.locateFrom k accept fuel (.next e) x.next

/-- The first entry in the chain of a slot with key `k` and an accepted value. -/
def locate (t : Trie κ ν) (site : Site) (k : κ) (accept : ν → Bool) :
    Except Fault (Option (Placed κ ν)) :=
  match t.slot site.branch site.index with
  | .empty => .ok none
  | .chain head =>
    .ok (t.locateFrom k accept (t.chainBound head) (.slot site.branch site.index) (some head))
  | .branch _ => .error .branchInChain

omit [BEq κ]

/-- Puts a new entry with `k` and `v` in the place of a found one, which keeps its own link. -/
def replace (t : Trie κ ν) (x : Placed κ ν) (k : κ) (v : ν) : Trie κ ν :=
  let fresh := t.entries.size
  (t.pushEntry ⟨k, v, x.entry.next, x.entry.birth⟩).setLink x.link (some fresh)

/-- Takes a found entry out of its chain; it keeps its own link. -/
def unlink (t : Trie κ ν) (x : Placed κ ν) : Trie κ ν :=
  (t.setLink x.link x.entry.next).addCount (-1)

/-- The entries of the chain from `cur` on, by the links as they are now. -/
def chainFrom (t : Trie κ ν) : (fuel : Nat) → (cur : Option EntryId) → List EntryId
  | 0, _ | _, none => []
  | fuel + 1, some e => e :: t.chainFrom fuel (t.next? e)

/-- The chain that begins with `head`. -/
def chain (t : Trie κ ν) (head : EntryId) : List EntryId :=
  t.chainFrom (t.chainBound head) (some head)

end Trie

end NibbleTrie
