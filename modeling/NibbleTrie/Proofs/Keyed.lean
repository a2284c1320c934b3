/-
Where an entry may stand.

For a lawful kind of keys the hash of an entry's key decides its slot.
`Routed hash path t` adds this to the layout: an entry stands in a slot on the
way of its hash, and one chain has one hash.  `Keyed hash path t` adds that
along a chain, also one that is followed from an entry that is no longer
reachable, no two keys are equal.

Main statements: an entry of a key is in the one slot on the way of its hash
(`Keyed.mem_chainAt`); a key has one entry (`Keyed.eq_of_live`); a branch on the
way of a present key is not empty (`Layout.slot_ne_empty`).
-/
import Mathlib.Data.List.Pairwise
import NibbleTrie.Proofs.Listing

namespace NibbleTrie

/-- Equal keys have equal hashes. -/
structure Lawful {κ : Type u} [BEq κ] (hash : κ → UInt64) : Prop where
  hash_eq : ∀ {a b : κ}, (a == b) = true → hash a = hash b

/-- The hash function under which all keys collide. -/
theorem Lawful.const {κ : Type u} [BEq κ] (h : UInt64) : Lawful fun _ : κ => h := ⟨fun _ => rfl⟩

/-- Keys that are equal if they have the same name, with any hash. -/
structure Tagged where
  name : Nat
  hash : UInt64
deriving DecidableEq

instance : BEq Tagged := ⟨fun a b => a.name == b.name⟩

namespace Trie

variable {κ : Type u} {ν : Type v} [BEq κ] {t t' : Trie κ ν} {path : BranchId → List Nibble}
  {hash : κ → UInt64}

/-- The entries `a` and `a'` have different keys. -/
def KeyNe (t : Trie κ ν) (a a' : EntryId) : Prop :=
  ∀ x x', t.entries[a]? = some x → t.entries[a']? = some x' → (x.key == x'.key) = false

instance [EquivBEq κ] : Std.Symm t.KeyNe :=
  ⟨fun _ _ h x x' hx hx' => BEq.comm.trans (h x' x hx' hx)⟩

omit [BEq κ] in
/-- A trie whose branches have the paths `path` and whose entries stand where their hashes put
them. -/
structure Routed (hash : κ → UInt64) (path : BranchId → List Nibble) (t : Trie κ ν) : Prop
    extends Layout path t where
  way : ∀ {b i e x}, e ∈ t.chainAt b i → t.entries[e]? = some x →
    path b ++ [i] <+: digits (hash x.key)
  same : ∀ {b i e e' x x'}, e ∈ t.chainAt b i → e' ∈ t.chainAt b i → t.entries[e]? = some x →
    t.entries[e']? = some x' → hash x.key = hash x'.key

/-- A trie whose entries stand where their hashes put them, and along whose chains no two keys
are equal. -/
structure Keyed (hash : κ → UInt64) (path : BranchId → List Nibble) (t : Trie κ ν) : Prop
    extends Routed hash path t where
  distinct : ∀ {e}, e < t.entries.size → (t.chain e).Pairwise t.KeyNe

/-- Some entry of the trie has a key equal to `k`. -/
def Present (t : Trie κ ν) (k : κ) : Prop :=
  ∃ e x, t.Live e ∧ t.entries[e]? = some x ∧ (x.key == k) = true

namespace Layout

omit [BEq κ]

/-- A chain with an entry begins with the head that its slot holds. -/
theorem exists_head (L : Layout path t) {b : BranchId} {i : Nibble} {e : EntryId}
    (he : e ∈ t.chainAt b i) : ∃ head, t.slot b i = .chain head ∧ head < t.entries.size ∧
      t.chainAt b i = t.chain head ∧ head ∈ t.chainAt b i := by
  obtain ⟨head, hs⟩ := slot_of_mem_chainAt he
  exact ⟨head, hs, L.head_lt hs, chainAt_of_chain hs, L.head_mem_chainAt hs⟩

/-- A branch on the way of a hash with an entry below it or in it is not empty there. -/
theorem slot_ne_empty (L : Layout path t) {h : UInt64} {b c : BranchId} {i : Nibble}
    {e : EntryId} (hc : t.isDead c = false) (hpre : path c <+: digits h)
    (he : e ∈ t.chainAt b i) (hway : path b ++ [i] <+: digits h) :
    t.slot c (nibble h (15 - (path c).length)) ≠ .empty := by
  intro hs
  have hpre' : path c ++ [nibble h (15 - (path c).length)] <+: digits h :=
    concat_prefix_digits.mpr ⟨hpre, L.depth hc, rfl⟩
  have hb := L.live_of_mem_chainAt he
  have hsame : c = b ∧ nibble h (15 - (path c).length) = i := by
    rcases Nat.le_total (path c).length (path b).length with hle | hle
    · exact L.eq_of_prefix hc hb (by rw [hs]; rfl)
        (prefix_of_digits hpre' hway (by simpa using hle))
    · have := L.eq_of_prefix hb hc (not_branch_of_mem_chainAt he)
        (prefix_of_digits hway hpre' (by simpa using hle))
      exact ⟨this.1.symm, this.2.symm⟩
  obtain ⟨rfl, hi⟩ := hsame
  rw [hi] at hs
  rw [chainAt_of_empty hs] at he
  cases he

/-- The search from a slot on the way of a hash finds the first hit of the slot's chain. -/
theorem locate_some [BEq κ] (L : Layout path t) {site : Site} {k : κ} {accept : ν → Bool}
    {x : Placed κ ν} (h : t.locate site k accept = .ok (some x)) :
    ∃ l₁ l₂, t.chainAt site.branch site.index = l₁ ++ x.id :: l₂ ∧
      t.entries[x.id]? = some x.entry ∧ (x.entry.key == k) = true ∧
      accept x.entry.value = true ∧ x.link = linkAfter (.slot site.branch site.index) l₁ := by
  obtain ⟨l₁, l₂, hc, hx, hk, ha, _, hlink⟩ :=
    (L.linked_chainAt site.branch site.index).locate_some h
  exact ⟨l₁, l₂, hc, hx, hk, ha, hlink⟩

theorem locate_none [BEq κ] (L : Layout path t) {site : Site} {k : κ} {accept : ν → Bool}
    (h : t.locate site k accept = .ok none) :
    ∀ a ∈ t.chainAt site.branch site.index, t.hit k accept a = false := by
  cases hs : t.slot site.branch site.index with
  | empty => simp [chainAt_of_empty hs]
  | branch _ => simp [locate, hs] at h
  | chain head =>
    simp only [locate, hs, Except.ok.injEq] at h
    rw [chainAt_of_chain hs]
    exact locateFrom_none (linked_chain L.falling (L.head_lt hs))
      (length_chain_le L.falling (L.head_lt hs)) h

/-- In a slot that holds no branch the search ends. -/
theorem exists_locate [BEq κ] {site : Site} (hs : (t.slot site.branch site.index).isBranch = false)
    (k : κ) (accept : ν → Bool) : ∃ r, t.locate site k accept = .ok r := by
  cases h : t.slot site.branch site.index with
  | empty => exact ⟨none, by simp [locate, h]⟩
  | chain _ => exact ⟨_, by simp [locate, h]; rfl⟩
  | branch _ => rw [h] at hs; cases hs

end Layout

namespace Routed

omit [BEq κ]

theorem of_no_entries (L : Layout path t) (h : t.entries = #[]) : Routed hash path t where
  toLayout := L
  way _ hx := by simp [h] at hx
  same _ _ hx := by simp [h] at hx

/-- A slot is on the way of the hash of its entries. -/
theorem fits_of_mem (K : Routed hash path t) {b : BranchId} {i : Nibble} {e : EntryId}
    {x : Entry κ ν} (he : e ∈ t.chainAt b i) (hx : t.entries[e]? = some x) :
    Fits path t (hash x.key) ⟨b, i, 15 - (path b).length⟩ :=
  K.fits_of_way (K.live_of_mem_chainAt he) (K.way he hx)

/-- All entries of one hash are in the one slot on the way of the hash that holds no branch. -/
theorem mem_chainAt_of_hash (K : Routed hash path t) {h : UInt64} {site : Site}
    (F : Fits path t h site) (hs : (t.slot site.branch site.index).isBranch = false) {e : EntryId}
    {x : Entry κ ν} (he : t.Live e) (hx : t.entries[e]? = some x) (hh : hash x.key = h) :
    e ∈ t.chainAt site.branch site.index := by
  obtain ⟨b, i, he⟩ := he
  have F' := K.fits_of_mem he hx
  rw [hh] at F'
  rw [← K.slot_unique F' F (Layout.not_branch_of_mem_chainAt he) hs]
  exact he

end Routed

namespace Keyed

theorem of_no_entries (L : Layout path t) (h : t.entries = #[]) : Keyed hash path t where
  toRouted := .of_no_entries L h
  distinct he := by simp [h] at he

/-- Along a chain a key has one entry. -/
theorem eq_of_mem_chain [EquivBEq κ] (K : Keyed hash path t) {e a a' : EntryId}
    {x x' : Entry κ ν} (he : e < t.entries.size) (ha : a ∈ t.chain e) (ha' : a' ∈ t.chain e)
    (hx : t.entries[a]? = some x) (hx' : t.entries[a']? = some x')
    (hk : (x.key == x'.key) = true) : a = a' := by
  by_contra hne
  have := (K.distinct he).forall ha ha' hne x x' hx hx'
  rw [this] at hk
  cases hk

variable (law : Lawful hash)
include law

/-- The entry of a key is in the one slot on the way of its hash that holds no branch. -/
theorem mem_chainAt (K : Keyed hash path t) {k : κ} {site : Site}
    (F : Fits path t (hash k) site) (hs : (t.slot site.branch site.index).isBranch = false)
    {e : EntryId} {x : Entry κ ν} (he : t.Live e) (hx : t.entries[e]? = some x)
    (hk : (x.key == k) = true) : e ∈ t.chainAt site.branch site.index :=
  K.mem_chainAt_of_hash F hs he hx (law.hash_eq hk)

/-- A key has one entry. -/
theorem eq_of_live [EquivBEq κ] (K : Keyed hash path t) {e e' : EntryId} {x x' : Entry κ ν} (he : t.Live e)
    (he' : t.Live e') (hx : t.entries[e]? = some x) (hx' : t.entries[e']? = some x')
    (hk : (x.key == x'.key) = true) : e = e' := by
  obtain ⟨b, i, hmem⟩ := he'
  have hmem' := K.mem_chainAt law (K.fits_of_mem hmem hx')
    (Layout.not_branch_of_mem_chainAt hmem) he hx hk
  obtain ⟨head, _, hlt, hchain, _⟩ := K.exists_head hmem
  simp only at hmem'
  rw [hchain] at hmem hmem'
  exact K.eq_of_mem_chain hlt hmem' hmem hx hx' hk

/-- A slot on the way of a present key is not empty. -/
theorem slot_ne_empty_of_present (K : Keyed hash path t) {k : κ} (hk : t.Present k) {b : BranchId}
    {i : Nibble} (hb : t.isDead b = false) (hpre : path b ++ [i] <+: digits (hash k)) :
    t.slot b i ≠ .empty := by
  obtain ⟨e, x, ⟨b', i', he⟩, hx, hxk⟩ := hk
  obtain ⟨hpath, _, rfl⟩ := concat_prefix_digits.mp hpre
  exact K.slot_ne_empty hb hpath he (law.hash_eq hxk ▸ K.way he hx)

/-- If the search from the slot of a key finds no entry for it, there is none. -/
theorem not_present_of_locate (K : Keyed hash path t) {k : κ} {site : Site}
    (F : Fits path t (hash k) site) (hs : (t.slot site.branch site.index).isBranch = false)
    {accept : ν → Bool} (h : t.locate site k accept = .ok none) :
    ∀ e x, t.Live e → t.entries[e]? = some x → (x.key == k) = true → accept x.value = false := by
  intro e x he hx hk
  have := K.locate_none h e (K.mem_chainAt law F hs he hx hk)
  rw [hit_of_entry hx, hk, Bool.true_and] at this
  exact this

end Keyed

end Trie

end NibbleTrie
