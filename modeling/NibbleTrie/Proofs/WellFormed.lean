/-
What can be found in a trie by following links.

`Reach t p l` says that the link `l` is met by going down through the slots `p`
from the root, and then along the chain in the last of them.  `WellFormed` says
what is met there, and nothing in it speaks of paths that branches have: an
entry is where its hash puts it, an equal hash is in the same chain, an equal
key is the same entry, everything met is held by one link, and every branch met
is live, knows its parent, and has a group of the hash to select its slots by.

Main statement: with lawful keys the current trie is well formed in every
reachable moment and at every reachable instant (`current_wellFormed`).
-/
import NibbleTrie.Proofs.InstantSound
import NibbleTrie.Proofs.Running

namespace NibbleTrie

namespace Trie

variable {κ : Type u} {ν : Type v} {t : Trie κ ν} {path : BranchId → List Nibble}

/-- What a link holds: nothing, an entry, or a branch. -/
def target (t : Trie κ ν) : Link → Slot
  | .slot b i => t.slot b i
  | .next e => .ofHead (t.next? e)

/-- The link `l` is met on the way through the slots `p`. -/
inductive Reach (t : Trie κ ν) : List Nibble → Link → Prop
  | root (i : Nibble) : Reach t [i] (.slot root i)
  | down {p l c} (i : Nibble) : Reach t p l → t.target l = .branch c → Reach t (p ++ [i]) (.slot c i)
  | along {p l e} : Reach t p l → t.target l = .chain e → Reach t p (.next e)

/-- What holds of everything that is met. -/
structure WellFormed [BEq κ] (hash : κ → UInt64) (t : Trie κ ν) : Prop where
  /-- The slots on the way to an entry are the highest groups of its hash. -/
  way : ∀ {p l e}, t.Reach p l → t.target l = .chain e →
    ∃ x, t.entries[e]? = some x ∧ p <+: digits (hash x.key)
  /-- One chain has one hash. -/
  chain_hash : ∀ {p l l' e e' x x'}, t.Reach p l → t.Reach p l' → t.target l = .chain e →
    t.target l' = .chain e' → t.entries[e]? = some x → t.entries[e']? = some x' →
    hash x.key = hash x'.key
  /-- One hash has one chain. -/
  hash_chain : ∀ {p p' l l' e e' x x'}, t.Reach p l → t.Reach p' l' → t.target l = .chain e →
    t.target l' = .chain e' → t.entries[e]? = some x → t.entries[e']? = some x' →
    hash x.key = hash x'.key → p = p'
  /-- One key has one entry. -/
  key_entry : ∀ {p p' l l' e e' x x'}, t.Reach p l → t.Reach p' l' → t.target l = .chain e →
    t.target l' = .chain e' → t.entries[e]? = some x → t.entries[e']? = some x' →
    (x.key == x'.key) = true → e = e'
  /-- What is met is held by one link. -/
  holder : ∀ {p p' l l'}, t.Reach p l → t.Reach p' l' → t.target l = t.target l' →
    t.target l ≠ .empty → l = l'
  /-- The link of an entry that is met leads nowhere or to an entry. -/
  overflow : ∀ {p e n}, t.Reach p (.next e) → t.next? e = some n → ∃ x, t.entries[n]? = some x
  /-- A branch that is met is live, at most 15 levels down, and its parent is the branch whose
  slot holds it. -/
  branch : ∀ {p l c}, t.Reach p l → t.target l = .branch c →
    t.isDead c = false ∧ p.length ≤ 15 ∧ ∃ b i, l = .slot b i ∧ t.parent? c = some b
  /-- The root is live, has no parent, and is held by no link. -/
  root : t.isDead root = false ∧ t.parent? root = none ∧
    ∀ {p l}, t.Reach p l → t.target l ≠ .branch root

/-- What is met stands in a live branch, or along the chain of one of its slots. -/
def Stands (t : Trie κ ν) (b : BranchId) (i : Nibble) (l : Link) : Prop :=
  l = .slot b i ∨ ∃ a ∈ t.chainAt b i, l = .next a

theorem ofHead_ne_branch {n : Option EntryId} {c : BranchId} : Slot.ofHead n ≠ .branch c := by
  cases n <;> simp [Slot.ofHead]

theorem next?_of_target {a e : EntryId} (h : t.target (.next a) = .chain e) : t.next? a = some e := by
  rw [target] at h
  cases hn : t.next? a with
  | none => rw [hn] at h; cases h
  | some n => rw [hn] at h; cases h; rfl

namespace Layout

/-- Behind an entry of a chain comes an entry of the chain. -/
theorem next_mem_chainAt (L : Layout path t) {b : BranchId} {i : Nibble} {a e : EntryId}
    (ha : a ∈ t.chainAt b i) (hn : t.next? a = some e) : e ∈ t.chainAt b i := by
  obtain ⟨l₁, l₂, hc⟩ := List.append_of_mem ha
  have hlink := L.linked_chainAt b i
  rw [hc] at hlink
  have htail := hlink.suffix.tail
  rw [hn] at htail
  rw [hc]
  cases htail
  simp

theorem mem_of_target (L : Layout path t) {b : BranchId} {i : Nibble} {l : Link} {e : EntryId}
    (hl : t.Stands b i l) (ht : t.target l = .chain e) : e ∈ t.chainAt b i := by
  rcases hl with rfl | ⟨a, ha, rfl⟩
  · exact L.head_mem_chainAt ht
  · exact L.next_mem_chainAt ha (next?_of_target ht)

/-- The slots on the way to a link are the path of a live branch and one group more. -/
theorem of_reach (L : Layout path t) {p : List Nibble} {l : Link} (h : t.Reach p l) :
    ∃ b i, t.isDead b = false ∧ p = path b ++ [i] ∧ t.Stands b i l := by
  induction h with
  | root i => exact ⟨Trie.root, i, L.root_live, by rw [L.root_path]; rfl, .inl rfl⟩
  | @down p l c j _ ht ih =>
    obtain ⟨b, i, _, rfl, hl⟩ := ih
    rcases hl with rfl | ⟨a, _, rfl⟩
    · exact ⟨c, j, L.child_live ht, by rw [L.child_path ht], .inl rfl⟩
    · exact absurd ht ofHead_ne_branch
  | @along p l e _ ht ih =>
    obtain ⟨b, i, hb, hp, hl⟩ := ih
    exact ⟨b, i, hb, hp, .inr ⟨e, L.mem_of_target hl ht, rfl⟩⟩

/-- Two entries with the same entry behind them are the same. -/
theorem pred_unique (L : Layout path t) {b : BranchId} {i : Nibble} {a a' e : EntryId}
    (ha : a ∈ t.chainAt b i) (ha' : a' ∈ t.chainAt b i) (hn : t.next? a = some e)
    (hn' : t.next? a' = some e) : a = a' := by
  -- whatever stands behind `a` is born no later than `e`, and before `a'`
  have behind : ∀ {a a' : EntryId}, t.next? a = some e → t.next? a' = some e →
      a ∈ t.chainAt b i → a' ∈ t.chainAt b i → a' ≠ a → t.birth a < t.birth a' := by
    intro a a' hn hn' ha ha' hne
    obtain ⟨l₁, l₂, hc⟩ := List.append_of_mem ha
    have hlink := L.linked_chainAt b i
    have hpair := L.falling.pairwise hlink
    rw [hc] at hlink hpair ha'
    have htail := hlink.suffix.tail
    rw [hn] at htail
    rcases List.mem_append.mp ha' with h | h
    · exact (List.pairwise_append.mp hpair).2.2 a' h a List.mem_cons_self
    · rcases List.mem_cons.mp h with rfl | h
      · exact absurd rfl hne
      · exact absurd (L.falling.birth_le_head htail a' h)
          (Nat.not_le.mpr (L.falling.birth_next hn'))
  by_contra hne
  exact absurd (behind hn hn' ha ha' (Ne.symm hne)) (Nat.lt_asymm (behind hn' hn ha' ha hne))

/-- The head of a chain has no entry in front of it. -/
theorem head_not_next (L : Layout path t) {b : BranchId} {i : Nibble} {a e : EntryId}
    (hs : t.slot b i = .chain e) (ha : a ∈ t.chainAt b i) : t.next? a ≠ some e := by
  intro hn
  have hlink := L.linked_chainAt b i
  rw [hs] at hlink
  exact absurd (L.falling.birth_le_head hlink a ha) (Nat.not_le.mpr (L.falling.birth_next hn))

/-- What is met is held by one link. -/
theorem link_unique (L : Layout path t) {b b' : BranchId} {i i' : Nibble} {l l' : Link}
    (hl : t.Stands b i l) (hl' : t.Stands b' i' l') (heq : t.target l = t.target l')
    (hne : t.target l ≠ .empty) : l = l' := by
  cases ht : t.target l with
  | empty => exact absurd ht hne
  | branch c =>
    have ht' := heq ▸ ht
    rcases hl with rfl | ⟨a, _, rfl⟩
    · rcases hl' with rfl | ⟨a', _, rfl⟩
      · obtain ⟨rfl, rfl⟩ := L.holder_unique ht ht'
        rfl
      · exact absurd ht' ofHead_ne_branch
    · exact absurd ht ofHead_ne_branch
  | chain e =>
    have ht' := heq ▸ ht
    obtain ⟨rfl, rfl⟩ := L.apart (L.mem_of_target hl ht) (L.mem_of_target hl' ht')
    rcases hl with rfl | ⟨a, ha, rfl⟩ <;> rcases hl' with rfl | ⟨a', ha', rfl⟩
    · rfl
    · exact absurd (next?_of_target ht') (L.head_not_next ht ha')
    · exact absurd (next?_of_target ht) (L.head_not_next ht' ha)
    · rw [L.pred_unique ha ha' (next?_of_target ht) (next?_of_target ht')]

end Layout

variable [BEq κ] {hash : κ → UInt64}

/-- A trie whose entries stand where their hashes put them is well formed. -/
theorem Keyed.wellFormed [EquivBEq κ] (law : Lawful hash) (K : Keyed hash path t) :
    t.WellFormed hash := by
  have live : ∀ {p l e}, t.Reach p l → t.target l = .chain e → t.Live e := by
    intro p l e h ht
    obtain ⟨b, i, _, _, hl⟩ := K.of_reach h
    exact ⟨b, i, K.mem_of_target hl ht⟩
  exact
    { way := by
        intro p l e h ht
        obtain ⟨b, i, _, rfl, hl⟩ := K.of_reach h
        have he := K.mem_of_target hl ht
        obtain ⟨x, hx⟩ := entry_of_lt (K.lt_of_mem_chainAt he)
        exact ⟨x, hx, K.way he hx⟩
      chain_hash := by
        intro p l l' e e' x x' h h' ht ht' hx hx'
        obtain ⟨b, i, hb, rfl, hl⟩ := K.of_reach h
        obtain ⟨b', i', hb', heq, hl'⟩ := K.of_reach h'
        obtain ⟨hpath, hi⟩ := List.append_inj' heq rfl
        obtain rfl := K.path_inj hb hb' hpath
        obtain rfl : i = i' := by simpa using hi
        exact K.same (K.mem_of_target hl ht) (K.mem_of_target hl' ht') hx hx'
      hash_chain := by
        intro p p' l l' e e' x x' h h' ht ht' hx hx' hh
        obtain ⟨b, i, _, rfl, hl⟩ := K.of_reach h
        obtain ⟨b', i', _, rfl, hl'⟩ := K.of_reach h'
        have he' := K.mem_of_target hl' ht'
        have he := K.mem_chainAt_of_hash (K.fits_of_mem he' hx')
          (Layout.not_branch_of_mem_chainAt he') (live h ht) hx hh
        obtain ⟨rfl, rfl⟩ := K.apart (K.mem_of_target hl ht) he
        rfl
      key_entry := fun h h' ht ht' hx hx' hk => K.eq_of_live law (live h ht) (live h' ht') hx hx' hk
      holder := by
        intro p p' l l' h h' heq hne
        obtain ⟨b, i, _, _, hl⟩ := K.of_reach h
        obtain ⟨b', i', _, _, hl'⟩ := K.of_reach h'
        exact K.link_unique hl hl' heq hne
      overflow := fun _ hn => entry_of_lt (K.falling.next_lt hn)
      branch := by
        intro p l c h ht
        obtain ⟨b, i, hb, rfl, hl⟩ := K.of_reach h
        rcases hl with rfl | ⟨a, _, rfl⟩
        · have hc := K.child_live ht
          have hdepth := K.depth hc
          rw [K.child_path ht] at hdepth
          exact ⟨hc, by omega, b, i, rfl, K.child_parent ht⟩
        · exact absurd ht ofHead_ne_branch
      root := by
        refine ⟨K.root_live, K.root_parent, fun {p l} h ht => ?_⟩
        obtain ⟨b, i, _, _, hl⟩ := K.of_reach h
        rcases hl with rfl | ⟨a, _, rfl⟩
        · exact K.ne_root_of_held ht rfl
        · exact absurd ht ofHead_ne_branch }

end Trie

variable {κ : Type u} {ν : Type v} [BEq κ] [EquivBEq κ] [BEq ν]

omit [BEq ν] in
/-- The current trie of a map in good order is well formed. -/
theorem TrieMap.Sound.wellFormed {m : TrieMap κ ν} (S : m.Sound) :
    m.current.WellFormed m.hash := by
  obtain ⟨path, K⟩ := S.keyed_current
  exact K.wellFormed S.lawful

/-- From every making of the map on, the current trie is well formed: in every moment that can come
about, after operations of every kind that run as a whole or are interrupted before their first
comparison or by a builder, and at every instant that can come about, with operations and walks
under way that give way with any comparison, with their slot held or not. -/
theorem current_wellFormed {hash : κ → UInt64} (law : Lawful hash) :
    (∀ s : Moment κ ν, Moment.Reachable hash s → s.map.current.WellFormed hash) ∧
      ∀ s : Instant κ ν, Instant.Reachable hash s → s.map.current.WellFormed hash := by
  constructor
  · intro s hs
    rw [← hs.hash_eq law]
    exact (hs.good law).sound.wellFormed
  · intro s hs
    rw [← hs.hash_eq]
    exact (hs.sound law).map.wellFormed

/-- A probe for the second key of a chain has passed the first one, and the second one is removed
before the probe compares its key with it. -/
def passing : Instant Nat Nat :=
  ⟨(twoKeys.run [.probe (.erase 2)]).2,
    [.searching (.get? 2) ⟨0, ⟨Trie.root, nibble 0 15, 15⟩, some 0⟩]⟩

theorem reachable_passing : Instant.Reachable (fun _ => 0) passing := by
  have hkeys : Instant.Reachable (fun _ => 0) ⟨twoKeys, []⟩ := .of_made .empty _
  have harrived := hkeys.step (.arrive (p := .get? 2) rfl)
  have hpassed : Instant.Reachable (fun _ => 0) ⟨twoKeys, passing.works⟩ :=
    harrived.step (.pass (P := []) rfl)
  refine hpassed.run (fun w hw => ?_) _
  rw [List.mem_singleton.mp hw]
  rfl

/-- The trie of two keys in one chain is well formed, also after one of them was removed while a
probe was about to compare its key with it. -/
theorem current_wellFormed_twoKeys :
    (twoKeys.current.WellFormed fun _ => 0) ∧ passing.map.current.WellFormed fun _ => 0 := by
  obtain ⟨moments, instants⟩ := current_wellFormed (κ := Nat) (ν := Nat) (.const 0)
  exact ⟨moments _ reachable_twoKeys, instants _ reachable_passing⟩

end NibbleTrie
