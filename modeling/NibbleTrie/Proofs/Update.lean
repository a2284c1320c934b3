/-
Inserting, replacing and removing.

An operation that holds the slot of its key writes in one of three ways.  Each
is a write whose entries are known, whatever the hashes are and whatever keys
are equal, and for lawful keys it is a step.  Only an insertion can meet a
fault, that of a split which finds no group on which the hashes part
(`Insertion.jam`); if entries stand where their hashes put them it does not.

Main statements: `Layout.insertion_write`, `Layout.replace_write`,
`Layout.removeAt_write`, and for lawful keys `Keyed.insertAt_step`,
`Keyed.replace_step`, `Keyed.removeAt_step`.
-/
import NibbleTrie.Proofs.Step

namespace NibbleTrie

namespace Trie

variable {κ : Type u} {ν : Type v} {t : Trie κ ν} {path : BranchId → List Nibble}
  {hash : κ → UInt64} {site : Site} {k : κ} {v : ν}

/-! ## Inserting -/

/-- What inserting `k` with `v` into a slot that holds no branch comes to. -/
inductive Insertion (hash : κ → UInt64) (t : Trie κ ν) (site : Site) (k : κ) (v : ν) :
    Effect (Trie κ ν) Unit → Prop
  /-- A fresh entry in an empty slot, or in front of a chain whose head has the same hash. -/
  | front {events : List Event} (hs : (t.slot site.branch site.index).isBranch = false)
      (hhash : ∀ head x, t.slot site.branch site.index = .chain head → t.entries[head]? = some x →
        hash x.key = hash k) :
      Insertion hash t site k v ⟨.ok (), t.publish site ⟨k, v, (t.slot site.branch site.index).head?,
        t.entries.size⟩ [] (.chain t.entries.size), events⟩
  /-- Nested branches between the chain and the fresh entry. -/
  | split {head : EntryId} {x : Entry κ ν} {bs : List Branch}
      (hs : t.slot site.branch site.index = .chain head) (hx : t.entries[head]? = some x)
      (hbs : splitBranches (hash x.key) (hash k) head t.entries.size site.level site.branch
        t.branches.size = some bs) :
      Insertion hash t site k v ⟨.ok (), t.publish site ⟨k, v, none, t.entries.size⟩ bs
        (.branch t.branches.size), [.split bs.length (site.level - bs.length)]⟩
  /-- The hash of the head differs, but not below the slot. -/
  | jam {head : EntryId} {x : Entry κ ν} (hs : t.slot site.branch site.index = .chain head)
      (hx : t.entries[head]? = some x) (hne : hash x.key ≠ hash k)
      (hlow : ∀ level < site.level, nibble (hash x.key) level = nibble (hash k) level) :
      Insertion hash t site k v (.fail t .splitExhausted)

theorem Layout.insertAt_insertion (L : Layout path t)
    (hs : (t.slot site.branch site.index).isBranch = false) (k : κ) (v : ν) :
    Insertion hash t site k v (t.insertAt hash site (hash k) k v) := by
  cases hslot : t.slot site.branch site.index with
  | branch _ => rw [hslot] at hs; cases hs
  | empty =>
    have I : Insertion hash t site k v ⟨.ok (), _, []⟩ := .front hs (by simp [hslot])
    rw [hslot] at I
    rw [insertAt, hslot]
    exact I
  | chain head =>
    obtain ⟨x, hx⟩ := entry_of_lt (L.head_lt hslot)
    have hch : t.chainHash hash head = some (hash x.key) := by simp [chainHash, hx]
    by_cases hh : hash x.key = hash k
    · have I : Insertion hash t site k v ⟨.ok (), _, [.chained site.level]⟩ := .front hs (by
        intro a y ha hy
        rw [hslot, Slot.chain.injEq] at ha
        rw [← ha, hx] at hy
        cases hy
        exact hh)
      rw [hslot] at I
      simp only [insertAt, hslot, hch, Option.getD_some, hh, if_true]
      exact I
    · simp only [insertAt, hslot, hch, Option.getD_some, hh, if_false]
      cases hbs : splitBranches (hash x.key) (hash k) head t.entries.size site.level site.branch
          t.branches.size with
      | none => exact .jam hslot hx hh (splitBranches_none hbs)
      | some bs => exact .split hslot hx hbs

theorem Layout.front_write (L : Layout path t) (hlive : t.isDead site.branch = false)
    (hs : (t.slot site.branch site.index).isBranch = false) (k : κ) (v : ν) :
    Write path path t (t.publish site ⟨k, v, (t.slot site.branch site.index).head?,
      t.entries.size⟩ [] (.chain t.entries.size)) none (some (k, v)) := by
  refine L.write_of_exchanged (L.front hlive hs site.level k v) (fun _ => rfl) ?_ ?_ ?_
  · intro item h
    cases h
    exact item?_of_entry (entry_publish t site _ [] _)
  · intro f h
    cases h
    exact birth_of_entry (entry_publish t site _ [] _)
  · simp [publish]

theorem Layout.split_write {h₁ : UInt64} {head : EntryId} {bs : List Branch} {n : Nat}
    (L : Layout path t) (F : Fits path t (hash k) site)
    (S : Split t (t.publish site ⟨k, v, none, t.entries.size⟩ bs (.branch t.branches.size)) site
      h₁ (hash k) head n) :
    Write path (Split.newPath path t site (hash k)) t
      (t.publish site ⟨k, v, none, t.entries.size⟩ bs (.branch t.branches.size)) none
      (some (k, v)) :=
  L.write_of_split (k, v) F S (item?_of_entry (entry_publish t site _ bs _))
    (birth_of_entry (entry_publish t site _ bs _)) (by simp [publish])

/-- An insertion that comes to its end is a write. -/
theorem Layout.insertion_write {e : Effect (Trie κ ν) Unit} (L : Layout path t)
    (F : Fits path t (hash k) site) (I : Insertion hash t site k v e) (hok : e.result = .ok ()) :
    ∃ path', Write path path' t e.state none (some (k, v)) := by
  cases I with
  | front hs hhash => exact ⟨path, L.front_write F.live hs k v⟩
  | split hs hx hbs =>
    obtain ⟨n, T⟩ := splitBranches_table hbs
    exact ⟨_, L.split_write F (split_publish L F.live hs T k v)⟩
  | jam => cases hok

/-! ## Replacing and removing -/

theorem Layout.replace_write [BEq κ] (L : Layout path t) {accept : ν → Bool} {x : Placed κ ν}
    (h : t.locate site k accept = .ok (some x)) (k' : κ) (v : ν) :
    Write path path t (t.replace x k' v) (some x.id) (some (k', v)) := by
  obtain ⟨l₁, l₂, hc, hx, _, _, hlink⟩ := L.locate_some h
  obtain ⟨n, hn⟩ := entry_replace t x k' v
  refine L.write_of_exchanged (L.replace hc hx hlink k' v) (fun h => by cases h) ?_ ?_ ?_
  · intro item h
    cases h
    exact item?_of_entry hn
  · intro f h
    cases h
    rw [birth_of_entry hn]
    exact (birth_of_entry hx).symm
  · simp [Trie.replace]

theorem Layout.unlink_write [BEq κ] (L : Layout path t) {accept : ν → Bool} {x : Placed κ ν}
    (h : t.locate site k accept = .ok (some x)) :
    Write path path t (t.unlink x) (some x.id) none := by
  obtain ⟨l₁, l₂, hc, hx, _, _, hlink⟩ := L.locate_some h
  refine L.write_of_exchanged (L.unlink hc hx hlink) (fun h => by cases h)
    (fun _ h => by cases h) (fun _ h => by cases h) ?_
  simp only [Trie.unlink, count_addCount, count_setLink, Option.toList_some, Option.toList_none,
    List.length_singleton, List.length_nil]
  omega

/-- After the unlinking only branches are dropped. -/
theorem Layout.removeAt_pruned [BEq κ] (L : Layout path t) {h : UInt64} (F : Fits path t h site)
    {accept : ν → Bool} {x : Placed κ ν} (hx : t.locate site k accept = .ok (some x)) :
    Pruned (t.unlink x) (t.removeAt site h x).1 := by
  obtain ⟨l₁, l₂, hc, hentry, _, _, hlink⟩ := L.locate_some hx
  have X := L.unlink hc hentry hlink
  have F' : Fits path (t.unlink x) h site :=
    ⟨(X.dead site.branch).trans F.live, F.path_prefix, F.level⟩
  rw [removeAt]
  by_cases hempty : ((t.unlink x).slot site.branch site.index).isEmpty = true
  · simp only [hempty, if_true]
    exact (L.unlink_write hx).layout.dropEmpty_pruned F'
  · simp only [hempty]
    exact .refl _

theorem Layout.removeAt_write [BEq κ] (L : Layout path t) {h : UInt64} (F : Fits path t h site)
    {accept : ν → Bool} {x : Placed κ ν} (hx : t.locate site k accept = .ok (some x)) :
    Write path path t (t.removeAt site h x).1 (some x.id) none :=
  (L.unlink_write hx).prune (L.removeAt_pruned F hx)

/-! ## Where entries stand -/

/-- Two hashes on the way of which a slot is agree from its level upwards. -/
theorem Fits.nibble_eq {h₁ h₂ : UInt64} (F : Fits path t h₂ site)
    (hway : path site.branch ++ [site.index] <+: digits h₁) {level : Nat} (hge : site.level ≤ level)
    (hl : level < hashGroups) : nibble h₁ level = nibble h₂ level := by
  have hlevel := F.level
  rw [hashGroups] at hl
  have hj : 15 - level < (path site.branch ++ [site.index]).length := by
    rw [List.length_append, List.length_singleton]; omega
  have hd₁ := List.prefix_iff_getElem?.mp hway (15 - level) hj
  have hd₂ := List.prefix_iff_getElem?.mp F.path_prefix (15 - level) hj
  rw [getElem?_digits _ (by omega), show 15 - (15 - level) = level by omega] at hd₁ hd₂
  exact Option.some.inj (hd₁.trans hd₂.symm)

/-- Two hashes on the way of which a slot is, and that agree below it, are the same. -/
theorem Fits.eq_of_low {h₁ h₂ : UInt64} (F : Fits path t h₂ site)
    (hway : path site.branch ++ [site.index] <+: digits h₁)
    (hlow : ∀ level < site.level, nibble h₁ level = nibble h₂ level) : h₁ = h₂ := by
  refine eq_of_nibbles fun level hl => ?_
  rcases Nat.lt_or_ge level site.level with hlt | hge
  · exact hlow level hlt
  · exact F.nibble_eq hway hge hl

/-- The fresh entry of an insertion in front belongs where it is put. -/
theorem Routed.admits_front (R : Routed hash path t) (F : Fits path t (hash k) site)
    (hhash : ∀ head x, t.slot site.branch site.index = .chain head → t.entries[head]? = some x →
      hash x.key = hash k) (v : ν) :
    Admits hash path t (t.publish site ⟨k, v, (t.slot site.branch site.index).head?,
      t.entries.size⟩ [] (.chain t.entries.size)) site.branch site.index
      ([] ++ t.chainAt site.branch site.index) (some (k, v)) where
  item item h := by
    cases h
    exact item?_of_entry (entry_publish t site _ [] _)
  way item h := by cases h; exact F.path_prefix
  same item h a ha x hx := by
    cases h
    obtain ⟨head, hs, hlt, _, hhead⟩ := R.exists_head ha
    obtain ⟨y, hy⟩ := entry_of_lt hlt
    exact (R.same ha hhead hx hy).trans (hhash head y hs hy)

/-- An entry whose key has the hash of the replaced one belongs where that stood. -/
theorem Routed.admits_replace (R : Routed hash path t) {x : Placed κ ν} {l₁ l₂ : List EntryId}
    (hc : t.chainAt site.branch site.index = l₁ ++ x.id :: l₂)
    (hx : t.entries[x.id]? = some x.entry) {k' : κ} (hk' : hash x.entry.key = hash k') (v : ν) :
    Admits hash path t (t.replace x k' v) site.branch site.index (l₁ ++ l₂) (some (k', v)) where
  item item h := by
    cases h
    obtain ⟨n, hn⟩ := entry_replace t x k' v
    exact item?_of_entry hn
  way item h := by
    cases h
    rw [← hk']
    exact R.way (by rw [hc]; simp) hx
  same item h a ha y hy := by
    cases h
    rw [← hk']
    refine R.same ?_ (by rw [hc]; simp) hy hx
    rw [hc]
    rcases List.mem_append.mp ha with h | h <;> simp [h]

theorem Admits.none {t' : Trie κ ν} {b : BranchId} {i : Nibble} (l : List EntryId) :
    Admits hash path t t' b i l none where
  item _ h := by cases h
  way _ h := by cases h
  same _ h := by cases h

/-- Where entries stand where their hashes put them, the head of a slot has the hash of a key on
whose way the slot is, if the two agree below it. -/
theorem Routed.eq_of_low (R : Routed hash path t) (F : Fits path t (hash k) site) {head : EntryId}
    {x : Entry κ ν} (hs : t.slot site.branch site.index = .chain head)
    (hx : t.entries[head]? = some x)
    (hlow : ∀ level < site.level, nibble (hash x.key) level = nibble (hash k) level) :
    hash x.key = hash k := by
  have hhead := R.head_mem_chainAt hs
  exact F.eq_of_low (R.way hhead hx) hlow

/-- Where entries stand where their hashes put them, an insertion comes to its end. -/
theorem Routed.insertion_ok {e : Effect (Trie κ ν) Unit} (R : Routed hash path t)
    (F : Fits path t (hash k) site) (I : Insertion hash t site k v e) : e.result = .ok () := by
  cases I with
  | front => rfl
  | split => rfl
  | jam hs hx hne hlow => exact absurd (R.eq_of_low F hs hx hlow) hne

theorem Routed.of_insertion {e : Effect (Trie κ ν) Unit} (R : Routed hash path t)
    (F : Fits path t (hash k) site) (I : Insertion hash t site k v e) :
    ∃ path', Routed hash path' e.state := by
  cases I with
  | front hs hhash =>
    exact ⟨path, R.of_exchanged (R.front F.live hs site.level k v) (R.admits_front F hhash v)⟩
  | split hs hx hbs =>
    obtain ⟨n, T⟩ := splitBranches_table hbs
    exact ⟨_, R.of_split F (split_publish R.toLayout F.live hs T k v) hx rfl
      (item?_of_entry (entry_publish t site _ _ _)) rfl⟩
  | jam => exact ⟨path, R⟩

theorem Routed.of_replace [BEq κ] (R : Routed hash path t) {accept : ν → Bool} {x : Placed κ ν}
    (h : t.locate site k accept = .ok (some x)) {k' : κ} (hk' : hash x.entry.key = hash k')
    (v : ν) : Routed hash path (t.replace x k' v) := by
  obtain ⟨l₁, l₂, hc, hx, _, _, hlink⟩ := R.locate_some h
  exact R.of_exchanged (R.replace hc hx hlink k' v) (R.admits_replace hc hx hk' v)

theorem Routed.of_removeAt [BEq κ] (R : Routed hash path t) {h : UInt64} (F : Fits path t h site)
    {accept : ν → Bool} {x : Placed κ ν} (hx : t.locate site k accept = .ok (some x)) :
    Routed hash path (t.removeAt site h x).1 := by
  obtain ⟨l₁, l₂, hc, hentry, _, _, hlink⟩ := R.locate_some hx
  have X : Exchanged t (t.unlink x) site.branch site.index l₁ [x.id]
      (t.fresh (none : Option (κ × ν))).toList l₂ := R.unlink hc hentry hlink
  exact (R.of_exchanged X (.none _)).of_pruned (R.removeAt_pruned F hx)

/-! ## Lawful keys -/

variable [BEq κ] [EquivBEq κ]

/-- Inserting a key that its slot does not hold. -/
theorem Keyed.insertion_step {e : Effect (Trie κ ν) Unit} (K : Keyed hash path t)
    (F : Fits path t (hash k) site) (I : Insertion hash t site k v e)
    (habsent : ∀ a ∈ t.chainAt site.branch site.index, ∀ x, t.entries[a]? = some x →
      (x.key == k) = false) : ∃ path', Step hash path path' t e.state none (some (k, v)) := by
  cases I with
  | front hs hhash =>
    refine ⟨path, K.step_of_exchanged (K.front_write F.live hs k v)
      (K.front F.live hs site.level k v) ?_⟩
    exact
      { toAdmits := K.admits_front F hhash v
        front := fun _ => rfl
        ne := fun item h a ha x hx => by cases h; exact habsent a ha x hx
        key := fun _ h => by cases h }
  | split hs hx hbs =>
    obtain ⟨n, T⟩ := splitBranches_table hbs
    have P := split_publish K.toLayout F.live hs T k v
    exact ⟨_, K.step_of_split F P (K.split_write F P) hx rfl rfl⟩
  | jam hs hx hne hlow => cases K.insertion_ok F (.jam (v := v) hs hx hne hlow)

theorem Keyed.insertAt_step (K : Keyed hash path t) (F : Fits path t (hash k) site)
    (hs : (t.slot site.branch site.index).isBranch = false)
    (habsent : ∀ a ∈ t.chainAt site.branch site.index, ∀ x, t.entries[a]? = some x →
      (x.key == k) = false) (v : ν) :
    ∃ t' events path', t.insertAt hash site (hash k) k v = ⟨.ok (), t', events⟩ ∧
      Step hash path path' t t' none (some (k, v)) := by
  have I : Insertion hash t site k v (t.insertAt hash site (hash k) k v) :=
    K.insertAt_insertion hs k v
  have hok := K.insertion_ok F I
  obtain ⟨path', S⟩ := K.insertion_step F I habsent
  exact ⟨_, _, path', by rw [← hok], S⟩

/-- Replacing a found entry by one whose key is equal. -/
theorem Keyed.replace_step (law : Lawful hash) (K : Keyed hash path t) {accept : ν → Bool}
    {x : Placed κ ν} (h : t.locate site k accept = .ok (some x)) {k' : κ}
    (hk' : (x.entry.key == k') = true) (v : ν) :
    Step hash path path t (t.replace x k' v) (some x.id) (some (k', v)) := by
  have W := K.replace_write h k' v
  obtain ⟨l₁, l₂, hc, hx, _, _, hlink⟩ := K.locate_some h
  refine K.step_of_exchanged W (K.replace hc hx hlink k' v) ?_
  exact
    { toAdmits := K.admits_replace hc hx (law.hash_eq hk') v
      front := fun h => by cases h
      ne := by
        intro item h a ha y hy
        cases h
        have hpair := K.distinct_chainAt site.branch site.index
        have hnodup := K.falling.nodup (K.linked_chainAt site.branch site.index)
        have hmem : x.id ∈ t.chainAt site.branch site.index := by rw [hc]; simp
        have hrest : a ∈ t.chainAt site.branch site.index := by
          rw [hc]
          rcases List.mem_append.mp ha with h | h <;> simp [h]
        have hne : a ≠ x.id := by
          rintro rfl
          rw [hc, List.nodup_middle, List.nodup_cons] at hnodup
          exact hnodup.1 ha
        rw [← hpair.forall hrest hmem hne y x.entry hy hx]
        exact (BEq.congr_right hk').symm
      key := by
        intro a h item h' y hy
        cases h; cases h'
        rw [hx] at hy
        cases hy
        exact hk' }

/-- Removing a found entry, and dropping what this leaves empty. -/
theorem Keyed.removeAt_step (K : Keyed hash path t) {h : UInt64} (F : Fits path t h site)
    {accept : ν → Bool} {x : Placed κ ν} (hx : t.locate site k accept = .ok (some x)) :
    Step hash path path t (t.removeAt site h x).1 (some x.id) none := by
  have W := K.unlink_write hx
  have P := K.removeAt_pruned F hx
  obtain ⟨l₁, l₂, hc, hentry, _, _, hlink⟩ := K.locate_some hx
  refine (K.step_of_exchanged W (K.unlink hc hentry hlink) ?_).prune P
  exact
    { toAdmits := .none _
      front := fun h => by cases h
      ne := fun _ h => by cases h
      key := fun _ _ _ h => by cases h }

end Trie

end NibbleTrie
