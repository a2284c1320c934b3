/-
Changes of a map, whatever its keys are.

Nothing is asked of hashes and of equality here: equal keys may have different
hashes, and `==` need not be an equivalence.  What an operation writes to the
slot that it holds is still one of three things (`Trie.Change`), and each is a
`Write`, so the branches hang together and the count is true (`Laid`).  Where
equal keys do have equal hashes, entries stand where their hashes put them.

Main statements: a map that is laid out stays so (`Turn.laid`), and where an
operation arrived some time ago it still stands (`Turn.arrived`).
-/
import NibbleTrie.Proofs.Generations

namespace NibbleTrie

/-- The key and the value of a found entry. -/
def Placed.item {κ : Type u} {ν : Type v} (x : Placed κ ν) : κ × ν := (x.entry.key, x.entry.value)

namespace Trie

variable {κ : Type u} {ν : Type v} [BEq κ] {t t' : Trie κ ν} {path : BranchId → List Nibble}
  {hash : κ → UInt64} {gone new : Option (κ × ν)}

/-- What an operation that holds a slot writes at most: `gone` is exchanged for `new`. -/
inductive Change (hash : κ → UInt64) (t : Trie κ ν) :
    Trie κ ν → Option (κ × ν) → Option (κ × ν) → Prop
  | keep : Change hash t t none none
  | insert {site : Site} {k : κ} {v : ν} {t' : Trie κ ν} {events : List Event} :
      t.Aimed (hash k) site → t.isWritable site = true →
      Insertion hash t site k v ⟨.ok (), t', events⟩ → Change hash t t' none (some (k, v))
  /-- The kept key is the one that was looked for, or the one that was found. -/
  | replace {site : Site} {k k' : κ} {accept : ν → Bool} {x : Placed κ ν} (v : ν) :
      t.locate site k accept = .ok (some x) → k' = k ∨ k' = x.entry.key →
      Change hash t (t.replace x k' v) (some x.item) (some (k', v))
  | remove {site : Site} {h : UInt64} {k : κ} {accept : ν → Bool} {x : Placed κ ν} :
      t.Aimed h site → t.isWritable site = true → t.locate site k accept = .ok (some x) →
      Change hash t (t.removeAt site h x).1 (some x.item) none

namespace Change

theorem write (C : Change hash t t' gone new) (L : Layout path t) :
    ∃ path' a, Write path path' t t' a new ∧ a.bind t.item? = gone := by
  cases C with
  | keep => exact ⟨path, none, .refl L, rfl⟩
  | insert A hw I =>
    obtain ⟨hlive, _⟩ := isWritable_iff.mp hw
    obtain ⟨path', W⟩ := L.insertion_write (A.fits L hlive) I rfl
    exact ⟨path', none, W, rfl⟩
  | @replace site k k' accept x v hx _ =>
    obtain ⟨_, _, _, hentry, _⟩ := L.locate_some hx
    exact ⟨path, some x.id, L.replace_write hx k' v, item?_of_entry hentry⟩
  | @remove site h k accept x A hw hx =>
    obtain ⟨hlive, _⟩ := isWritable_iff.mp hw
    obtain ⟨_, _, _, hentry, _⟩ := L.locate_some hx
    exact ⟨path, some x.id, L.removeAt_write (A.fits L hlive) hx, item?_of_entry hentry⟩

theorem layout (C : Change hash t t' gone new) (L : Layout path t) : ∃ path', Layout path' t' := by
  obtain ⟨path', _, W, _⟩ := C.write L
  exact ⟨path', W.layout⟩

theorem counted (C : Change hash t t' gone new) (L : Layout path t) (hc : t.Counted) :
    t'.Counted := by
  obtain ⟨_, _, W, _⟩ := C.write L
  exact W.counted L hc

theorem keeps (C : Change hash t t' gone new) (L : Layout path t) : t.Keeps t' := by
  obtain ⟨_, _, W, _⟩ := C.write L
  exact W.keeps

theorem aimed (C : Change hash t t' gone new) (L : Layout path t) {h : UInt64} {site : Site}
    (A : t.Aimed h site) : t'.Aimed h site := by
  obtain ⟨_, _, W, _⟩ := C.write L
  exact A.write L W

/-- A change exchanges an entry at most, and leaves the rest of what is listed as it was. -/
theorem exchanges (C : Change hash t t' gone new) (L : Layout path t) :
    ∃ rest, t.toList.Perm (gone.toList ++ rest) ∧ t'.toList.Perm (new.toList ++ rest) := by
  obtain ⟨_, _, W, rfl⟩ := C.write L
  exact W.exchanges L

/-- A change that exchanges nothing changes nothing. -/
theorem eq_of_none (C : Change hash t t' none none) : t' = t := by
  cases C
  rfl

/-- Where equal keys have equal hashes, entries stay where their hashes put them. -/
theorem routed (C : Change hash t t' gone new) (law : Lawful hash) (R : Routed hash path t) :
    ∃ path', Routed hash path' t' := by
  cases C with
  | keep => exact ⟨path, R⟩
  | insert A hw I =>
    obtain ⟨hlive, _⟩ := isWritable_iff.mp hw
    exact R.of_insertion (A.fits R.toLayout hlive) I
  | @replace site k k' accept x v hx hk' =>
    obtain ⟨_, _, _, _, hk, _⟩ := R.locate_some hx
    refine ⟨path, R.of_replace hx ?_ v⟩
    rcases hk' with rfl | rfl
    · exact law.hash_eq hk
    · rfl
  | remove A hw hx =>
    obtain ⟨hlive, _⟩ := isWritable_iff.mp hw
    exact ⟨path, R.of_removeAt (A.fits R.toLayout hlive) hx⟩

end Change

end Trie

namespace TrieMap

variable {κ : Type u} {ν : Type v} [BEq κ] {m m' : TrieMap κ ν} {g g' : Nat}
  {gone new : Option (κ × ν)}

/-- In every generation branches hang together and entries are counted; and if equal keys have
equal hashes, entries stand where their hashes put them. -/
structure Laid (m : TrieMap κ ν) : Prop where
  layout : ∀ g ≤ m.generation, ∃ path, Trie.Layout path (m.trieAt g)
  counted : ∀ g ≤ m.generation, (m.trieAt g).Counted
  routed : Lawful m.hash → ∀ g ≤ m.generation, ∃ path, Trie.Routed m.hash path (m.trieAt g)

namespace Laid

theorem layout_current (H : m.Laid) : ∃ path, Trie.Layout path m.current := by
  obtain ⟨path, L⟩ := H.layout m.generation (Nat.le_refl _)
  exact ⟨path, m.trieAt_generation ▸ L⟩

theorem counted_current (H : m.Laid) : m.current.Counted := by
  have hc := H.counted m.generation (Nat.le_refl _)
  rwa [trieAt_generation] at hc

/-- The size of a map is the number of entries it lists. -/
theorem size_eq (H : m.Laid) : m.size = m.toList.length := by
  obtain ⟨path, L⟩ := H.layout_current
  exact H.counted_current.size_eq L

end Laid

theorem Sound.laid (S : m.Sound) : m.Laid where
  layout _ hg := S.layout hg
  counted := S.counted
  routed _ g hg := by
    obtain ⟨path, K⟩ := S.keyed g hg
    exact ⟨path, K.toRouted⟩

/-- One generation of `m` is changed, and in it `gone` is exchanged for `new`. -/
structure Amends (m m' : TrieMap κ ν) (g : Nat) (gone new : Option (κ × ν)) : Prop where
  hash_eq : m'.hash = m.hash
  generation_eq : m'.generation = m.generation
  generation_le : g ≤ m.generation
  other : ∀ g' ≤ m.generation, g' ≠ g → m'.trieAt g' = m.trieAt g'
  change : Trie.Change m.hash (m.trieAt g) (m'.trieAt g) gone new

/-- Nothing is changed in any generation. -/
theorem Amends.keep (hg : g ≤ m.generation) : Amends m m g none none :=
  ⟨rfl, rfl, hg, fun _ _ _ => rfl, .keep⟩

/-- A change of one generation. -/
theorem Amends.of_update {ρ : Type w} {change : Trie κ ν → Effect (Trie κ ν) ρ}
    (hg : g ≤ m.generation)
    (C : Trie.Change m.hash (m.trieAt g) (change (m.trieAt g)).state gone new) :
    Amends m (m.update g change).state g gone new where
  hash_eq := m.update_hash g change
  generation_eq := m.update_generation g change
  generation_le := hg
  other g' hg' hne := by rw [m.trieAt_update change hg hg', if_neg hne]
  change := by rw [m.trieAt_update change hg hg, if_pos rfl]; exact C

theorem Amends.trieAt_eq (A : Amends m m' g none none) (hg' : g' ≤ m.generation) :
    m'.trieAt g' = m.trieAt g' := by
  by_cases h : g' = g
  · subst h
    exact A.change.eq_of_none
  · exact A.other g' hg' h

/-- If nothing is exchanged, the map is the same. -/
theorem Amends.eq_of_none (A : Amends m m' g none none) : m' = m := by
  have hcurrent : m'.current = m.current := by
    rw [← m'.trieAt_generation, A.generation_eq, A.trieAt_eq (Nat.le_refl _), m.trieAt_generation]
  have hdetached : m'.detached = m.detached := by
    refine Array.ext A.generation_eq fun i hi' hi => ?_
    have h := A.trieAt_eq (Nat.le_of_lt hi)
    simpa [trieAt, hi, hi'] using h
  cases m
  cases m'
  cases hcurrent
  cases hdetached
  cases A.hash_eq
  rfl

/-- What can become of a map at once. -/
inductive Turn (m : TrieMap κ ν) : TrieMap κ ν → Prop
  | amend {m' : TrieMap κ ν} {g : Nat} {gone new : Option (κ × ν)} : Amends m m' g gone new →
      Turn m m'
  | clear : Turn m m.clear.state

namespace Turn

theorem refl (m : TrieMap κ ν) : Turn m m := .amend (.keep (Nat.le_refl m.generation))

theorem hash_eq (T : Turn m m') : m'.hash = m.hash := by
  cases T with
  | amend A => exact A.hash_eq
  | clear => rfl

theorem generation_le (T : Turn m m') : m.generation ≤ m'.generation := by
  cases T with
  | amend A => exact Nat.le_of_eq A.generation_eq.symm
  | clear => exact m.generation_clear ▸ Nat.le_succ _

/-- Every generation that there is already changes at most as one write changes it. -/
theorem changes (T : Turn m m') (hg : g ≤ m.generation) :
    ∃ gone new, Trie.Change m.hash (m.trieAt g) (m'.trieAt g) gone new := by
  cases T with
  | @amend m' g₁ gone new A =>
    by_cases h : g = g₁
    · exact ⟨gone, new, h ▸ A.change⟩
    · exact ⟨none, none, A.other g hg h ▸ .keep⟩
  | clear => exact ⟨none, none, (m.trieAt_clear hg).symm ▸ .keep⟩

/-- A generation that there is only after a turn is an empty trie. -/
theorem fresh (T : Turn m m') (hg : g ≤ m'.generation) (hlt : m.generation < g) :
    m'.trieAt g = Trie.empty := by
  cases T with
  | amend A => exact absurd (A.generation_eq ▸ hg) (Nat.not_le_of_lt hlt)
  | clear =>
    rw [m.generation_clear] at hg
    obtain rfl : g = m.generation + 1 := by omega
    rw [← m.generation_clear, trieAt_generation]
    rfl

theorem laid (T : Turn m m') (H : m.Laid) : m'.Laid where
  layout g hg := by
    rcases Nat.lt_or_ge m.generation g with hlt | hle
    · rw [T.fresh hg hlt]
      exact ⟨_, Trie.layout_empty⟩
    · obtain ⟨path, L⟩ := H.layout g hle
      obtain ⟨_, _, C⟩ := T.changes hle
      exact C.layout L
  counted g hg := by
    rcases Nat.lt_or_ge m.generation g with hlt | hle
    · rw [T.fresh hg hlt]
      exact Trie.layout_empty.counted_of_no_entries rfl rfl
    · obtain ⟨path, L⟩ := H.layout g hle
      obtain ⟨_, _, C⟩ := T.changes hle
      exact C.counted L (H.counted g hle)
  routed law g hg := by
    rw [T.hash_eq] at law ⊢
    rcases Nat.lt_or_ge m.generation g with hlt | hle
    · rw [T.fresh hg hlt]
      exact ⟨_, .of_no_entries Trie.layout_empty rfl⟩
    · obtain ⟨path, R⟩ := H.routed law g hle
      obtain ⟨_, _, C⟩ := T.changes hle
      exact C.routed law R

theorem arrived (T : Turn m m') (H : m.Laid) {h : UInt64} {a : Arrival} (ha : m.Arrived h a) :
    m'.Arrived h a := by
  obtain ⟨path, L⟩ := H.layout _ ha.generation_le
  obtain ⟨_, _, C⟩ := T.changes ha.generation_le
  exact
    { generation_le := Nat.le_trans ha.generation_le T.generation_le
      head_lt := fun e he => Nat.lt_of_lt_of_le (ha.head_lt e he) (C.keeps L).size_le
      aimed := C.aimed L ha.aimed }

end Turn

/-- A map as it is made is laid out. -/
theorem laid_withCapacity (hash : κ → UInt64) (capacity : Nat) :
    (withCapacity hash capacity : Effect (TrieMap κ ν) Unit).state.Laid := by
  obtain ⟨path, L, hentries, hcount⟩ := Trie.exists_layout_prebuilt (κ := κ) (ν := ν) capacity
  have hg : ∀ g, (withCapacity hash capacity : Effect (TrieMap κ ν) Unit).state.trieAt g =
      Trie.prebuilt (levelsFor capacity) := fun g => by
    simp [trieAt, withCapacity]
  refine ⟨fun g _ => ?_, fun g _ => ?_, fun _ g _ => ?_⟩ <;> rw [hg]
  · exact ⟨path, L⟩
  · exact L.counted_of_no_entries hentries hcount
  · exact ⟨path, .of_no_entries L hentries⟩

end TrieMap

end NibbleTrie
