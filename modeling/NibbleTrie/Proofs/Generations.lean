/-
The generations of a map.

A map in good order (`Sound`) has entries where their hashes put them in every
generation, and a true count.  Changes of a map change one generation at most
and leave the others alone (`trieAt_update`).

Main statements: the slot of a key can be held (`Sound.holdSlot_eq`), and a slot
that an operation arrived at stays on the way of its hash as long as its branch
is live (`Aimed.write`, `Aimed.fits`).
-/
import NibbleTrie.Proofs.Represent
import NibbleTrie.Proofs.Growth

namespace NibbleTrie

namespace Trie

variable {κ : Type u} {ν : Type v} {t t' : Trie κ ν} {path path' : BranchId → List Nibble}
  {hash : κ → UInt64} {h : UInt64} {site : Site}

/-- A branch that was reached through the slots `p`, and is as long as it is live. -/
def Stays (t : Trie κ ν) (p : List Nibble) (b : BranchId) : Prop :=
  b < t.branches.size ∧ (t.isDead b = false → t.At p b)

/-- A slot that was on the way of `h` when it was met, and is as long as its branch is live. -/
def Aimed (t : Trie κ ν) (h : UInt64) (site : Site) : Prop :=
  ∃ p, t.Stays p site.branch ∧ p ++ [site.index] <+: digits h ∧ p.length + site.level = 15

theorem Layout.stays (L : Layout path t) {b : BranchId} (hb : t.isDead b = false) :
    t.Stays (path b) b :=
  ⟨lt_of_isDead_eq_false hb, L.at_of_live⟩

theorem Stays.path_eq {p : List Nibble} {b : BranchId} (h : t.Stays p b) (L : Layout path t)
    (hb : t.isDead b = false) : path b = p :=
  (L.at_iff.mp (h.2 hb)).2

theorem Fits.aimed (L : Layout path t) (F : Fits path t h site) : t.Aimed h site :=
  ⟨path site.branch, L.stays F.live, F.path_prefix, F.level⟩

theorem Aimed.fits (A : t.Aimed h site) (L : Layout path t) (hlive : t.isDead site.branch = false) :
    Fits path t h site := by
  obtain ⟨p, hstays, hpre, hlevel⟩ := A
  obtain rfl := hstays.path_eq L hlive
  exact ⟨hlive, hpre, hlevel⟩

theorem isWritable_iff : t.isWritable site = true ↔
    t.isDead site.branch = false ∧ (t.slot site.branch site.index).isBranch = false := by
  simp [isWritable]

/-- A branch keeps its place until it is dropped. -/
theorem Stays.write {gone : Option EntryId} {new : Option (κ × ν)} {p : List Nibble}
    {b : BranchId} (h : t.Stays p b) (L : Layout path t) (W : Write path path' t t' gone new) :
    t'.Stays p b := by
  refine ⟨Nat.lt_of_lt_of_le h.1 W.branches_le, fun hlive => ?_⟩
  have hlive' : t.isDead b = false := by
    cases hd : t.isDead b with
    | false => rfl
    | true => exact absurd (W.dead_old b hd h.1) (by rw [hlive]; simp)
  rw [← h.path_eq L hlive', ← W.path_old b h.1]
  exact W.layout.at_of_live hlive

theorem Aimed.write {gone : Option EntryId} {new : Option (κ × ν)} (A : t.Aimed h site)
    (L : Layout path t) (W : Write path path' t t' gone new) : t'.Aimed h site := by
  obtain ⟨p, hstays, hpre, hlevel⟩ := A
  exact ⟨p, hstays.write L W, hpre, hlevel⟩

end Trie

namespace TrieMap

variable {κ : Type u} {ν : Type v} {ρ : Type w} {m : TrieMap κ ν} {g g' : Nat}

/-! ## Changing one generation -/

@[simp] theorem trieAt_generation (m : TrieMap κ ν) : m.trieAt m.generation = m.current := by
  simp [trieAt, generation]

theorem update_result (m : TrieMap κ ν) (g : Nat) (change : Trie κ ν → Effect (Trie κ ν) ρ) :
    (m.update g change).result = (change (m.trieAt g)).result := by
  obtain ⟨hash, detached, current⟩ := m
  simp only [update, trieAt]
  cases detached[g]? <;> rfl

theorem update_eq_of_result {change : Trie κ ν → Effect (Trie κ ν) ρ} {r : Except Fault ρ}
    (h : (change (m.trieAt g)).result = r) :
    m.update g change = ⟨r, (m.update g change).state, (m.update g change).events⟩ := by
  rw [← h, ← update_result]

@[simp] theorem update_hash (m : TrieMap κ ν) (g : Nat)
    (change : Trie κ ν → Effect (Trie κ ν) ρ) : (m.update g change).state.hash = m.hash := by
  obtain ⟨hash, detached, current⟩ := m
  simp only [update]
  cases detached[g]? <;> rfl

@[simp] theorem update_generation (m : TrieMap κ ν) (g : Nat)
    (change : Trie κ ν → Effect (Trie κ ν) ρ) :
    (m.update g change).state.generation = m.generation := by
  obtain ⟨hash, detached, current⟩ := m
  simp only [update, generation]
  cases detached[g]? <;> simp

/-- A change of one generation leaves the others alone. -/
theorem trieAt_update (change : Trie κ ν → Effect (Trie κ ν) ρ) (hg : g ≤ m.generation)
    (hg' : g' ≤ m.generation) :
    (m.update g change).state.trieAt g' =
      if g' = g then (change (m.trieAt g)).state else m.trieAt g' := by
  obtain ⟨hash, detached, current⟩ := m
  simp only [generation] at hg hg'
  rcases Nat.lt_or_eq_of_le hg with hlt | rfl
  · have hget : detached[g]? = some detached[g] := Array.getElem?_eq_getElem hlt
    simp only [update, hget, trieAt, Array.getElem?_setIfInBounds]
    by_cases h : g' = g
    · subst h
      simp [hlt]
    · simp [h, Ne.symm h]
  · have hget : detached[detached.size]? = none := Array.getElem?_eq_none (Nat.le_refl _)
    simp only [update, hget, trieAt]
    by_cases h : g' = detached.size
    · subst h
      simp
    · have hlt : g' < detached.size := Nat.lt_of_le_of_ne hg' h
      simp [h, hlt]

theorem update_congr {change change' : Trie κ ν → Effect (Trie κ ν) ρ}
    (h : change (m.trieAt g) = change' (m.trieAt g)) : m.update g change = m.update g change' := by
  obtain ⟨hash, detached, current⟩ := m
  simp only [update, trieAt] at h ⊢
  cases hd : detached[g]? with
  | some t =>
    rw [hd, Option.getD_some] at h
    simp only [h]
  | none =>
    rw [hd, Option.getD_none] at h
    simp only [h]

theorem update_map {ρ' : Type w'} (change : Trie κ ν → Effect (Trie κ ν) ρ) (f : ρ → ρ') :
    (m.update g change).map f = m.update g fun t => (change t).map f := by
  obtain ⟨hash, detached, current⟩ := m
  simp only [update]
  cases detached[g]? <;> rfl

/-- If nothing is written to the trie, nothing is written to the map. -/
theorem update_of_keep {change : Trie κ ν → Effect (Trie κ ν) ρ} {r : Except Fault ρ}
    {events : List Event} (h : change (m.trieAt g) = ⟨r, m.trieAt g, events⟩) :
    m.update g change = ⟨r, m, events⟩ := by
  obtain ⟨hash, detached, current⟩ := m
  simp only [update, trieAt] at h ⊢
  cases hd : detached[g]? with
  | some t =>
    obtain ⟨hlt, rfl⟩ := Array.getElem?_eq_some_iff.mp hd
    rw [hd, Option.getD_some] at h
    have hset : detached.setIfInBounds g detached[g] = detached := by
      simp [Array.setIfInBounds, hlt]
    simp only [h, hset]
  | none =>
    rw [hd, Option.getD_none] at h
    simp only [h]

/-! ## Maps in good order -/

variable [BEq κ]

/-- Equal keys have equal hashes, and in every generation entries stand where their hashes put
them and are counted. -/
structure Sound (m : TrieMap κ ν) : Prop where
  lawful : Lawful m.hash
  keyed : ∀ g ≤ m.generation, ∃ path, Trie.Keyed m.hash path (m.trieAt g)
  counted : ∀ g ≤ m.generation, (m.trieAt g).Counted

namespace Sound

theorem layout (S : m.Sound) (hg : g ≤ m.generation) : ∃ path, Trie.Layout path (m.trieAt g) := by
  obtain ⟨path, K⟩ := S.keyed g hg
  exact ⟨path, K.toLayout⟩

theorem keyed_current (S : m.Sound) : ∃ path, Trie.Keyed m.hash path m.current := by
  obtain ⟨path, K⟩ := S.keyed m.generation (Nat.le_refl _)
  exact ⟨path, m.trieAt_generation ▸ K⟩

/-- The size of a map is the number of its keys. -/
theorem size_eq (S : m.Sound) : m.size = m.toList.length := by
  obtain ⟨path, K⟩ := S.keyed_current
  have hc := S.counted m.generation (Nat.le_refl _)
  rw [trieAt_generation] at hc
  exact hc.size_eq K.toLayout

end Sound

/-- A map whose current trie has no entries and which has no other one. -/
theorem sound_of_no_entries {hash : κ → UInt64} (law : Lawful hash) {t : Trie κ ν}
    {path : BranchId → List Nibble} (L : Trie.Layout path t) (h : t.entries = #[])
    (hc : t.count = 0) : (⟨hash, #[], t⟩ : TrieMap κ ν).Sound where
  lawful := law
  keyed g _ := ⟨path, by simpa [trieAt] using Trie.Keyed.of_no_entries L h⟩
  counted g _ := by simpa [trieAt] using L.counted_of_no_entries h hc

theorem sound_withCapacity {hash : κ → UInt64} (law : Lawful hash) (capacity : Nat) :
    (withCapacity hash capacity : Effect (TrieMap κ ν) Unit).state.Sound := by
  obtain ⟨path, L, hentries, hcount⟩ := Trie.exists_layout_prebuilt (κ := κ) (ν := ν) capacity
  exact sound_of_no_entries law L hentries hcount

omit [BEq κ] in
/-- Clearing keeps the tries there are and begins an empty one. -/
theorem trieAt_clear (m : TrieMap κ ν) (hg : g ≤ m.generation) :
    m.clear.state.trieAt g = m.trieAt g := by
  obtain ⟨hash, detached, current⟩ := m
  simp only [generation] at hg
  rcases Nat.lt_or_eq_of_le hg with hlt | rfl
  · simp [clear, trieAt, Array.getElem?_push, Nat.ne_of_lt hlt, hlt]
  · simp [clear, trieAt]

omit [BEq κ] in
theorem generation_clear (m : TrieMap κ ν) : m.clear.state.generation = m.generation + 1 := by
  simp [clear, generation]

theorem Sound.clear (S : m.Sound) : m.clear.state.Sound := by
  have hnew : m.clear.state.trieAt (m.generation + 1) = Trie.empty := by
    rw [← generation_clear, trieAt_generation]
    rfl
  refine ⟨S.lawful, fun g hg => ?_, fun g hg => ?_⟩ <;> rw [generation_clear] at hg <;>
    rcases Nat.lt_or_eq_of_le hg with hlt | rfl
  · rw [m.trieAt_clear (Nat.le_of_lt_succ hlt)]
    exact S.keyed g (Nat.le_of_lt_succ hlt)
  · rw [hnew]
    exact ⟨_, .of_no_entries Trie.layout_empty rfl⟩
  · rw [m.trieAt_clear (Nat.le_of_lt_succ hlt)]
    exact S.counted g (Nat.le_of_lt_succ hlt)
  · rw [hnew]
    exact Trie.layout_empty.counted_of_no_entries rfl rfl

/-! ## Arriving and holding -/

omit [BEq κ] in
/-- A fresh arrival is on a slot that can be held. -/
theorem arrive_eq {path : BranchId → List Nibble} (L : Trie.Layout path m.current) (h : UInt64) :
    ∃ site, m.arrive h = .ok ⟨m.generation, site, (m.current.slot site.branch site.index).head?⟩ ∧
      Trie.Fits path m.current h site ∧
      (m.current.slot site.branch site.index).isBranch = false := by
  obtain ⟨site, hroute, F, hs⟩ := L.route_eq h
  exact ⟨site, by rw [arrive, hroute]; rfl, F, hs⟩

omit [BEq κ] in
theorem hold?_eq_some {a : Arrival} {held : Held} (h : m.hold? a = some held) :
    held = ⟨a.generation, a.site⟩ ∧ (m.trieAt a.generation).isWritable a.site = true := by
  rw [hold?] at h
  split at h
  · next hw => exact ⟨(Option.some.inj h).symm, hw⟩
  · cases h

omit [BEq κ] in
/-- The slot of a hash can be held. -/
theorem holdSlot_eq {path : BranchId → List Nibble} (L : Trie.Layout path m.current)
    (h : UInt64) : ∃ site, m.holdSlot h = .ok ⟨m.generation, site⟩ ∧
      Trie.Fits path m.current h site ∧
      (m.current.slot site.branch site.index).isBranch = false := by
  obtain ⟨site, harrive, F, hs⟩ := arrive_eq L h
  refine ⟨site, ?_, F, hs⟩
  have hw : m.current.isWritable site = true := Trie.isWritable_iff.mpr ⟨F.live, hs⟩
  simp only [holdSlot, harrive, hold?, trieAt_generation, hw, if_true]

/-- Where an operation on a key of hash `h` arrived, now or some time ago. -/
structure Arrived (m : TrieMap κ ν) (h : UInt64) (a : Arrival) : Prop where
  generation_le : a.generation ≤ m.generation
  head_lt : ∀ e, a.head = some e → e < (m.trieAt a.generation).entries.size
  aimed : (m.trieAt a.generation).Aimed h a.site

omit [BEq κ] in
theorem arrived_arrive {path : BranchId → List Nibble} (L : Trie.Layout path m.current)
    {h : UInt64} {a : Arrival} (ha : m.arrive h = .ok a) : m.Arrived h a := by
  obtain ⟨site, harrive, F, hs⟩ := arrive_eq L h
  rw [harrive] at ha
  cases ha
  refine ⟨Nat.le_refl _, fun e he => ?_, ?_⟩
  · rw [trieAt_generation]
    exact (L.linked_chainAt site.branch site.index).head_lt he
  · rw [trieAt_generation]
    exact F.aimed L

end TrieMap

end NibbleTrie
