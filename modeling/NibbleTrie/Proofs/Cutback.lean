/-
What a removal cuts away.

If other entries remain in the chain of the slot, a removal changes that chain
alone.  Otherwise branches are cut back from the slot upwards, as long as nothing
but the way down to the slot is left in them (`Bare`) and the root is not
reached.  That the parent's slot is found by the hash of the operation and not by
the branch makes no difference: what is cleared is the slot that holds the branch
(`Down`), whatever the keys are.

Main statement: `Instant.Reachable.removal_cuts_back`.
-/
import NibbleTrie.Proofs.Alone
import NibbleTrie.Proofs.Idle
import Mathlib.Order.Bounds.Defs

namespace NibbleTrie

variable {κ : Type u} {ν : Type v}

namespace Trie

variable {t t' u u' : Trie κ ν} {path : BranchId → List Nibble} {site : Site} {h : UInt64}
  {b c : BranchId} {i : Nibble} {n m : Nat}

/-- The branch `n` levels above. -/
def above? (t : Trie κ ν) (b : BranchId) : Nat → Option BranchId
  | 0 => some b
  | n + 1 => (above? t b n).bind t.parent?

/-- The slot `i` of `b`, which is `n` levels above the branch of the site, is the one through which
the way leads down to the site. -/
def Down (t : Trie κ ν) (site : Site) : Nat → BranchId → Nibble → Prop
  | 0, b, i => b = site.branch ∧ i = site.index
  | n + 1, b, i => ∃ c, t.above? site.branch n = some c ∧ t.slot b i = .branch c

/-- The branch `n` levels above the branch of the site is not the root, and nothing is in it but
what is in its slot down to the site. -/
def Bare (t : Trie κ ν) (site : Site) (n : Nat) : Prop :=
  ∃ b, t.above? site.branch n = some b ∧ b ≠ root ∧
    ∀ i, t.slot b i = .empty ∨ t.Down site n b i

/-- The `n` lowest branches above the slot `site` are marked dead, the slots down from them and the
one down from the next branch are cleared, and nothing else has changed but that one entry less is
counted. -/
structure Cutback (t t' : Trie κ ν) (site : Site) (n : Nat) : Prop where
  entries : t'.entries = t.entries
  count : t'.count = t.count - 1
  branches_size : t'.branches.size = t.branches.size
  dead : ∀ b, t'.isDead b = true ↔
    t.isDead b = true ∨ ∃ m < n, t.above? site.branch m = some b
  parent : ∀ b, t'.parent? b = t.parent? b
  cleared : ∀ m ≤ n, ∀ b i, t.Down site m b i → t'.slot b i = .empty
  kept : ∀ b i, (∀ m ≤ n, ¬ t.Down site m b i) → t'.slot b i = t.slot b i

/-! ## The branches above a slot -/

/-- Branches above a live one are live, and each is shorter by one. -/
theorem Layout.above?_spec (L : Layout path t) (hlive : t.isDead b = false) :
    ∀ {n : Nat} {c : BranchId}, t.above? b n = some c →
      t.isDead c = false ∧ (path c).length + n = (path b).length
  | 0, _, h => by
    cases h
    exact ⟨hlive, rfl⟩
  | n + 1, c, h => by
    obtain ⟨a, ha, hc⟩ := Option.bind_eq_some_iff.mp h
    obtain ⟨halive, hlength⟩ := L.above?_spec hlive ha
    have hne : a ≠ root := by
      rintro rfl
      rw [L.root_parent] at hc
      cases hc
    obtain ⟨a', j, hs⟩ := L.held halive hne
    obtain rfl : a' = c := Option.some.inj ((L.child_parent hs).symm.trans hc)
    rw [L.child_path hs, List.length_append, List.length_singleton] at hlength
    exact ⟨L.live_of_slot (i := j) (by rw [hs]; simp), by omega⟩

/-- A branch is above another one in one way. -/
theorem Layout.above?_inj (L : Layout path t) (hlive : t.isDead b = false)
    (hn : t.above? b n = some c) (hm : t.above? b m = some c) : n = m := by
  have h₁ := (L.above?_spec hlive hn).2
  have h₂ := (L.above?_spec hlive hm).2
  omega

/-- The slots on the way down to the site are those of the branches above it. -/
theorem Layout.above?_of_down (L : Layout path t) (h : t.Down site n b i) :
    t.above? site.branch n = some b := by
  cases n with
  | zero => rw [h.1]; rfl
  | succ n =>
    obtain ⟨c, hc, hs⟩ := h
    rw [above?, hc]
    exact L.child_parent hs

/-! ## One branch after the other -/

/-- After `n` branches were cut off, the next one is empty exactly if it was bare. -/
theorem Cutback.bare_iff (C : Cutback t u site n) (L : Layout path t)
    (hlive : t.isDead site.branch = false) (hb : t.above? site.branch n = some b) :
    t.Bare site n ↔ b ≠ root ∧ ∀ i, u.slot b i = .empty := by
  have hslot : ∀ i, ¬ t.Down site n b i → u.slot b i = t.slot b i := by
    intro i hi
    refine C.kept b i fun m _ hd => ?_
    obtain rfl := L.above?_inj hlive hb (L.above?_of_down hd)
    exact hi hd
  constructor
  · rintro ⟨b', hb', hne, hall⟩
    cases hb.symm.trans hb'
    refine ⟨hne, fun i => ?_⟩
    by_cases hi : t.Down site n b i
    · exact C.cleared n (Nat.le_refl _) b i hi
    · rw [hslot i hi]
      exact (hall i).resolve_right hi
  · rintro ⟨hne, hall⟩
    refine ⟨b, hb, hne, fun i => ?_⟩
    by_cases hi : t.Down site n b i
    · exact .inr hi
    · exact .inl (hslot i hi ▸ hall i)

/-- One branch more is cut off. -/
theorem Cutback.succ (C : Cutback t u site n) (hb : t.above? site.branch n = some b)
    (D : Dropped u u' b) : Cutback t u' site (n + 1) where
  entries := D.entries.trans C.entries
  count := D.count.trans C.count
  branches_size := D.branches_size.trans C.branches_size
  dead c := by
    rw [D.dead, Bool.or_eq_true, decide_eq_true_eq, C.dead]
    constructor
    · rintro (rfl | h | ⟨m, hm, hc⟩)
      · exact .inr ⟨n, Nat.lt_succ_self n, hb⟩
      · exact .inl h
      · exact .inr ⟨m, Nat.lt_succ_of_lt hm, hc⟩
    · rintro (h | ⟨m, hm, hc⟩)
      · exact .inr (.inl h)
      · rcases Nat.lt_succ_iff_lt_or_eq.mp hm with hm | rfl
        · exact .inr (.inr ⟨m, hm, hc⟩)
        · exact .inl (Option.some.inj (hb.symm.trans hc))
  parent c := (D.parent c).trans (C.parent c)
  cleared m hm c i hd := by
    rw [D.slot]
    split
    · rfl
    · next hne =>
      rcases Nat.le_succ_iff.mp hm with hm | rfl
      · exact C.cleared m hm c i hd
      · obtain ⟨b', hb', hs⟩ := hd
        cases hb.symm.trans hb'
        by_cases hkept : ∀ m ≤ n, ¬ t.Down site m c i
        · exact absurd ((C.kept c i hkept).trans hs) hne
        · push Not at hkept
          obtain ⟨m, hm, hd⟩ := hkept
          exact C.cleared m hm c i hd
  kept c i hkept := by
    have hsame := C.kept c i fun m hm => hkept m (Nat.le_succ_of_le hm)
    rw [D.slot, hsame, if_neg]
    exact fun hs => hkept (n + 1) (Nat.le_refl _) ⟨b, hb, hs⟩

/-- The events of the branches that are cut off, from the `n`-th one above a slot at `level` on. -/
def dropEvents (level : Nat) (count : Nat) : List Event :=
  (List.range count).map fun j => .dropped (level + 1 + j)

theorem dropEvents_succ (level count : Nat) :
    dropEvents level (count + 1) = .dropped (level + 1) :: dropEvents (level + 1) count := by
  rw [dropEvents, List.range_succ_eq_map, List.map_cons, List.map_map, dropEvents]
  refine congrArg₂ _ rfl (List.map_congr_left fun j _ => ?_)
  simp only [Function.comp]
  congr 1
  omega

/-- Dropping from the `n`-th branch above a slot upwards cuts off the bare ones up to the first that
is not. -/
theorem Layout.dropEmptyFrom_cutback (L : Layout path t) (hlive : t.isDead site.branch = false) :
    ∀ (fuel : Nat) {n : Nat} {u : Trie κ ν} {b : BranchId}, Layout path u → Cutback t u site n →
      t.above? site.branch n = some b → u.isDead b = false → path b <+: digits h →
      (path b).length + (site.level + n) = 15 → (path b).length < fuel →
      ∃ count, (∀ j < count, t.Bare site (n + j)) ∧ ¬ t.Bare site (n + count) ∧
        Cutback t (dropEmptyFrom h fuel b (site.level + n) u).1 site (n + count) ∧
        (dropEmptyFrom h fuel b (site.level + n) u).2 = dropEvents (site.level + n) count
  | 0, _, _, _, _, _, _, _, _, _, hfuel => absurd hfuel (Nat.not_lt_zero _)
  | fuel + 1, n, u, b, L', C, hb, hblive, hpre, hlevel, hfuel => by
    have hbare := C.bare_iff L hlive hb
    -- dropping stops at a branch that is the root or not empty
    have hstop : ¬ t.Bare site n → ∃ count, (∀ j < count, t.Bare site (n + j)) ∧
        ¬ t.Bare site (n + count) ∧ Cutback t u site (n + count) ∧
        ([] : List Event) = dropEvents (site.level + n) count :=
      fun hnot => ⟨0, fun _ h => absurd h (Nat.not_lt_zero _), hnot, C, rfl⟩
    rw [dropEmptyFrom]
    cases hp : u.parent? b with
    | none =>
      refine hstop fun h => (hbare.mp h).1 ?_
      exact L'.eq_root_of_parent hblive hp
    | some p =>
      dsimp only
      by_cases he : u.isEmptyBranch b = true
      · obtain ⟨hs, hpre', hlevel'⟩ := L'.slot_parent hblive hp hpre hlevel
        have hempty := ((isEmptyBranch_iff u b).mp he).2
        have D := L'.dropped hs hempty
        have habove : t.above? site.branch (n + 1) = some p := by
          rw [above?, hb, ← hp]
          exact (C.parent b).symm
        obtain ⟨count, hall, hnot, C', hevents⟩ := L.dropEmptyFrom_cutback hlive fuel
          (D.layout L') (C.succ hb D) habove (D.live_holder L' hs) hpre' hlevel' (by omega)
        simp only [if_pos he]
        refine ⟨count + 1, ?_, ?_, ?_, ?_⟩
        · rintro (_ | j) hj
          · exact hbare.mpr ⟨D.ne_root, hempty⟩
          · rw [show n + (j + 1) = n + 1 + j by omega]
            exact hall j (Nat.lt_of_succ_lt_succ hj)
        · rw [show n + (count + 1) = n + 1 + count by omega]
          exact hnot
        · rw [show n + (count + 1) = n + 1 + count by omega]
          exact C'
        · rw [dropEvents_succ]
          exact congrArg _ hevents
      · simp only [if_neg he]
        refine hstop fun h => he ((isEmptyBranch_iff u b).mpr ⟨?_, (hbare.mp h).2⟩)
        exact lt_of_isDead_eq_false hblive

/-! ## Removing an entry -/

section Remove
variable [BEq κ] {k : κ} {accept : ν → Bool} {x : Placed κ ν}

/-- Taking the last entry out of a chain clears the slot. -/
theorem Layout.unlink_cutback (L : Layout path t) (hx : t.locate site k accept = .ok (some x))
    (hc : t.chainAt site.branch site.index = [x.id]) : Cutback t (t.unlink x) site 0 := by
  obtain ⟨l₁, l₂, hc', hentry, _, _, hlink⟩ := L.locate_some hx
  obtain ⟨rfl, rfl⟩ : l₁ = [] ∧ l₂ = [] := by
    rw [hc] at hc'
    simpa [List.singleton_eq_append_iff] using hc'
  have hlive := L.live_of_mem_chainAt (e := x.id) (by rw [hc]; simp)
  have hnext : x.entry.next = none := by
    have hchain := L.linked_chainAt site.branch site.index
    rw [hc'] at hchain
    have hrest := hchain.suffix.tail
    rw [next?_of_entry hentry] at hrest
    cases hn : x.entry.next with
    | none => rfl
    | some e => rw [hn] at hrest; cases hrest
  have heq : t.unlink x =
      (t.setSlot site.branch site.index .empty).addCount (-1) := by
    rw [Trie.unlink, hlink, hnext]
    rfl
  have hslot : ∀ b i, (t.unlink x).slot b i =
      if site.branch = b ∧ site.index = i then .empty else t.slot b i := by
    intro b i
    rw [heq, slot_addCount, slot_setSlot]
    simp only [lt_of_isDead_eq_false hlive, and_true]
  rw [heq] at hslot ⊢
  exact
    { entries := rfl
      count := rfl
      branches_size := by simp
      dead := fun b => by
        rw [isDead_addCount, isDead_setSlot]
        simp
      parent := fun b => by rw [parent?_addCount, parent?_setSlot]
      cleared := fun m hm b i hd => by
        obtain rfl := Nat.le_zero.mp hm
        rw [hslot, if_pos ⟨hd.1.symm, hd.2.symm⟩]
      kept := fun b i hkept => by
        rw [hslot, if_neg fun h => hkept 0 (Nat.le_refl _) ⟨h.1.symm, h.2.symm⟩] }

/-- The removal of an entry from a slot on the way of the hash `h`: other entries remain in the
chain and nothing but the chain changes, or the bare branches above the slot are cut off, as many as
there are. -/
theorem Layout.removeAt_cutback (L : Layout path t) (F : Fits path t h site)
    (hx : t.locate site k accept = .ok (some x)) :
    (∃ l₁ l₂, l₁ ++ l₂ ≠ [] ∧
      Exchanged t (t.removeAt site h x).1 site.branch site.index l₁ [x.id] [] l₂ ∧
      (t.removeAt site h x).1.count = t.count - 1 ∧ (t.removeAt site h x).2 = []) ∨
    (t.chainAt site.branch site.index = [x.id] ∧
      ∃ n, IsGreatest {n | ∀ m < n, t.Bare site m} n ∧
        Cutback t (t.removeAt site h x).1 site n ∧
        (t.removeAt site h x).2 = dropEvents site.level n) := by
  obtain ⟨l₁, l₂, hc, hentry, _, _, hlink⟩ := L.locate_some hx
  have X := L.unlink hc hentry hlink
  have L' := L.of_exchanged X
  rw [removeAt]
  by_cases hrest : l₁ ++ l₂ = []
  · obtain ⟨rfl, rfl⟩ := List.append_eq_nil_iff.mp hrest
    have C := L.unlink_cutback hx hc
    have hempty : ((t.unlink x).slot site.branch site.index).isEmpty = true :=
      (Slot.isEmpty_iff _).mpr (C.cleared 0 (Nat.le_refl _) _ _ ⟨rfl, rfl⟩)
    have hlevel := F.level
    obtain ⟨n, hall, hnot, C', hevents⟩ := L.dropEmptyFrom_cutback F.live
      (hashGroups - site.level) (h := h) L' C rfl ((X.dead _).trans F.live)
      ((List.prefix_append _ _).trans F.path_prefix) hlevel (by simp only [hashGroups]; omega)
    rw [Nat.zero_add] at hnot C'
    refine .inr ⟨hc, n, ⟨fun m hm => ?_, fun n' hn' => ?_⟩, ?_, ?_⟩
    · rw [← Nat.zero_add m]
      exact hall m hm
    · exact Nat.le_of_not_lt fun hlt => hnot (hn' n hlt)
    · simp only [hempty, if_true]
      exact C'
    · simp only [hempty, if_true]
      exact hevents
  · have hempty : ¬ ((t.unlink x).slot site.branch site.index).isEmpty = true := by
      intro hs
      refine hrest (X.after.symm.trans ?_)
      exact chainAt_of_empty ((Slot.isEmpty_iff _).mp hs)
    simp only [hempty, Bool.false_eq_true, if_false]
    refine .inl ⟨l₁, l₂, hrest, X, ?_, trivial⟩
    rw [Trie.unlink, count_addCount, count_setLink]
    rfl

end Remove

end Trie

/-! ## Operations that remove -/

/-- The answers with which a probe tells that it has removed an entry. -/
inductive Probe.Removes : Probe κ ν → Reply κ ν → Prop
  | pop? (k : κ) (v : ν) : Removes (.pop? k) (.value? (some v))
  | erase (k : κ) : Removes (.erase k) (.flag true)
  | compareAndErase (k : κ) (old : ν) : Removes (.compareAndErase k old) (.flag true)

/-- A probe answers so only for an entry, and then it removes the entry. -/
theorem Probe.Removes.of_judge [BEq ν] {p : Probe κ ν} {r : Reply κ ν} (hr : p.Removes r)
    {found : Option (κ × ν)} (h : (p.judge found).1 = .ok r) :
    found.isSome ∧ (p.judge found).2 = .remove := by
  cases hr with
  | pop? k v => cases found <;> cases h; exact ⟨rfl, rfl⟩
  | erase k => cases found <;> cases h; exact ⟨rfl, rfl⟩
  | compareAndErase k old =>
    cases found with
    | none => cases h
    | some e =>
      simp only [judge] at h ⊢
      split at h
      · next he => exact ⟨rfl, if_pos he ▸ rfl⟩
      · cases h

theorem Probe.Removes.aim {p : Probe κ ν} {r : Reply κ ν} (hr : p.Removes r) : p.aim = .take := by
  cases hr <;> rfl

/-- The plan of a probe that has removed an entry took it out of the slot. -/
theorem Trie.carryOut_of_removes [BEq κ] [BEq ν] {t : Trie κ ν} {hash : κ → UInt64} {site : Site}
    {p : Probe κ ν} {r : Reply κ ν} (hr : p.Removes r)
    (hs : (t.slot site.branch site.index).isBranch = false)
    (hok : (t.carryOut hash site p.plan).result = .ok r) :
    ∃ x, t.locate site p.key p.accept = .ok (some x) ∧
      (t.carryOut hash site p.plan).state = (t.removeAt site (hash p.key) x).1 ∧
      (t.carryOut hash site p.plan).events = (t.removeAt site (hash p.key) x).2 := by
  obtain ⟨found, hloc⟩ := Layout.exists_locate hs p.key p.accept
  have hcarry : t.carryOut hash site p.plan =
      let verdict := p.judge (found.map Placed.item)
      let e := t.makeEdit hash site (hash p.key) verdict.2 found
      ⟨e.result.bind fun _ => verdict.1, e.state, e.events⟩ := carryOut_eq hloc
  rw [hcarry] at hok ⊢
  dsimp only at hok ⊢
  have hverdict : (p.judge (found.map Placed.item)).1 = .ok r := by
    generalize (t.makeEdit hash site (hash p.key) (p.judge (found.map Placed.item)).2
      found).result = edited at hok
    cases edited with
    | error f => cases hok
    | ok _ => exact hok
  obtain ⟨hsome, hremove⟩ := hr.of_judge hverdict
  cases found with
  | none => cases hsome
  | some x =>
    rw [hremove]
    exact ⟨x, hloc, rfl, rfl⟩

namespace TrieMap

variable [BEq κ] [BEq ν] {m : TrieMap κ ν} {p : Probe κ ν} {r : Reply κ ν}

/-- What a probe does to the map that removes the entry `x` from a slot: it changes the generation
of the slot alone.  Either other entries remain in the chain, and nothing else changes and nothing
is reported; or the bare branches above the slot are cut off, as many as there are, and reported
from the lowest one upwards. -/
structure Uproots (m : TrieMap κ ν) (p : Probe κ ν) (e : Effect (TrieMap κ ν) (Reply κ ν))
    (held : Held) (x : Placed κ ν) : Prop where
  grips : m.Grips (m.hash p.key) held
  entry : (m.trieAt held.generation).entries[x.id]? = some x.entry
  key : (x.entry.key == p.key) = true
  accepted : p.accept x.entry.value = true
  hash_eq : e.state.hash = m.hash
  generation_eq : e.state.generation = m.generation
  other : ∀ g ≤ m.generation, g ≠ held.generation → e.state.trieAt g = m.trieAt g
  cut :
    (∃ l₁ l₂, l₁ ++ l₂ ≠ [] ∧
      Trie.Exchanged (m.trieAt held.generation) (e.state.trieAt held.generation)
        held.site.branch held.site.index l₁ [x.id] [] l₂ ∧
      (e.state.trieAt held.generation).count = (m.trieAt held.generation).count - 1 ∧
      e.events = []) ∨
    ((m.trieAt held.generation).chainAt held.site.branch held.site.index = [x.id] ∧
      ∃ n, IsGreatest {n | ∀ j < n, (m.trieAt held.generation).Bare held.site j} n ∧
        Trie.Cutback (m.trieAt held.generation) (e.state.trieAt held.generation) held.site n ∧
        e.events = Trie.dropEvents held.site.level n)

omit [BEq κ] [BEq ν] in
theorem update_events {ρ : Type w} (m : TrieMap κ ν) (g : Nat)
    (change : Trie κ ν → Effect (Trie κ ν) ρ) :
    (m.update g change).events = (change (m.trieAt g)).events := by
  obtain ⟨hash, detached, current⟩ := m
  simp only [update, trieAt]
  cases detached[g]? <;> rfl

/-- Carrying out a plan that removes an entry. -/
theorem Laid.carryOut_uproots (H : m.Laid) {held : Held} (G : m.Grips (m.hash p.key) held)
    (hr : p.Removes r) (hok : (m.carryOut held p.plan).result = .ok r) :
    ∃ x, m.Uproots p (m.carryOut held p.plan) held x := by
  obtain ⟨path, L⟩ := H.layout _ G.generation_le
  rw [carryOut, update_result] at hok
  obtain ⟨x, hx, hstate, hevents⟩ := Trie.carryOut_of_removes hr G.not_branch hok
  obtain ⟨_, _, _, hentry, hkey, haccept, _⟩ := L.locate_some hx
  have hcut := L.removeAt_cutback (G.fits L) hx
  rw [← hstate, ← hevents] at hcut
  have htrie : (m.carryOut held p.plan).state.trieAt held.generation =
      ((m.trieAt held.generation).carryOut m.hash held.site p.plan).state := by
    rw [carryOut, trieAt_update _ G.generation_le G.generation_le, if_pos rfl]
  have hreport : (m.carryOut held p.plan).events =
      ((m.trieAt held.generation).carryOut m.hash held.site p.plan).events :=
    update_events m _ _
  rw [← htrie, ← hreport] at hcut
  exact ⟨x,
    { grips := G
      entry := hentry
      key := hkey
      accepted := haccept
      hash_eq := m.update_hash _ _
      generation_eq := m.update_generation _ _
      other := fun g hg hne => by rw [carryOut, trieAt_update _ G.generation_le hg, if_neg hne]
      cut := hcut }⟩

/-- A probe that goes on from its arrival and removes an entry. -/
theorem Laid.finish_uproots (H : m.Laid) {a : Arrival} (ha : m.Arrived (m.hash p.key) a)
    (hr : p.Removes r) (hok : (m.finish a p).result = .ok r) :
    ∃ held x, m.Uproots p (m.finish a p) held x := by
  have F := H.finishes p ha
  generalize m.finish a p = e at F hok ⊢
  cases F with
  | looked hp => cases hr.aim.symm.trans hp
  | present hp _ => cases hr.aim.symm.trans hp
  | absent hp _ _ => cases hr.aim.symm.trans hp
  | missed _ _ => cases (hr.of_judge hok).1
  | @matched held _ M => exact ⟨held, H.carryOut_uproots (M.grips H ha).1 hr hok⟩

end TrieMap

namespace Instant

variable [BEq κ] [BEq ν] {hash : κ → UInt64} {s : Instant κ ν} {p : Probe κ ν}

/-- What comes of a probe at an instant: it runs as a whole, or it goes on from where it is under
way. -/
inductive Comes (s : Instant κ ν) (p : Probe κ ν) : Effect (TrieMap κ ν) (Reply κ ν) → Prop
  | whole : Comes s p (s.map.apply (.probe p))
  | searching {a : Arrival} : .searching p a ∈ s.works → Comes s p (s.map.finish a p)
  | holding {held : Held} : .holding p.plan held ∈ s.works → Comes s p (s.map.carryOut held p.plan)

/-- What a removal cuts away, whatever the keys are, and wherever the probe goes on from.  If other
entries remain in the chain of the slot, no branch is dropped and nothing is reported.  Otherwise
the branches from the slot upwards are dropped that hold nothing but the way down to it, up to the
first that holds something else or to the root; they are marked, the slots down from them and from
the next branch are cleared, the drops are reported from the lowest upwards, and nothing else
changes. -/
theorem Reachable.removal_cuts_back (h : Reachable hash s)
    {e : Effect (TrieMap κ ν) (Reply κ ν)} (hcomes : s.Comes p e) {r : Reply κ ν}
    (hr : p.Removes r) (hok : e.result = .ok r) :
    ∃ held x, s.map.Uproots p e held x := by
  have H := h.good.laid
  cases hcomes with
  | whole =>
    obtain ⟨a, harrive, ha, _⟩ := H.exists_arrive (s.map.hash p.key)
    rw [TrieMap.apply_probe harrive] at hok ⊢
    exact H.finish_uproots ha hr hok
  | searching hw => exact H.finish_uproots (h.good.ready _ hw) hr hok
  | @holding held hw => exact ⟨held, H.carryOut_uproots (h.good.ready _ hw) hr hok⟩

/-- The hashes of 0 and of the other numbers part in their third group. -/
def afar (k : Nat) : UInt64 := if k = 0 then 0 else 0x0010000000000000

/-- A map of the key 1, below two branches that part it from the key 0, which is gone. -/
def deep : TrieMap Nat Nat :=
  ((TrieMap.empty afar).run [.insert 0 5, .insert 1 6, .probe (.erase 0)]).2

/-- Both branches go with the key. -/
theorem removal_cuts_back_deep :
    (∃ held x, deep.Uproots (.erase 1) (deep.apply (.probe (.erase 1))) held x) ∧
      (deep.apply (.probe (.erase 1))).events = [.dropped 14, .dropped 15] := by
  have hreach : Reachable afar ⟨deep, []⟩ := .of_made .empty _
  have law : Lawful afar := ⟨fun h => by rw [eq_of_beq h]⟩
  have M : TrieMap.Made afar (.empty afar : TrieMap Nat Nat) := .empty
  obtain ⟨hsound, hagrees⟩ := TrieMap.run_refines (M.sound law)
    [.insert 0 5, .insert 1 6, .probe (.erase 0)]
  obtain ⟨_, hlist⟩ := hagrees [] (.of_eq M.toList_eq)
  have hresult : (deep.apply (.probe (.erase 1))).result = .ok (.flag true) :=
    ((TrieMap.apply_refines hsound (.probe (.erase 1))).agrees _ hlist).1
  exact ⟨hreach.removal_cuts_back .whole (.erase 1) hresult, by decide +kernel⟩

end Instant

end NibbleTrie
