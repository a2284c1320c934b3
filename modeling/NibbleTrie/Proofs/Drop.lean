/-
Dropping empty branches.

`Dropped t t' b` says that the empty branch `b` was marked and cleared from the
slot that held it; `Pruned t t'` says that this happened any number of times.
No chain is touched.

Main statements: clearing the slot that the hash of an operation names clears
the slot that holds the branch, so `dropEmpty` does nothing but drop branches
(`Layout.dropEmpty_pruned`); dropping keeps the layout (`Pruned.layout`).
-/
import NibbleTrie.Proofs.Relink
import NibbleTrie.Trie.Removal

namespace NibbleTrie

namespace Trie

variable {κ : Type u} {ν : Type v} {t t' : Trie κ ν} {path : BranchId → List Nibble}

/-- `t'` is `t` without the branch `b`, which is empty. -/
structure Dropped (t t' : Trie κ ν) (b : BranchId) : Prop where
  entries : t'.entries = t.entries
  branches_size : t'.branches.size = t.branches.size
  count : t'.count = t.count
  empty : ∀ i, t.slot b i = .empty
  dead : ∀ c, t'.isDead c = (decide (b = c) || t.isDead c)
  parent : ∀ c, t'.parent? c = t.parent? c
  slot : ∀ c i, t'.slot c i = if t.slot c i = .branch b then .empty else t.slot c i
  ne_root : b ≠ root

/-- Marking an empty branch and clearing the slot that holds it. -/
theorem Layout.dropped (L : Layout path t) {b p : BranchId} {j : Nibble}
    (hs : t.slot p j = .branch b) (hempty : ∀ i, t.slot b i = .empty) :
    Dropped t ((t.markDead b).setSlot p j .empty) b where
  entries := rfl
  branches_size := by simp
  count := rfl
  empty := hempty
  dead c := by rw [isDead_setSlot, isDead_markDead]
  parent c := by rw [parent?_setSlot, parent?_markDead]
  slot c i := by
    have hp : p < t.branches.size :=
      lt_of_isDead_eq_false (L.live_of_slot (i := j) (by rw [hs]; simp))
    rw [slot_setSlot, branches_markDead_size, slot_markDead]
    by_cases h : p = c ∧ j = i
    · obtain ⟨rfl, rfl⟩ := h
      rw [if_pos ⟨rfl, rfl, hp⟩, if_pos hs]
    · rw [if_neg fun h' => h ⟨h'.1, h'.2.1⟩, if_neg fun h' => h (L.holder_unique hs h')]
  ne_root := L.ne_root_of_held hs

namespace Dropped

variable {b : BranchId}

theorem slot_eq (D : Dropped t t' b) {c : BranchId} {i : Nibble} {s : Slot} (hs : s ≠ .empty) :
    t'.slot c i = s ↔ t.slot c i = s ∧ s ≠ .branch b := by
  rw [D.slot]
  constructor
  · intro h
    split at h
    · exact absurd h.symm hs
    · next hne => exact ⟨h, fun hb => hne (h.trans hb)⟩
  · rintro ⟨h, hne⟩
    rw [if_neg fun hb => hne (h.symm.trans hb), h]

theorem chainAt_eq (D : Dropped t t' b) (c : BranchId) (i : Nibble) :
    t'.chainAt c i = t.chainAt c i := by
  rw [chainAt, chainAt, chainOf_congr D.entries, D.slot]
  split
  · next h => rw [h]; rfl
  · rfl

theorem live_iff (D : Dropped t t' b) {c : BranchId} :
    t'.isDead c = false ↔ b ≠ c ∧ t.isDead c = false := by
  rw [D.dead]; simp

/-- The branch that held the dropped one stays. -/
theorem live_holder (D : Dropped t t' b) (L : Layout path t) {p : BranchId} {j : Nibble}
    (hs : t.slot p j = .branch b) : t'.isDead p = false := by
  refine D.live_iff.mpr ⟨?_, L.live_of_slot (i := j) (by rw [hs]; simp)⟩
  rintro rfl
  rw [D.empty] at hs
  cases hs

theorem layout (L : Layout path t) (D : Dropped t t' b) : Layout path t' where
  root_live := D.live_iff.mpr ⟨D.ne_root, L.root_live⟩
  root_path := L.root_path
  root_parent := (D.parent root).trans L.root_parent
  depth h := L.depth (D.live_iff.mp h).2
  child_live {c i a} hs := by
    obtain ⟨hs', hne⟩ := (D.slot_eq (by simp)).mp hs
    exact D.live_iff.mpr ⟨fun h => hne (h ▸ rfl), L.child_live hs'⟩
  child_parent hs := (D.parent _).trans (L.child_parent ((D.slot_eq (by simp)).mp hs).1)
  child_path hs := L.child_path ((D.slot_eq (by simp)).mp hs).1
  held {c} hc hne := by
    obtain ⟨hbc, hlive⟩ := D.live_iff.mp hc
    obtain ⟨a, i, hs⟩ := L.held hlive hne
    exact ⟨a, i, (D.slot_eq (by simp)).mpr ⟨hs, by simpa using Ne.symm hbc⟩⟩
  dead_empty {c} hc i := by
    rw [D.slot]
    split
    · rfl
    · rw [D.dead, Bool.or_eq_true, decide_eq_true_eq] at hc
      rcases hc with rfl | hc
      · exact D.empty i
      · exact L.dead_empty hc i
  head_lt hs := D.entries ▸ L.head_lt ((D.slot_eq (by simp)).mp hs).1
  falling := L.falling.congr D.entries
  apart he he' := by
    rw [D.chainAt_eq] at he he'
    exact L.apart he he'

end Dropped

/-- `t'` is `t` without some branches, each of them empty when it was dropped. -/
inductive Pruned : Trie κ ν → Trie κ ν → Prop
  | refl (t : Trie κ ν) : Pruned t t
  | head {t u t' : Trie κ ν} {b : BranchId} : Dropped t u b → Pruned u t' → Pruned t t'

namespace Pruned

theorem entries (P : Pruned t t') : t'.entries = t.entries := by
  induction P with
  | refl => rfl
  | head D _ ih => exact ih.trans D.entries

theorem count (P : Pruned t t') : t'.count = t.count := by
  induction P with
  | refl => rfl
  | head D _ ih => exact ih.trans D.count

theorem branches_size (P : Pruned t t') : t'.branches.size = t.branches.size := by
  induction P with
  | refl => rfl
  | head D _ ih => exact ih.trans D.branches_size

theorem layout (L : Layout path t) (P : Pruned t t') : Layout path t' := by
  induction P with
  | refl => exact L
  | head D _ ih => exact ih (D.layout L)

theorem chainAt_eq (P : Pruned t t') (c : BranchId) (i : Nibble) :
    t'.chainAt c i = t.chainAt c i := by
  induction P with
  | refl => rfl
  | head D _ ih => exact ih.trans (D.chainAt_eq c i)

/-- No mark is taken off. -/
theorem live_of_live (P : Pruned t t') {c : BranchId} (hc : t'.isDead c = false) :
    t.isDead c = false := by
  induction P with
  | refl => exact hc
  | head D _ ih => exact (D.live_iff.mp (ih hc)).2

end Pruned

/-- The parent of a live branch holds it in the slot that any hash on its way names. -/
theorem Layout.slot_parent (L : Layout path t) {h : UInt64} {b p : BranchId} {level : Nat}
    (hlive : t.isDead b = false) (hp : t.parent? b = some p) (hpre : path b <+: digits h)
    (hlevel : (path b).length + level = 15) :
    t.slot p (nibble h (level + 1)) = .branch b ∧ path p <+: digits h ∧
      (path p).length + (level + 1) = 15 := by
  have hne : b ≠ root := by
    rintro rfl
    rw [L.root_parent] at hp
    cases hp
  obtain ⟨a, i, hs⟩ := L.held hlive hne
  obtain rfl : a = p := Option.some.inj ((L.child_parent hs).symm.trans hp)
  have hpath := L.child_path hs
  rw [hpath, List.length_append, List.length_singleton] at hlevel
  rw [hpath] at hpre
  obtain ⟨hpre', _, hi⟩ := concat_prefix_digits.mp hpre
  rw [show 15 - (path a).length = level + 1 by omega] at hi
  exact ⟨hi ▸ hs, hpre', by omega⟩

/-- Dropping from `b` upwards along a hash on whose way `b` stands. -/
theorem Layout.dropEmptyFrom_pruned {h : UInt64} :
    ∀ {fuel : Nat} {t : Trie κ ν} {b : BranchId} {level : Nat}, Layout path t →
      t.isDead b = false → path b <+: digits h → (path b).length + level = 15 →
      Pruned t (dropEmptyFrom h fuel b level t).1
  | 0, t, _, _, _, _, _, _ => .refl t
  | fuel + 1, t, b, level, L, hlive, hpre, hlevel => by
    rw [dropEmptyFrom]
    cases hp : t.parent? b with
    | none => exact .refl t
    | some p =>
      by_cases he : t.isEmptyBranch b = true
      · obtain ⟨hs, hpre', hlevel'⟩ := L.slot_parent hlive hp hpre hlevel
        have D := L.dropped hs ((isEmptyBranch_iff t b).mp he).2
        simp only [he, if_true]
        exact .head D (dropEmptyFrom_pruned (D.layout L) (D.live_holder L hs) hpre' hlevel')
      · simp only [he]
        exact .refl t

theorem Layout.dropEmpty_pruned (L : Layout path t) {h : UInt64} {site : Site}
    (F : Fits path t h site) : Pruned t (t.dropEmpty site h).1 :=
  Layout.dropEmptyFrom_pruned L F.live ((List.prefix_append _ _).trans F.path_prefix) F.level

end Trie

end NibbleTrie
