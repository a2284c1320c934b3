/-
Reading after writing.

What each write to the tables of a trie does to what is read from them.  A
write touches one table, and in it one row; the equations say what changes
there and what is left alone.
-/
import NibbleTrie.Trie.Basic

namespace NibbleTrie

theorem Slot.isEmpty_iff (s : Slot) : s.isEmpty = true ↔ s = .empty := by
  cases s <;> simp [isEmpty]

theorem Slot.eq_chain_of_head? {s : Slot} {e : EntryId} (h : s.head? = some e) : s = .chain e := by
  cases s <;> simp_all [head?]

namespace Branch

@[simp] theorem get_new (p : Option BranchId) (i : Nibble) : (new p).get i = .empty := by
  simp [new, get]

/-- A written slot reads back, and every other slot is as before. -/
theorem get_set (b : Branch) (i j : Nibble) (s : Slot) :
    (b.set i s).get j = if i = j then s else b.get j := by
  by_cases h : i = j
  · simp [set, get, h]
  · have hne : (i : Nat) ≠ j := fun e => h (Fin.ext e)
    simp [set, get, h, hne]

/-- The test for an empty branch, by its slots. -/
theorem isEmpty_iff (b : Branch) : b.isEmpty = true ↔ ∀ i : Nibble, b.get i = .empty := by
  simp only [isEmpty, Vector.all_eq_true, Slot.isEmpty_iff]
  exact ⟨fun h i => h i i.isLt, fun h i hi => h ⟨i, hi⟩⟩

end Branch

namespace Trie

variable {κ : Type u} {ν : Type v}

/-! ## Tables that a write does not touch -/

@[simp] theorem branches_setNext (t : Trie κ ν) (e : EntryId) (n : Option EntryId) :
    (t.setNext e n).branches = t.branches := rfl

@[simp] theorem branches_pushEntry (t : Trie κ ν) (x : Entry κ ν) :
    (t.pushEntry x).branches = t.branches := rfl

@[simp] theorem branches_addCount (t : Trie κ ν) (n : Int) :
    (t.addCount n).branches = t.branches := rfl

@[simp] theorem entries_setSlot (t : Trie κ ν) (b : BranchId) (i : Nibble) (s : Slot) :
    (t.setSlot b i s).entries = t.entries := rfl

@[simp] theorem entries_markDead (t : Trie κ ν) (b : BranchId) :
    (t.markDead b).entries = t.entries := rfl

@[simp] theorem entries_pushBranches (t : Trie κ ν) (bs : List Branch) :
    (t.pushBranches bs).entries = t.entries := rfl

@[simp] theorem entries_addCount (t : Trie κ ν) (n : Int) :
    (t.addCount n).entries = t.entries := rfl

@[simp] theorem count_setSlot (t : Trie κ ν) (b : BranchId) (i : Nibble) (s : Slot) :
    (t.setSlot b i s).count = t.count := rfl

@[simp] theorem count_setNext (t : Trie κ ν) (e : EntryId) (n : Option EntryId) :
    (t.setNext e n).count = t.count := rfl

@[simp] theorem count_setLink (t : Trie κ ν) (l : Link) (n : Option EntryId) :
    (t.setLink l n).count = t.count := by
  cases l <;> rfl

@[simp] theorem count_markDead (t : Trie κ ν) (b : BranchId) :
    (t.markDead b).count = t.count := rfl

@[simp] theorem count_pushEntry (t : Trie κ ν) (x : Entry κ ν) :
    (t.pushEntry x).count = t.count := rfl

@[simp] theorem count_pushBranches (t : Trie κ ν) (bs : List Branch) :
    (t.pushBranches bs).count = t.count := rfl

@[simp] theorem count_addCount (t : Trie κ ν) (n : Int) :
    (t.addCount n).count = t.count + n := rfl

/-! ## Readings that a write does not touch -/

@[simp] theorem slot_setNext (t : Trie κ ν) (e : EntryId) (n : Option EntryId) (b : BranchId)
    (i : Nibble) : (t.setNext e n).slot b i = t.slot b i := rfl

@[simp] theorem slot_pushEntry (t : Trie κ ν) (x : Entry κ ν) (b : BranchId) (i : Nibble) :
    (t.pushEntry x).slot b i = t.slot b i := rfl

@[simp] theorem slot_addCount (t : Trie κ ν) (n : Int) (b : BranchId) (i : Nibble) :
    (t.addCount n).slot b i = t.slot b i := rfl

@[simp] theorem isDead_setNext (t : Trie κ ν) (e : EntryId) (n : Option EntryId) (b : BranchId) :
    (t.setNext e n).isDead b = t.isDead b := rfl

@[simp] theorem isDead_pushEntry (t : Trie κ ν) (x : Entry κ ν) (b : BranchId) :
    (t.pushEntry x).isDead b = t.isDead b := rfl

@[simp] theorem isDead_addCount (t : Trie κ ν) (n : Int) (b : BranchId) :
    (t.addCount n).isDead b = t.isDead b := rfl

@[simp] theorem parent?_setNext (t : Trie κ ν) (e : EntryId) (n : Option EntryId) (b : BranchId) :
    (t.setNext e n).parent? b = t.parent? b := rfl

@[simp] theorem parent?_pushEntry (t : Trie κ ν) (x : Entry κ ν) (b : BranchId) :
    (t.pushEntry x).parent? b = t.parent? b := rfl

@[simp] theorem parent?_addCount (t : Trie κ ν) (n : Int) (b : BranchId) :
    (t.addCount n).parent? b = t.parent? b := rfl

@[simp] theorem next?_setSlot (t : Trie κ ν) (b : BranchId) (i : Nibble) (s : Slot)
    (e : EntryId) : (t.setSlot b i s).next? e = t.next? e := rfl

@[simp] theorem next?_markDead (t : Trie κ ν) (b : BranchId) (e : EntryId) :
    (t.markDead b).next? e = t.next? e := rfl

@[simp] theorem next?_pushBranches (t : Trie κ ν) (bs : List Branch) (e : EntryId) :
    (t.pushBranches bs).next? e = t.next? e := rfl

@[simp] theorem next?_addCount (t : Trie κ ν) (n : Int) (e : EntryId) :
    (t.addCount n).next? e = t.next? e := rfl

/-! ## Branches -/

@[simp] theorem branches_setSlot_size (t : Trie κ ν) (b : BranchId) (i : Nibble) (s : Slot) :
    (t.setSlot b i s).branches.size = t.branches.size := by
  simp [setSlot]

@[simp] theorem branches_markDead_size (t : Trie κ ν) (b : BranchId) :
    (t.markDead b).branches.size = t.branches.size := by
  simp [markDead]

/-- A written slot reads back, and every other slot is as before. -/
theorem slot_setSlot (t : Trie κ ν) (b b' : BranchId) (i i' : Nibble) (s : Slot) :
    (t.setSlot b i s).slot b' i' =
      if b = b' ∧ i = i' ∧ b < t.branches.size then s else t.slot b' i' := by
  unfold slot setSlot
  simp only [Array.getElem?_modify]
  by_cases hb : b = b'
  · subst hb
    by_cases hlt : b < t.branches.size
    · simp [hlt, Branch.get_set]
    · simp [hlt]
  · simp [hb]

theorem slot_markDead (t : Trie κ ν) (b b' : BranchId) (i : Nibble) :
    (t.markDead b).slot b' i = t.slot b' i := by
  unfold slot markDead
  simp only [Array.getElem?_modify]
  by_cases hb : b = b'
  · subst hb
    by_cases hlt : b < t.branches.size <;> simp [hlt, Branch.get]
  · simp [hb]

/-- New branches leave the slots of the old ones alone. -/
theorem slot_pushBranches_of_lt (t : Trie κ ν) (bs : List Branch) {b : BranchId} (i : Nibble)
    (h : b < t.branches.size) : (t.pushBranches bs).slot b i = t.slot b i := by
  simp [slot, pushBranches, Array.getElem?_append_left h]

/-- Past the old branches stand the new ones, in order. -/
theorem slot_pushBranches_of_ge (t : Trie κ ν) (bs : List Branch) {b : BranchId} (i : Nibble)
    (h : t.branches.size ≤ b) :
    (t.pushBranches bs).slot b i =
      (bs[b - t.branches.size]?.map (·.get i)).getD .empty := by
  simp [slot, pushBranches, Array.getElem?_append_right h]

@[simp] theorem pushBranches_nil (t : Trie κ ν) : t.pushBranches [] = t := by
  simp [pushBranches]

theorem isDead_pushBranches_of_lt (t : Trie κ ν) (bs : List Branch) {b : BranchId}
    (h : b < t.branches.size) : (t.pushBranches bs).isDead b = t.isDead b := by
  simp [isDead, pushBranches, Array.getElem?_append_left h]

theorem isDead_pushBranches_of_ge (t : Trie κ ν) (bs : List Branch) {b : BranchId}
    (h : t.branches.size ≤ b) :
    (t.pushBranches bs).isDead b = (bs[b - t.branches.size]?.map (·.dead)).getD true := by
  simp [isDead, pushBranches, Array.getElem?_append_right h]

theorem parent?_pushBranches_of_lt (t : Trie κ ν) (bs : List Branch) {b : BranchId}
    (h : b < t.branches.size) : (t.pushBranches bs).parent? b = t.parent? b := by
  simp [parent?, pushBranches, Array.getElem?_append_left h]

theorem parent?_pushBranches_of_ge (t : Trie κ ν) (bs : List Branch) {b : BranchId}
    (h : t.branches.size ≤ b) :
    (t.pushBranches bs).parent? b = bs[b - t.branches.size]?.bind (·.parent) := by
  simp [parent?, pushBranches, Array.getElem?_append_right h]

theorem slot_of_size_le {t : Trie κ ν} {b : BranchId} (h : t.branches.size ≤ b) (i : Nibble) :
    t.slot b i = .empty := by
  simp [slot, Array.getElem?_eq_none h]

theorem isDead_of_size_le {t : Trie κ ν} {b : BranchId} (h : t.branches.size ≤ b) :
    t.isDead b = true := by
  simp [isDead, Array.getElem?_eq_none h]

/-- A live branch stands in the table. -/
theorem lt_of_isDead_eq_false {t : Trie κ ν} {b : BranchId} (h : t.isDead b = false) :
    b < t.branches.size := by
  by_cases hb : b < t.branches.size
  · exact hb
  · simp [isDead, hb] at h

theorem isDead_setSlot (t : Trie κ ν) (b b' : BranchId) (i : Nibble) (s : Slot) :
    (t.setSlot b i s).isDead b' = t.isDead b' := by
  unfold isDead setSlot
  simp only [Array.getElem?_modify]
  by_cases hb : b = b'
  · subst hb
    by_cases hlt : b < t.branches.size <;> simp [hlt, Branch.set]
  · simp [hb]

/-- A branch is marked and no mark is taken off. -/
theorem isDead_markDead (t : Trie κ ν) (b b' : BranchId) :
    (t.markDead b).isDead b' = (decide (b = b') || t.isDead b') := by
  unfold isDead markDead
  simp only [Array.getElem?_modify]
  by_cases hb : b = b'
  · subst hb
    by_cases hlt : b < t.branches.size <;> simp [hlt]
  · simp [hb]

theorem parent?_setSlot (t : Trie κ ν) (b b' : BranchId) (i : Nibble) (s : Slot) :
    (t.setSlot b i s).parent? b' = t.parent? b' := by
  unfold parent? setSlot
  simp only [Array.getElem?_modify]
  by_cases hb : b = b'
  · subst hb
    by_cases hlt : b < t.branches.size <;> simp [hlt, Branch.set]
  · simp [hb]

theorem parent?_markDead (t : Trie κ ν) (b b' : BranchId) :
    (t.markDead b).parent? b' = t.parent? b' := by
  unfold parent? markDead
  simp only [Array.getElem?_modify]
  by_cases hb : b = b'
  · subst hb
    by_cases hlt : b < t.branches.size <;> simp [hlt]
  · simp [hb]

/-- The test for an empty branch, by its slots. -/
theorem isEmptyBranch_iff (t : Trie κ ν) (b : BranchId) :
    t.isEmptyBranch b = true ↔ b < t.branches.size ∧ ∀ i, t.slot b i = .empty := by
  unfold isEmptyBranch slot
  by_cases hlt : b < t.branches.size
  · simp [hlt, Branch.isEmpty_iff]
  · simp [hlt]

/-! ## Entries -/

@[simp] theorem entries_setNext_size (t : Trie κ ν) (e : EntryId) (n : Option EntryId) :
    (t.setNext e n).entries.size = t.entries.size := by
  simp [setNext]

/-- A written link reads back, and every other link is as before. -/
theorem next?_setNext (t : Trie κ ν) (e e' : EntryId) (n : Option EntryId) :
    (t.setNext e n).next? e' =
      if e = e' ∧ e < t.entries.size then n else t.next? e' := by
  unfold next? setNext
  simp only [Array.getElem?_modify]
  by_cases he : e = e'
  · subst he
    by_cases hlt : e < t.entries.size <;> simp [hlt]
  · simp [he]

theorem next?_pushEntry_of_lt (t : Trie κ ν) (x : Entry κ ν) {e : EntryId}
    (h : e < t.entries.size) : (t.pushEntry x).next? e = t.next? e := by
  simp [next?, pushEntry, Array.getElem?_push, Nat.ne_of_lt h]

theorem next?_pushEntry_self (t : Trie κ ν) (x : Entry κ ν) :
    (t.pushEntry x).next? t.entries.size = x.next := by
  simp [next?, pushEntry]

end Trie

end NibbleTrie
