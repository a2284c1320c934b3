/-
The content of a trie.

What a trie lists is content in the sense of `Content`: no two keys are equal,
and a step edits the entry of its key.

Main statements: `Keyed.distinct_toList`, `Step.edit_perm`.
-/
import NibbleTrie.Proofs.Content
import NibbleTrie.Proofs.Update

namespace NibbleTrie

namespace Trie

variable {κ : Type u} {ν : Type v} {t t' : Trie κ ν} {path path' : BranchId → List Nibble}
  {hash : κ → UInt64} {gone : Option EntryId} {new : Option (κ × ν)} {k : κ}

variable [BEq κ]

theorem present_iff (L : Layout path t) : t.Present k ↔ ∃ e ∈ t.toList, (e.1 == k) = true := by
  constructor
  · rintro ⟨e, x, he, hx, hk⟩
    exact ⟨_, L.mem_toList.mpr ⟨e, x, he, hx, rfl⟩, hk⟩
  · rintro ⟨item, hitem, hk⟩
    obtain ⟨e, x, he, hx, rfl⟩ := L.mem_toList.mp hitem
    exact ⟨e, x, he, hx, hk⟩

variable [EquivBEq κ] (law : Lawful hash)
include law

/-- No two listed keys are equal. -/
theorem Keyed.distinct_toList (K : Keyed hash path t) : Content.Distinct t.toList := by
  rw [K.toList_eq, Content.Distinct, List.pairwise_filterMap]
  refine K.nodup_ids.imp_of_mem fun {a b} ha hb hne item hitem item' hitem' => ?_
  obtain ⟨x, hx, rfl⟩ := Option.map_eq_some_iff.mp hitem
  obtain ⟨x', hx', rfl⟩ := Option.map_eq_some_iff.mp hitem'
  cases hk : x.key == x'.key with
  | false => rfl
  | true =>
    exact absurd (K.eq_of_live law (K.mem_ids.mp ha) (K.mem_ids.mp hb) hx hx' hk) hne

theorem Keyed.lookup?_of_live (K : Keyed hash path t) {l : Content κ ν} (hl : t.toList.Perm l)
    {e : EntryId} {x : Entry κ ν} (he : t.Live e) (hx : t.entries[e]? = some x)
    (hk : (x.key == k) = true) : Content.lookup? l k = some (x.key, x.value) :=
  Content.lookup?_eq_some ((K.distinct_toList law).perm hl)
    (hl.mem_iff.mp (K.mem_toList.mpr ⟨e, x, he, hx, rfl⟩)) hk

/-- A step that takes the entry of a key out, if there is one, edits the content. -/
theorem Step.edit_perm (K : Keyed hash path t) (S : Step hash path path' t t' gone new)
    {l : Content κ ν} (hl : t.toList.Perm l)
    (hsome : ∀ a ∈ gone, ∀ x, t.entries[a]? = some x → (x.key == k) = true)
    (hnone : gone = none → ∀ e x, t.Live e → t.entries[e]? = some x → (x.key == k) = false) :
    t'.toList.Perm (new.toList ++ Content.without l k) := by
  obtain ⟨rest, hold, hnew⟩ := S.exchanges K.toLayout
  refine hnew.trans (List.Perm.append_left _ (List.Perm.symm ?_))
  cases hg : gone with
  | none =>
    have hw : Content.without l k = l := Content.without_eq_self fun item hitem => by
      obtain ⟨e, x, he, hx, rfl⟩ := K.mem_toList.mp (hl.mem_iff.mpr hitem)
      exact hnone hg e x he hx
    rw [hg, Option.bind_none, Option.toList_none, List.nil_append] at hold
    rw [hw]
    exact hl.symm.trans hold
  | some a =>
    obtain ⟨x, hx⟩ := entry_of_lt (K.lt_of_live (S.gone_live a hg))
    rw [hg, Option.bind_some, item?_of_entry hx, Option.toList_some] at hold
    exact Content.without_cons_perm ((K.distinct_toList law).perm hl) (hl.symm.trans hold)
      (hsome a hg x hx)

end Trie

end NibbleTrie
