/-
The size is exact, in every generation and at every instant.

The running count is adjusted apart from the links, so that it is right has to be
said of both together: it is the number of entries that are met by going down
from the root and along the chains (`Trie.Exact`).  An operation that arrived in
one generation and was overtaken by a clearing finishes where it holds its slot,
and counts there.

Main statement: `Instant.Reachable.sizes_exact`.
-/
import Mathlib.Data.Set.Card
import NibbleTrie.Proofs.Running
import NibbleTrie.Proofs.WellFormed

namespace NibbleTrie

variable {κ : Type u} {ν : Type v}

namespace Trie

variable {t : Trie κ ν} {path : BranchId → List Nibble}

/-- The entry `e` is met by going down from the root and along the chains. -/
def Meets (t : Trie κ ν) (e : EntryId) : Prop := ∃ p l, t.Reach p l ∧ t.target l = .chain e

/-- The running count is the number of entries that are met. -/
structure Exact (t : Trie κ ν) : Prop where
  finite : {e | t.Meets e}.Finite
  count : t.count = {e | t.Meets e}.ncard

theorem Reach.meets_of_linked {p : List Nibble} {cur : Option EntryId} {l : List EntryId}
    (h : t.Linked cur l) : ∀ {link : Link}, t.Reach p link → t.target link = .ofHead cur →
      ∀ e ∈ l, t.Meets e := by
  induction h with
  | nil => exact fun _ _ _ he => absurd he List.not_mem_nil
  | @cons a l _ _ ih =>
    intro link hreach htarget e he
    rcases List.mem_cons.mp he with rfl | he
    · exact ⟨p, link, hreach, htarget⟩
    · exact ih (.along hreach htarget) rfl e he

/-- Every slot of a live branch is met, at the end of the path of the branch. -/
theorem Layout.reach_slot (L : Layout path t) {b : BranchId} (hb : t.isDead b = false) (i : Nibble) :
    t.Reach (path b ++ [i]) (.slot b i) := by
  induction hn : (path b).length generalizing b i with
  | zero =>
    obtain rfl : b = Trie.root := by
      by_contra hne
      obtain ⟨a, j, hs⟩ := L.held hb hne
      simp [L.child_path hs] at hn
    rw [L.root_path]
    exact .root i
  | succ n ih =>
    have hne : b ≠ Trie.root := by
      rintro rfl
      rw [L.root_path] at hn
      cases hn
    obtain ⟨a, j, hs⟩ := L.held hb hne
    have ha : t.isDead a = false := L.live_of_slot (i := j) (by rw [hs]; simp)
    rw [L.child_path hs] at hn ⊢
    exact .down i (ih ha j (by simpa using hn)) hs

/-- What is met is what is in the chain of a slot. -/
theorem Layout.meets_iff (L : Layout path t) {e : EntryId} : t.Meets e ↔ t.Live e := by
  constructor
  · rintro ⟨p, l, hreach, htarget⟩
    obtain ⟨b, i, _, _, hl⟩ := L.of_reach hreach
    exact ⟨b, i, L.mem_of_target hl htarget⟩
  · rintro ⟨b, i, he⟩
    have hreach := L.reach_slot (L.live_of_mem_chainAt he) i
    obtain ⟨head, hs⟩ := slot_of_mem_chainAt he
    refine Reach.meets_of_linked (L.linked_chainAt b i) hreach ?_ e he
    rw [target, hs]
    rfl

theorem Layout.exact (L : Layout path t) (hc : t.Counted) : t.Exact := by
  have hset : {e | t.Meets e} = (t.ids.toFinset : Set EntryId) := by
    ext e
    simp only [Set.mem_ofPred_eq, List.coe_toFinset, L.meets_iff, L.mem_ids]
  refine ⟨hset ▸ Finset.finite_toSet _, ?_⟩
  rw [hset, Set.ncard_coe_finset, List.toFinset_card_of_nodup L.nodup_ids]
  exact hc

end Trie

/-! ## What is under way comes to its end -/

section Ends
variable [BEq κ] {m m' : TrieMap κ ν} {g : Nat} {gone new : Option (κ × ν)}

/-- A change of a detached generation leaves the current trie alone. -/
theorem TrieMap.Amends.current_eq (A : m.Amends m' g gone new) (hg : g < m.generation) :
    m'.current = m.current := by
  have hother := A.other m.generation (Nat.le_refl _) (Nat.ne_of_gt hg)
  rw [← m.trieAt_generation, ← hother, ← A.generation_eq, m'.trieAt_generation]

/-- What is under way changes one generation at most, the one of its slot if it holds one. -/
theorem Work.Ends.amends [BEq ν] {w : Work κ ν} {e : Effect (TrieMap κ ν) (Reply κ ν)}
    (h : w.Ends m e) (H : m.Laid) (R : w.Ready m) :
    ∃ g gone new, m.Amends e.state g gone new ∧ ∀ held ∈ w.held?, g = held.generation := by
  cases h with
  | searching p a =>
    obtain ⟨g, hg, O⟩ := H.finish_outcome p R
    have hle : g ≤ m.generation := hg.elim (fun h => h ▸ R.generation_le) Nat.le_of_eq
    obtain ⟨gone, new, A⟩ := O.amends hle
    exact ⟨g, gone, new, A, fun _ h => by cases h⟩
  | holding plan held =>
    obtain ⟨gone, new, A⟩ := (H.carryOut_outcome R).amends (TrieMap.Grips.generation_le R)
    exact ⟨_, gone, new, A, fun _ h => by cases h; rfl⟩
  | building k held v =>
    obtain ⟨gone, new, A⟩ := H.insertHeld_amends R v
    exact ⟨_, gone, new, A, fun _ h => by cases h; rfl⟩
  | walking g c => exact ⟨_, none, none, .keep (Nat.le_refl _), fun _ h => by cases h⟩

end Ends

/-- At every instant, and in every generation, the running count is the number of entries that are
met from the root, and the size of the map is the number of entries that it lists.  Something under
way that holds a slot of a detached generation, or that changes one when it comes to its end, leaves
the current trie as it is. -/
theorem Instant.Reachable.sizes_exact [BEq κ] [BEq ν] {hash : κ → UInt64} {s : Instant κ ν}
    (h : Reachable hash s) :
    (∀ g ≤ s.map.generation, (s.map.trieAt g).Exact) ∧ s.map.size = s.map.toList.length ∧
    ∀ w ∈ s.works, ∀ e, w.Ends s.map e →
      (∀ held ∈ w.held?, held.generation < s.map.generation →
        e.state.current = s.map.current) ∧
      ∀ g < s.map.generation, e.state.trieAt g ≠ s.map.trieAt g →
        e.state.current = s.map.current := by
  have H := h.good.laid
  refine ⟨?_, H.size_eq, ?_⟩
  · intro g hg
    obtain ⟨path, L⟩ := H.layout g hg
    exact L.exact (H.counted g hg)
  · intro w hw e he
    obtain ⟨g, _, _, A, hheld⟩ := he.amends H (h.good.ready w hw)
    constructor
    · intro held hh hlt
      exact A.current_eq (hheld held hh ▸ hlt)
    · intro g' hg' hne
      have hg : g' = g := by
        by_contra h
        exact hne (A.other g' (Nat.le_of_lt hg') h)
      exact A.current_eq (hg ▸ hg')

/-- The slot of the hash 0 below the root of the first trie. -/
def firstSlot : Held := ⟨0, ⟨Trie.root, nibble 0 15, 15⟩⟩

/-- A map of two keys that was cleared while their slot was held, to set the value of one. -/
def overtaken : Instant Nat Nat :=
  ⟨twoKeys.clear.state, [.holding (.store 1 6 fun _ => .done) firstSlot]⟩

theorem reachable_overtaken : Instant.Reachable (fun _ => 0) overtaken := by
  have hmade : Instant.Reachable (fun _ => 0) (⟨TrieMap.empty fun _ => 0, []⟩ : Instant Nat Nat) :=
    .made .empty
  have hkeys : Instant.Reachable (fun _ => 0) ⟨twoKeys, []⟩ :=
    hmade.run (fun _ h => absurd h List.not_mem_nil) [.insert 2 10, .insert 1 5]
  have hplan : (Op.insert 1 6 : Op Nat Nat).plan? = some (.store 1 6 fun _ => .done) := rfl
  have hheld : Instant.Reachable (fun _ => 0) ⟨twoKeys, overtaken.works⟩ :=
    hkeys.step (.grip (fun _ h => by cases h) hplan rfl)
  exact hheld.step .clear

/-- The value is set in the detached trie, and both tries have the size they say. -/
theorem sizes_exact_overtaken :
    (overtaken.map.trieAt 0).Exact ∧ (overtaken.map.trieAt 1).Exact ∧
      (overtaken.map.carryOut firstSlot (.store 1 6 fun _ => .done)).state.current =
        overtaken.map.current := by
  obtain ⟨exact, _, ends⟩ := Instant.Reachable.sizes_exact reachable_overtaken
  refine ⟨exact 0 (by decide), exact 1 (by decide), ?_⟩
  exact (ends _ (List.mem_singleton.mpr rfl) _ (.holding _ _)).1 _ rfl (by decide)

end NibbleTrie
