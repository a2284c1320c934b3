/-
Coming to hold a slot, whatever the keys are.

A slot that is held is on the way of the hash it is held for, its branch is
live, and it holds no branch (`Grips`).  An operation gets there in one of two
ways: it walks from the root and holds the slot on which the walk ends, or it
searches the chain of an arrival for a match and then holds the slot of the
arrival, beginning again from the root as long as that cannot be held
(`Matching`).

Main statements: neither way ends with a fault (`Laid.exists_holdSlot`,
`Laid.exists_matching`), and both lead to a grip.
-/
import NibbleTrie.Proofs.Change

namespace NibbleTrie

namespace TrieMap

variable {κ : Type u} {ν : Type v} [BEq κ] {m m' : TrieMap κ ν} {a : Arrival} {held : Held}
  {h : UInt64} {k : κ} {accept : ν → Bool}

/-! ## Slots that can be written -/

omit [BEq κ] in
/-- A slot on the way of the hash `h` that can be written. -/
structure Grips (m : TrieMap κ ν) (h : UInt64) (held : Held) : Prop where
  generation_le : held.generation ≤ m.generation
  aimed : (m.trieAt held.generation).Aimed h held.site
  writable : (m.trieAt held.generation).isWritable held.site = true

namespace Grips

omit [BEq κ]

theorem fits {path : BranchId → List Nibble} (G : m.Grips h held)
    (L : Trie.Layout path (m.trieAt held.generation)) :
    Trie.Fits path (m.trieAt held.generation) h held.site :=
  G.aimed.fits L (Trie.isWritable_iff.mp G.writable).1

theorem not_branch (G : m.Grips h held) :
    ((m.trieAt held.generation).slot held.site.branch held.site.index).isBranch = false :=
  (Trie.isWritable_iff.mp G.writable).2

end Grips

omit [BEq κ] in
theorem Arrived.grips (ha : m.Arrived h a) (hh : m.hold? a = some held) :
    m.Grips h held ∧ held.generation = a.generation := by
  obtain ⟨rfl, hw⟩ := hold?_eq_some hh
  exact ⟨⟨ha.generation_le, ha.aimed, hw⟩, rfl⟩

namespace Laid

/-- A walk from the root arrives, at a slot that can be held then. -/
theorem exists_arrive (H : m.Laid) (h : UInt64) : ∃ a, m.arrive h = .ok a ∧ m.Arrived h a ∧
    a.generation = m.generation ∧ m.hold? a = some ⟨a.generation, a.site⟩ := by
  obtain ⟨path, L⟩ := H.layout_current
  obtain ⟨site, harrive, F, hs⟩ := arrive_eq L h
  have hw : m.current.isWritable site = true := Trie.isWritable_iff.mpr ⟨F.live, hs⟩
  refine ⟨_, harrive, arrived_arrive L harrive, rfl, ?_⟩
  rw [hold?, trieAt_generation, if_pos hw]

/-- The slot of a hash can be held. -/
theorem exists_holdSlot (H : m.Laid) (h : UInt64) : ∃ held, m.holdSlot h = .ok held ∧
    m.Grips h held ∧ held.generation = m.generation := by
  obtain ⟨a, harrive, ha, hg, hhold⟩ := H.exists_arrive h
  obtain ⟨G, hg'⟩ := ha.grips hhold
  exact ⟨_, by rw [holdSlot, harrive]; simp only [hhold], G, hg'.trans hg⟩

/-- A slot that was held is on the way of its hash, in the current trie. -/
theorem holdSlot_grips (H : m.Laid) (hheld : m.holdSlot h = .ok held) :
    m.Grips h held ∧ held.generation = m.generation := by
  obtain ⟨held', hheld', G, hg⟩ := H.exists_holdSlot h
  cases hheld.symm.trans hheld'
  exact ⟨G, hg⟩

end Laid

/-! ## Slots that hold a match -/

/-- The first entry with an accepted value that the search from the head of an arrival finds. -/
def find? (m : TrieMap κ ν) (a : Arrival) (k : κ) (accept : ν → Bool) :
    Option (EntryId × Entry κ ν) :=
  a.head.bind fun head => (m.trieAt a.generation).search head k accept

/-- From an arrival a slot with a match comes to be held, or none. -/
inductive Matching (m : TrieMap κ ν) (k : κ) (accept : ν → Bool) :
    Arrival → Option Held → Prop
  | missed {a : Arrival} : m.find? a k accept = none → Matching m k accept a none
  | held {a : Arrival} {held : Held} {found : EntryId × Entry κ ν} :
      m.find? a k accept = some found → m.hold? a = some held → Matching m k accept a (some held)
  /-- The slot was split or its branch dropped, so everything begins again from the root. -/
  | again {a b : Arrival} {r : Option Held} {found : EntryId × Entry κ ν} :
      m.find? a k accept = some found → m.hold? a = none → m.arrive (m.hash k) = .ok b →
      Matching m k accept b r → Matching m k accept a r

theorem holdMatching_zero : m.holdMatching k accept 0 a =
    match m.find? a k accept with
    | none => .ok none
    | some _ =>
      match m.hold? a with
      | some held => .ok (some held)
      | none => .error .unsettled := by
  rw [holdMatching.eq_def, find?]
  dsimp only
  cases a.head.bind fun head => (m.trieAt a.generation).search head k accept with
  | none => rfl
  | some _ => cases m.hold? a <;> rfl

theorem holdMatching_succ (retries : Nat) : m.holdMatching k accept (retries + 1) a =
    match m.find? a k accept with
    | none => .ok none
    | some _ =>
      match m.hold? a with
      | some held => .ok (some held)
      | none =>
        match m.arrive (m.hash k) with
        | .error f => .error f
        | .ok a => m.holdMatching k accept retries a := by
  rw [holdMatching.eq_def, find?]
  dsimp only
  cases a.head.bind fun head => (m.trieAt a.generation).search head k accept with
  | none => rfl
  | some _ => cases m.hold? a <;> rfl

/-- The search for a match ends, with one new beginning at most. -/
theorem Laid.exists_matching (H : m.Laid) (k : κ) (accept : ν → Bool) (a : Arrival) :
    ∃ r, m.holdMatching k accept probeRetries a = .ok r ∧ m.Matching k accept a r := by
  rw [probeRetries, holdMatching_succ]
  cases hfind : m.find? a k accept with
  | none => exact ⟨none, rfl, .missed hfind⟩
  | some found =>
    cases hhold : m.hold? a with
    | some held => exact ⟨some held, rfl, .held hfind hhold⟩
    | none =>
      obtain ⟨b, harrive, _, _, hhold'⟩ := H.exists_arrive (m.hash k)
      simp only [harrive, holdMatching_zero]
      cases hfind' : m.find? b k accept with
      | none => exact ⟨none, rfl, .again hfind hhold harrive (.missed hfind')⟩
      | some found' =>
        simp only [hhold']
        exact ⟨_, rfl, .again hfind hhold harrive (.held hfind' hhold')⟩

/-- A slot with a match is held where the arrival was, or in the current trie. -/
theorem Matching.grips (M : m.Matching k accept a (some held)) (H : m.Laid)
    (ha : m.Arrived (m.hash k) a) : m.Grips (m.hash k) held ∧
      (held.generation = a.generation ∨ held.generation = m.generation) := by
  generalize hr : some held = r at M
  induction M with
  | missed _ => cases hr
  | held _ hhold =>
    cases hr
    obtain ⟨G, hg⟩ := ha.grips hhold
    exact ⟨G, .inl hg⟩
  | again _ _ harrive _ ih =>
    obtain ⟨b, harrive', hb, hgen, _⟩ := H.exists_arrive (m.hash k)
    cases harrive.symm.trans harrive'
    obtain ⟨G, hg⟩ := ih hb hr
    exact ⟨G, .inr (hg.elim (fun h => h.trans hgen) id)⟩

/-- If no slot is held, a search found no match: the one from the arrival, or one from the root. -/
theorem Matching.find?_eq_none (M : m.Matching k accept a none) :
    m.find? a k accept = none ∨
      ∃ b, m.arrive (m.hash k) = .ok b ∧ m.find? b k accept = none := by
  generalize hr : (none : Option Held) = r at M
  induction M with
  | missed hnone => exact .inl hnone
  | held _ _ => cases hr
  | again _ _ harrive _ ih =>
    rcases ih hr with hnone | hlater
    · exact .inr ⟨_, harrive, hnone⟩
    · exact .inr hlater

end TrieMap

end NibbleTrie
