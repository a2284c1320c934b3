/-
Operations that nothing interrupts.

A probe searches from the head of its arrival, and only then holds a slot and
searches there again.  If nothing happens in between, the two searches find the
same entry, so the probe too is its plan, carried out on the slot at which the
walk for its key arrives.

Main statement: `Laid.apply_eq`.
-/
import NibbleTrie.Proofs.Outcome

namespace NibbleTrie

variable {κ : Type u} {ν : Type v}

namespace Trie

variable [BEq κ] {t : Trie κ ν}

/-- The search from an entry in hand finds what the search from its slot finds. -/
theorem searchFrom_eq_map_locateFrom (t : Trie κ ν) (k : κ) (accept : ν → Bool) :
    ∀ (fuel : Nat) (link : Link) (cur : Option EntryId),
      t.searchFrom k accept fuel cur =
        (t.locateFrom k accept fuel link cur).map fun x => (x.id, x.entry)
  | 0, _, _ => by rw [searchFrom.eq_def, locateFrom.eq_def]; rfl
  | fuel + 1, _, none => by rw [searchFrom.eq_def, locateFrom.eq_def]; rfl
  | fuel + 1, link, some e => by
    rw [searchFrom, locateFrom]
    cases t.entries[e]? with
    | none => rfl
    | some x =>
      dsimp only
      split
      · rfl
      · exact searchFrom_eq_map_locateFrom t k accept fuel (.next e) x.next

/-- In a slot that holds no branch both searches find the same. -/
theorem exists_locate_eq_search {site : Site}
    (hs : (t.slot site.branch site.index).isBranch = false) (k : κ) (accept : ν → Bool) :
    ∃ found, t.locate site k accept = .ok found ∧ found.map (fun x => (x.id, x.entry)) =
      (t.slot site.branch site.index).head?.bind fun head => t.search head k accept := by
  rw [locate]
  cases hslot : t.slot site.branch site.index with
  | empty => exact ⟨none, rfl, rfl⟩
  | branch _ => rw [hslot] at hs; cases hs
  | chain head => exact ⟨_, rfl, (searchFrom_eq_map_locateFrom t k accept _ _ _).symm⟩

/-- What a slot shows for a key is found from the head of its chain. -/
theorem sought?_eq_search {site : Site} (hs : (t.slot site.branch site.index).isBranch = false)
    (k : κ) (accept : ν → Bool) : t.sought? site k accept =
      ((t.slot site.branch site.index).head?.bind fun head => t.search head k accept).map
        fun found => (found.2.key, found.2.value) := by
  obtain ⟨found, hloc, heq⟩ := exists_locate_eq_search hs k accept
  rw [sought?, hloc, ← heq, Option.map_map]
  rfl

/-- A plan that keeps what it finds leaves the trie as it is. -/
theorem carryOut_of_keep {hash : κ → UInt64} {site : Site} {plan : Plan κ ν}
    (hs : (t.slot site.branch site.index).isBranch = false)
    (hkeep : (plan.judge (t.sought? site plan.key plan.accept)).2 = .keep) :
    t.carryOut hash site plan =
      ⟨(plan.judge (t.sought? site plan.key plan.accept)).1, t, []⟩ := by
  obtain ⟨found, hloc⟩ := Layout.exists_locate hs plan.key plan.accept
  have hfound : t.sought? site plan.key plan.accept = found.map Placed.item := by
    rw [sought?, hloc]
  rw [hfound] at hkeep ⊢
  rw [carryOut_eq hloc]
  simp only [hkeep]
  rfl

end Trie

namespace TrieMap

variable {m : TrieMap κ ν} {a : Arrival}

/-- Changing the current trie. -/
theorem update_current {ρ : Type w} (change : Trie κ ν → Effect (Trie κ ν) ρ) :
    m.update m.generation change = ⟨(change m.current).result,
      { m with current := (change m.current).state }, (change m.current).events⟩ := by
  obtain ⟨hash, detached, current⟩ := m
  have hget : detached[detached.size]? = none := Array.getElem?_eq_none (Nat.le_refl _)
  simp only [update, generation, hget]

/-- A fresh arrival is where the walk ends, and its slot can be held. -/
theorem Laid.exists_route [BEq κ] (H : m.Laid) (h : UInt64) : ∃ site,
    m.current.route h = .ok (site, (m.current.slot site.branch site.index).head?) ∧
    m.arrive h = .ok ⟨m.generation, site, (m.current.slot site.branch site.index).head?⟩ ∧
    m.holdSlot h = .ok ⟨m.generation, site⟩ ∧
    m.current.Aimed h site ∧ m.current.isWritable site = true := by
  obtain ⟨path, L⟩ := H.layout_current
  obtain ⟨site, hroute, F, hs⟩ := L.route_eq h
  have hw : m.current.isWritable site = true := Trie.isWritable_iff.mpr ⟨F.live, hs⟩
  have harrive : m.arrive h =
      .ok ⟨m.generation, site, (m.current.slot site.branch site.index).head?⟩ := by
    rw [arrive, hroute]
    rfl
  refine ⟨site, hroute, harrive, ?_, F.aimed L, hw⟩
  simp only [holdSlot, harrive, hold?, trieAt_generation, hw, if_true]

variable [BEq κ] [BEq ν] {op : Op κ ν} {plan : Plan κ ν}

/-- A probe that goes on at once carries out its plan on the slot at which it arrived. -/
theorem Laid.finish_eq (H : m.Laid) (p : Probe κ ν) {site : Site}
    (harrive : m.begin p =
      .ok ⟨m.generation, site, (m.current.slot site.branch site.index).head?⟩)
    (hheld : m.holdSlot (m.hash p.key) = .ok ⟨m.generation, site⟩)
    (hw : m.current.isWritable site = true) :
    m.finish ⟨m.generation, site, (m.current.slot site.branch site.index).head?⟩ p =
      m.carryOut ⟨m.generation, site⟩ p.plan := by
  have hs := (Trie.isWritable_iff.mp hw).2
  generalize ha :
    (⟨m.generation, site, (m.current.slot site.branch site.index).head?⟩ : Arrival) = a at harrive
  have hhold : m.hold? a = some ⟨m.generation, site⟩ := by
    rw [← ha, hold?, trieAt_generation, if_pos hw]
  have hsought : m.met? a p.key p.accept = m.current.sought? site p.key p.accept := by
    rw [met?, find?, ← ha, trieAt_generation]
    exact (Trie.sought?_eq_search hs p.key p.accept).symm
  -- without a write both sides answer what the plan says of the entry that is met
  have hkeep : (p.judge (m.met? a p.key p.accept)).2 = .keep →
      m.carryOut ⟨m.generation, site⟩ p.plan = ⟨(p.judge (m.met? a p.key p.accept)).1, m, []⟩ := by
    intro h
    rw [hsought] at h ⊢
    refine update_of_keep ?_
    rw [trieAt_generation]
    exact Trie.carryOut_of_keep hs h
  obtain ⟨path, L⟩ := H.layout_current
  have F := H.finishes p (arrived_arrive L harrive)
  generalize m.finish a p = e at F ⊢
  cases F with
  | looked hp => exact (hkeep (Probe.judge_look hp _)).symm
  | present hp hmet =>
    rw [hmet] at hkeep
    exact (hkeep (Probe.judge_fill hp _)).symm
  | absent _ _ hheld' =>
    cases hheld.symm.trans hheld'
    rfl
  | missed hp M =>
    have hmet : m.met? a p.key p.accept = none := by
      rw [met?, Option.map_eq_none_iff]
      rcases M.find?_eq_none with h | ⟨b, hb, h⟩
      · exact h
      · cases harrive.symm.trans hb
        exact h
    rw [hmet] at hkeep
    exact (hkeep (Probe.judge_take hp)).symm
  | matched _ M =>
    cases M with
    | held _ hhold' =>
      cases hhold.symm.trans hhold'
      rfl
    | again _ hhold' _ _ => cases hhold.symm.trans hhold'

/-- An operation on one key that runs alone is its plan, carried out on the slot at which the walk
for its key ends. -/
theorem Laid.apply_eq (H : m.Laid) (hplan : op.plan? = some plan) : ∃ site,
    m.current.route (m.hash plan.key) =
      .ok (site, (m.current.slot site.branch site.index).head?) ∧
    m.current.Aimed (m.hash plan.key) site ∧ m.current.isWritable site = true ∧
    m.apply op =
      ⟨(m.current.carryOut m.hash site plan).result,
        { m with current := (m.current.carryOut m.hash site plan).state },
        (m.current.carryOut m.hash site plan).events⟩ := by
  obtain ⟨site, hroute, harrive, hheld, hA, hw⟩ := H.exists_route (m.hash plan.key)
  refine ⟨site, hroute, hA, hw, ?_⟩
  have hcarry : m.carryOut ⟨m.generation, site⟩ plan = _ := update_current _
  rw [← hcarry]
  by_cases hop : ∃ p, op = .probe p
  · obtain ⟨p, rfl⟩ := hop
    cases hplan
    rw [apply_probe harrive]
    exact H.finish_eq p harrive hheld hw
  · obtain ⟨held, hheld', heq⟩ := H.atOnce hplan fun p hp => hop ⟨p, hp⟩
    cases hheld.symm.trans hheld'
    exact heq

end TrieMap

end NibbleTrie
