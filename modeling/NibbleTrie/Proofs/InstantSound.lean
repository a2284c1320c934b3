/-
Lawful keys at every instant.

With any keys a map is laid out at every instant (`Instant.Good`).  With lawful
keys it is in good order as well: entries stand where their hashes put them, and
no key has two of them.  An operation that puts its key in has to find it absent
for that.  It looks for the key in the slot that it holds, and lets every value
count; and if a builder runs in between, the slot is left alone until it is
written, since it is held.  So `Instant.Sound` keeps of what is under way that a
plan is the plan of an operation, and that the key of a builder is absent from
the slot that is held for it.

Main statement: `Instant.Reachable.sound`.
-/
import NibbleTrie.Proofs.Instant

namespace NibbleTrie

variable {κ : Type u} {ν : Type v}

/-- A plan that puts its key in where it finds nothing lets every value count. -/
theorem Op.accept_of_new [BEq ν] {op : Op κ ν} {plan : Plan κ ν} (hplan : op.plan? = some plan)
    (hnew : (plan.judge none).2.new.isSome) : plan.accept = TrieMap.anyValue := by
  rw [Op.new_judge_none hplan] at hnew
  obtain ⟨item, hitem⟩ := Option.isSome_iff_exists.mp hnew
  exact (Op.entry_key hplan hitem).2

namespace Trie

variable [BEq κ] {t : Trie κ ν} {path : BranchId → List Nibble} {hash : κ → UInt64} {site : Site}

/-- If a slot shows nothing for a key, the search from the slot finds nothing. -/
theorem locate_of_sought?_eq_none {k : κ} {accept : ν → Bool}
    (hs : (t.slot site.branch site.index).isBranch = false)
    (h : t.sought? site k accept = none) : t.locate site k accept = .ok none := by
  obtain ⟨found, hloc⟩ := Layout.exists_locate hs k accept
  rw [sought?, hloc, Option.map_eq_none_iff] at h
  rw [hloc, h]

/-- Carrying out a plan makes one write at most, and keeps entries where their hashes put them. -/
theorem Keyed.carryOut_moves [EquivBEq κ] (law : Lawful hash) (K : Keyed hash path t)
    {plan : Plan κ ν} (F : Fits path t (hash plan.key) site)
    (hs : (t.slot site.branch site.index).isBranch = false)
    (hnew : (plan.judge none).2.new.isSome → plan.accept = TrieMap.anyValue) :
    Moves hash t (t.carryOut hash site plan).state := by
  obtain ⟨found, hloc⟩ := Layout.exists_locate hs plan.key plan.accept
  rw [carryOut_eq hloc]
  dsimp only
  cases found with
  | some x =>
    obtain ⟨_, _, _, _, hk, _, _⟩ := K.locate_some hloc
    cases hedit : (plan.judge (Option.map Placed.item (some x))).2 with
    | keep => exact .inl rfl
    | remove => exact (K.removeAt_acts law F hloc ()).moves
    | put k v =>
      have hkey : (x.entry.key == k) = true := by
        rcases plan.put_key hedit with rfl | ⟨e, he, rfl⟩
        · exact hk
        · cases he
          exact BEq.rfl
      exact (K.replace_acts law hloc hkey v ()).moves
  | none =>
    cases hedit : (plan.judge (Option.map Placed.item none)).2 with
    | keep => exact .inl rfl
    | remove => exact .inl rfl
    | put k v =>
      obtain rfl : k = plan.key := by
        rcases plan.put_key hedit with h | ⟨e, he, _⟩
        · exact h
        · cases he
      have hput : (plan.judge none).2 = .put plan.key v := hedit
      rw [hnew (by rw [hput]; rfl)] at hloc
      exact (K.insertAt_acts law F hs hloc v).moves

end Trie

namespace TrieMap

variable [BEq κ] {m : TrieMap κ ν} {held : Held}

/-- A change of one generation that makes one write at most leads to a later map. -/
theorem Evolves.of_update {ρ : Type w} {g : Nat} {change : Trie κ ν → Effect (Trie κ ν) ρ}
    (S : m.Sound) (hg : g ≤ m.generation)
    (M : Trie.Moves m.hash (m.trieAt g) (change (m.trieAt g)).state) :
    m.Evolves (m.update g change).state := by
  have A : Trie.Acts m.hash (m.trieAt g) (change (m.trieAt g)) fun _ =>
      ((change (m.trieAt g)).result, (change (m.trieAt g)).state.toList) :=
    ⟨M, fun _ _ => ⟨rfl, .refl _⟩⟩
  exact (Acts.of_update hg A).evolves S

variable [EquivBEq κ] [BEq ν]

/-- Carrying out the plan of an operation on the slot that it holds leads to a later map. -/
theorem carryOut_evolves (S : m.Sound) {op : Op κ ν} {plan : Plan κ ν}
    (hplan : op.plan? = some plan) (G : m.Grips (m.hash plan.key) held) :
    m.Evolves (m.carryOut held plan).state := by
  obtain ⟨path, K, F⟩ := (G.holds S).fits
  exact .of_update S G.generation_le
    (K.carryOut_moves S.lawful F G.not_branch (Op.accept_of_new hplan))

end TrieMap

/-- A plan that is carried out is the plan of an operation, and a builder runs for a key that is
absent from the slot that is held for it. -/
def Work.Sure [BEq κ] [BEq ν] (m : TrieMap κ ν) : Work κ ν → Prop
  | .holding plan _ => ∃ op : Op κ ν, op.plan? = some plan
  | .building k held => (Pending.building k held : Pending κ ν).Ready m
  | .searching _ _ | .walking _ _ => True

namespace Instant

variable [BEq κ] [BEq ν] {s s' : Instant κ ν}

/-- The map is in good order, and what is under way will keep it so. -/
structure Sound (s : Instant κ ν) : Prop where
  map : s.map.Sound
  sure : ∀ w ∈ s.works, w.Sure s.map

variable {m m' : TrieMap κ ν} {P Q W : List (Work κ ν)}

theorem Sound.evolve (E : m.Evolves m') (hsure : ∀ w ∈ W, w.Sure m) (hr : Respects W m m') :
    Sound ⟨m', W⟩ where
  map := E.sound
  sure w hw := by
    cases w with
    | searching p a => trivial
    | walking g c => trivial
    | holding plan held =>
      have hplan : ∃ op : Op κ ν, op.plan? = some plan := hsure _ hw
      exact hplan
    | building k held => exact (hr _ hw held rfl).ready E (hsure _ hw)

theorem Sound.exchange {w : Work κ ν} (S : Sound ⟨m, P ++ w :: Q⟩) (w' : Work κ ν)
    (h : w'.Sure m) : Sound ⟨m, P ++ w' :: Q⟩ :=
  ⟨S.map, forall_exchange S.sure h⟩

theorem Sound.begin (S : Sound ⟨m, W⟩) (w : Work κ ν) (h : w.Sure m) : Sound ⟨m, w :: W⟩ :=
  ⟨S.map, List.forall_mem_cons.mpr ⟨h, S.sure⟩⟩

variable [EquivBEq κ]

/-- Every step leads to a later map. -/
theorem Step.evolves (h : Step s s') (G : s.Good) (S : s.Sound) : s.map.Evolves s'.map := by
  cases h with
  | @write m P Q plan held _ =>
    have hw : m.Grips (m.hash plan.key) held := G.ready (.holding plan held) (by simp)
    obtain ⟨op, hplan⟩ : ∃ op : Op κ ν, op.plan? = some plan :=
      S.sure (.holding plan held) (by simp)
    exact TrieMap.carryOut_evolves S.map hplan hw
  | @built m P Q k held v _ =>
    have hb : (Pending.building k held : Pending κ ν).Ready m :=
      S.sure (.building k held) (by simp)
    exact TrieMap.insertHeld_evolves S.map hb.1 hb.2 v
  | clear => exact TrieMap.evolves_clear S.map
  | _ => exact .refl S.map

theorem Step.sound (h : Step s s') (G : s.Good) (S : s.Sound) : s'.Sound := by
  have E := h.evolves G S
  cases h with
  | arrive _ => exact S.begin (.searching _ _) trivial
  | pass _ => exact S.exchange (.searching _ _) trivial
  | @hold m P Q p a e held _ _ _ _ => exact S.exchange (.holding p.plan held) ⟨.probe p, rfl⟩
  | again _ _ _ _ _ => exact S.exchange (.searching _ _) trivial
  | @miss m P Q p a held _ _ _ => exact S.exchange (.holding p.plan held) ⟨.probe p, rfl⟩
  | @grip m W op plan held _ hplan _ => exact S.begin (.holding plan held) ⟨op, hplan⟩
  | write hr => exact .evolve E (forall_rest S.sure) hr
  | @build m P Q k outcome held hnone =>
    have hw : m.Grips (m.hash k) held :=
      G.ready (.holding (Probe.getOrBuild k outcome).plan held) (by simp)
    exact S.exchange (.building k held)
      ⟨hw.holds S.map, Trie.locate_of_sought?_eq_none hw.not_branch hnone⟩
  | built v hr => exact .evolve E (forall_rest S.sure) hr
  | clear => exact .evolve E S.sure G.respects_clear
  | walk => exact S.begin (.walking _ _) trivial
  | visit _ => exact S.exchange (.walking _ _) trivial
  | leave => exact ⟨S.map, forall_rest S.sure⟩

/-- With lawful keys the map is in good order at every instant. -/
theorem Reachable.sound {hash : κ → UInt64} (law : Lawful hash) (h : Reachable hash s) :
    s.Sound := by
  induction h with
  | made M => exact ⟨M.sound law, fun _ h => absurd h List.not_mem_nil⟩
  | step hreach hs ih => exact hs.sound hreach.good ih

end Instant

end NibbleTrie
