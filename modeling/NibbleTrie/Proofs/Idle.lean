/-
No branch is left empty.

A branch comes into a trie with something in it, or it was built ahead.  What is
put in later keeps it from being empty, and when its last slot is cleared it is
dropped at once, with every branch above it that this leaves empty.  So a branch
that is found empty has been empty in every trie since the map was made.

Main statement: `Instant.empty_branches`.
-/
import Mathlib.Order.Interval.Finset.Nat
import NibbleTrie.Proofs.Retired

namespace NibbleTrie

variable {κ : Type u} {ν : Type v}

namespace Trie

variable {t t' : Trie κ ν} {path : BranchId → List Nibble} {p : List Nibble} {b c : BranchId}
  {i : Nibble}

/-- The slots `p` lead to the branch `b`, whose slots are all empty. -/
structure Idle (t : Trie κ ν) (p : List Nibble) (b : BranchId) : Prop where
  here : t.At p b
  empty : ∀ i, t.slot b i = .empty

theorem Layout.idle_iff (L : Layout path t) :
    t.Idle p b ↔ t.isDead b = false ∧ path b = p ∧ ∀ i, t.slot b i = .empty :=
  ⟨fun h => ⟨(L.at_iff.mp h.here).1, (L.at_iff.mp h.here).2, h.empty⟩,
    fun h => ⟨L.at_iff.mpr ⟨h.1, h.2.1⟩, h.2.2⟩⟩

theorem Idle.ne_root (h : t.Idle p b) (L : Layout path t) (hp : p ≠ []) : b ≠ root := by
  rintro rfl
  exact hp ((L.at_iff.mp h.here).2.symm.trans L.root_path)

/-! ## Writes to a chain -/

/-- Outside the branch that is written to, a branch is idle only if it was. -/
theorem Rechained.idle (R : Rechained t t' b i) (L : Layout path t) (L' : Layout path t')
    (hne : c ≠ b) (h : t'.Idle p c) : t.Idle p c := by
  obtain ⟨hlive, hpath, hempty⟩ := L'.idle_iff.mp h
  refine L.idle_iff.mpr ⟨(R.dead c).symm.trans hlive, hpath, fun j => ?_⟩
  rw [← R.slot c j fun hc => hne hc.1]
  exact hempty j

/-- An exchange that leaves an entry in the chain leaves no branch idle. -/
theorem Exchanged.idle {l₁ l₂ old new : List EntryId} (X : Exchanged t t' b i l₁ old new l₂)
    (L : Layout path t) (hne : l₁ ++ (new ++ l₂) ≠ []) (h : t'.Idle p c) : t.Idle p c := by
  refine X.toRechained.idle L (L.of_exchanged X) ?_ h
  rintro rfl
  rw [← X.after, chainAt_of_empty (h.empty i)] at hne
  exact hne rfl

/-- No branch of a split is idle. -/
theorem Split.idle {site : Site} {h₁ h₂ : UInt64} {head : EntryId} {k : Nat}
    (S : Split t t' site h₁ h₂ head k) (L : Layout path t) (F : Fits path t h₂ site)
    (h : t'.Idle p c) : t.Idle p c := by
  obtain ⟨hlive, hpath, hempty⟩ := (L.of_split F S).idle_iff.mp h
  rcases S.cases_branch c with hc | ⟨j, hj, rfl⟩ | hc
  · rw [Split.newPath_old hc] at hpath
    refine L.idle_iff.mpr ⟨(S.dead_old c hc).symm.trans hlive, hpath, fun i => ?_⟩
    rw [← S.slot_old c hc i]
    · exact hempty i
    · rintro ⟨rfl, rfl⟩
      cases S.slot_site.symm.trans (hempty _)
  · rcases Nat.lt_or_eq_of_le hj with hlt | rfl
    · have hs := S.slot_inner j hlt (nibble h₂ (site.level - 1 - j))
      rw [if_pos rfl, hempty] at hs
      cases hs
    · have hs := S.slot_last (nibble h₂ (site.level - 1 - j))
      rw [if_pos rfl, hempty] at hs
      cases hs
  · rw [isDead_of_size_le hc] at hlive
    cases hlive

/-! ## Dropping branches -/

/-- Dropping a branch can leave idle only the branch that held it. -/
theorem Dropped.idle {a : BranchId} {j : Nibble} (D : Dropped t t' b) (L : Layout path t)
    (hs : t.slot a j = .branch b) (hne : c ≠ a) (h : t'.Idle p c) : c ≠ b ∧ t.Idle p c := by
  obtain ⟨hlive, hpath, hempty⟩ := (D.layout L).idle_iff.mp h
  obtain ⟨hbc, hlive'⟩ := D.live_iff.mp hlive
  refine ⟨Ne.symm hbc, L.idle_iff.mpr ⟨hlive', hpath, fun i => ?_⟩⟩
  have hempty' := hempty i
  rw [D.slot, if_neg fun hi => hne (L.holder_unique hi hs).1] at hempty'
  exact hempty'

theorem Layout.eq_root_of_parent (L : Layout path t) (hlive : t.isDead b = false)
    (hp : t.parent? b = none) : b = root := by
  by_contra hne
  obtain ⟨a, i, hs⟩ := L.held hlive hne
  rw [L.child_parent hs] at hp
  cases hp

/-- If at most the branch `b` was left idle, dropping from `b` upwards leaves no branch idle. -/
theorem Layout.dropEmptyFrom_idle {h : UInt64} {was : List Nibble → BranchId → Prop} :
    ∀ {fuel : Nat} {t : Trie κ ν} {b : BranchId} {level : Nat}, Layout path t →
      t.isDead b = false → path b <+: digits h → (path b).length + level = 15 →
      (path b).length < fuel → (∀ p c, p ≠ [] → c ≠ b → t.Idle p c → was p c) →
      ∀ p c, p ≠ [] → (dropEmptyFrom h fuel b level t).1.Idle p c → was p c
  | 0, _, _, _, _, _, _, _, hfuel, _ => absurd hfuel (Nat.not_lt_zero _)
  | fuel + 1, t, b, level, L, hlive, hpre, hlevel, hfuel, hwas => by
    intro p c hp hidle
    rw [dropEmptyFrom] at hidle
    cases hparent : t.parent? b with
    | none =>
      rw [hparent] at hidle
      exact hwas p c hp (L.eq_root_of_parent hlive hparent ▸ Idle.ne_root hidle L hp) hidle
    | some a =>
      simp only [hparent] at hidle
      by_cases hempty : t.isEmptyBranch b = true
      · rw [if_pos hempty] at hidle
        obtain ⟨hs, hpre', hlevel'⟩ := L.slot_parent hlive hparent hpre hlevel
        have D := L.dropped hs ((isEmptyBranch_iff t b).mp hempty).2
        refine Layout.dropEmptyFrom_idle (D.layout L) (D.live_holder L hs) hpre' hlevel'
          (by omega) (fun q d hq hda h => ?_) p c hp hidle
        obtain ⟨hdb, h'⟩ := D.idle L hs hda h
        exact hwas q d hq hdb h'
      · rw [if_neg hempty] at hidle
        refine hwas p c hp ?_ hidle
        rintro rfl
        exact hempty ((isEmptyBranch_iff t c).mpr ⟨lt_of_isDead_eq_false hlive, hidle.empty⟩)

/-- The removal of an entry leaves no branch idle. -/
theorem Layout.removeAt_idle [BEq κ] (L : Layout path t) {site : Site} {h : UInt64} {k : κ}
    {accept : ν → Bool} {x : Placed κ ν} (F : Fits path t h site)
    (hx : t.locate site k accept = .ok (some x)) (hp : p ≠ [])
    (hidle : (t.removeAt site h x).1.Idle p c) : t.Idle p c := by
  obtain ⟨l₁, l₂, hc, hentry, _, _, hlink⟩ := L.locate_some hx
  have X := L.unlink hc hentry hlink
  have L' := L.of_exchanged X
  have hother : ∀ {p c}, c ≠ site.branch → (t.unlink x).Idle p c → t.Idle p c :=
    X.toRechained.idle L L'
  rw [removeAt] at hidle
  by_cases hempty : ((t.unlink x).slot site.branch site.index).isEmpty = true
  · simp only [hempty, if_true] at hidle
    have hlive := (X.dead site.branch).trans F.live
    have hlevel := F.level
    refine L'.dropEmptyFrom_idle hlive ((List.prefix_append _ _).trans F.path_prefix) hlevel ?_
      (fun _ _ _ => hother) p c hp hidle
    simp only [hashGroups]
    omega
  · simp only [hempty, Bool.false_eq_true, if_false] at hidle
    refine hother ?_ hidle
    rintro rfl
    exact hempty (by rw [hidle.empty]; rfl)

/-- After a change a branch below the root is idle only if it was idle before. -/
theorem Change.idle [BEq κ] {hash : κ → UInt64} {gone new : Option (κ × ν)}
    (C : Change hash t t' gone new) (L : Layout path t) (hp : p ≠ []) (h : t'.Idle p c) :
    t.Idle p c := by
  cases C with
  | keep => exact h
  | @insert site k v _ _ A hw I =>
    obtain ⟨hlive, hs⟩ := isWritable_iff.mp hw
    cases I with
    | front => exact (L.front hlive hs site.level k v).idle L (by simp) h
    | split hs hx hbs =>
      obtain ⟨n, T⟩ := splitBranches_table hbs
      exact (split_publish L hlive hs T k v).idle L (A.fits L hlive) h
  | @replace site k k' accept x v hx _ =>
    obtain ⟨l₁, l₂, hc, hentry, _, _, hlink⟩ := L.locate_some hx
    exact (L.replace hc hentry hlink k' v).idle L (by simp) h
  | remove A hw hx => exact L.removeAt_idle (A.fits L (isWritable_iff.mp hw).1) hx hp h

/-! ## Tries without idle branches -/

/-- Every branch below the root is there for an entry. -/
structure Trim (t : Trie κ ν) : Prop where
  below : ∀ p b, p ≠ [] → t.At p b →
    ∃ q l e, q ≠ [] ∧ t.Reach (p ++ q) l ∧ t.target l = .chain e
  finite : {b | b ≠ root ∧ t.Reached b}.Finite
  few : {b | b ≠ root ∧ t.Reached b}.ncard ≤ 15 * t.size
  /-- Without entries there is nothing but the root, and it is empty. -/
  bare_root : t.size = 0 → (∀ i, t.slot root i = .empty) ∧ ∀ b, t.Reached b → b = root

section Trim
variable (L : Layout path t) (hidle : ∀ p b, p ≠ [] → ¬ t.Idle p b)
include L hidle

/-- Below a branch there is a slot with a chain. -/
theorem Layout.exists_chain_below (hb : t.isDead b = false) (hne : b ≠ root) :
    ∃ a j e, path b <+: path a ∧ t.slot a j = .chain e := by
  induction hn : 16 - (path b).length generalizing b with
  | zero =>
    have := L.depth hb
    omega
  | succ n ih =>
    obtain ⟨i, hi⟩ : ∃ i, t.slot b i ≠ .empty := by
      by_contra hnone
      simp only [ne_eq, not_exists, not_not] at hnone
      obtain ⟨a, i, hs⟩ := L.held hb hne
      exact hidle (path b) b (by rw [L.child_path hs]; simp) ⟨L.at_of_live hb, hnone⟩
    cases hs : t.slot b i with
    | empty => exact absurd hs hi
    | chain e => exact ⟨b, i, e, List.prefix_refl _, hs⟩
    | branch c =>
      have hpath := L.child_path hs
      obtain ⟨a, j, e, hpre, hchain⟩ := ih (L.child_live hs) (L.ne_root_of_held hs)
        (by rw [hpath, List.length_append, List.length_singleton]; omega)
      exact ⟨a, j, e, ((hpath ▸ List.prefix_append _ _).trans hpre), hchain⟩

/-- Each branch below the root has an entry of its own at its depth, and there are 15 depths. -/
theorem Layout.card_branches_le {B : Finset BranchId}
    (hB : ∀ b ∈ B, b ≠ root ∧ t.isDead b = false) : B.card ≤ 15 * t.ids.length := by
  have hentry : ∀ b ∈ B, ∃ e a j, path b <+: path a ∧ e ∈ t.chainAt a j := by
    intro b hb
    obtain ⟨a, j, e, hpre, hs⟩ := L.exists_chain_below hidle (hB b hb).2 (hB b hb).1
    exact ⟨e, a, j, hpre, L.head_mem_chainAt hs⟩
  choose! entry hentry using hentry
  have hmaps : ∀ b ∈ B, (entry b, (path b).length) ∈ t.ids.toFinset ×ˢ Finset.Icc 1 15 := by
    intro b hb
    obtain ⟨a, j, _, he⟩ := hentry b hb
    obtain ⟨hne, hlive⟩ := hB b hb
    obtain ⟨d, i, hs⟩ := L.held hlive hne
    have hdepth := L.depth hlive
    have hpath := congrArg List.length (L.child_path hs)
    rw [List.length_append, List.length_singleton] at hpath
    rw [Finset.mem_product, List.mem_toFinset, L.mem_ids, Finset.mem_Icc]
    exact ⟨⟨a, j, he⟩, by omega, by omega⟩
  have hinj : ∀ b ∈ B, ∀ c ∈ B,
      (entry b, (path b).length) = (entry c, (path c).length) → b = c := by
    intro b hb c hc heq
    obtain ⟨hentries, hlength⟩ := Prod.mk.inj heq
    obtain ⟨a, j, hpre, he⟩ := hentry b hb
    obtain ⟨a', j', hpre', he'⟩ := hentry c hc
    rw [← hentries] at he'
    obtain ⟨rfl, rfl⟩ := L.apart he he'
    have hpath := (List.prefix_of_prefix_length_le hpre hpre' (Nat.le_of_eq hlength)).eq_of_length
      hlength
    exact L.path_inj (hB b hb).2 (hB c hc).2 hpath
  calc B.card ≤ (t.ids.toFinset ×ˢ Finset.Icc 1 15).card :=
        Finset.card_le_card_of_injOn _ hmaps fun b hb c hc => hinj b hb c hc
    _ = t.ids.length * 15 := by
        rw [Finset.card_product, List.toFinset_card_of_nodup L.nodup_ids, Nat.card_Icc]
    _ = 15 * t.ids.length := Nat.mul_comm _ _

theorem Layout.trim (hc : t.Counted) : t.Trim := by
  have hsize : t.size = t.ids.length := by rw [size, hc, Int.toNat_natCast]
  have hset : {b | b ≠ root ∧ t.Reached b} =
      ((Finset.range t.branches.size).filter fun b => b ≠ root ∧ t.isDead b = false :
        Finset BranchId) := by
    ext b
    simp only [Set.mem_ofPred_eq, Finset.coe_filter, Finset.mem_range, L.reached_iff]
    exact ⟨fun h => ⟨lt_of_isDead_eq_false h.2, h⟩, fun h => h.2⟩
  refine ⟨fun p b hp hb => ?_, hset ▸ Finset.finite_toSet _, ?_, fun hzero => ?_⟩
  · obtain ⟨hlive, rfl⟩ := L.at_iff.mp hb
    have hne : b ≠ root := by
      rintro rfl
      exact hp L.root_path
    obtain ⟨a, j, e, ⟨q, hq⟩, hs⟩ := L.exists_chain_below hidle hlive hne
    have halive : t.isDead a = false := L.live_of_slot (i := j) (by rw [hs]; simp)
    refine ⟨q ++ [j], .slot a j, e, by simp, ?_, hs⟩
    rw [← List.append_assoc, hq]
    exact L.reach_slot halive j
  · rw [hset, Set.ncard_coe_finset, hsize]
    exact L.card_branches_le hidle fun b hb => (Finset.mem_filter.mp hb).2
  · have hnone : ∀ a j e, t.slot a j ≠ .chain e := by
      intro a j e hs
      have hmem : e ∈ t.ids := L.mem_ids.mpr ⟨a, j, L.head_mem_chainAt hs⟩
      rw [hsize, List.length_eq_zero_iff] at hzero
      rw [hzero] at hmem
      cases hmem
    have hroot : ∀ b, t.isDead b = false → b = root := by
      intro b hb
      by_contra hne
      obtain ⟨a, j, e, _, hs⟩ := L.exists_chain_below hidle hb hne
      exact hnone a j e hs
    refine ⟨fun i => ?_, fun b hb => hroot b (L.reached_iff.mp hb)⟩
    cases hs : t.slot root i with
    | empty => rfl
    | chain e => exact absurd hs (hnone root i e)
    | branch c => exact absurd (hroot c (L.child_live hs)) (L.ne_root_of_held hs)

end Trim

end Trie

/-! ## Runs -/

namespace TrieMap

variable [BEq κ] {m m' : TrieMap κ ν} {g : Nat} {p : List Nibble} {b : BranchId}

/-- Whatever happens to a map, a branch below a root is idle only if it was idle before. -/
theorem Turn.idle (T : m.Turn m') (H : m.Laid) (hg : g ≤ m'.generation) (hp : p ≠ [])
    (h : (m'.trieAt g).Idle p b) : g ≤ m.generation ∧ (m.trieAt g).Idle p b := by
  rcases Nat.lt_or_ge m.generation g with hlt | hle
  · rw [T.fresh hg hlt] at h
    obtain ⟨_, hpath, _⟩ := Trie.layout_empty.idle_iff.mp h
    exact absurd hpath.symm hp
  · obtain ⟨path, L⟩ := H.layout g hle
    obtain ⟨_, _, C⟩ := T.changes hle
    exact ⟨hle, C.idle L hp h⟩

end TrieMap

namespace Instant

variable [BEq κ] {hash : κ → UInt64} {capacity : Nat} {s s' : Instant κ ν}

/-- A map that is just made, with branches built ahead for a capacity. -/
def made (hash : κ → UInt64) (capacity : Nat) : Instant κ ν :=
  ⟨(TrieMap.withCapacity hash capacity).state, []⟩

theorem good_made (hash : κ → UInt64) (capacity : Nat) : (made hash capacity : Instant κ ν).Good :=
  ⟨TrieMap.laid_withCapacity hash capacity, fun _ h => absurd h List.not_mem_nil⟩

omit [BEq κ] in
theorem trieAt_made (hash : κ → UInt64) (capacity g : Nat) :
    (made hash capacity : Instant κ ν).map.trieAt g = Trie.prebuilt (levelsFor capacity) := by
  simp [made, TrieMap.withCapacity, TrieMap.trieAt]

variable [BEq ν]

/-- A branch below a root that is idle has been idle all along. -/
theorem Good.idle (G : s.Good) (R : s.Runs s') {g : Nat} {p : List Nibble} {b : BranchId}
    (hg : g ≤ s'.map.generation) (hp : p ≠ []) (h : (s'.map.trieAt g).Idle p b) :
    g ≤ s.map.generation ∧ (s.map.trieAt g).Idle p b := by
  induction R with
  | refl => exact ⟨hg, h⟩
  | tail R hs ih =>
    have G' := G.runs R
    obtain ⟨hg', h'⟩ := (hs.turn G').idle G'.laid hg hp h
    exact ih hg' h'

/-- However a run goes, a branch below a root is empty only if it was built ahead, in the lowest
level, and has been empty at every instant since.  So in a map for which nothing was built ahead,
and in the tries that come with clearings, every branch below the root has an entry below it, there
are at most 15 such branches for every entry, and without entries there is but an empty root. -/
theorem empty_branches (R : (made hash capacity).Runs s) :
    (∀ g ≤ s.map.generation, ∀ p b, p ≠ [] → (s.map.trieAt g).Idle p b →
      g = 0 ∧ p.length = levelsFor capacity ∧
        ∀ s₁, (made hash capacity).Runs s₁ → s₁.Runs s → (s₁.map.trieAt 0).Idle p b) ∧
    (∀ p b, ((made hash capacity : Instant κ ν).map.trieAt 0).At p b →
      p.length ≤ levelsFor capacity) ∧
    ∀ g ≤ s.map.generation, 0 < g ∨ levelsFor capacity = 0 → (s.map.trieAt g).Trim := by
  have G := good_made (ν := ν) hash capacity
  obtain ⟨path, L, _, _, fills⟩ := Trie.exists_fills_prebuilt (κ := κ) (ν := ν) capacity
  have hidle : ∀ g ≤ s.map.generation, ∀ p b, p ≠ [] → (s.map.trieAt g).Idle p b →
      g = 0 ∧ p.length = levelsFor capacity := by
    intro g hg p b hp h
    obtain ⟨hzero, h₀⟩ := G.idle R hg hp h
    rw [trieAt_made] at h₀
    obtain ⟨hlive, rfl, hempty⟩ := L.idle_iff.mp h₀
    exact ⟨Nat.le_zero.mp hzero, (fills b (Trie.lt_of_isDead_eq_false hlive)).lowest hempty⟩
  refine ⟨fun g hg p b hp h => ?_, fun p b h => ?_, fun g hg hfresh => ?_⟩
  · obtain ⟨rfl, hlength⟩ := hidle g hg p b hp h
    exact ⟨rfl, hlength, fun s₁ R₁ R₂ => ((G.runs R₁).idle R₂ hg hp h).2⟩
  · rw [trieAt_made] at h
    obtain ⟨hlive, rfl⟩ := L.at_iff.mp h
    exact (fills b (Trie.lt_of_isDead_eq_false hlive)).length_le
  · obtain ⟨path', L'⟩ := (G.runs R).laid.layout g hg
    refine L'.trim (fun p b hp h => ?_) ((G.runs R).laid.counted g hg)
    obtain ⟨rfl, hlength⟩ := hidle g hg p b hp h
    have hlevels := hfresh.resolve_left (Nat.lt_irrefl 0)
    exact hp (List.length_eq_zero_iff.mp (hlength.trans hlevels))

/-- Two hashes that part in their second group. -/
def nearby (k : Nat) : UInt64 := if k = 0 then 0 else 0x0100000000000000

/-- A map from which two keys that shared a branch are removed again. -/
def emptied : TrieMap Nat Nat :=
  ((made nearby 0).map.run [.insert 0 5, .insert 1 6, .probe (.erase 0),
    .probe (.compareAndErase 1 6)]).2

/-- There was a branch below the root, and only the root is left. -/
theorem empty_branches_emptied : (emptied.trieAt 0).branches.size = 2 ∧
    (∀ i, (emptied.trieAt 0).slot Trie.root i = .empty) ∧
    ∀ b, (emptied.trieAt 0).Reached b → b = Trie.root := by
  obtain ⟨_, _, trim⟩ := empty_branches (s := ⟨emptied, []⟩)
    (Runs.run (fun _ h => absurd h List.not_mem_nil) (good_made nearby 0) _)
  exact ⟨by decide +kernel,
    (trim 0 (Nat.zero_le _) (.inr (by decide))).bare_root (by decide +kernel)⟩

end Instant

end NibbleTrie
