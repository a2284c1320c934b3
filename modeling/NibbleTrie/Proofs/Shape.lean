/-
The shape of a trie that only gathers entries.

Where nothing is cleared and nothing removed, a branch is there because it was
built ahead, or because two hashes begin with the groups that lead to it, and no
branch is ever dropped (`Trie.Forked`).  So what a slot holds depends on the
levels built ahead and on the hashes of the entries alone (`Trie.Canonical`), and
not on the order in which the entries came.  Since every branch was reported when
it was built, the levels of all splits come to the same sum.

Main statement: `Instant.Gathers.shapes_agree`.
-/
import Mathlib.Data.Set.Card
import NibbleTrie.Proofs.Idle
import NibbleTrie.Proofs.Planting
import NibbleTrie.Proofs.Report

namespace NibbleTrie

namespace Trie

variable {κ : Type u} {ν : Type v} {t t' : Trie κ ν} {path : BranchId → List Nibble}
  {hash : κ → UInt64} {levels : Nat} {p : List Nibble} {h h₁ h₂ : UInt64} {b : BranchId}
  {i : Nibble} {site : Site} {k : κ}

/-! ## Shapes -/

/-- A listed entry has the hash `h`. -/
def HasHash (hash : κ → UInt64) (t : Trie κ ν) (h : UInt64) : Prop :=
  ∃ item ∈ t.toList, hash item.1 = h

/-- A listed entry has the hash `h`, which begins with the groups `p`. -/
def Under (hash : κ → UInt64) (t : Trie κ ν) (p : List Nibble) (h : UInt64) : Prop :=
  t.HasHash hash h ∧ p <+: digits h

/-- Entries of two different hashes are listed that begin with `p`. -/
def Forks (hash : κ → UInt64) (t : Trie κ ν) (p : List Nibble) : Prop :=
  ∃ h₁ h₂, h₁ ≠ h₂ ∧ t.Under hash p h₁ ∧ t.Under hash p h₂

/-- What the slots hold is given by the levels built ahead and the hashes of the entries. -/
structure Canonical (hash : κ → UInt64) (levels : Nat) (t : Trie κ ν) : Prop where
  branch_iff : ∀ {p b}, t.At p b → ∀ i, (∃ c, t.slot b i = .branch c) ↔
    (p ++ [i]).length ≤ levels ∨ t.Forks hash (p ++ [i])
  chain_iff : ∀ {p b}, t.At p b → ∀ i, (∃ e, t.slot b i = .chain e) ↔
    levels < (p ++ [i]).length ∧ ∃! h, t.Under hash (p ++ [i]) h
  empty_iff : ∀ {p b}, t.At p b → ∀ i, t.slot b i = .empty ↔
    levels < (p ++ [i]).length ∧ ∀ h, ¬ t.Under hash (p ++ [i]) h

/-- The same slots are reached in two tries, and they hold things of the same kind. -/
structure Alike {κ' : Type u'} {ν' : Type v'} (t : Trie κ ν) (t' : Trie κ' ν') : Prop where
  reached : ∀ p, (∃ b, t.At p b) ↔ ∃ b, t'.At p b
  branch : ∀ {p b b'}, t.At p b → t'.At p b' → ∀ i,
    (∃ c, t.slot b i = .branch c) ↔ ∃ c, t'.slot b' i = .branch c
  chain : ∀ {p b b'}, t.At p b → t'.At p b' → ∀ i,
    (∃ e, t.slot b i = .chain e) ↔ ∃ e, t'.slot b' i = .chain e
  empty : ∀ {p b b'}, t.At p b → t'.At p b' → ∀ i, t.slot b i = .empty ↔ t'.slot b' i = .empty

theorem Forks.mono (F : t.Forks hash p) (hmono : ∀ h, t.HasHash hash h → t'.HasHash hash h) :
    t'.Forks hash p := by
  obtain ⟨h₁, h₂, hne, U₁, U₂⟩ := F
  exact ⟨h₁, h₂, hne, ⟨hmono h₁ U₁.1, U₁.2⟩, hmono h₂ U₂.1, U₂.2⟩

/-- With the same levels built ahead and the same hashes two tries are alike. -/
theorem Canonical.alike {κ' : Type u'} {ν' : Type v'} {hash' : κ' → UInt64} {t' : Trie κ' ν'}
    (C : t.Canonical hash levels) (C' : t'.Canonical hash' levels)
    (hsame : ∀ h, t.HasHash hash h ↔ t'.HasHash hash' h) : t.Alike t' := by
  have hunder : ∀ p h, t.Under hash p h ↔ t'.Under hash' p h := fun p h =>
    and_congr_left' (hsame h)
  have hforks : ∀ p, t.Forks hash p ↔ t'.Forks hash' p := fun p => by
    simp only [Forks, hunder]
  have hbranch : ∀ {p b b'}, t.At p b → t'.At p b' → ∀ i,
      (∃ c, t.slot b i = .branch c) ↔ ∃ c, t'.slot b' i = .branch c := fun hb hb' i => by
    rw [C.branch_iff hb, C'.branch_iff hb', hforks]
  refine ⟨fun p => ?_, hbranch, fun hb hb' i => ?_, fun hb hb' i => ?_⟩
  · induction p using List.reverseRecOn with
    | nil => simp only [at_nil, exists_eq]
    | append_singleton p i ih =>
      simp only [at_concat]
      constructor
      · rintro ⟨c, b, hb, hs⟩
        obtain ⟨b', hb'⟩ := ih.mp ⟨b, hb⟩
        obtain ⟨c', hs'⟩ := (hbranch hb hb' i).mp ⟨c, hs⟩
        exact ⟨c', b', hb', hs'⟩
      · rintro ⟨c', b', hb', hs'⟩
        obtain ⟨b, hb⟩ := ih.mpr ⟨b', hb'⟩
        obtain ⟨c, hs⟩ := (hbranch hb hb' i).mpr ⟨c', hs'⟩
        exact ⟨c, b, hb, hs⟩
  · rw [C.chain_iff hb, C'.chain_iff hb']
    simp only [hunder]
  · rw [C.empty_iff hb, C'.empty_iff hb']
    simp only [hunder]

section Change
variable [BEq κ] {gone new : Option (κ × ν)}

/-- No hash gets lost if what goes is exchanged for something of its hash. -/
theorem Change.hasHash_mono (C : Change hash t t' gone new) (L : Layout path t)
    (hgone : ∀ e ∈ gone, ∃ e' ∈ new, hash e'.1 = hash e.1) :
    ∀ h, t.HasHash hash h → t'.HasHash hash h := by
  rintro h ⟨item, hitem, rfl⟩
  obtain ⟨rest, hbefore, hafter⟩ := C.exchanges L
  rcases List.mem_append.mp (hbefore.mem_iff.mp hitem) with hmem | hmem
  · obtain ⟨e', he', hh⟩ := hgone item (Option.mem_toList.mp hmem)
    exact ⟨e', hafter.mem_iff.mpr (List.mem_append_left _ (Option.mem_toList.mpr he')), hh⟩
  · exact ⟨item, hafter.mem_iff.mpr (List.mem_append_right _ hmem), rfl⟩

theorem Change.hasHash_new (C : Change hash t t' gone new) (L : Layout path t) :
    ∀ e ∈ new, t'.HasHash hash (hash e.1) := by
  intro e he
  obtain ⟨rest, _, hafter⟩ := C.exchanges L
  exact ⟨e, hafter.mem_iff.mpr (List.mem_append_left _ (Option.mem_toList.mpr he)), rfl⟩

end Change

/-- An insertion reports the levels of the branches that it brings. -/
theorem Planted.branches_size {item : κ × ν} {manner : Manner}
    (P : Planted t t' site h item manner) :
    t'.branches.size = t.branches.size + splitLevels (manner.events site.level) := by
  cases manner with
  | lone => exact P.shaped.2.1
  | ahead => exact P.shaped.2.1
  | apart other level =>
    obtain ⟨hlt, head, S⟩ := P.shaped
    have hlevels : site.level - level - 1 + 1 = site.level - level := by omega
    rw [S.branches_size, hlevels]
    rfl

/-! ## Where branches come from -/

/-- Entries stand where their hashes put them; no branch was dropped; the branches above the lowest
level built ahead hold branches only; and a slot below holds a branch only where two hashes
part. -/
structure Forked (hash : κ → UInt64) (levels : Nat) (path : BranchId → List Nibble)
    (t : Trie κ ν) : Prop extends Routed hash path t where
  live : ∀ b < t.branches.size, t.isDead b = false
  full : ∀ b < t.branches.size, (path b).length < levels → ∀ i, (t.slot b i).isBranch = true
  forks : ∀ {b i c}, t.slot b i = .branch c → levels ≤ (path b).length →
    t.Forks hash (path b ++ [i])

/-- An entry stands in the slot on the way of its hash that holds no branch. -/
theorem Routed.mem_chainAt_of_under (R : Routed hash path t) (hlive : t.isDead b = false)
    (hs : (t.slot b i).isBranch = false) (U : t.Under hash (path b ++ [i]) h) :
    ∃ e ∈ t.chainAt b i, ∃ x, t.entries[e]? = some x ∧ hash x.key = h := by
  obtain ⟨⟨item, hitem, hh⟩, hway⟩ := U
  obtain ⟨e, x, he, hx, rfl⟩ := R.mem_toList.mp hitem
  have hmem : e ∈ t.chainAt b i := R.mem_chainAt_of_hash (R.fits_of_way hlive hway) hs he hx hh
  exact ⟨e, hmem, x, hx, hh⟩

/-- No two hashes meet in a slot that holds no branch. -/
theorem Routed.under_unique (R : Routed hash path t) (hlive : t.isDead b = false)
    (hs : (t.slot b i).isBranch = false) (U₁ : t.Under hash (path b ++ [i]) h₁)
    (U₂ : t.Under hash (path b ++ [i]) h₂) : h₁ = h₂ := by
  obtain ⟨e₁, he₁, x₁, hx₁, rfl⟩ := R.mem_chainAt_of_under hlive hs U₁
  obtain ⟨e₂, he₂, x₂, hx₂, rfl⟩ := R.mem_chainAt_of_under hlive hs U₂
  exact R.same he₁ he₂ hx₁ hx₂

/-- Below the head of a chain is its hash. -/
theorem Routed.exists_under (R : Routed hash path t) {e : EntryId} (hs : t.slot b i = .chain e) :
    ∃ h, t.Under hash (path b ++ [i]) h := by
  obtain ⟨x, hx⟩ := entry_of_lt (R.head_lt hs)
  have he := R.head_mem_chainAt hs
  exact ⟨hash x.key, ⟨(x.key, x.value), R.mem_toList.mpr ⟨e, x, ⟨b, i, he⟩, hx, rfl⟩, rfl⟩,
    R.way he hx⟩

theorem Forks.not_unique (F : t.Forks hash p) : ¬ ∃! h, t.Under hash p h := by
  rintro ⟨h, _, hunique⟩
  obtain ⟨h₁, h₂, hne, U₁, U₂⟩ := F
  exact hne ((hunique h₁ U₁).trans (hunique h₂ U₂).symm)

namespace Forked

/-- What a slot holds tells how many hashes begin with the groups that lead to it. -/
theorem slot_cases (F : Forked hash levels path t) (hlive : t.isDead b = false) (i : Nibble) :
    ((∃ c, t.slot b i = .branch c) ∧
      ((path b ++ [i]).length ≤ levels ∨ t.Forks hash (path b ++ [i]))) ∨
    ((∃ e, t.slot b i = .chain e) ∧
      levels < (path b ++ [i]).length ∧ ∃! h, t.Under hash (path b ++ [i]) h) ∨
    (t.slot b i = .empty ∧
      levels < (path b ++ [i]).length ∧ ∀ h, ¬ t.Under hash (path b ++ [i]) h) := by
  have hlow : (t.slot b i).isBranch = false → levels < (path b ++ [i]).length := by
    intro hs
    rw [List.length_append, List.length_singleton, Nat.lt_succ_iff]
    by_contra hlt
    rw [F.full b (lt_of_isDead_eq_false hlive) (Nat.lt_of_not_le hlt) i] at hs
    cases hs
  cases hs : t.slot b i with
  | branch c =>
    refine .inl ⟨⟨c, rfl⟩, ?_⟩
    rw [List.length_append, List.length_singleton]
    exact (Nat.lt_or_ge (path b).length levels).imp id (F.forks hs)
  | chain e =>
    have hnot : (t.slot b i).isBranch = false := by rw [hs]; rfl
    obtain ⟨h, U⟩ := F.exists_under hs
    exact .inr (.inl ⟨⟨e, rfl⟩, hlow hnot, h, U, fun h' U' => F.under_unique hlive hnot U' U⟩)
  | empty =>
    have hnot : (t.slot b i).isBranch = false := by rw [hs]; rfl
    refine .inr (.inr ⟨rfl, hlow hnot, fun h U => ?_⟩)
    obtain ⟨e, he, _⟩ := F.mem_chainAt_of_under hlive hnot U
    rw [chainAt_of_empty hs] at he
    cases he

theorem canonical (F : Forked hash levels path t) : t.Canonical hash levels := by
  -- no two of the three conditions hold together
  have hchain : ∀ p, (p.length ≤ levels ∨ t.Forks hash p) →
      ¬ (levels < p.length ∧ ∃! h, t.Under hash p h) := by
    rintro p (hle | hforks) ⟨hlt, hone⟩
    · exact absurd hlt (Nat.not_lt.mpr hle)
    · exact hforks.not_unique hone
  have hempty : ∀ p, (p.length ≤ levels ∨ t.Forks hash p) →
      ¬ (levels < p.length ∧ ∀ h, ¬ t.Under hash p h) := by
    rintro p (hle | ⟨h, _, _, U, _⟩) ⟨hlt, hnone⟩
    · exact absurd hlt (Nat.not_lt.mpr hle)
    · exact hnone h U
  have hboth : ∀ p, (levels < p.length ∧ ∃! h, t.Under hash p h) →
      ¬ (levels < p.length ∧ ∀ h, ¬ t.Under hash p h) := by
    rintro p ⟨_, h, U, _⟩ ⟨_, hnone⟩
    exact hnone h U
  refine ⟨fun hat i => ?_, fun hat i => ?_, fun hat i => ?_⟩ <;>
    obtain ⟨hlive, rfl⟩ := F.at_iff.mp hat <;>
    rcases F.slot_cases hlive i with ⟨⟨c, hs⟩, h⟩ | ⟨⟨e, hs⟩, h⟩ | ⟨hs, h⟩ <;> rw [hs]
  · exact iff_of_true ⟨c, rfl⟩ h
  · exact iff_of_false (fun ⟨_, h⟩ => by cases h) fun h' => hchain _ h' h
  · exact iff_of_false (fun ⟨_, h⟩ => by cases h) fun h' => hempty _ h' h
  · exact iff_of_false (fun ⟨_, h⟩ => by cases h) (hchain _ h)
  · exact iff_of_true ⟨e, rfl⟩ h
  · exact iff_of_false (fun ⟨_, h⟩ => by cases h) fun h' => hboth _ h' h
  · exact iff_of_false (fun h => by cases h) (hempty _ h)
  · exact iff_of_false (fun h => by cases h) (hboth _ h)
  · exact iff_of_true rfl h

/-- There are as many branches as ways to branches. -/
theorem ncard_ways (F : Forked hash levels path t) :
    {p | ∃ b, t.At p b}.ncard = t.branches.size := by
  have himage : {p | ∃ b, t.At p b} =
      path '' (Finset.range t.branches.size : Finset BranchId) := by
    ext p
    simp only [Set.mem_ofPred_eq, Set.mem_image, Finset.coe_range, Set.mem_Iio]
    constructor
    · rintro ⟨b, hb⟩
      obtain ⟨hlive, hpath⟩ := F.at_iff.mp hb
      exact ⟨b, lt_of_isDead_eq_false hlive, hpath⟩
    · rintro ⟨b, hb, rfl⟩
      exact ⟨b, F.at_of_live (F.live b hb)⟩
  have hinj : Set.InjOn path (Finset.range t.branches.size : Finset BranchId) := by
    intro b hb c hc heq
    simp only [Finset.coe_range, Set.mem_Iio] at hb hc
    exact F.path_inj (F.live b hb) (F.live c hc) heq
  rw [himage, hinj.ncard_image, Set.ncard_coe_finset, Finset.card_range]

end Forked

/-- A trie with branches built ahead. -/
theorem exists_forked_prebuilt (hash : κ → UInt64) (capacity : Nat) : ∃ path,
    Forked hash (levelsFor capacity) path (prebuilt (levelsFor capacity) : Trie κ ν) := by
  obtain ⟨path, L, hentries, _, fills⟩ := exists_fills_prebuilt (κ := κ) (ν := ν) capacity
  generalize (prebuilt (levelsFor capacity) : Trie κ ν) = t at L hentries fills ⊢
  have hbranch : ∀ {c i}, t.slot c i ≠ .empty → (t.slot c i).isBranch = true := by
    intro c i hne
    cases hs : t.slot c i with
    | empty => exact absurd hs hne
    | branch _ => rfl
    | chain e =>
      have hlt := L.head_lt hs
      rw [hentries] at hlt
      exact absurd hlt (Nat.not_lt_zero e)
  refine ⟨path, .of_no_entries L hentries, fun b hb => (fills b hb).live,
    fun b hb hlt i => hbranch ((fills b hb).full hlt i), fun {b i c} hs hle => ?_⟩
  have hlength := (fills c (lt_of_isDead_eq_false (L.child_live hs))).length_le
  rw [L.child_path hs, List.length_append, List.length_singleton] at hlength
  exact absurd hle (Nat.not_le_of_lt hlength)

/-! ## Writes -/

namespace Forked

/-- A write within a chain, if no hash gets lost. -/
theorem of_rechained (F : Forked hash levels path t) (X : Rechained t t' b i)
    (R : Routed hash path t') (hmono : ∀ h, t.HasHash hash h → t'.HasHash hash h) :
    Forked hash levels path t' where
  toRouted := R
  live c hc := by
    rw [X.branches_size] at hc
    exact (X.dead c).trans (F.live c hc)
  full c hc hlt j := by
    rw [X.branches_size] at hc
    rw [X.slot c j]
    · exact F.full c hc hlt j
    · rintro ⟨rfl, rfl⟩
      have hs := X.not_branch
      rw [F.full c hc hlt j] at hs
      cases hs
  forks {c j a} hs hle := by
    rw [X.slot c j] at hs
    · exact (F.forks hs hle).mono hmono
    · rintro ⟨rfl, rfl⟩
      have hs' := X.not_branch'
      rw [hs] at hs'
      cases hs'

/-- A split at the parting of two hashes. -/
theorem of_split {head : EntryId} {n : Nat} (F : Forked hash levels path t)
    (Ft : Fits path t h₂ site) (S : Split t t' site h₁ h₂ head n)
    (R : Routed hash (Split.newPath path t site h₂) t')
    (hway : path site.branch ++ [site.index] <+: digits h₁)
    (hmono : ∀ h, t.HasHash hash h → t'.HasHash hash h) (H₁ : t'.HasHash hash h₁)
    (H₂ : t'.HasHash hash h₂) : Forked hash levels (Split.newPath path t site h₂) t' where
  toRouted := R
  live c hc := by
    rcases S.cases_branch c with hold | ⟨j, hj, rfl⟩ | hout
    · exact (S.dead_old c hold).trans (F.live c hold)
    · exact S.dead_new j hj
    · exact absurd hc (Nat.not_lt.mpr hout)
  full c hc hlt i := by
    rcases S.cases_branch c with hold | ⟨j, hj, rfl⟩ | hout
    · rw [Split.newPath_old hold] at hlt
      by_cases hc : c = site.branch ∧ i = site.index
      · obtain ⟨rfl, rfl⟩ := hc
        rw [S.slot_site]
        rfl
      · rw [S.slot_old c hold i hc]
        exact F.full c hold hlt i
    · -- a branch with a chain is not above the lowest level built ahead
      obtain ⟨_, hlength⟩ := Split.newPath_prefix Ft S hway hj
      have hlevel := Ft.level
      have hn := S.lt_level
      have hs := F.full site.branch (lt_of_isDead_eq_false Ft.live) (by omega) site.index
      rw [S.before] at hs
      cases hs
    · exact absurd hc (Nat.not_lt.mpr hout)
  forks {c i a} hs hle := by
    have hne : h₁ ≠ h₂ := fun heq => S.parting (by rw [heq])
    rcases S.of_slot_branch hs with ⟨rfl, rfl, _⟩ | ⟨hc, _, hs⟩ | ⟨j, hj, rfl, rfl, _⟩
    · rw [Split.newPath_old (lt_of_isDead_eq_false Ft.live)]
      exact ⟨h₁, h₂, hne, ⟨H₁, hway⟩, H₂, Ft.path_prefix⟩
    · rw [Split.newPath_old hc] at hle ⊢
      exact (F.forks hs hle).mono hmono
    · obtain ⟨hpre, _⟩ := Split.newPath_prefix Ft S hway (Nat.succ_le_of_lt hj)
      rw [← Split.newPath_succ Ft (Nat.lt_trans hj S.lt_level)]
      refine ⟨h₁, h₂, hne, ⟨H₁, hpre⟩, H₂, ?_⟩
      rw [Split.newPath_new]
      exact take_digits_prefix h₂ _

variable [BEq κ]

/-- An insertion keeps the branches where two hashes part, and reports all that it brings. -/
theorem insertAt (F : Forked hash levels path t) (Ft : Fits path t (hash k) site)
    (hs : (t.slot site.branch site.index).isBranch = false) (v : ν) :
    let e := t.insertAt hash site (hash k) k v
    (∃ path', Forked hash levels path' e.state) ∧
      e.state.branches.size = t.branches.size + splitLevels e.events := by
  have I : Insertion hash t site k v (t.insertAt hash site (hash k) k v) :=
    F.insertAt_insertion hs k v
  obtain ⟨manner, t', heq, _, P⟩ := F.insertAt_planted Ft hs v
  rw [heq] at I ⊢
  refine ⟨?_, P.branches_size⟩
  have C : Change hash t t' none (some (k, v)) :=
    .insert (Ft.aimed F.toLayout) (isWritable_iff.mpr ⟨Ft.live, hs⟩) I
  have hmono := C.hasHash_mono F.toLayout fun _ h => by cases h
  have hfresh := C.hasHash_new F.toLayout (k, v) rfl
  generalize manner.events site.level = events at I
  cases I with
  | front hs hhash =>
    have X := F.front Ft.live hs site.level k v
    have R := F.toRouted.of_exchanged X (F.admits_front Ft hhash v)
    exact ⟨path, F.of_rechained X.toRechained R hmono⟩
  | @split head x bs hslot hx hbs =>
    obtain ⟨n, T⟩ := splitBranches_table hbs
    have S := split_publish F.toLayout Ft.live hslot T k v
    have R := F.toRouted.of_split Ft S hx rfl (item?_of_entry (entry_publish t site _ _ _)) rfl
    have hhead := F.head_mem_chainAt hslot
    have hold : t.HasHash hash (hash x.key) :=
      ⟨(x.key, x.value), F.mem_toList.mpr ⟨head, x, ⟨_, _, hhead⟩, hx, rfl⟩, rfl⟩
    exact ⟨_, F.of_split Ft S R (F.way hhead hx) hmono (hmono _ hold) hfresh⟩

/-- A replacement by an entry of the same hash brings no branch. -/
theorem replace (F : Forked hash levels path t) {accept : ν → Bool} {x : Placed κ ν}
    (hx : t.locate site k accept = .ok (some x)) {k' : κ} (hk' : k' = k ∨ k' = x.entry.key)
    (hhash : hash x.entry.key = hash k') (v : ν) :
    Forked hash levels path (t.replace x k' v) ∧
      (t.replace x k' v).branches.size = t.branches.size := by
  obtain ⟨l₁, l₂, hc, hentry, _, _, hlink⟩ := F.locate_some hx
  have X := F.toLayout.replace hc hentry hlink k' v
  have C : Change hash t (t.replace x k' v) (some x.item) (some (k', v)) := .replace v hx hk'
  refine ⟨F.of_rechained X.toRechained (F.toRouted.of_replace hx hhash v) ?_, X.branches_size⟩
  refine C.hasHash_mono F.toLayout fun e he => ?_
  cases he
  exact ⟨(k', v), rfl, hhash.symm⟩

/-- A plan that removes nothing. -/
theorem carryOut (F : Forked hash levels path t) (law : Lawful hash) (plan : Plan κ ν)
    (Ft : Fits path t (hash plan.key) site)
    (hs : (t.slot site.branch site.index).isBranch = false)
    (hkeep : let found := t.sought? site plan.key plan.accept
      (plan.judge found).2.new = none → (plan.judge found).2.gone found = none) :
    let e := t.carryOut hash site plan
    (∃ path', Forked hash levels path' e.state) ∧
      e.state.branches.size = t.branches.size + splitLevels e.events := by
  obtain ⟨found, hloc⟩ := Layout.exists_locate hs plan.key plan.accept
  have hfound : t.sought? site plan.key plan.accept = found.map Placed.item := by
    rw [sought?, hloc]
  rw [hfound] at hkeep
  rw [carryOut_eq hloc]
  dsimp only at hkeep ⊢
  have hput : ∀ {k' v}, (plan.judge (found.map Placed.item)).2 = .put k' v →
      k' = plan.key ∨ ∃ e ∈ found.map Placed.item, k' = e.1 := plan.put_key
  generalize (plan.judge (found.map Placed.item)).2 = edit at hkeep hput ⊢
  cases edit with
  | keep => exact ⟨⟨path, F⟩, rfl⟩
  | remove =>
    cases found with
    | none => exact ⟨⟨path, F⟩, rfl⟩
    | some x => cases hkeep rfl
  | put k' v =>
    have hkey := hput rfl
    cases found with
    | none =>
      obtain rfl : k' = plan.key := by
        rcases hkey with h | ⟨e, he, _⟩
        · exact h
        · cases he
      exact F.insertAt Ft hs v
    | some x =>
      obtain ⟨_, _, _, _, hk, _⟩ := F.locate_some hloc
      have hcases : k' = plan.key ∨ k' = x.entry.key := by
        rcases hkey with h | ⟨e, he, h⟩
        · exact .inl h
        · cases he
          exact .inr h
      have hhash : hash x.entry.key = hash k' := by
        rcases hcases with rfl | rfl
        · exact law.hash_eq hk
        · rfl
      obtain ⟨F', hsize⟩ := F.replace hloc hcases hhash v
      exact ⟨⟨path, F'⟩, hsize⟩

end Forked

end Trie

namespace TrieMap

variable {κ : Type u} {ν : Type v} {m : TrieMap κ ν} {levels : Nat} {l : List Event} {held : Held}

/-- The map was not cleared, its branches are where two hashes part or were built ahead, and there
are as many as were built ahead and reported since. -/
structure Forked (m : TrieMap κ ν) (levels : Nat) (l : List Event) : Prop where
  generation_eq : m.generation = 0
  forked : ∃ path, Trie.Forked m.hash levels path m.current
  size_eq : m.current.branches.size =
    (Trie.prebuilt levels : Trie κ ν).branches.size + splitLevels l

/-- A map as it is made. -/
theorem forked_withCapacity (hash : κ → UInt64) (capacity : Nat) :
    (withCapacity hash capacity : Effect (TrieMap κ ν) Unit).state.Forked
      (levelsFor capacity) [] where
  generation_eq := rfl
  forked := Trie.exists_forked_prebuilt hash capacity
  size_eq := rfl

/-- Only the current trie can be held. -/
theorem Forked.grips {h : UInt64} (F : m.Forked levels l) (G : m.Grips h held) :
    ∃ path site, held = ⟨m.generation, site⟩ ∧ Trie.Forked m.hash levels path m.current ∧
      Trie.Fits path m.current h site ∧
      (m.current.slot site.branch site.index).isBranch = false := by
  obtain ⟨path, T⟩ := F.forked
  obtain ⟨g, site⟩ := held
  obtain rfl : g = m.generation := by
    have hle := G.generation_le
    have hgen := F.generation_eq
    simp only at hle
    omega
  have A := G.aimed
  have hw := G.writable
  rw [trieAt_generation] at A hw
  obtain ⟨hlive, hs⟩ := Trie.isWritable_iff.mp hw
  exact ⟨path, site, rfl, T, A.fits T.toLayout hlive, hs⟩

/-- A change of the current trie that reports the levels of the branches that it brings. -/
theorem Forked.change (F : m.Forked levels l) {path : BranchId → List Nibble} {t : Trie κ ν}
    {l' : List Event} (T : Trie.Forked m.hash levels path t)
    (hsize : t.branches.size = m.current.branches.size + splitLevels l') :
    TrieMap.Forked { m with current := t } levels (l ++ l') where
  generation_eq := F.generation_eq
  forked := ⟨path, T⟩
  size_eq := by rw [splitLevels_append, ← Nat.add_assoc, ← F.size_eq, hsize]

/-- A builder that answers. -/
theorem Forked.insertHeld [BEq κ] (F : m.Forked levels l) {k : κ}
    (G : m.Grips (m.hash k) held) (v : ν) :
    (m.insertHeld held k v).state.Forked levels (l ++ (m.insertHeld held k v).events) := by
  obtain ⟨path, site, rfl, T, Ft, hs⟩ := F.grips G
  obtain ⟨⟨path', T'⟩, hsize⟩ := T.insertAt Ft hs v
  have hinsert : m.insertHeld ⟨m.generation, site⟩ k v = _ := update_current _
  rw [hinsert]
  exact F.change T' hsize

/-- A plan that removes nothing. -/
theorem Forked.carryOut [BEq κ] (F : m.Forked levels l) (law : Lawful m.hash) (H : m.Laid)
    {plan : Plan κ ν} (G : m.Grips (m.hash plan.key) held)
    (hret : m.Retains (m.carryOut held plan).state) :
    (m.carryOut held plan).state.Forked levels (l ++ (m.carryOut held plan).events) := by
  have hkeep : (plan.judge (m.sought? held plan)).2.new = none →
      (plan.judge (m.sought? held plan)).2.gone (m.sought? held plan) = none := by
    intro hnew
    rcases H.carryOut_cases G with ⟨m', events, heq, A, _⟩ | ⟨_, hsought, hsome, _⟩
    · obtain ⟨_, site, rfl, _⟩ := F.grips G
      rw [heq] at hret
      exact A.exchanged H hret.size_le hnew
    · rw [sought?, hsought] at hnew
      rw [hnew] at hsome
      cases hsome
  obtain ⟨path, site, rfl, T, Ft, hs⟩ := F.grips G
  rw [sought?, trieAt_generation] at hkeep
  obtain ⟨⟨path', T'⟩, hsize⟩ := T.carryOut law plan Ft hs hkeep
  have hcarry : m.carryOut ⟨m.generation, site⟩ plan = _ := update_current _
  rw [hcarry]
  exact F.change T' hsize

end TrieMap

namespace Instant

variable {κ : Type u} {ν : Type v} [BEq κ] [BEq ν] {hash : κ → UInt64} {capacity : Nat}
  {s : Instant κ ν} {l : List Event}

/-- Where nothing is cleared and nothing removed. -/
theorem Gathers.forked (law : Lawful hash) (G : (made hash capacity).Gathers s l) :
    s.map.Forked (levelsFor capacity) l := by
  induction G with
  | refl => exact TrieMap.forked_withCapacity hash capacity
  | @tail s₁ s₂ l l' G h hret ih =>
    have hgood := (good_made hash capacity).runs G.runs
    have hlaw : Lawful s₁.map.hash := by
      rw [(good_made hash capacity).hash_eq G.runs]
      exact law
    cases h with
    | @write m P Q plan held _ =>
      exact ih.carryOut hlaw hgood.laid (hgood.ready (.holding plan held) (by simp)) hret
    | @built m P Q k held v _ =>
      exact ih.insertHeld (hgood.ready (.building k held) (by simp)) v
    | clear => exact absurd hret (TrieMap.not_retains_clear _)
    | still _ hmap =>
      rw [List.append_nil, hmap]
      exact ih

/-- Where no map is cleared and no entry removed, the shape of the trie is given by the levels built
ahead and the hashes of the entries.  A slot holds a branch exactly if it is above the lowest level
built ahead or two hashes begin with the groups that lead to it, a chain if only one does, and
nothing if none does.  So after any two such runs with the same levels built ahead, tries with the
same hashes are alike, and the splits that were reported come to the same number of levels. -/
theorem Gathers.shapes_agree (law : Lawful hash) (G : (made hash capacity).Gathers s l) :
    s.map.current.Canonical hash (levelsFor capacity) ∧
    ∀ {hash' : κ → UInt64} {capacity' : Nat} {s' : Instant κ ν} {l' : List Event},
      Lawful hash' → (made hash' capacity').Gathers s' l' →
      levelsFor capacity' = levelsFor capacity →
      (∀ h, s.map.current.HasHash hash h ↔ s'.map.current.HasHash hash' h) →
      s.map.current.Alike s'.map.current ∧ splitLevels l = splitLevels l' := by
  have F := G.forked law
  have hhash := (good_made hash capacity).hash_eq G.runs
  obtain ⟨path, T⟩ := F.forked
  rw [show s.map.hash = hash from hhash] at T
  refine ⟨T.canonical, fun {hash' capacity' s' l'} law' G' hlevels hsame => ?_⟩
  have F' := G'.forked law'
  have hhash' := (good_made hash' capacity').hash_eq G'.runs
  obtain ⟨path', T'⟩ := F'.forked
  rw [show s'.map.hash = hash' from hhash', hlevels] at T'
  have A := T.canonical.alike T'.canonical hsame
  refine ⟨A, ?_⟩
  have hsize : s.map.current.branches.size = s'.map.current.branches.size := by
    rw [← T.ncard_ways, ← T'.ncard_ways]
    simp only [A.reached]
  rw [F.size_eq, F'.size_eq, hlevels] at hsize
  exact Nat.add_left_cancel hsize

/-- Operations one after another on a map that was just made. -/
theorem gathers_run_made {ops : List (Op κ ν)}
    (hret : (made hash capacity : Instant κ ν).map.Retaining ops) :
    (made hash capacity).Gathers ⟨((made hash capacity).map.run ops).2, []⟩
      ((made hash capacity).map.log ops) :=
  Gathers.run .refl (good_made hash capacity) hret

/-- The hashes of 0 and of 1 part in their fourth group, and both from the others in their third. -/
def nested (k : Nat) : UInt64 :=
  if k = 0 then 0 else if k = 1 then 0x0001000000000000 else 0x0010000000000000

/-- The keys that part furthest down come first. -/
def depthFirst : List (Op Nat Nat) := [.insert 0 5, .insert 1 6, .insert 2 7]

/-- They come last, and a value is replaced in between. -/
def depthLast : List (Op Nat Nat) := [.insert 2 7, .insert 0 4, .swap 0 5, .insert 1 6]

/-- In both orders there are two levels to split, all at once or one by one. -/
theorem shapes_agree_nested :
    (made nested 256).map.log depthFirst = [.split 2 12] ∧
    (made nested 300).map.log depthLast = [.split 1 13, .split 1 12] ∧
    Trie.Alike ((made nested 256).map.run depthFirst).2.current
      ((made nested 300).map.run depthLast).2.current ∧
    splitLevels ((made nested 256).map.log depthFirst) =
      splitLevels ((made nested 300).map.log depthLast) := by
  have hlaw : Lawful nested := ⟨fun h => by rw [eq_of_beq h]⟩
  have hret : (made nested 256).map.Retaining depthFirst :=
    ⟨⟨by decide +kernel, by decide +kernel⟩, ⟨by decide +kernel, by decide +kernel⟩,
      ⟨by decide +kernel, by decide +kernel⟩, trivial⟩
  have hret' : (made nested 300).map.Retaining depthLast :=
    ⟨⟨by decide +kernel, by decide +kernel⟩, ⟨by decide +kernel, by decide +kernel⟩,
      ⟨by decide +kernel, by decide +kernel⟩, ⟨by decide +kernel, by decide +kernel⟩, trivial⟩
  obtain ⟨_, hagree⟩ := (gathers_run_made hret).shapes_agree hlaw
  have hlist : ((made nested 256).map.run depthFirst).2.current.toList =
      ((made nested 300).map.run depthLast).2.current.toList := by decide +kernel
  have G' := gathers_run_made hret'
  have hsame := hagree hlaw G' (by decide +kernel) fun h => by
    rw [Trie.HasHash, Trie.HasHash, hlist]
  dsimp only at hsame
  exact ⟨by decide +kernel, by decide +kernel, hsame⟩

end Instant

end NibbleTrie
