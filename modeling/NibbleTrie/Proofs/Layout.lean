/-
How the branches of a trie hang together.

Every branch has a path: the groups of the slots through which it was first
reached.  `Layout path t` says, slot by slot, that a live branch is held by one
slot, that of its parent at the end of its path; that a dropped branch is empty
for good; and that no entry is in two chains.  It speaks of single slots and of
no hash, so each write to the trie can be checked against it on its own.

Main statements: a branch is reached through the slots `p` exactly when it is
live and `p` is its path (`Layout.at_iff`); at most one slot on the way of a
hash holds no branch (`Layout.slot_unique`), and the route of the hash ends
there (`Layout.route_eq`).
-/
import NibbleTrie.Proofs.Linked
import NibbleTrie.Trie.Route

namespace NibbleTrie

namespace Trie

variable {κ : Type u} {ν : Type v} {t : Trie κ ν}

/-- The branch below `b` to which the slots `p` lead. -/
def follow (t : Trie κ ν) : BranchId → List Nibble → Option BranchId
  | b, [] => some b
  | b, i :: p =>
    match t.slot b i with
    | .branch c => t.follow c p
    | .empty | .chain _ => none

/-- The slots `p` lead from the root to the branch `b`. -/
def At (t : Trie κ ν) (p : List Nibble) (b : BranchId) : Prop := t.follow root p = some b

theorem follow_concat {p : List Nibble} {i : Nibble} {c : BranchId} :
    ∀ {b : BranchId}, t.follow b (p ++ [i]) = some c ↔
      ∃ a, t.follow b p = some a ∧ t.slot a i = .branch c := by
  induction p with
  | nil => intro b; cases hs : t.slot b i <;> simp [follow, hs]
  | cons j p ih => intro b; cases hs : t.slot b j <;> simp [follow, hs, ih]

theorem at_nil {b : BranchId} : t.At [] b ↔ b = root := by
  simp [At, follow, eq_comm]

theorem at_concat {p : List Nibble} {i : Nibble} {c : BranchId} :
    t.At (p ++ [i]) c ↔ ∃ b, t.At p b ∧ t.slot b i = .branch c :=
  follow_concat

theorem At.unique {p : List Nibble} {b b' : BranchId} (h : t.At p b) (h' : t.At p b') : b = b' :=
  Option.some.inj (h.symm.trans h')

/-- Every slot on the way to a branch holds a branch. -/
theorem At.slot_on_way {p q : List Nibble} {i : Nibble} {b a : BranchId} (h : t.At q b)
    (hpre : p ++ [i] <+: q) (ha : t.At p a) : ∃ c, t.slot a i = .branch c := by
  obtain ⟨s, rfl⟩ := hpre
  induction s using List.reverseRecOn generalizing b with
  | nil =>
    rw [List.append_nil, at_concat] at h
    obtain ⟨a', ha', hs⟩ := h
    exact ⟨b, ha.unique ha' ▸ hs⟩
  | append_singleton s j ih =>
    rw [← List.append_assoc, at_concat] at h
    obtain ⟨b', hb', _⟩ := h
    exact ih hb'

/-- What holds of every slot of a trie whose branches have the paths `path`. -/
structure Layout (path : BranchId → List Nibble) (t : Trie κ ν) : Prop where
  root_live : t.isDead root = false
  root_path : path root = []
  root_parent : t.parent? root = none
  /-- There is a group of the hash left to select a slot of every branch. -/
  depth : ∀ {b}, t.isDead b = false → (path b).length < 16
  child_live : ∀ {b i c}, t.slot b i = .branch c → t.isDead c = false
  child_parent : ∀ {b i c}, t.slot b i = .branch c → t.parent? c = some b
  child_path : ∀ {b i c}, t.slot b i = .branch c → path c = path b ++ [i]
  /-- Every live branch but the root hangs in a slot. -/
  held : ∀ {b}, t.isDead b = false → b ≠ root → ∃ a i, t.slot a i = .branch b
  dead_empty : ∀ {b}, t.isDead b = true → ∀ i, t.slot b i = .empty
  head_lt : ∀ {b i e}, t.slot b i = .chain e → e < t.entries.size
  falling : t.Falling
  /-- No entry is in two chains. -/
  apart : ∀ {b i b' i' e}, e ∈ t.chainAt b i → e ∈ t.chainAt b' i' → b = b' ∧ i = i'

/-- The slot `site` is live, and it is on the way of the hash `h`. -/
structure Fits (path : BranchId → List Nibble) (t : Trie κ ν) (h : UInt64) (site : Site) :
    Prop where
  live : t.isDead site.branch = false
  path_prefix : path site.branch ++ [site.index] <+: digits h
  level : (path site.branch).length + site.level = 15

namespace Layout

variable {path : BranchId → List Nibble}

theorem live_of_slot (L : Layout path t) {b : BranchId} {i : Nibble}
    (hs : t.slot b i ≠ .empty) : t.isDead b = false := by
  cases hd : t.isDead b with
  | false => rfl
  | true => exact absurd (L.dead_empty hd i) hs

theorem linked_chainAt (L : Layout path t) (b : BranchId) (i : Nibble) :
    t.Linked (t.slot b i).head? (t.chainAt b i) := by
  refine linked_chainOf L.falling fun e he => ?_
  cases hs : t.slot b i with
  | empty => simp [hs, Slot.head?] at he
  | branch c => simp [hs, Slot.head?] at he
  | chain a =>
    simp only [hs, Slot.head?, Option.some.injEq] at he
    exact he ▸ L.head_lt hs

theorem lt_of_mem_chainAt (L : Layout path t) {b : BranchId} {i : Nibble} {e : EntryId}
    (he : e ∈ t.chainAt b i) : e < t.entries.size :=
  (L.linked_chainAt b i).lt_size e he

theorem live_of_mem_chainAt (L : Layout path t) {b : BranchId} {i : Nibble} {e : EntryId}
    (he : e ∈ t.chainAt b i) : t.isDead b = false := by
  obtain ⟨head, hs⟩ := slot_of_mem_chainAt he
  exact L.live_of_slot (i := i) (by rw [hs]; simp)

/-- The head that a slot holds is in the chain of the slot. -/
theorem head_mem_chainAt (L : Layout path t) {b : BranchId} {i : Nibble} {head : EntryId}
    (hs : t.slot b i = .chain head) : head ∈ t.chainAt b i := by
  rw [chainAt_of_chain hs]
  exact mem_chain_self L.falling (L.head_lt hs)

/-- A slot of a live branch that is on the way of a hash fits the hash. -/
theorem fits_of_way (L : Layout path t) {h : UInt64} {b : BranchId} {i : Nibble}
    (hlive : t.isDead b = false) (hway : path b ++ [i] <+: digits h) :
    Fits path t h ⟨b, i, 15 - (path b).length⟩ where
  live := hlive
  path_prefix := hway
  level := by
    have := L.depth hlive
    simp only
    omega

theorem not_branch_of_mem_chainAt {b : BranchId} {i : Nibble} {e : EntryId}
    (he : e ∈ t.chainAt b i) : (t.slot b i).isBranch = false := by
  obtain ⟨head, hs⟩ := slot_of_mem_chainAt he
  rw [hs]
  rfl

/-- The only way to a live branch is its path. -/
theorem at_iff (L : Layout path t) {p : List Nibble} {b : BranchId} :
    t.At p b ↔ t.isDead b = false ∧ path b = p := by
  constructor
  · intro h
    induction p using List.reverseRecOn generalizing b with
    | nil => rw [at_nil.mp h]; exact ⟨L.root_live, L.root_path⟩
    | append_singleton p i ih =>
      obtain ⟨a, ha, hs⟩ := at_concat.mp h
      exact ⟨L.child_live hs, by rw [L.child_path hs, (ih ha).2]⟩
  · rintro ⟨hlive, rfl⟩
    induction hn : (path b).length generalizing b with
    | zero =>
      by_cases hb : b = root
      · rw [hb, L.root_path]; exact at_nil.mpr rfl
      · obtain ⟨a, i, hs⟩ := L.held hlive hb
        simp [L.child_path hs] at hn
    | succ n ih =>
      by_cases hb : b = root
      · rw [hb, L.root_path] at hn; cases hn
      · obtain ⟨a, i, hs⟩ := L.held hlive hb
        have ha : t.isDead a = false := L.live_of_slot (i := i) (by rw [hs]; simp)
        rw [L.child_path hs] at hn ⊢
        exact at_concat.mpr ⟨a, ih ha (by simpa using hn), hs⟩

theorem at_of_live (L : Layout path t) {b : BranchId} (hb : t.isDead b = false) :
    t.At (path b) b :=
  L.at_iff.mpr ⟨hb, rfl⟩

theorem path_inj (L : Layout path t) {b b' : BranchId} (hb : t.isDead b = false)
    (hb' : t.isDead b' = false) (heq : path b = path b') : b = b' :=
  (L.at_of_live hb).unique (heq ▸ L.at_of_live hb')

/-- A branch hangs in one slot. -/
theorem holder_unique (L : Layout path t) {b b' : BranchId} {i i' : Nibble} {c : BranchId}
    (hs : t.slot b i = .branch c) (hs' : t.slot b' i' = .branch c) : b = b' ∧ i = i' := by
  have hb : b = b' := Option.some.inj ((L.child_parent hs).symm.trans (L.child_parent hs'))
  subst hb
  have := (L.child_path hs).symm.trans (L.child_path hs')
  exact ⟨rfl, by simpa using this⟩

theorem ne_root_of_held (L : Layout path t) {b : BranchId} {i : Nibble} {c : BranchId}
    (hs : t.slot b i = .branch c) : c ≠ root := by
  rintro rfl
  have := L.child_path hs
  rw [L.root_path] at this
  exact absurd this (by simp)

/-- A slot that holds no branch ends every path through it. -/
theorem eq_of_prefix (L : Layout path t) {b b' : BranchId} {i i' : Nibble}
    (hb : t.isDead b = false) (hb' : t.isDead b' = false)
    (hs : (t.slot b i).isBranch = false) (hpre : path b ++ [i] <+: path b' ++ [i']) :
    b = b' ∧ i = i' := by
  rcases List.prefix_concat_iff.mp hpre with heq | hpre
  · obtain ⟨hp, hi⟩ := List.append_inj' heq rfl
    exact ⟨L.path_inj hb hb' hp, by simpa using hi⟩
  · obtain ⟨c, hc⟩ := (L.at_of_live hb').slot_on_way hpre (L.at_of_live hb)
    rw [hc] at hs
    cases hs

/-- At most one slot on the way of a hash holds no branch. -/
theorem slot_unique (L : Layout path t) {h : UInt64} {s s' : Site} (hf : Fits path t h s)
    (hf' : Fits path t h s') (hs : (t.slot s.branch s.index).isBranch = false)
    (hs' : (t.slot s'.branch s'.index).isBranch = false) : s = s' := by
  have key : s.branch = s'.branch ∧ s.index = s'.index := by
    rcases Nat.le_total (path s.branch).length (path s'.branch).length with hle | hle
    · refine L.eq_of_prefix hf.live hf'.live hs ?_
      exact prefix_of_digits hf.path_prefix hf'.path_prefix (by simpa using hle)
    · have := L.eq_of_prefix hf'.live hf.live hs'
        (prefix_of_digits hf'.path_prefix hf.path_prefix (by simpa using hle))
      exact ⟨this.1.symm, this.2.symm⟩
  have hlevel := hf.level
  have hlevel' := hf'.level
  cases s; cases s'
  simp only at key hlevel hlevel'
  obtain ⟨rfl, rfl⟩ := key
  simp only [Site.mk.injEq, true_and]
  omega

/-! ## The route of a hash -/

theorem routeFrom_eq (L : Layout path t) {h : UInt64} :
    ∀ {level : Nat} {b : BranchId}, t.isDead b = false → path b <+: digits h →
      (path b).length + level = 16 →
      ∃ site, t.routeFrom h level b = .ok (site, (t.slot site.branch site.index).head?) ∧
        Fits path t h site ∧ (t.slot site.branch site.index).isBranch = false := by
  intro level
  induction level with
  | zero =>
    intro b hb _ hlen
    have := L.depth hb
    omega
  | succ level ih =>
    intro b hb hpre hlen
    have hpre' : path b ++ [nibble h level] <+: digits h :=
      concat_prefix_digits.mpr ⟨hpre, by omega, by rw [show 15 - (path b).length = level by omega]⟩
    have hfits : Fits path t h ⟨b, nibble h level, level⟩ := ⟨hb, hpre', by simp only; omega⟩
    rw [routeFrom]
    cases hs : t.slot b (nibble h level) with
    | empty => exact ⟨⟨b, nibble h level, level⟩, by simp [hs, Slot.head?], hfits, by simp [hs, Slot.isBranch]⟩
    | chain e => exact ⟨⟨b, nibble h level, level⟩, by simp [hs, Slot.head?], hfits, by simp [hs, Slot.isBranch]⟩
    | branch c =>
      refine ih (L.child_live hs) ?_ ?_
      · rw [L.child_path hs]; exact hpre'
      · rw [L.child_path hs, List.length_append, List.length_singleton]; omega

/-- The route of a hash ends on a live slot on its way that holds no branch. -/
theorem route_eq (L : Layout path t) (h : UInt64) :
    ∃ site, t.route h = .ok (site, (t.slot site.branch site.index).head?) ∧
      Fits path t h site ∧ (t.slot site.branch site.index).isBranch = false :=
  L.routeFrom_eq L.root_live (by simp [L.root_path]) (by simp [L.root_path, hashGroups])

end Layout

end Trie

end NibbleTrie
