/-
Splitting a slot.

A slot that holds a chain of another hash gets nested branches, one for each
group that the two hashes have in common and one more on which they part.  The
chain is moved whole to the last of them, and the fresh entry stands beside it.

Main statements: what each nested branch holds (`splitBranches_table`), when
there is no split (`splitBranches_none`), what the trie reads afterwards
(`Split`, `split_publish`), and that a split keeps the layout
(`Layout.of_split`).
-/
import NibbleTrie.Proofs.Exchange

namespace NibbleTrie

/-- The nested branches `bs` of a split, seen one by one: `k` with one group in common each, and
the one on which the hashes part. -/
structure SplitTable (h₁ h₂ : UInt64) (old fresh : EntryId) (level : Nat)
    (parent first : BranchId) (bs : List Branch) (k : Nat) : Prop where
  length : bs.length = k + 1
  lt_level : k < level
  common : ∀ j < k, nibble h₁ (level - 1 - j) = nibble h₂ (level - 1 - j)
  parting : nibble h₁ (level - 1 - k) ≠ nibble h₂ (level - 1 - k)
  live : ∀ j ≤ k, bs[j]?.map (·.dead) = some false
  parent : ∀ j ≤ k, bs[j]?.bind (·.parent) = some (if j = 0 then parent else first + (j - 1))
  inner : ∀ j < k, ∀ i, bs[j]?.map (·.get i) =
    some (if i = nibble h₂ (level - 1 - j) then .branch (first + j + 1) else .empty)
  last : ∀ i, bs[k]?.map (·.get i) =
    some (if i = nibble h₂ (level - 1 - k) then .chain fresh
      else if i = nibble h₁ (level - 1 - k) then .chain old else .empty)

section
variable {h₁ h₂ : UInt64} {old fresh : EntryId}

theorem splitBranches_table : ∀ {level : Nat} {parent first : BranchId} {bs : List Branch},
    splitBranches h₁ h₂ old fresh level parent first = some bs →
      ∃ k, SplitTable h₁ h₂ old fresh level parent first bs k
  | 0, _, _, _, h => by cases h
  | level + 1, parent, first, bs, h => by
    rw [splitBranches] at h
    split at h
    · next heq =>
      obtain ⟨below, hbelow, rfl⟩ := Option.map_eq_some_iff.mp h
      obtain ⟨k, T⟩ := splitBranches_table hbelow
      have hlevel : ∀ j, level + 1 - 1 - (j + 1) = level - 1 - j := fun j => by omega
      refine ⟨k + 1, ?_⟩
      exact
        { length := by simp [T.length]
          lt_level := by have := T.lt_level; omega
          common := by
            rintro (_ | j) hj
            · exact heq
            · rw [hlevel]; exact T.common j (by omega)
          parting := by rw [hlevel]; exact T.parting
          live := by
            rintro (_ | j) hj
            · rfl
            · exact T.live j (Nat.le_of_succ_le_succ hj)
          parent := by
            rintro (_ | j) hj
            · rfl
            · rw [List.getElem?_cons_succ, T.parent j (Nat.le_of_succ_le_succ hj)]
              cases j with
              | zero => rfl
              | succ j => exact congrArg some (Nat.add_right_comm first 1 j)
          inner := by
            rintro (_ | j) hj i
            · simp [Branch.get_set, heq, eq_comm]
            · rw [List.getElem?_cons_succ, T.inner j (by omega), hlevel,
                Nat.add_right_comm first 1 j]
              rfl
          last := by
            intro i
            rw [List.getElem?_cons_succ, T.last, hlevel] }
    · next hne =>
      cases h
      refine ⟨0, ?_⟩
      exact
        { length := rfl
          lt_level := Nat.succ_pos _
          common := fun _ h => absurd h (Nat.not_lt_zero _)
          parting := hne
          live := fun j hj => by rw [Nat.le_zero.mp hj]; rfl
          parent := fun j hj => by rw [Nat.le_zero.mp hj]; rfl
          inner := fun _ h => absurd h (Nat.not_lt_zero _)
          last := by
            intro i
            simp only [List.getElem?_cons_zero, Option.map_some, Branch.get_set, Branch.get_new,
              Nat.add_sub_cancel, Nat.sub_zero, eq_comm] }

/-- Without a split the hashes agree on all groups below the slot. -/
theorem splitBranches_none : ∀ {level : Nat} {parent first : BranchId},
    splitBranches h₁ h₂ old fresh level parent first = none →
      ∀ j < level, nibble h₁ j = nibble h₂ j
  | 0, _, _, _ => fun _ h => absurd h (Nat.not_lt_zero _)
  | level + 1, parent, first, h => by
    rw [splitBranches] at h
    split at h
    · next heq =>
      have ih := splitBranches_none (Option.map_eq_none_iff.mp h)
      intro j hj
      rcases Nat.lt_succ_iff_lt_or_eq.mp hj with hj | rfl
      · exact ih j hj
      · exact heq
    · cases h

end

namespace Trie

variable {κ : Type u} {ν : Type v} {t t' : Trie κ ν}

/-- What `t'` reads after the slot `site` of `t` was split in `k + 1` levels between the chain of
`head`, of hash `h₁`, and a fresh entry of hash `h₂`. -/
structure Split (t t' : Trie κ ν) (site : Site) (h₁ h₂ : UInt64) (head : EntryId) (k : Nat) :
    Prop where
  keeps : t.Keeps t'
  falling : t'.Falling
  entries_size : t'.entries.size = t.entries.size + 1
  branches_size : t'.branches.size = t.branches.size + (k + 1)
  lt_level : k < site.level
  common : ∀ j < k, nibble h₁ (site.level - 1 - j) = nibble h₂ (site.level - 1 - j)
  parting : nibble h₁ (site.level - 1 - k) ≠ nibble h₂ (site.level - 1 - k)
  before : t.slot site.branch site.index = .chain head
  dead_old : ∀ c < t.branches.size, t'.isDead c = t.isDead c
  dead_new : ∀ j ≤ k, t'.isDead (t.branches.size + j) = false
  parent_old : ∀ c < t.branches.size, t'.parent? c = t.parent? c
  parent_new : ∀ j ≤ k, t'.parent? (t.branches.size + j) =
    some (if j = 0 then site.branch else t.branches.size + (j - 1))
  slot_site : t'.slot site.branch site.index = .branch t.branches.size
  slot_old : ∀ c < t.branches.size, ∀ i, ¬(c = site.branch ∧ i = site.index) →
    t'.slot c i = t.slot c i
  slot_inner : ∀ j < k, ∀ i, t'.slot (t.branches.size + j) i =
    if i = nibble h₂ (site.level - 1 - j) then .branch (t.branches.size + j + 1) else .empty
  slot_last : ∀ i, t'.slot (t.branches.size + k) i =
    if i = nibble h₂ (site.level - 1 - k) then .chain t.entries.size
    else if i = nibble h₁ (site.level - 1 - k) then .chain head else .empty
  chain_old : ∀ e < t.entries.size, t'.chain e = t.chain e
  chain_fresh : t'.chain t.entries.size = [t.entries.size]

/-- Publishing the nested branches of a split. -/
theorem split_publish {path : BranchId → List Nibble} (L : Layout path t) {site : Site}
    {h₁ h₂ : UInt64} {head : EntryId} {bs : List Branch} {k : Nat}
    (hlive : t.isDead site.branch = false) (hs : t.slot site.branch site.index = .chain head)
    (T : SplitTable h₁ h₂ head t.entries.size site.level site.branch t.branches.size bs k)
    (key : κ) (v : ν) :
    Split t (t.publish site ⟨key, v, none, t.entries.size⟩ bs (.branch t.branches.size)) site
      h₁ h₂ head k := by
  have hb := lt_of_isDead_eq_false hlive
  have hf' : (t.pushEntry ⟨key, v, none, t.entries.size⟩).Falling :=
    L.falling.pushEntry (fun _ h => by cases h) (fun _ h => by cases h) (Nat.le_refl _)
  have hentries : (t.publish site ⟨key, v, none, t.entries.size⟩ bs (.branch t.branches.size)).entries
      = (t.pushEntry ⟨key, v, none, t.entries.size⟩).entries := rfl
  have hlt : ∀ j, t.branches.size + j ≠ site.branch := fun j h =>
    absurd (h ▸ hb) (Nat.not_lt.mpr (Nat.le_add_right _ _))
  have hslot : ∀ c i, ¬(c = site.branch ∧ i = site.index) →
      (t.publish site ⟨key, v, none, t.entries.size⟩ bs (.branch t.branches.size)).slot c i =
        ((t.pushEntry ⟨key, v, none, t.entries.size⟩).pushBranches bs).slot c i := by
    intro c i h
    rw [publish, slot_addCount, slot_setSlot, if_neg fun h' => h ⟨h'.1.symm, h'.2.1.symm⟩]
  exact
    { keeps := (Keeps.pushEntry t _).trans (Keeps.of_eq hentries)
      falling := hf'.congr hentries
      entries_size := by rw [hentries, entries_pushEntry_size]
      branches_size := by
        simp [publish, pushBranches, T.length]
      lt_level := T.lt_level
      common := T.common
      parting := T.parting
      before := hs
      dead_old := by
        intro c hc
        rw [publish, isDead_addCount, isDead_setSlot, isDead_pushBranches_of_lt _ _ (by exact hc),
          isDead_pushEntry]
      dead_new := by
        intro j hj
        rw [publish, isDead_addCount, isDead_setSlot,
          isDead_pushBranches_of_ge _ _ (by simp), branches_pushEntry,
          Nat.add_sub_cancel_left, T.live j hj]
        rfl
      parent_old := by
        intro c hc
        rw [publish, parent?_addCount, parent?_setSlot, parent?_pushBranches_of_lt _ _ (by exact hc),
          parent?_pushEntry]
      parent_new := by
        intro j hj
        rw [publish, parent?_addCount, parent?_setSlot,
          parent?_pushBranches_of_ge _ _ (by simp), branches_pushEntry,
          Nat.add_sub_cancel_left, T.parent j hj]
      slot_site := by
        rw [publish, slot_addCount, slot_setSlot, if_pos]
        refine ⟨rfl, rfl, ?_⟩
        simp only [pushBranches, branches_pushEntry, Array.size_append]
        exact Nat.lt_of_lt_of_le hb (Nat.le_add_right _ _)
      slot_old := by
        intro c hc i h
        rw [hslot c i h, slot_pushBranches_of_lt _ _ _ (by exact hc), slot_pushEntry]
      slot_inner := by
        intro j hj i
        rw [hslot _ i fun h => hlt j h.1, slot_pushBranches_of_ge _ _ _ (by simp),
          branches_pushEntry, Nat.add_sub_cancel_left, T.inner j hj]
        rfl
      slot_last := by
        intro i
        rw [hslot _ i fun h => hlt k h.1,
          slot_pushBranches_of_ge _ _ _ (by simp), branches_pushEntry,
          Nat.add_sub_cancel_left, T.last]
        rfl
      chain_old := fun e he => (chain_congr hentries e).trans (chain_pushEntry L.falling hf' he)
      chain_fresh := (chain_congr hentries _).trans
        ((linked_chain hf' (by simp)).unique (linked_pushEntry_self .nil)) }

namespace Split

variable {site : Site} {h₁ h₂ : UInt64} {head : EntryId} {k : Nat}

theorem chainAt_old {path : BranchId → List Nibble} (L : Layout path t)
    (S : Split t t' site h₁ h₂ head k) {c : BranchId} (hc : c < t.branches.size) {i : Nibble}
    (h : ¬(c = site.branch ∧ i = site.index)) : t'.chainAt c i = t.chainAt c i := by
  rw [chainAt, chainAt, S.slot_old c hc i h]
  cases hs : t.slot c i with
  | empty => rfl
  | branch _ => rfl
  | chain e => exact S.chain_old e (L.head_lt hs)

/-- The fresh entry stands alone at the group of its hash. -/
theorem chainAt_fresh (S : Split t t' site h₁ h₂ head k) :
    t'.chainAt (t.branches.size + k) (nibble h₂ (site.level - 1 - k)) = [t.entries.size] := by
  rw [chainAt_of_chain ((S.slot_last _).trans (if_pos rfl))]
  exact S.chain_fresh

/-- The old chain was moved whole. -/
theorem chainAt_moved {path : BranchId → List Nibble} (L : Layout path t)
    (S : Split t t' site h₁ h₂ head k) :
    t'.chainAt (t.branches.size + k) (nibble h₁ (site.level - 1 - k)) =
      t.chainAt site.branch site.index := by
  have hlast := S.slot_last (nibble h₁ (site.level - 1 - k))
  rw [if_neg S.parting, if_pos rfl] at hlast
  rw [chainAt_of_chain hlast, chainAt_of_chain S.before]
  exact S.chain_old head (L.head_lt S.before)

/-- A branch of the new table is an old one, one of the nested ones, or none at all. -/
theorem cases_branch (S : Split t t' site h₁ h₂ head k) (c : BranchId) :
    c < t.branches.size ∨ (∃ j ≤ k, c = t.branches.size + j) ∨ t'.branches.size ≤ c := by
  rw [S.branches_size]
  by_cases hc : c < t.branches.size
  · exact .inl hc
  · obtain ⟨j, rfl⟩ := Nat.le.dest (Nat.le_of_not_lt hc)
    by_cases hj : j ≤ k
    · exact .inr (.inl ⟨j, hj, rfl⟩)
    · exact .inr (.inr (Nat.add_le_add_left (Nat.lt_of_not_le hj) _))

/-- The slots that hold a branch. -/
theorem of_slot_branch (S : Split t t' site h₁ h₂ head k) {c a : BranchId} {i : Nibble}
    (hs : t'.slot c i = .branch a) :
    (c = site.branch ∧ i = site.index ∧ a = t.branches.size) ∨
    (c < t.branches.size ∧ ¬(c = site.branch ∧ i = site.index) ∧ t.slot c i = .branch a) ∨
    ∃ j < k, c = t.branches.size + j ∧ i = nibble h₂ (site.level - 1 - j) ∧
      a = t.branches.size + (j + 1) := by
  rcases S.cases_branch c with hc | ⟨j, hj, rfl⟩ | hc
  · by_cases h : c = site.branch ∧ i = site.index
    · obtain ⟨rfl, rfl⟩ := h
      rw [S.slot_site] at hs
      cases hs
      exact .inl ⟨rfl, rfl, rfl⟩
    · rw [S.slot_old c hc i h] at hs
      exact .inr (.inl ⟨hc, h, hs⟩)
  · rcases Nat.lt_or_eq_of_le hj with hj | rfl
    · rw [S.slot_inner j hj] at hs
      split at hs
      · next hi =>
        cases hs
        exact .inr (.inr ⟨j, hj, rfl, hi, rfl⟩)
      · cases hs
    · rw [S.slot_last] at hs
      split at hs
      · cases hs
      · split at hs <;> cases hs
  · rw [slot_of_size_le hc] at hs
    cases hs

/-- The slots that hold a chain. -/
theorem of_slot_chain (S : Split t t' site h₁ h₂ head k) {c : BranchId} {i : Nibble} {e : EntryId}
    (hs : t'.slot c i = .chain e) :
    (c < t.branches.size ∧ ¬(c = site.branch ∧ i = site.index) ∧ t.slot c i = .chain e) ∨
    (c = t.branches.size + k ∧ i = nibble h₁ (site.level - 1 - k) ∧ e = head) ∨
    (c = t.branches.size + k ∧ i = nibble h₂ (site.level - 1 - k) ∧ e = t.entries.size) := by
  rcases S.cases_branch c with hc | ⟨j, hj, rfl⟩ | hc
  · by_cases h : c = site.branch ∧ i = site.index
    · obtain ⟨rfl, rfl⟩ := h
      rw [S.slot_site] at hs
      cases hs
    · rw [S.slot_old c hc i h] at hs
      exact .inl ⟨hc, h, hs⟩
  · rcases Nat.lt_or_eq_of_le hj with hj | rfl
    · rw [S.slot_inner j hj] at hs
      split at hs <;> cases hs
    · rw [S.slot_last] at hs
      split at hs
      · next hi =>
        cases hs
        exact .inr (.inr ⟨rfl, hi, rfl⟩)
      · split at hs
        · next hi =>
          cases hs
          exact .inr (.inl ⟨rfl, hi, rfl⟩)
        · cases hs
  · rw [slot_of_size_le hc] at hs
    cases hs

/-- The chains that hold an entry. -/
theorem of_mem_chainAt {path : BranchId → List Nibble} (L : Layout path t)
    (S : Split t t' site h₁ h₂ head k) {c : BranchId} {i : Nibble} {e : EntryId}
    (he : e ∈ t'.chainAt c i) :
    (c < t.branches.size ∧ ¬(c = site.branch ∧ i = site.index) ∧ e ∈ t.chainAt c i) ∨
    (c = t.branches.size + k ∧ i = nibble h₁ (site.level - 1 - k) ∧
      e ∈ t.chainAt site.branch site.index) ∨
    (c = t.branches.size + k ∧ i = nibble h₂ (site.level - 1 - k) ∧ e = t.entries.size) := by
  obtain ⟨a, hs⟩ := slot_of_mem_chainAt he
  rw [chainAt_of_chain hs] at he
  rcases S.of_slot_chain hs with ⟨hc, h, hs⟩ | ⟨rfl, rfl, rfl⟩ | ⟨rfl, rfl, rfl⟩
  · rw [S.chain_old a (L.head_lt hs)] at he
    exact .inl ⟨hc, h, (chainAt_of_chain hs).symm ▸ he⟩
  · rw [S.chain_old a (L.head_lt S.before)] at he
    exact .inr (.inl ⟨rfl, rfl, (chainAt_of_chain S.before).symm ▸ he⟩)
  · rw [S.chain_fresh, List.mem_singleton] at he
    exact .inr (.inr ⟨rfl, rfl, he⟩)

/-- Every live branch but the root hangs in a slot. -/
theorem held {path : BranchId → List Nibble} (L : Layout path t)
    (S : Split t t' site h₁ h₂ head k) {c : BranchId} (hc : t'.isDead c = false) (hne : c ≠ root) :
    ∃ a i, t'.slot a i = .branch c := by
  rcases S.cases_branch c with hold | ⟨j, hj, rfl⟩ | hout
  · obtain ⟨a, i, hs⟩ := L.held ((S.dead_old c hold).symm.trans hc) hne
    have ha : a < t.branches.size :=
      lt_of_isDead_eq_false (L.live_of_slot (i := i) (by rw [hs]; simp))
    refine ⟨a, i, (S.slot_old a ha i ?_).trans hs⟩
    rintro ⟨rfl, rfl⟩
    rw [S.before] at hs
    cases hs
  · cases j with
    | zero => exact ⟨site.branch, site.index, S.slot_site⟩
    | succ j =>
      refine ⟨t.branches.size + j, nibble h₂ (site.level - 1 - j), ?_⟩
      rw [S.slot_inner j hj, if_pos rfl]
      rfl
  · rw [isDead_of_size_le hout] at hc
    cases hc

/-- No entry is in two chains: the old ones are where they were, or all in one new slot. -/
theorem apart {path : BranchId → List Nibble} (L : Layout path t)
    (S : Split t t' site h₁ h₂ head k) {c c' : BranchId} {i i' : Nibble} {e : EntryId}
    (he : e ∈ t'.chainAt c i) (he' : e ∈ t'.chainAt c' i') : c = c' ∧ i = i' := by
  have fresh_not : ∀ {a j}, t.entries.size ∈ t.chainAt a j → False := fun h =>
    absurd (L.lt_of_mem_chainAt h) (Nat.lt_irrefl _)
  rcases S.of_mem_chainAt L he with ⟨_, hn, h⟩ | ⟨rfl, rfl, h⟩ | ⟨rfl, rfl, rfl⟩ <;>
    rcases S.of_mem_chainAt L he' with ⟨_, hn', h'⟩ | ⟨rfl, rfl, h'⟩ | ⟨rfl, rfl, h'⟩
  · exact L.apart h h'
  · exact absurd (L.apart h h') hn
  · subst h'; exact (fresh_not h).elim
  · exact absurd (L.apart h' h) hn'
  · exact ⟨rfl, rfl⟩
  · subst h'; exact (fresh_not h).elim
  · exact (fresh_not h').elim
  · exact (fresh_not h').elim
  · exact ⟨rfl, rfl⟩

/-- The paths after a split: a nested branch lies one group of the fresh hash further down. -/
def newPath (path : BranchId → List Nibble) (t : Trie κ ν) (site : Site) (h : UInt64)
    (c : BranchId) : List Nibble :=
  if c < t.branches.size then path c
  else (digits h).take ((path site.branch).length + 1 + (c - t.branches.size))

theorem newPath_old {path : BranchId → List Nibble} {c : BranchId} (hc : c < t.branches.size) :
    newPath path t site h₂ c = path c :=
  if_pos hc

theorem newPath_new (path : BranchId → List Nibble) (j : Nat) :
    newPath path t site h₂ (t.branches.size + j) =
      (digits h₂).take ((path site.branch).length + 1 + j) := by
  rw [newPath, if_neg (Nat.not_lt.mpr (Nat.le_add_right _ j)), Nat.add_sub_cancel_left]

theorem newPath_succ {path : BranchId → List Nibble} (F : Fits path t h₂ site) {j : Nat}
    (hj : j < site.level) :
    newPath path t site h₂ (t.branches.size + (j + 1)) =
      newPath path t site h₂ (t.branches.size + j) ++ [nibble h₂ (site.level - 1 - j)] := by
  have hlevel := F.level
  rw [newPath_new, newPath_new, ← Nat.add_assoc, take_digits_succ h₂ (by omega),
    show 15 - ((path site.branch).length + 1 + j) = site.level - 1 - j by omega]

end Split

/-- A split keeps the layout. -/
theorem Layout.of_split {path : BranchId → List Nibble} (L : Layout path t) {site : Site}
    {h₁ h₂ : UInt64} {head : EntryId} {k : Nat} (F : Fits path t h₂ site)
    (S : Split t t' site h₁ h₂ head k) : Layout (Split.newPath path t site h₂) t' := by
  have hb := lt_of_isDead_eq_false F.live
  have hfirst : Split.newPath path t site h₂ t.branches.size = path site.branch ++ [site.index] := by
    have hnew : Split.newPath path t site h₂ (t.branches.size + 0) = _ := Split.newPath_new path 0
    rw [Nat.add_zero] at hnew
    rw [hnew, eq_take_of_prefix F.path_prefix, List.length_append]
    rfl
  have hfirst_live : t'.isDead t.branches.size = false := S.dead_new 0 (Nat.zero_le k)
  exact
    { root_live := (S.dead_old root (lt_of_isDead_eq_false L.root_live)).trans L.root_live
      root_path := (Split.newPath_old (lt_of_isDead_eq_false L.root_live)).trans L.root_path
      root_parent := (S.parent_old root (lt_of_isDead_eq_false L.root_live)).trans L.root_parent
      depth := by
        intro c hc
        rcases S.cases_branch c with hold | ⟨j, hj, rfl⟩ | hout
        · rw [Split.newPath_old hold]
          exact L.depth ((S.dead_old c hold).symm.trans hc)
        · have hlevel := F.level
          have hk := S.lt_level
          rw [Split.newPath_new, List.length_take, length_digits]
          omega
        · rw [isDead_of_size_le hout] at hc
          cases hc
      child_live := by
        intro c i a hs
        rcases S.of_slot_branch hs with ⟨rfl, rfl, rfl⟩ | ⟨hc, _, hs⟩ | ⟨j, hj, rfl, rfl, rfl⟩
        · exact hfirst_live
        · have ha := L.child_live hs
          exact (S.dead_old a (lt_of_isDead_eq_false ha)).trans ha
        · exact S.dead_new (j + 1) hj
      child_parent := by
        intro c i a hs
        rcases S.of_slot_branch hs with ⟨rfl, rfl, rfl⟩ | ⟨hc, _, hs⟩ | ⟨j, hj, rfl, rfl, rfl⟩
        · exact S.parent_new 0 (Nat.zero_le k)
        · exact (S.parent_old a (lt_of_isDead_eq_false (L.child_live hs))).trans (L.child_parent hs)
        · exact S.parent_new (j + 1) hj
      child_path := by
        intro c i a hs
        rcases S.of_slot_branch hs with ⟨rfl, rfl, rfl⟩ | ⟨hc, _, hs⟩ | ⟨j, hj, rfl, rfl, rfl⟩
        · rw [hfirst, Split.newPath_old hb]
        · rw [Split.newPath_old (lt_of_isDead_eq_false (L.child_live hs)), Split.newPath_old hc]
          exact L.child_path hs
        · exact Split.newPath_succ F (Nat.lt_trans hj S.lt_level)
      held := S.held L
      dead_empty := by
        intro c hc i
        rcases S.cases_branch c with hold | ⟨j, hj, rfl⟩ | hout
        · have hdead := (S.dead_old c hold).symm.trans hc
          rw [S.slot_old c hold, L.dead_empty hdead i]
          rintro ⟨rfl, -⟩
          rw [F.live] at hdead
          cases hdead
        · rw [S.dead_new j hj] at hc
          cases hc
        · exact slot_of_size_le hout i
      head_lt := by
        intro c i e hs
        rcases S.of_slot_chain hs with ⟨_, _, hs⟩ | ⟨_, _, rfl⟩ | ⟨_, _, rfl⟩
        · exact Nat.lt_of_lt_of_le (L.head_lt hs) S.keeps.size_le
        · exact Nat.lt_of_lt_of_le (L.head_lt S.before) S.keeps.size_le
        · exact S.entries_size ▸ Nat.lt_succ_self _
      falling := S.falling
      apart := S.apart L }

end Trie

end NibbleTrie
