/-
One write to a trie with lawful keys.

A write puts an entry where its hash belongs, and in the place of another entry
only if their keys are equal.  `Step hash path path' t t' gone new` says so of
a write, and that the trie stays in order.

Main statements: an exchange within the chain of the key's slot is a step
(`Keyed.step_of_exchanged`), a split is (`Keyed.step_of_split`), and dropping
branches after a step changes nothing more (`Step.prune`).
-/
import NibbleTrie.Proofs.Keyed
import NibbleTrie.Proofs.Write

namespace NibbleTrie

namespace Trie

variable {κ : Type u} {ν : Type v} {t t' u : Trie κ ν} {path path' : BranchId → List Nibble}
  {hash : κ → UInt64} {gone : Option EntryId} {new : Option (κ × ν)} {b : BranchId} {i : Nibble}

/-! ## Where entries stand -/

/-- What a fresh entry has to respect in the chain of a slot: it has the hash of the chain. -/
structure Admits (hash : κ → UInt64) (path : BranchId → List Nibble) (t t' : Trie κ ν)
    (b : BranchId) (i : Nibble) (l : List EntryId) (new : Option (κ × ν)) : Prop where
  item : ∀ item ∈ new, t'.item? t.entries.size = some item
  way : ∀ item ∈ new, path b ++ [i] <+: digits (hash item.1)
  same : ∀ item ∈ new, ∀ a ∈ l, ∀ x, t.entries[a]? = some x → hash x.key = hash item.1

/-- An exchange keeps entries where their hashes put them. -/
theorem Routed.of_exchanged {l₁ l₂ old : List EntryId} (R : Routed hash path t)
    (X : Exchanged t t' b i l₁ old (t.fresh new).toList l₂)
    (C : Admits hash path t t' b i (l₁ ++ l₂) new) : Routed hash path t' where
  toLayout := R.toLayout.of_exchanged X
  way {a j e x} he hx := by
    rcases X.mem_chainAt he with he | ⟨rfl, rfl, he⟩
    · obtain ⟨y, hy, hxy, _⟩ := X.keeps.entry_of_lt (R.lt_of_mem_chainAt he) hx
      rw [hxy]
      exact R.way he hy
    · obtain ⟨item, hitem, hkey⟩ := key_of_mem_fresh C.item (Option.mem_toList.mp he) hx
      rw [hkey]
      exact C.way item hitem
  same {a j e e' x x'} he he' hx hx' := by
    by_cases h : a = b ∧ j = i
    · obtain ⟨rfl, rfl⟩ := h
      rw [X.after] at he he'
      -- every entry of the new chain has the hash of some old one or of the fresh one
      have hcases : ∀ {e x}, e ∈ l₁ ++ ((t.fresh new).toList ++ l₂) → t'.entries[e]? = some x →
          (∃ item ∈ new, x.key = item.1) ∨ ∃ y, e ∈ l₁ ++ l₂ ∧ e ∈ t.chainAt a j ∧
            t.entries[e]? = some y ∧ x.key = y.key := by
        intro e x he hx
        by_cases hf : e ∈ t.fresh new
        · exact .inl (key_of_mem_fresh C.item hf hx)
        · have he' : e ∈ l₁ ++ l₂ := by
            simp only [List.mem_append, Option.mem_toList] at he ⊢
            tauto
          have hold : e ∈ t.chainAt a j := by
            rw [X.before]
            simp only [List.mem_append] at he' ⊢
            tauto
          obtain ⟨y, hy, hxy, _⟩ := X.keeps.entry_of_lt (R.lt_of_mem_chainAt hold) hx
          exact .inr ⟨y, he', hold, hy, hxy⟩
      rcases hcases he hx with ⟨item, hitem, hk⟩ | ⟨y, hl, hold, hy, hk⟩ <;>
        rcases hcases he' hx' with ⟨item', hitem', hk'⟩ | ⟨y', hl', hold', hy', hk'⟩
      · rw [hk, hk', Option.mem_unique hitem hitem']
      · rw [hk, hk']
        exact (C.same item hitem e' hl' y' hy').symm
      · rw [hk, hk']
        exact C.same item' hitem' e hl y hy
      · rw [hk, hk']
        exact R.same hold hold' hy hy'
    · rw [X.chain a j h] at he he'
      obtain ⟨y, hy, hxy, _⟩ := X.keeps.entry_of_lt (R.lt_of_mem_chainAt he) hx
      obtain ⟨y', hy', hxy', _⟩ := X.keeps.entry_of_lt (R.lt_of_mem_chainAt he') hx'
      rw [hxy, hxy']
      exact R.same he he' hy hy'

theorem Routed.of_pruned (R : Routed hash path t) (P : Pruned t t') : Routed hash path t' where
  toLayout := P.layout R.toLayout
  way he hx := by
    rw [P.chainAt_eq] at he
    rw [P.entries] at hx
    exact R.way he hx
  same he he' hx hx' := by
    rw [P.chainAt_eq] at he he'
    rw [P.entries] at hx hx'
    exact R.same he he' hx hx'

/-- The nested branches are on the way of both hashes. -/
theorem Split.newPath_prefix {site : Site} {h₁ h₂ : UInt64} {head : EntryId} {k : Nat}
    (F : Fits path t h₂ site) (S : Split t t' site h₁ h₂ head k)
    (hway : path site.branch ++ [site.index] <+: digits h₁) :
    ∀ {j : Nat}, j ≤ k → newPath path t site h₂ (t.branches.size + j) <+: digits h₁ ∧
      (newPath path t site h₂ (t.branches.size + j)).length + (site.level - 1 - j) = 15
  | 0, _ => by
    have hlevel := F.level
    have hk := S.lt_level
    rw [newPath_new, show (path site.branch).length + 1 + 0 =
      (path site.branch ++ [site.index]).length by simp, ← eq_take_of_prefix F.path_prefix]
    exact ⟨hway, by simp only [List.length_append, List.length_singleton]; omega⟩
  | j + 1, hj => by
    obtain ⟨hpre, hlen⟩ := newPath_prefix F S hway (Nat.le_of_succ_le hj)
    have hlt := Nat.lt_of_succ_le hj
    have hk := S.lt_level
    rw [newPath_succ F (Nat.lt_trans hlt hk), ← S.common j hlt]
    refine ⟨concat_prefix_digits.mpr ⟨hpre, by omega, ?_⟩, ?_⟩
    · rw [show 15 - (newPath path t site h₂ (t.branches.size + j)).length =
        site.level - 1 - j by omega]
    · rw [List.length_append, List.length_singleton]
      omega

/-- A split keeps entries where their hashes put them. -/
theorem Routed.of_split {site : Site} {h₁ h₂ : UInt64} {head : EntryId} {k : Nat} {item : κ × ν}
    {x : Entry κ ν} (R : Routed hash path t) (F : Fits path t h₂ site)
    (S : Split t t' site h₁ h₂ head k) (hx : t.entries[head]? = some x) (h₁x : hash x.key = h₁)
    (hitem : t'.item? t.entries.size = some item) (h₂item : hash item.1 = h₂) :
    Routed hash (Split.newPath path t site h₂) t' := by
  have hhead := R.head_mem_chainAt S.before
  have hway := h₁x ▸ R.way hhead hx
  obtain ⟨hpre₁, hlen⟩ := Split.newPath_prefix F S hway (Nat.le_refl k)
  have hpre₂ : Split.newPath path t site h₂ (t.branches.size + k) <+: digits h₂ := by
    rw [Split.newPath_new]
    exact take_digits_prefix h₂ _
  have hlt := S.lt_level
  have hnext : 15 - (Split.newPath path t site h₂ (t.branches.size + k)).length =
      site.level - 1 - k := by omega
  have hold : ∀ {c i e y}, e ∈ t.chainAt c i → t'.entries[e]? = some y →
      ∃ z, t.entries[e]? = some z ∧ y.key = z.key := by
    intro c i e y he hy
    obtain ⟨z, hz, hk, _⟩ := S.keeps.entry_of_lt (R.lt_of_mem_chainAt he) hy
    exact ⟨z, hz, hk⟩
  exact
    { toLayout := R.toLayout.of_split F S
      way := by
        intro c i e y he hy
        rcases S.of_mem_chainAt R.toLayout he with ⟨hc, _, h⟩ | ⟨rfl, rfl, h⟩ | ⟨rfl, rfl, rfl⟩
        · obtain ⟨z, hz, hk⟩ := hold h hy
          rw [Split.newPath_old hc, hk]
          exact R.way h hz
        · obtain ⟨z, hz, hk⟩ := hold h hy
          rw [hk, R.same h hhead hz hx, h₁x]
          exact concat_prefix_digits.mpr ⟨hpre₁, by omega, by rw [hnext]⟩
        · rw [key_of_item hitem hy, h₂item]
          exact concat_prefix_digits.mpr ⟨hpre₂, by omega, by rw [hnext]⟩
      same := by
        intro c i e e' y y' he he' hy hy'
        rcases S.of_mem_chainAt R.toLayout he with ⟨hc, hn, h⟩ | ⟨rfl, rfl, h⟩ | ⟨rfl, rfl, rfl⟩
        · rw [S.chainAt_old R.toLayout hc hn] at he'
          obtain ⟨z, hz, hk⟩ := hold h hy
          obtain ⟨z', hz', hk'⟩ := hold he' hy'
          rw [hk, hk']
          exact R.same h he' hz hz'
        · rw [S.chainAt_moved R.toLayout] at he'
          obtain ⟨z, hz, hk⟩ := hold h hy
          obtain ⟨z', hz', hk'⟩ := hold he' hy'
          rw [hk, hk']
          exact R.same h he' hz hz'
        · rw [S.chainAt_fresh, List.mem_singleton] at he'
          subst he'
          rw [hy] at hy'
          cases hy'
          rfl }

variable [BEq κ]

/-- The trie `t'` is `t` after one write with lawful keys. -/
structure Step (hash : κ → UInt64) (path path' : BranchId → List Nibble) (t t' : Trie κ ν)
    (gone : Option EntryId) (new : Option (κ × ν)) : Prop
    extends Write path path' t t' gone new where
  keyed : Keyed hash path' t'
  /-- A fresh entry has the key of the one in whose place it comes. -/
  key : ∀ a ∈ gone, ∀ item ∈ new, ∀ x, t.entries[a]? = some x → (x.key == item.1) = true
  /-- A branch on the way of a key that stays is not dropped. -/
  spared : ∀ {c e x}, t.isDead c = false → t'.Live e → t'.entries[e]? = some x →
    path c <+: digits (hash x.key) → t'.isDead c = false

/-! ## Keys along chains -/

omit [BEq κ] in
/-- An exchange along a list keeps a relation that the new entry has where the old one had it. -/
theorem pairwise_exchange {R R' : EntryId → EntryId → Prop} {m l old new : List EntryId}
    (h : (m ++ (old ++ l)).Pairwise R) (himp : ∀ a ∈ m ++ l, ∀ a' ∈ m ++ l, R a a' → R' a a')
    (hnew : new.Pairwise R') (hleft : ∀ a ∈ m, ∀ f ∈ new, R' a f)
    (hright : ∀ f ∈ new, ∀ a ∈ l, R' f a) : (m ++ (new ++ l)).Pairwise R' := by
  rw [List.pairwise_append, List.pairwise_append] at h ⊢
  obtain ⟨hm, ⟨_, hl, _⟩, hcross⟩ := h
  have hml : ∀ {a}, a ∈ m → a ∈ m ++ l := fun h => List.mem_append_left _ h
  have hll : ∀ {a}, a ∈ l → a ∈ m ++ l := fun h => List.mem_append_right _ h
  refine ⟨hm.imp_of_mem fun ha ha' => himp _ (hml ha) _ (hml ha'), ⟨hnew,
    hl.imp_of_mem fun ha ha' => himp _ (hll ha) _ (hll ha'), hright⟩, ?_⟩
  intro a ha a' ha'
  rcases List.mem_append.mp ha' with h | h
  · exact hleft a ha a' h
  · exact himp a (hml ha) a' (hll h) (hcross a ha a' (List.mem_append_right _ h))

theorem Keeps.keyNe (hk : t.Keeps t') {a a' : EntryId} (ha : a < t.entries.size)
    (ha' : a' < t.entries.size) (h : t.KeyNe a a') : t'.KeyNe a a' := by
  intro x x' hx hx'
  obtain ⟨y, hy, hxy, _⟩ := hk.entry_of_lt ha hx
  obtain ⟨y', hy', hxy', _⟩ := hk.entry_of_lt ha' hx'
  rw [hxy, hxy']
  exact h y y' hy hy'

theorem Keyed.distinct_chainAt (K : Keyed hash path t) (b : BranchId) (i : Nibble) :
    (t.chainAt b i).Pairwise t.KeyNe := by
  cases hs : t.slot b i with
  | empty => rw [chainAt_of_empty hs]; exact .nil
  | branch _ => rw [chainAt_of_branch hs]; exact .nil
  | chain e =>
    rw [chainAt_of_chain hs]
    exact K.distinct (K.head_lt hs)

variable [EquivBEq κ]

/-- What an exchange has to respect: the fresh entry fits the slot and the rest of its chain. -/
structure Suits (hash : κ → UInt64) (path : BranchId → List Nibble) (t t' : Trie κ ν)
    (b : BranchId) (i : Nibble) (l₁ l₂ : List EntryId) (gone : Option EntryId)
    (new : Option (κ × ν)) : Prop extends Admits hash path t t' b i (l₁ ++ l₂) new where
  front : gone = none → l₁ = []
  ne : ∀ item ∈ new, ∀ a ∈ l₁ ++ l₂, ∀ x, t.entries[a]? = some x → (x.key == item.1) = false
  key : ∀ a ∈ gone, ∀ item ∈ new, ∀ x, t.entries[a]? = some x → (x.key == item.1) = true

/-- A key that differs from the one that goes differs from the fresh one. -/
theorem Suits.keyNe_fresh {l₁ l₂ : List EntryId} (C : Suits hash path t t' b i l₁ l₂ gone new)
    (hkeeps : t.Keeps t') {g f a : EntryId} (hg : g ∈ gone) (hglt : g < t.entries.size)
    (hf : f ∈ t.fresh new) (ha : a < t.entries.size) (h : t.KeyNe a g) : t'.KeyNe a f := by
  intro x x' hx hx'
  obtain ⟨item, hitem, hkey⟩ := key_of_mem_fresh C.item hf hx'
  obtain ⟨y, hy⟩ := entry_of_lt hglt
  obtain ⟨z, hz, hxz, _⟩ := hkeeps.entry_of_lt ha hx
  rw [hxz, hkey, ← h z y hz hy]
  exact BEq.congr_right (BEq.symm (C.key g hg item hitem y hy))

namespace Exchanged

variable {l₁ l₂ : List EntryId}

/-- Along the chain of an old entry keys stay different. -/
theorem distinct_old (K : Keyed hash path t)
    (X : Exchanged t t' b i l₁ gone.toList (t.fresh new).toList l₂)
    (C : Suits hash path t t' b i l₁ l₂ gone new) {e : EntryId} (he : e < t.entries.size) :
    (t'.chain e).Pairwise t'.KeyNe := by
  have hpair := K.distinct he
  have hmem := (linked_chain K.falling he).lt_size
  rcases X.stale e he with heq | ⟨hne, m, _, hbefore, hafter⟩
  · rw [heq]
    exact hpair.imp_of_mem fun ha ha' h => X.keeps.keyNe (hmem _ ha) (hmem _ ha') h
  · -- the fresh entry has the key of the one in whose place it comes
    obtain ⟨g, rfl⟩ : ∃ g, gone = some g := by
      cases hg : gone with
      | none => exact absurd (C.front hg) hne
      | some g => exact ⟨g, rfl⟩
    rw [hbefore] at hpair hmem
    have hold : ∀ a ∈ m ++ l₂, a < t.entries.size := fun a h => hmem a (by
      rcases List.mem_append.mp h with h | h <;> simp [h])
    have hg : g < t.entries.size := hmem g (by simp)
    obtain ⟨_, hpair₂, hcross⟩ := List.pairwise_append.mp hpair
    have hleft : ∀ a ∈ m, t.KeyNe a g := fun a ha => hcross a ha g (by simp)
    have hright : ∀ a ∈ l₂, t.KeyNe g a := fun a ha =>
      (List.pairwise_cons.mp hpair₂).1 a (by simpa using ha)
    rw [hafter]
    refine pairwise_exchange hpair (fun a ha a' ha' h => X.keeps.keyNe (hold a ha) (hold a' ha') h)
      ?_ ?_ ?_
    · cases new <;> simp
    · intro a ha f hf
      exact C.keyNe_fresh X.keeps rfl hg (Option.mem_toList.mp hf)
        (hold a (List.mem_append_left _ ha)) (hleft a ha)
    · intro f hf a ha
      exact symm (C.keyNe_fresh X.keeps rfl hg (Option.mem_toList.mp hf)
        (hold a (List.mem_append_right _ ha)) (symm (hright a ha)))

/-- Along the chain of the fresh entry keys are different. -/
theorem distinct_fresh (K : Keyed hash path t)
    (X : Exchanged t t' b i l₁ gone.toList (t.fresh new).toList l₂)
    (C : Suits hash path t t' b i l₁ l₂ gone new) {item : κ × ν} (hitem : item ∈ new) :
    (t'.chain t.entries.size).Pairwise t'.KeyNe := by
  have hl₂ : ∀ {a}, a ∈ l₂ → a < t.entries.size := fun h =>
    K.lt_of_mem_chainAt (b := b) (i := i) (by rw [X.before]; simp [h])
  rw [X.chain_fresh hitem (K.toLayout.of_exchanged X), List.pairwise_cons]
  constructor
  · intro a ha x x' hx hx'
    obtain ⟨z, hz, hxz, _⟩ := X.keeps.entry_of_lt (hl₂ ha) hx'
    rw [key_of_item (C.item item hitem) hx, hxz, BEq.comm]
    exact C.ne item hitem a (List.mem_append_right _ ha) z hz
  · have hpair := K.distinct_chainAt b i
    rw [X.before] at hpair
    have := (List.pairwise_append.mp (List.pairwise_append.mp hpair).2.1).2.1
    exact this.imp_of_mem fun ha ha' h => X.keeps.keyNe (hl₂ ha) (hl₂ ha') h

/-- Along every chain keys stay different. -/
theorem distinct (K : Keyed hash path t)
    (X : Exchanged t t' b i l₁ gone.toList (t.fresh new).toList l₂)
    (C : Suits hash path t t' b i l₁ l₂ gone new) {e : EntryId} (he : e < t'.entries.size) :
    (t'.chain e).Pairwise t'.KeyNe := by
  by_cases hlt : e < t.entries.size
  · exact X.distinct_old K C hlt
  · rw [X.entries_size, length_fresh] at he
    cases hn : new with
    | none =>
      rw [hn] at he
      exact absurd he hlt
    | some item =>
      rw [hn] at he
      obtain rfl : e = t.entries.size :=
        Nat.le_antisymm (Nat.le_of_lt_succ he) (Nat.le_of_not_lt hlt)
      exact X.distinct_fresh K C hn

end Exchanged

/-- An exchange keeps entries where their hashes put them. -/
theorem Keyed.of_exchanged {l₁ l₂ : List EntryId} (K : Keyed hash path t)
    (X : Exchanged t t' b i l₁ gone.toList (t.fresh new).toList l₂)
    (C : Suits hash path t t' b i l₁ l₂ gone new) : Keyed hash path t' where
  toRouted := K.toRouted.of_exchanged X C.toAdmits
  distinct he := X.distinct K C he

/-- An exchange in the chain of a slot is a step. -/
theorem Keyed.step_of_exchanged {l₁ l₂ : List EntryId} (K : Keyed hash path t)
    (W : Write path path t t' gone new)
    (X : Exchanged t t' b i l₁ gone.toList (t.fresh new).toList l₂)
    (C : Suits hash path t t' b i l₁ l₂ gone new) : Step hash path path t t' gone new where
  toWrite := W
  keyed := K.of_exchanged X C
  key := C.key
  spared hc _ _ _ := (X.dead _).trans hc

/-! ## Dropping branches -/

omit [EquivBEq κ]

theorem Keyed.of_pruned (K : Keyed hash path t) (P : Pruned t t') : Keyed hash path t' where
  toRouted := K.toRouted.of_pruned P
  distinct {e} he := by
    rw [P.entries] at he
    rw [chain_congr P.entries]
    refine (K.distinct he).imp fun h x x' hx hx' => ?_
    rw [P.entries] at hx hx'
    exact h x x' hx hx'

/-- A branch on the way of a key that is present is not dropped. -/
theorem Pruned.spared (P : Pruned t t') (K : Keyed hash path t) {c : BranchId} {e : EntryId}
    {x : Entry κ ν} (hc : t.isDead c = false) (he : t.Live e) (hx : t.entries[e]? = some x)
    (hpre : path c <+: digits (hash x.key)) : t'.isDead c = false := by
  induction P with
  | refl => exact hc
  | @head t u t' b D P ih =>
    have P₁ : Pruned t u := .head D (.refl u)
    have hne : b ≠ c := by
      rintro rfl
      obtain ⟨a, j, he⟩ := he
      exact K.slot_ne_empty hc hpre he (K.way he hx) (D.empty _)
    exact ih (K.of_pruned P₁) (D.live_iff.mpr ⟨hne, hc⟩) ((P₁.live_entry e).mpr he)
      (D.entries ▸ hx)

/-- Branches dropped after a step. -/
theorem Step.prune (S : Step hash path path' t t' gone new) (P : Pruned t' u) :
    Step hash path path' t u gone new where
  toWrite := S.toWrite.prune P
  keyed := S.keyed.of_pruned P
  key := S.key
  spared {c e x} hc he hx hpre := by
    have he' := (P.live_entry e).mp he
    rw [P.entries] at hx
    refine P.spared S.keyed (S.spared hc he' hx hpre) he' hx ?_
    rw [S.path_old c (lt_of_isDead_eq_false hc)]
    exact hpre

/-! ## Splits -/

/-- A split keeps entries where their hashes put them, and the fresh one has a chain of its own. -/
theorem Keyed.of_split {site : Site} {h₁ h₂ : UInt64} {head : EntryId} {k : Nat} {item : κ × ν}
    {x : Entry κ ν} (K : Keyed hash path t) (F : Fits path t h₂ site)
    (S : Split t t' site h₁ h₂ head k) (hx : t.entries[head]? = some x) (h₁x : hash x.key = h₁)
    (hitem : t'.item? t.entries.size = some item) (h₂item : hash item.1 = h₂) :
    Keyed hash (Split.newPath path t site h₂) t' where
  toRouted := K.toRouted.of_split F S hx h₁x hitem h₂item
  distinct {e} he := by
    rw [S.entries_size] at he
    rcases Nat.lt_or_eq_of_le (Nat.le_of_lt_succ he) with he | rfl
    · rw [S.chain_old e he]
      have hmem := (linked_chain K.falling he).lt_size
      exact (K.distinct he).imp_of_mem fun ha ha' h =>
        S.keeps.keyNe (hmem _ ha) (hmem _ ha') h
    · rw [S.chain_fresh]
      exact List.pairwise_singleton _ _

/-- A split is a step. -/
theorem Keyed.step_of_split {site : Site} {h₁ h₂ : UInt64} {head : EntryId} {k : Nat}
    {item : κ × ν} {x : Entry κ ν} (K : Keyed hash path t) (F : Fits path t h₂ site)
    (S : Split t t' site h₁ h₂ head k)
    (W : Write path (Split.newPath path t site h₂) t t' none (some item))
    (hx : t.entries[head]? = some x) (h₁x : hash x.key = h₁) (h₂item : hash item.1 = h₂) :
    Step hash path (Split.newPath path t site h₂) t t' none (some item) where
  toWrite := W
  keyed := K.of_split F S hx h₁x (W.item item rfl) h₂item
  key a ha := by cases ha
  spared hc _ _ _ := (S.dead_old _ (lt_of_isDead_eq_false hc)).trans hc

end Trie

end NibbleTrie
