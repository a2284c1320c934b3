/-
One write, seen from its entries.

Whatever an operation writes to a trie, at most one entry goes and at most one
fresh entry comes.  `Write path path' t t' gone new` says so, and with it what
becomes of the chains that somebody may still be following: the entry that goes
is taken out of them or exchanged for the fresh one, or they stay as they are.
It speaks of no hash and compares no keys, so it holds for every kind of keys.

Main statements: an exchange within the chain of a slot is a write
(`Layout.write_of_exchanged`), a split is (`Layout.write_of_split`), and dropping
branches after a write changes nothing more (`Write.prune`); a write moves the
rows of the trie and the running count alike (`Write.ids_perm`,
`Write.counted`).
-/
import NibbleTrie.Proofs.Drop
import NibbleTrie.Proofs.Listing
import NibbleTrie.Proofs.Split

namespace NibbleTrie

namespace Trie

variable {κ : Type u} {ν : Type v} {t t' u : Trie κ ν} {path path' : BranchId → List Nibble}
  {gone : Option EntryId} {new : Option (κ × ν)} {b : BranchId} {i : Nibble}

/-- The id of a fresh entry, if there is one. -/
def fresh (t : Trie κ ν) (new : Option (κ × ν)) : Option EntryId := new.map fun _ => t.entries.size

theorem eq_of_mem_fresh {e : EntryId} (he : e ∈ t.fresh new) : e = t.entries.size := by
  cases new with
  | none => cases he
  | some item => cases he; rfl

theorem exists_of_mem_fresh {e : EntryId} (he : e ∈ t.fresh new) : ∃ item, item ∈ new := by
  cases new with
  | none => cases he
  | some item => exact ⟨item, rfl⟩

theorem length_fresh : (t.fresh new).toList.length = new.toList.length := by
  cases new <;> rfl

theorem key_of_item {e : EntryId} {item : κ × ν} {x : Entry κ ν} (hi : t.item? e = some item)
    (hx : t.entries[e]? = some x) : x.key = item.1 := by
  rw [item?_of_entry hx] at hi
  cases hi
  rfl

/-- The fresh entry has the key of the pair it was made from. -/
theorem key_of_mem_fresh (hitems : ∀ item ∈ new, t'.item? t.entries.size = some item) {e : EntryId}
    {x : Entry κ ν} (he : e ∈ t.fresh new) (hx : t'.entries[e]? = some x) :
    ∃ item ∈ new, x.key = item.1 := by
  obtain ⟨item, hitem⟩ := exists_of_mem_fresh he
  rw [eq_of_mem_fresh he] at hx
  exact ⟨item, hitem, key_of_item (hitems item hitem) hx⟩

/-- When an entry that comes in the place of `gone` was born: when the one it replaces was, or
now. -/
def birthFor (t : Trie κ ν) (gone : Option EntryId) : Nat := (gone.map t.birth).getD t.entries.size

/-- The trie `t'` is `t` after one write: the entry `gone` is no longer in a chain, and an entry
with the key and the value `new` is. -/
structure Write (path path' : BranchId → List Nibble) (t t' : Trie κ ν)
    (gone : Option EntryId) (new : Option (κ × ν)) : Prop where
  layout : Layout path' t'
  keeps : t.Keeps t'
  entries_size : t'.entries.size = t.entries.size + new.toList.length
  item : ∀ item ∈ new, t'.item? t.entries.size = some item
  birth : ∀ f ∈ t.fresh new, t'.birth f = t.birthFor gone
  gone_live : ∀ a ∈ gone, t.Live a
  live : ∀ e, t'.Live e ↔ (t.Live e ∧ e ∉ gone) ∨ e ∈ t.fresh new
  /-- What becomes of a chain that is followed from any entry. -/
  stale : ∀ e < t.entries.size, t'.chain e = t.chain e ∨ ∃ a ∈ gone, ∃ m l, m ≠ [] ∧
    t.chain e = m ++ a :: l ∧ t'.chain e = m ++ ((t.fresh new).toList ++ l)
  count : t'.count + gone.toList.length = t.count + new.toList.length
  branches_le : t.branches.size ≤ t'.branches.size
  path_old : ∀ c < t.branches.size, path' c = path c
  dead_old : ∀ c, t.isDead c = true → c < t.branches.size → t'.isDead c = true

/-- Nothing at all is written. -/
theorem Write.refl (L : Layout path t) : Write path path t t none none where
  layout := L
  keeps := .refl t
  entries_size := rfl
  item _ h := by cases h
  birth _ h := by cases h
  gone_live _ h := by cases h
  live e := by simp [fresh]
  stale _ _ := .inl rfl
  count := rfl
  branches_le := Nat.le_refl _
  path_old _ _ := rfl
  dead_old _ hc _ := hc

/-! ## Exchanges -/

namespace Exchanged

variable {l₁ l₂ : List EntryId}

theorem mem_chainAt {old new : List EntryId} (X : Exchanged t t' b i l₁ old new l₂)
    {a : BranchId} {j : Nibble} {e : EntryId} (he : e ∈ t'.chainAt a j) :
    e ∈ t.chainAt a j ∨ (a = b ∧ j = i ∧ e ∈ new) := by
  by_cases h : a = b ∧ j = i
  · obtain ⟨rfl, rfl⟩ := h
    rw [X.after] at he
    rw [X.before]
    rcases List.mem_append.mp he with he | he
    · exact .inl (List.mem_append_left _ he)
    · rcases List.mem_append.mp he with he | he
      · exact .inr ⟨rfl, rfl, he⟩
      · exact .inl (List.mem_append_right _ (List.mem_append_right _ he))
  · rw [X.chain a j h] at he
    exact .inl he

/-- An entry leaves its chain only if it is exchanged. -/
theorem mem_chainAt_of_old {old new : List EntryId} (X : Exchanged t t' b i l₁ old new l₂)
    {a : BranchId} {j : Nibble} {e : EntryId} (he : e ∈ t.chainAt a j) (hold : e ∉ old) :
    e ∈ t'.chainAt a j := by
  by_cases h : a = b ∧ j = i
  · obtain ⟨rfl, rfl⟩ := h
    rw [X.before] at he
    rw [X.after]
    simp only [List.mem_append] at he ⊢
    rcases he with he | he | he
    · exact .inl he
    · exact absurd he hold
    · exact .inr (.inr he)
  · rw [X.chain a j h]
    exact he

/-- The entries that are in a chain after an exchange. -/
theorem live_iff (L : Layout path t) (X : Exchanged t t' b i l₁ gone.toList (t.fresh new).toList l₂)
    (e : EntryId) : t'.Live e ↔ (t.Live e ∧ e ∉ gone) ∨ e ∈ t.fresh new := by
  have hgone : ∀ {a}, a ∈ gone → a ∉ t'.chainAt b i := by
    intro a ha hmem
    have hlt : a ∈ t.chainAt b i := by rw [X.before]; simp [Option.mem_toList.mpr ha]
    have hnodup := L.falling.nodup (L.linked_chainAt b i)
    rw [X.before] at hnodup
    rw [X.after] at hmem
    have hne : a ∉ (t.fresh new).toList := fun h =>
      absurd (X.fresh a h ▸ L.lt_of_mem_chainAt hlt) (Nat.lt_irrefl _)
    have ha' := Option.mem_toList.mpr ha
    obtain ⟨_, hnodup₂, hdisj⟩ := List.nodup_append.mp hnodup
    obtain ⟨_, _, hdisj₂⟩ := List.nodup_append.mp hnodup₂
    rcases List.mem_append.mp hmem with h | h
    · exact hdisj a h a (List.mem_append_left _ ha') rfl
    · rcases List.mem_append.mp h with h | h
      · exact hne h
      · exact hdisj₂ a ha' a h rfl
  constructor
  · rintro ⟨a, j, he⟩
    rcases X.mem_chainAt he with hold | ⟨_, _, hnew⟩
    · refine .inl ⟨⟨a, j, hold⟩, fun hg => ?_⟩
      have hb : e ∈ t.chainAt b i := by rw [X.before]; simp [Option.mem_toList.mpr hg]
      obtain ⟨rfl, rfl⟩ := L.apart hold hb
      exact hgone hg he
    · exact .inr (Option.mem_toList.mp hnew)
  · rintro (⟨⟨a, j, he⟩, hg⟩ | hnew)
    · exact ⟨a, j, X.mem_chainAt_of_old he fun h => hg (Option.mem_toList.mp h)⟩
    · refine ⟨b, i, ?_⟩
      rw [X.after]
      simp [Option.mem_toList.mpr hnew]


/-- The chain of the fresh entry. -/
theorem chain_fresh (X : Exchanged t t' b i l₁ gone.toList (t.fresh new).toList l₂)
    {item : κ × ν} (hnew : item ∈ new) (L' : Layout path t') :
    t'.chain t.entries.size = t.entries.size :: l₂ := by
  cases hnew
  have hlink := L'.linked_chainAt b i
  rw [X.after] at hlink
  have hlink' : t'.Linked (some t.entries.size) (t.entries.size :: l₂) := hlink.suffix
  exact (linked_chain L'.falling (hlink'.head_lt rfl)).unique hlink'

end Exchanged

/-- An exchange in the chain of a slot is a write.  What comes for nothing comes in front. -/
theorem Layout.write_of_exchanged {l₁ l₂ : List EntryId} (L : Layout path t)
    (X : Exchanged t t' b i l₁ gone.toList (t.fresh new).toList l₂)
    (hfront : gone = none → l₁ = [])
    (hitem : ∀ item ∈ new, t'.item? t.entries.size = some item)
    (hbirth : ∀ f ∈ t.fresh new, t'.birth f = t.birthFor gone)
    (hcount : t'.count + gone.toList.length = t.count + new.toList.length) :
    Write path path t t' gone new where
  layout := L.of_exchanged X
  keeps := X.keeps
  entries_size := by rw [X.entries_size, length_fresh]
  item := hitem
  birth := hbirth
  gone_live a ha := ⟨b, i, by rw [X.before]; simp [Option.mem_toList.mpr ha]⟩
  live := X.live_iff L
  stale e he := by
    rcases X.stale e he with heq | ⟨hne, m, hm, hbefore, hafter⟩
    · exact .inl heq
    · cases hg : gone with
      | none => exact absurd (hfront hg) hne
      | some g =>
        rw [hg] at hbefore
        exact .inr ⟨g, rfl, m, l₂, hm, hbefore, hafter⟩
  count := hcount
  branches_le := Nat.le_of_eq X.branches_size.symm
  path_old _ _ := rfl
  dead_old c hc _ := (X.dead c).trans hc

/-! ## Dropping branches -/

theorem Pruned.live_entry (P : Pruned t t') (e : EntryId) : t'.Live e ↔ t.Live e := by
  simp only [Live, P.chainAt_eq]

/-- Branches dropped after a write. -/
theorem Write.prune (W : Write path path' t t' gone new) (P : Pruned t' u) :
    Write path path' t u gone new where
  layout := P.layout W.layout
  keeps := W.keeps.trans (Keeps.of_eq P.entries)
  entries_size := P.entries ▸ W.entries_size
  item item h := by
    rw [item?, P.entries]
    exact W.item item h
  birth f h := by
    rw [Trie.birth, P.entries]
    exact W.birth f h
  gone_live := W.gone_live
  live e := (P.live_entry e).trans (W.live e)
  stale e he := by
    rw [chain_congr P.entries]
    exact W.stale e he
  count := P.count ▸ W.count
  branches_le := P.branches_size ▸ W.branches_le
  path_old := W.path_old
  dead_old c hc hlt := by
    cases hu : u.isDead c with
    | true => rfl
    | false => exact absurd (W.dead_old c hc hlt) (by rw [P.live_of_live hu]; simp)

/-! ## Splits -/

/-- The entries that are in a chain after a split. -/
theorem Split.live_iff {site : Site} {h₁ h₂ : UInt64} {head : EntryId} {k : Nat}
    (L : Layout path t) (S : Split t t' site h₁ h₂ head k)
    (e : EntryId) : t'.Live e ↔ t.Live e ∨ e = t.entries.size := by
  constructor
  · rintro ⟨c, i, he⟩
    rcases S.of_mem_chainAt L he with ⟨_, _, h⟩ | ⟨_, _, h⟩ | ⟨_, _, h⟩
    · exact .inl ⟨c, i, h⟩
    · exact .inl ⟨_, _, h⟩
    · exact .inr h
  · rintro (⟨c, i, he⟩ | rfl)
    · by_cases h : c = site.branch ∧ i = site.index
      · obtain ⟨rfl, rfl⟩ := h
        exact ⟨_, _, (S.chainAt_moved L).symm ▸ he⟩
      · refine ⟨c, i, ?_⟩
        rw [S.chainAt_old L (lt_of_isDead_eq_false (L.live_of_mem_chainAt he)) h]
        exact he
    · exact ⟨_, _, S.chainAt_fresh.symm ▸ List.mem_cons_self⟩

/-- A split is a write. -/
theorem Layout.write_of_split {site : Site} {h₁ h₂ : UInt64} {head : EntryId} {k : Nat}
    (L : Layout path t) (item : κ × ν) (F : Fits path t h₂ site)
    (S : Split t t' site h₁ h₂ head k) (hitem : t'.item? t.entries.size = some item)
    (hbirth : t'.birth t.entries.size = t.entries.size) (hcount : t'.count = t.count + 1) :
    Write path (Split.newPath path t site h₂) t t' none (some item) where
  layout := L.of_split F S
  keeps := S.keeps
  entries_size := S.entries_size
  item item' h := by cases h; exact hitem
  birth f h := by cases h; exact hbirth
  gone_live a ha := by cases ha
  live e := by
    rw [S.live_iff L]
    simp [fresh, eq_comm]
  stale e he := .inl (S.chain_old e he)
  count := by simpa using hcount
  branches_le := by rw [S.branches_size]; exact Nat.le_add_right _ _
  path_old _ hc := Split.newPath_old hc
  dead_old c hc hlt := (S.dead_old c hlt).trans hc

/-! ## What a trie lists -/

/-- The running count is the number of entries. -/
def Counted (t : Trie κ ν) : Prop := t.count = t.ids.length

theorem Layout.mem_toList (L : Layout path t) {item : κ × ν} :
    item ∈ t.toList ↔ ∃ e x, t.Live e ∧ t.entries[e]? = some x ∧ item = (x.key, x.value) := by
  rw [L.toList_eq, List.mem_filterMap]
  constructor
  · rintro ⟨e, he, hitem⟩
    obtain ⟨x, hx, rfl⟩ := Option.map_eq_some_iff.mp hitem
    exact ⟨e, x, L.mem_ids.mp he, hx, rfl⟩
  · rintro ⟨e, x, he, hx, rfl⟩
    exact ⟨e, L.mem_ids.mpr he, item?_of_entry hx⟩

theorem Layout.length_toList (L : Layout path t) : t.toList.length = t.ids.length := by
  have hsome : ∀ {l : List EntryId}, (∀ e ∈ l, t.Live e) →
      (l.filterMap t.item?).length = l.length := by
    intro l
    induction l with
    | nil => exact fun _ => rfl
    | cons e l ih =>
      intro h
      obtain ⟨item, hitem⟩ := item?_of_lt (L.lt_of_live (h e List.mem_cons_self))
      rw [List.filterMap_cons_some hitem, List.length_cons, List.length_cons,
        ih fun a ha => h a (List.mem_cons_of_mem _ ha)]
  rw [L.toList_eq]
  exact hsome fun e he => L.mem_ids.mp he

theorem Counted.size_eq (hc : t.Counted) (L : Layout path t) : t.size = t.toList.length := by
  rw [size, hc, Int.toNat_natCast, L.length_toList]

theorem Layout.counted_of_no_entries (L : Layout path t) (h : t.entries = #[]) (hc : t.count = 0) :
    t.Counted := by
  have hlen := L.length_ids_le
  simp only [h, List.size_toArray, List.length_nil, Nat.le_zero] at hlen
  rw [Counted, hc, hlen]
  rfl

/-- The items of entries that were there before stay. -/
theorem Keeps.filterMap_item? (hk : t.Keeps t') {l : List EntryId}
    (hl : ∀ a ∈ l, a < t.entries.size) : l.filterMap t'.item? = l.filterMap t.item? := by
  refine List.filterMap_congr fun a ha => ?_
  obtain ⟨x, hx⟩ := Trie.entry_of_lt (hl a ha)
  obtain ⟨n, hn⟩ := hk.entry hx
  rw [item?_of_entry hx, item?_of_entry hn]

/-- The rows of a write: with the entry that goes, what is listed after it is what was listed
before it and the fresh entry. -/
theorem Write.ids_perm (L : Layout path t) (W : Write path path' t t' gone new) :
    (t'.ids ++ gone.toList).Perm (t.ids ++ (t.fresh new).toList) := by
  have hfresh : ∀ {e}, e ∈ t.fresh new → ¬ t.Live e := fun he hlive =>
    absurd (eq_of_mem_fresh he ▸ L.lt_of_live hlive) (Nat.lt_irrefl _)
  rw [List.perm_ext_iff_of_nodup]
  · intro e
    simp only [List.mem_append, W.layout.mem_ids, L.mem_ids, W.live, Option.mem_toList]
    constructor
    · rintro ((⟨h, _⟩ | h) | h)
      · exact .inl h
      · exact .inr h
      · exact .inl (W.gone_live e h)
    · rintro (h | h)
      · by_cases hg : e ∈ gone
        · exact .inr hg
        · exact .inl (.inl ⟨h, hg⟩)
      · exact .inl (.inr h)
  · refine List.nodup_append.mpr ⟨W.layout.nodup_ids, by cases gone <;> simp, ?_⟩
    rintro a ha e he rfl
    rw [W.layout.mem_ids, W.live] at ha
    rw [Option.mem_toList] at he
    rcases ha with ⟨_, hg⟩ | hf
    · exact hg he
    · exact hfresh hf (W.gone_live a he)
  · refine List.nodup_append.mpr ⟨L.nodup_ids, by cases t.fresh new <;> simp, ?_⟩
    rintro a ha e he rfl
    rw [L.mem_ids] at ha
    exact hfresh (Option.mem_toList.mp he) ha

/-- The fresh entry of a write, if there is one, has the new item. -/
theorem Write.filterMap_fresh (W : Write path path' t t' gone new) :
    (t.fresh new).toList.filterMap t'.item? = new.toList := by
  cases hn : new with
  | none => rfl
  | some item => simp [fresh, W.item item hn]

/-- What is listed after a write. -/
theorem Write.toList_perm (L : Layout path t) (W : Write path path' t t' gone new) :
    (t'.toList ++ (gone.bind t.item?).toList).Perm (t.toList ++ new.toList) := by
  have hold : ∀ {l : List EntryId}, (∀ e ∈ l, t.Live e) →
      l.filterMap t'.item? = l.filterMap t.item? := fun hl =>
    W.keeps.filterMap_item? fun e he => L.lt_of_live (hl e he)
  have hgone : gone.toList.filterMap t'.item? = (gone.bind t.item?).toList := by
    rw [hold fun e he => W.gone_live e (Option.mem_toList.mp he)]
    cases gone with
    | none => rfl
    | some a =>
      rw [Option.bind_some, Option.toList_some, List.filterMap_cons, List.filterMap_nil]
      cases t.item? a <;> rfl
  have h := (W.ids_perm L).filterMap t'.item?
  rw [List.filterMap_append, List.filterMap_append, ← W.layout.toList_eq,
    hold fun e he => L.mem_ids.mp he, ← L.toList_eq, hgone, W.filterMap_fresh] at h
  exact h

/-- A write exchanges what goes for what comes, and leaves the rest of what is listed as it was. -/
theorem Write.exchanges (L : Layout path t) (W : Write path path' t t' gone new) :
    ∃ rest, t.toList.Perm ((gone.bind t.item?).toList ++ rest) ∧
      t'.toList.Perm (new.toList ++ rest) := by
  have hperm := W.toList_perm L
  cases hg : gone with
  | none =>
    rw [hg, Option.bind_none, Option.toList_none, List.append_nil] at hperm
    exact ⟨t.toList, .refl _, hperm.trans List.perm_append_comm⟩
  | some a =>
    obtain ⟨x, hx⟩ := entry_of_lt (L.lt_of_live (W.gone_live a hg))
    have hmem : (x.key, x.value) ∈ t.toList := L.mem_toList.mpr ⟨a, x, W.gone_live a hg, hx, rfl⟩
    obtain ⟨l₁, l₂, hsplit⟩ := List.append_of_mem hmem
    have hold : t.toList.Perm ((x.key, x.value) :: (l₁ ++ l₂)) := by
      rw [hsplit]
      exact List.perm_middle
    rw [hg, Option.bind_some, item?_of_entry hx, Option.toList_some] at hperm
    rw [Option.bind_some, item?_of_entry hx, Option.toList_some]
    have h : ((x.key, x.value) :: t'.toList).Perm
        ((x.key, x.value) :: (l₁ ++ l₂ ++ new.toList)) :=
      List.perm_append_comm.trans (hperm.trans (hold.append_right _))
    exact ⟨l₁ ++ l₂, hold, (List.Perm.cons_inv h).trans List.perm_append_comm⟩

theorem Write.counted (L : Layout path t) (W : Write path path' t t' gone new)
    (hc : t.Counted) : t'.Counted := by
  have hlen := (W.ids_perm L).length_eq
  have hcount := W.count
  rw [List.length_append, List.length_append, length_fresh] at hlen
  rw [Counted] at hc ⊢
  omega

end Trie

end NibbleTrie
