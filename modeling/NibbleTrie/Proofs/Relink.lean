/-
Writing one link of a chain.

A fresh head, a replacement and a removal are all one write to a link: what
hangs behind the link is exchanged for another list.  `Rechained t t' b i` says
that `t'` differs from `t` in the chain of the slot `i` of `b` alone.

Main statements: a write to a link of a chain does just that
(`Layout.relink`), it keeps the layout (`Layout.of_rechained`), and in a chain
that is followed from any entry, reachable or not, it exchanges the same part
or nothing (`Layout.chain_relink`).
-/
import NibbleTrie.Proofs.Layout

namespace NibbleTrie

namespace Trie

variable {κ : Type u} {ν : Type v} {t t' u : Trie κ ν}

/-- Every entry of `t` is an entry of `t'`, with another link at most. -/
structure Keeps (t t' : Trie κ ν) : Prop where
  entry : ∀ {e : EntryId} {x : Entry κ ν}, t.entries[e]? = some x →
    ∃ n, t'.entries[e]? = some { x with next := n }

namespace Keeps

theorem of_eq (h : t'.entries = t.entries) : t.Keeps t' := ⟨fun hx => ⟨_, h ▸ hx⟩⟩

theorem refl (t : Trie κ ν) : t.Keeps t := of_eq rfl

theorem trans (h : t.Keeps t') (h' : t'.Keeps u) : t.Keeps u where
  entry hx := by
    obtain ⟨n, hn⟩ := h.entry hx
    obtain ⟨n', hn'⟩ := h'.entry hn
    exact ⟨n', hn'⟩

theorem entry_of_lt (h : t.Keeps t') {e : EntryId} {x' : Entry κ ν} (he : e < t.entries.size)
    (hx' : t'.entries[e]? = some x') :
    ∃ x, t.entries[e]? = some x ∧ x'.key = x.key ∧ x'.value = x.value := by
  obtain ⟨x, hx⟩ := Trie.entry_of_lt he
  obtain ⟨n, hn⟩ := h.entry hx
  rw [hx'] at hn
  cases hn
  exact ⟨x, hx, rfl, rfl⟩

theorem size_le (h : t.Keeps t') : t.entries.size ≤ t'.entries.size := by
  by_contra hlt
  obtain ⟨x, hx⟩ := Trie.entry_of_lt (Nat.lt_of_not_le hlt)
  obtain ⟨n, hn⟩ := h.entry hx
  exact absurd (lt_of_entry hn) (Nat.lt_irrefl _)

theorem birth_eq (h : t.Keeps t') {e : EntryId} (he : e < t.entries.size) :
    t'.birth e = t.birth e := by
  obtain ⟨x, hx⟩ := Trie.entry_of_lt he
  obtain ⟨n, hn⟩ := h.entry hx
  rw [birth_of_entry hx, birth_of_entry hn]

theorem pushEntry (t : Trie κ ν) (x : Entry κ ν) : t.Keeps (t.pushEntry x) where
  entry {e y} hy := by
    have := lt_of_entry hy
    exact ⟨y.next, by simp [Trie.pushEntry, Array.getElem?_push, Nat.ne_of_lt this, hy]⟩

theorem setNext (t : Trie κ ν) (e : EntryId) (n : Option EntryId) : t.Keeps (t.setNext e n) where
  entry {a y} hy := by
    by_cases h : e = a
    · exact ⟨n, by simp [Trie.setNext, Array.getElem?_modify, h, hy]⟩
    · exact ⟨y.next, by simp [Trie.setNext, Array.getElem?_modify, h, hy]⟩

theorem setLink (t : Trie κ ν) (l : Link) (n : Option EntryId) : t.Keeps (t.setLink l n) := by
  cases l with
  | slot b i => exact of_eq rfl
  | next e => exact setNext t e n

end Keeps

theorem entries_pushEntry_self (t : Trie κ ν) (x : Entry κ ν) :
    (t.pushEntry x).entries[t.entries.size]? = some x := by
  simp [pushEntry]

@[simp] theorem entries_pushEntry_size (t : Trie κ ν) (x : Entry κ ν) :
    (t.pushEntry x).entries.size = t.entries.size + 1 := by
  simp [pushEntry]

@[simp] theorem entries_setLink_size (t : Trie κ ν) (l : Link) (n : Option EntryId) :
    (t.setLink l n).entries.size = t.entries.size := by
  cases l with
  | slot b i => rfl
  | next e => exact entries_setNext_size t e n

/-- A write to a link leaves the link of every other entry. -/
theorem next?_setLink {l : Link} {e : EntryId} (n : Option EntryId) (hne : l ≠ .next e) :
    (t.setLink l n).next? e = t.next? e := by
  cases l with
  | slot b i => rfl
  | next a =>
    rw [setLink, next?_setNext, if_neg]
    rintro ⟨rfl, _⟩
    exact hne rfl

/-! ## What chains are read from -/

theorem chainFrom_congr (hnext : ∀ e, t'.next? e = t.next? e) :
    ∀ (fuel : Nat) (cur : Option EntryId), t'.chainFrom fuel cur = t.chainFrom fuel cur
  | 0, _ => rfl
  | _ + 1, none => rfl
  | fuel + 1, some e => by rw [chainFrom, chainFrom, hnext, chainFrom_congr hnext fuel]

/-- A chain is read from the entry table alone. -/
theorem chain_congr (h : t'.entries = t.entries) (e : EntryId) : t'.chain e = t.chain e := by
  have hnext : ∀ e, t'.next? e = t.next? e := fun e => by simp only [next?, h]
  rw [chain, chain, chainFrom_congr hnext, chainBound, chainBound, h]

theorem chainOf_congr (h : t'.entries = t.entries) (cur : Option EntryId) :
    t'.chainOf cur = t.chainOf cur := by
  cases cur with
  | none => rfl
  | some e => exact chain_congr h e

theorem chainAt_congr (h : t'.entries = t.entries) {b : BranchId} {i : Nibble}
    (hs : t'.slot b i = t.slot b i) : t'.chainAt b i = t.chainAt b i := by
  rw [chainAt, chainAt, hs, chainOf_congr h]

theorem Falling.congr (hf : t.Falling) (h : t'.entries = t.entries) : t'.Falling := by
  have hnext : ∀ e, t'.next? e = t.next? e := fun e => by simp only [next?, h]
  have hbirth : ∀ e, t'.birth e = t.birth e := fun e => by simp only [birth, h]
  exact ⟨fun hn => h ▸ hf.next_lt (hnext _ ▸ hn),
    fun hn => by rw [hbirth, hbirth]; exact hf.birth_next (hnext _ ▸ hn),
    fun e => hbirth e ▸ hf.birth_le e⟩

theorem Falling.pushEntry (hf : t.Falling) {x : Entry κ ν}
    (hlt : ∀ n, x.next = some n → n < t.entries.size)
    (hbirth : ∀ n, x.next = some n → t.birth n < x.birth) (hle : x.birth ≤ t.entries.size) :
    (t.pushEntry x).Falling := by
  have keep := Keeps.pushEntry t x
  have self := entries_pushEntry_self t x
  have old : ∀ e, e ≠ t.entries.size → (t.pushEntry x).next? e = t.next? e := by
    intro e he
    simp [next?, Trie.pushEntry, Array.getElem?_push, he]
  refine ⟨?_, ?_, ?_⟩
  · intro e n hn
    rw [entries_pushEntry_size]
    by_cases he : e = t.entries.size
    · subst he
      exact Nat.lt_succ_of_lt (hlt n (next?_of_entry self ▸ hn))
    · exact Nat.lt_succ_of_lt (hf.next_lt (old e he ▸ hn))
  · intro e n hn
    by_cases he : e = t.entries.size
    · subst he
      rw [next?_of_entry self] at hn
      rw [birth_of_entry self, keep.birth_eq (hlt n hn)]
      exact hbirth n hn
    · rw [old e he] at hn
      have hlt' : e < t.entries.size := by
        by_contra h
        simp [next?, Array.getElem?_eq_none (Nat.le_of_not_lt h)] at hn
      rw [keep.birth_eq hlt', keep.birth_eq (hf.next_lt hn)]
      exact hf.birth_next hn
  · intro e
    by_cases he : e = t.entries.size
    · rw [he, birth_of_entry self]; exact hle
    · have : (t.pushEntry x).birth e = t.birth e := by
        simp [birth, Trie.pushEntry, Array.getElem?_push, he]
      rw [this]; exact hf.birth_le e

theorem birth_setNext (t : Trie κ ν) (e a : EntryId) (n : Option EntryId) :
    (t.setNext e n).birth a = t.birth a := by
  by_cases ha : a < t.entries.size
  · exact (Keeps.setNext t e n).birth_eq ha
  · have hn : (t.setNext e n).entries[a]? = none :=
      Array.getElem?_eq_none (by simpa using Nat.le_of_not_lt ha)
    simp [birth, hn, Array.getElem?_eq_none (Nat.le_of_not_lt ha)]

theorem birth_setLink (t : Trie κ ν) (l : Link) (n : Option EntryId) (e : EntryId) :
    (t.setLink l n).birth e = t.birth e := by
  cases l with
  | slot b i => rfl
  | next a => exact birth_setNext t a e n

theorem Falling.setNext (hf : t.Falling) {e : EntryId} {n : Option EntryId}
    (hlt : ∀ a, n = some a → a < t.entries.size)
    (hbirth : ∀ a, n = some a → t.birth a < t.birth e) : (t.setNext e n).Falling := by
  refine ⟨?_, ?_, fun a => birth_setNext t e a n ▸ hf.birth_le a⟩
  · intro a m hm
    rw [entries_setNext_size]
    rw [next?_setNext] at hm
    split at hm
    · exact hlt m hm
    · exact hf.next_lt hm
  · intro a m hm
    rw [birth_setNext, birth_setNext]
    rw [next?_setNext] at hm
    split at hm
    · next h => exact h.1 ▸ hbirth m hm
    · exact hf.birth_next hm

theorem linked_setNext_of_not_mem {p : EntryId} {n cur : Option EntryId} {l : List EntryId}
    (hp : p ∉ l) (h : t.Linked cur l) : (t.setNext p n).Linked cur l := by
  refine h.frame (by simp) fun e he => ?_
  rw [next?_setNext, if_neg]
  rintro ⟨rfl, -⟩
  exact hp he

/-- A written link exchanges what is met behind its entry, if the entry is met there alone. -/
theorem Linked.setNext {l₀ rest l' : List EntryId} {p : EntryId} {n cur : Option EntryId}
    (h : t.Linked cur (l₀ ++ p :: rest)) (hl' : t.Linked n l') (hfront : p ∉ l₀)
    (hbehind : p ∉ l') : (t.setNext p n).Linked cur (l₀ ++ p :: l') := by
  have hp : p < t.entries.size := h.lt_size p (by simp)
  refine Linked.splice (by simp) ?_ (fun a ha => ?_) h
  · rw [next?_setNext, if_pos ⟨rfl, hp⟩]
    exact linked_setNext_of_not_mem hbehind hl'
  · rw [next?_setNext, if_neg]
    rintro ⟨rfl, -⟩
    exact hfront ha

/-- A written link exchanges what is met behind its entry. -/
theorem Falling.linked_setNext (hf : t.Falling) {l₀ rest l' : List EntryId} {p : EntryId}
    {n cur : Option EntryId} (hl' : t.Linked n l')
    (hbirth : ∀ a, n = some a → t.birth a < t.birth p) (h : t.Linked cur (l₀ ++ p :: rest)) :
    (t.setNext p n).Linked cur (l₀ ++ p :: l') := by
  have hnodup := List.nodup_append.mp (hf.nodup h)
  refine h.setNext hl' (fun hmem => ?_) fun hmem => ?_
  · exact hnodup.2.2 p hmem p List.mem_cons_self rfl
  · cases n with
    | none => cases hl'; cases hmem
    | some a => exact absurd (hf.birth_le_head hl' p hmem) (Nat.not_le.mpr (hbirth a rfl))

/-! ## One chain is written -/

/-- `t'` differs from `t` in the chain of the slot `i` of `b` alone. -/
structure Rechained (t t' : Trie κ ν) (b : BranchId) (i : Nibble) : Prop where
  keeps : t.Keeps t'
  branches_size : t'.branches.size = t.branches.size
  dead : ∀ a, t'.isDead a = t.isDead a
  parent : ∀ a, t'.parent? a = t.parent? a
  slot : ∀ a j, ¬(a = b ∧ j = i) → t'.slot a j = t.slot a j
  chain : ∀ a j, ¬(a = b ∧ j = i) → t'.chainAt a j = t.chainAt a j
  live : t.isDead b = false
  not_branch : (t.slot b i).isBranch = false
  not_branch' : (t'.slot b i).isBranch = false
  head_lt : ∀ e, t'.slot b i = .chain e → e < t'.entries.size
  falling : t'.Falling

namespace Rechained

variable {b : BranchId} {i : Nibble}

/-- The branches hang in the slots they hung in. -/
theorem slot_branch (R : Rechained t t' b i) {a : BranchId} {j : Nibble} {c : BranchId} :
    t'.slot a j = .branch c ↔ t.slot a j = .branch c := by
  by_cases h : a = b ∧ j = i
  · obtain ⟨rfl, rfl⟩ := h
    have h₁ := R.not_branch
    have h₂ := R.not_branch'
    constructor
    · intro h; rw [h] at h₂; cases h₂
    · intro h; rw [h] at h₁; cases h₁
  · rw [R.slot a j h]

end Rechained

namespace Layout

variable {path : BranchId → List Nibble} {b : BranchId} {i : Nibble}

/-- A write to one chain keeps the layout if it brings no entry of another chain into it. -/
theorem of_rechained (L : Layout path t) (R : Rechained t t' b i)
    (hmem : ∀ e ∈ t'.chainAt b i, ∀ a j, e ∈ t.chainAt a j → a = b ∧ j = i) :
    Layout path t' where
  root_live := (R.dead root).trans L.root_live
  root_path := L.root_path
  root_parent := (R.parent root).trans L.root_parent
  depth h := L.depth ((R.dead _).symm.trans h)
  child_live h := (R.dead _).trans (L.child_live (R.slot_branch.mp h))
  child_parent h := (R.parent _).trans (L.child_parent (R.slot_branch.mp h))
  child_path h := L.child_path (R.slot_branch.mp h)
  held hlive hne := by
    obtain ⟨a, j, hs⟩ := L.held ((R.dead _).symm.trans hlive) hne
    exact ⟨a, j, R.slot_branch.mpr hs⟩
  dead_empty {a} hdead j := by
    have hdead' := (R.dead a).symm.trans hdead
    rw [R.slot a j, L.dead_empty hdead' j]
    rintro ⟨rfl, rfl⟩
    rw [R.live] at hdead'
    cases hdead'
  head_lt {a j e} hs := by
    by_cases h : a = b ∧ j = i
    · obtain ⟨rfl, rfl⟩ := h
      exact R.head_lt e hs
    · rw [R.slot a j h] at hs
      exact Nat.lt_of_lt_of_le (L.head_lt hs) R.keeps.size_le
  falling := R.falling
  apart {a j a' j' e} he he' := by
    by_cases h : a = b ∧ j = i
    · by_cases h' : a' = b ∧ j' = i
      · exact ⟨h.1.trans h'.1.symm, h.2.trans h'.2.symm⟩
      · rw [R.chain a' j' h'] at he'
        obtain ⟨rfl, rfl⟩ := h
        exact absurd (hmem e he a' j' he') h'
    · rw [R.chain a j h] at he
      by_cases h' : a' = b ∧ j' = i
      · obtain ⟨rfl, rfl⟩ := h'
        exact absurd (hmem e he' a j he) h
      · rw [R.chain a' j' h'] at he'
        exact L.apart he he'

/-- The chain of a slot is the same in a trie with the same links along it. -/
theorem chainAt_frame (L : Layout path t) (hf' : t'.Falling)
    (hsize : t.entries.size ≤ t'.entries.size) {a : BranchId} {j : Nibble}
    (hs : t'.slot a j = t.slot a j) (hsame : ∀ e ∈ t.chainAt a j, t'.next? e = t.next? e) :
    t'.chainAt a j = t.chainAt a j := by
  have hlink := L.linked_chainAt a j
  have hlink' := hlink.frame hsize hsame
  refine (linked_chainOf hf' fun e he => ?_).unique (hs ▸ hlink')
  rw [hs] at he
  exact hlink'.head_lt he

theorem chainAt_pushEntry (L : Layout path t) {x : Entry κ ν} (hf : (t.pushEntry x).Falling)
    (a : BranchId) (j : Nibble) : (t.pushEntry x).chainAt a j = t.chainAt a j :=
  L.chainAt_frame hf (Keeps.pushEntry t x).size_le rfl fun _ he =>
    next?_pushEntry_of_lt t x (L.lt_of_mem_chainAt he)

/-- A new entry that nothing points at changes no chain. -/
theorem pushEntry (L : Layout path t) {x : Entry κ ν} (hf : (t.pushEntry x).Falling) :
    Layout path (t.pushEntry x) where
  root_live := L.root_live
  root_path := L.root_path
  root_parent := L.root_parent
  depth := L.depth
  child_live := L.child_live
  child_parent := L.child_parent
  child_path := L.child_path
  held := L.held
  dead_empty := L.dead_empty
  head_lt h := Nat.lt_of_lt_of_le (L.head_lt h) (Keeps.pushEntry t x).size_le
  falling := hf
  apart he he' := by
    rw [L.chainAt_pushEntry hf] at he he'
    exact L.apart he he'

/-! ## The write -/

/-- A write to the slot itself. -/
theorem relink_slot (L : Layout path t) (hlive : t.isDead b = false)
    (hnb : (t.slot b i).isBranch = false) {n : Option EntryId} {l' : List EntryId}
    (hl' : t.Linked n l') :
    Rechained t (t.setSlot b i (.ofHead n)) b i ∧ (t.setSlot b i (.ofHead n)).chainAt b i = l' := by
  have hentries := entries_setSlot t b i (.ofHead n)
  have hbsize := lt_of_isDead_eq_false hlive
  have hself : (t.setSlot b i (.ofHead n)).slot b i = .ofHead n := by
    simp [slot_setSlot, hbsize]
  have hothers : ∀ a j, ¬(a = b ∧ j = i) → (t.setSlot b i (.ofHead n)).slot a j = t.slot a j := by
    intro a j h
    rw [slot_setSlot, if_neg fun h' => h ⟨h'.1.symm, h'.2.1.symm⟩]
  refine ⟨?_, ?_⟩
  · exact
      { keeps := Keeps.of_eq hentries
        branches_size := branches_setSlot_size t b i _
        dead := fun a => isDead_setSlot t b a i _
        parent := fun a => parent?_setSlot t b a i _
        slot := hothers
        chain := fun a j h => chainAt_congr hentries (hothers a j h)
        live := hlive
        not_branch := hnb
        not_branch' := by rw [hself]; cases n <;> rfl
        head_lt := by
          intro e he
          rw [hself] at he
          cases n with
          | none => cases he
          | some a => cases he; exact hl'.head_lt rfl
        falling := L.falling.congr hentries }
  · rw [chainAt, hself, chainOf_congr hentries]
    cases n with
    | none => cases hl'; rfl
    | some a => exact (linked_chain L.falling (hl'.head_lt rfl)).unique hl'

/-- A write to the link of an entry of the chain. -/
theorem relink_next (L : Layout path t) {l₀ rest l' : List EntryId} {p : EntryId}
    (hc : t.chainAt b i = l₀ ++ p :: rest) {n : Option EntryId} (hl' : t.Linked n l')
    (hbirth : ∀ a, n = some a → t.birth a < t.birth p) :
    Rechained t (t.setNext p n) b i ∧ (t.setNext p n).chainAt b i = l₀ ++ p :: l' := by
  have hmem : p ∈ t.chainAt b i := by rw [hc]; simp
  have hlink := L.linked_chainAt b i
  rw [hc] at hlink
  have hf' := L.falling.setNext (fun a h => hl'.head_lt h) hbirth
  have hlink' := L.falling.linked_setNext hl' hbirth hlink
  refine ⟨?_, (linked_chainOf hf' fun e he => hlink'.head_lt he).unique hlink'⟩
  exact
    { keeps := Keeps.setNext t p n
      branches_size := rfl
      dead := fun _ => rfl
      parent := fun _ => rfl
      slot := fun _ _ _ => rfl
      chain := by
        intro a j h
        have hnot : p ∉ t.chainAt a j := fun he => h (L.apart he hmem)
        have hsame := linked_setNext_of_not_mem (n := n) hnot (L.linked_chainAt a j)
        exact (linked_chainOf hf' fun e he => hsame.head_lt he).unique hsame
      live := L.live_of_mem_chainAt hmem
      not_branch := not_branch_of_mem_chainAt hmem
      not_branch' := not_branch_of_mem_chainAt (t := t) hmem
      head_lt := fun e he => by rw [entries_setNext_size]; exact L.head_lt he
      falling := hf' }

/-- A write to the link behind `l₁` exchanges what follows `l₁` in the chain of its slot. -/
theorem relink (L : Layout path t) (hlive : t.isDead b = false)
    (hnb : (t.slot b i).isBranch = false) {l₁ rest l' : List EntryId}
    (hc : t.chainAt b i = l₁ ++ rest) {n : Option EntryId} (hl' : t.Linked n l')
    (hbirth : ∀ p ∈ l₁, ∀ a, n = some a → t.birth a < t.birth p) :
    Rechained t (t.setLink (linkAfter (.slot b i) l₁) n) b i ∧
      (t.setLink (linkAfter (.slot b i) l₁) n).chainAt b i = l₁ ++ l' := by
  rcases List.eq_nil_or_concat' l₁ with rfl | ⟨l₀, p, rfl⟩
  · exact L.relink_slot hlive hnb hl'
  · rw [linkAfter_concat, List.append_assoc]
    rw [List.append_assoc] at hc
    exact L.relink_next hc hl' (hbirth p (by simp))

/-- In a chain followed from any entry the write exchanges the same part or nothing. -/
theorem chain_relink (L : Layout path t) {l₁ rest l' : List EntryId}
    (hc : t.chainAt b i = l₁ ++ rest) {n : Option EntryId} (hl' : t.Linked n l')
    (hbirth : ∀ p ∈ l₁, ∀ a, n = some a → t.birth a < t.birth p) {e : EntryId}
    (he : e < t.entries.size) :
    (t.setLink (linkAfter (.slot b i) l₁) n).chain e = t.chain e ∨
      l₁ ≠ [] ∧ ∃ m, m ≠ [] ∧ t.chain e = m ++ rest ∧
        (t.setLink (linkAfter (.slot b i) l₁) n).chain e = m ++ l' := by
  rcases List.eq_nil_or_concat' l₁ with rfl | ⟨l₀, p, rfl⟩
  · exact .inl (chain_congr (entries_setSlot t b i (.ofHead n)) e)
  · rw [linkAfter_concat]
    rw [List.append_assoc] at hc
    have hbirthp := hbirth p (by simp)
    have hf' := L.falling.setNext (fun a h => hl'.head_lt h) hbirthp
    have hlink := linked_chain L.falling he
    have hlink' : (t.setNext p n).Linked (some e) ((t.setNext p n).chain e) :=
      linked_chain hf' (by simpa using he)
    by_cases hmem : p ∈ t.chain e
    · right
      obtain ⟨m₁, m₂, hm⟩ := List.append_of_mem hmem
      rw [hm] at hlink
      -- behind `p` the chain of the slot and the followed one go on alike
      have hrest : m₂ = rest := by
        have h := L.linked_chainAt b i
        rw [hc] at h
        exact hlink.suffix.tail.unique h.suffix.tail
      refine ⟨by simp, m₁ ++ [p], by simp, by rw [hm, hrest, List.append_assoc]; rfl, ?_⟩
      rw [List.append_assoc]
      exact hlink'.unique (L.falling.linked_setNext hl' hbirthp hlink)
    · exact .inl (hlink'.unique (linked_setNext_of_not_mem hmem hlink))

end Layout

end Trie

end NibbleTrie
