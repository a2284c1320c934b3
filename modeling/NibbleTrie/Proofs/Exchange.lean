/-
A fresh head, a replacement, a removal.

Three of the writes to a trie stay within one chain: a fresh entry in front of
it, a fresh entry in the place of an old one, and the removal of an entry.  Each
exchanges a part of the chain (`Exchanged`): the first nothing for the fresh
entry, the second the old one for the fresh one, the third the old one for
nothing.

Main statements: `Layout.front`, `Layout.replace`, `Layout.unlink`, and that an
exchange keeps the layout (`Layout.of_exchanged`).
-/
import NibbleTrie.Proofs.Relink
import NibbleTrie.Trie.Insertion

namespace NibbleTrie

namespace Trie

variable {κ : Type u} {ν : Type v} {t t' : Trie κ ν} {b : BranchId} {i : Nibble}

/-- `t'` is `t` with the part `old` of the chain of a slot exchanged for `new`, a fresh entry or
nothing.  A chain followed from an entry changes alike if it leads through the written link,
which then is the link of an entry, and not at all else. -/
structure Exchanged (t t' : Trie κ ν) (b : BranchId) (i : Nibble)
    (l₁ old new l₂ : List EntryId) : Prop extends Rechained t t' b i where
  before : t.chainAt b i = l₁ ++ (old ++ l₂)
  after : t'.chainAt b i = l₁ ++ (new ++ l₂)
  stale : ∀ e < t.entries.size, t'.chain e = t.chain e ∨
    l₁ ≠ [] ∧ ∃ m, m ≠ [] ∧ t.chain e = m ++ (old ++ l₂) ∧ t'.chain e = m ++ (new ++ l₂)
  fresh : ∀ e ∈ new, e = t.entries.size
  entries_size : t'.entries.size = t.entries.size + new.length

namespace Rechained

/-- An entry that nothing points at does not count. -/
theorem of_pushEntry {path : BranchId → List Nibble} (L : Layout path t) {x : Entry κ ν}
    (hf : (t.pushEntry x).Falling) (R : Rechained (t.pushEntry x) t' b i) :
    Rechained t t' b i where
  keeps := (Keeps.pushEntry t x).trans R.keeps
  branches_size := R.branches_size
  dead := R.dead
  parent := R.parent
  slot := R.slot
  chain a j h := (R.chain a j h).trans (L.chainAt_pushEntry hf a j)
  live := R.live
  not_branch := R.not_branch
  not_branch' := R.not_branch'
  head_lt := R.head_lt
  falling := R.falling

theorem addCount (R : Rechained t t' b i) (n : Int) : Rechained t (t'.addCount n) b i where
  keeps := R.keeps.trans (Keeps.of_eq (entries_addCount t' n))
  branches_size := R.branches_size
  dead := R.dead
  parent := R.parent
  slot := R.slot
  chain a j h := (chainAt_congr (entries_addCount t' n) (slot_addCount t' n a j)).trans
    (R.chain a j h)
  live := R.live
  not_branch := R.not_branch
  not_branch' := R.not_branch'
  head_lt := R.head_lt
  falling := R.falling.congr (entries_addCount t' n)

end Rechained

theorem Exchanged.addCount {l₁ old new l₂ : List EntryId}
    (X : Exchanged t t' b i l₁ old new l₂) (n : Int) :
    Exchanged t (t'.addCount n) b i l₁ old new l₂ where
  toRechained := X.toRechained.addCount n
  before := X.before
  after := (chainAt_congr (entries_addCount t' n) (slot_addCount t' n b i)).trans X.after
  stale e he := by
    rw [chain_congr (entries_addCount t' n) e]
    exact X.stale e he
  fresh := X.fresh
  entries_size := X.entries_size

/-- From a new entry one meets the entry, and then what its link leads to. -/
theorem linked_pushEntry_self {x : Entry κ ν} {l : List EntryId} (h : t.Linked x.next l) :
    (t.pushEntry x).Linked (some t.entries.size) (t.entries.size :: l) := by
  refine .cons (by simp) ?_
  rw [next?_pushEntry_self]
  exact h.frame (Keeps.pushEntry t x).size_le fun e he =>
    next?_pushEntry_of_lt t x (h.lt_size e he)

theorem chain_pushEntry (hf : t.Falling) {x : Entry κ ν} (hf' : (t.pushEntry x).Falling)
    {e : EntryId} (he : e < t.entries.size) : (t.pushEntry x).chain e = t.chain e :=
  chain_frame hf hf' he (Keeps.pushEntry t x).size_le fun a ha =>
    next?_pushEntry_of_lt t x ((linked_chain hf he).lt_size a ha)

/-- Some link of a chain is written to lead to a fresh entry. -/
theorem Layout.exchange_fresh {path : BranchId → List Nibble} (L : Layout path t)
    (hlive : t.isDead b = false) (hnb : (t.slot b i).isBranch = false) {x : Entry κ ν}
    (hf' : (t.pushEntry x).Falling) {l₁ old l₂ : List EntryId}
    (hc : t.chainAt b i = l₁ ++ (old ++ l₂)) (hnext : t.Linked x.next l₂)
    (hbirth : ∀ p ∈ l₁, x.birth < t.birth p) :
    Exchanged t ((t.pushEntry x).setLink (linkAfter (.slot b i) l₁) (some t.entries.size)) b i
      l₁ old [t.entries.size] l₂ := by
  have L' := L.pushEntry hf'
  have hc' : (t.pushEntry x).chainAt b i = l₁ ++ (old ++ l₂) := by
    rw [L.chainAt_pushEntry hf', hc]
  have hl' := linked_pushEntry_self hnext
  have hbirth' : ∀ p ∈ l₁, ∀ a, some t.entries.size = some a →
      (t.pushEntry x).birth a < (t.pushEntry x).birth p := by
    rintro p hp a ⟨⟩
    have hlt : p < t.entries.size := L.lt_of_mem_chainAt (hc ▸ List.mem_append_left _ hp)
    rw [birth_of_entry (entries_pushEntry_self t x), (Keeps.pushEntry t x).birth_eq hlt]
    exact hbirth p hp
  obtain ⟨R, hafter⟩ := L'.relink hlive hnb hc' hl' hbirth'
  refine { toRechained := R.of_pushEntry L hf', before := hc, after := hafter, stale := ?_,
           fresh := by simp, entries_size := by simp }
  intro e he
  rw [← chain_pushEntry L.falling hf' he]
  exact L'.chain_relink hc' hl' hbirth' (Nat.lt_of_lt_of_le he (Keeps.pushEntry t x).size_le)

namespace Layout

variable {path : BranchId → List Nibble}

/-- A fresh entry in front of the chain of a slot. -/
theorem front (L : Layout path t) (hlive : t.isDead b = false)
    (hnb : (t.slot b i).isBranch = false) (level : Nat) (k : κ) (v : ν) :
    Exchanged t (t.publish ⟨b, i, level⟩ ⟨k, v, (t.slot b i).head?, t.entries.size⟩ []
      (.chain t.entries.size)) b i [] [] [t.entries.size] (t.chainAt b i) := by
  have hlink := L.linked_chainAt b i
  have hlt : ∀ n, (t.slot b i).head? = some n → n < t.entries.size := fun n hn => hlink.head_lt hn
  have hf' : (t.pushEntry ⟨k, v, (t.slot b i).head?, t.entries.size⟩).Falling :=
    L.falling.pushEntry hlt
      (fun n hn => Nat.lt_of_le_of_lt (L.falling.birth_le n) (hlt n hn)) (Nat.le_refl _)
  rw [publish, pushBranches_nil]
  refine Exchanged.addCount ?_ 1
  exact L.exchange_fresh hlive hnb hf' rfl hlink fun _ h => absurd h List.not_mem_nil

/-- A fresh entry in the place of a found one. -/
theorem replace (L : Layout path t) {x : Placed κ ν} {l₁ l₂ : List EntryId}
    (hc : t.chainAt b i = l₁ ++ x.id :: l₂) (hx : t.entries[x.id]? = some x.entry)
    (hlink : x.link = linkAfter (.slot b i) l₁) (k : κ) (v : ν) :
    Exchanged t (t.replace x k v) b i l₁ [x.id] [t.entries.size] l₂ := by
  have hmem : x.id ∈ t.chainAt b i := by rw [hc]; simp
  have hchain := L.linked_chainAt b i
  have hbirths := L.falling.pairwise hchain
  rw [hc] at hchain hbirths
  have hnext : t.Linked x.entry.next l₂ := next?_of_entry hx ▸ hchain.suffix.tail
  have hlt : ∀ n, x.entry.next = some n → t.birth n < x.entry.birth := by
    intro n hn
    rw [← birth_of_entry hx]
    exact L.falling.birth_next ((next?_of_entry hx).trans hn)
  have hf' : (t.pushEntry ⟨k, v, x.entry.next, x.entry.birth⟩).Falling := by
    refine L.falling.pushEntry (fun n hn => hnext.head_lt hn) hlt ?_
    show x.entry.birth ≤ _
    rw [← birth_of_entry hx]
    exact Nat.le_of_lt (Nat.lt_of_le_of_lt (L.falling.birth_le _) (lt_of_entry hx))
  rw [Trie.replace, hlink]
  refine L.exchange_fresh (L.live_of_mem_chainAt hmem) (not_branch_of_mem_chainAt hmem) hf'
    (by rw [hc]; rfl) hnext fun p hp => ?_
  show x.entry.birth < _
  rw [← birth_of_entry hx]
  exact (List.pairwise_append.mp hbirths).2.2 p hp x.id List.mem_cons_self

/-- The removal of a found entry. -/
theorem unlink (L : Layout path t) {x : Placed κ ν} {l₁ l₂ : List EntryId}
    (hc : t.chainAt b i = l₁ ++ x.id :: l₂) (hx : t.entries[x.id]? = some x.entry)
    (hlink : x.link = linkAfter (.slot b i) l₁) :
    Exchanged t (t.unlink x) b i l₁ [x.id] [] l₂ := by
  have hmem : x.id ∈ t.chainAt b i := by rw [hc]; simp
  have hchain := L.linked_chainAt b i
  have hbirths := L.falling.pairwise hchain
  rw [hc] at hchain hbirths
  have hnext : t.Linked x.entry.next l₂ := next?_of_entry hx ▸ hchain.suffix.tail
  have hbirth : ∀ p ∈ l₁, ∀ a, x.entry.next = some a → t.birth a < t.birth p := by
    intro p hp a ha
    have h₁ := L.falling.birth_next ((next?_of_entry hx).trans ha)
    have h₂ := (List.pairwise_append.mp hbirths).2.2 p hp x.id List.mem_cons_self
    exact Nat.lt_trans h₁ h₂
  obtain ⟨R, hafter⟩ := L.relink (L.live_of_mem_chainAt hmem) (not_branch_of_mem_chainAt hmem) hc
    hnext hbirth
  have X : Exchanged t (t.setLink x.link x.entry.next) b i l₁ [x.id] [] l₂ := by
    rw [hlink]
    exact { toRechained := R, before := hc, after := hafter, fresh := by simp
            stale := fun e he => L.chain_relink hc hnext hbirth he
            entries_size := by simp }
  exact X.addCount (-1)

/-- An exchange within a chain keeps the layout. -/
theorem of_exchanged (L : Layout path t) {l₁ old new l₂ : List EntryId}
    (X : Exchanged t t' b i l₁ old new l₂) : Layout path t' := by
  refine L.of_rechained X.toRechained fun e he a j hea => ?_
  have hmem : e ∈ t.chainAt b i := by
    rw [X.after] at he
    rw [X.before]
    rcases List.mem_append.mp he with h | h
    · exact List.mem_append_left _ h
    · rcases List.mem_append.mp h with h | h
      · rw [X.fresh e h] at hea
        exact absurd (L.lt_of_mem_chainAt hea) (Nat.lt_irrefl _)
      · exact List.mem_append_right _ (List.mem_append_right _ h)
  exact L.apart hea hmem

end Layout

/-! ## The fresh entry -/

theorem entry_publish (t : Trie κ ν) (site : Site) (x : Entry κ ν) (bs : List Branch) (s : Slot) :
    (t.publish site x bs s).entries[t.entries.size]? = some x :=
  entries_pushEntry_self t x

theorem entry_replace (t : Trie κ ν) (x : Placed κ ν) (k : κ) (v : ν) :
    ∃ n, (t.replace x k v).entries[t.entries.size]? = some ⟨k, v, n, x.entry.birth⟩ :=
  (Keeps.setLink _ x.link _).entry (entries_pushEntry_self t _)

end Trie

end NibbleTrie
