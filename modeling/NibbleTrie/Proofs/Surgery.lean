/-
Cutting and joining the chain of a slot.

What is found in the chain of a slot, and what a write does to it, depends on the chain alone: not
on where the slot hangs, nor on hashes, nor on anything else in the tables.  `Strung t b i l` says
that a slot holds the chain `l`, and no more than that.

The two searches follow the same links and decide alike, and the second one remembers the link it
came by.  A write to that link exchanges what hangs behind it, be it the slot or the link of the
entry in front (`Strung.setLink`), and leaves every other link of the tables alone (`Relinked`).

Main statement: `chain_surgery`.
-/
import NibbleTrie.Proofs.Alone
import NibbleTrie.Proofs.Running
import NibbleTrie.Proofs.WellFormed

namespace NibbleTrie

theorem Slot.ofHead_head? {s : Slot} (h : s.isBranch = false) : .ofHead s.head? = s := by
  cases s with
  | branch _ => cases h
  | _ => rfl

namespace Trie

variable {κ : Type u} {ν : Type v} {t t' : Trie κ ν} {b : BranchId} {i : Nibble}
  {l l' l₁ l₂ rest : List EntryId} {link : Link}

/-- The slot `i` of `b` holds the chain `l`: from the slot on one meets the entries `l` and then
nothing.  Births fall along them, so that no search is cut short by its bound. -/
structure Strung (t : Trie κ ν) (b : BranchId) (i : Nibble) (l : List EntryId) : Prop where
  published : b < t.branches.size
  not_branch : (t.slot b i).isBranch = false
  linked : t.Linked (t.slot b i).head? l
  falling : (l.map t.birth).Pairwise (· > ·)

/-- `t'` has what `t` has, and only `link` may lead elsewhere: the keys, values and births of
entries, the marks and parents of branches, all other slots and all other links of entries are the
same. -/
structure Relinked (t t' : Trie κ ν) (link : Link) : Prop where
  keeps : t.Keeps t'
  branches_size : t'.branches.size = t.branches.size
  dead : ∀ a, t'.isDead a = t.isDead a
  parent : ∀ a, t'.parent? a = t.parent? a
  slot : ∀ a j, .slot a j ≠ link → t'.slot a j = t.slot a j
  next : ∀ e < t.entries.size, .next e ≠ link → t'.next? e = t.next? e

/-- `t'` is `t` with the entry `x` of the chain `l₁ ++ x.id :: l₂` of a slot exchanged for `new`,
by a write to the link that led to `x`.  The entry itself still leads to `l₂`. -/
structure Spliced (t t' : Trie κ ν) (b : BranchId) (i : Nibble) (x : Placed κ ν)
    (l₁ new l₂ : List EntryId) : Prop extends Relinked t t' x.link where
  chain : t'.Strung b i (l₁ ++ (new ++ l₂))
  entries_size : t'.entries.size = t.entries.size + new.length
  behind : t'.Linked (some x.id) (x.id :: l₂)

theorem Linked.eq_head? {cur : Option EntryId} (h : t.Linked cur l) : cur = l.head? := by
  cases h <;> rfl

/-! ## The searches -/

/-- The first of the entries `l` with key `k` and an accepted value. -/
def firstHit [BEq κ] (t : Trie κ ν) (k : κ) (accept : ν → Bool) (l : List EntryId) :
    Option (EntryId × Entry κ ν) :=
  (l.find? (t.hit k accept)).bind fun e => t.entries[e]?.map fun x => (e, x)

/-- A falling list of numbers is no longer than its first number allows. -/
theorem length_le_of_falling {n : Nat} {ns : List Nat} (h : (n :: ns).Pairwise (· > ·)) :
    ns.length ≤ n := by
  induction ns generalizing n with
  | nil => exact Nat.zero_le n
  | cons m ns ih =>
    obtain ⟨hn, hrest⟩ := List.pairwise_cons.mp h
    exact Nat.lt_of_le_of_lt (ih hrest) (hn m List.mem_cons_self)

theorem nodup_of_falling {f : EntryId → Nat} (h : (l.map f).Pairwise (· > ·)) : l.Nodup := by
  have hne : (l.map f).Nodup := h.imp fun hlt => Nat.ne_of_gt hlt
  exact hne.of_map

namespace Strung

theorem nodup (S : t.Strung b i l) : l.Nodup := nodup_of_falling S.falling

/-- The bound of the searches is not met. -/
theorem length_le (S : t.Strung b i l) {head : EntryId} (hs : t.slot b i = .chain head) :
    l.length ≤ t.chainBound head := by
  have hlink := S.linked
  have hfall := S.falling
  rw [hs] at hlink
  cases hlink with
  | @cons _ l he _ =>
    rw [chainBound_eq he, List.length_cons]
    have := length_le_of_falling hfall
    rw [List.length_map] at this
    exact Nat.succ_le_succ this

/-- The search from the head finds the first hit of the chain, and nothing in an empty slot. -/
theorem search_eq [BEq κ] (S : t.Strung b i l) (k : κ) (accept : ν → Bool) :
    ((t.slot b i).head?.bind fun head => t.search head k accept) = t.firstHit k accept l := by
  have hlink := S.linked
  cases hs : t.slot b i with
  | empty =>
    rw [hs] at hlink
    cases hlink
    rfl
  | chain head =>
    rw [hs] at hlink
    exact searchFrom_eq hlink (S.length_le hs)
  | branch c =>
    have hnb := S.not_branch
    rw [hs] at hnb
    cases hnb

/-- The search from the slot finds the same. -/
theorem locate_eq [BEq κ] (S : t.Strung b i l) (level : Nat) (k : κ) (accept : ν → Bool) :
    ∃ found, t.locate ⟨b, i, level⟩ k accept = .ok found ∧
      found.map (fun x => (x.id, x.entry)) = t.firstHit k accept l := by
  have hs : (t.slot (Site.mk b i level).branch (Site.mk b i level).index).isBranch = false :=
    S.not_branch
  obtain ⟨found, hfound, heq⟩ := exists_locate_eq_search hs k accept
  exact ⟨found, hfound, heq.trans (S.search_eq k accept)⟩

/-! ## The link behind a part of the chain -/

/-- The link behind a part of the chain leads to what follows the part. -/
theorem target_linkAfter (S : t.Strung b i (l₁ ++ rest)) :
    t.target (linkAfter (.slot b i) l₁) = .ofHead rest.head? := by
  have hlink := S.linked
  rcases List.eq_nil_or_concat' l₁ with rfl | ⟨l₀, p, rfl⟩
  · rw [List.nil_append] at hlink
    rw [← hlink.eq_head?]
    exact (Slot.ofHead_head? S.not_branch).symm
  · rw [List.append_assoc, List.singleton_append] at hlink
    rw [linkAfter_concat, target, hlink.suffix.tail.eq_head?]

/-- The link behind a part of the chain belongs to no entry that follows the part. -/
theorem next_ne_linkAfter (S : t.Strung b i (l₁ ++ rest)) {a : EntryId} (ha : a ∈ rest) :
    .next a ≠ linkAfter (.slot b i) l₁ := by
  rcases List.eq_nil_or_concat' l₁ with rfl | ⟨l₀, p, rfl⟩
  · exact fun h => by cases h
  · rw [linkAfter_concat]
    rintro ⟨⟩
    exact (List.nodup_append.mp S.nodup).2.2 a (by simp) a ha rfl

end Strung

/-! ## Writing it -/

namespace Relinked

/-- A write to a link leaves everything else. -/
theorem setLink (t : Trie κ ν) (link : Link) (n : Option EntryId) :
    t.Relinked (t.setLink link n) link := by
  have keeps := Keeps.setLink t link n
  cases link with
  | slot b i =>
    exact
      { keeps
        branches_size := branches_setSlot_size t b i _
        dead := fun a => isDead_setSlot t b a i _
        parent := fun a => parent?_setSlot t b a i _
        slot := fun a j hne => by
          rw [Trie.setLink, slot_setSlot, if_neg]
          rintro ⟨rfl, rfl, _⟩
          exact hne rfl
        next := fun _ _ _ => rfl }
  | next e =>
    exact
      { keeps
        branches_size := rfl
        dead := fun _ => rfl
        parent := fun _ => rfl
        slot := fun _ _ _ => rfl
        next := fun _ _ hne => next?_setLink n hne.symm }

/-- A new entry that nothing points at leaves everything. -/
theorem pushEntry {x : Entry κ ν} (R : (t.pushEntry x).Relinked t' link) : t.Relinked t' link where
  keeps := (Keeps.pushEntry t x).trans R.keeps
  branches_size := R.branches_size
  dead := R.dead
  parent := R.parent
  slot := R.slot
  next e he hne := by
    rw [R.next e (Nat.lt_of_lt_of_le he (Keeps.pushEntry t x).size_le) hne]
    exact next?_pushEntry_of_lt t x he

theorem addCount (R : t.Relinked t' link) (n : Int) : t.Relinked (t'.addCount n) link where
  keeps := R.keeps.trans (.of_eq rfl)
  branches_size := R.branches_size
  dead := R.dead
  parent := R.parent
  slot := R.slot
  next := R.next

/-- What follows the written link is met as before. -/
theorem linked_suffix (R : t.Relinked t' (linkAfter (.slot b i) l₁)) {e : EntryId}
    (S : t.Strung b i (l₁ ++ e :: l₂)) : t'.Linked (some e) (e :: l₂) := by
  have hlink := S.linked.suffix
  refine hlink.frame R.keeps.size_le fun a ha => ?_
  exact R.next a (hlink.lt_size a ha) (S.next_ne_linkAfter ha)

end Relinked

namespace Strung

/-- A chain is the same in tables with the same slots and the same links along it. -/
theorem frame (S : t.Strung b i l) (hbranches : t'.branches = t.branches) (K : t.Keeps t')
    (hsame : ∀ a ∈ l, t'.next? a = t.next? a) : t'.Strung b i l where
  published := hbranches ▸ S.published
  not_branch := by
    rw [slot, hbranches]
    exact S.not_branch
  linked := by
    rw [slot, hbranches]
    exact S.linked.frame K.size_le hsame
  falling := by
    rw [List.map_congr_left fun a ha => K.birth_eq (S.linked.lt_size a ha)]
    exact S.falling

theorem addCount (S : t.Strung b i l) (n : Int) : (t.addCount n).Strung b i l :=
  S.frame rfl (.of_eq rfl) fun _ _ => rfl

/-- A new entry that nothing points at changes no chain. -/
theorem pushEntry (S : t.Strung b i l) (x : Entry κ ν) : (t.pushEntry x).Strung b i l :=
  S.frame rfl (.pushEntry t x) fun a ha => next?_pushEntry_of_lt t x (S.linked.lt_size a ha)

/-- A write to the link behind `l₁` exchanges what follows `l₁`. -/
theorem setLink (S : t.Strung b i (l₁ ++ rest)) {n : Option EntryId} (hl' : t.Linked n l')
    (hfall : ((l₁ ++ l').map t.birth).Pairwise (· > ·)) :
    (t.setLink (linkAfter (.slot b i) l₁) n).Strung b i (l₁ ++ l') := by
  have hbirths : ((l₁ ++ l').map (t.setLink (linkAfter (.slot b i) l₁) n).birth).Pairwise
      (· > ·) := by
    rw [List.map_congr_left fun a _ => birth_setLink t _ n a]
    exact hfall
  rcases List.eq_nil_or_concat' l₁ with rfl | ⟨l₀, p, rfl⟩
  · have hself : (t.setSlot b i (.ofHead n)).slot b i = .ofHead n := by
      simp [slot_setSlot, S.published]
    refine ⟨(branches_setSlot_size t b i _).symm ▸ S.published, ?_, ?_, hbirths⟩
    · show ((t.setSlot b i (.ofHead n)).slot b i).isBranch = false
      rw [hself]
      cases n <;> rfl
    · show (t.setSlot b i (.ofHead n)).Linked ((t.setSlot b i (.ofHead n)).slot b i).head? l'
      rw [hself]
      cases n <;> exact hl'.frame (Nat.le_refl _) fun _ _ => rfl
  · have hnodup : (l₀ ++ p :: l').Nodup := List.append_assoc l₀ [p] l' ▸ nodup_of_falling hfall
    obtain ⟨_, hbehind, hfront⟩ := List.nodup_append.mp hnodup
    have hlink := S.linked
    rw [linkAfter_concat] at hbirths ⊢
    rw [List.append_assoc] at hlink
    refine ⟨S.published, S.not_branch, ?_, hbirths⟩
    rw [List.append_assoc]
    exact hlink.setNext hl' (fun h => hfront p h p List.mem_cons_self rfl)
      (List.nodup_cons.mp hbehind).1

/-- A found entry is exchanged for a fresh one. -/
theorem replace {x : Placed κ ν} (S : t.Strung b i (l₁ ++ x.id :: l₂))
    (hx : t.entries[x.id]? = some x.entry) (hlink : x.link = linkAfter (.slot b i) l₁) (k : κ)
    (v : ν) : t.Spliced (t.replace x k v) b i x l₁ [t.entries.size] l₂ := by
  let fresh : Entry κ ν := ⟨k, v, x.entry.next, x.entry.birth⟩
  have hnext : t.Linked x.entry.next l₂ := next?_of_entry hx ▸ S.linked.suffix.tail
  -- the fresh entry has the birth of the one whose place it takes
  have hbirths : ((l₁ ++ t.entries.size :: l₂).map (t.pushEntry fresh).birth).Pairwise
      (· > ·) := by
    have hself : (t.pushEntry fresh).birth t.entries.size = (t.pushEntry fresh).birth x.id := by
      rw [birth_of_entry (entries_pushEntry_self t fresh),
        (Keeps.pushEntry t fresh).birth_eq (lt_of_entry hx), birth_of_entry hx]
    have hfall := (S.pushEntry fresh).falling
    rw [List.map_append, List.map_cons] at hfall ⊢
    rw [hself]
    exact hfall
  have R : t.Relinked (t.replace x k v) x.link :=
    (Relinked.setLink (t.pushEntry fresh) x.link (some t.entries.size)).pushEntry
  refine
    { toRelinked := R
      chain := ?_
      entries_size := by simp [Trie.replace]
      behind := Relinked.linked_suffix (hlink ▸ R) S }
  rw [Trie.replace, hlink]
  exact (S.pushEntry fresh).setLink (linked_pushEntry_self hnext) hbirths

/-- The fresh entry has the link of the one whose place it takes. -/
theorem entry_replace {x : Placed κ ν} (S : t.Strung b i (l₁ ++ x.id :: l₂))
    (hx : t.entries[x.id]? = some x.entry) (hlink : x.link = linkAfter (.slot b i) l₁) (k : κ)
    (v : ν) : (t.replace x k v).entries[t.entries.size]? =
      some ⟨k, v, x.entry.next, x.entry.birth⟩ := by
  obtain ⟨n, hn⟩ := Trie.entry_replace t x k v
  have hnext : t.Linked x.entry.next l₂ := next?_of_entry hx ▸ S.linked.suffix.tail
  have hnext' : (t.replace x k v).Linked n l₂ := by
    have htail := (S.replace hx hlink k v).chain.linked.suffix.tail
    rw [next?_of_entry hn] at htail
    exact htail
  rw [hn, hnext'.eq_head?, hnext.eq_head?]

/-- A found entry is taken out. -/
theorem unlink {x : Placed κ ν} (S : t.Strung b i (l₁ ++ x.id :: l₂))
    (hx : t.entries[x.id]? = some x.entry) (hlink : x.link = linkAfter (.slot b i) l₁) :
    t.Spliced (t.unlink x) b i x l₁ [] l₂ := by
  have hnext : t.Linked x.entry.next l₂ := next?_of_entry hx ▸ S.linked.suffix.tail
  have hbirths : ((l₁ ++ l₂).map t.birth).Pairwise (· > ·) :=
    S.falling.sublist (((List.sublist_cons_self _ _).append_left l₁).map _)
  have R : t.Relinked (t.unlink x) x.link :=
    (Relinked.setLink t x.link x.entry.next).addCount (-1)
  refine
    { toRelinked := R
      chain := ?_
      entries_size := by simp [Trie.unlink]
      behind := Relinked.linked_suffix (hlink ▸ R) S }
  rw [Trie.unlink, hlink]
  exact (S.setLink hnext hbirths).addCount (-1)

end Strung

/-- Every slot of a laid out trie that holds no branch holds a chain. -/
theorem Layout.strung {path : BranchId → List Nibble} (L : Layout path t)
    (hb : b < t.branches.size) (hs : (t.slot b i).isBranch = false) :
    t.Strung b i (t.chainAt b i) where
  published := hb
  not_branch := hs
  linked := L.linked_chainAt b i
  falling := List.pairwise_map.mpr (L.falling.pairwise (L.linked_chainAt b i))

end Trie

variable {κ : Type u} {ν : Type v} [BEq κ] [BEq ν]

/-- In a slot that holds a chain the two searches find the same entry, the first one with an equal
key and an accepted value, or both find none.  An entry that is found parts the chain.  Replacing it
puts a fresh entry with any key and value in its place, and unlinking it closes the gap; both write
the one link that led to it, the entries are otherwise the same ones with their keys and values, and
the found entry still leads to what was behind it.  At every instant, every published slot of every
generation holds a branch or a chain. -/
theorem chain_surgery :
    (∀ (t : Trie κ ν) (b : BranchId) (i : Nibble) (l : List EntryId), t.Strung b i l →
      ∀ (level : Nat) (k : κ) (accept : ν → Bool),
        ((t.slot b i).head?.bind fun head => t.search head k accept) = t.firstHit k accept l ∧
        (∃ found, t.locate ⟨b, i, level⟩ k accept = .ok found ∧
          found.map (fun x => (x.id, x.entry)) = t.firstHit k accept l) ∧
        ∀ x, t.locate ⟨b, i, level⟩ k accept = .ok (some x) → ∃ l₁ l₂,
          l = l₁ ++ x.id :: l₂ ∧ t.hit k accept x.id = true ∧
          (∀ a ∈ l₁, t.hit k accept a = false) ∧ t.target x.link = .chain x.id ∧
          (∀ k' v, t.Spliced (t.replace x k' v) b i x l₁ [t.entries.size] l₂ ∧
            (t.replace x k' v).entries[t.entries.size]? =
              some ⟨k', v, x.entry.next, x.entry.birth⟩) ∧
          t.Spliced (t.unlink x) b i x l₁ [] l₂) ∧
    ∀ (hash : κ → UInt64) (s : Instant κ ν), Instant.Reachable hash s →
      ∀ g ≤ s.map.generation, ∀ b < (s.map.trieAt g).branches.size, ∀ i,
        ((s.map.trieAt g).slot b i).isBranch = false →
          (s.map.trieAt g).Strung b i ((s.map.trieAt g).chainAt b i) := by
  refine ⟨fun t b i l S level k accept => ?_, fun hash s h g hg b hb i hs => ?_⟩
  · refine ⟨S.search_eq k accept, S.locate_eq level k accept, fun x hx => ?_⟩
    obtain ⟨l₁, l₂, rfl, hentry, hk, ha, hmiss, hlink⟩ := S.linked.locate_some hx
    have hhit : t.hit k accept x.id = true := by
      rw [Trie.hit_of_entry hentry, hk, ha]
      rfl
    have htarget : t.target x.link = .chain x.id := by
      rw [hlink]
      exact S.target_linkAfter
    refine ⟨l₁, l₂, rfl, hhit, hmiss, htarget, fun k' v => ?_, S.unlink hentry hlink⟩
    exact ⟨S.replace hentry hlink k' v, S.entry_replace hentry hlink k' v⟩
  · obtain ⟨path, L⟩ := h.good.laid.layout g hg
    exact L.strung hb hs

/-- A map of three keys in one chain. -/
def threeKeys : TrieMap Nat Nat :=
  ((TrieMap.empty fun _ => 0).run [.insert 3 30, .insert 2 20, .insert 1 10]).2

/-- The key 2 stands in the middle of the chain, behind the entry of the key 1. -/
theorem chain_surgery_middle :
    let t := threeKeys.current
    t.Strung Trie.root (nibble 0 15) [2, 1, 0] ∧
      ∃ x, t.locate ⟨Trie.root, nibble 0 15, 15⟩ 2 TrieMap.anyValue = .ok (some x) ∧
        x.link = .next 2 ∧ x.id = 1 ∧
        (t.replace x 2 21).Strung Trie.root (nibble 0 15) [2, 3, 0] ∧
        (t.unlink x).Strung Trie.root (nibble 0 15) [2, 0] ∧
        (t.unlink x).Linked (some 1) [1, 0] := by
  intro t
  obtain ⟨surgery, strung⟩ := chain_surgery (κ := Nat) (ν := Nat)
  have hthree : Instant.Reachable (fun _ => 0) ⟨threeKeys, []⟩ := .of_made .empty _
  have hchain : t.Strung Trie.root (nibble 0 15) [2, 1, 0] :=
    strung _ _ hthree 0 (Nat.le_refl _) Trie.root (by decide) (nibble 0 15) rfl
  have hlocate : t.locate ⟨Trie.root, nibble 0 15, 15⟩ 2 TrieMap.anyValue =
      .ok (some ⟨.next 2, 1, ⟨2, 20, some 0, 1⟩⟩) := rfl
  obtain ⟨_, _, found⟩ := surgery t Trie.root (nibble 0 15) [2, 1, 0] hchain 15 2 TrieMap.anyValue
  obtain ⟨l₁, l₂, hl, _, _, _, replaced, unlinked⟩ := found _ hlocate
  obtain ⟨rfl, rfl⟩ : l₁ = [2] ∧ l₂ = [0] := by simpa [List.cons_eq_append_iff] using hl
  exact ⟨hchain, _, hlocate, rfl, rfl, (replaced 2 21).1.chain, unlinked.chain, unlinked.behind⟩

end NibbleTrie
