/-
What an insertion does to the trie.

The slot at which the walk for an absent key ends takes the fresh entry in one of
three manners (`Manner`): it is empty, or it holds a chain of the same hash and
the entry goes in front, or it holds a chain of another hash and is split.  Which
one it is, is decided by what the slot holds; and besides the entry, the slot and
the branches of a split nothing changes (`Planted`).

Main statement: `Instant.Reachable.absent_planted`.
-/
import NibbleTrie.Proofs.Alone
import NibbleTrie.Proofs.Running

namespace NibbleTrie

/-- The highest level on which two hashes have different groups. -/
structure PartAt (h₁ h₂ : UInt64) (level : Nat) : Prop where
  lt : level < hashGroups
  ne : nibble h₁ level ≠ nibble h₂ level
  above : ∀ l, level < l → l < hashGroups → nibble h₁ l = nibble h₂ l

theorem PartAt.unique {h₁ h₂ : UInt64} {level level' : Nat} (P : PartAt h₁ h₂ level)
    (P' : PartAt h₁ h₂ level') : level = level' := by
  rcases Nat.lt_trichotomy level level' with h | h | h
  · exact absurd (P.above level' h P'.lt) P'.ne
  · exact h
  · exact absurd (P'.above level h P.lt) P.ne

/-- How a slot takes a fresh entry. -/
inductive Manner where
  /-- It was empty. -/
  | lone
  /-- In front of a chain of its hash. -/
  | ahead
  /-- By a split from a chain of the hash `other`, which parts from its hash at `level`. -/
  | apart (other : UInt64) (level : Nat)

/-- What is reported, for a slot at `level`. -/
def Manner.events (level : Nat) : Manner → List Event
  | .lone => []
  | .ahead => [.chained level]
  | .apart _ parting => [.split (level - parting) parting]

namespace Trie

variable {κ : Type u} {ν : Type v} {t t' : Trie κ ν} {hash : κ → UInt64} {site : Site}
  {path : BranchId → List Nibble} {k : κ} {v : ν} {h : UInt64}

/-- A slot holds a chain whose entries all have the hash `h`. -/
def ChainOf (hash : κ → UInt64) (t : Trie κ ν) (site : Site) (h : UInt64) : Prop :=
  (∃ head, t.slot site.branch site.index = .chain head) ∧
    ∀ e ∈ t.chainAt site.branch site.index, ∃ x, t.entries[e]? = some x ∧ hash x.key = h

/-- When an entry of the hash `h` is taken so. -/
def Applies (hash : κ → UInt64) (t : Trie κ ν) (site : Site) (h : UInt64) : Manner → Prop
  | .lone => t.slot site.branch site.index = .empty
  | .ahead => t.ChainOf hash site h
  | .apart other level => t.ChainOf hash site other ∧ PartAt other h level

/-- What the slot and the branches are after the fresh entry was taken. -/
def Shaped (t t' : Trie κ ν) (site : Site) (h : UInt64) : Manner → Prop
  | .lone | .ahead =>
    t'.slot site.branch site.index = .chain t.entries.size ∧
      t'.branches.size = t.branches.size ∧
      t'.chainAt site.branch site.index = t.entries.size :: t.chainAt site.branch site.index
  | .apart other level =>
    level < site.level ∧
      ∃ head, Split t t' site other h head (site.level - level - 1)

/-- An entry was added to the trie in a slot, and nothing else has changed: entries keep their
links, branches their parents and marks, and all other slots of the old branches what they hold. -/
structure Planted (t t' : Trie κ ν) (site : Site) (h : UInt64) (item : κ × ν) (manner : Manner) :
    Prop where
  entries : ∃ next, t'.entries = t.entries.push ⟨item.1, item.2, next, t.entries.size⟩
  count : t'.count = t.count + 1
  dead : ∀ b < t.branches.size, t'.isDead b = t.isDead b
  parent : ∀ b < t.branches.size, t'.parent? b = t.parent? b
  slot : ∀ b < t.branches.size, ∀ i, ¬(b = site.branch ∧ i = site.index) →
    t'.slot b i = t.slot b i
  shaped : t.Shaped t' site h manner

/-! ## Which manner applies -/

/-- All entries of a chain have the hash of its head. -/
theorem Routed.chainOf (R : Routed hash path t) {head : EntryId} {x : Entry κ ν}
    (hs : t.slot site.branch site.index = .chain head) (hx : t.entries[head]? = some x) :
    t.ChainOf hash site (hash x.key) := by
  refine ⟨⟨head, hs⟩, fun e he => ?_⟩
  have hhead := R.head_mem_chainAt hs
  obtain ⟨y, hy⟩ := entry_of_lt (R.lt_of_mem_chainAt he)
  exact ⟨y, hy, R.same he hhead hy hx⟩

/-- A chain has one hash. -/
theorem ChainOf.unique (L : Layout path t) {h' : UInt64} (C : t.ChainOf hash site h)
    (C' : t.ChainOf hash site h') : h = h' := by
  obtain ⟨⟨head, hs⟩, hall⟩ := C
  have hhead := L.head_mem_chainAt hs
  obtain ⟨x, hx, rfl⟩ := hall head hhead
  obtain ⟨y, hy, rfl⟩ := C'.2 head hhead
  cases hx.symm.trans hy
  rfl

theorem ChainOf.not_empty (C : t.ChainOf hash site h) :
    t.slot site.branch site.index ≠ .empty := by
  obtain ⟨⟨head, hs⟩, _⟩ := C
  rw [hs]
  exact fun h => by cases h

/-- The slot decides in which manner it takes an entry. -/
theorem Applies.unique (L : Layout path t) {manner manner' : Manner}
    (A : t.Applies hash site h manner) (A' : t.Applies hash site h manner') :
    manner' = manner := by
  cases manner with
  | lone =>
    cases manner' with
    | lone => rfl
    | ahead => exact absurd A (ChainOf.not_empty A')
    | apart _ _ => exact absurd A A'.1.not_empty
  | ahead =>
    cases manner' with
    | lone => exact absurd A' (ChainOf.not_empty A)
    | ahead => rfl
    | apart other level =>
      cases ChainOf.unique L A A'.1
      exact absurd rfl A'.2.ne
  | apart other level =>
    cases manner' with
    | lone => exact absurd A' A.1.not_empty
    | ahead =>
      cases ChainOf.unique L A' A.1
      exact absurd rfl A.2.ne
    | apart other' level' =>
      cases ChainOf.unique L A.1 A'.1
      cases A.2.unique A'.2
      rfl

/-- An entry goes in front of a chain exactly if there is an entry of its hash. -/
theorem Routed.chainOf_iff (R : Routed hash path t) (F : Fits path t h site)
    (hs : (t.slot site.branch site.index).isBranch = false) :
    t.ChainOf hash site h ↔ ∃ item ∈ t.toList, hash item.1 = h := by
  constructor
  · rintro ⟨⟨head, hslot⟩, hall⟩
    have hhead := R.head_mem_chainAt hslot
    obtain ⟨x, hx, hh⟩ := hall head hhead
    exact ⟨(x.key, x.value), R.mem_toList.mpr ⟨head, x, ⟨_, _, hhead⟩, hx, rfl⟩, hh⟩
  · rintro ⟨item, hitem, hh⟩
    obtain ⟨e, x, hlive, hx, rfl⟩ := R.mem_toList.mp hitem
    have he := R.mem_chainAt_of_hash F hs hlive hx hh
    obtain ⟨head, hslot, hlt, _, hhead⟩ := R.exists_head he
    obtain ⟨y, hy⟩ := entry_of_lt hlt
    have C := R.chainOf hslot hy
    rwa [← R.same he hhead hx hy, hh] at C

/-! ## What the insertion does -/

/-- Publishing an entry leaves everything old as it was, but for the slot. -/
theorem planted_publish {x : Entry κ ν} {bs : List Branch} {s : Slot} {manner : Manner}
    (hx : x = ⟨k, v, x.next, t.entries.size⟩) (S : t.Shaped (t.publish site x bs s) site h manner) :
    Planted t (t.publish site x bs s) site h (k, v) manner where
  entries := ⟨x.next, congrArg t.entries.push hx⟩
  count := rfl
  dead b hb := by
    rw [publish, isDead_addCount, isDead_setSlot, isDead_pushBranches_of_lt _ _ (by exact hb),
      isDead_pushEntry]
  parent b hb := by
    rw [publish, parent?_addCount, parent?_setSlot, parent?_pushBranches_of_lt _ _ (by exact hb),
      parent?_pushEntry]
  slot b hb i h := by
    rw [publish, slot_addCount, slot_setSlot, if_neg fun h' => h ⟨h'.1.symm, h'.2.1.symm⟩,
      slot_pushBranches_of_lt _ _ _ (by exact hb), slot_pushEntry]
  shaped := S

/-- A fresh entry in front of what a slot holds. -/
theorem Layout.front_shaped (L : Layout path t) (hlive : t.isDead site.branch = false)
    (hs : (t.slot site.branch site.index).isBranch = false) (k : κ) (v : ν) :
    let t' := t.publish site ⟨k, v, (t.slot site.branch site.index).head?, t.entries.size⟩ []
      (.chain t.entries.size)
    t'.slot site.branch site.index = .chain t.entries.size ∧
      t'.branches.size = t.branches.size ∧
      t'.chainAt site.branch site.index = t.entries.size :: t.chainAt site.branch site.index := by
  intro t'
  refine ⟨?_, by simp [t', publish], (L.front hlive hs site.level k v).after⟩
  simp only [t', publish, pushBranches_nil]
  rw [slot_addCount, slot_setSlot, if_pos ⟨rfl, rfl, lt_of_isDead_eq_false hlive⟩]

/-- Where the chain of a slot parts from a hash on the way of which the slot is. -/
theorem Fits.partAt {h₁ h₂ : UInt64} {old fresh : EntryId} {parent first : BranchId}
    {bs : List Branch} {n : Nat} (F : Fits path t h₂ site)
    (T : SplitTable h₁ h₂ old fresh site.level parent first bs n)
    (hway : path site.branch ++ [site.index] <+: digits h₁) :
    PartAt h₁ h₂ (site.level - 1 - n) where
  lt := by
    have hlevel := F.level
    rw [hashGroups]
    omega
  ne := T.parting
  above l hlt hl := by
    rcases Nat.lt_or_ge l site.level with hsite | hsite
    · have hcommon := T.common (site.level - 1 - l) (by omega)
      rwa [show site.level - 1 - (site.level - 1 - l) = l by omega] at hcommon
    · exact F.nibble_eq hway hsite hl

/-- Where entries stand where their hashes put them, the slot of a key takes a fresh entry in the
manner that applies. -/
theorem Routed.insertAt_planted (R : Routed hash path t) (F : Fits path t (hash k) site)
    (hs : (t.slot site.branch site.index).isBranch = false) (v : ν) :
    ∃ manner t', t.insertAt hash site (hash k) k v = ⟨.ok (), t', manner.events site.level⟩ ∧
      t.Applies hash site (hash k) manner ∧ Planted t t' site (hash k) (k, v) manner := by
  cases hslot : t.slot site.branch site.index with
  | branch _ => rw [hslot] at hs; cases hs
  | empty =>
    have S := R.front_shaped F.live hs k v
    rw [hslot] at S
    refine ⟨.lone, _, ?_, hslot, planted_publish rfl S⟩
    rw [insertAt, hslot]
    rfl
  | chain head =>
    obtain ⟨x, hx⟩ := entry_of_lt (R.head_lt hslot)
    have C := R.chainOf hslot hx
    have hch : t.chainHash hash head = some (hash x.key) := by simp [chainHash, hx]
    by_cases hh : hash x.key = hash k
    · have S := R.front_shaped F.live hs k v
      rw [hslot] at S
      refine ⟨.ahead, _, ?_, hh ▸ C, planted_publish rfl S⟩
      simp only [insertAt, hslot, hch, Option.getD_some, hh, if_true]
      rfl
    · cases hbs : splitBranches (hash x.key) (hash k) head t.entries.size site.level site.branch
          t.branches.size with
      | none => exact absurd (R.eq_of_low F hslot hx (splitBranches_none hbs)) hh
      | some bs =>
        obtain ⟨n, T⟩ := splitBranches_table hbs
        have hn := T.lt_level
        have hhead := R.head_mem_chainAt hslot
        have P := split_publish R.toLayout F.live hslot T k v
        rw [show n = site.level - (site.level - 1 - n) - 1 by omega] at P
        refine ⟨.apart (hash x.key) (site.level - 1 - n), _, ?_,
          ⟨C, F.partAt T (R.way hhead hx)⟩, planted_publish rfl ⟨by omega, head, P⟩⟩
        have hlevels : site.level - (site.level - 1 - n) = n + 1 := by omega
        have hlevel : site.level - (n + 1) = site.level - 1 - n := by omega
        simp only [insertAt, hslot, hch, Option.getD_some, hh, if_false, hbs, Manner.events,
          T.length, hlevels, hlevel]

end Trie

/-! ## Operations -/

/-- An operation that inserts an absent key holds its slot and inserts there. -/
theorem Trie.carryOut_of_absent {κ : Type u} {ν : Type v} [BEq κ] {t : Trie κ ν}
    {hash : κ → UInt64} {site : Site} {plan : Plan κ ν} {item : κ × ν}
    (hs : (t.slot site.branch site.index).isBranch = false)
    (habsent : t.sought? site plan.key plan.accept = none)
    (hnew : (plan.judge none).2.new = some item) :
    t.carryOut hash site plan =
      let e := t.insertAt hash site (hash item.1) item.1 item.2
      ⟨e.result.bind fun _ => (plan.judge none).1, e.state, e.events⟩ := by
  obtain ⟨found, hloc⟩ := Layout.exists_locate hs plan.key plan.accept
  have hfound : found.map Placed.item = none := by
    rw [← habsent, sought?, hloc]
  obtain rfl := Option.map_eq_none_iff.mp hfound
  rw [carryOut_eq hloc]
  dsimp only [Option.map_none]
  cases hedit : (plan.judge none).2 with
  | keep => rw [hedit] at hnew; cases hnew
  | remove => rw [hedit] at hnew; cases hnew
  | put k' v' =>
    rw [hedit] at hnew
    cases hnew
    rfl

/-- An operation that inserts a key is an operation on one key. -/
theorem Op.exists_plan {κ : Type u} {ν : Type v} [BEq ν] {op : Op κ ν} {item : κ × ν}
    (h : op.entry? = some item) : ∃ plan, op.plan? = some plan := by
  cases op with
  | insertMany _ | clear | size | isEmpty => cases h
  | _ => exact ⟨_, rfl⟩

/-- A plan gives an answer if it puts something in. -/
theorem Plan.exists_reply {κ : Type u} {ν : Type v} (plan : Plan κ ν) {found : Option (κ × ν)}
    {item : κ × ν} (hnew : (plan.judge found).2.new = some item) :
    ∃ r, (plan.judge found).1 = .ok r := by
  cases hresult : (plan.judge found).1 with
  | ok r => exact ⟨r, rfl⟩
  | error f =>
    rw [(plan.judge_error hresult).1] at hnew
    cases hnew

namespace Instant

variable {κ : Type u} {ν : Type v} [BEq κ] [BEq ν] {hash : κ → UInt64} {s : Instant κ ν}

/-- What an insertion does to the trie.  Every operation that inserts an absent key succeeds, and it
changes the current trie alone, at the slot at which the walk for the key ends.  Exactly one manner
applies, given by what the slot holds; it says what is reported and what becomes of the slot, and
besides nothing changes.  The entry goes in front of a chain exactly if a present key has its
hash. -/
theorem Reachable.absent_planted (law : Lawful hash) (h : Reachable hash s) {op : Op κ ν} {k : κ}
    {v : ν} (hentry : op.entry? = some (k, v)) (habsent : ¬ s.map.Has k) :
    ∃ site head r t' manner,
      s.map.current.route (hash k) = .ok (site, head) ∧
      s.map.apply op = ⟨.ok r, { s.map with current := t' }, manner.events site.level⟩ ∧
      Trie.Planted s.map.current t' site (hash k) (k, v) manner ∧
      (∀ manner', s.map.current.Applies hash site (hash k) manner' ↔ manner' = manner) ∧
      (manner = .ahead ↔ ∃ item ∈ s.map.toList, hash item.1 = hash k) := by
  have H := h.good.laid
  obtain rfl := h.hash_eq
  obtain ⟨path, R⟩ := H.routed law s.map.generation (Nat.le_refl _)
  rw [TrieMap.trieAt_generation] at R
  obtain ⟨plan, hplan⟩ := Op.exists_plan hentry
  obtain ⟨hkey, _⟩ : plan.key = k ∧ _ := Op.entry_key hplan hentry
  have hnew := (Op.new_judge_none hplan).trans hentry
  obtain ⟨r, hr⟩ := plan.exists_reply hnew
  obtain ⟨site, hroute, hA, hw, heq⟩ := H.apply_eq hplan
  rw [hkey] at hroute hA
  obtain ⟨hlive, hs⟩ := Trie.isWritable_iff.mp hw
  have F := hA.fits R.toLayout hlive
  have hsought : s.map.current.sought? site plan.key plan.accept = none := by
    cases hfind : s.map.current.sought? site plan.key plan.accept with
    | none => rfl
    | some e =>
      obtain ⟨hmem, hek, _⟩ := R.of_sought?_eq_some hfind
      exact absurd ⟨e, hmem, hkey ▸ hek⟩ habsent
  obtain ⟨manner, t', hinsert, hmanner, P⟩ := R.insertAt_planted F hs v
  have hcarry : s.map.current.carryOut s.map.hash site plan = _ :=
    Trie.carryOut_of_absent hs hsought hnew
  rw [hinsert, hr] at hcarry
  rw [hcarry] at heq
  have hiff : ∀ manner', s.map.current.Applies s.map.hash site (s.map.hash k) manner' ↔
      manner' = manner :=
    fun manner' => ⟨fun h => hmanner.unique R.toLayout h, fun h => h ▸ hmanner⟩
  refine ⟨site, _, r, t', manner, hroute, heq, P, hiff, ?_⟩
  rw [eq_comm, ← hiff]
  exact R.chainOf_iff F hs

/-- A map of the key 0, where each key is its own hash. -/
def single : TrieMap Nat Nat := ((TrieMap.empty UInt64.ofNat).run [.insert 0 5]).2

theorem reachable_single : Reachable UInt64.ofNat ⟨single, []⟩ := .of_made .empty _

/-- The hashes 0 and 1 agree but on the lowest level. -/
theorem partAt_zero_one : PartAt 0 1 0 := by
  have habove : ∀ l < hashGroups, 0 < l → nibble 0 l = nibble 1 l := by decide
  exact ⟨by decide, by decide, fun l h hl => habove l hl h⟩

/-- The key 1 is built for it, and its entry parts from the one of the key 0 in the last of 15
branches. -/
theorem absent_planted_single : ∃ r t',
    single.apply (.probe (.getOrBuild 1 (.ok 7))) =
      ⟨.ok r, { single with current := t' }, [.split 15 0]⟩ ∧
    Trie.Planted single.current t' ⟨Trie.root, 0, 15⟩ 1 (1, 7) (.apart 0 0) := by
  have law : Lawful UInt64.ofNat := ⟨fun h => by rw [eq_of_beq h]⟩
  have hentry : Op.entry? (.probe (.getOrBuild 1 (.ok 7)) : Op Nat Nat) = some (1, 7) := rfl
  have habsent : ¬ single.Has 1 := by
    rintro ⟨e, he, h⟩
    rw [List.mem_singleton.mp he] at h
    cases h
  obtain ⟨site, head, r, t', manner, hroute, heq, P, hiff, _⟩ :=
    reachable_single.absent_planted law hentry habsent
  have hsite : single.current.route (UInt64.ofNat 1) = .ok (⟨Trie.root, 0, 15⟩, some 0) := rfl
  cases hsite.symm.trans hroute
  have hchain : single.current.ChainOf UInt64.ofNat ⟨Trie.root, 0, 15⟩ 0 :=
    ⟨⟨0, rfl⟩, fun e he => ⟨⟨0, 5, none, 0⟩, by rw [List.mem_singleton.mp he]; rfl, rfl⟩⟩
  obtain rfl := (hiff (.apart 0 0)).mp ⟨hchain, partAt_zero_one⟩
  exact ⟨r, t', heq, P⟩

end Instant

end NibbleTrie
