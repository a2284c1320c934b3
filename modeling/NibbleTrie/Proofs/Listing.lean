/-
The entries of a trie as a list.

`ids` goes through the slots of the root in order and down into every branch,
and lists the entries it meets.  `todo` is what a cursor still has in front of
it if nothing is written any more.  A step of the cursor takes the head off
`todo`, so a walk of a trie at rest lists `ids`.

Main statements: an entry is listed exactly if it is in the chain of a slot
(`Layout.mem_ids`), and once (`Layout.nodup_ids`); `Cursor.next_of_todo`, and
`Layout.toList_eq`.
-/
import Mathlib.Data.List.Perm.Subperm
import Mathlib.Data.List.Nodup
import Mathlib.Data.List.Flatten
import NibbleTrie.Proofs.Layout
import NibbleTrie.Trie.Cursor

namespace NibbleTrie

namespace Trie

variable {κ : Type u} {ν : Type v} {t : Trie κ ν} {path : BranchId → List Nibble}

/-- The entries in and below a slot; `down` lists those below a branch one level down. -/
def slotIds (t : Trie κ ν) (down : BranchId → List EntryId) (b : BranchId) (i : Nibble) :
    List EntryId :=
  match t.slot b i with
  | .empty => []
  | .chain head => t.chain head
  | .branch child => down child

/-- The entries below a branch that has at most `levels` levels. -/
def branchIds (t : Trie κ ν) : (levels : Nat) → BranchId → List EntryId
  | 0, _ => []
  | levels + 1, b => allNibbles.flatMap (t.slotIds (t.branchIds levels) b)

/-- The entries of a trie, in the order of its walks. -/
def ids (t : Trie κ ν) : List EntryId := t.branchIds hashGroups root

/-- The key and the value of an entry. -/
def item? (t : Trie κ ν) (e : EntryId) : Option (κ × ν) :=
  t.entries[e]?.map fun x => (x.key, x.value)

/-- The entry `e` is in the chain of some slot. -/
def Live (t : Trie κ ν) (e : EntryId) : Prop := ∃ b i, e ∈ t.chainAt b i

theorem item?_of_entry {e : EntryId} {x : Entry κ ν} (hx : t.entries[e]? = some x) :
    t.item? e = some (x.key, x.value) := by
  simp [item?, hx]

theorem item?_of_lt {e : EntryId} (he : e < t.entries.size) : ∃ item, t.item? e = some item := by
  obtain ⟨x, hx⟩ := entry_of_lt he
  exact ⟨_, item?_of_entry hx⟩

namespace Layout

theorem lt_of_live (L : Layout path t) {e : EntryId} (he : t.Live e) : e < t.entries.size := by
  obtain ⟨b, i, he⟩ := he
  exact L.lt_of_mem_chainAt he

/-- The entries in and below a slot are those of the chains whose slots lie behind it. -/
theorem mem_slotIds (L : Layout path t) {levels : Nat} {b : BranchId} {i : Nibble} {e : EntryId}
    (hb : t.isDead b = false)
    (down : ∀ {c}, t.slot b i = .branch c → (e ∈ t.branchIds levels c ↔
      ∃ b' i', path c <+: path b' ∧ e ∈ t.chainAt b' i')) :
    e ∈ t.slotIds (t.branchIds levels) b i ↔
      ∃ b' i', path b ++ [i] <+: path b' ++ [i'] ∧ e ∈ t.chainAt b' i' := by
  by_cases hs : (t.slot b i).isBranch = true
  · obtain ⟨c, hc⟩ : ∃ c, t.slot b i = .branch c := by
      cases h : t.slot b i with
      | branch c => exact ⟨c, rfl⟩
      | empty => rw [h] at hs; cases hs
      | chain _ => rw [h] at hs; cases hs
    simp only [slotIds, hc]
    rw [down hc, L.child_path hc]
    constructor
    · rintro ⟨b', i', hpre, he⟩
      exact ⟨b', i', hpre.trans (List.prefix_append _ _), he⟩
    · rintro ⟨b', i', hpre, he⟩
      rcases List.prefix_concat_iff.mp hpre with heq | hpre
      · -- the slot itself holds a branch and no chain
        obtain ⟨hp, hi⟩ := List.append_inj' heq rfl
        obtain rfl := L.path_inj hb (L.live_of_mem_chainAt he) hp
        obtain rfl : i = i' := by simpa using hi
        rw [chainAt_of_branch hc] at he
        cases he
      · exact ⟨b', i', hpre, he⟩
  · have hs' : (t.slot b i).isBranch = false := by simpa using hs
    have hids : t.slotIds (t.branchIds levels) b i = t.chainAt b i := by
      cases h : t.slot b i with
      | branch c => rw [h] at hs'; cases hs'
      | empty => simp [slotIds, h, chainAt_of_empty h]
      | chain _ => simp [slotIds, h, chainAt_of_chain h]
    rw [hids]
    constructor
    · exact fun he => ⟨b, i, List.prefix_refl _, he⟩
    · rintro ⟨b', i', hpre, he⟩
      obtain ⟨rfl, rfl⟩ := L.eq_of_prefix hb (L.live_of_mem_chainAt he) hs' hpre
      exact he

theorem mem_branchIds (L : Layout path t) {e : EntryId} : ∀ {levels : Nat} {b : BranchId},
    t.isDead b = false → (path b).length + levels = 16 →
      (e ∈ t.branchIds levels b ↔ ∃ b' i', path b <+: path b' ∧ e ∈ t.chainAt b' i')
  | 0, b, hb, hlen => absurd (L.depth hb) (by omega)
  | levels + 1, b, hb, hlen => by
    have hslot : ∀ i, e ∈ t.slotIds (t.branchIds levels) b i ↔
        ∃ b' i', path b ++ [i] <+: path b' ++ [i'] ∧ e ∈ t.chainAt b' i' := by
      intro i
      refine L.mem_slotIds hb fun {c} hc => ?_
      refine L.mem_branchIds (L.child_live hc) ?_
      rw [L.child_path hc, List.length_append, List.length_singleton]
      omega
    rw [branchIds, List.mem_flatMap]
    constructor
    · rintro ⟨i, -, he⟩
      obtain ⟨b', i', hpre, he⟩ := (hslot i).mp he
      refine ⟨b', i', ?_, he⟩
      have hlen := hpre.length_le
      refine List.prefix_of_prefix_length_le ((List.prefix_append _ [i]).trans hpre)
        (List.prefix_append _ _) ?_
      simpa using hlen
    · rintro ⟨b', i', hpre, he⟩
      obtain ⟨s, hs⟩ := hpre
      cases s with
      | nil =>
        rw [List.append_nil] at hs
        exact ⟨i', List.mem_finRange i', (hslot i').mpr
          ⟨b', i', hs ▸ List.prefix_refl _, he⟩⟩
      | cons i s =>
        exact ⟨i, List.mem_finRange i, (hslot i).mpr ⟨b', i', ⟨s ++ [i'], by simp [← hs]⟩, he⟩⟩

/-- The listed entries are those of the chains. -/
theorem mem_ids (L : Layout path t) {e : EntryId} : e ∈ t.ids ↔ t.Live e := by
  rw [ids, L.mem_branchIds L.root_live (by simp [L.root_path, hashGroups]), L.root_path]
  constructor
  · rintro ⟨b, i, _, he⟩
    exact ⟨b, i, he⟩
  · rintro ⟨b, i, he⟩
    exact ⟨b, i, List.nil_prefix, he⟩

theorem nodup_branchIds (L : Layout path t) : ∀ {levels : Nat} {b : BranchId},
    t.isDead b = false → (path b).length + levels = 16 → (t.branchIds levels b).Nodup
  | 0, _, _, _ => List.nodup_nil
  | levels + 1, b, hb, hlen => by
    have hchild : ∀ {i c}, t.slot b i = .branch c → (path c).length + levels = 16 := by
      intro i c hc
      rw [L.child_path hc, List.length_append, List.length_singleton]
      omega
    have hslot : ∀ {i e}, e ∈ t.slotIds (t.branchIds levels) b i ↔
        ∃ b' i', path b ++ [i] <+: path b' ++ [i'] ∧ e ∈ t.chainAt b' i' := fun {i e} =>
      L.mem_slotIds hb fun hc => L.mem_branchIds (L.child_live hc) (hchild hc)
    rw [branchIds, List.nodup_flatMap]
    refine ⟨fun i _ => ?_, (List.nodup_finRange 16).imp fun {i j} hij => ?_⟩
    · rw [slotIds]
      cases hs : t.slot b i with
      | empty => exact List.nodup_nil
      | chain e => exact L.falling.nodup (linked_chain L.falling (L.head_lt hs))
      | branch c => exact L.nodup_branchIds (L.child_live hs) (hchild hs)
    · -- the two slots lie before different slots, and no entry is in two chains
      intro e hi hj
      obtain ⟨b₁, i₁, hpre₁, he₁⟩ := hslot.mp hi
      obtain ⟨b₂, i₂, hpre₂, he₂⟩ := hslot.mp hj
      obtain ⟨rfl, rfl⟩ := L.apart he₁ he₂
      have heq := List.prefix_of_prefix_length_le hpre₁ hpre₂ (by simp)
      have := heq.eq_of_length (by simp)
      exact hij (by simpa using this)

theorem nodup_ids (L : Layout path t) : t.ids.Nodup :=
  L.nodup_branchIds L.root_live (by simp [L.root_path, hashGroups])

/-- There are no more entries in chains than rows in the table. -/
theorem length_ids_le (L : Layout path t) : t.ids.length ≤ t.entries.size := by
  have hsub : t.ids ⊆ List.range t.entries.size := fun e he =>
    List.mem_range.mpr (L.lt_of_live (L.mem_ids.mp he))
  simpa using (List.subperm_of_subset L.nodup_ids hsub).length_le

end Layout

/-- The entries to which a stack leads. -/
def stackIds (t : Trie κ ν) : List Frame → List EntryId
  | [] => []
  | frame :: below =>
    frame.rest.flatMap (t.slotIds (t.branchIds (hashGroups - 1 - below.length)) frame.branch) ++
      t.stackIds below

/-- What a search for the next chain found: the first of the entries `l`, in front of those to
which `below` leads. -/
def Sought (t : Trie κ ν) (l : List EntryId) (below : List Frame) :
    Option (EntryId × List Frame) → Prop
  | none => l = []
  | some (e, stack) =>
    e < t.entries.size ∧ t.chain e ++ t.stackIds stack = l ++ t.stackIds below

end Trie

namespace Cursor

open Trie

variable {κ : Type u} {ν : Type v} {t : Trie κ ν} {path : BranchId → List Nibble}

/-- The entries that a cursor has in front of it, in a trie at rest. -/
def todo (t : Trie κ ν) (c : Cursor) : List EntryId := t.chainOf c.pending ++ t.stackIds c.stack

theorem seekSlots_sought (L : Layout path t) {levels : Nat} {b : BranchId} {below : List Frame}
    (hlevels : levels = hashGroups - 1 - below.length)
    (down : ∀ c rest, t.Sought (t.branchIds levels c) (⟨b, rest⟩ :: below)
      (seekBranch t levels c (⟨b, rest⟩ :: below))) :
    ∀ rest, t.Sought (rest.flatMap (t.slotIds (t.branchIds levels) b)) below
      (seekSlots t (seekBranch t levels) b below rest)
  | [] => rfl
  | i :: rest => by
    have ih := seekSlots_sought L hlevels down rest
    rw [seekSlots, List.flatMap_cons, slotIds]
    cases hs : t.slot b i with
    | empty => exact ih
    | chain head =>
      refine ⟨L.head_lt hs, ?_⟩
      rw [stackIds, ← hlevels, List.append_assoc]
    | branch c =>
      have hc := down c rest
      simp only
      cases hfound : seekBranch t levels c (⟨b, rest⟩ :: below) with
      | none =>
        rw [hfound] at hc
        rw [show t.branchIds levels c = [] from hc, List.nil_append]
        exact ih
      | some found =>
        rw [hfound] at hc
        refine ⟨hc.1, hc.2.trans ?_⟩
        rw [stackIds, ← hlevels, List.append_assoc]

theorem seekBranch_sought (L : Layout path t) : ∀ {levels : Nat} {b : BranchId}
    {below : List Frame}, levels = hashGroups - below.length →
      t.Sought (t.branchIds levels b) below (seekBranch t levels b below)
  | 0, _, _, _ => rfl
  | levels + 1, b, below, hlevels =>
    seekSlots_sought L (by omega)
      (fun _ _ => seekBranch_sought L (by rw [List.length_cons]; omega)) allNibbles

/-- The search through a stack finds the first chain to which it leads. -/
theorem seek_sought (L : Layout path t) :
    ∀ stack, t.Sought (t.stackIds stack) [] (seek t stack)
  | [] => rfl
  | frame :: below => by
    have hslots : t.Sought _ below (seekSlots t _ frame.branch below frame.rest) :=
      seekSlots_sought L rfl (fun _ _ => seekBranch_sought L (by rw [List.length_cons]; omega)) _
    rw [seek, stackIds]
    cases hfound : seekSlots t (seekBranch t (hashGroups - 1 - below.length)) frame.branch below
        frame.rest with
    | none =>
      rw [hfound] at hslots
      rw [show frame.rest.flatMap _ = [] from hslots, List.nil_append]
      exact seek_sought L below
    | some found =>
      rw [hfound] at hslots
      exact ⟨hslots.1, hslots.2.trans (List.append_nil _).symm⟩

/-- The entry in hand is in the table. -/
def InTable (t : Trie κ ν) (c : Cursor) : Prop := ∀ e, c.pending = some e → e < t.entries.size

theorem yieldEntry_eq (L : Layout path t) {e : EntryId} (he : e < t.entries.size)
    (stack : List Frame) : ∃ c', yieldEntry t stack e = (t.item? e, c') ∧ c'.InTable t ∧
      e :: c'.todo t = t.chain e ++ t.stackIds stack := by
  obtain ⟨x, hx⟩ := entry_of_lt he
  refine ⟨⟨stack, x.next⟩, by rw [yieldEntry, hx, item?_of_entry hx], fun a ha => ?_, ?_⟩
  · exact L.falling.next_lt ((next?_of_entry hx).trans ha)
  · rw [todo, ← next?_of_entry hx, chain_eq_cons L.falling he, List.cons_append]

/-- A step takes the head off what the cursor has in front of it. -/
theorem next_of_todo (L : Layout path t) {c : Cursor} (hc : c.InTable t) {e : EntryId}
    {rest : List EntryId} (htodo : c.todo t = e :: rest) :
    e < t.entries.size ∧ ∃ c', c.next t = (t.item? e, c') ∧ c'.InTable t ∧ c'.todo t = rest := by
  have yielded : ∀ {a : EntryId} {stack : List Frame}, a < t.entries.size →
      t.chain a ++ t.stackIds stack = e :: rest → e < t.entries.size ∧
      ∃ c', yieldEntry t stack a = (t.item? e, c') ∧ c'.InTable t ∧ c'.todo t = rest := by
    intro a stack ha heq
    obtain ⟨c', hy, hin, htail⟩ := yieldEntry_eq L ha stack
    rw [heq, List.cons.injEq] at htail
    obtain ⟨rfl, htail⟩ := htail
    exact ⟨ha, c', hy, hin, htail⟩
  rw [next]
  cases hp : c.pending with
  | some a =>
    refine yielded (hc a hp) ?_
    rw [← htodo, todo, hp]
    rfl
  | none =>
    have hseek := seek_sought L c.stack
    rw [todo, hp, chainOf_none, List.nil_append] at htodo
    rw [htodo] at hseek
    cases hfound : seek t c.stack with
    | none => rw [hfound] at hseek; cases hseek
    | some found =>
      rw [hfound] at hseek
      exact yielded hseek.1 (hseek.2.trans (List.append_nil _))

/-- A cursor with nothing in front of it is at its end. -/
theorem next_of_todo_nil (L : Layout path t) {c : Cursor} (hc : c.InTable t)
    (htodo : c.todo t = []) : c.next t = (none, ⟨[], none⟩) := by
  have hp : c.pending = none := by
    cases hp : c.pending with
    | none => rfl
    | some a =>
      rw [todo, hp, chainOf_some, chain_eq_cons L.falling (hc a hp)] at htodo
      cases htodo
  rw [todo, hp, chainOf_none, List.nil_append] at htodo
  have hseek := seek_sought L c.stack
  rw [next, hp]
  cases hfound : seek t c.stack with
  | none => rfl
  | some found =>
    rw [hfound, htodo] at hseek
    have := hseek.2
    rw [chain_eq_cons L.falling hseek.1] at this
    cases this

/-- A walk at rest yields what the cursor has in front of it. -/
theorem remaining_eq (L : Layout path t) : ∀ {fuel : Nat} {c : Cursor}, c.InTable t →
    (c.todo t).length ≤ fuel → c.remaining t fuel = (c.todo t).filterMap t.item?
  | 0, c, _, hlen => by
    rw [List.length_eq_zero_iff.mp (Nat.le_zero.mp hlen)]
    rfl
  | fuel + 1, c, hc, hlen => by
    rw [remaining]
    cases htodo : c.todo t with
    | nil => rw [next_of_todo_nil L hc htodo]; rfl
    | cons e rest =>
      obtain ⟨he, c', hnext, hin, hrest⟩ := next_of_todo L hc htodo
      obtain ⟨item, hitem⟩ := item?_of_lt he
      rw [hnext, hitem, List.filterMap_cons_some hitem]
      simp only
      rw [remaining_eq L hin (by rw [hrest]; rw [htodo] at hlen; simpa using hlen), hrest]

theorem todo_start (t : Trie κ ν) : start.todo t = t.ids := by
  simp [todo, start, stackIds, ids, hashGroups, branchIds]

end Cursor

/-- The keys and values of a trie are those of its entries. -/
theorem Trie.Layout.toList_eq {κ : Type u} {ν : Type v} {t : Trie κ ν}
    {path : BranchId → List Nibble} (L : Layout path t) :
    t.toList = t.ids.filterMap t.item? := by
  have hlen : (Cursor.start.todo t).length ≤ t.entries.size := by
    rw [Cursor.todo_start]
    exact L.length_ids_le
  rw [toList, Cursor.remaining_eq L (fun e he => by cases he) hlen, Cursor.todo_start]

end NibbleTrie
