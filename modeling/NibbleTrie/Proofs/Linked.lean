/-
Chains, by following links.

`Linked t cur l` says that following the links from `cur` one meets exactly the
entries `l`.  Births fall along every link of a table (`Falling`), also along
the links of entries that are no longer reachable, so from every entry there is
one such list, and the bound in `chain` is never met.

Main statements: `chain` and the two searches are what the list says
(`linked_chain`, `search_eq`, `locateFrom_some`, `locateFrom_none`), and a list
is rebuilt when one of its links is written (`Linked.splice`).
-/
import NibbleTrie.Proofs.Digits
import NibbleTrie.Trie.Chain
import NibbleTrie.Trie.Lemmas

namespace NibbleTrie

namespace Trie

variable {κ : Type u} {ν : Type v} {t t' : Trie κ ν}

/-- Following the links from `cur` one meets the entries `l`, and then nothing. -/
inductive Linked (t : Trie κ ν) : Option EntryId → List EntryId → Prop
  | nil : Linked t none []
  | cons {e : EntryId} {l : List EntryId} : e < t.entries.size → Linked t (t.next? e) l →
      Linked t (some e) (e :: l)

/-- The birth of the entry `e`. -/
def birth (t : Trie κ ν) (e : EntryId) : Nat := (t.entries[e]?.map (·.birth)).getD 0

/-- Links stay in the table and lead to earlier births; a birth is no later than its place. -/
structure Falling (t : Trie κ ν) : Prop where
  next_lt : ∀ {e n : EntryId}, t.next? e = some n → n < t.entries.size
  birth_next : ∀ {e n : EntryId}, t.next? e = some n → t.birth n < t.birth e
  birth_le : ∀ e : EntryId, t.birth e ≤ e

/-- The chain that begins with `cur`, which may be nothing. -/
def chainOf (t : Trie κ ν) (cur : Option EntryId) : List EntryId := (cur.map t.chain).getD []

/-- The chain in a slot. -/
def chainAt (t : Trie κ ν) (b : BranchId) (i : Nibble) : List EntryId :=
  t.chainOf (t.slot b i).head?

@[simp] theorem chainOf_none : t.chainOf none = [] := rfl

@[simp] theorem chainOf_some (e : EntryId) : t.chainOf (some e) = t.chain e := rfl

theorem chainAt_of_empty {b : BranchId} {i : Nibble} (hs : t.slot b i = .empty) :
    t.chainAt b i = [] := by
  rw [chainAt, hs]; rfl

theorem chainAt_of_branch {b c : BranchId} {i : Nibble} (hs : t.slot b i = .branch c) :
    t.chainAt b i = [] := by
  rw [chainAt, hs]; rfl

theorem chainAt_of_chain {b : BranchId} {i : Nibble} {e : EntryId} (hs : t.slot b i = .chain e) :
    t.chainAt b i = t.chain e := by
  rw [chainAt, hs]; rfl

/-- Only a slot with a head has a chain with an entry. -/
theorem slot_of_mem_chainAt {b : BranchId} {i : Nibble} {e : EntryId} (he : e ∈ t.chainAt b i) :
    ∃ head, t.slot b i = .chain head := by
  cases hs : t.slot b i with
  | empty => rw [chainAt_of_empty hs] at he; cases he
  | branch _ => rw [chainAt_of_branch hs] at he; cases he
  | chain head => exact ⟨head, rfl⟩

theorem next?_of_entry {e : EntryId} {x : Entry κ ν} (hx : t.entries[e]? = some x) :
    t.next? e = x.next := by
  simp [next?, hx]

theorem birth_of_entry {e : EntryId} {x : Entry κ ν} (hx : t.entries[e]? = some x) :
    t.birth e = x.birth := by
  simp [birth, hx]

theorem lt_of_entry {e : EntryId} {x : Entry κ ν} (hx : t.entries[e]? = some x) :
    e < t.entries.size :=
  (Array.getElem?_eq_some_iff.mp hx).1

theorem entry_of_lt {e : EntryId} (he : e < t.entries.size) : ∃ x, t.entries[e]? = some x :=
  ⟨t.entries[e], Array.getElem?_eq_getElem he⟩

namespace Linked

theorem unique {cur : Option EntryId} {l l' : List EntryId} (h : t.Linked cur l)
    (h' : t.Linked cur l') : l = l' := by
  induction h generalizing l' with
  | nil => cases h'; rfl
  | cons _ _ ih => cases h' with | cons _ h' => rw [ih h']

theorem lt_size {cur : Option EntryId} {l : List EntryId} (h : t.Linked cur l) :
    ∀ e ∈ l, e < t.entries.size := by
  induction h with
  | nil => exact fun _ h => absurd h List.not_mem_nil
  | cons he _ ih =>
    intro e' h'
    rcases List.mem_cons.mp h' with rfl | h'
    · exact he
    · exact ih e' h'

theorem head_lt {cur : Option EntryId} {l : List EntryId} (h : t.Linked cur l) {e : EntryId}
    (he : cur = some e) : e < t.entries.size := by
  cases h with
  | nil => cases he
  | cons hlt _ => exact Option.some.inj he ▸ hlt

/-- A list of links is not touched by writes to other links. -/
theorem frame {cur : Option EntryId} {l : List EntryId} (h : t.Linked cur l)
    (hsize : t.entries.size ≤ t'.entries.size) (hsame : ∀ e ∈ l, t'.next? e = t.next? e) :
    t'.Linked cur l := by
  induction h with
  | nil => exact .nil
  | cons he _ ih =>
    refine .cons (Nat.lt_of_lt_of_le he hsize) ?_
    rw [hsame _ List.mem_cons_self]
    exact ih fun e' h' => hsame e' (List.mem_cons_of_mem _ h')

/-- From an entry of the list on, the rest of the list is met. -/
theorem suffix {l₁ l₂ : List EntryId} {e : EntryId} :
    ∀ {cur : Option EntryId}, t.Linked cur (l₁ ++ e :: l₂) → t.Linked (some e) (e :: l₂) := by
  induction l₁ with
  | nil => intro cur h; cases h with | cons he h => exact .cons he h
  | cons a l₁ ih => intro cur h; cases h with | cons _ h => exact ih h

theorem tail {e : EntryId} {l : List EntryId} (h : t.Linked (some e) (e :: l)) :
    t.Linked (t.next? e) l := by
  cases h with | cons _ h => exact h

/-- If only links of `e` and of entries off the list are written, then what is met behind `e` is
what its new link leads to. -/
theorem splice {l₁ l₂ l' : List EntryId} {e : EntryId}
    (hsize : t.entries.size ≤ t'.entries.size) (hl' : t'.Linked (t'.next? e) l') :
    ∀ {cur : Option EntryId}, (∀ a ∈ l₁, t'.next? a = t.next? a) →
      t.Linked cur (l₁ ++ e :: l₂) → t'.Linked cur (l₁ ++ e :: l') := by
  induction l₁ with
  | nil =>
    intro cur _ h
    cases h with | cons he _ => exact .cons (Nat.lt_of_lt_of_le he hsize) hl'
  | cons a l₁ ih =>
    intro cur hsame h
    cases h with
    | cons ha h =>
      refine .cons (Nat.lt_of_lt_of_le ha hsize) ?_
      rw [hsame a List.mem_cons_self]
      exact ih (fun a' h' => hsame a' (List.mem_cons_of_mem _ h')) h

end Linked

namespace Falling

/-- Behind an entry all births are earlier than its own. -/
theorem birth_lt (hf : t.Falling) {cur : Option EntryId} {l : List EntryId}
    (h : t.Linked cur l) : ∀ {e : EntryId}, t.next? e = cur → ∀ a ∈ l, t.birth a < t.birth e := by
  induction h with
  | nil => exact fun _ _ h => absurd h List.not_mem_nil
  | cons _ _ ih =>
    intro e hcur a ha
    have hlt := hf.birth_next hcur
    rcases List.mem_cons.mp ha with rfl | ha
    · exact hlt
    · exact Nat.lt_trans (ih rfl a ha) hlt

/-- No birth in a chain is later than that of its head. -/
theorem birth_le_head (hf : t.Falling) {a : EntryId} {l : List EntryId}
    (h : t.Linked (some a) l) : ∀ e ∈ l, t.birth e ≤ t.birth a := by
  cases h with
  | cons _ h =>
    intro e he
    rcases List.mem_cons.mp he with rfl | he
    · exact Nat.le_refl _
    · exact Nat.le_of_lt (hf.birth_lt h rfl e he)

/-- Along a chain births strictly fall. -/
theorem pairwise (hf : t.Falling) {cur : Option EntryId} {l : List EntryId}
    (h : t.Linked cur l) : l.Pairwise fun a b => t.birth b < t.birth a := by
  induction h with
  | nil => exact .nil
  | cons _ h ih => exact .cons (hf.birth_lt h rfl) ih

theorem nodup (hf : t.Falling) {cur : Option EntryId} {l : List EntryId}
    (h : t.Linked cur l) : l.Nodup := by
  refine (hf.pairwise h).imp ?_
  rintro a b hlt rfl
  exact Nat.lt_irrefl _ hlt

theorem exists_linked (hf : t.Falling) {e : EntryId} (he : e < t.entries.size) :
    ∃ l, t.Linked (some e) l ∧ l.length ≤ t.birth e + 1 := by
  induction hb : t.birth e using Nat.strongRecOn generalizing e with
  | ind n ih =>
    cases hn : t.next? e with
    | none => exact ⟨[e], .cons he (hn ▸ .nil), by simp⟩
    | some a =>
      have hlt := hf.birth_next hn
      obtain ⟨l, hl, hlen⟩ := ih _ (hb ▸ hlt) (hf.next_lt hn) rfl
      exact ⟨e :: l, .cons he (hn ▸ hl), by simp only [List.length_cons]; omega⟩

end Falling

/-! ## The chain functions -/

theorem chainFrom_eq {cur : Option EntryId} {l : List EntryId} (h : t.Linked cur l) :
    ∀ {fuel : Nat}, l.length ≤ fuel → t.chainFrom fuel cur = l := by
  induction h with
  | nil => intro fuel _; cases fuel <;> rfl
  | cons _ _ ih =>
    intro fuel hlen
    cases fuel with
    | zero => simp at hlen
    | succ fuel => rw [chainFrom, ih (by simpa using hlen)]

theorem chainBound_eq {e : EntryId} (he : e < t.entries.size) :
    t.chainBound e = t.birth e + 1 := by
  simp [chainBound, birth, he]

theorem linked_chain (hf : t.Falling) {e : EntryId} (he : e < t.entries.size) :
    t.Linked (some e) (t.chain e) := by
  obtain ⟨l, hl, hlen⟩ := hf.exists_linked he
  have : t.chain e = l := by
    rw [chain, chainBound_eq he]
    exact chainFrom_eq hl hlen
  exact this ▸ hl

theorem linked_chainOf (hf : t.Falling) {cur : Option EntryId}
    (hcur : ∀ e, cur = some e → e < t.entries.size) : t.Linked cur (t.chainOf cur) := by
  cases cur with
  | none => exact .nil
  | some e => exact linked_chain hf (hcur e rfl)

theorem linked_chainOf_next (hf : t.Falling) (e : EntryId) :
    t.Linked (t.next? e) (t.chainOf (t.next? e)) :=
  linked_chainOf hf fun _ h => hf.next_lt h

/-- A chain is its head and the chain behind it. -/
theorem chain_eq_cons (hf : t.Falling) {e : EntryId} (he : e < t.entries.size) :
    t.chain e = e :: t.chainOf (t.next? e) :=
  (linked_chain hf he).unique (.cons he (linked_chainOf_next hf e))

theorem mem_chain_self (hf : t.Falling) {e : EntryId} (he : e < t.entries.size) :
    e ∈ t.chain e := by
  rw [chain_eq_cons hf he]
  exact List.mem_cons_self

theorem length_chain_le (hf : t.Falling) {e : EntryId} (he : e < t.entries.size) :
    (t.chain e).length ≤ t.chainBound e := by
  obtain ⟨l, hl, hlen⟩ := hf.exists_linked he
  rw [(linked_chain hf he).unique hl, chainBound_eq he]
  exact hlen

/-- A chain is the same in a trie with the same links along it. -/
theorem chain_frame (hf : t.Falling) (hf' : t'.Falling) {e : EntryId} (he : e < t.entries.size)
    (hsize : t.entries.size ≤ t'.entries.size) (hsame : ∀ a ∈ t.chain e, t'.next? a = t.next? a) :
    t'.chain e = t.chain e :=
  (linked_chain hf' (Nat.lt_of_lt_of_le he hsize)).unique
    ((linked_chain hf he).frame hsize hsame)

/-! ## The searches -/

section Search
variable [BEq κ]

/-- True of an entry with key `k` and an accepted value. -/
def hit (t : Trie κ ν) (k : κ) (accept : ν → Bool) (e : EntryId) : Bool :=
  t.entries[e]?.any fun x => x.key == k && accept x.value

theorem hit_of_entry {k : κ} {accept : ν → Bool} {e : EntryId} {x : Entry κ ν}
    (hx : t.entries[e]? = some x) : t.hit k accept e = (x.key == k && accept x.value) := by
  simp [hit, hx]

theorem searchFrom_eq {k : κ} {accept : ν → Bool} {cur : Option EntryId} {l : List EntryId}
    (h : t.Linked cur l) : ∀ {fuel : Nat}, l.length ≤ fuel →
      t.searchFrom k accept fuel cur =
        (l.find? (t.hit k accept)).bind fun e => t.entries[e]?.map fun x => (e, x) := by
  induction h with
  | nil => intro fuel _; cases fuel <;> rfl
  | @cons e l he _ ih =>
    intro fuel hlen
    cases fuel with
    | zero => simp at hlen
    | succ fuel =>
      obtain ⟨x, hx⟩ := entry_of_lt he
      have hih := ih (Nat.le_of_succ_le_succ (List.length_cons ▸ hlen))
      rw [next?_of_entry hx] at hih
      simp only [searchFrom, hx]
      by_cases hhit : (x.key == k && accept x.value) = true
      · rw [List.find?_cons_of_pos (by rw [hit_of_entry hx]; exact hhit)]
        simp [hhit, hx]
      · rw [List.find?_cons_of_neg (by rw [hit_of_entry hx]; exact hhit), ← hih]
        simp [hhit]

/-- The search from an entry in hand finds the first hit of its chain. -/
theorem search_eq (hf : t.Falling) {k : κ} {accept : ν → Bool} {head : EntryId}
    (he : head < t.entries.size) :
    t.search head k accept =
      ((t.chain head).find? (t.hit k accept)).bind fun e => t.entries[e]?.map fun x => (e, x) :=
  searchFrom_eq (linked_chain hf he) (length_chain_le hf he)

theorem of_search_some (hf : t.Falling) {k : κ} {accept : ν → Bool} {head e : EntryId}
    {x : Entry κ ν} (he : head < t.entries.size) (h : t.search head k accept = some (e, x)) :
    e ∈ t.chain head ∧ t.entries[e]? = some x ∧ (x.key == k) = true ∧ accept x.value = true := by
  rw [search_eq hf he, Option.bind_eq_some_iff] at h
  obtain ⟨a, ha, hx⟩ := h
  obtain ⟨y, hy, heq⟩ := Option.map_eq_some_iff.mp hx
  cases heq
  have hhit := List.find?_some ha
  rw [hit_of_entry hy, Bool.and_eq_true] at hhit
  exact ⟨List.mem_of_find?_eq_some ha, hy, hhit⟩

theorem of_search_none (hf : t.Falling) {k : κ} {accept : ν → Bool} {head : EntryId}
    (he : head < t.entries.size) (h : t.search head k accept = none) :
    ∀ e ∈ t.chain head, t.hit k accept e = false := by
  intro e hmem
  rw [search_eq hf he, Option.bind_eq_none_iff] at h
  cases hfind : (t.chain head).find? (t.hit k accept) with
  | none => simpa using List.find?_eq_none.mp hfind e hmem
  | some a =>
    have ha := (linked_chain hf he).lt_size a (List.mem_of_find?_eq_some hfind)
    obtain ⟨x, hx⟩ := entry_of_lt ha
    have := h a hfind
    rw [hx] at this
    cases this

/-- The link behind the entries `l₁` of a chain that `link` leads to. -/
def linkAfter (link : Link) (l₁ : List EntryId) : Link := (l₁.getLast?.map Link.next).getD link

theorem linkAfter_concat (link : Link) (l₁ : List EntryId) (e : EntryId) :
    linkAfter link (l₁ ++ [e]) = .next e := by
  simp [linkAfter]

theorem linkAfter_cons (link : Link) (l₁ : List EntryId) (e : EntryId) :
    linkAfter link (e :: l₁) = linkAfter (.next e) l₁ := by
  cases l₁ <;> simp [linkAfter, List.getLast?_cons]

/-- The search from a slot finds the first hit, and the link that leads to it. -/
theorem locateFrom_some {k : κ} {accept : ν → Bool} {cur : Option EntryId} {l : List EntryId}
    {x : Placed κ ν} (h : t.Linked cur l) : ∀ {fuel : Nat} {link : Link},
      t.locateFrom k accept fuel link cur = some x →
        ∃ l₁ l₂, l = l₁ ++ x.id :: l₂ ∧ t.entries[x.id]? = some x.entry ∧
          (x.entry.key == k) = true ∧ accept x.entry.value = true ∧
          (∀ a ∈ l₁, t.hit k accept a = false) ∧ x.link = linkAfter link l₁ := by
  induction h with
  | nil => intro fuel link hx; cases fuel <;> simp [locateFrom] at hx
  | @cons e l he _ ih =>
    intro fuel link hx
    cases fuel with
    | zero => simp [locateFrom] at hx
    | succ fuel =>
      obtain ⟨y, hy⟩ := entry_of_lt he
      simp only [locateFrom, hy] at hx
      by_cases hhit : (y.key == k && accept y.value) = true
      · rw [if_pos hhit, Option.some.injEq] at hx
        subst hx
        obtain ⟨hk, ha⟩ := Bool.and_eq_true_iff.mp hhit
        exact ⟨[], l, rfl, hy, hk, ha, fun _ h => absurd h List.not_mem_nil, rfl⟩
      · rw [if_neg hhit] at hx
        rw [next?_of_entry hy] at ih
        obtain ⟨l₁, l₂, rfl, hent, hk, ha, hmiss, hlink⟩ := ih hx
        refine ⟨e :: l₁, l₂, rfl, hent, hk, ha, ?_, by rw [hlink, linkAfter_cons]⟩
        intro a hmem
        rcases List.mem_cons.mp hmem with rfl | hmem
        · rw [hit_of_entry hy]; simpa using hhit
        · exact hmiss a hmem

theorem locateFrom_none {k : κ} {accept : ν → Bool} {cur : Option EntryId} {l : List EntryId}
    (h : t.Linked cur l) : ∀ {fuel : Nat} {link : Link}, l.length ≤ fuel →
      t.locateFrom k accept fuel link cur = none → ∀ a ∈ l, t.hit k accept a = false := by
  induction h with
  | nil => exact fun _ _ _ h => absurd h List.not_mem_nil
  | @cons e l he _ ih =>
    intro fuel link hlen hx
    cases fuel with
    | zero => simp at hlen
    | succ fuel =>
      obtain ⟨y, hy⟩ := entry_of_lt he
      simp only [locateFrom, hy] at hx
      by_cases hhit : (y.key == k && accept y.value) = true
      · rw [if_pos hhit] at hx
        cases hx
      · rw [if_neg hhit] at hx
        rw [next?_of_entry hy] at ih
        intro a hmem
        rcases List.mem_cons.mp hmem with rfl | hmem
        · rw [hit_of_entry hy]; simpa using hhit
        · exact ih (by simpa using hlen) hx a hmem

/-- The search in a slot that leads to `l` finds the first hit of `l`, and the link that leads to
it. -/
theorem Linked.locate_some {site : Site} {k : κ} {accept : ν → Bool} {l : List EntryId}
    {x : Placed κ ν} (h : t.Linked (t.slot site.branch site.index).head? l)
    (hx : t.locate site k accept = .ok (some x)) :
    ∃ l₁ l₂, l = l₁ ++ x.id :: l₂ ∧ t.entries[x.id]? = some x.entry ∧
      (x.entry.key == k) = true ∧ accept x.entry.value = true ∧
      (∀ a ∈ l₁, t.hit k accept a = false) ∧
      x.link = linkAfter (.slot site.branch site.index) l₁ := by
  cases hs : t.slot site.branch site.index with
  | empty => simp [locate, hs] at hx
  | branch _ => simp [locate, hs] at hx
  | chain head =>
    rw [hs] at h
    simp only [locate, hs, Except.ok.injEq] at hx
    exact locateFrom_some h hx

end Search

end Trie

end NibbleTrie
