/-
A finite map, as a list.

The content of a map is a list of keys and values in which no two keys are
equal; its order means nothing.  This module says of every operation what it
answers and what it leaves behind, in terms of the content alone: which entry is
the one of a key, what an operation decides when it sees that entry
(`Probe.judge`), and what it then does to it (`Edit`).

Main statement: the entry of a key does not depend on the order
(`Content.lookup?_perm`).
-/
import Mathlib.Data.List.Pairwise
import Mathlib.Data.List.Perm.Basic
import NibbleTrie.Map.Operation

namespace NibbleTrie

/-- Keys and values. -/
abbrev Content (κ : Type u) (ν : Type v) := List (κ × ν)

/-- What an operation does to the entry of its key. -/
inductive Edit (κ : Type u) (ν : Type v) where
  /-- Nothing. -/
  | keep
  /-- Removes it. -/
  | remove
  /-- Puts a key and a value in its place. -/
  | put (key : κ) (value : ν)

/-- What a probe answers, and does, if `found` is the entry of its key. -/
def Probe.judge {κ : Type u} {ν : Type v} [BEq ν] (p : Probe κ ν) (found : Option (κ × ν)) :
    Except Fault (Reply κ ν) × Edit κ ν :=
  match p, found with
  | .get? _, found => (.ok (.value? (found.map (·.2))), .keep)
  | .contains _, found => (.ok (.flag found.isSome), .keep)
  | .getOrInsert _ _, some e => (.ok (.kept e.2 true), .keep)
  | .getOrInsert k v, none => (.ok (.kept v false), .put k v)
  | .getOrBuild _ _, some e => (.ok (.kept e.2 true), .keep)
  | .getOrBuild _ (.error message), none => (.error (.builder message), .keep)
  | .getOrBuild k (.ok v), none => (.ok (.kept v false), .put k v)
  | .pop? _, some e => (.ok (.value? (some e.2)), .remove)
  | .pop? _, none => (.ok (.value? none), .keep)
  | .erase _, some _ => (.ok (.flag true), .remove)
  | .erase _, none => (.ok (.flag false), .keep)
  | .compareAndSwap _ old new, some e =>
    if e.2 == old then (.ok (.flag true), .put e.1 new) else (.ok (.flag false), .keep)
  | .compareAndSwap _ _ _, none => (.ok (.flag false), .keep)
  | .compareAndErase _ old, some e =>
    if e.2 == old then (.ok (.flag true), .remove) else (.ok (.flag false), .keep)
  | .compareAndErase _ _, none => (.ok (.flag false), .keep)

namespace Content

variable {κ : Type u} {ν : Type v} [BEq κ] {l l' l₁ l₂ new : Content κ ν} {e : κ × ν} {k : κ}

/-- The entry of a key: the kept key and the value. -/
def lookup? (l : Content κ ν) (k : κ) : Option (κ × ν) := l.find? fun e => e.1 == k

/-- The content without the entry of a key. -/
def without (l : Content κ ν) (k : κ) : Content κ ν := l.filter fun e => !(e.1 == k)

/-- The content after an edit of the entry of `k`. -/
def edit (l : Content κ ν) (k : κ) : Edit κ ν → Content κ ν
  | .keep => l
  | .remove => without l k
  | .put k' v => (k', v) :: without l k

/-- The content after an entry is stored. -/
def store (l : Content κ ν) (e : κ × ν) : Content κ ν := edit l e.1 (.put e.1 e.2)

/-- What an operation answers on some content, and the content it leaves. -/
def apply [BEq ν] (l : Content κ ν) : Op κ ν → Except Fault (Reply κ ν) × Content κ ν
  | .probe p =>
    let verdict := p.judge (lookup? l p.key)
    (verdict.1, edit l p.key verdict.2)
  | .insert k v => (.ok .done, store l (k, v))
  | .swap k v => (.ok (.value? ((lookup? l k).map (·.2))), store l (k, v))
  | .insertNew k v =>
    match lookup? l k with
    | some e => (.ok (.inserted (.error ⟨k, v, e.2⟩)), l)
    | none => (.ok (.inserted (.ok ())), store l (k, v))
  | .insertMany entries => (.ok .done, entries.foldl store l)
  | .clear => (.ok .done, [])
  | .size => (.ok (.count l.length), l)
  | .isEmpty => (.ok (.flag l.isEmpty), l)

/-- The answers of operations one after another, and the content they leave. -/
def run [BEq ν] (l : Content κ ν) : List (Op κ ν) →
    List (Except Fault (Reply κ ν)) × Content κ ν
  | [] => ([], l)
  | op :: ops =>
    let after := apply l op
    (after.1 :: (run after.2 ops).1, (run after.2 ops).2)

/-- No two keys are equal. -/
def Distinct (l : Content κ ν) : Prop := l.Pairwise fun a b => (a.1 == b.1) = false

theorem lookup?_eq_none (h : ∀ e ∈ l, (e.1 == k) = false) : lookup? l k = none :=
  List.find?_eq_none.mpr fun e he => by simp [h e he]

theorem of_lookup?_eq_some {e : κ × ν} (h : lookup? l k = some e) : e ∈ l ∧ (e.1 == k) = true := by
  rw [lookup?] at h
  exact ⟨List.mem_of_find?_eq_some h, by simpa using List.find?_some h⟩

theorem of_lookup?_eq_none (h : lookup? l k = none) : ∀ e ∈ l, (e.1 == k) = false := fun e he => by
  simpa using List.find?_eq_none.mp h e he

theorem without_eq_self (h : ∀ e ∈ l, (e.1 == k) = false) : without l k = l :=
  List.filter_eq_self.mpr fun e he => by simp [h e he]

theorem without_perm (h : l.Perm l') (k : κ) : (without l k).Perm (without l' k) := h.filter _

theorem lookup?_append : lookup? (l₁ ++ l₂) k = (lookup? l₁ k).or (lookup? l₂ k) :=
  List.find?_append

theorem lookup?_append_without : lookup? (l₁ ++ without l₂ k) k = lookup? l₁ k := by
  have hnone : lookup? (without l₂ k) k = none := lookup?_eq_none fun a ha => by
    simpa using (List.mem_filter.mp ha).2
  rw [lookup?_append, hnone, Option.or_none]

/-- What stands in the place of the entry of another key does not matter. -/
theorem lookup?_exchange_ne (hk : ¬(e.1 == k) = true) (hnew : ∀ a ∈ new, ¬(a.1 == k) = true) :
    lookup? (l₁ ++ (new ++ l₂)) k = lookup? (l₁ ++ e :: l₂) k := by
  have h : lookup? new k = none := lookup?_eq_none fun a ha => by simpa using hnew a ha
  have h' : lookup? [e] k = none := lookup?_eq_none fun a ha => by
    rw [List.mem_singleton.mp ha]; simpa using hk
  rw [← List.singleton_append]
  simp only [lookup?_append, h, h']

variable [EquivBEq κ]

instance : Std.Symm fun a b : κ × ν => (a.1 == b.1) = false := ⟨fun _ _ h => BEq.comm.trans h⟩

theorem Distinct.perm (h : Distinct l) (hp : l.Perm l') : Distinct l' :=
  (hp.pairwise_iff fun h => BEq.comm.trans h).mp h

/-- In distinct content a key is found once at most. -/
theorem Distinct.countP_le_one (hl : Distinct l) (k : κ) : l.countP (fun e => e.1 == k) ≤ 1 := by
  induction l with
  | nil => exact Nat.zero_le 1
  | cons e l ih =>
    obtain ⟨he, hl⟩ := List.pairwise_cons.mp hl
    by_cases hk : (e.1 == k) = true
    · have hnone : l.countP (fun a => a.1 == k) = 0 := by
        refine List.countP_eq_zero.mpr fun a ha => ?_
        rw [← BEq.congr_right hk, BEq.comm, he a ha]
        exact Bool.false_ne_true
      exact Nat.le_of_eq (by rw [List.countP_cons, if_pos hk, hnone])
    · rw [List.countP_cons, if_neg hk]
      exact ih hl

/-- In distinct content an entry with an equal key is the entry of a key. -/
theorem lookup?_eq_some (hl : Distinct l) {e : κ × ν} (he : e ∈ l) (hk : (e.1 == k) = true) :
    lookup? l k = some e := by
  cases hfind : lookup? l k with
  | none =>
    rw [of_lookup?_eq_none hfind e he] at hk
    cases hk
  | some a =>
    obtain ⟨ha, hak⟩ := of_lookup?_eq_some hfind
    by_contra hne
    have hae : a ≠ e := fun h => hne (by rw [h])
    have := hl.forall ha he hae
    rw [BEq.congr_left hak, BEq.comm, hk] at this
    cases this

/-- The entry of a key does not depend on the order. -/
theorem lookup?_perm (hl : Distinct l) (hp : l.Perm l') (k : κ) : lookup? l k = lookup? l' k := by
  cases hfind : lookup? l k with
  | none =>
    exact (lookup?_eq_none fun e he => of_lookup?_eq_none hfind e (hp.mem_iff.mpr he)).symm
  | some e =>
    obtain ⟨he, hk⟩ := of_lookup?_eq_some hfind
    exact (lookup?_eq_some (hl.perm hp) (hp.mem_iff.mp he) hk).symm

/-- What is left without a key whose entry is known. -/
theorem without_cons_perm {e : κ × ν} {rest : Content κ ν} (hl : Distinct l)
    (hp : l.Perm (e :: rest)) (hk : (e.1 == k) = true) : (without l k).Perm rest := by
  have hd := List.pairwise_cons.mp (hl.perm hp)
  have hrest : ∀ a ∈ rest, (a.1 == k) = false := by
    intro a ha
    rw [← hd.1 a ha, BEq.comm (a := a.1)]
    exact (BEq.congr_left hk).symm
  refine (without_perm hp k).trans (List.Perm.of_eq ?_)
  rw [without, List.filter_cons_of_neg (by simp [hk])]
  exact without_eq_self hrest

/-- What stands in the place of the one entry of a key decides about the key. -/
theorem lookup?_exchange (hl : Distinct (l₁ ++ e :: l₂)) (hk : (e.1 == k) = true) :
    lookup? (l₁ ++ (new ++ l₂)) k = lookup? new k := by
  obtain ⟨_, hright, hcross⟩ := List.pairwise_append.mp hl
  have h₁ : lookup? l₁ k = none := lookup?_eq_none fun a ha => by
    rw [← BEq.congr_right hk]
    exact hcross a ha e List.mem_cons_self
  have h₂ : lookup? l₂ k = none := lookup?_eq_none fun a ha => by
    rw [← BEq.congr_right hk, BEq.comm]
    exact (List.pairwise_cons.mp hright).1 a ha
  rw [lookup?_append, lookup?_append, h₁, h₂, Option.none_or, Option.or_none]

end Content

end NibbleTrie
