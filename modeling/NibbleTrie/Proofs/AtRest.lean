/-
Walks of a trie at rest.

A sweep goes down by recursion, and what the callback answers has to come up
through every level; a cursor has a stack and the entry in hand.  While nobody
writes to the trie both go through one list: a sweep calls its callback along
it until the callback answers false (`Trie.callAll`), and the answers of a
cursor are its members one by one, and then nothing for ever.

Main statement: `Instant.Reachable.walks_agree`.
-/
import NibbleTrie.Proofs.Isolation

namespace NibbleTrie

variable {κ : Type u} {ν : Type v} {σ : Type w}

namespace Trie

/-- Calls `f` along a list until it answers false.  The answer is false if it did. -/
def callAll (f : κ → ν → σ → Bool × σ) : List (κ × ν) → σ → Bool × σ
  | [], s => (true, s)
  | (k, v) :: rest, s =>
    match f k v s with
    | (false, s) => (false, s)
    | (true, s) => callAll f rest s

/-- The calls of `f` along a list, up to and including the first one that answers false, each
with the state in which it is made. -/
def calls (f : κ → ν → σ → Bool × σ) : List (κ × ν) → σ → List ((κ × ν) × σ)
  | [], _ => []
  | (k, v) :: rest, s =>
    ((k, v), s) :: match f k v s with
      | (false, _) => []
      | (true, s) => calls f rest s

section Lists
variable {f : κ → ν → σ → Bool × σ}

theorem callAll_append (l₁ l₂ : List (κ × ν)) (s : σ) :
    callAll f (l₁ ++ l₂) s = match callAll f l₁ s with
      | (false, s) => (false, s)
      | (true, s) => callAll f l₂ s := by
  induction l₁ generalizing s with
  | nil => rfl
  | cons item l₁ ih =>
    obtain ⟨k, v⟩ := item
    rw [List.cons_append, callAll, callAll]
    rcases f k v s with ⟨_ | _, s₁⟩
    · rfl
    · exact ih s₁

/-- The notes of a callback are its calls. -/
theorem callAll_recording (l : List (κ × ν)) (s : σ) (notes : List ((κ × ν) × σ)) :
    callAll (recording f) l (s, notes) =
      ((callAll f l s).1, ((callAll f l s).2, notes ++ calls f l s)) := by
  induction l generalizing s notes with
  | nil => simp [callAll, calls]
  | cons item l ih =>
    obtain ⟨k, v⟩ := item
    rw [callAll, callAll, calls, recording]
    rcases f k v s with ⟨_ | _, s₁⟩
    · rfl
    · exact (ih s₁ _).trans (by rw [List.append_assoc, List.singleton_append])

end Lists

/-! ## Sweeps -/

section AtRest
variable {t : Trie κ ν} {path : BranchId → List Nibble} {view : σ → Trie κ ν}
  {f : κ → ν → σ → Bool × σ}

/-- The callback does not touch the trie. -/
def LeavesAlone (t : Trie κ ν) (view : σ → Trie κ ν) (f : κ → ν → σ → Bool × σ) : Prop :=
  ∀ k v s, view s = t → view (f k v s).2 = t

theorem LeavesAlone.recording (hf : LeavesAlone t view f) :
    LeavesAlone t (view ∘ Prod.fst) (recording f) :=
  fun k v s hs => hf k v s.1 hs

variable (hf : LeavesAlone t view f)
include hf

theorem LeavesAlone.callAll (l : List (κ × ν)) {s : σ} (hs : view s = t) :
    view (callAll f l s).2 = t := by
  induction l generalizing s with
  | nil => exact hs
  | cons item l ih =>
    obtain ⟨k, v⟩ := item
    have hcall := hf k v s hs
    rw [Trie.callAll]
    generalize f k v s = r at hcall ⊢
    obtain ⟨_ | _, s₁⟩ := r
    · exact hcall
    · exact ih hcall

/-- A sweep of a chain calls the callback along it. -/
theorem LeavesAlone.sweepChain_eq : ∀ {fuel : Nat} {cur : Option EntryId} {l : List EntryId}
    {s : σ}, t.Linked cur l → l.length ≤ fuel → view s = t →
      sweepChain view f fuel cur s = Trie.callAll f (l.filterMap t.item?) s
  | 0, _, _, _, .nil, _, _ => rfl
  | _ + 1, _, _, _, .nil, _, _ => rfl
  | fuel + 1, some e, _ :: l, s, .cons he htail, hlen, hs => by
    obtain ⟨x, hx⟩ := entry_of_lt he
    have hcall := hf x.key x.value s hs
    rw [sweepChain, hs, hx, List.filterMap_cons_some (item?_of_entry hx), Trie.callAll]
    dsimp only
    generalize f x.key x.value s = r at hcall ⊢
    obtain ⟨_ | _, s₁⟩ := r
    · rfl
    · have hs₁ : view s₁ = t := hcall
      dsimp only
      rw [hs₁]
      exact sweepChain_eq htail (Nat.le_of_succ_le_succ hlen) hs₁

variable (L : Layout path t)
include L

theorem LeavesAlone.sweepSlots_eq {down : BranchId → σ → Bool × σ}
    {below : BranchId → List EntryId}
    (hdown : ∀ c s, view s = t → down c s = Trie.callAll f ((below c).filterMap t.item?) s)
    (b : BranchId) : ∀ (rest : List Nibble) {s : σ}, view s = t →
      sweepSlots view f down b rest s =
        Trie.callAll f ((rest.flatMap (t.slotIds below b)).filterMap t.item?) s
  | [], _, _ => rfl
  | i :: rest, s, hs => by
    have hkept := hf.callAll ((t.slotIds below b i).filterMap t.item?) hs
    rw [List.flatMap_cons, List.filterMap_append, callAll_append]
    -- the calls in the slot, and those in the rest of the slots after them
    have goes : ∀ {r : Bool × σ}, r = Trie.callAll f ((t.slotIds below b i).filterMap t.item?) s →
        (match r with
          | (false, s) => (false, s)
          | (true, s) => sweepSlots view f down b rest s) =
        match Trie.callAll f ((t.slotIds below b i).filterMap t.item?) s with
          | (false, s) => (false, s)
          | (true, s) =>
            Trie.callAll f ((rest.flatMap (t.slotIds below b)).filterMap t.item?) s := by
      rintro r hr
      rw [← hr] at hkept ⊢
      obtain ⟨_ | _, s₁⟩ := r
      · rfl
      · exact sweepSlots_eq hdown b rest hkept
    rw [sweepSlots, hs]
    refine goes ?_
    rw [slotIds]
    cases hslot : t.slot b i with
    | empty => rfl
    | chain head =>
      have hlt := L.head_lt hslot
      exact hf.sweepChain_eq (linked_chain L.falling hlt) (length_chain_le L.falling hlt) hs
    | branch c => exact hdown c s hs

theorem LeavesAlone.sweepBranch_eq : ∀ (levels : Nat) (b : BranchId) {s : σ}, view s = t →
    sweepBranch view f levels b s =
      Trie.callAll f ((t.branchIds levels b).filterMap t.item?) s
  | 0, _, _, _ => rfl
  | levels + 1, b, _, hs =>
    hf.sweepSlots_eq L (fun c _ hs => sweepBranch_eq levels c hs) b allNibbles hs

/-- A sweep calls its callback along the list of the trie. -/
theorem LeavesAlone.sweep_eq {s : σ} (hs : view s = t) :
    sweep view f s = (Trie.callAll f t.toList s).2 := by
  rw [sweep, hf.sweepBranch_eq L hashGroups root hs, L.toList_eq]
  rfl

/-- What a sweep shows, and the states in which it does, are the calls along that list. -/
theorem LeavesAlone.sightings_eq {s : σ} (hs : view s = t) :
    sightings view f s = calls f t.toList s := by
  have hs' : (view ∘ Prod.fst) (s, ([] : List ((κ × ν) × σ))) = t := hs
  rw [sightings, hf.recording.sweep_eq L hs', callAll_recording]
  rfl

end AtRest

end Trie

/-! ## Cursors -/

namespace Cursor

open Trie

variable {t : Trie κ ν} {path : BranchId → List Nibble}

/-- A cursor at its end answers nothing any more. -/
theorem steps_end (t : Trie κ ν) (n : Nat) :
    ((⟨[], none⟩ : Cursor).steps t n).1 = List.replicate n none := by
  induction n with
  | zero => rfl
  | succ n ih => exact congrArg (List.cons none) ih

/-- The answers of a cursor are the entries that it has in front of it, one by one. -/
theorem steps_eq (L : Layout path t) : ∀ (n : Nat) {c : Cursor}, c.InTable t →
    (c.steps t n).1 = (List.range n).map fun i => ((c.todo t).filterMap t.item?)[i]?
  | 0, _, _ => rfl
  | n + 1, c, hc => by
    rw [List.range_succ_eq_map, List.map_cons, List.map_map, steps]
    cases htodo : c.todo t with
    | nil =>
      rw [next_of_todo_nil L hc htodo]
      have hnone : List.replicate n none =
          (List.range n).map fun _ => (none : Option (κ × ν)) := by
        rw [List.map_const', List.length_range]
      exact congrArg (List.cons none) ((steps_end t n).trans hnone)
    | cons e rest =>
      obtain ⟨he, c', hnext, hin, hrest⟩ := next_of_todo L hc htodo
      obtain ⟨item, hitem⟩ := item?_of_lt he
      have ih := steps_eq L n hin
      rw [hrest] at ih
      rw [hnext, List.filterMap_cons_some hitem, hitem]
      exact congrArg (List.cons (some item)) ih

/-- The answers of a cursor on a trie are the members of its list. -/
theorem steps_start (L : Layout path t) (n : Nat) :
    (start.steps t n).1 = (List.range n).map (t.toList[·]?) := by
  have hstart : start.InTable t := fun _ he => nomatch he
  rw [steps_eq L n hstart, todo_start, L.toList_eq]

/-- A walk that shows a part of each entry is where the walk is that shows all of it. -/
theorem stepsPart_eq {ρ : Type x} (t : Trie κ ν) (part : κ × ν → ρ) (n : Nat) (c : Cursor) :
    c.stepsPart t part n = ((c.steps t n).1.map (Option.map part), (c.steps t n).2) := by
  induction n generalizing c with
  | zero => rfl
  | succ n ih => simp only [stepsPart, nextPart, steps, ih, List.map_cons]

theorem remainingPart_eq {ρ : Type x} (t : Trie κ ν) (part : κ × ν → ρ) (fuel : Nat) (c : Cursor) :
    c.remainingPart t part fuel = (c.remaining t fuel).map part := by
  induction fuel generalizing c with
  | zero => rfl
  | succ fuel ih =>
    rw [remainingPart, remaining, nextPart]
    rcases c.next t with ⟨_ | item, c'⟩
    · rfl
    · exact congrArg (List.cons (part item)) (ih c')

theorem stepsPart_start {ρ : Type x} (L : Layout path t) (part : κ × ν → ρ) (n : Nat) :
    (start.stepsPart t part n).1 = (List.range n).map ((t.toList.map part)[·]?) := by
  simp only [stepsPart_eq, steps_start L, List.map_map, List.getElem?_map]
  rfl

end Cursor

/-! ## Both kinds of walk -/

/-- Walks of the current trie of a map at any instant, with any hash function and any comparison
of keys.  A sweep whose callback does not touch the trie calls it along the list of the map, up
to and including the first call that answers false, with the state that the calls before left,
and on nothing else; it leaves behind the state that the last call left.  A cursor answers the
members of that list in order, and then nothing; one that shows keys or values answers theirs, and
taken to its end it lists them all. -/
theorem Instant.Reachable.walks_agree [BEq κ] [BEq ν] {hash : κ → UInt64} {s : Instant κ ν}
    (h : Reachable hash s) (view : σ → Trie κ ν) (f : κ → ν → σ → Bool × σ) (a : σ)
    (hf : Trie.LeavesAlone s.map.current view f) (ha : view a = s.map.current) (n : Nat) :
    Trie.sightings view f a = Trie.calls f s.map.toList a ∧
      Trie.sweep view f a = (Trie.callAll f s.map.toList a).2 ∧
      (Cursor.start.steps s.map.current n).1 = (List.range n).map (s.map.toList[·]?) ∧
      (Cursor.start.stepsPart s.map.current Prod.fst n).1 =
        (List.range n).map ((s.map.toList.map Prod.fst)[·]?) ∧
      (Cursor.start.stepsPart s.map.current Prod.snd n).1 =
        (List.range n).map ((s.map.toList.map Prod.snd)[·]?) ∧
      s.map.listOf Prod.fst = s.map.toList.map Prod.fst ∧
      s.map.listOf Prod.snd = s.map.toList.map Prod.snd := by
  obtain ⟨path, L⟩ := h.good.laid.layout_current
  exact ⟨hf.sightings_eq L ha, hf.sweep_eq L ha, Cursor.steps_start L n,
    Cursor.stepsPart_start L Prod.fst n, Cursor.stepsPart_start L Prod.snd n,
    Cursor.remainingPart_eq _ Prod.fst _ _, Cursor.remainingPart_eq _ Prod.snd _ _⟩

/-- A callback that counts its calls and ends the sweep at the key 1. -/
def untilOne (k _ n : Nat) : Bool × Nat := (k != 1, n + 1)

/-- Of a chain of two keys the sweep shows the first one alone; cursors show both. -/
theorem walks_agree_twoKeys :
    Trie.sightings (fun _ => twoKeys.current) untilOne 0 = [((1, 5), 0)] ∧
      Trie.sweep (fun _ => twoKeys.current) untilOne 0 = 1 ∧
      (Cursor.start.steps twoKeys.current 3).1 = [some (1, 5), some (2, 10), none] ∧
      (Cursor.start.stepsPart twoKeys.current Prod.fst 3).1 = [some 1, some 2, none] ∧
      (Cursor.start.stepsPart twoKeys.current Prod.snd 3).1 = [some 5, some 10, none] ∧
      twoKeys.listOf Prod.fst = [1, 2] ∧ twoKeys.listOf Prod.snd = [5, 10] := by
  have hkeys : Instant.Reachable (fun _ => 0) ⟨twoKeys, []⟩ := .of_made .empty _
  have hlist : twoKeys.toList = [(1, 5), (2, 10)] := rfl
  have hagree := hkeys.walks_agree (fun _ => twoKeys.current) untilOne 0
    (fun _ _ _ _ => rfl) rfl 3
  dsimp only at hagree
  rw [hlist] at hagree
  exact hagree

end NibbleTrie
