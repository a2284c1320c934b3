/-
What an operation on a held slot does to the content.

`Trie.Acts hash t e spec` says that the effect `e` on `t` answers what `spec`
says of the content of `t`, leaves the content that `spec` says, and is one
write at most.  `TrieMap.Acts m g e spec` says the same of a map and one of its
generations.

Main statements: the parts of operations that run on a held slot act as the
edits of `Content` (`swap_acts`, `insertNew_acts`, `erase_acts`,
`replace_acts`, `insertHeld_acts`).
-/
import NibbleTrie.Proofs.Grip

namespace NibbleTrie

namespace Effect

variable {σ : Type u} {ρ : Type v} {ρ' : Type w}

@[simp] theorem map_state (f : ρ → ρ') (e : Effect σ ρ) : (e.map f).state = e.state := rfl

@[simp] theorem map_result (f : ρ → ρ') (e : Effect σ ρ) : (e.map f).result = e.result.map f := rfl

/-- After an answer the second change takes place. -/
theorem andThen_of_ok {e : Effect σ ρ} {next : σ → ρ → Effect σ ρ'} {r : ρ}
    (h : e.result = .ok r) :
    (e.andThen next).result = (next e.state r).result ∧
      (e.andThen next).state = (next e.state r).state := by
  obtain ⟨result, state, events⟩ := e
  obtain rfl : result = .ok r := h
  exact ⟨rfl, rfl⟩

/-- After a fault the second change does not take place. -/
theorem andThen_of_error {e : Effect σ ρ} {next : σ → ρ → Effect σ ρ'} {f : Fault}
    (h : e.result = .error f) : e.andThen next = ⟨.error f, e.state, e.events⟩ := by
  obtain ⟨result, state, events⟩ := e
  obtain rfl : result = .error f := h
  rfl

theorem andThen_assoc {ρ'' : Type w'} (e : Effect σ ρ) (f : σ → ρ → Effect σ ρ')
    (g : σ → ρ' → Effect σ ρ'') :
    (e.andThen f).andThen g = e.andThen fun s r => (f s r).andThen g := by
  obtain ⟨result, s, events⟩ := e
  cases result with
  | error _ => rfl
  | ok r =>
    rcases hf : f s r with ⟨_ | _, s', events'⟩
    · simp only [andThen, hf]
    · simp only [andThen, hf, List.append_assoc]

end Effect

namespace Trie

variable {κ : Type u} {ν : Type v} {ρ : Type w} {ρ' : Type w'} [BEq κ] {t t' : Trie κ ν}
  {path : BranchId → List Nibble} {hash : κ → UInt64} {site : Site} {k : κ} {accept : ν → Bool}

/-- At most one write was made. -/
def Moves (hash : κ → UInt64) (t t' : Trie κ ν) : Prop :=
  t' = t ∨ ∃ path path' gone new, Keyed hash path t ∧ Step hash path path' t t' gone new

theorem Moves.keyed (M : Moves hash t t') (K : Keyed hash path t) :
    ∃ path', Keyed hash path' t' := by
  rcases M with rfl | ⟨_, path', _, _, _, S⟩
  · exact ⟨path, K⟩
  · exact ⟨path', S.keyed⟩

theorem Moves.counted (M : Moves hash t t') (hc : t.Counted) : t'.Counted := by
  rcases M with rfl | ⟨_, _, _, _, K, S⟩
  · exact hc
  · exact S.counted K.toLayout hc

theorem Moves.aimed (M : Moves hash t t') {h : UInt64} (A : t.Aimed h site) : t'.Aimed h site := by
  rcases M with rfl | ⟨_, _, _, _, K, S⟩
  · exact A
  · exact A.write K.toLayout S.toWrite

theorem Moves.size_le (M : Moves hash t t') : t.entries.size ≤ t'.entries.size := by
  rcases M with rfl | ⟨_, _, _, _, _, S⟩
  · exact Nat.le_refl _
  · exact S.keeps.size_le

/-- The effect `e` answers and leaves what `spec` says of the content of `t`. -/
structure Acts (hash : κ → UInt64) (t : Trie κ ν) (e : Effect (Trie κ ν) ρ)
    (spec : Content κ ν → Except Fault ρ × Content κ ν) : Prop where
  moves : Moves hash t e.state
  agrees : ∀ l, t.toList.Perm l → e.result = (spec l).1 ∧ e.state.toList.Perm (spec l).2

namespace Acts

variable {e : Effect (Trie κ ν) ρ} {spec spec' : Content κ ν → Except Fault ρ × Content κ ν}

theorem congr (A : Acts hash t e spec) (h : ∀ l, t.toList.Perm l → spec l = spec' l) :
    Acts hash t e spec' where
  moves := A.moves
  agrees l hl := h l hl ▸ A.agrees l hl

theorem map (A : Acts hash t e spec) (f : ρ → ρ') :
    Acts hash t (e.map f) fun l => ((spec l).1.map f, (spec l).2) where
  moves := A.moves
  agrees l hl := ⟨by rw [Effect.map_result, (A.agrees l hl).1], (A.agrees l hl).2⟩

/-- Nothing is written. -/
theorem keep {r : Except Fault ρ} {events : List Event} : Acts hash t ⟨r, t, events⟩ fun l => (r, l)
    where
  moves := .inl rfl
  agrees _ hl := ⟨rfl, hl⟩

end Acts

/-! ## The entry of a key in its slot -/

section
variable [EquivBEq κ] (law : Lawful hash) (K : Keyed hash path t) (F : Fits path t (hash k) site)
include law K F

/-- What the search from the slot of a key finds is the entry of the key in the content, if its
value is accepted. -/
theorem Keyed.located (hs : (t.slot site.branch site.index).isBranch = false)
    (accept : ν → Bool) :
    (∃ x, t.locate site k accept = .ok (some x) ∧ (x.entry.key == k) = true ∧
      accept x.entry.value = true ∧ t.entries[x.id]? = some x.entry ∧
      ∀ l, t.toList.Perm l → Content.lookup? l k = some (x.entry.key, x.entry.value)) ∨
    (t.locate site k accept = .ok none ∧
      ∀ l, t.toList.Perm l → ∀ e, Content.lookup? l k = some e → accept e.2 = false) := by
  obtain ⟨r, hr⟩ := Layout.exists_locate hs k accept
  cases r with
  | some x =>
    obtain ⟨l₁, l₂, hc, hx, hk, ha, _⟩ := K.locate_some hr
    have hlive : t.Live x.id := ⟨site.branch, site.index, by rw [hc]; simp⟩
    exact .inl ⟨x, hr, hk, ha, hx, fun l hl => K.lookup?_of_live law hl hlive hx hk⟩
  | none =>
    refine .inr ⟨hr, fun l hl e he => ?_⟩
    obtain ⟨hmem, hk⟩ := Content.of_lookup?_eq_some he
    obtain ⟨a, x, hlive, hx, rfl⟩ := K.mem_toList.mp (hl.mem_iff.mpr hmem)
    exact K.not_present_of_locate law F hs hr a x hlive hx hk

/-- Inserting a key that was not found. -/
theorem Keyed.insertAt_acts (hs : (t.slot site.branch site.index).isBranch = false)
    (habsent : t.locate site k TrieMap.anyValue = .ok none) (v : ν) :
    Acts hash t (t.insertAt hash site (hash k) k v) fun l => (.ok (), Content.store l (k, v)) := by
  have habsent' : ∀ e x, t.Live e → t.entries[e]? = some x → (x.key == k) = false := by
    intro e x he hx
    cases hk : x.key == k with
    | false => rfl
    | true => exact absurd (K.not_present_of_locate law F hs habsent e x he hx hk) (by simp [TrieMap.anyValue])
  obtain ⟨t', events, path', heq, S⟩ := K.insertAt_step F hs
    (fun a ha x hx => habsent' a x ⟨_, _, ha⟩ hx) v
  rw [heq]
  exact
    { moves := .inr ⟨path, path', none, some (k, v), K, S⟩
      agrees := fun l hl => ⟨rfl, S.edit_perm law K hl (fun _ h => by cases h)
        fun _ => habsent'⟩ }

omit F in
/-- Replacing a found entry. -/
theorem Keyed.replace_acts {x : Placed κ ν} (hx : t.locate site k accept = .ok (some x)) {k' : κ}
    (hk' : (x.entry.key == k') = true) (v : ν) (r : ρ) :
    Acts hash t (.pure (t.replace x k' v) r) fun l => (.ok r, (k', v) :: Content.without l k) := by
  obtain ⟨_, _, _, hentry, hk, _, _⟩ := K.locate_some hx
  have S := K.replace_step law hx hk' v
  refine { moves := .inr ⟨path, path, some x.id, some (k', v), K, S⟩,
           agrees := fun l hl => ⟨rfl, S.edit_perm law K hl ?_ fun h => by cases h⟩ }
  intro a ha y hy
  cases ha
  rw [hentry] at hy
  cases hy
  exact hk

/-- Removing a found entry. -/
theorem Keyed.removeAt_acts {x : Placed κ ν} (hx : t.locate site k accept = .ok (some x)) (r : ρ) :
    Acts hash t ⟨.ok r, (t.removeAt site (hash k) x).1, (t.removeAt site (hash k) x).2⟩
      fun l => (.ok r, Content.without l k) := by
  obtain ⟨_, _, _, hentry, hk, _, _⟩ := K.locate_some hx
  have S := K.removeAt_step F hx
  refine { moves := .inr ⟨path, path, some x.id, none, K, S⟩,
           agrees := fun l hl => ⟨rfl, S.edit_perm law K hl ?_ fun h => by cases h⟩ }
  intro a ha y hy
  cases ha
  rw [hentry] at hy
  cases hy
  exact hk

end

end Trie

namespace TrieMap

variable {κ : Type u} {ν : Type v} {ρ : Type w} {ρ' : Type w'} [BEq κ] {m : TrieMap κ ν} {g : Nat}

/-- The effect `e` answers and leaves what `spec` says of the content of the generation `g`, and
leaves the other generations alone. -/
structure Acts (m : TrieMap κ ν) (g : Nat) (e : Effect (TrieMap κ ν) ρ)
    (spec : Content κ ν → Except Fault ρ × Content κ ν) : Prop where
  hash_eq : e.state.hash = m.hash
  generation_eq : e.state.generation = m.generation
  other : ∀ g' ≤ m.generation, g' ≠ g → e.state.trieAt g' = m.trieAt g'
  acts : Trie.Acts m.hash (m.trieAt g) ⟨e.result, e.state.trieAt g, []⟩ spec

namespace Acts

variable {e : Effect (TrieMap κ ν) ρ} {spec spec' : Content κ ν → Except Fault ρ × Content κ ν}

/-- A change of one generation acts as it acts on its trie. -/
theorem of_update {change : Trie κ ν → Effect (Trie κ ν) ρ} (hg : g ≤ m.generation)
    (A : Trie.Acts m.hash (m.trieAt g) (change (m.trieAt g)) spec) :
    Acts m g (m.update g change) spec where
  hash_eq := m.update_hash g change
  generation_eq := m.update_generation g change
  other g' hg' hne := by rw [m.trieAt_update change hg hg', if_neg hne]
  acts := by
    rw [update_result, m.trieAt_update change hg hg, if_pos rfl]
    exact ⟨A.moves, A.agrees⟩

theorem congr (A : Acts m g e spec) (h : ∀ l, (m.trieAt g).toList.Perm l → spec l = spec' l) :
    Acts m g e spec' :=
  { A with acts := A.acts.congr h }

theorem map (A : Acts m g e spec) (f : ρ → ρ') :
    Acts m g (e.map f) fun l => ((spec l).1.map f, (spec l).2) :=
  { A with acts := A.acts.map f }

/-- Nothing is written. -/
theorem keep {r : Except Fault ρ} {events : List Event} : Acts m g ⟨r, m, events⟩ fun l => (r, l) :=
  ⟨rfl, rfl, fun _ _ _ => rfl, .keep⟩

/-- Nothing is written, and the answer is the one for the content. -/
theorem of_state_eq (hstate : e.state = m)
    (h : ∀ l, (m.trieAt g).toList.Perm l → spec l = (e.result, l)) : Acts m g e spec := by
  obtain ⟨r, state, events⟩ := e
  obtain rfl : state = m := hstate
  exact ⟨rfl, rfl, fun _ _ _ => rfl, Trie.Acts.keep.congr fun l hl => (h l hl).symm⟩

theorem moves (A : Acts m g e spec) {g' : Nat} (hg' : g' ≤ m.generation) :
    Trie.Moves m.hash (m.trieAt g') (e.state.trieAt g') := by
  by_cases h : g' = g
  · exact h ▸ A.acts.moves
  · exact .inl (A.other g' hg' h)

theorem sound (A : Acts m g e spec) (S : m.Sound) : e.state.Sound where
  lawful := A.hash_eq ▸ S.lawful
  keyed g' hg' := by
    rw [A.generation_eq] at hg'
    obtain ⟨path, K⟩ := S.keyed g' hg'
    rw [A.hash_eq]
    exact (A.moves hg').keyed K
  counted g' hg' := by
    rw [A.generation_eq] at hg'
    exact (A.moves hg').counted (S.counted g' hg')

theorem arrived (A : Acts m g e spec) {h : UInt64} {a : Arrival} (ha : m.Arrived h a) :
    e.state.Arrived h a where
  generation_le := A.generation_eq ▸ ha.generation_le
  head_lt x hx := Nat.lt_of_lt_of_le (ha.head_lt x hx) (A.moves ha.generation_le).size_le
  aimed := (A.moves ha.generation_le).aimed ha.aimed

end Acts

/-! ## Operations that hold their slot at once -/

variable [EquivBEq κ]

/-- Setting the value of a key, on its slot. -/
theorem swap_acts (S : m.Sound) (k : κ) (v : ν) :
    Acts m m.generation (m.swap k v) fun l =>
      (.ok ((Content.lookup? l k).map (·.2)), Content.store l (k, v)) := by
  obtain ⟨path, K⟩ := S.keyed_current
  obtain ⟨site, hheld, F, hs⟩ := holdSlot_eq K.toLayout (m.hash k)
  simp only [swap, hheld]
  refine .of_update (Nat.le_refl _) ?_
  rw [trieAt_generation]
  rcases K.located S.lawful F hs anyValue with ⟨x, hx, hk, _, _, hentry⟩ | ⟨hnone, habsent⟩
  · rw [hx]
    refine (K.replace_acts S.lawful hx hk v (some x.entry.value)).congr fun l hl => ?_
    rw [hentry l hl]
    rfl
  · rw [hnone]
    refine ((K.insertAt_acts S.lawful F hs hnone v).map fun _ => none).congr fun l hl => ?_
    cases h : Content.lookup? l k with
    | none => rfl
    | some e => exact absurd (habsent l hl e h) (by simp [anyValue])

theorem insertNew_acts (S : m.Sound) (k : κ) (v : ν) :
    Acts m m.generation (m.insertNew k v) fun l =>
      match Content.lookup? l k with
      | some e => (.ok (.error ⟨k, v, e.2⟩), l)
      | none => (.ok (.ok ()), Content.store l (k, v)) := by
  obtain ⟨path, K⟩ := S.keyed_current
  obtain ⟨site, hheld, F, hs⟩ := holdSlot_eq K.toLayout (m.hash k)
  simp only [insertNew, hheld]
  refine .of_update (Nat.le_refl _) ?_
  rw [trieAt_generation]
  rcases K.located S.lawful F hs anyValue with ⟨x, hx, _, _, _, hentry⟩ | ⟨hnone, habsent⟩
  · rw [hx]
    refine Trie.Acts.keep.congr fun l hl => ?_
    rw [hentry l hl]
  · rw [hnone]
    refine ((K.insertAt_acts S.lawful F hs hnone v).map
      fun _ => (.ok () : Except (Occupied κ ν) Unit)).congr fun l hl => ?_
    cases h : Content.lookup? l k with
    | none => rfl
    | some e => exact absurd (habsent l hl e h) (by simp [anyValue])

/-! ## Operations on a slot that was found to hold a match -/

/-- A slot on the way of a hash, which a probe holds. -/
structure Holds (m : TrieMap κ ν) (h : UInt64) (held : Held) : Prop where
  generation_le : held.generation ≤ m.generation
  fits : ∃ path, Trie.Keyed m.hash path (m.trieAt held.generation) ∧
    Trie.Fits path (m.trieAt held.generation) h held.site
  not_branch : ((m.trieAt held.generation).slot held.site.branch held.site.index).isBranch = false

omit [EquivBEq κ] in
/-- In a map in good order, the slot of a grip is on the way of its hash. -/
theorem Grips.holds {h : UInt64} {held : Held} (G : m.Grips h held) (S : m.Sound) :
    m.Holds h held where
  generation_le := G.generation_le
  fits := by
    obtain ⟨path, K⟩ := S.keyed held.generation G.generation_le
    exact ⟨path, K, G.fits K.toLayout⟩
  not_branch := G.not_branch

/-- Removing the entry of a key from a held slot, if its value is accepted. -/
theorem erase_acts (S : m.Sound) {k : κ} {held : Held} (H : m.Holds (m.hash k) held)
    (accept : ν → Bool) :
    Acts m held.generation (m.update held.generation fun t =>
      match t.locate held.site k accept with
      | .error f => .fail t f
      | .ok none => .pure t none
      | .ok (some x) =>
        let (t, events) := t.removeAt held.site (m.hash k) x
        ⟨.ok (some x.entry.value), t, events⟩) fun l =>
      match (Content.lookup? l k).filter fun e => accept e.2 with
      | some e => (.ok (some e.2), Content.without l k)
      | none => (.ok none, l) := by
  obtain ⟨path, K, F⟩ := H.fits
  refine .of_update H.generation_le ?_
  rcases K.located S.lawful F H.not_branch accept with ⟨x, hx, _, ha, _, hentry⟩ | ⟨hnone, habsent⟩
  · rw [hx]
    refine (K.removeAt_acts S.lawful F hx (some x.entry.value)).congr fun l hl => ?_
    rw [hentry l hl, Option.filter_some, if_pos ha]
  · rw [hnone]
    refine Trie.Acts.keep.congr fun l hl => ?_
    have : (Content.lookup? l k).filter (fun e => accept e.2) = none :=
      Option.filter_eq_none_iff.mpr fun e he => by simp [habsent l hl e he]
    rw [this]

/-- Replacing the entry of a key in a held slot, if its value is accepted. -/
theorem replace_acts (S : m.Sound) {k : κ} {held : Held} (H : m.Holds (m.hash k) held)
    (accept : ν → Bool) (new : ν) :
    Acts m held.generation (m.update held.generation fun t =>
      match t.locate held.site k accept with
      | .error f => .fail t f
      | .ok none => .pure t false
      | .ok (some x) => .pure (t.replace x x.entry.key new) true) fun l =>
      match (Content.lookup? l k).filter fun e => accept e.2 with
      | some e => (.ok true, (e.1, new) :: Content.without l k)
      | none => (.ok false, l) := by
  obtain ⟨path, K, F⟩ := H.fits
  refine .of_update H.generation_le ?_
  rcases K.located S.lawful F H.not_branch accept with ⟨x, hx, _, ha, _, hentry⟩ | ⟨hnone, habsent⟩
  · rw [hx]
    refine (K.replace_acts S.lawful hx BEq.rfl new true).congr fun l hl => ?_
    rw [hentry l hl, Option.filter_some, if_pos ha]
  · rw [hnone]
    refine Trie.Acts.keep.congr fun l hl => ?_
    have : (Content.lookup? l k).filter (fun e => accept e.2) = none :=
      Option.filter_eq_none_iff.mpr fun e he => by simp [habsent l hl e he]
    rw [this]

/-- Inserting a key into a held slot in which it was not found. -/
theorem insertHeld_acts (S : m.Sound) {k : κ} {held : Held} (H : m.Holds (m.hash k) held)
    (habsent : (m.trieAt held.generation).locate held.site k anyValue = .ok none) (v : ν) :
    Acts m held.generation (m.insertHeld held k v) fun l => (.ok (), Content.store l (k, v)) := by
  obtain ⟨path, K, F⟩ := H.fits
  exact .of_update H.generation_le (K.insertAt_acts S.lawful F H.not_branch habsent v)

end TrieMap

end NibbleTrie
