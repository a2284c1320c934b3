/-
Running out of hash bits.

Two entries of different hashes part where their hashes do.  If a slot is so deep
that the hash of a fresh key and that of the head of the chain agree on all that
is left of them, the fresh entry cannot be put in.  A slot gets there only if
equal keys have different hashes: an entry is replaced by one of another hash,
its chain is moved down along the hash of the head, and the head is erased.

Main statement: `Instant.Reachable.out_of_bits_iff`.
-/
import NibbleTrie.Proofs.Running

namespace NibbleTrie

variable {κ : Type u} {ν : Type v}

/-- Whatever a trie points at is there, and the walk for every hash ends on a live slot that holds
no branch. -/
structure Trie.Sturdy (t : Trie κ ν) : Prop where
  next_lt : ∀ {e n}, t.next? e = some n → n < t.entries.size
  head_lt : ∀ {b i e}, t.slot b i = .chain e → e < t.entries.size
  child_live : ∀ {b i c}, t.slot b i = .branch c → t.isDead c = false
  route : ∀ h, ∃ site head, t.route h = .ok (site, head) ∧ t.isWritable site = true

theorem Trie.Layout.sturdy {path : BranchId → List Nibble} {t : Trie κ ν} (L : Layout path t) :
    t.Sturdy where
  next_lt h := L.falling.next_lt h
  head_lt := L.head_lt
  child_live := L.child_live
  route h := by
    obtain ⟨site, hroute, F, hs⟩ := L.route_eq h
    exact ⟨site, _, hroute, isWritable_iff.mpr ⟨F.live, hs⟩⟩

variable [BEq κ]

namespace TrieMap

variable {m : TrieMap κ ν} {k : κ} {v : ν}

/-! ## Lawful keys -/

/-- Where equal keys have equal hashes, no slot that is held is jammed for its key. -/
theorem Grips.not_jams {held : Held} (G : m.Grips (m.hash k) held) (H : m.Laid)
    (law : Lawful m.hash) : ¬ (m.trieAt held.generation).Jams m.hash held.site k := by
  obtain ⟨path, R⟩ := H.routed law held.generation G.generation_le
  exact R.not_jams (G.fits R.toLayout)

theorem Laid.not_jammed (H : m.Laid) (law : Lawful m.hash) (k : κ) : ¬ m.Jammed k := by
  obtain ⟨held, hheld, G, _⟩ := H.exists_holdSlot (m.hash k)
  rw [H.jammed_iff hheld]
  exact fun J => G.not_jams H law J.2

/-! ## Inserting many entries -/

theorem insertMany_append (m : TrieMap κ ν) (l₁ l₂ : List (κ × ν)) :
    m.insertMany (l₁ ++ l₂) = (m.insertMany l₁).andThen fun m _ => m.insertMany l₂ := by
  induction l₁ generalizing m with
  | nil => rfl
  | cons item l₁ ih =>
    obtain ⟨k, v⟩ := item
    simp only [List.cons_append, insertMany, ih, Effect.andThen_assoc]

variable [BEq ν]

/-- Setting the value of a key comes to its end, unless the key is jammed. -/
theorem Laid.insert_cases (H : m.Laid) (k : κ) (v : ν) :
    ((m.insert k v).result = .ok () ∧ (m.insert k v).state.Laid ∧ ¬ m.Jammed k) ∨
      (m.insert k v = .fail m .splitExhausted ∧ m.Jammed k) := by
  have hplan : (Op.insert k v).plan? = some _ := rfl
  have O := H.apply_outcome hplan
  have hlaid : (m.insert k v).state.Laid := by
    obtain ⟨_, _, A⟩ := O.amends (Nat.le_refl _)
    exact (Turn.amend A).laid H
  rw [apply] at O
  generalize m.insert k v = e at O hlaid ⊢
  obtain ⟨result, state, events⟩ := e
  cases result with
  | ok _ =>
    refine .inl ⟨rfl, hlaid, fun J => ?_⟩
    cases O.failsIff.eq_fail ⟨(k, v), rfl, J⟩
  | error f =>
    cases O with
    | jammed J =>
      obtain ⟨item, hitem, J⟩ := J
      cases hitem
      exact .inr ⟨rfl, J⟩

theorem Laid.insertMany_laid (H : m.Laid) (entries : List (κ × ν)) :
    (m.insertMany entries).state.Laid := by
  induction entries generalizing m with
  | nil => exact H
  | cons item rest ih =>
    obtain ⟨k, v⟩ := item
    rw [insertMany]
    rcases H.insert_cases k v with ⟨hok, H', _⟩ | ⟨he, _⟩
    · rw [(Effect.andThen_of_ok hok).2]
      exact ih H'
    · rw [he]
      exact H

/-- Where an insertion of many entries stops. -/
theorem Laid.of_insertMany_error (H : m.Laid) {entries : List (κ × ν)} {f : Fault}
    (hf : (m.insertMany entries).result = .error f) :
    ∃ l₁ k v l₂, entries = l₁ ++ (k, v) :: l₂ ∧ (m.insertMany l₁).result = .ok () ∧
      (m.insertMany l₁).state.Jammed k := by
  induction entries generalizing m with
  | nil => cases hf
  | cons item rest ih =>
    obtain ⟨k, v⟩ := item
    rcases H.insert_cases k v with ⟨hok, H', _⟩ | ⟨_, J⟩
    · rw [insertMany, (Effect.andThen_of_ok hok).1] at hf
      obtain ⟨l₁, k', v', l₂, rfl, hok', J⟩ := ih H' hf
      refine ⟨(k, v) :: l₁, k', v', l₂, rfl, ?_⟩
      rw [insertMany, (Effect.andThen_of_ok hok).1, (Effect.andThen_of_ok hok).2]
      exact ⟨hok', J⟩
    · exact ⟨[], k, v, rest, rfl, rfl, J⟩

/-- An insertion of many entries stops at a key that is jammed, and what was done before stays. -/
theorem Laid.insertMany_of_jammed (H : m.Laid) {l₁ : List (κ × ν)}
    (hok : (m.insertMany l₁).result = .ok ()) (J : (m.insertMany l₁).state.Jammed k) (v : ν)
    (l₂ : List (κ × ν)) : m.insertMany (l₁ ++ (k, v) :: l₂) =
      ⟨.error .splitExhausted, (m.insertMany l₁).state, (m.insertMany l₁).events⟩ := by
  have H' := H.insertMany_laid l₁
  rw [insertMany_append]
  generalize m.insertMany l₁ = e at hok J H' ⊢
  obtain ⟨result, state, events⟩ := e
  cases hok
  rcases H'.insert_cases k v with ⟨_, _, hjam⟩ | ⟨he, _⟩
  · exact absurd J hjam
  · simp only [Effect.andThen, insertMany, he, Effect.fail, List.append_nil]

/-- Inserting many entries stops exactly at a key that is jammed, and what was done before stays. -/
structure StopsAtJam (m : TrieMap κ ν) : Prop where
  stops : ∀ {l₁ : List (κ × ν)} {k : κ}, (m.insertMany l₁).result = .ok () →
    (m.insertMany l₁).state.Jammed k → ∀ v l₂, m.insertMany (l₁ ++ (k, v) :: l₂) =
      ⟨.error .splitExhausted, (m.insertMany l₁).state, (m.insertMany l₁).events⟩
  only : ∀ {entries : List (κ × ν)} {f : Fault}, (m.insertMany entries).result = .error f →
    ∃ l₁ k v l₂, entries = l₁ ++ (k, v) :: l₂ ∧ (m.insertMany l₁).result = .ok () ∧
      (m.insertMany l₁).state.Jammed k

end TrieMap

/-! ## At every instant -/

/-- What is under way will run out of hash bits. -/
def Work.Jammed (m : TrieMap κ ν) [BEq ν] : Work κ ν → Prop
  | .searching p a =>
    m.met? a p.key p.accept = none ∧ ∃ item ∈ p.entry?, m.Jammed item.1
  | .holding plan held => m.Blocked held plan
  | .building k held => (m.trieAt held.generation).Jams m.hash held.site k
  | .walking _ _ => False

variable [BEq ν]

namespace Work

variable {m : TrieMap κ ν} {w : Work κ ν}

theorem Ends.failsIff {e : Effect (TrieMap κ ν) (Reply κ ν)} (h : w.Ends m e) (H : m.Laid)
    (R : w.Ready m) : m.FailsIff (w.Jammed m) e := by
  cases h with
  | searching p a =>
    obtain ⟨_, _, O⟩ := H.finish_outcome p R
    exact O.failsIff
  | holding plan held => exact (H.carryOut_outcome R).failsIff
  | building k held v =>
    refine TrieMap.FailsIff.map ?_ _
    rcases H.insertHeld_cases R v with ⟨_, _, he, _, hjam⟩ | ⟨he, hjam⟩
    · rw [he]
      exact .of_ok rfl hjam
    · rw [he]
      exact .of_jam hjam
  | walking g c => exact .of_ok rfl id

theorem not_jammed (R : w.Ready m) (H : m.Laid) (law : Lawful m.hash) : ¬ w.Jammed m := by
  cases w with
  | searching p a =>
    rintro ⟨_, item, _, J⟩
    exact H.not_jammed law _ J
  | holding plan held => exact fun J => TrieMap.Grips.not_jams R H law J.2.2
  | building k held => exact TrieMap.Grips.not_jams R H law
  | walking g c => exact id

end Work

theorem TrieMap.Laid.apply_failsIff {m : TrieMap κ ν} (H : m.Laid) {op : Op κ ν}
    (hop : ∀ entries, op ≠ .insertMany entries) :
    m.FailsIff (∃ item ∈ op.entry?, m.Jammed item.1) (m.apply op) := by
  cases hplan : op.plan? with
  | some plan => exact (H.apply_outcome hplan).failsIff
  | none =>
    cases op with
    | insertMany entries => exact absurd rfl (hop entries)
    | clear => exact .of_ok rfl fun ⟨_, h, _⟩ => by cases h
    | size => exact .of_ok rfl fun ⟨_, h, _⟩ => by cases h
    | isEmpty => exact .of_ok rfl fun ⟨_, h, _⟩ => by cases h
    | _ => cases hplan

/-- At every instant, whatever a trie points at is there, walks end, and a slot that is held can be
written.  An operation, and what is under way, ends with a fault of the map exactly if it has an
entry to insert and is jammed, and then nothing happens.  With lawful keys nothing is ever
jammed. -/
theorem Instant.Reachable.out_of_bits_iff {hash : κ → UInt64} {s : Instant κ ν} (h : Reachable hash s) :
    (∀ g ≤ s.map.generation, (s.map.trieAt g).Sturdy) ∧
    (∀ w ∈ s.works, ∀ held ∈ w.held?,
      (s.map.trieAt held.generation).isWritable held.site = true) ∧
    (∀ op, (∀ entries, op ≠ .insertMany entries) →
      s.map.FailsIff (∃ item ∈ op.entry?, s.map.Jammed item.1) (s.map.apply op)) ∧
    s.map.StopsAtJam ∧
    (∀ w ∈ s.works, ∀ e, w.Ends s.map e → s.map.FailsIff (w.Jammed s.map) e) ∧
    (Lawful hash → (∀ k, ¬ s.map.Jammed k) ∧ ∀ w ∈ s.works, ¬ w.Jammed s.map) := by
  have H := h.good.laid
  have ready := h.good.ready
  refine ⟨?_, ?_, ?_, ⟨H.insertMany_of_jammed, H.of_insertMany_error⟩, ?_, ?_⟩
  · intro g hg
    obtain ⟨path, L⟩ := H.layout g hg
    exact L.sturdy
  · intro w hw held hh
    exact (ready w hw).writable hh
  · intro op hop
    exact H.apply_failsIff hop
  · intro w hw e he
    exact he.failsIff H (ready w hw)
  · intro law
    rw [← h.hash_eq] at law
    exact ⟨H.not_jammed law, fun w hw => Work.not_jammed (ready w hw) H law⟩

/-- Keys 1 and 2 collide, key 1 is then given another hash, and key 3 moves the two down by the hash
of key 2, which is erased. -/
def goAstray : List (Op Tagged Nat) :=
  [.insert ⟨1, 0⟩ 10, .insert ⟨2, 0⟩ 20, .swap ⟨1, 0x0100000000000000⟩ 11,
    .insert ⟨3, 0x0200000000000000⟩ 30, .probe (.erase ⟨2, 0⟩)]

/-- A map in which key 1 stands in a slot that is not on its way. -/
def astray : TrieMap Tagged Nat := ((TrieMap.empty Tagged.hash).run goAstray).2

theorem reachable_astray : Instant.Reachable Tagged.hash ⟨astray, []⟩ := by
  have hmade : Instant.Reachable Tagged.hash (⟨TrieMap.empty Tagged.hash, []⟩ : Instant Tagged Nat) :=
    .made .empty
  exact hmade.run (fun _ h => absurd h List.not_mem_nil) goAstray

/-- What is left in the slot of hash 0 is key 1 of another hash, so key 4 cannot be put there. -/
theorem out_of_bits_astray :
    astray.Jammed ⟨4, 0⟩ ∧ astray.apply (.insert ⟨4, 0⟩ 40) = .fail astray .splitExhausted := by
  obtain ⟨_, _, hops, _⟩ := Instant.Reachable.out_of_bits_iff reachable_astray
  have F := hops (.insert ⟨4, 0⟩ 40) fun _ h => by cases h
  dsimp only at F
  have hresult : (astray.apply (.insert ⟨4, 0⟩ 40)).result = .error .splitExhausted := rfl
  obtain ⟨item, hitem, J⟩ := F.splitExhausted_iff.mp hresult
  cases hitem
  exact ⟨J, F.eq_fail ⟨_, rfl, J⟩⟩

end NibbleTrie
