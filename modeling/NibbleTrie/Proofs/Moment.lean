/-
Operations within operations.

A probe can be interrupted between its arrival and its first comparison, and
the builder of a value runs while the slot for it is held.  A `Moment` is a map
with the operations that are under way on it, and `Moment.Step` is whatever can
happen next: an operation runs to its end, a probe arrives, a probe that arrived
some time ago goes on, a builder is called, answers or gives up.  Operations
under way may be nested or interleaved in any order.

While a builder runs, the branch of its slot is locked: whoever wants to write
to it waits.  So no step touches a branch that another operation holds.

Main statement: in every reachable moment the map is in good order, and the
operations under way stand where they can go on (`Moment.Reachable.good`).
-/
import NibbleTrie.Proofs.Evolution

namespace NibbleTrie

variable {κ : Type u} {ν : Type v}

section Lists
variable {α : Type u} {R : α → Prop} {P Q : List α} {o o' : α}

/-- What holds of all members of a list holds of them without one. -/
theorem forall_rest (h : ∀ x ∈ P ++ o :: Q, R x) : ∀ x ∈ P ++ Q, R x := by
  intro x hx
  refine h x ?_
  rcases List.mem_append.mp hx with hx | hx
  · exact List.mem_append_left _ hx
  · exact List.mem_append_right _ (List.mem_cons_of_mem _ hx)

/-- What holds of all members of a list holds of them after one is exchanged. -/
theorem forall_exchange (h : ∀ x ∈ P ++ o :: Q, R x) (ho' : R o') : ∀ x ∈ P ++ o' :: Q, R x := by
  intro x hx
  rcases List.mem_append.mp hx with hx | hx
  · exact h x (List.mem_append_left _ hx)
  · rcases List.mem_cons.mp hx with rfl | hx
    · exact ho'
    · exact h x (List.mem_append_right _ (List.mem_cons_of_mem _ hx))

end Lists

/-- The branch of a held slot has the mark, the slots and the chains that it had. -/
structure Held.Untouched (held : Held) (m m' : TrieMap κ ν) : Prop where
  dead : (m'.trieAt held.generation).isDead held.site.branch =
    (m.trieAt held.generation).isDead held.site.branch
  slot : ∀ i, (m'.trieAt held.generation).slot held.site.branch i =
    (m.trieAt held.generation).slot held.site.branch i
  chain : ∀ i, (m'.trieAt held.generation).chainAt held.site.branch i =
    (m.trieAt held.generation).chainAt held.site.branch i

/-- An operation that is under way. -/
inductive Pending (κ : Type u) (ν : Type v) where
  /-- A probe that has arrived and has not compared a key yet. -/
  | arrived (p : Probe κ ν) (a : Arrival)
  /-- A builder that runs for a key whose slot is held. -/
  | building (key : κ) (held : Held)

/-- A map and the operations under way on it. -/
structure Moment (κ : Type u) (ν : Type v) where
  map : TrieMap κ ν
  pending : List (Pending κ ν)

namespace Moment

/-- A change of the map leaves alone what operations under way hold. -/
def Respects (pending : List (Pending κ ν)) (m m' : TrieMap κ ν) : Prop :=
  ∀ {k held}, .building k held ∈ pending → held.Untouched m m'

variable [BEq κ] [BEq ν]

/-- What can happen next. -/
inductive Step : Moment κ ν → Moment κ ν → Prop
  /-- An operation runs to its end. -/
  | apply {m P} (op : Op κ ν) : Respects P m (m.apply op).state →
      Step ⟨m, P⟩ ⟨(m.apply op).state, P⟩
  /-- A probe arrives. -/
  | arrive {m P} (p : Probe κ ν) {a} : m.begin p = .ok a → Step ⟨m, P⟩ ⟨m, .arrived p a :: P⟩
  /-- A probe goes on after its arrival, to its end. -/
  | finish {m P Q p a} : Respects (P ++ Q) m (m.finish a p).state →
      Step ⟨m, P ++ .arrived p a :: Q⟩ ⟨(m.finish a p).state, P ++ Q⟩
  /-- A probe goes on after its arrival, finds its key absent, and calls the builder. -/
  | build {m P Q k outcome a held} : m.settle a k = .ok (.absent held) →
      Step ⟨m, P ++ .arrived (.getOrBuild k outcome) a :: Q⟩ ⟨m, P ++ .building k held :: Q⟩
  /-- The builder answers, and the value is inserted. -/
  | built {m P Q k held} (v : ν) : Respects (P ++ Q) m (m.insertHeld held k v).state →
      Step ⟨m, P ++ .building k held :: Q⟩ ⟨(m.insertHeld held k v).state, P ++ Q⟩
  /-- An operation under way is given up. -/
  | abandon {m P Q} {o : Pending κ ν} : Step ⟨m, P ++ o :: Q⟩ ⟨m, P ++ Q⟩

/-- The moments that can come about, from the making of a map with this hash function on. -/
inductive Reachable (hash : κ → UInt64) : Moment κ ν → Prop
  | made {m} : TrieMap.Made hash m → Reachable hash ⟨m, []⟩
  | step {s s'} : Reachable hash s → Step s s' → Reachable hash s'

/-- Operations can run one after another while none is under way. -/
theorem Reachable.run {hash : κ → UInt64} {m : TrieMap κ ν} (h : Reachable hash ⟨m, []⟩)
    (ops : List (Op κ ν)) : Reachable hash ⟨(m.run ops).2, []⟩ := by
  induction ops generalizing m with
  | nil => exact h
  | cons op ops ih => exact ih (h.step (.apply op fun h => absurd h List.not_mem_nil))

end Moment

/-- An operation under way stands where it can go on. -/
def Pending.Ready [BEq κ] (m : TrieMap κ ν) : Pending κ ν → Prop
  | .arrived p a => m.Arrived (m.hash p.key) a
  | .building k held => m.Holds (m.hash k) held ∧
    (m.trieAt held.generation).locate held.site k TrieMap.anyValue = .ok none

/-- A held slot stays held, and its key stays absent from it, while nobody touches its branch. -/
theorem Held.Untouched.ready [BEq κ] {m m' : TrieMap κ ν} {held : Held} {k : κ}
    (U : held.Untouched m m') (E : m.Evolves m') (R : (Pending.building k held).Ready m) :
    (Pending.building k held : Pending κ ν).Ready m' := by
  obtain ⟨⟨hle, ⟨path, K, F⟩, hs⟩, hnone⟩ := R
  obtain ⟨path', K'⟩ := E.sound.keyed _ (Nat.le_trans hle E.generation_le)
  have T := E.tries _ hle
  have hs' : ((m'.trieAt held.generation).slot held.site.branch held.site.index).isBranch = false := by
    rw [U.slot]; exact hs
  have F' : Trie.Fits path' (m'.trieAt held.generation) (m.hash k) held.site :=
    (T.aimed (F.aimed K.toLayout)).fits K'.toLayout (U.dead.trans F.live)
  refine ⟨⟨Nat.le_trans hle E.generation_le, ⟨path', K', E.hash_eq ▸ F'⟩, hs'⟩, ?_⟩
  obtain ⟨r, hr⟩ := Trie.Layout.exists_locate hs' k TrieMap.anyValue
  cases r with
  | none => exact hr
  | some x =>
    -- an entry that is found now was in the slot before
    obtain ⟨l₁, l₂, hc, hx, hk, _, _⟩ := K'.locate_some hr
    have hmem : x.id ∈ (m.trieAt held.generation).chainAt held.site.branch held.site.index := by
      rw [← U.chain, hc]; simp
    obtain ⟨y, hy, hxy, _⟩ := T.keeps.entry_of_lt (K.lt_of_mem_chainAt hmem) hx
    have := K.locate_none hnone x.id hmem
    rw [Trie.hit_of_entry hy, ← hxy, hk] at this
    cases this

namespace Moment

variable [BEq κ]

/-- The map is in good order, and what is under way can go on. -/
structure Good (s : Moment κ ν) : Prop where
  sound : s.map.Sound
  ready : ∀ o ∈ s.pending, o.Ready s.map

/-- What is under way can go on after a change that respects it. -/
theorem Good.evolve {m m' : TrieMap κ ν} {P : List (Pending κ ν)} (E : m.Evolves m')
    (hready : ∀ o ∈ P, o.Ready m) (hr : Respects P m m') : Good ⟨m', P⟩ where
  sound := E.sound
  ready o ho := by
    cases o with
    | arrived p a =>
      have : m.Arrived (m.hash p.key) a := hready _ ho
      show m'.Arrived (m'.hash p.key) a
      rw [E.hash_eq]
      exact E.arrived this
    | building k held => exact (hr ho).ready E (hready _ ho)

variable [EquivBEq κ] [BEq ν]

/-- Every step is a change of the map as an operation makes it. -/
theorem Step.evolves {s s' : Moment κ ν} (h : Step s s') (G : s.Good) : s.map.Evolves s'.map := by
  cases h with
  | apply op _ => exact TrieMap.apply_evolves G.sound op
  | arrive p _ => exact .refl G.sound
  | @finish m P Q p a _ =>
    have ha : m.Arrived (m.hash p.key) a := G.ready (.arrived p a) (by simp)
    exact TrieMap.finish_evolves G.sound p ha
  | build _ => exact .refl G.sound
  | @built m P Q k held v _ =>
    have hb : (Pending.building k held).Ready m := G.ready (.building k held) (by simp)
    exact TrieMap.insertHeld_evolves G.sound hb.1 hb.2 v
  | abandon => exact .refl G.sound

theorem Step.good {s s' : Moment κ ν} (h : Step s s') (G : s.Good) : s'.Good := by
  have E := h.evolves G
  cases h with
  | apply op hr => exact Good.evolve E G.ready hr
  | @arrive m P p a ha =>
    obtain ⟨path, K⟩ := G.sound.keyed_current
    have harrived : (Pending.arrived p a).Ready m := TrieMap.arrived_arrive K.toLayout ha
    exact ⟨G.sound, List.forall_mem_cons.mpr ⟨harrived, G.ready⟩⟩
  | finish hr => exact Good.evolve E (forall_rest G.ready) hr
  | @build m P Q k outcome a held hset =>
    refine ⟨G.sound, forall_exchange G.ready ?_⟩
    rcases TrieMap.settle_cases G.sound a k with ⟨e, _, h⟩ | ⟨_, e, h, _⟩ |
      ⟨_, held', h, _, H, hnone, _⟩
    · rw [h] at hset
      cases hset
    · rw [h] at hset
      cases hset
    · rw [h] at hset
      cases hset
      exact ⟨H, hnone⟩
  | built v hr => exact Good.evolve E (forall_rest G.ready) hr
  | abandon => exact ⟨G.sound, forall_rest G.ready⟩

/-- The map is in good order in every reachable moment. -/
theorem Reachable.good {hash : κ → UInt64} (law : Lawful hash) {s : Moment κ ν}
    (h : Reachable hash s) : s.Good := by
  induction h with
  | made M => exact ⟨M.sound law, fun _ h => absurd h List.not_mem_nil⟩
  | step _ hs ih => exact hs.good ih

theorem Reachable.hash_eq {hash : κ → UInt64} (law : Lawful hash) {s : Moment κ ν}
    (h : Reachable hash s) : s.map.hash = hash := by
  induction h with
  | made M =>
    obtain ⟨capacity, rfl⟩ := M.eq
    rfl
  | step hreach hs ih => exact (hs.evolves (hreach.good law)).hash_eq.trans ih

end Moment

/-- A map of two keys in one chain. -/
def twoKeys : TrieMap Nat Nat := ((TrieMap.empty fun _ => 0).run [.insert 2 10, .insert 1 5]).2

theorem reachable_twoKeys : Moment.Reachable (fun _ => 0) ⟨twoKeys, []⟩ :=
  Moment.Reachable.run (.made .empty) _

end NibbleTrie
