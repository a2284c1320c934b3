/-
A map is its content.

Operations that run one after another, each to its end before the next, cannot
tell a map from its content: they answer alike, and what the map lists is the
content in some order.  This holds for every hash function that respects
equality, the constant ones included, and for every capacity hint.

Main statement: `run_made`.
-/
import NibbleTrie.Proofs.Probing

namespace NibbleTrie

/-- True of operations that make one write at most, to the current trie. -/
def Op.isSingle {κ : Type u} {ν : Type v} : Op κ ν → Bool
  | .insertMany _ | .clear => false
  | _ => true

namespace TrieMap

variable {κ : Type u} {ν : Type v} {ρ : Type w} [BEq κ] {m : TrieMap κ ν}

/-- A map as it is made, before the first operation. -/
inductive Made (hash : κ → UInt64) : TrieMap κ ν → Prop
  | empty : Made hash (.empty hash)
  | withCapacity (capacity : Nat) : Made hash (withCapacity hash capacity).state

omit [BEq κ] in
theorem withCapacity_zero (hash : κ → UInt64) :
    (withCapacity hash 0 : Effect (TrieMap κ ν) Unit).state = .empty hash := rfl

omit [BEq κ] in
/-- A map as it is made has a hash function, one generation, and no entries. -/
theorem Made.eq {hash : κ → UInt64} (M : Made hash m) :
    ∃ capacity, m = (TrieMap.withCapacity hash capacity).state := by
  cases M with
  | empty => exact ⟨0, (withCapacity_zero hash).symm⟩
  | withCapacity capacity => exact ⟨capacity, rfl⟩

theorem Made.sound {hash : κ → UInt64} (law : Lawful hash) (M : Made hash m) : m.Sound := by
  obtain ⟨capacity, rfl⟩ := M.eq
  exact sound_withCapacity law capacity

omit [BEq κ] in
theorem Made.toList_eq {hash : κ → UInt64} (M : Made hash m) : m.toList = [] := by
  obtain ⟨capacity, rfl⟩ := M.eq
  obtain ⟨path, L, hentries, _⟩ := Trie.exists_layout_prebuilt (κ := κ) (ν := ν) capacity
  have hlen := L.length_ids_le
  simp only [hentries, List.size_toArray, List.length_nil, Nat.le_zero] at hlen
  show (Trie.prebuilt (levelsFor capacity) : Trie κ ν).toList = []
  rw [L.toList_eq, List.length_eq_zero_iff.mp hlen]
  rfl

omit [BEq κ] in
theorem toList_clear (m : TrieMap κ ν) : m.clear.state.toList = [] := by
  have M : Made m.hash (empty m.hash : TrieMap κ ν) := .empty
  exact M.toList_eq

/-- The effect `e` leaves a map in good order, answers what `spec` says of the content of `m`, and
leaves the content that `spec` says. -/
structure Refines (m : TrieMap κ ν) (e : Effect (TrieMap κ ν) ρ)
    (spec : Content κ ν → Except Fault ρ × Content κ ν) : Prop where
  sound : e.state.Sound
  agrees : ∀ l, m.toList.Perm l → e.result = (spec l).1 ∧ e.state.toList.Perm (spec l).2

theorem Acts.refines {e : Effect (TrieMap κ ν) ρ}
    {spec : Content κ ν → Except Fault ρ × Content κ ν} (A : Acts m m.generation e spec)
    (S : m.Sound) : Refines m e spec where
  sound := A.sound S
  agrees l hl := by
    have h := A.acts.agrees l (by rw [trieAt_generation]; exact hl)
    rw [← A.generation_eq, trieAt_generation] at h
    exact h

variable [EquivBEq κ]

theorem insert_acts (S : m.Sound) (k : κ) (v : ν) :
    Acts m m.generation (m.insert k v) fun l => (.ok (), Content.store l (k, v)) :=
  (swap_acts S k v).map fun _ => ()

/-- An insertion of many entries goes on behind the first one. -/
theorem insertMany_cons (S : m.Sound) (k : κ) (v : ν) (rest : List (κ × ν)) :
    (m.insertMany ((k, v) :: rest)).result = ((m.insert k v).state.insertMany rest).result ∧
      (m.insertMany ((k, v) :: rest)).state = ((m.insert k v).state.insertMany rest).state :=
  Effect.andThen_of_ok (((insert_acts S k v).refines S).agrees _ (.refl _)).1

/-- Inserting entries in order is storing them in order. -/
theorem insertMany_refines : ∀ {m : TrieMap κ ν} (_ : m.Sound) (entries : List (κ × ν)),
    Refines m (m.insertMany entries) fun l => (.ok (), entries.foldl Content.store l)
  | m, S, [] => ⟨S, fun _ hl => ⟨rfl, hl⟩⟩
  | m, S, (k, v) :: rest => by
    have R := (insert_acts S k v).refines S
    have ih := insertMany_refines R.sound rest
    obtain ⟨hresult, hstate⟩ := insertMany_cons S k v rest
    refine ⟨by rw [hstate]; exact ih.sound, fun l hl => ?_⟩
    rw [hresult, hstate]
    exact ih.agrees _ (R.agrees l hl).2

variable [BEq ν]

/-- A probe that nothing interrupts acts on the current content. -/
theorem probe_acts (S : m.Sound) (p : Probe κ ν) :
    Acts m m.generation (m.interrupted p id) fun l => Content.apply l (.probe p) := by
  obtain ⟨path, K⟩ := S.keyed_current
  obtain ⟨site, harrive, _, _⟩ := arrive_eq K.toLayout (m.hash p.key)
  have ha := arrived_arrive K.toLayout harrive
  simp only [interrupted, begin, harrive, id_eq, ite_self]
  rcases finish_cases S p ha with ⟨hstate, hjudge⟩ | ⟨g, hg, A⟩
  · refine Acts.of_state_eq hstate fun l hl => ?_
    rw [trieAt_generation] at hl
    simp only [Content.apply, ← seen_arrive S harrive hl, hjudge]
    rfl
  · have hg' : g = m.generation := by rcases hg with h | h <;> exact h
    exact hg' ▸ A

/-- An operation other than an insertion of many entries or a clearing is one write at most. -/
theorem apply_acts (S : m.Sound) {op : Op κ ν} (hop : op.isSingle = true) :
    Acts m m.generation (m.apply op) fun l => Content.apply l op := by
  cases op with
  | probe p => exact probe_acts S p
  | insert k v => exact (insert_acts S k v).map fun _ => Reply.done
  | swap k v => exact (swap_acts S k v).map (Reply.value? (κ := κ))
  | insertNew k v =>
    refine ((insertNew_acts S k v).map Reply.inserted).congr fun l _ => ?_
    simp only [Content.apply]
    cases Content.lookup? l k <;> rfl
  | insertMany entries => cases hop
  | clear => cases hop
  | size =>
    refine Acts.keep.congr fun l hl => ?_
    rw [trieAt_generation] at hl
    rw [S.size_eq, show m.toList.length = l.length from hl.length_eq]
    rfl
  | isEmpty =>
    refine Acts.keep.congr fun l hl => ?_
    rw [trieAt_generation] at hl
    rw [isEmpty, S.size_eq, show m.toList.length = l.length from hl.length_eq]
    cases l <;> rfl

/-- Every operation answers what it answers on the content, and edits the content. -/
theorem apply_refines (S : m.Sound) (op : Op κ ν) :
    Refines m (m.apply op) fun l => Content.apply l op := by
  by_cases hop : op.isSingle = true
  · exact (apply_acts S hop).refines S
  · cases op with
    | insertMany entries =>
      have R := insertMany_refines S entries
      refine ⟨R.sound, fun l hl => ⟨?_, (R.agrees l hl).2⟩⟩
      show ((m.insertMany entries).result.map fun _ => Reply.done) = _
      rw [(R.agrees l hl).1]
      rfl
    | clear =>
      refine ⟨S.clear, fun l _ => ⟨rfl, ?_⟩⟩
      exact List.Perm.of_eq (toList_clear m)
    | _ => exact absurd rfl hop

/-- The answers of operations one after another, and the map they leave.  An operation that
answers with a fault does not keep the next one from running. -/
def run (m : TrieMap κ ν) : List (Op κ ν) → List (Except Fault (Reply κ ν)) × TrieMap κ ν
  | [] => ([], m)
  | op :: ops =>
    let e := m.apply op
    (e.result :: (e.state.run ops).1, (e.state.run ops).2)

/-- Operations one after another answer as on the content, and leave the content that they leave
there. -/
theorem run_refines : ∀ {m : TrieMap κ ν} (_ : m.Sound) (ops : List (Op κ ν)),
    (m.run ops).2.Sound ∧ ∀ l, m.toList.Perm l →
      (m.run ops).1 = (Content.run l ops).1 ∧ (m.run ops).2.toList.Perm (Content.run l ops).2
  | m, S, [] => ⟨S, fun _ hl => ⟨rfl, hl⟩⟩
  | m, S, op :: ops => by
    have R := apply_refines S op
    obtain ⟨hsound, hagrees⟩ := run_refines R.sound ops
    refine ⟨hsound, fun l hl => ?_⟩
    obtain ⟨hresult, hperm⟩ := R.agrees l hl
    obtain ⟨hreplies, hfinal⟩ := hagrees _ hperm
    exact ⟨congrArg₂ List.cons hresult hreplies, hfinal⟩

/-- Whatever operations run on a map from its making on, it answers them as a finite map does, it
lists what the finite map holds, and its size is the number of its keys. -/
theorem run_made {hash : κ → UInt64} (law : Lawful hash) (M : Made hash m) (ops : List (Op κ ν)) :
    (m.run ops).1 = (Content.run [] ops).1 ∧
      (m.run ops).2.toList.Perm (Content.run [] ops).2 ∧
      (m.run ops).2.size = (Content.run [] ops).2.length := by
  have S := M.sound law
  obtain ⟨hsound, hagrees⟩ := run_refines S ops
  obtain ⟨hreplies, hperm⟩ := hagrees [] (List.Perm.of_eq M.toList_eq)
  exact ⟨hreplies, hperm, by rw [hsound.size_eq, hperm.length_eq]⟩

/-- Two keys with one hash, in a trie with branches built ahead. -/
theorem run_made_const :
    let m : TrieMap Nat Nat := (withCapacity (fun _ => 0) 300 : Effect _ Unit).state
    let ops := [.insertMany [(1, 10), (2, 20)], .swap 1 11, .probe (.erase 2)]
    (m.run ops).1 = (Content.run [] ops).1 ∧ (m.run ops).2.toList.Perm (Content.run [] ops).2 ∧
      (m.run ops).2.size = (Content.run [] ops).2.length :=
  run_made (.const 0) (.withCapacity 300) _

end TrieMap

end NibbleTrie
