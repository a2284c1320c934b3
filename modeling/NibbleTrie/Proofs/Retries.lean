/-
Loops that begin again from the root.

An operation that needs a slot walks to it from the root and then tries to hold
it, and begins again as long as it cannot (`TrieMap.Loop`).  A probe that is
for taking an entry also compares its key with a chain on every round, and
whatever a comparison runs happens between the walk and the hold.

No bound is built into such a loop.  It ends because a walk never ends in a
branch that was dropped, nor at a slot that holds a branch: what a walk has
found can be held unless someone writes in between, and then the writer has
split this very slot or dropped its branch (`TrieMap.Shuts`).

Main statement: `Instant.Reachable.loops_end`.
-/
import NibbleTrie.Proofs.Running

namespace NibbleTrie

variable {κ : Type u} {ν : Type v}

namespace TrieMap

/-! ## Loops at rest -/

/-- A loop that tries something where a walk for the hash `h` arrived, and walks again from the
root as long as that comes to nothing.  The walks are counted, with the one that led to the first
arrival. -/
inductive Loop {ρ : Type w} (m : TrieMap κ ν) (h : UInt64) (attempt : Arrival → Option ρ) :
    Arrival → (walks : Nat) → ρ → Prop
  | done {a r} : attempt a = some r → Loop m h attempt a 1 r
  | again {a b n r} : attempt a = none → m.arrive h = .ok b → Loop m h attempt b n r →
      Loop m h attempt a (n + 1) r

section Loop
variable {ρ : Type w} {m : TrieMap κ ν} {h : UInt64} {attempt : Arrival → Option ρ} {a b : Arrival}

namespace Loop

/-- A loop whose first attempt succeeds takes no further walk. -/
theorem iff_of_some {r : ρ} (hr : attempt a = some r) (n : Nat) (r' : ρ) :
    m.Loop h attempt a n r' ↔ n = 1 ∧ r' = r := by
  constructor
  · intro l
    cases l with
    | done hr' => exact ⟨rfl, Option.some.inj (hr'.symm.trans hr)⟩
    | again hnone _ _ => cases hnone.symm.trans hr
  · rintro ⟨rfl, rfl⟩
    exact .done hr

/-- A loop whose first attempt fails goes on from the root. -/
theorem iff_of_none (hnone : attempt a = none) (hb : m.arrive h = .ok b) (n : Nat) (r : ρ) :
    m.Loop h attempt a n r ↔ ∃ n', n = n' + 1 ∧ m.Loop h attempt b n' r := by
  constructor
  · intro l
    cases l with
    | done hr => cases hnone.symm.trans hr
    | again _ hb' l =>
      cases hb.symm.trans hb'
      exact ⟨_, rfl, l⟩
  · rintro ⟨n', rfl, l⟩
    exact .again hnone hb l

/-- If attempts succeed where walks arrive, a loop that comes from anywhere ends, in one way only,
with one more walk at most. -/
theorem exists_iff (hb : m.arrive h = .ok b) (hfresh : attempt b ≠ none) (a : Arrival) :
    ∃ n r, n ≤ 2 ∧ ∀ n' r', m.Loop h attempt a n' r' ↔ n' = n ∧ r' = r := by
  cases hfirst : attempt a with
  | some r => exact ⟨1, r, by omega, iff_of_some hfirst⟩
  | none =>
    obtain ⟨r, hr⟩ := Option.ne_none_iff_exists'.mp hfresh
    refine ⟨2, r, by omega, fun n' r' => ?_⟩
    rw [iff_of_none hfirst hb]
    constructor
    · rintro ⟨n, rfl, l⟩
      obtain ⟨rfl, rfl⟩ := (iff_of_some hr n r').mp l
      exact ⟨rfl, rfl⟩
    · rintro ⟨rfl, rfl⟩
      exact ⟨1, rfl, .done hr⟩

end Loop

variable [BEq κ] {k : κ} {accept : ν → Bool}

/-- What a probe that takes an entry tries where it arrived: there is no match, or there is one
and its slot is held. -/
def takeHold? (m : TrieMap κ ν) (k : κ) (accept : ν → Bool) (a : Arrival) :
    Option (Option Held) :=
  match m.find? a k accept with
  | none => some none
  | some _ => (m.hold? a).map some

/-- A loop for a match that ends within the walks that are granted. -/
theorem Loop.holdMatching_eq {n : Nat} {r : Option Held}
    (l : m.Loop (m.hash k) (m.takeHold? k accept) a n r) :
    ∀ {retries : Nat}, n ≤ retries + 1 → m.holdMatching k accept retries a = .ok r := by
  induction l with
  | @done a r hr =>
    intro retries _
    rw [takeHold?] at hr
    cases hfind : m.find? a k accept with
    | none =>
      rw [hfind] at hr
      cases hr
      cases retries with
      | zero => rw [holdMatching_zero, hfind]
      | succ retries => rw [holdMatching_succ, hfind]
    | some found =>
      rw [hfind] at hr
      obtain ⟨held, hhold, rfl⟩ := Option.map_eq_some_iff.mp hr
      cases retries with
      | zero => simp only [holdMatching_zero, hfind, hhold]
      | succ retries => simp only [holdMatching_succ, hfind, hhold]
  | @again a b n r hnone hb l ih =>
    intro retries hn
    have hpos : 0 < n := by cases l <;> omega
    obtain ⟨retries, rfl⟩ : ∃ i, retries = i + 1 := ⟨retries - 1, by omega⟩
    rw [takeHold?] at hnone
    cases hfind : m.find? a k accept with
    | none => rw [hfind] at hnone; cases hnone
    | some found =>
      rw [hfind] at hnone
      have hhold : m.hold? a = none := Option.map_eq_none_iff.mp hnone
      simp only [holdMatching_succ, hfind, hhold, hb]
      exact ih (Nat.le_of_succ_le_succ hn)

namespace Laid

variable (H : m.Laid)
include H

/-- The loop that holds the slot of a hash ends with the first walk. -/
theorem holdSlot_loop (h : UInt64) : ∃ a held, m.arrive h = .ok a ∧ m.hold? a = some held ∧
    m.holdSlot h = .ok held ∧ ∀ n r, m.Loop h m.hold? a n r ↔ n = 1 ∧ r = held := by
  obtain ⟨a, ha, _, _, hhold⟩ := H.exists_arrive h
  refine ⟨a, _, ha, hhold, ?_, Loop.iff_of_some hhold⟩
  rw [holdSlot, ha]
  simp only [hhold]

/-- The loop for a match ends, with one more walk than the first at most. -/
theorem holdMatching_loop (k : κ) (accept : ν → Bool) (a : Arrival) : ∃ n r, n ≤ 2 ∧
    (∀ n' r', m.Loop (m.hash k) (m.takeHold? k accept) a n' r' ↔ n' = n ∧ r' = r) ∧
    ∀ retries, n ≤ retries + 1 → m.holdMatching k accept retries a = .ok r := by
  obtain ⟨b, hb, _, _, hhold⟩ := H.exists_arrive (m.hash k)
  have hfresh : m.takeHold? k accept b ≠ none := by
    rw [takeHold?]
    cases m.find? b k accept with
    | none => simp
    | some _ => simp [hhold]
  obtain ⟨n, r, hn, hloop⟩ := Loop.exists_iff hb hfresh a
  exact ⟨n, r, hn, hloop, fun _ hle => ((hloop n r).mpr ⟨rfl, rfl⟩).holdMatching_eq hle⟩

end Laid

end Loop

/-! ## What keeps a slot from being held -/

/-- The slot of an arrival can be held in `m`, and in `m'` it holds a branch or its own branch was
dropped. -/
structure Shuts (a : Arrival) (m m' : TrieMap κ ν) : Prop where
  open_before : m.hold? a ≠ none
  shut_after : ((m'.trieAt a.generation).slot a.site.branch a.site.index).isBranch = true ∨
    (m'.trieAt a.generation).isDead a.site.branch = true

section Shuts
variable {m m' : TrieMap κ ν} {a : Arrival}

theorem hold?_eq_none_iff :
    m.hold? a = none ↔ (m.trieAt a.generation).isWritable a.site = false := by
  rw [hold?]
  cases (m.trieAt a.generation).isWritable a.site <;> simp

theorem shuts_of_none (h : m.hold? a ≠ none) (h' : m'.hold? a = none) : Shuts a m m' where
  open_before := h
  shut_after := by
    have hw := hold?_eq_none_iff.mp h'
    rw [Trie.isWritable] at hw
    cases hdead : (m'.trieAt a.generation).isDead a.site.branch with
    | true => exact .inr rfl
    | false => exact .inl (by simpa [hdead] using hw)

/-- If operations run one after another and a slot can no longer be held, one of them has shut
it. -/
theorem exists_shuts_run [BEq κ] [BEq ν] : ∀ {ops : List (Op κ ν)} {m : TrieMap κ ν},
    m.hold? a ≠ none → (m.run ops).2.hold? a = none → ∃ before op after,
      ops = before ++ op :: after ∧ Shuts a (m.run before).2 ((m.run before).2.apply op).state
  | [], _, h, h' => absurd h' h
  | op :: ops, m, h, h' => by
    by_cases hop : (m.apply op).state.hold? a = none
    · exact ⟨[], op, ops, rfl, shuts_of_none h hop⟩
    · obtain ⟨before, op', after, rfl, S⟩ := exists_shuts_run hop h'
      exact ⟨op :: before, op', after, rfl, S⟩

end Shuts

/-- What changes when a generation is written to is this generation. -/
theorem eq_of_trieAt_update_ne {ρ : Type w} {m : TrieMap κ ν} {g g' : Nat}
    {change : Trie κ ν → Effect (Trie κ ν) ρ} (hg : g ≤ m.generation) (hg' : g' ≤ m.generation)
    (h : (m.update g change).state.trieAt g' ≠ m.trieAt g') : g = g' := by
  by_contra hne
  refine h ((trieAt_update change hg hg').trans (if_neg ?_))
  exact fun heq => hne heq.symm

end TrieMap

namespace Instant

variable [BEq κ] [BEq ν] {s s' : Instant κ ν} {a : Arrival}

/-- A slot is shut by something under way that holds a slot of the same trie, and writes. -/
theorem Step.exists_writer (h : Step s s') (G : s.Good) (hg : a.generation ≤ s.map.generation)
    (S : TrieMap.Shuts a s.map s'.map) :
    ∃ w ∈ s.works, ∃ held ∈ w.held?, held.generation = a.generation := by
  have hopen := S.open_before
  have changed : s'.map.trieAt a.generation ≠ s.map.trieAt a.generation := by
    intro hsame
    have hshut := S.shut_after
    rw [hsame] at hshut
    refine hopen (TrieMap.hold?_eq_none_iff.mpr ?_)
    rw [Trie.isWritable]
    rcases hshut with hs | hd
    · simp [hs]
    · simp [hd]
  cases h with
  | @write m P Q plan held _ =>
    have hle : held.generation ≤ m.generation :=
      TrieMap.Grips.generation_le (G.ready (.holding plan held) (by simp))
    exact ⟨.holding plan held, by simp, held, rfl, TrieMap.eq_of_trieAt_update_ne hle hg changed⟩
  | @built m P Q k held v _ =>
    have hle : held.generation ≤ m.generation :=
      TrieMap.Grips.generation_le (G.ready (.building k held) (by simp))
    exact ⟨.building k held, by simp, held, rfl, TrieMap.eq_of_trieAt_update_ne hle hg changed⟩
  | clear => exact absurd (TrieMap.trieAt_clear _ hg) changed
  | _ => exact absurd rfl changed

/-- Where something arrived it still stands later on. -/
theorem Good.arrived_of_runs (G : s.Good) (R : s.Runs s') {h : UInt64}
    (ha : s.map.Arrived h a) : s'.map.Arrived h a := by
  induction R with
  | refl => exact ha
  | tail R hstep ih => exact (hstep.turn (G.runs R)).arrived (G.runs R).laid ih

/-- If a slot could be held and no longer can, then one step in between has shut it. -/
theorem Runs.exists_shuts (R : s.Runs s') (h : s.map.hold? a ≠ none) (h' : s'.map.hold? a = none) :
    ∃ x y, s.Runs x ∧ Step x y ∧ y.Runs s' ∧ TrieMap.Shuts a x.map y.map := by
  induction R with
  | refl => exact absurd h' h
  | @tail x y R hstep ih =>
    by_cases hx : x.map.hold? a = none
    · obtain ⟨x', y', R₁, hstep', R₂, S⟩ := ih hx
      exact ⟨x', y', R₁, hstep', R₂.tail hstep, S⟩
    · exact ⟨x, y, R, hstep, .refl, TrieMap.shuts_of_none hx h'⟩

end Instant

theorem Probe.judge_take_ok [BEq ν] {p : Probe κ ν} (h : p.aim = .take) (found : Option (κ × ν)) :
    ∃ r, (p.judge found).1 = .ok r := by
  cases p <;> cases h <;> cases found <;> simp only [judge]
  all_goals first
    | exact ⟨_, rfl⟩
    | (split <;> exact ⟨_, rfl⟩)

/-- A probe that takes an entry has an answer, wherever it comes from. -/
theorem TrieMap.Laid.finish_take [BEq κ] [BEq ν] {m : TrieMap κ ν} (H : m.Laid) {p : Probe κ ν}
    {a : Arrival} (hp : p.aim = .take) (ha : m.Arrived (m.hash p.key) a) :
    ∃ r, (m.finish a p).result = .ok r := by
  obtain ⟨g, _, O⟩ := H.finish_outcome p ha
  generalize m.finish a p = e at O ⊢
  cases O with
  | settled _ _ _ => exact p.judge_take_ok hp _
  | jammed hjam => exact absurd hjam.2 (Probe.not_inserts (by rw [hp]; decide) m.Jammed)

/-- Loops end, at every instant and with any hash function and any comparison of keys.  A walk ends
at a slot that can be held then, so the loop that holds the slot of a hash takes one walk.  If the
slot of an arrival can no longer be held later on, something has written in between that held a
slot of the same trie, and has made a branch of the slot or dropped its branch; if operations ran
one after another, one of them has.  And if after its first comparison nothing interrupts a probe
any more that is for taking an entry, it walks from the root twice at most, however much that
comparison ran, and has an answer. -/
theorem Instant.Reachable.loops_end [BEq κ] [BEq ν] {hash : κ → UInt64} {s : Instant κ ν}
    (h : Reachable hash s) :
    (∀ x, ∃ a held, s.map.arrive x = .ok a ∧ s.map.hold? a = some held ∧
      s.map.holdSlot x = .ok held ∧ ∀ n r, s.map.Loop x s.map.hold? a n r ↔ n = 1 ∧ r = held) ∧
    (∀ x a, s.map.arrive x = .ok a →
      (∀ s', s.Runs s' → s'.map.hold? a = none → ∃ y z, s.Runs y ∧ Step y z ∧ z.Runs s' ∧
        TrieMap.Shuts a y.map z.map ∧
        ∃ w ∈ y.works, ∃ held ∈ w.held?, held.generation = a.generation) ∧
      ∀ ops, (s.map.run ops).2.hold? a = none → ∃ before op after, ops = before ++ op :: after ∧
        TrieMap.Shuts a (s.map.run before).2 ((s.map.run before).2.apply op).state) ∧
    ∀ p a s', p.aim = .take → s.map.begin p = .ok a →
      Runs ⟨s.map, .searching p a :: s.works⟩ s' →
      ∃ n r, n ≤ 2 ∧
        (∀ n' r', s'.map.Loop (s'.map.hash p.key) (s'.map.takeHold? p.key p.accept) a n' r' ↔
          n' = n ∧ r' = r) ∧
        (∀ retries, n ≤ retries + 1 → s'.map.holdMatching p.key p.accept retries a = .ok r) ∧
        ∃ reply, (s'.map.finish a p).result = .ok reply := by
  have G := h.good
  have opens : ∀ {x a}, s.map.arrive x = .ok a → a.generation = s.map.generation ∧
      s.map.hold? a ≠ none := by
    intro x a ha
    obtain ⟨b, hb, _, hgen, hhold⟩ := G.laid.exists_arrive x
    cases hb.symm.trans ha
    exact ⟨hgen, by rw [hhold]; simp⟩
  refine ⟨G.laid.holdSlot_loop, fun x a ha => ⟨fun s' R hnone => ?_, fun ops => ?_⟩, ?_⟩
  · obtain ⟨hgen, hopen⟩ := opens ha
    obtain ⟨y, z, R₁, hstep, R₂, S⟩ := R.exists_shuts hopen hnone
    have hg : a.generation ≤ y.map.generation := hgen ▸ G.generation_le R₁
    exact ⟨y, z, R₁, hstep, R₂, S, hstep.exists_writer (G.runs R₁) hg S⟩
  · exact TrieMap.exists_shuts_run (opens ha).2
  · intro p a s' hp ha R
    have G' : Good ⟨s.map, .searching p a :: s.works⟩ :=
      G.begin (.searching p a) (G.laid.begin_arrived ha)
    have ha' : s'.map.Arrived (s'.map.hash p.key) a :=
      G'.hash_eq R ▸ G'.arrived_of_runs R (G.laid.begin_arrived ha)
    obtain ⟨n, r, hn, hloop, hmatch⟩ :=
      (G'.runs R).laid.holdMatching_loop p.key p.accept a
    exact ⟨n, r, hn, hloop, hmatch, (G'.runs R).laid.finish_take hp ha'⟩

/-- The hashes of small numbers differ in their first two groups. -/
def upfront (k : Nat) : UInt64 := UInt64.ofNat k <<< 56

/-- A map of the key 1. -/
def oneKey : TrieMap Nat Nat := ((TrieMap.empty upfront).run [.insert 1 5]).2

/-- The key 1 is about to be removed when the key 2 splits its slot.  The slot can no longer be
held, and the removal takes a second walk. -/
theorem loops_end_oneKey :
    let m := (oneKey.run [.insert 2 6]).2
    (∃ a held, oneKey.arrive (upfront 1) = .ok a ∧ oneKey.hold? a = some held ∧
      oneKey.holdSlot (upfront 1) = .ok held ∧
      ∀ n r, oneKey.Loop (upfront 1) oneKey.hold? a n r ↔ n = 1 ∧ r = held) ∧
    (∃ before op after, [.insert 2 6] = before ++ op :: after ∧
      TrieMap.Shuts ⟨0, ⟨0, 0, 15⟩, some 0⟩ (oneKey.run before).2
        ((oneKey.run before).2.apply op).state) ∧
    (∀ n r, m.Loop (upfront 1) (m.takeHold? 1 TrieMap.anyValue) ⟨0, ⟨0, 0, 15⟩, some 0⟩ n r ↔
      n = 2 ∧ r = some ⟨0, 1, 1, 14⟩) ∧
    ∃ reply, (m.finish ⟨0, ⟨0, 0, 15⟩, some 0⟩ (.erase 1)).result = .ok reply := by
  intro m
  have hone : Instant.Reachable upfront ⟨oneKey, []⟩ := .of_made .empty _
  obtain ⟨hslot, hshut, htake⟩ := hone.loops_end
  have harrive : oneKey.begin (.erase 1) = .ok ⟨0, ⟨0, 0, 15⟩, some 0⟩ := rfl
  have hstep : Instant.Step ⟨oneKey, []⟩
      ⟨oneKey, [.searching (.erase 1) ⟨0, ⟨0, 0, 15⟩, some 0⟩]⟩ := .arrive harrive
  have hfree : ∀ w ∈ [(.searching (.erase 1) ⟨0, ⟨0, 0, 15⟩, some 0⟩ : Work Nat Nat)],
      w.held? = none := fun w hw => by rw [List.mem_singleton.mp hw]; rfl
  have hruns := Instant.Runs.run hfree (hstep.good hone.good) [.insert 2 6]
  obtain ⟨n, r, _, hloop, _, hreply⟩ := htake (.erase 1) _ _ rfl harrive hruns
  have htwice : m.Loop (upfront 1) (m.takeHold? 1 TrieMap.anyValue) ⟨0, ⟨0, 0, 15⟩, some 0⟩ 2
      (some ⟨0, 1, 1, 14⟩) := .again rfl rfl (.done rfl)
  obtain ⟨rfl, rfl⟩ := (hloop 2 _).mp htwice
  exact ⟨hslot (upfront 1), (hshut (upfront 1) _ harrive).2 _ rfl, hloop, hreply⟩

end NibbleTrie
