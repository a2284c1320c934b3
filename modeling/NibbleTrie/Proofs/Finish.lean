/-
Operations carry out plans.

An operation on one key comes to an end in one of a few ways, and all of them but
one write nothing: a probe has seen enough on the way, or the operation holds a
slot and carries out its plan there.  `Finishes` lists the ways for a probe that
goes on from an arrival, however old the arrival is.

Main statements: `Laid.finishes` for probes, and `Laid.atOnce` for operations that
hold their slot at once.
-/
import NibbleTrie.Proofs.Plan

namespace NibbleTrie

variable {κ : Type u} {ν : Type v}

/-- What a probe wants of the entry that it searches for. -/
inductive Aim where
  /-- To look at it. -/
  | look
  /-- To insert one if there is none. -/
  | fill
  /-- To remove or replace it. -/
  | take
deriving DecidableEq

/-- What a probe is for. -/
def Probe.aim : Probe κ ν → Aim
  | .get? _ | .contains _ => .look
  | .getOrInsert _ _ | .getOrBuild _ _ => .fill
  | .pop? _ | .erase _ | .compareAndSwap _ _ _ | .compareAndErase _ _ => .take

namespace Effect

variable {σ : Type u} {ρ : Type v} {ρ' : Type w} {ρ'' : Type w'}

theorem map_map (e : Effect σ ρ) (f : ρ → ρ') (f' : ρ' → ρ'') :
    (e.map f).map f' = e.map fun r => f' (f r) := by
  obtain ⟨result, state, events⟩ := e
  cases result <;> rfl

/-- A fault takes precedence over an answer that is known beforehand. -/
theorem map_const (e : Effect σ ρ) (r : ρ') :
    e.map (fun _ => r) = ⟨e.result.bind fun _ => .ok r, e.state, e.events⟩ := by
  obtain ⟨result, state, events⟩ := e
  cases result <;> rfl

end Effect

namespace TrieMap

variable [BEq κ] {m : TrieMap κ ν} {a : Arrival} {held : Held} {k : κ} {accept : ν → Bool}

/-- The key and the value of the entry that the search from the head of an arrival finds. -/
def met? (m : TrieMap κ ν) (a : Arrival) (k : κ) (accept : ν → Bool) : Option (κ × ν) :=
  (m.find? a k accept).map fun found => (found.2.key, found.2.value)

theorem peek_eq_met? (m : TrieMap κ ν) (a : Arrival) (k : κ) :
    m.peek a k = (m.met? a k anyValue).map (·.2) := by
  rw [peek, met?, find?, Option.map_map]
  cases a.head with
  | none => rfl
  | some head => rfl

/-! ## On a held slot -/

section Held
variable {plan : Plan κ ν}

/-- To put a key into the slot that is held for it is to carry out a plan. -/
theorem swap_carriesOut {v : ν} (hheld : m.holdSlot (m.hash k) = .ok held)
    (reply : Option ν → Reply κ ν) : (m.swap k v).map reply =
      m.carryOut held (.store k v fun found => reply (found.map (·.2))) := by
  simp only [swap, hheld]
  rw [update_map]
  refine update_congr ?_
  generalize m.trieAt held.generation = t
  simp only [Trie.carryOut, Plan.store]
  cases t.locate held.site k anyValue with
  | error f => rfl
  | ok found =>
    cases found with
    | some x => rfl
    | none => exact (Effect.map_map _ _ _).trans (Effect.map_const _ _)

/-- To put a key into the slot that is held for it, if it is not there, is to carry out a plan. -/
theorem insertNew_carriesOut {v : ν} (hheld : m.holdSlot (m.hash k) = .ok held) :
    (m.insertNew k v).map Reply.inserted = m.carryOut held (.insertNew k v) := by
  simp only [insertNew, hheld]
  rw [update_map]
  refine update_congr ?_
  generalize m.trieAt held.generation = t
  simp only [Trie.carryOut, Plan.insertNew]
  cases t.locate held.site k anyValue with
  | error f => rfl
  | ok found =>
    cases found with
    | some x => rfl
    | none => exact (Effect.map_map _ _ _).trans (Effect.map_const _ _)

/-- Removing what a plan meets in a held slot. -/
theorem Laid.erase_carriesOut (H : m.Laid) (hg : held.generation ≤ m.generation)
    {reply : Option ν → Reply κ ν}
    (hsome : ∀ e : κ × ν, plan.accept e.2 = true →
      plan.judge (some e) = (.ok (reply (some e.2)), .remove))
    (hnone : plan.judge none = (.ok (reply none), .keep)) :
    (m.update held.generation fun t =>
      match t.locate held.site plan.key plan.accept with
      | .error f => .fail t f
      | .ok none => .pure t none
      | .ok (some x) =>
        let (t, events) := t.removeAt held.site (m.hash plan.key) x
        ⟨.ok (some x.entry.value), t, events⟩).map reply = m.carryOut held plan := by
  obtain ⟨path, L⟩ := H.layout held.generation hg
  rw [update_map]
  refine update_congr ?_
  rw [Trie.carryOut]
  cases hloc : (m.trieAt held.generation).locate held.site plan.key plan.accept with
  | error f => rfl
  | ok found =>
    cases found with
    | none => simp only [Option.map_none, hnone]; rfl
    | some x =>
      obtain ⟨_, _, _, _, _, haccept, _⟩ := L.locate_some hloc
      simp only [Option.map_some, hsome x.item haccept]
      rfl

/-- Replacing the value of what a plan meets in a held slot. -/
theorem Laid.replace_carriesOut (H : m.Laid) (hg : held.generation ≤ m.generation) {new : ν}
    {reply : Bool → Reply κ ν}
    (hsome : ∀ e : κ × ν, plan.accept e.2 = true →
      plan.judge (some e) = (.ok (reply true), .put e.1 new))
    (hnone : plan.judge none = (.ok (reply false), .keep)) :
    (m.update held.generation fun t =>
      match t.locate held.site plan.key plan.accept with
      | .error f => .fail t f
      | .ok none => .pure t false
      | .ok (some x) => .pure (t.replace x x.entry.key new) true).map reply =
    m.carryOut held plan := by
  obtain ⟨path, L⟩ := H.layout held.generation hg
  rw [update_map]
  refine update_congr ?_
  rw [Trie.carryOut]
  cases hloc : (m.trieAt held.generation).locate held.site plan.key plan.accept with
  | error f => rfl
  | ok found =>
    cases found with
    | none => simp only [Option.map_none, hnone]; rfl
    | some x =>
      obtain ⟨_, _, _, _, _, haccept, _⟩ := L.locate_some hloc
      simp only [Option.map_some, hsome x.item haccept]
      rfl

end Held

/-! ## Operations that hold their slot at once -/

variable [BEq ν]

/-- An operation holds the slot of its key in the current trie and carries out its plan. -/
def AtOnce (m : TrieMap κ ν) (op : Op κ ν) (plan : Plan κ ν) : Prop :=
  ∃ held, m.holdSlot (m.hash plan.key) = .ok held ∧ m.apply op = m.carryOut held plan

/-- Operations on one key that are not probes hold their slot at once. -/
theorem Laid.atOnce (H : m.Laid) {op : Op κ ν} {plan : Plan κ ν} (hplan : op.plan? = some plan)
    (hop : ∀ p, op ≠ .probe p) : m.AtOnce op plan := by
  obtain ⟨held, hheld, _⟩ := H.exists_holdSlot (m.hash plan.key)
  refine ⟨held, hheld, ?_⟩
  cases op with
  | probe p => exact absurd rfl (hop p)
  | insert k v =>
    cases hplan
    rw [apply, insert, Effect.map_map]
    exact swap_carriesOut hheld fun _ => .done
  | swap k v => cases hplan; exact swap_carriesOut hheld .value?
  | insertNew k v => cases hplan; exact insertNew_carriesOut hheld
  | _ => cases hplan

/-! ## Probes -/

/-- A probe that nothing interrupts goes on from its arrival at once. -/
theorem apply_probe {p : Probe κ ν} (ha : m.begin p = .ok a) :
    m.apply (.probe p) = m.finish a p := by
  rw [apply, interrupted, ha]
  simp only [id_eq, ite_self]

/-- How a probe ends that goes on from an arrival. -/
inductive Finishes (m : TrieMap κ ν) (a : Arrival) (p : Probe κ ν) :
    Effect (TrieMap κ ν) (Reply κ ν) → Prop
  /-- It looks at what the search finds. -/
  | looked : p.aim = .look → Finishes m a p ⟨(p.judge (m.met? a p.key p.accept)).1, m, []⟩
  /-- It finds the entry that it would insert. -/
  | present {e : κ × ν} : p.aim = .fill → m.met? a p.key p.accept = some e →
      Finishes m a p ⟨(p.judge (some e)).1, m, []⟩
  /-- It finds no entry, and holds the slot of its key. -/
  | absent {held : Held} : p.aim = .fill → m.met? a p.key p.accept = none →
      m.holdSlot (m.hash p.key) = .ok held → Finishes m a p (m.carryOut held p.plan)
  /-- It finds no entry to take. -/
  | missed : p.aim = .take → m.Matching p.key p.accept a none →
      Finishes m a p ⟨(p.judge none).1, m, []⟩
  /-- It finds an entry to take, and holds its slot. -/
  | matched {held : Held} : p.aim = .take → m.Matching p.key p.accept a (some held) →
      Finishes m a p (m.carryOut held p.plan)

omit [BEq κ] in
theorem plan_getOrInsert (k : κ) (v : ν) :
    (Probe.getOrInsert k v).plan = (Probe.getOrBuild k (.ok v)).plan := by
  have hjudge : (Probe.getOrInsert k v).judge = (Probe.getOrBuild k (.ok v)).judge := by
    funext found
    cases found <;> rfl
  simp only [Probe.plan, hjudge]
  rfl

/-- Keeping the value of a present key, or inserting the key. -/
theorem Laid.insertOrKeep_eq (H : m.Laid) (a : Arrival) (k : κ) (build : Except String ν) :
    ∃ held, m.holdSlot (m.hash k) = .ok held ∧ finish.insertOrKeep m a k build =
      match m.met? a k anyValue with
      | some e => .pure m (.kept e.2 true)
      | none => m.carryOut held (Probe.getOrBuild k build).plan := by
  obtain ⟨held, hheld, G, _⟩ := H.exists_holdSlot (m.hash k)
  refine ⟨held, hheld, ?_⟩
  rw [finish.insertOrKeep, settle, peek_eq_met?]
  cases m.met? a k anyValue with
  | some e => rfl
  | none =>
    obtain ⟨found, hloc⟩ := Trie.Layout.exists_locate G.not_branch k anyValue
    have hcarry : (m.trieAt held.generation).carryOut m.hash held.site
        (Probe.getOrBuild k build).plan = _ := Trie.carryOut_eq hloc
    simp only [Option.map_none, hheld, hloc]
    cases found with
    | some x => exact (update_of_keep hcarry).symm
    | none =>
      cases build with
      | error message => exact (update_of_keep hcarry).symm
      | ok v =>
        simp only
        rw [insertHeld, update_map]
        exact update_congr ((Effect.map_const _ _).trans hcarry.symm)

theorem Laid.erase_finishes (H : m.Laid) (ha : m.Arrived (m.hash k) a) {p : Probe κ ν}
    (hp : p.aim = .take) (hk : p.key = k) (hacc : p.accept = accept) {reply : Option ν → Reply κ ν}
    (hsome : ∀ e : κ × ν, accept e.2 = true →
      p.judge (some e) = (.ok (reply (some e.2)), .remove))
    (hnone : p.judge none = (.ok (reply none), .keep)) :
    m.Finishes a p ((m.eraseWhere a k accept).map reply) := by
  subst hk hacc
  obtain ⟨r, hr, M⟩ := H.exists_matching p.key p.accept a
  rw [eraseWhere, hr]
  cases r with
  | none =>
    have F : m.Finishes a p _ := .missed hp M
    rw [hnone] at F
    exact F
  | some held =>
    have F : m.Finishes a p _ := .matched hp M
    rw [← H.erase_carriesOut (M.grips H ha).1.generation_le hsome hnone] at F
    exact F

theorem Laid.replace_finishes (H : m.Laid) (ha : m.Arrived (m.hash k) a) {p : Probe κ ν}
    (hp : p.aim = .take) (hk : p.key = k) (hacc : p.accept = accept) {new : ν}
    (hsome : ∀ e : κ × ν, accept e.2 = true →
      p.judge (some e) = (.ok (.flag true), .put e.1 new))
    (hnone : p.judge none = (.ok (.flag false), .keep)) :
    m.Finishes a p ((m.replaceWhere a k accept new).map .flag) := by
  subst hk hacc
  obtain ⟨r, hr, M⟩ := H.exists_matching p.key p.accept a
  rw [replaceWhere, hr]
  cases r with
  | none =>
    have F : m.Finishes a p _ := .missed hp M
    rw [hnone] at F
    exact F
  | some held =>
    have F : m.Finishes a p _ := .matched hp M
    rw [← H.replace_carriesOut (M.grips H ha).1.generation_le hsome hnone] at F
    exact F

/-- A probe that goes on from an arrival ends in one of these ways. -/
theorem Laid.finishes (H : m.Laid) (p : Probe κ ν) (ha : m.Arrived (m.hash p.key) a) :
    m.Finishes a p (m.finish a p) := by
  cases p with
  | get? k =>
    have F : m.Finishes a (.get? k) _ := .looked rfl
    rw [finish, peek_eq_met?]
    exact F
  | contains k =>
    have F : m.Finishes a (.contains k) _ := .looked rfl
    rw [finish, peek_eq_met?, Option.isSome_map]
    exact F
  | getOrInsert k v =>
    obtain ⟨held, hheld, heq⟩ := H.insertOrKeep_eq a k (.ok v)
    rw [finish, heq]
    cases hmet : m.met? a k anyValue with
    | some e => exact .present rfl hmet
    | none => exact plan_getOrInsert k v ▸ .absent rfl hmet hheld
  | getOrBuild k build =>
    obtain ⟨held, hheld, heq⟩ := H.insertOrKeep_eq a k build
    rw [finish, heq]
    cases hmet : m.met? a k anyValue with
    | some e => exact .present rfl hmet
    | none => exact .absent rfl hmet hheld
  | pop? k => exact H.erase_finishes ha rfl rfl rfl (fun _ _ => rfl) rfl
  | erase k => exact H.erase_finishes ha rfl rfl rfl (fun _ _ => rfl) rfl
  | compareAndSwap k old new =>
    refine H.replace_finishes ha rfl rfl rfl (fun e he => ?_) rfl
    have he' : (e.2 == old) = true := he
    simp only [Probe.judge, he', if_true]
  | compareAndErase k old =>
    refine H.erase_finishes ha rfl rfl rfl (fun e he => ?_) rfl
    have he' : (e.2 == old) = true := he
    simp only [Probe.judge, he', if_true, Option.isSome_some]

end TrieMap

end NibbleTrie
