/-
What an operation on one key comes to.

Its answer and what it exchanges are those that its plan gives for an entry of
its key, or for none; or the slot of its key is jammed, and nothing happens
(`Outcome`).  This holds as well for a probe that goes on from an arrival of some
time ago, and for an operation that holds its slot already.

Main statements: `Laid.finish_outcome` for probes that were interrupted, and
`Laid.apply_outcome` for operations that run as a whole; what follows for faults
is `Outcome.failsIff`.
-/
import NibbleTrie.Proofs.Finish

namespace NibbleTrie

variable {κ : Type u} {ν : Type v}

namespace TrieMap

variable [BEq κ] {m m' : TrieMap κ ν} {a : Arrival} {held : Held} {k : κ} {accept : ν → Bool}
  {plan : Plan κ ν} {g : Nat} {jam : Prop} {e : Effect (TrieMap κ ν) (Reply κ ν)}

omit [BEq κ] in
/-- Hash bits run out exactly because of `jam`, and then nothing happens at all.  Besides only a
builder gives up, and after every fault the map is as it was. -/
structure FailsIff {ρ : Type w} (m : TrieMap κ ν) (jam : Prop) (e : Effect (TrieMap κ ν) ρ) :
    Prop where
  fault : ∀ f, e.result = .error f → f = .splitExhausted ∨ ∃ message, f = .builder message
  splitExhausted_iff : e.result = .error .splitExhausted ↔ jam
  state_eq : ∀ f, e.result = .error f → e.state = m
  eq_fail : jam → e = .fail m .splitExhausted

/-- A plan is carried out in the generation `g`, or nothing happens because of `jam`. -/
inductive Outcome (m : TrieMap κ ν) (plan : Plan κ ν) (g : Nat) (jam : Prop) :
    Effect (TrieMap κ ν) (Reply κ ν) → Prop
  /-- The plan is carried out for the entry `found`, or for none. -/
  | settled {found : Option (κ × ν)} {m' : TrieMap κ ν} {events : List Event} :
      (∀ e ∈ found, (e.1 == plan.key) = true ∧ plan.accept e.2 = true) →
      m.Amends m' g ((plan.judge found).2.gone found) (plan.judge found).2.new → ¬ jam →
      Outcome m plan g jam ⟨(plan.judge found).1, m', events⟩
  | jammed : jam → Outcome m plan g jam (.fail m .splitExhausted)

namespace FailsIff

omit [BEq κ]

variable {ρ : Type w}

theorem of_ok {e : Effect (TrieMap κ ν) ρ} {r : ρ} (hok : e.result = .ok r) (hjam : ¬ jam) :
    m.FailsIff jam e where
  fault f hf := by rw [hok] at hf; cases hf
  splitExhausted_iff := by
    rw [hok]
    exact iff_of_false (fun hf => by cases hf) hjam
  state_eq f hf := by rw [hok] at hf; cases hf
  eq_fail hj := absurd hj hjam

theorem of_jam (hjam : jam) :
    m.FailsIff jam (.fail m .splitExhausted : Effect (TrieMap κ ν) ρ) where
  fault f hf := by cases hf; exact .inl rfl
  splitExhausted_iff := ⟨fun _ => hjam, fun _ => rfl⟩
  state_eq _ _ := rfl
  eq_fail _ := rfl

/-- Another answer changes no fault. -/
theorem map {ρ' : Type w'} {e : Effect (TrieMap κ ν) ρ}
    (F : m.FailsIff jam e) (f : ρ → ρ') : m.FailsIff jam (e.map f) := by
  have herror : ∀ fault, (e.map f).result = .error fault ↔ e.result = .error fault := by
    intro fault
    obtain ⟨_ | _, _, _⟩ := e <;> simp [Effect.map, Except.map]
  exact
    { fault := fun fault h => F.fault fault ((herror fault).mp h)
      splitExhausted_iff := (herror _).trans F.splitExhausted_iff
      state_eq := fun fault h => F.state_eq fault ((herror fault).mp h)
      eq_fail := fun hjam => by rw [F.eq_fail hjam]; rfl }

end FailsIff

namespace Outcome

/-- One generation is changed at most. -/
theorem amends (O : m.Outcome plan g jam e) (hg : g ≤ m.generation) :
    ∃ gone new, m.Amends e.state g gone new := by
  cases O with
  | settled _ A _ => exact ⟨_, _, A⟩
  | jammed _ => exact ⟨none, none, .keep hg⟩

theorem congr {jam' : Prop} (O : m.Outcome plan g jam e) (h : jam ↔ jam') :
    m.Outcome plan g jam' e := by
  cases O with
  | settled hfound A hjam => exact .settled hfound A fun hj => hjam (h.mpr hj)
  | jammed hjam => exact .jammed (h.mp hjam)

/-- A plan that keeps what it finds leaves the map as it is. -/
theorem of_keep {found : Option (κ × ν)} (hg : g ≤ m.generation) (hjam : ¬ jam)
    (hfound : ∀ e ∈ found, (e.1 == plan.key) = true ∧ plan.accept e.2 = true)
    (hkeep : (plan.judge found).2 = .keep) :
    m.Outcome plan g jam ⟨(plan.judge found).1, m, []⟩ := by
  refine .settled hfound ?_ hjam
  rw [hkeep]
  exact .keep hg

theorem failsIff (O : m.Outcome plan g jam e) : m.FailsIff jam e := by
  cases O with
  | jammed hjam => exact .of_jam hjam
  | @settled found m' events _ A hjam =>
    cases hresult : (plan.judge found).1 with
    | ok r => exact .of_ok rfl hjam
    | error f =>
      obtain ⟨hkeep, message, rfl⟩ := plan.judge_error hresult
      rw [hkeep] at A
      obtain rfl := A.eq_of_none
      exact
        { fault := fun f hf => by cases hf; exact .inr ⟨message, rfl⟩
          splitExhausted_iff := iff_of_false (fun hf => by cases hf) hjam
          state_eq := fun _ _ => rfl
          eq_fail := fun hj => absurd hj hjam }

end Outcome

/-! ## Where insertions get stuck -/

/-- The walk for the key `k` ends on a slot whose chain has no match for `k` and whose head has
another hash than `k`, but the same bits below the slot. -/
def Jammed (m : TrieMap κ ν) (k : κ) : Prop :=
  ∃ site head x, m.current.route (m.hash k) = .ok (site, some head) ∧
    (∀ e ∈ m.current.chain head, m.current.hit k anyValue e = false) ∧
    m.current.entries[head]? = some x ∧ m.hash x.key ≠ m.hash k ∧
    ∀ j < shiftOf site.level, (m.hash x.key).toNat.testBit j = (m.hash k).toNat.testBit j

/-- A slot that is held now is jammed for its key if the map is. -/
theorem Laid.jammed_iff (H : m.Laid) (hheld : m.holdSlot (m.hash k) = .ok held) :
    m.Jammed k ↔ (m.trieAt held.generation).sought? held.site k anyValue = none ∧
      (m.trieAt held.generation).Jams m.hash held.site k := by
  obtain ⟨path, L⟩ := H.layout_current
  obtain ⟨site, hroute, F, hs⟩ := L.route_eq (m.hash k)
  have hw : m.current.isWritable site = true := Trie.isWritable_iff.mpr ⟨F.live, hs⟩
  obtain rfl : held = ⟨m.generation, site⟩ := by
    simp only [holdSlot, arrive, hroute, Except.map, hold?, trieAt_generation, hw, if_true] at hheld
    cases hheld
    rfl
  rw [trieAt_generation, L.sought?_eq_none_iff hs]
  constructor
  · rintro ⟨site', head, x, hroute', hmiss, hx, hne, hlow⟩
    rw [hroute] at hroute'
    obtain ⟨rfl, hhead⟩ := Prod.mk.inj (Except.ok.inj hroute')
    have hslot := Slot.eq_chain_of_head? hhead
    exact ⟨by rw [Trie.chainAt_of_chain hslot]; exact hmiss, head, x, hslot, hx, hne, hlow⟩
  · rintro ⟨hmiss, head, x, hslot, hx, hne, hlow⟩
    rw [Trie.chainAt_of_chain hslot] at hmiss
    rw [hslot] at hroute
    exact ⟨site, head, x, hroute, hmiss, hx, hne, hlow⟩

/-- Just after the walk for `k` has ended on a slot that is jammed for `k`, the search finds
nothing. -/
theorem Laid.met?_of_jammed (H : m.Laid) (ha : m.arrive (m.hash k) = .ok a) (J : m.Jammed k) :
    m.met? a k anyValue = none := by
  obtain ⟨path, L⟩ := H.layout_current
  obtain ⟨site, head, x, hroute, hmiss, hx, _⟩ := J
  rw [arrive, hroute] at ha
  cases ha
  have hsearch : m.current.search head k anyValue = none := by
    cases hfind : m.current.search head k anyValue with
    | none => rfl
    | some found =>
      obtain ⟨hmem, hentry, hk, hv⟩ := Trie.of_search_some L.falling (Trie.lt_of_entry hx) hfind
      have hhit := hmiss _ hmem
      rw [Trie.hit_of_entry hentry, hk, hv] at hhit
      cases hhit
  simp only [met?, find?, trieAt_generation, Option.bind_some, hsearch, Option.map_none]

/-! ## On a held slot -/

/-- A plan is carried out for what the slot shows for its key. -/
theorem Laid.carryOut_outcome (H : m.Laid) (G : m.Grips (m.hash plan.key) held) :
    m.Outcome plan held.generation (m.Blocked held plan) (m.carryOut held plan) := by
  obtain ⟨path, L⟩ := H.layout held.generation G.generation_le
  rcases H.carryOut_cases G with ⟨m', events, he, A, hb⟩ | ⟨he, hb⟩
  · rw [he]
    exact .settled (fun e hfound => (L.of_sought?_eq_some hfound).2) A hb
  · rw [he]
    exact .jammed hb

variable [BEq ν]

/-- A slot that an operation holds at once is blocked for its plan if the map is jammed for what it
inserts. -/
theorem Laid.blocked_iff (H : m.Laid) {op : Op κ ν} (hplan : op.plan? = some plan)
    (hheld : m.holdSlot (m.hash plan.key) = .ok held) :
    m.Blocked held plan ↔ ∃ item ∈ op.entry?, m.Jammed item.1 := by
  rw [Blocked, Trie.Blocked, Op.new_judge_none hplan]
  cases hentry : op.entry? with
  | none => simp
  | some item =>
    obtain ⟨hkey, haccept⟩ := Op.entry_key hplan hentry
    rw [hkey] at hheld ⊢
    rw [haccept]
    simp [H.jammed_iff hheld]

end TrieMap

/-! ## Probes that leave the map as it is -/

namespace Probe

variable [BEq ν] {p : Probe κ ν}

omit [BEq ν] in
/-- Only a probe that is for inserting inserts. -/
theorem entry?_eq_none (h : p.aim ≠ .fill) : p.entry? = none := by
  cases p with
  | getOrInsert | getOrBuild => exact absurd rfl h
  | _ => rfl

omit [BEq ν] in
theorem not_inserts (h : p.aim ≠ .fill) (jammed : κ → Prop) :
    ¬ ∃ item ∈ p.entry?, jammed item.1 := by
  rw [entry?_eq_none h]
  rintro ⟨_, hitem, _⟩
  cases hitem

theorem judge_look (h : p.aim = .look) (found : Option (κ × ν)) : (p.judge found).2 = .keep := by
  cases p <;> cases h <;> rfl

theorem judge_fill (h : p.aim = .fill) (e : κ × ν) : (p.judge (some e)).2 = .keep := by
  cases p <;> cases h <;> rfl

theorem judge_take (h : p.aim = .take) : (p.judge none).2 = .keep := by
  cases p <;> cases h <;> rfl

end Probe

namespace TrieMap

variable [BEq κ] [BEq ν] {m : TrieMap κ ν} {a : Arrival} {k : κ} {accept : ν → Bool}
  {p : Probe κ ν} {op : Op κ ν} {plan : Plan κ ν}

omit [BEq ν] in
/-- What a search meets has an equal key and an accepted value. -/
theorem Laid.of_met?_eq_some (H : m.Laid) {h : UInt64} (ha : m.Arrived h a) {e : κ × ν}
    (hmet : m.met? a k accept = some e) : (e.1 == k) = true ∧ accept e.2 = true := by
  obtain ⟨path, L⟩ := H.layout a.generation ha.generation_le
  obtain ⟨⟨id, x⟩, hfind, rfl⟩ := Option.map_eq_some_iff.mp hmet
  obtain ⟨head, hhead, hsearch⟩ := Option.bind_eq_some_iff.mp hfind
  exact (Trie.of_search_some L.falling (ha.head_lt head hhead) hsearch).2.2

/-- A probe that goes on from an arrival carries out its plan, or it finds nothing and the slot of
its key is jammed. -/
theorem Laid.finish_outcome (H : m.Laid) (p : Probe κ ν) (ha : m.Arrived (m.hash p.key) a) :
    ∃ g, (g = a.generation ∨ g = m.generation) ∧ m.Outcome p.plan g
      (m.met? a p.key p.accept = none ∧ ∃ item ∈ p.entry?, m.Jammed item.1) (m.finish a p) := by
  have F := H.finishes p ha
  generalize m.finish a p = e at F ⊢
  have hplan : (Op.probe p).plan? = some p.plan := rfl
  cases F with
  | looked hp =>
    have hjam := Probe.not_inserts (p := p) (by rw [hp]; decide) m.Jammed
    exact ⟨_, .inl rfl, .of_keep ha.generation_le (fun h => hjam h.2)
      (fun e he => H.of_met?_eq_some ha he) (Probe.judge_look hp _)⟩
  | @present e hp hmet =>
    refine ⟨_, .inl rfl, .of_keep ha.generation_le (fun h => ?_) (fun e' he => ?_)
      (Probe.judge_fill hp e)⟩
    · cases hmet.symm.trans h.1
    · cases he
      exact H.of_met?_eq_some ha hmet
  | missed hp M =>
    have hjam := Probe.not_inserts (p := p) (by rw [hp]; decide) m.Jammed
    exact ⟨_, .inl rfl, .of_keep ha.generation_le (fun h => hjam h.2)
      (fun e he => by cases he) (Probe.judge_take hp)⟩
  | @absent held hp hmet hheld =>
    obtain ⟨G, hg⟩ := H.holdSlot_grips hheld
    have O : m.Outcome p.plan held.generation _ _ := H.carryOut_outcome G
    refine ⟨_, .inr hg, O.congr ?_⟩
    rw [H.blocked_iff hplan hheld]
    exact ⟨fun h => ⟨hmet, h⟩, fun h => h.2⟩
  | @matched held hp M =>
    obtain ⟨G, hg⟩ := M.grips H ha
    have O : m.Outcome p.plan held.generation _ _ := H.carryOut_outcome G
    have hjam := Probe.not_inserts (p := p) (by rw [hp]; decide) m.Jammed
    have hblocked : ¬ m.Blocked held p.plan := by
      rintro ⟨_, hnew, _⟩
      rw [Op.new_judge_none hplan, Op.entry?, Probe.entry?_eq_none (by rw [hp]; decide)] at hnew
      cases hnew
    exact ⟨_, hg, O.congr (iff_of_false hblocked fun h => hjam h.2)⟩

/-! ## Operations as a whole -/

/-- An operation on one key carries out its plan in the current trie, or the slot of its key is
jammed and nothing happens. -/
theorem Laid.apply_outcome (H : m.Laid) (hplan : op.plan? = some plan) :
    m.Outcome plan m.generation (∃ item ∈ op.entry?, m.Jammed item.1) (m.apply op) := by
  by_cases hop : ∃ p, op = .probe p
  · obtain ⟨p, rfl⟩ := hop
    cases hplan
    obtain ⟨a, harrive, ha, hgen, _⟩ := H.exists_arrive (m.hash p.key)
    obtain ⟨g, hg, O⟩ := H.finish_outcome p ha
    obtain rfl : g = m.generation := hg.elim (·.trans hgen) id
    rw [apply_probe harrive]
    refine O.congr ⟨fun h => h.2, fun h => ⟨?_, h⟩⟩
    obtain ⟨item, hitem, J⟩ := h
    have hplan : (Op.probe p).plan? = some p.plan := rfl
    obtain ⟨hkey, haccept⟩ := Op.entry_key hplan hitem
    have hkey' : p.key = item.1 := hkey
    have haccept' : p.accept = anyValue := haccept
    rw [hkey'] at harrive ⊢
    rw [haccept']
    exact H.met?_of_jammed harrive J
  · obtain ⟨held, hheld, heq⟩ := H.atOnce hplan fun p hp => hop ⟨p, hp⟩
    obtain ⟨G, hg⟩ := H.holdSlot_grips hheld
    have O := H.carryOut_outcome G
    rw [heq, ← hg]
    exact O.congr (H.blocked_iff hplan hheld)

end TrieMap

end NibbleTrie
