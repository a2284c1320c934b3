/-
Every instant at which code of a caller can run.

With each comparison of keys an operation gives way to whatever the comparison
does, with no hold on the slot or holding it; so do the builder of a value and
the callback of a walk.  Here operations are taken apart into what they do
between two such places (`Instant.Step`).  The operations under way may be
nested or interleaved in any order, and nothing is asked of their keys.

A slot that is held is locked: nobody else writes to its branch (`Respects`).

Main statement: at every instant the map is laid out, and what is under way
stands where it can go on (`Instant.Reachable.good`).
-/
import NibbleTrie.Proofs.Moment
import NibbleTrie.Proofs.Outcome

namespace NibbleTrie

variable {κ : Type u} {ν : Type v}

/-- What is under way on a map. -/
inductive Work (κ : Type u) (ν : Type v) where
  /-- A probe that compares its key with the head of its arrival next, or is at the end of the
  chain.  It holds nothing. -/
  | searching (p : Probe κ ν) (a : Arrival)
  /-- An operation that holds the slot of its key and compares its key there. -/
  | holding (plan : Plan κ ν) (held : Held)
  /-- A builder that runs for an absent key whose slot is held. -/
  | building (key : κ) (held : Held)
  /-- A walk of a generation, between two entries. -/
  | walking (generation : Nat) (c : Cursor)

/-- The slot that is held. -/
def Work.held? : Work κ ν → Option Held
  | .holding _ held | .building _ held => some held
  | .searching _ _ | .walking _ _ => none

/-- A map and what is under way on it. -/
structure Instant (κ : Type u) (ν : Type v) where
  map : TrieMap κ ν
  works : List (Work κ ν)

namespace Instant

/-- A change of the map leaves alone what is held. -/
def Respects (works : List (Work κ ν)) (m m' : TrieMap κ ν) : Prop :=
  ∀ w ∈ works, ∀ held ∈ w.held?, held.Untouched m m'

variable [BEq κ] [BEq ν]

/-- What can happen next. -/
inductive Step : Instant κ ν → Instant κ ν → Prop
  /-- A probe arrives. -/
  | arrive {m W p a} : m.begin p = .ok a → Step ⟨m, W⟩ ⟨m, .searching p a :: W⟩
  /-- A probe compares its key with an entry that is no match, and follows its link as it is
  then. -/
  | pass {m P Q p g site e} : (m.trieAt g).hit p.key p.accept e = false →
      Step ⟨m, P ++ .searching p ⟨g, site, some e⟩ :: Q⟩
        ⟨m, P ++ .searching p ⟨g, site, (m.trieAt g).next? e⟩ :: Q⟩
  /-- A probe finds an entry to take, and holds its slot. -/
  | hold {m P Q p a e held} : p.aim = .take → a.head = some e →
      (m.trieAt a.generation).hit p.key p.accept e = true → m.hold? a = some held →
      Step ⟨m, P ++ .searching p a :: Q⟩ ⟨m, P ++ .holding p.plan held :: Q⟩
  /-- A probe finds an entry to take, but its slot can no longer be held. -/
  | again {m P Q p a e b} : p.aim = .take → a.head = some e →
      (m.trieAt a.generation).hit p.key p.accept e = true → m.hold? a = none →
      m.begin p = .ok b → Step ⟨m, P ++ .searching p a :: Q⟩ ⟨m, P ++ .searching p b :: Q⟩
  /-- A probe that would insert its key has found none, and holds its slot. -/
  | miss {m P Q p a held} : p.aim = .fill → a.head = none →
      m.holdSlot (m.hash p.key) = .ok held →
      Step ⟨m, P ++ .searching p a :: Q⟩ ⟨m, P ++ .holding p.plan held :: Q⟩
  /-- An operation that is no probe holds the slot of its key. -/
  | grip {m W op plan held} : (∀ p, op ≠ Op.probe p) → op.plan? = some plan →
      m.holdSlot (m.hash plan.key) = .ok held → Step ⟨m, W⟩ ⟨m, .holding plan held :: W⟩
  /-- An operation has compared its key in the slot that it holds, and writes. -/
  | write {m P Q plan held} : Respects (P ++ Q) m (m.carryOut held plan).state →
      Step ⟨m, P ++ .holding plan held :: Q⟩ ⟨(m.carryOut held plan).state, P ++ Q⟩
  /-- A probe finds its key absent from the slot that it holds, and calls the builder. -/
  | build {m P Q k outcome held} :
      m.sought? held (Probe.getOrBuild k outcome).plan = none →
      Step ⟨m, P ++ .holding (Probe.getOrBuild k outcome).plan held :: Q⟩
        ⟨m, P ++ .building k held :: Q⟩
  /-- The builder answers, and the value is inserted. -/
  | built {m P Q k held} (v : ν) : Respects (P ++ Q) m (m.insertHeld held k v).state →
      Step ⟨m, P ++ .building k held :: Q⟩ ⟨(m.insertHeld held k v).state, P ++ Q⟩
  | clear {m W} : Step ⟨m, W⟩ ⟨m.clear.state, W⟩
  /-- A walk begins. -/
  | walk {m W} : Step ⟨m, W⟩ ⟨m, .walking m.generation .start :: W⟩
  /-- A walk shows the next entry. -/
  | visit {m P Q g c item c'} : c.next (m.trieAt g) = (some item, c') →
      Step ⟨m, P ++ .walking g c :: Q⟩ ⟨m, P ++ .walking g c' :: Q⟩
  /-- What is under way has seen enough, or it is given up. -/
  | leave {m P Q} {w : Work κ ν} : Step ⟨m, P ++ w :: Q⟩ ⟨m, P ++ Q⟩

/-- The instants that can come about, from the making of a map with this hash function on. -/
inductive Reachable (hash : κ → UInt64) : Instant κ ν → Prop
  | made {m} : TrieMap.Made hash m → Reachable hash ⟨m, []⟩
  | step {s s'} : Reachable hash s → Step s s' → Reachable hash s'

end Instant

/-- What something under way comes to if nothing interrupts it any more. -/
inductive Work.Ends [BEq κ] [BEq ν] (m : TrieMap κ ν) :
    Work κ ν → Effect (TrieMap κ ν) (Reply κ ν) → Prop
  | searching (p : Probe κ ν) (a : Arrival) : Ends m (.searching p a) (m.finish a p)
  | holding (plan : Plan κ ν) (held : Held) : Ends m (.holding plan held) (m.carryOut held plan)
  | building (k : κ) (held : Held) (v : ν) :
    Ends m (.building k held) ((m.insertHeld held k v).map fun _ => .kept v false)
  /-- A walk shows entries and has no answer. -/
  | walking (g : Nat) (c : Cursor) : Ends m (.walking g c) (.pure m .done)

/-! ## What holds at every instant -/

/-- What is under way stands where it can go on. -/
def Work.Ready (m : TrieMap κ ν) : Work κ ν → Prop
  | .searching p a => m.Arrived (m.hash p.key) a
  | .holding plan held => m.Grips (m.hash plan.key) held
  | .building k held => m.Grips (m.hash k) held
  | .walking g _ => g ≤ m.generation

/-- A slot that is held can be written. -/
theorem Work.Ready.writable {m : TrieMap κ ν} {w : Work κ ν} (R : w.Ready m) {held : Held}
    (hh : held ∈ w.held?) : (m.trieAt held.generation).isWritable held.site = true := by
  cases w with
  | searching p a => cases hh
  | holding plan held => cases hh; exact TrieMap.Grips.writable R
  | building k held => cases hh; exact TrieMap.Grips.writable R
  | walking g c => cases hh

section Turns
variable [BEq κ] {m m' : TrieMap κ ν}

/-- A slot stays held while nobody touches its branch. -/
theorem TrieMap.Grips.turn {h : UInt64} {held : Held} (G : m.Grips h held) (H : m.Laid)
    (T : m.Turn m') (U : held.Untouched m m') : m'.Grips h held := by
  obtain ⟨path, L⟩ := H.layout _ G.generation_le
  obtain ⟨_, _, C⟩ := T.changes G.generation_le
  obtain ⟨hlive, hs⟩ := Trie.isWritable_iff.mp G.writable
  exact
    { generation_le := Nat.le_trans G.generation_le T.generation_le
      aimed := C.aimed L G.aimed
      writable := Trie.isWritable_iff.mpr ⟨U.dead.trans hlive, by rw [U.slot]; exact hs⟩ }

theorem Work.Ready.turn {w : Work κ ν} (R : w.Ready m) (H : m.Laid) (T : m.Turn m')
    (U : ∀ held ∈ w.held?, held.Untouched m m') : w.Ready m' := by
  cases w with
  | searching p a =>
    show m'.Arrived (m'.hash p.key) a
    rw [T.hash_eq]
    exact T.arrived H R
  | holding plan held =>
    show m'.Grips (m'.hash plan.key) held
    rw [T.hash_eq]
    exact TrieMap.Grips.turn R H T (U held rfl)
  | building k held =>
    show m'.Grips (m'.hash k) held
    rw [T.hash_eq]
    exact TrieMap.Grips.turn R H T (U held rfl)
  | walking g c => exact Nat.le_trans R T.generation_le

end Turns

namespace Instant

variable [BEq κ]

/-- The map is laid out, and what is under way can go on. -/
structure Good (s : Instant κ ν) : Prop where
  laid : s.map.Laid
  ready : ∀ w ∈ s.works, w.Ready s.map

theorem Good.turn {m m' : TrieMap κ ν} {W : List (Work κ ν)} (H : m.Laid)
    (hready : ∀ w ∈ W, w.Ready m) (T : m.Turn m') (hr : Respects W m m') : Good ⟨m', W⟩ where
  laid := T.laid H
  ready w hw := (hready w hw).turn H T (hr w hw)

/-- One thing under way is exchanged for another, and the map stays as it is. -/
theorem Good.exchange {m : TrieMap κ ν} {P Q : List (Work κ ν)} {w : Work κ ν}
    (G : Good ⟨m, P ++ w :: Q⟩) (w' : Work κ ν) (R : w'.Ready m) : Good ⟨m, P ++ w' :: Q⟩ :=
  ⟨G.laid, forall_exchange G.ready R⟩

theorem Good.begin {m : TrieMap κ ν} {W : List (Work κ ν)} (G : Good ⟨m, W⟩) (w : Work κ ν)
    (R : w.Ready m) : Good ⟨m, w :: W⟩ :=
  ⟨G.laid, List.forall_mem_cons.mpr ⟨R, G.ready⟩⟩

/-- A clearing leaves the detached generations alone, and so what is held. -/
theorem Good.respects_clear {m : TrieMap κ ν} {W : List (Work κ ν)} (G : Good ⟨m, W⟩) :
    Respects W m m.clear.state := by
  intro w hw held hh
  have hg : held.generation ≤ m.generation := by
    have R := G.ready w hw
    cases w with
    | searching _ _ => cases hh
    | walking _ _ => cases hh
    | holding _ _ => cases hh; exact R.generation_le
    | building _ _ => cases hh; exact R.generation_le
  have hsame := m.trieAt_clear hg
  exact ⟨by rw [hsame], fun i => by rw [hsame], fun i => by rw [hsame]⟩

end Instant

namespace TrieMap

variable [BEq κ] {m : TrieMap κ ν} {held : Held}

/-- A fresh arrival stands where it can go on. -/
theorem Laid.begin_arrived (H : m.Laid) {p : Probe κ ν} {a : Arrival} (ha : m.begin p = .ok a) :
    m.Arrived (m.hash p.key) a := by
  obtain ⟨b, hb, harr, _⟩ := H.exists_arrive (m.hash p.key)
  cases hb.symm.trans ha
  exact harr

theorem Laid.insertHeld_amends (H : m.Laid) {k : κ} (G : m.Grips (m.hash k) held) (v : ν) :
    ∃ gone new, m.Amends (m.insertHeld held k v).state held.generation gone new := by
  rcases H.insertHeld_cases G v with ⟨m', events, he, A, _⟩ | ⟨he, _⟩
  · rw [he]
    exact ⟨_, _, A⟩
  · rw [he]
    exact ⟨none, none, .keep G.generation_le⟩

end TrieMap

namespace Instant

variable [BEq κ] [BEq ν] {s s' : Instant κ ν}

/-- What happens at once is at most one write to one generation, or a clearing. -/
theorem Step.turn (h : Step s s') (G : s.Good) : s.map.Turn s'.map := by
  cases h with
  | @write m P Q plan held _ =>
    have hw : m.Grips (m.hash plan.key) held := G.ready (.holding plan held) (by simp)
    obtain ⟨_, _, A⟩ := (G.laid.carryOut_outcome hw).amends hw.generation_le
    exact .amend A
  | @built m P Q k held v _ =>
    have hw : m.Grips (m.hash k) held := G.ready (.building k held) (by simp)
    obtain ⟨_, _, A⟩ := G.laid.insertHeld_amends hw v
    exact .amend A
  | clear => exact .clear
  | _ => exact .refl _

theorem Step.good (h : Step s s') (G : s.Good) : s'.Good := by
  have T := h.turn G
  have H := G.laid
  cases h with
  | arrive ha => exact G.begin (.searching _ _) (H.begin_arrived ha)
  | @pass m P Q p g site e _ =>
    have ha : m.Arrived (m.hash p.key) ⟨g, site, some e⟩ :=
      G.ready (.searching p ⟨g, site, some e⟩) (by simp)
    obtain ⟨path, L⟩ := H.layout g ha.generation_le
    refine G.exchange (.searching p _) ⟨ha.generation_le, fun n hn => ?_, ha.aimed⟩
    exact L.falling.next_lt hn
  | @hold m P Q p a e held _ _ _ hhold =>
    have ha : m.Arrived (m.hash p.key) a := G.ready (.searching p a) (by simp)
    exact G.exchange (.holding p.plan held) (ha.grips hhold).1
  | again _ _ _ _ hb => exact G.exchange (.searching _ _) (H.begin_arrived hb)
  | @miss m P Q p a held _ _ hheld =>
    exact G.exchange (.holding p.plan held) (H.holdSlot_grips hheld).1
  | grip _ _ hheld => exact G.begin (.holding _ _) (H.holdSlot_grips hheld).1
  | write hr => exact .turn H (forall_rest G.ready) T hr
  | @build m P Q k outcome held _ =>
    have hw : m.Grips (m.hash k) held :=
      G.ready (.holding (Probe.getOrBuild k outcome).plan held) (by simp)
    exact G.exchange (.building k held) hw
  | built v hr => exact .turn H (forall_rest G.ready) T hr
  | clear => exact .turn H G.ready T G.respects_clear
  | walk => exact G.begin (.walking _ _) (Nat.le_refl _)
  | @visit m P Q g c item c' _ =>
    have hg : g ≤ m.generation := G.ready (.walking g c) (by simp)
    exact G.exchange (.walking g c') hg
  | leave => exact ⟨H, forall_rest G.ready⟩

namespace Reachable

variable {hash : κ → UInt64}

/-- At every instant the map is laid out, and what is under way can go on. -/
theorem good (h : Reachable hash s) : s.Good := by
  induction h with
  | made M =>
    obtain ⟨capacity, rfl⟩ := M.eq
    exact ⟨TrieMap.laid_withCapacity _ capacity, fun _ h => absurd h List.not_mem_nil⟩
  | step _ hs ih => exact hs.good ih

theorem hash_eq (h : Reachable hash s) : s.map.hash = hash := by
  induction h with
  | made M =>
    obtain ⟨capacity, rfl⟩ := M.eq
    rfl
  | step hreach hs ih => exact (hs.turn hreach.good).hash_eq.trans ih

end Reachable

end Instant

end NibbleTrie
