/-
Walks of a trie that was cleared away.

A clearing while nothing but walks is under way seals the old trie: it is no
longer current, and nothing that is under way or begins later writes to it
(`Sealed`).  So a walk that began before shows what it would have shown if
nothing more had been done to the map.

Anything may happen after the clearing, at every instant: between the steps of
a cursor (`Consults`), or in the callback of a sweep.  Two sweeps are compared
whose callbacks do the same up to the clearing (`InStep`).

Main statement: `walks_isolated`.
-/
import NibbleTrie.Proofs.Running

namespace NibbleTrie

variable {κ : Type u} {ν : Type v}

/-- What is under way does not write to the generation `g`. -/
def Work.Spares (g : Nat) : Work κ ν → Prop
  | .searching _ a => g < a.generation
  | .holding _ held | .building _ held => g < held.generation
  | .walking _ _ => True

namespace Instant

/-- Nothing but walks is under way. -/
def OnlyWalks (s : Instant κ ν) : Prop := ∀ w ∈ s.works, ∃ g c, w = .walking g c

/-- The map is cleared. -/
def cleared (s : Instant κ ν) : Instant κ ν := ⟨s.map.clear.state, s.works⟩

section Sealed
variable [BEq κ] {s s' : Instant κ ν} {g : Nat}

/-- The trie of the generation `g` is not current, and nothing under way writes to it. -/
structure Sealed (g : Nat) (s : Instant κ ν) : Prop where
  good : s.Good
  old : g < s.map.generation
  spared : ∀ w ∈ s.works, w.Spares g

theorem Good.cleared [BEq ν] (G : s.Good) : s.cleared.Good := by
  have hstep : Step s s.cleared := .clear
  exact hstep.good G

/-- A clearing seals the tries there are. -/
theorem Good.sealed [BEq ν] (G : s.Good) (hwalks : s.OnlyWalks) (hg : g ≤ s.map.generation) :
    Sealed g s.cleared where
  good := G.cleared
  old := by
    rw [Instant.cleared, TrieMap.generation_clear]
    exact Nat.lt_succ_of_le hg
  spared w hw := by
    obtain ⟨_, _, rfl⟩ := hwalks w hw
    trivial

namespace Sealed

/-- An arrival from the root is in the current trie. -/
theorem lt_begin {m : TrieMap κ ν} {W : List (Work κ ν)} (S : Sealed g ⟨m, W⟩) {p : Probe κ ν}
    {a : Arrival} (ha : m.begin p = .ok a) : g < a.generation := by
  obtain ⟨b, hb, _, hgen, _⟩ := S.good.laid.exists_arrive (m.hash p.key)
  cases hb.symm.trans ha
  exact hgen ▸ S.old

/-- So is a slot that was held for a hash. -/
theorem lt_holdSlot {m : TrieMap κ ν} {W : List (Work κ ν)} (S : Sealed g ⟨m, W⟩) {h : UInt64}
    {held : Held} (hheld : m.holdSlot h = .ok held) : g < held.generation :=
  (S.good.laid.holdSlot_grips hheld).2 ▸ S.old

/-- A change of a later generation leaves a sealed trie as it is. -/
theorem trieAt_update {m : TrieMap κ ν} {W : List (Work κ ν)} (S : Sealed g ⟨m, W⟩) {ρ : Type w}
    {g' : Nat} (hg' : g' ≤ m.generation) (hlt : g < g')
    (change : Trie κ ν → Effect (Trie κ ν) ρ) :
    (m.update g' change).state.trieAt g = m.trieAt g := by
  rw [TrieMap.trieAt_update change hg' (Nat.le_of_lt S.old), if_neg (Nat.ne_of_lt hlt)]

variable [BEq ν]

/-- Whatever happens next, a sealed trie stays as it is and stays sealed. -/
theorem step (S : Sealed g s) (h : Step s s') :
    Sealed g s' ∧ s'.map.trieAt g = s.map.trieAt g := by
  have G' := h.good S.good
  have hold : g < s'.map.generation :=
    Nat.lt_of_lt_of_le S.old (h.turn S.good).generation_le
  cases h with
  | arrive ha => exact ⟨⟨G', hold, List.forall_mem_cons.mpr ⟨S.lt_begin ha, S.spared⟩⟩, rfl⟩
  | @pass m P Q p g' site e _ =>
    have hsearch : g < g' := S.spared (.searching p ⟨g', site, some e⟩) (by simp)
    exact ⟨⟨G', hold, forall_exchange S.spared hsearch⟩, rfl⟩
  | @hold m P Q p a e held _ _ _ hhold =>
    have hsearch : g < a.generation := S.spared (.searching p a) (by simp)
    obtain ⟨rfl, _⟩ := TrieMap.hold?_eq_some hhold
    exact ⟨⟨G', hold, forall_exchange S.spared hsearch⟩, rfl⟩
  | again _ _ _ _ hb =>
    exact ⟨⟨G', hold, forall_exchange S.spared (S.lt_begin hb)⟩, rfl⟩
  | miss _ _ hheld =>
    exact ⟨⟨G', hold, forall_exchange S.spared (S.lt_holdSlot hheld)⟩, rfl⟩
  | grip _ _ hheld =>
    exact ⟨⟨G', hold, List.forall_mem_cons.mpr ⟨S.lt_holdSlot hheld, S.spared⟩⟩, rfl⟩
  | @write m P Q plan held _ =>
    have hheld : g < held.generation := S.spared (.holding plan held) (by simp)
    have hle : held.generation ≤ m.generation :=
      TrieMap.Grips.generation_le (S.good.ready (.holding plan held) (by simp))
    exact ⟨⟨G', hold, forall_rest S.spared⟩, S.trieAt_update hle hheld _⟩
  | @build m P Q k outcome held _ =>
    have hheld : g < held.generation :=
      S.spared (.holding (Probe.getOrBuild k outcome).plan held) (by simp)
    exact ⟨⟨G', hold, forall_exchange S.spared hheld⟩, rfl⟩
  | @built m P Q k held v _ =>
    have hheld : g < held.generation := S.spared (.building k held) (by simp)
    have hle : held.generation ≤ m.generation :=
      TrieMap.Grips.generation_le (S.good.ready (.building k held) (by simp))
    exact ⟨⟨G', hold, forall_rest S.spared⟩, S.trieAt_update hle hheld _⟩
  | clear => exact ⟨⟨G', hold, S.spared⟩, TrieMap.trieAt_clear _ (Nat.le_of_lt S.old)⟩
  | walk => exact ⟨⟨G', hold, List.forall_mem_cons.mpr ⟨trivial, S.spared⟩⟩, rfl⟩
  | visit _ => exact ⟨⟨G', hold, forall_exchange S.spared trivial⟩, rfl⟩
  | leave => exact ⟨⟨G', hold, forall_rest S.spared⟩, rfl⟩

theorem runs (S : Sealed g s) (R : s.Runs s') :
    Sealed g s' ∧ s'.map.trieAt g = s.map.trieAt g := by
  induction R with
  | refl => exact ⟨S, rfl⟩
  | tail _ h ih =>
    obtain ⟨S', heq⟩ := ih
    obtain ⟨S'', heq'⟩ := S'.step h
    exact ⟨S'', heq'.trans heq⟩

end Sealed

variable [BEq ν]

/-- From a clearing on, while nothing but walks was under way, the old tries stay as they were. -/
theorem Good.trieAt_of_cleared (G : s.Good) (hwalks : s.OnlyWalks) (hg : g ≤ s.map.generation)
    (R : s.cleared.Runs s') : s'.map.trieAt g = s.map.trieAt g :=
  ((G.sealed hwalks hg).runs R).2.trans (TrieMap.trieAt_clear _ hg)

/-- From `s` on nothing more is done to the map, or it is cleared at once and then anything
happens. -/
inductive After (s : Instant κ ν) : Instant κ ν → Prop
  | still : After s s
  | afresh {t} : s.cleared.Runs t → After s t

theorem After.trieAt (h : After s s') (G : s.Good) (hwalks : s.OnlyWalks)
    (hg : g ≤ s.map.generation) : s'.map.trieAt g = s.map.trieAt g := by
  cases h with
  | still => rfl
  | afresh R => exact G.trieAt_of_cleared hwalks hg R

/-! ## Cursors -/

/-- The answers of a cursor on the generation `g`.  Before and between its steps anything happens
to the map. -/
inductive Consults (g : Nat) : Instant κ ν → Cursor → List (Option (κ × ν)) → Prop
  | done {s c} : Consults g s c []
  | pass {s s' c items} : Step s s' → Consults g s' c items → Consults g s c items
  | next {s c items} : Consults g s (c.next (s.map.trieAt g)).2 items →
      Consults g s c ((c.next (s.map.trieAt g)).1 :: items)

/-- Operations may run as a whole between the steps of a cursor. -/
theorem Consults.of_runs {c : Cursor} {items : List (Option (κ × ν))} (R : s.Runs s')
    (h : Consults g s' c items) : Consults g s c items := by
  induction R using Relation.ReflTransGen.head_induction_on with
  | refl => exact h
  | head hstep _ ih => exact .pass hstep ih

/-- A cursor on a sealed trie answers as if nothing happened. -/
theorem Consults.eq_steps {c : Cursor} {items : List (Option (κ × ν))}
    (h : Consults g s c items) (S : Sealed g s) :
    items = (c.steps (s.map.trieAt g) items.length).1 := by
  induction h with
  | done => rfl
  | pass hstep _ ih =>
    obtain ⟨S', heq⟩ := S.step hstep
    rw [← heq]
    exact ih S'
  | next _ ih =>
    have hrest := ih S
    rw [List.length_cons, Cursor.steps]
    exact congrArg _ hrest

end Sealed

end Instant

namespace Cursor

variable {t : Trie κ ν} {item : κ × ν}

theorem item?_of_yieldEntry {stack : List Frame} {e : EntryId}
    (h : (yieldEntry t stack e).1 = some item) : t.item? e = some item := by
  rw [yieldEntry] at h
  rw [Trie.item?]
  cases hx : t.entries[e]? with
  | none =>
    rw [hx] at h
    cases h
  | some x =>
    rw [hx] at h
    exact h

/-- What a step of a cursor shows is an entry of the table. -/
theorem exists_item?_of_next {c : Cursor} (h : (c.next t).1 = some item) :
    ∃ e, t.item? e = some item := by
  rw [next] at h
  split at h
  · exact ⟨_, item?_of_yieldEntry h⟩
  · split at h
    · exact ⟨_, item?_of_yieldEntry h⟩
    · cases h

theorem exists_item?_of_mem_steps {n : Nat} {c : Cursor} (h : some item ∈ (c.steps t n).1) :
    ∃ e, t.item? e = some item := by
  induction n generalizing c with
  | zero => cases h
  | succ n ih =>
    rw [steps] at h
    rcases List.mem_cons.mp h with h | h
    · exact exists_item?_of_next h.symm
    · exact ih h

end Cursor

/-! ## Sweeps -/

namespace Trie

section Simulation
variable {σ : Type w} {σ' : Type w'} {view : σ → Trie κ ν} {view' : σ' → Trie κ ν}
  {f : κ → ν → σ → Bool × σ} {f' : κ → ν → σ' → Bool × σ'} {R : σ → σ' → Prop}

/-- Related states show the same trie.  For an entry of it both callbacks go on, or both end the
sweep, and leave related states behind. -/
structure Simulates (view : σ → Trie κ ν) (view' : σ' → Trie κ ν) (f : κ → ν → σ → Bool × σ)
    (f' : κ → ν → σ' → Bool × σ') (R : σ → σ' → Prop) : Prop where
  view_eq : ∀ {s s'}, R s s' → view s = view' s'
  go_eq : ∀ {s s' e k v}, R s s' → (view s).item? e = some (k, v) → (f k v s).1 = (f' k v s').1
  related : ∀ {s s' e k v}, R s s' → (view s).item? e = some (k, v) → R (f k v s).2 (f' k v s').2

/-- Both sweeps are still going on or both were ended, in related states. -/
def Paired (R : σ → σ' → Prop) (r : Bool × σ) (r' : Bool × σ') : Prop := r.1 = r'.1 ∧ R r.2 r'.2

/-- What is paired stays so if both sweeps go on alike. -/
theorem Paired.goOn {rest : σ → Bool × σ} {rest' : σ' → Bool × σ'}
    (hrest : ∀ s s', R s s' → Paired R (rest s) (rest' s')) :
    ∀ {r : Bool × σ} {r' : Bool × σ'}, Paired R r r' → Paired R
      (match r with
        | (false, s) => (false, s)
        | (true, s) => rest s)
      (match r' with
        | (false, s) => (false, s)
        | (true, s) => rest' s)
  | (false, _), (_, _), ⟨rfl, hR⟩ => ⟨rfl, hR⟩
  | (true, _), (_, _), ⟨rfl, hR⟩ => hrest _ _ hR

variable (S : Simulates view view' f f' R)
include S

theorem Simulates.chain : ∀ {fuel : Nat} {cur : Option EntryId} {s : σ} {s' : σ'}, R s s' →
    Paired R (sweepChain view f fuel cur s) (sweepChain view' f' fuel cur s')
  | 0, _, _, _, h => ⟨rfl, h⟩
  | _ + 1, none, _, _, h => ⟨rfl, h⟩
  | fuel + 1, some e, s, s', h => by
    rw [sweepChain, sweepChain, ← S.view_eq h]
    cases hx : (view s).entries[e]? with
    | none => exact ⟨rfl, h⟩
    | some x =>
      have hitem := item?_of_entry hx
      refine Paired.goOn (fun a a' hR => ?_) ⟨S.go_eq h hitem, S.related h hitem⟩
      rw [S.view_eq hR]
      exact chain hR

theorem Simulates.slots {down : BranchId → σ → Bool × σ} {down' : BranchId → σ' → Bool × σ'}
    (hdown : ∀ c s s', R s s' → Paired R (down c s) (down' c s')) {b : BranchId} :
    ∀ {rest : List Nibble} {s : σ} {s' : σ'}, R s s' →
      Paired R (sweepSlots view f down b rest s) (sweepSlots view' f' down' b rest s')
  | [], _, _, h => ⟨rfl, h⟩
  | i :: rest, s, s', h => by
    rw [sweepSlots, sweepSlots, ← S.view_eq h]
    refine Paired.goOn (fun _ _ hR => slots hdown hR) ?_
    cases (view s).slot b i with
    | empty => exact ⟨rfl, h⟩
    | chain head => exact S.chain h
    | branch child => exact hdown child s s' h

theorem Simulates.branch {levels : Nat} : ∀ (b : BranchId) (s : σ) (s' : σ'), R s s' →
    Paired R (sweepBranch view f levels b s) (sweepBranch view' f' levels b s') := by
  induction levels with
  | zero => exact fun _ _ _ h => ⟨rfl, h⟩
  | succ levels ih => exact fun _ _ _ h => S.slots ih h

/-- Related states come to related states by sweeps. -/
theorem Simulates.sweep (s : σ) (s' : σ') (h : R s s') :
    R (Trie.sweep view f s) (Trie.sweep view' f' s') :=
  (S.branch root s s' h).2

end Simulation

section Recording
variable {σ : Type w} {view : σ → Trie κ ν} {f : κ → ν → σ → Bool × σ}

/-- The callback notes each entry that it is shown, with the state in which it is shown. -/
def recording (f : κ → ν → σ → Bool × σ) (k : κ) (v : ν) (s : σ × List ((κ × ν) × σ)) :
    Bool × (σ × List ((κ × ν) × σ)) :=
  ((f k v s.1).1, ((f k v s.1).2, s.2 ++ [((k, v), s.1)]))

/-- The entries that a sweep shows, first one first, each with the state in which it is shown. -/
def sightings (view : σ → Trie κ ν) (f : κ → ν → σ → Bool × σ) (s : σ) : List ((κ × ν) × σ) :=
  (sweep (view ∘ Prod.fst) (recording f) (s, [])).2

/-- The entries that a sweep shows, first one first. -/
def shown (view : σ → Trie κ ν) (f : κ → ν → σ → Bool × σ) (s : σ) : List (κ × ν) :=
  (sightings view f s).map Prod.fst

/-- What is shown is an entry of the table as it is then. -/
theorem exists_item?_of_sighting {s : σ} {note : (κ × ν) × σ} (h : note ∈ sightings view f s) :
    ∃ e, (view note.2).item? e = some note.1 := by
  have S : Simulates (view ∘ Prod.fst) (view ∘ Prod.fst) (recording f) (recording f) fun a b =>
      a = b ∧ ∀ note ∈ a.2, ∃ e, (view note.2).item? e = some note.1 :=
    { view_eq := fun h => by rw [h.1]
      go_eq := fun h _ => by rw [h.1]
      related := by
        rintro a _ e k v ⟨rfl, ha⟩ hitem
        refine ⟨rfl, fun note hnote => ?_⟩
        rcases List.mem_append.mp hnote with h | h
        · exact ha note h
        · rw [List.mem_singleton.mp h]
          exact ⟨e, hitem⟩ }
  exact (S.sweep (s, []) (s, []) ⟨rfl, fun _ h => absurd h List.not_mem_nil⟩).2 note h

end Recording

end Trie

namespace Instant

section Sweeps
variable [BEq κ] [BEq ν] {σ : Type w} {σ' : Type w'} {now : σ → Instant κ ν}
  {now' : σ' → Instant κ ν} {f : κ → ν → σ → Bool × σ} {f' : κ → ν → σ' → Bool × σ'}
  {R : σ → σ' → Prop} {s₀ : Instant κ ν}

/-- The callbacks of two sweeps that begin at the instant `s₀` go on together, and do the same to
the map until it is cleared while nothing but walks is under way.  From then on each does to it
what it likes, or nothing at all. -/
structure InStep (s₀ : Instant κ ν) (now : σ → Instant κ ν) (now' : σ' → Instant κ ν)
    (f : κ → ν → σ → Bool × σ) (f' : κ → ν → σ' → Bool × σ') (R : σ → σ' → Prop) : Prop where
  go_eq : ∀ {a a'} k v, R a a' → (f k v a).1 = (f' k v a').1
  related : ∀ {a a'} k v, R a a' → R (f k v a).2 (f' k v a').2
  same_or_after : ∀ {a a'}, R a a' → now a = now' a' ∨
    ∃ s, s₀.Runs s ∧ s.OnlyWalks ∧ s.After (now a) ∧ s.After (now' a')

/-- The trie of a generation in a state of a sweep. -/
def trieOf (now : σ → Instant κ ν) (g : Nat) (a : σ) : Trie κ ν := (now a).map.trieAt g

theorem InStep.shown_eq (C : InStep s₀ now now' f f' R) (G : s₀.Good) {g : Nat}
    (hg : g ≤ s₀.map.generation) {a : σ} {a' : σ'} (h : R a a') :
    Trie.shown (trieOf now g) f a = Trie.shown (trieOf now' g) f' a' := by
  have S : Trie.Simulates (trieOf now g ∘ Prod.fst) (trieOf now' g ∘ Prod.fst)
      (Trie.recording f) (Trie.recording f') fun b b' =>
        R b.1 b'.1 ∧ b.2.map Prod.fst = b'.2.map Prod.fst :=
    { view_eq := by
        rintro b b' ⟨hR, _⟩
        show (now b.1).map.trieAt g = (now' b'.1).map.trieAt g
        rcases C.same_or_after hR with heq | ⟨s, hs, hwalks, hA, hA'⟩
        · rw [heq]
        · have Gs := G.runs hs
          have hgs := Nat.le_trans hg (G.generation_le hs)
          rw [hA.trieAt Gs hwalks hgs, hA'.trieAt Gs hwalks hgs]
      go_eq := fun h _ => C.go_eq _ _ h.1
      related := by
        rintro b b' _ k v ⟨hR, hshown⟩ _
        refine ⟨C.related k v hR, ?_⟩
        simp only [Trie.recording, List.map_append, hshown, List.map_cons, List.map_nil] }
  exact (S.sweep (a, []) (a', []) ⟨h, rfl⟩).2

end Sweeps

/-! ## Both kinds of walk -/

section Walks
variable [BEq κ] [BEq ν] {hash : κ → UInt64}

/-- Walks of a trie that was cleared away, while nothing but walks was under way.  Whatever happens
after the clearing, at every instant and in any order with the steps of a cursor that began before,
the cursor answers as it would have answered if nothing more had been done to the map; so any two
continuations give the same answers, and what it shows is an entry that was stored before the
clearing.  Two sweeps whose callbacks part only at a clearing show the same, and so does a sweep
after whose last call before the clearing nothing more is done; what a sweep shows after the
clearing is an entry that was stored before. -/
theorem walks_isolated (hash : κ → UInt64) :
    (∀ s : Instant κ ν, Reachable hash s → s.OnlyWalks → ∀ g c, .walking g c ∈ s.works →
      (∀ items, Consults g s.cleared c items →
        items = (c.steps (s.map.trieAt g) items.length).1 ∧
        ∀ item, some item ∈ items → ∃ e, (s.map.trieAt g).item? e = some item) ∧
      ∀ items items', Consults g s.cleared c items → Consults g s.cleared c items' →
        items.length = items'.length → items = items') ∧
    ∀ {σ : Type w} {σ' : Type w'} (now : σ → Instant κ ν) (now' : σ' → Instant κ ν)
      (f : κ → ν → σ → Bool × σ) (f' : κ → ν → σ' → Bool × σ') (R : σ → σ' → Prop)
      (a : σ) (a' : σ'), Reachable hash (now a) → InStep (now a) now now' f f' R → R a a' →
      let g := (now a).map.generation
      Trie.shown (trieOf now g) f a = Trie.shown (trieOf now' g) f' a' ∧
      ∀ s, (now a).Runs s → s.OnlyWalks → ∀ note ∈ Trie.sightings (trieOf now g) f a,
        s.cleared.Runs (now note.2) → ∃ e, (s.map.trieAt g).item? e = some note.1 := by
  constructor
  · intro s h hwalks g c hc
    have hg : g ≤ s.map.generation := h.good.ready _ hc
    have hitems : ∀ items, Consults g s.cleared c items →
        items = (c.steps (s.map.trieAt g) items.length).1 := by
      intro items hrun
      have hsteps := hrun.eq_steps (h.good.sealed hwalks hg)
      rwa [cleared, TrieMap.trieAt_clear _ hg] at hsteps
    refine ⟨fun items hrun => ⟨hitems items hrun, fun item hitem => ?_⟩, ?_⟩
    · rw [hitems items hrun] at hitem
      exact Cursor.exists_item?_of_mem_steps hitem
    · intro items items' hrun hrun' hlength
      rw [hitems items hrun, hitems items' hrun', hlength]
  · intro σ σ' now now' f f' R a a' h C hR g
    refine ⟨C.shown_eq h.good (Nat.le_refl _) hR, fun s hs hwalks note hnote hrun => ?_⟩
    have hsame := (h.good.runs hs).trieAt_of_cleared hwalks (h.good.generation_le hs) hrun
    rw [← hsame]
    exact Trie.exists_item?_of_sighting hnote

end Walks

/-- A map of two keys under a cursor that has shown the head of the chain. -/
def midway : Instant Nat Nat := ⟨twoKeys, [.walking 0 ⟨[⟨Trie.root, allNibbles.tail⟩], some 0⟩]⟩

theorem reachable_midway : Reachable (fun _ => 0) midway := by
  have hkeys : Reachable (fun _ => 0) ⟨twoKeys, []⟩ := .of_made .empty _
  have hwalk : Reachable (fun _ => 0) ⟨twoKeys, [] ++ .walking 0 .start :: []⟩ := hkeys.step .walk
  exact hwalk.step (.visit rfl)

theorem onlyWalks_midway : midway.OnlyWalks := by
  intro w hw
  exact ⟨_, _, List.mem_singleton.mp hw⟩

theorem nothing_held_midway : ∀ w ∈ midway.works, w.held? = none := by
  intro w hw
  rw [List.mem_singleton.mp hw]
  rfl

/-- The map is cleared and gets another key before the cursor goes on to its end. -/
theorem consults_midway : Consults 0 midway.cleared ⟨[⟨Trie.root, allNibbles.tail⟩], some 0⟩
    [some (2, 10), none] := by
  refine .of_runs (Runs.run nothing_held_midway reachable_midway.good.cleared [.insert 3 7]) ?_
  exact .next (.next .done)

/-- A callback that clears the map and inserts another key. -/
def clearing (_ _ : Nat) (s : Instant Nat Nat) : Bool × Instant Nat Nat :=
  (true, ⟨(s.map.run [.clear, .insert 3 7]).2, s.works⟩)

theorem after_clearing {s s' : Instant Nat Nat} (G : s.Good) (hW : ∀ w ∈ s.works, w.held? = none)
    (h : s.After s') (hworks : s'.works = s.works) (k v : Nat) :
    s.After (clearing k v s').2 := by
  cases h with
  | still => exact .afresh (Runs.run hW G.cleared [.insert 3 7])
  | afresh R => exact .afresh (R.trans (Runs.run (hworks ▸ hW) (G.cleared.runs R) _))

/-- The cursor shows the value behind the head as if the map had not been cleared.  A sweep whose
callback clears the map shows what a sweep shows whose callback does nothing. -/
theorem walks_isolated_midway :
    (∃ e, (twoKeys.trieAt 0).item? e = some (2, 10)) ∧
      [some (2, 10), none] = (Cursor.steps (twoKeys.trieAt 0) 2
        ⟨[⟨Trie.root, allNibbles.tail⟩], some 0⟩).1 ∧
      Trie.shown (trieOf id 0) clearing midway =
        Trie.shown (trieOf id 0) (fun _ _ s => (true, s)) midway := by
  obtain ⟨cursors, sweeps⟩ := walks_isolated (κ := Nat) (ν := Nat) fun _ => 0
  have hcursor := (cursors midway reachable_midway onlyWalks_midway 0 _
    (List.mem_singleton.mpr rfl)).1 _ consults_midway
  refine ⟨hcursor.2 (2, 10) List.mem_cons_self, hcursor.1, ?_⟩
  have C : InStep midway id id clearing (fun _ _ s => (true, s))
      fun s s' => s' = midway ∧ s.works = midway.works ∧ midway.After s :=
    { go_eq := fun _ _ _ => rfl
      related := fun k v ⟨h, hworks, hA⟩ =>
        ⟨h, hworks, after_clearing reachable_midway.good nothing_held_midway hA hworks k v⟩
      same_or_after := fun ⟨h, _, hA⟩ =>
        .inr ⟨midway, .refl, onlyWalks_midway, hA, h ▸ .still⟩ }
  exact (sweeps id id clearing _ _ midway midway reachable_midway C ⟨rfl, rfl, .still⟩).1

end Instant

end NibbleTrie
