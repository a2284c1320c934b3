/-
Operations, as they run, are made of the steps between instants.

So what holds at every instant holds after any operations, within the
comparisons, builders and callbacks of operations under way, and at the end of
operations that were interrupted.

Main statements: `Instant.Runs.finish` for a probe that goes on from an arrival,
and with no slot held `Instant.Runs.run`, `Instant.Runs.interrupted` and
`Instant.Reachable.sweep`.
-/
import Mathlib.Logic.Relation
import NibbleTrie.Proofs.Instant
import NibbleTrie.Trie.Sweep

namespace NibbleTrie

variable {κ : Type u} {ν : Type v}

namespace TrieMap

variable [BEq κ] {m : TrieMap κ ν} {a : Arrival} {k : κ} {accept : ν → Bool}

/-- A search that finds nothing has compared with the whole chain. -/
theorem Laid.find?_none (H : m.Laid) {h : UInt64} (ha : m.Arrived h a)
    (hnone : m.find? a k accept = none) :
    ∃ l, (m.trieAt a.generation).Linked a.head l ∧
      ∀ e ∈ l, (m.trieAt a.generation).hit k accept e = false := by
  obtain ⟨path, L⟩ := H.layout a.generation ha.generation_le
  cases hhead : a.head with
  | none => exact ⟨[], .nil, fun _ h => absurd h List.not_mem_nil⟩
  | some head =>
    have hlt := ha.head_lt head hhead
    rw [find?, hhead, Option.bind_some] at hnone
    exact ⟨_, Trie.linked_chain L.falling hlt, Trie.of_search_none L.falling hlt hnone⟩

/-- A search that finds an entry has compared with those in front of it. -/
theorem Laid.find?_some (H : m.Laid) {h : UInt64} (ha : m.Arrived h a)
    {found : EntryId × Entry κ ν} (hfind : m.find? a k accept = some found) :
    ∃ l₁ e l₂, (m.trieAt a.generation).Linked a.head (l₁ ++ e :: l₂) ∧
      (∀ b ∈ l₁, (m.trieAt a.generation).hit k accept b = false) ∧
      (m.trieAt a.generation).hit k accept e = true := by
  obtain ⟨path, L⟩ := H.layout a.generation ha.generation_le
  obtain ⟨head, hhead, hsearch⟩ := Option.bind_eq_some_iff.mp hfind
  have hlt := ha.head_lt head hhead
  rw [Trie.search_eq L.falling hlt, Option.bind_eq_some_iff] at hsearch
  obtain ⟨e, he, _⟩ := hsearch
  obtain ⟨hhit, l₁, l₂, hl, hmiss⟩ := List.find?_eq_some_iff_append.mp he
  have hlink := Trie.linked_chain L.falling hlt
  rw [hl] at hlink
  rw [hhead]
  exact ⟨l₁, e, l₂, hlink, fun b hb => by simpa using hmiss b hb, hhit⟩

end TrieMap

namespace Instant

variable [BEq κ] [BEq ν] {hash : κ → UInt64} {s s' : Instant κ ν}

/-- The instant `s'` comes about from `s` on. -/
abbrev Runs (s s' : Instant κ ν) : Prop := Relation.ReflTransGen Step s s'

theorem Good.runs (G : s.Good) (R : s.Runs s') : s'.Good := by
  induction R with
  | refl => exact G
  | tail _ hs ih => exact hs.good ih

theorem Good.hash_eq (G : s.Good) (R : s.Runs s') : s'.map.hash = s.map.hash := by
  induction R with
  | refl => rfl
  | tail R hs ih => exact (hs.turn (G.runs R)).hash_eq.trans ih

theorem Good.generation_le (G : s.Good) (R : s.Runs s') :
    s.map.generation ≤ s'.map.generation := by
  induction R with
  | refl => exact Nat.le_refl _
  | tail R hs ih => exact Nat.le_trans ih (hs.turn (G.runs R)).generation_le

theorem Reachable.of_runs (h : Reachable hash s) (R : s.Runs s') : Reachable hash s' := by
  induction R with
  | refl => exact h
  | tail _ hs ih => exact ih.step hs

/-- The instant `s'` comes about from `s` on, and the map stays as it is all along. -/
def Still (s s' : Instant κ ν) : Prop :=
  Relation.ReflTransGen (fun s s' => Step s s' ∧ s'.map = s.map) s s'

variable {m : TrieMap κ ν} {W P Q : List (Work κ ν)} {p : Probe κ ν} {a : Arrival}

namespace Still

theorem refl (s : Instant κ ν) : Still s s := Relation.ReflTransGen.refl

theorem single (h : Step s s') (hmap : s'.map = s.map) : Still s s' :=
  Relation.ReflTransGen.single ⟨h, hmap⟩

theorem trans {s₁ s₂ : Instant κ ν} (S : Still s s₁) (S' : Still s₁ s₂) : Still s s₂ :=
  Relation.ReflTransGen.trans S S'

theorem runs (S : Still s s') : s.Runs s' :=
  Relation.ReflTransGen.mono (fun _ _ h => h.1) s s' S

/-- A probe passes entries that are no match. -/
theorem pass_all {g : Nat} {site : Site} {l₂ : List EntryId} :
    ∀ {l₁ : List EntryId} {cur : Option EntryId}, (m.trieAt g).Linked cur (l₁ ++ l₂) →
      (∀ e ∈ l₁, (m.trieAt g).hit p.key p.accept e = false) →
      Still ⟨m, P ++ .searching p ⟨g, site, cur⟩ :: Q⟩
        ⟨m, P ++ .searching p ⟨g, site, l₂.head?⟩ :: Q⟩
  | [], cur, hlink, _ => by
    have hcur : l₂.head? = cur := by
      cases hlink with
      | nil => rfl
      | cons _ _ => rfl
    rw [hcur]
    exact refl _
  | e :: l₁, cur, hlink, hmiss => by
    cases hlink with
    | cons _ htail =>
      have hpass : Step ⟨m, P ++ .searching p ⟨g, site, some e⟩ :: Q⟩ _ :=
        .pass (hmiss e List.mem_cons_self)
      exact (single hpass rfl).trans
        (pass_all htail fun b hb => hmiss b (List.mem_cons_of_mem _ hb))

omit [BEq ν] in
theorem arrived (G : Good ⟨m, P ++ .searching p a :: Q⟩) : m.Arrived (m.hash p.key) a :=
  G.ready (.searching p a) (by simp)

/-- A probe that finds no match gets to the end of its chain. -/
theorem search_end (G : Good ⟨m, P ++ .searching p a :: Q⟩)
    (hnone : m.find? a p.key p.accept = none) :
    Still ⟨m, P ++ .searching p a :: Q⟩ ⟨m, P ++ .searching p { a with head := none } :: Q⟩ := by
  obtain ⟨l, hlink, hmiss⟩ := G.laid.find?_none (arrived G) hnone
  exact pass_all (by rw [List.append_nil]; exact hlink) hmiss

/-- A probe that finds a match gets to it. -/
theorem search_match (G : Good ⟨m, P ++ .searching p a :: Q⟩)
    {found : EntryId × Entry κ ν} (hfind : m.find? a p.key p.accept = some found) :
    ∃ e, (m.trieAt a.generation).hit p.key p.accept e = true ∧
      Still ⟨m, P ++ .searching p a :: Q⟩
        ⟨m, P ++ .searching p { a with head := some e } :: Q⟩ := by
  obtain ⟨l₁, e, l₂, hlink, hmiss, hhit⟩ := G.laid.find?_some (arrived G) hfind
  exact ⟨e, hhit, pass_all hlink hmiss⟩

/-- A probe comes to hold the slot of a match, beginning again as often as it has to. -/
theorem grip_match {held : Held} (hp : p.aim = .take)
    (M : m.Matching p.key p.accept a (some held)) (G : Good ⟨m, P ++ .searching p a :: Q⟩) :
    Still ⟨m, P ++ .searching p a :: Q⟩ ⟨m, P ++ .holding p.plan held :: Q⟩ := by
  generalize hr : some held = r at M
  induction M with
  | missed _ => cases hr
  | held hfind hhold =>
    cases hr
    obtain ⟨e, hhit, S⟩ := search_match G hfind
    exact S.trans (single (.hold hp rfl hhit hhold) rfl)
  | again hfind hhold harrive _ ih =>
    obtain ⟨e, hhit, S⟩ := search_match G hfind
    have S' := S.trans (single (.again hp rfl hhit hhold harrive) rfl)
    exact S'.trans (ih (G.runs S'.runs) hr)

/-- A probe goes on until it holds its slot and carries out its plan, or it changes nothing. -/
theorem finish (G : Good ⟨m, P ++ .searching p a :: Q⟩) :
    ((m.finish a p).state = m ∧ (m.finish a p).events = []) ∨
      ∃ held, m.finish a p = m.carryOut held p.plan ∧
        Still ⟨m, P ++ .searching p a :: Q⟩ ⟨m, P ++ .holding p.plan held :: Q⟩ := by
  have F := G.laid.finishes p (arrived G)
  generalize m.finish a p = e at F ⊢
  cases F with
  | looked _ => exact .inl ⟨rfl, rfl⟩
  | present _ _ => exact .inl ⟨rfl, rfl⟩
  | missed _ _ => exact .inl ⟨rfl, rfl⟩
  | @absent held hp hmet hheld =>
    have S := search_end G (Option.map_eq_none_iff.mp hmet)
    exact .inr ⟨held, rfl, S.trans (single (.miss hp rfl hheld) rfl)⟩
  | @matched held hp M => exact .inr ⟨held, rfl, grip_match hp M G⟩

/-- An operation on one key comes to hold its slot and carries out its plan, or it changes
nothing. -/
theorem apply (G : Good ⟨m, W⟩) {op : Op κ ν} {plan : Plan κ ν} (hplan : op.plan? = some plan) :
    ((m.apply op).state = m ∧ (m.apply op).events = []) ∨
      ∃ held, m.apply op = m.carryOut held plan ∧ Still ⟨m, W⟩ ⟨m, .holding plan held :: W⟩ := by
  by_cases hop : ∃ p, op = .probe p
  · obtain ⟨p, rfl⟩ := hop
    cases hplan
    obtain ⟨a, ha, _⟩ := G.laid.exists_arrive (m.hash p.key)
    have hbegin : m.begin p = .ok a := ha
    have hstep : Step ⟨m, W⟩ ⟨m, [] ++ .searching p a :: W⟩ := .arrive hbegin
    rw [TrieMap.apply_probe hbegin]
    refine (finish (P := []) (hstep.good G)).imp_right fun ⟨held, heq, S⟩ => ?_
    exact ⟨held, heq, (single hstep rfl).trans S⟩
  · have hop' : ∀ p, op ≠ .probe p := fun p hp => hop ⟨p, hp⟩
    obtain ⟨held, hheld, heq⟩ := G.laid.atOnce hplan hop'
    exact .inr ⟨held, heq, single (.grip hop' hplan hheld) rfl⟩

end Still

namespace Runs

/-- A probe can go on to its end. -/
theorem finish (G : Good ⟨m, P ++ .searching p a :: Q⟩)
    (hr : Respects (P ++ Q) m (m.finish a p).state) :
    Runs ⟨m, P ++ .searching p a :: Q⟩ ⟨(m.finish a p).state, P ++ Q⟩ := by
  rcases Still.finish G with ⟨hstate, _⟩ | ⟨held, heq, S⟩
  · rw [hstate]
    exact .single .leave
  · rw [heq] at hr ⊢
    exact S.runs.tail (.write hr)

/-- An operation on one key can run as a whole. -/
theorem apply_keyed (G : Good ⟨m, W⟩) {op : Op κ ν} {plan : Plan κ ν}
    (hplan : op.plan? = some plan) (hr : Respects W m (m.apply op).state) :
    Runs ⟨m, W⟩ ⟨(m.apply op).state, W⟩ := by
  rcases Still.apply G hplan with ⟨hstate, _⟩ | ⟨held, heq, S⟩
  · rw [hstate]
  · rw [heq] at hr ⊢
    exact S.runs.tail (.write (P := []) hr)

/-! ### With nothing held -/

variable (hW : ∀ w ∈ W, w.held? = none)
include hW

omit [BEq κ] [BEq ν] in
theorem respects_of_free (m m' : TrieMap κ ν) : Respects W m m' := by
  intro w hw held hh
  rw [hW w hw] at hh
  cases hh

theorem insertMany : ∀ {m : TrieMap κ ν} (_ : Good ⟨m, W⟩) (entries : List (κ × ν)),
    Runs ⟨m, W⟩ ⟨(m.insertMany entries).state, W⟩
  | m, G, [] => .refl
  | m, G, (k, v) :: rest => by
    have hplan : (Op.insert k v).plan? = some _ := rfl
    have R : Runs ⟨m, W⟩ ⟨(m.insert k v).state, W⟩ :=
      apply_keyed G hplan (respects_of_free hW _ _)
    rw [TrieMap.insertMany]
    cases hresult : (m.insert k v).result with
    | ok r =>
      rw [(Effect.andThen_of_ok hresult).2]
      exact R.trans (insertMany (G.runs R) rest)
    | error f =>
      rw [Effect.andThen_of_error hresult]
      exact R

/-- Every operation can run as a whole while nothing is held. -/
theorem apply (G : Good ⟨m, W⟩) (op : Op κ ν) : Runs ⟨m, W⟩ ⟨(m.apply op).state, W⟩ := by
  cases hplan : op.plan? with
  | some plan => exact apply_keyed G hplan (respects_of_free hW _ _)
  | none =>
    cases op with
    | insertMany entries => exact insertMany hW G entries
    | clear => exact .single .clear
    | size => exact .refl
    | isEmpty => exact .refl
    | _ => cases hplan

/-- Operations can run one after another while nothing is held. -/
theorem run (G : Good ⟨m, W⟩) (ops : List (Op κ ν)) : Runs ⟨m, W⟩ ⟨(m.run ops).2, W⟩ := by
  induction ops generalizing m with
  | nil => exact .refl
  | cons op ops ih =>
    have R := apply hW G op
    exact R.trans (ih (G.runs R))

/-- A probe can be interrupted by operations before its first comparison. -/
theorem interrupted (G : Good ⟨m, W⟩) (p : Probe κ ν) (ops : List (Op κ ν)) :
    Runs ⟨m, W⟩ ⟨(m.interrupted p fun m => (m.run ops).2).state, W⟩ := by
  obtain ⟨a, ha, _⟩ := G.laid.exists_arrive (m.hash p.key)
  have hbegin : m.begin p = .ok a := ha
  have hstep : Step ⟨m, W⟩ ⟨m, [] ++ .searching p a :: W⟩ := .arrive hbegin
  have hW' : ∀ w ∈ Work.searching p a :: W, w.held? = none := by
    intro w hw
    rcases List.mem_cons.mp hw with rfl | hw
    · rfl
    · exact hW w hw
  have R := run hW' (hstep.good G) ops
  rw [TrieMap.interrupted, hbegin]
  dsimp only
  split
  · exact .head hstep (R.trans (finish (P := []) ((hstep.good G).runs R) (respects_of_free hW _ _)))
  · exact .head hstep (finish (P := []) (hstep.good G) (respects_of_free hW _ _))

end Runs

/-- Operations can run one after another while nothing is held. -/
theorem Reachable.run {m : TrieMap κ ν} {W : List (Work κ ν)} (hW : ∀ w ∈ W, w.held? = none)
    (h : Reachable hash ⟨m, W⟩) (ops : List (Op κ ν)) : Reachable hash ⟨(m.run ops).2, W⟩ :=
  h.of_runs (Runs.run hW h.good ops)

/-- Operations can run one after another on a map that was just made. -/
theorem Reachable.of_made {m : TrieMap κ ν} (M : TrieMap.Made hash m) (ops : List (Op κ ν)) :
    Reachable hash ⟨(m.run ops).2, []⟩ :=
  (Reachable.made M).run (fun _ h => absurd h List.not_mem_nil) ops

end Instant

/-! ## Sweeps -/

namespace Trie

section Sweep
variable {σ : Type w} {view : σ → Trie κ ν} {f : κ → ν → σ → Bool × σ} {P : σ → Prop}
variable (hf : ∀ k v s, P s → P (f k v s).2)
include hf

theorem sweepChain_preserves : ∀ {fuel : Nat} {cur : Option EntryId} {s : σ}, P s →
    P (sweepChain view f fuel cur s).2
  | 0, _, _, hs => hs
  | _ + 1, none, _, hs => hs
  | fuel + 1, some e, s, hs => by
    rw [sweepChain]
    cases (view s).entries[e]? with
    | none => exact hs
    | some x =>
      have hcall := hf x.key x.value s hs
      rcases hr : f x.key x.value s with ⟨_ | _, s₁⟩
      · rw [hr] at hcall
        simp only [hr]
        exact hcall
      · rw [hr] at hcall
        simp only [hr]
        exact sweepChain_preserves hcall

theorem sweepSlots_preserves {down : BranchId → σ → Bool × σ} {b : BranchId}
    (hdown : ∀ c s, P s → P (down c s).2) : ∀ {rest : List Nibble} {s : σ}, P s →
      P (sweepSlots view f down b rest s).2
  | [], _, hs => hs
  | i :: rest, s, hs => by
    rw [sweepSlots]
    cases (view s).slot b i with
    | empty => exact sweepSlots_preserves hdown hs
    | chain head =>
      have hswept : P (sweepChain view f ((view s).chainBound head) (some head) s).2 :=
        sweepChain_preserves hf hs
      dsimp only
      generalize sweepChain view f ((view s).chainBound head) (some head) s = r at hswept ⊢
      obtain ⟨_ | _, s₁⟩ := r
      · exact hswept
      · exact sweepSlots_preserves hdown hswept
    | branch c =>
      have hswept := hdown c s hs
      dsimp only
      generalize down c s = r at hswept ⊢
      obtain ⟨_ | _, s₁⟩ := r
      · exact hswept
      · exact sweepSlots_preserves hdown hswept

theorem sweepBranch_preserves : ∀ {levels : Nat} {b : BranchId} {s : σ}, P s →
    P (sweepBranch view f levels b s).2
  | 0, _, _, hs => hs
  | _ + 1, _, _, hs => sweepSlots_preserves hf (fun _ _ => sweepBranch_preserves) hs

/-- A sweep preserves what its callback preserves. -/
theorem sweep_preserves {s : σ} (hs : P s) : P (sweep view f s) := sweepBranch_preserves hf hs

end Sweep

end Trie

/-- A sweep can run whose callback leads from instants to instants. -/
theorem Instant.Reachable.sweep [BEq κ] [BEq ν] {hash : κ → UInt64} {σ : Type w}
    {now : σ → Instant κ ν} {g : Nat} {f : κ → ν → σ → Bool × σ}
    (hf : ∀ k v s, Reachable hash (now s) → Reachable hash (now (f k v s).2)) {s : σ}
    (h : Reachable hash (now s)) :
    Reachable hash (now (Trie.sweep (fun s => (now s).map.trieAt g) f s)) :=
  Trie.sweep_preserves (P := fun s => Reachable hash (now s)) hf h

end NibbleTrie
