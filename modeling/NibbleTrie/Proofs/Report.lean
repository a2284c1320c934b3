/-
What is reported along a run.

Each step of an instant reports the events of what it writes, and a step that
leaves the map as it is reports nothing (`Instant.Reports`).  Operations that run
one after another report what these steps report (`TrieMap.log`).

A run gathers entries if it neither clears the map nor removes an entry
(`Instant.Gathers`); entries can be replaced.

Main statement: operations that run one after another, none of which clears the
map or removes an entry, are such a run (`Instant.Gathers.run`).
-/
import NibbleTrie.Proofs.Account
import NibbleTrie.Proofs.Running

namespace NibbleTrie

variable {κ : Type u} {ν : Type v}

/-- The levels of branches that a split has built. -/
def Event.splitLevels : Event → Nat
  | .split levels _ => levels
  | .prebuilt .. | .cleared | .chained _ | .dropped _ => 0

/-- The levels of all splits that are reported. -/
def splitLevels : List Event → Nat
  | [] => 0
  | e :: l => e.splitLevels + splitLevels l

theorem splitLevels_append (l l' : List Event) :
    splitLevels (l ++ l') = splitLevels l + splitLevels l' := by
  induction l with
  | nil => exact (Nat.zero_add _).symm
  | cons e l ih => rw [List.cons_append, splitLevels, splitLevels, ih, Nat.add_assoc]

/-- What is reported by a second change that takes place. -/
theorem Effect.events_andThen_of_ok {σ : Type u} {ρ : Type v} {ρ' : Type w} {e : Effect σ ρ}
    {next : σ → ρ → Effect σ ρ'} {r : ρ} (h : e.result = .ok r) :
    (e.andThen next).events = e.events ++ (next e.state r).events := by
  obtain ⟨result, state, events⟩ := e
  obtain rfl : result = .ok r := h
  rfl

namespace TrieMap

/-- A map is not cleared, and no entry is removed from it: there are as many entries as before, or
more. -/
structure Retains (m m' : TrieMap κ ν) : Prop where
  generation_eq : m'.generation = m.generation
  size_le : m.size ≤ m'.size

theorem Retains.refl (m : TrieMap κ ν) : m.Retains m := ⟨rfl, Nat.le_refl _⟩

theorem not_retains_clear (m : TrieMap κ ν) : ¬ m.Retains m.clear.state := by
  intro h
  have hgen := h.generation_eq
  rw [generation_clear] at hgen
  exact Nat.succ_ne_self _ hgen

variable [BEq κ] {m m' : TrieMap κ ν}

/-- What is taken out without a removal is exchanged for something. -/
theorem Amends.exchanged {gone new : Option (κ × ν)} (H : m.Laid)
    (A : m.Amends m' m.generation gone new) (hsize : m.size ≤ m'.size) (hnew : new = none) :
    gone = none := by
  obtain ⟨rest, hgone, hrest⟩ := A.exchanges H
  rw [H.size_eq, ((Turn.amend A).laid H).size_eq, hgone.length_eq, hrest.length_eq, hnew] at hsize
  cases gone with
  | none => rfl
  | some _ =>
    simp only [Option.toList_some, Option.toList_none, List.nil_append, List.cons_append,
      List.length_cons] at hsize
    omega

variable [BEq ν]

/-- Setting a key removes no entry. -/
theorem Laid.retains_insert (H : m.Laid) (k : κ) (v : ν) : m.Retains (m.insert k v).state := by
  have hop : (Op.insert k v : Op κ ν).isSingle = true := rfl
  obtain ⟨gone, new, hacc, A⟩ := H.apply_exchanges hop
  refine ⟨A.generation_eq, ?_⟩
  obtain ⟨rest, hgone, hrest⟩ := A.exchanges H
  have hle : gone.toList.length ≤ new.toList.length := by
    cases hresult : (m.apply (.insert k v)).result with
    | error f =>
      rw [hresult] at hacc
      obtain ⟨rfl, rfl⟩ : gone = none ∧ new = none := hacc
      exact Nat.le_refl _
    | ok r =>
      rw [hresult] at hacc
      obtain ⟨_, rfl⟩ : _ ∧ new = some (k, v) := hacc
      cases gone <;> simp
  show m.size ≤ (m.apply (.insert k v)).state.size
  rw [H.size_eq, ((Turn.amend A).laid H).size_eq, hgone.length_eq, hrest.length_eq,
    List.length_append, List.length_append]
  exact Nat.add_le_add_right hle _

/-- What operations report that run one after another. -/
def log (m : TrieMap κ ν) : List (Op κ ν) → List Event
  | [] => []
  | op :: ops => (m.apply op).events ++ (m.apply op).state.log ops

/-- None of the operations, run one after another, clears the map or removes an entry. -/
def Retaining (m : TrieMap κ ν) : List (Op κ ν) → Prop
  | [] => True
  | op :: ops => m.Retains (m.apply op).state ∧ (m.apply op).state.Retaining ops

end TrieMap

namespace Instant

variable [BEq κ] [BEq ν] {s s₁ s₂ : Instant κ ν} {l l' : List Event} {m : TrieMap κ ν}

/-- What is reported in a step. -/
inductive Reports : Instant κ ν → Instant κ ν → List Event → Prop
  | write {m P Q plan held} : Respects (P ++ Q) m (m.carryOut held plan).state →
      Reports ⟨m, P ++ .holding plan held :: Q⟩ ⟨(m.carryOut held plan).state, P ++ Q⟩
        (m.carryOut held plan).events
  | built {m P Q k held} (v : ν) : Respects (P ++ Q) m (m.insertHeld held k v).state →
      Reports ⟨m, P ++ .building k held :: Q⟩ ⟨(m.insertHeld held k v).state, P ++ Q⟩
        (m.insertHeld held k v).events
  | clear {m W} : Reports ⟨m, W⟩ ⟨m.clear.state, W⟩ m.clear.events
  /-- A step that leaves the map as it is reports nothing. -/
  | still {s s'} : Step s s' → s'.map = s.map → Reports s s' []

theorem Reports.step (h : Reports s s₁ l) : Step s s₁ := by
  cases h with
  | write hr => exact .write hr
  | built v hr => exact .built v hr
  | clear => exact .clear
  | still h _ => exact h

/-- Every step reports something, be it nothing. -/
theorem Step.reports (h : Step s s₁) : ∃ l, Reports s s₁ l := by
  cases h with
  | write hr => exact ⟨_, .write hr⟩
  | built v hr => exact ⟨_, .built v hr⟩
  | clear => exact ⟨_, .clear⟩
  | arrive h => exact ⟨[], .still (.arrive h) rfl⟩
  | pass h => exact ⟨[], .still (.pass h) rfl⟩
  | hold h₁ h₂ h₃ h₄ => exact ⟨[], .still (.hold h₁ h₂ h₃ h₄) rfl⟩
  | again h₁ h₂ h₃ h₄ h₅ => exact ⟨[], .still (.again h₁ h₂ h₃ h₄ h₅) rfl⟩
  | miss h₁ h₂ h₃ => exact ⟨[], .still (.miss h₁ h₂ h₃) rfl⟩
  | grip h₁ h₂ h₃ => exact ⟨[], .still (.grip h₁ h₂ h₃) rfl⟩
  | build h => exact ⟨[], .still (.build h) rfl⟩
  | walk => exact ⟨[], .still .walk rfl⟩
  | visit h => exact ⟨[], .still (.visit h) rfl⟩
  | leave => exact ⟨[], .still .leave rfl⟩

/-- The instant `s'` comes about from `s` on while the map is not cleared and no entry is removed,
and `l` is reported. -/
inductive Gathers (s : Instant κ ν) : Instant κ ν → List Event → Prop
  | refl : Gathers s s []
  | tail {s₁ s₂ : Instant κ ν} {l l' : List Event} : Gathers s s₁ l → Reports s₁ s₂ l' →
      s₁.map.Retains s₂.map → Gathers s s₂ (l ++ l')

namespace Gathers

theorem runs (G : Gathers s s₁ l) : s.Runs s₁ := by
  induction G with
  | refl => exact .refl
  | tail _ h _ ih => exact .tail ih h.step

theorem still (G : Gathers s s₁ l) (S : Still s₁ s₂) : Gathers s s₂ l := by
  induction S with
  | refl => exact G
  | @tail s₂ s₃ _ h ih =>
    obtain ⟨hstep, hmap⟩ := h
    have hretains : s₂.map.Retains s₃.map := hmap ▸ .refl _
    exact List.append_nil l ▸ ih.tail (.still hstep hmap) hretains

/-- An operation on one key that removes nothing. -/
theorem apply_keyed (G : Gathers s ⟨m, []⟩ l) (hgood : Good ⟨m, []⟩) {op : Op κ ν}
    {plan : Plan κ ν} (hplan : op.plan? = some plan) (hret : m.Retains (m.apply op).state) :
    Gathers s ⟨(m.apply op).state, []⟩ (l ++ (m.apply op).events) := by
  rcases Still.apply hgood hplan with ⟨hstate, hevents⟩ | ⟨held, heq, S⟩
  · rw [hstate, hevents, List.append_nil]
    exact G
  · rw [heq] at hret ⊢
    exact (G.still S).tail (.write (P := []) fun _ h => absurd h List.not_mem_nil) hret

theorem insertMany : ∀ {m : TrieMap κ ν} {l : List Event} (_ : Gathers s ⟨m, []⟩ l)
    (_ : Good ⟨m, []⟩) (entries : List (κ × ν)),
    Gathers s ⟨(m.insertMany entries).state, []⟩ (l ++ (m.insertMany entries).events)
  | m, l, G, _, [] => by
    rw [TrieMap.insertMany]
    exact (List.append_nil l).symm ▸ G
  | m, l, G, hgood, (k, v) :: rest => by
    have hplan : (Op.insert k v).plan? = some _ := rfl
    have G' : Gathers s ⟨(m.insert k v).state, []⟩ (l ++ (m.insert k v).events) :=
      G.apply_keyed hgood hplan (hgood.laid.retains_insert k v)
    have R := Runs.apply (fun _ h => absurd h List.not_mem_nil) hgood (.insert k v)
    rw [TrieMap.insertMany]
    cases hresult : (m.insert k v).result with
    | ok r =>
      rw [(Effect.andThen_of_ok hresult).2, Effect.events_andThen_of_ok hresult,
        ← List.append_assoc]
      exact insertMany G' (hgood.runs R) rest
    | error f =>
      rw [Effect.andThen_of_error hresult]
      exact G'

/-- An operation that removes nothing. -/
theorem apply (G : Gathers s ⟨m, []⟩ l) (hgood : Good ⟨m, []⟩) {op : Op κ ν}
    (hret : m.Retains (m.apply op).state) :
    Gathers s ⟨(m.apply op).state, []⟩ (l ++ (m.apply op).events) := by
  cases hplan : op.plan? with
  | some plan => exact G.apply_keyed hgood hplan hret
  | none =>
    cases op with
    | insertMany entries => exact G.insertMany hgood entries
    | clear => exact absurd hret m.not_retains_clear
    | size => exact (List.append_nil l).symm ▸ G
    | isEmpty => exact (List.append_nil l).symm ▸ G
    | _ => cases hplan

/-- Operations one after another, none of which clears the map or removes an entry. -/
theorem run (G : Gathers s ⟨m, []⟩ l) (hgood : Good ⟨m, []⟩) {ops : List (Op κ ν)}
    (hret : m.Retaining ops) : Gathers s ⟨(m.run ops).2, []⟩ (l ++ m.log ops) := by
  induction ops generalizing m l with
  | nil => exact (List.append_nil l).symm ▸ G
  | cons op ops ih =>
    have G' := G.apply hgood hret.1
    have R := Runs.apply (fun _ h => absurd h List.not_mem_nil) hgood op
    rw [TrieMap.log, ← List.append_assoc]
    exact ih G' (hgood.runs R) hret.2

end Gathers

end Instant

end NibbleTrie
