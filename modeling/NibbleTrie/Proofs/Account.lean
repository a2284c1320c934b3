/-
The answer of an operation accounts for what is listed.

Nothing is lost and nothing is doubled: what an operation on one key takes from
the listed entries, and what it brings, can be told from its answer
(`Op.Accounts`), and everything else is listed before and after as often as it
was.  This needs no lawful keys.  If equal keys have different hashes a key may
be listed twice, and then an answer is about one of its entries.

Main statement: `Instant.Reachable.apply_accounts`.
-/
import NibbleTrie.Proofs.Running

namespace NibbleTrie

variable {κ : Type u} {ν : Type v} [BEq κ] [BEq ν]

/-- What the result of an operation says of the entry that goes and of the one that comes.  After
every result that is not mentioned, and after every fault, none has gone and none has come. -/
def Op.Accounts (op : Op κ ν) (result : Except Fault (Reply κ ν)) (gone new : Option (κ × ν)) :
    Prop :=
  match op, result with
  | .insert k v, .ok _ => (∀ e ∈ gone, (e.1 == k) = true) ∧ new = some (k, v)
  | .swap k v, .ok (.value? none) => gone = none ∧ new = some (k, v)
  | .swap k v, .ok (.value? (some u)) =>
    ∃ k', (k' == k) = true ∧ gone = some (k', u) ∧ new = some (k, v)
  | .insertNew k v, .ok (.inserted (.ok ())) => gone = none ∧ new = some (k, v)
  | .probe (.getOrInsert k v), .ok (.kept u false) => u = v ∧ gone = none ∧ new = some (k, v)
  | .probe (.getOrBuild k (.ok v)), .ok (.kept u false) => u = v ∧ gone = none ∧ new = some (k, v)
  | .probe (.compareAndSwap k old v), .ok (.flag true) =>
    ∃ k' u, (k' == k) = true ∧ (u == old) = true ∧ gone = some (k', u) ∧ new = some (k', v)
  | .probe (.pop? k), .ok (.value? (some u)) =>
    ∃ k', (k' == k) = true ∧ gone = some (k', u) ∧ new = none
  | .probe (.erase k), .ok (.flag true) =>
    ∃ k' u, (k' == k) = true ∧ gone = some (k', u) ∧ new = none
  | .probe (.compareAndErase k old), .ok (.flag true) =>
    ∃ k' u, (k' == k) = true ∧ (u == old) = true ∧ gone = some (k', u) ∧ new = none
  | _, _ => gone = none ∧ new = none

namespace Op

variable {op : Op κ ν} {plan : Plan κ ν} {found : Option (κ × ν)}

theorem accounts_error (op : Op κ ν) (f : Fault) : op.Accounts (.error f) none none := by
  cases op with
  | probe p =>
    cases p with
    | getOrBuild k build => cases build <;> exact ⟨rfl, rfl⟩
    | _ => exact ⟨rfl, rfl⟩
  | _ => exact ⟨rfl, rfl⟩

/-- What the plan of a probe does with an entry is what its answer says. -/
theorem accounts_probe (p : Probe κ ν)
    (hfound : ∀ e ∈ found, (e.1 == p.key) = true ∧ p.accept e.2 = true) :
    (Op.probe p).Accounts (p.judge found).1 ((p.judge found).2.gone found)
      (p.judge found).2.new := by
  cases found with
  | none =>
    cases p with
    | getOrInsert k v => exact ⟨rfl, rfl, rfl⟩
    | getOrBuild k build =>
      cases build with
      | error message => exact ⟨rfl, rfl⟩
      | ok v => exact ⟨rfl, rfl, rfl⟩
    | _ => exact ⟨rfl, rfl⟩
  | some e =>
    obtain ⟨hkey, haccept⟩ := hfound e rfl
    cases p with
    | get? k => exact ⟨rfl, rfl⟩
    | contains k => exact ⟨rfl, rfl⟩
    | getOrInsert k v => exact ⟨rfl, rfl⟩
    | getOrBuild k build => cases build <;> exact ⟨rfl, rfl⟩
    | pop? k => exact ⟨e.1, hkey, rfl, rfl⟩
    | erase k => exact ⟨e.1, e.2, hkey, rfl, rfl⟩
    | compareAndSwap k old v =>
      have hold : (e.2 == old) = true := haccept
      simp only [Probe.judge, hold, if_true]
      exact ⟨e.1, e.2, hkey, hold, rfl, rfl⟩
    | compareAndErase k old =>
      have hold : (e.2 == old) = true := haccept
      simp only [Probe.judge, hold, if_true]
      exact ⟨e.1, e.2, hkey, hold, rfl, rfl⟩

/-- What the plan of an operation does with an entry is what its answer says. -/
theorem accounts_judge (hplan : op.plan? = some plan)
    (hfound : ∀ e ∈ found, (e.1 == plan.key) = true ∧ plan.accept e.2 = true) :
    op.Accounts (plan.judge found).1 ((plan.judge found).2.gone found)
      (plan.judge found).2.new := by
  cases op with
  | probe p => cases hplan; exact accounts_probe p hfound
  | insert k v => cases hplan; exact ⟨fun e he => (hfound e he).1, rfl⟩
  | swap k v =>
    cases hplan
    cases found with
    | none => exact ⟨rfl, rfl⟩
    | some e => exact ⟨e.1, (hfound e rfl).1, rfl, rfl⟩
  | insertNew k v => cases hplan; cases found <;> exact ⟨rfl, rfl⟩
  | _ => cases hplan

end Op

namespace TrieMap

variable {m : TrieMap κ ν} {op : Op κ ν}

omit [BEq ν] in
/-- What an amendment of the current trie exchanges in the listing. -/
theorem Amends.exchanges {m' : TrieMap κ ν} {gone new : Option (κ × ν)} (H : m.Laid)
    (A : m.Amends m' m.generation gone new) :
    ∃ rest, m.toList.Perm (gone.toList ++ rest) ∧ m'.toList.Perm (new.toList ++ rest) := by
  obtain ⟨path, L⟩ := H.layout_current
  have C := A.change
  rw [m.trieAt_generation, ← A.generation_eq, m'.trieAt_generation] at C
  exact C.exchanges L

theorem Laid.apply_exchanges (H : m.Laid) (hop : op.isSingle = true) :
    ∃ gone new, op.Accounts (m.apply op).result gone new ∧
      m.Amends (m.apply op).state m.generation gone new := by
  cases hplan : op.plan? with
  | some plan =>
    have O := H.apply_outcome hplan
    generalize m.apply op = e at O ⊢
    cases O with
    | settled hfound A _ => exact ⟨_, _, Op.accounts_judge hplan hfound, A⟩
    | jammed _ => exact ⟨none, none, op.accounts_error _, .keep (Nat.le_refl _)⟩
  | none =>
    cases op with
    | size => exact ⟨none, none, ⟨rfl, rfl⟩, .keep (Nat.le_refl _)⟩
    | isEmpty => exact ⟨none, none, ⟨rfl, rfl⟩, .keep (Nat.le_refl _)⟩
    | insertMany _ => cases hop
    | clear => cases hop
    | _ => cases hplan

end TrieMap

/-- At every instant, an operation exchanges among the listed entries what its answer accounts for,
and every other entry is listed as often as before.  The size of the map is the number of the
entries before and after. -/
theorem Instant.Reachable.apply_accounts {hash : κ → UInt64} {s : Instant κ ν}
    (h : Reachable hash s) {op : Op κ ν} (hop : op.isSingle = true) :
    (∃ gone new rest, op.Accounts (s.map.apply op).result gone new ∧
      s.map.toList.Perm (gone.toList ++ rest) ∧
      (s.map.apply op).state.toList.Perm (new.toList ++ rest)) ∧
    s.map.size = s.map.toList.length ∧
    (s.map.apply op).state.size = (s.map.apply op).state.toList.length := by
  have H := h.good.laid
  obtain ⟨gone, new, hacc, A⟩ := H.apply_exchanges hop
  obtain ⟨rest, hgone, hnew⟩ := A.exchanges H
  have H' : (s.map.apply op).state.Laid := (TrieMap.Turn.amend A).laid H
  exact ⟨⟨gone, new, rest, hacc, hgone, hnew⟩, H.size_eq, H'.size_eq⟩

/-- A map in which a key is stored twice, under two hashes. -/
def twice : TrieMap Tagged Nat :=
  ((TrieMap.empty Tagged.hash).run [.insert ⟨1, 0⟩ 10, .insert ⟨1, 0x1000000000000000⟩ 11]).2

theorem reachable_twice : Instant.Reachable Tagged.hash ⟨twice, []⟩ := by
  have hmade : Instant.Reachable Tagged.hash (⟨TrieMap.empty Tagged.hash, []⟩ : Instant Tagged Nat) :=
    .made .empty
  exact hmade.run (fun _ h => absurd h List.not_mem_nil) _

/-- Setting the key exchanges the entry whose value is answered, and the other one stays. -/
theorem apply_accounts_twice : twice.size = 2 ∧
    ∃ k' rest, (k' == (⟨1, 0⟩ : Tagged)) = true ∧ twice.toList.Perm ((k', 10) :: rest) ∧
      (twice.apply (.swap ⟨1, 0⟩ 12)).state.toList.Perm ((⟨1, 0⟩, 12) :: rest) := by
  have hop : (Op.swap ⟨1, 0⟩ 12 : Op Tagged Nat).isSingle = true := rfl
  obtain ⟨⟨gone, new, rest, hacc, hgone, hnew⟩, _⟩ :=
    Instant.Reachable.apply_accounts reachable_twice hop
  obtain ⟨k', hk, rfl, rfl⟩ : ∃ k', (k' == (⟨1, 0⟩ : Tagged)) = true ∧ gone = some (k', 10) ∧
    new = some (⟨1, 0⟩, 12) := hacc
  exact ⟨rfl, k', rest, hk, hgone, hnew⟩

end NibbleTrie
