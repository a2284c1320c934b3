/-
Walking a trie with a callback.

A sweep goes through the slots of a branch in order and down into branches as
it meets them.  The callback may change the trie under the sweep, so the trie
is read anew from the callback's state at every step: a slot when the sweep
comes to it, the link of an entry after the callback has returned.  The sweep
ends as soon as the callback says so.
-/
import NibbleTrie.Trie.Basic

namespace NibbleTrie

namespace Trie

variable {κ : Type u} {ν : Type v} {σ : Type w}

/-- Shows the entries from `cur` on to the callback.  The answer is false if it ended the
sweep. -/
def sweepChain (view : σ → Trie κ ν) (f : κ → ν → σ → Bool × σ) :
    (fuel : Nat) → (cur : Option EntryId) → σ → Bool × σ
  | 0, _, s | _, none, s => (true, s)
  | fuel + 1, some e, s =>
    match (view s).entries[e]? with
    | none => (true, s)
    | some x =>
      match f x.key x.value s with
      | (false, s) => (false, s)
      | (true, s) => sweepChain view f fuel ((view s).next? e) s

/-- Sweeps the given slots of a branch; `down` sweeps a branch one level below. -/
def sweepSlots (view : σ → Trie κ ν) (f : κ → ν → σ → Bool × σ) (down : BranchId → σ → Bool × σ)
    (b : BranchId) : List Nibble → σ → Bool × σ
  | [], s => (true, s)
  | i :: rest, s =>
    let swept := match (view s).slot b i with
      | .empty => (true, s)
      | .chain head => sweepChain view f ((view s).chainBound head) (some head) s
      | .branch child => down child s
    match swept with
    | (false, s) => (false, s)
    | (true, s) => sweepSlots view f down b rest s

/-- Sweeps everything below a branch that has at most `levels` levels. -/
def sweepBranch (view : σ → Trie κ ν) (f : κ → ν → σ → Bool × σ) :
    (levels : Nat) → BranchId → σ → Bool × σ
  | 0, _, s => (true, s)
  | levels + 1, b, s => sweepSlots view f (sweepBranch view f levels) b allNibbles s

/-- Shows every entry of the trie in `view` to the callback, until it answers false. -/
def sweep (view : σ → Trie κ ν) (f : κ → ν → σ → Bool × σ) (s : σ) : σ :=
  (sweepBranch view f hashGroups root s).2

end Trie

end NibbleTrie
