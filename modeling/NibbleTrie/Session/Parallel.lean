/-
Threads on one map, with work before and after them.

The threads are let run one after another.  For work on separate keys, and
increments of shared counters, every other schedule gives the same account.
-/
import NibbleTrie.Session.World

namespace NibbleTrie

/-- Work for several threads on one map. -/
structure Parallel (κ : Type u) (ν : Type v) where
  /-- How the map is made. -/
  blueprint : Blueprint κ ν
  /-- Jobs of one thread before all others. -/
  before : List (Job κ ν)
  /-- The jobs of each thread. -/
  threads : List (List (Job κ ν))
  /-- Jobs of one thread after all others. -/
  after : List (Job κ ν)

/-- What is told of threads on one map. -/
structure Parallel.Account where
  /-- Hits before the threads. -/
  before : Nat
  /-- Hits of all threads. -/
  threads : Nat
  /-- Hits after the threads. -/
  after : Nat
  /-- The size of the map at the end. -/
  size : Nat
  /-- The account of its entries. -/
  digest : Digest

/-- The hits of a thread; one that met a fault has none. -/
def Effect.hits {σ : Type w} {κ : Type u} {ν : Type v} [Datum ν] (e : Effect σ (Thread κ ν)) : Nat :=
  match e.result with
  | .ok t => t.tally.hits
  | .error _ => 0

/-- Runs the work and gives an account of it. -/
def Parallel.run {κ : Type u} {ν : Type v} [Key κ] [Datum ν] (p : Parallel κ ν) :
    Parallel.Account :=
  let before := Thread.run p.blueprint.build.state ⟨p.before, []⟩
  let crew : Crew κ ν := ⟨before.state, p.threads.map fun jobs => ⟨jobs, []⟩⟩
  let crew := crew.run crew.oneByOne
  let after := Thread.run crew.map ⟨p.after, []⟩
  { before := before.hits
    threads := crew.hits
    after := after.hits
    size := after.state.size
    digest := Digest.ofList after.state.toList }

end NibbleTrie
