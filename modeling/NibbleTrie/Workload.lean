/-
Regular work: runs of like jobs on keys and values at even distances.
-/
import NibbleTrie.Thread

namespace NibbleTrie

/-- The kind of a regular job. -/
inductive Task where
  | get?
  | contains
  | insert
  | swap
  | getOrInsert
  | insertNew
  | pop?
  | erase
  | compareAndSwap
  | compareAndErase
  | increment

/-- A run of like jobs whose keys and values are arithmetic progressions. -/
structure Workload where
  task : Task
  /-- The number of jobs. -/
  runs : Nat
  /-- The key of the first job. -/
  firstKey : UInt64 := 0
  /-- From one key to the next. -/
  keyStep : UInt64 := 1
  /-- The value of the first job. -/
  firstValue : Int64 := 0
  /-- From one value to the next. -/
  valueStep : Int64 := 0
  /-- What a compare-and-swap or an increment adds. -/
  amount : Int64 := 0

namespace Workload

variable {ν : Type v} [Datum ν]

/-- The key of job `i`. -/
def key (w : Workload) (i : Nat) : UInt64 := w.firstKey + w.keyStep * UInt64.ofNat i

/-- The value of job `i`. -/
def value (w : Workload) (i : Nat) : Int64 := w.firstValue + w.valueStep * Int64.ofNat i

/-- A job of a task. -/
def job (task : Task) (k : UInt64) (x amount : Int64) : Job UInt64 ν :=
  match task with
  | .get? => .call (.probe (.get? k))
  | .contains => .call (.probe (.contains k))
  | .insert => .call (.insert k (Datum.ofInt x))
  | .swap => .call (.swap k (Datum.ofInt x))
  | .getOrInsert => .call (.probe (.getOrInsert k (Datum.ofInt x)))
  | .insertNew => .call (.insertNew k (Datum.ofInt x))
  | .pop? => .call (.probe (.pop? k))
  | .erase => .call (.probe (.erase k))
  | .compareAndSwap =>
    .call (.probe (.compareAndSwap k (Datum.ofInt x) (Datum.ofInt (x + amount))))
  | .compareAndErase => .call (.probe (.compareAndErase k (Datum.ofInt x)))
  | .increment => .increment k amount

/-- The jobs of a workload. -/
def jobs (w : Workload) : List (Job UInt64 ν) :=
  (List.range w.runs).map fun i => job w.task (w.key i) (w.value i) w.amount

end Workload

end NibbleTrie
