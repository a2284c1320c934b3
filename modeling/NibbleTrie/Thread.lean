/-
Threads, alone and in company.

A thread has a list of jobs and works through it one map operation at a time.
An increment takes two operations, a load and a compare-and-swap, and begins
again when another thread was faster.  A crew is several threads on one map; a
schedule says whose turn it is.  A tally counts answers: it holds the number
of hits and the sum of the values that came back.
-/
import NibbleTrie.Map.Operation
import NibbleTrie.Value

namespace NibbleTrie

/-- Counted answers. -/
structure Tally where
  /-- Answers that report success. -/
  hits : Nat := 0
  /-- The sum of the returned values. -/
  sum : Int64 := 0

namespace Tally

/-- One more answer. -/
def score (t : Tally) (hit : Bool) (amount : Int64) : Tally :=
  ⟨if hit then t.hits + 1 else t.hits, t.sum + amount⟩

/-- Counts the answer of an operation. -/
def count {κ : Type u} {ν : Type v} [Datum ν] (t : Tally) : Reply κ ν → Tally
  | .done | .count _ => t
  | .flag b => t.score b 0
  | .value? none => t
  | .value? (some v) => t.score true (Datum.toInt v)
  | .kept v loaded => t.score loaded (Datum.toInt v)
  | .inserted (.ok ()) => t.score true 0
  | .inserted (.error o) => t.score false (Datum.toInt o.existing)

end Tally

/-- A piece of a thread's work. -/
inductive Job (κ : Type u) (ν : Type v) where
  /-- One operation. -/
  | call (op : Op κ ν)
  /-- Adds to the counter of a key, if there is one. -/
  | increment (key : κ) (amount : Int64)
  /-- An increment that has loaded the counter and is about to store the sum. -/
  | commit (key : κ) (amount : Int64) (seen : ν)

namespace Job

variable {κ : Type u} {ν : Type v} [BEq κ] [Datum ν]

/-- Runs one map operation of a job: what is left of the job, or its answer. -/
def step (m : TrieMap κ ν) : Job κ ν → Effect (TrieMap κ ν) (Job κ ν ⊕ Reply κ ν)
  | call op => (m.apply op).map .inr
  | increment k amount =>
    (m.apply (.probe (.get? k))).map fun
      | .value? (some c) => .inl (commit k amount c)
      | _ => .inr (.flag false)
  | commit k amount seen =>
    (m.apply (.probe (.compareAndSwap k seen
      (Datum.ofInt (Datum.toInt seen + amount))))).map fun
      | .flag true => .inr (.flag true)
      | _ => .inl (increment k amount)

end Job

/-- A thread: the work in front of it and the answers behind it. -/
structure Thread (κ : Type u) (ν : Type v) where
  /-- The jobs still to be done. -/
  jobs : List (Job κ ν)
  /-- The answers of the jobs that are done, last one first. -/
  replies : List (Reply κ ν) := []

namespace Thread

variable {κ : Type u} {ν : Type v} [BEq κ] [Datum ν]

/-- Runs the next map operation of a thread. -/
def step (m : TrieMap κ ν) (t : Thread κ ν) : Effect (TrieMap κ ν) (Thread κ ν) :=
  match t.jobs with
  | [] => .pure m t
  | job :: jobs =>
    (job.step m).map fun
      | .inl job => ⟨job :: jobs, t.replies⟩
      | .inr reply => ⟨jobs, reply :: t.replies⟩

/-- The tally of the answers so far. -/
def tally (t : Thread κ ν) : Tally := t.replies.foldl Tally.count {}

/-- Operations that a thread needs when nobody is in its way. -/
def steps (t : Thread κ ν) : Nat := 2 * t.jobs.length

/-- Runs `n` operations of a thread. -/
def runFor (n : Nat) (m : TrieMap κ ν) (t : Thread κ ν) :
    Effect (TrieMap κ ν) (Thread κ ν) :=
  match n with
  | 0 => .pure m t
  | n + 1 =>
    match t.jobs with
    | [] => .pure m t
    | _ :: _ => (t.step m).andThen fun m t => runFor n m t

/-- Runs a thread alone to its end. -/
def run (m : TrieMap κ ν) (t : Thread κ ν) : Effect (TrieMap κ ν) (Thread κ ν) :=
  runFor t.steps m t

end Thread

/-- Threads on one map. -/
structure Crew (κ : Type u) (ν : Type v) where
  /-- The map that they share. -/
  map : TrieMap κ ν
  /-- The threads. -/
  threads : List (Thread κ ν)

namespace Crew

variable {κ : Type u} {ν : Type v} [BEq κ] [Datum ν]

/-- Lets one thread run one operation; a thread that meets a fault gives up. -/
def step (c : Crew κ ν) (i : Nat) : Crew κ ν :=
  match c with
  | ⟨map, threads⟩ =>
    match threads[i]? with
    | none => ⟨map, threads⟩
    | some t =>
      match t.step map with
      | ⟨.ok t', map, _⟩ => ⟨map, threads.set i t'⟩
      | ⟨.error _, map, _⟩ => ⟨map, threads.set i ⟨[], t.replies⟩⟩

/-- Lets the threads run in the order of a schedule. -/
def run (c : Crew κ ν) (schedule : List Nat) : Crew κ ν := schedule.foldl step c

/-- True once no thread has work left. -/
def isFinished (c : Crew κ ν) : Bool := c.threads.all fun t => t.jobs.isEmpty

/-- The schedule in which each thread runs to its end before the next one begins. -/
def oneByOne (c : Crew κ ν) : List Nat :=
  c.threads.zipIdx.flatMap fun (t, i) => List.replicate t.steps i

/-- The hits of all threads. -/
def hits (c : Crew κ ν) : Nat := c.threads.foldl (fun n t => n + t.tally.hits) 0

end Crew

end NibbleTrie
