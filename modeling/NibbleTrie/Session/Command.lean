/-
What a session can be told to do.

A command names a map and an action on it.  Other commands can be nested in an
action at three places: between the arrival of a probe and its first
comparison, in the builder of a value, and in the callback of a sweep.
-/
import NibbleTrie.Thread
import NibbleTrie.Map.Digest

namespace NibbleTrie

/-- What a walk is to show of each entry. -/
inductive Projection where
  /-- The key and the value. -/
  | entry
  /-- The key alone. -/
  | key
  /-- The value alone. -/
  | value
deriving DecidableEq

/-- What a walk shows of an entry. -/
inductive Part (κ : Type u) (ν : Type v) where
  /-- The key and the value. -/
  | entry (key : κ) (value : ν)
  /-- The key alone. -/
  | key (key : κ)
  /-- The value alone. -/
  | value (value : ν)

/-- The part of an entry that is shown. -/
def Projection.part {κ : Type u} {ν : Type v} : Projection → κ × ν → Part κ ν
  | .entry, e => .entry e.1 e.2
  | .key, e => .key e.1
  | .value, e => .value e.2

mutual

/-- A command to a session. -/
inductive Command (κ : Type u) (ν : Type v) where
  /-- An action on the map with the number `map`. -/
  | on (map : Nat) (action : Action κ ν)

/-- What a command does. -/
inductive Action (κ : Type u) (ν : Type v) where
  /-- Runs an operation. -/
  | call (op : Op κ ν)
  /-- Runs a probe with commands between its arrival and its first comparison. -/
  | probe (p : Probe κ ν) (between : List (Command κ ν))
  /-- Answers the value of a key, or inserts one.  The builder of the value runs `prelude`, and
  then gives up with a message or answers a value.  The commands of `between`, if given, run
  between arrival and first comparison. -/
  | build (key : κ) (between : Option (List (Command κ ν))) (prelude : List (Command κ ν))
      (outcome : Except String ν)
  /-- Sweeps the map with a callback that counts its visits.  It fails at the visit `failAt`,
  runs the commands of `during` at the visits they are listed for, and ends the sweep at the
  visit `limit`. -/
  | sweep (limit failAt : Option Nat) (during : List (Nat × List (Command κ ν)))
  /-- Lists the map. -/
  | list (shown : Projection)
  /-- Writes the map as a text, spread over lines or not. -/
  | text (spread : Bool)
  /-- The hash of a key. -/
  | hash (key : κ)
  /-- Begins a walk that is taken step by step. -/
  | walkNew (shown : Projection)
  /-- Takes some steps of a walk. -/
  | walkNext (walk steps : Nat)
  /-- Gives up a walk. -/
  | walkDrop (walk : Nat)
  /-- Runs jobs and counts their answers. -/
  | bulk (jobs : List (Job κ ν))
  /-- Gives an account of the map. -/
  | digest

end

mutual

/-- The answer to a command. -/
inductive Answer (κ : Type u) (ν : Type v) where
  /-- The answer of an operation. -/
  | reply (r : Reply κ ν)
  /-- The value that a map holds now, whether it held it before, and the reports from the
  builder if it was called. -/
  | built (value : ν) (loaded : Bool) (prelude : Option (List (Report κ ν)))
  /-- An answer, and the reports of the commands that ran between arrival and comparison. -/
  | interrupted (answer : Answer κ ν) (between : Option (List (Report κ ν)))
  /-- The visited entries in order, the reports of each group of commands that ran, and the
  limit that was given. -/
  | swept (seen : List (κ × ν)) (during : List (List (Report κ ν))) (limit : Option Nat)
  /-- What a walk of the whole map shows. -/
  | listing (parts : List (Part κ ν))
  /-- A text. -/
  | text (s : String)
  /-- A hash. -/
  | hash (h : UInt64)
  /-- The number of a new walk. -/
  | walk (n : Nat)
  /-- The answers of the steps of a walk. -/
  | steps (parts : List (Option (Part κ ν)))
  /-- Whether a walk was given up. -/
  | dropped (wasAlive : Bool)
  /-- Counted answers. -/
  | tally (t : Tally)
  /-- An account. -/
  | digest (d : Digest)
  /-- Why the command ended early. -/
  | fault (f : Fault)

/-- The report on a command. -/
inductive Report (κ : Type u) (ν : Type v) where
  /-- The answer, the size of the command's map at the end, and the events of the command
  itself, without those of nested ones. -/
  | mk (answer : Answer κ ν) (size : Nat) (events : List Event)

end

end NibbleTrie
