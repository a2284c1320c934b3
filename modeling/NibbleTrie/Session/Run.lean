/-
Running commands.

Running is recursion on the command: a nested command is a part of the command
it is nested in.  The state is passed through in the order in which things
happen, so what a nested command does to a map is seen by everything after it.
-/
import NibbleTrie.Session.World
import NibbleTrie.Map.Text

namespace NibbleTrie

variable {κ : Type u} {ν : Type v} [Key κ] [Datum ν]

/-- The report on a command about a map that answered with an effect. -/
def Effect.report (e : Effect (World κ ν) ρ) (map : Nat) (answer : ρ → Answer κ ν) :
    Report κ ν × World κ ν :=
  let answer := match e.result with
    | .ok r => answer r
    | .error f => .fault f
  (⟨answer, e.state.size map, e.events⟩, e.state)

/-- The state of a sweep. -/
structure Sweeping (κ : Type u) (ν : Type v) where
  /-- The session, which the callback may change. -/
  world : World κ ν
  /-- The number of visits so far. -/
  visits : Nat := 0
  /-- The entries visited so far, last one first. -/
  seen : List (κ × ν) := []
  /-- The reports of the commands run so far, last group first. -/
  reports : List (List (Report κ ν)) := []
  /-- True once the callback has failed. -/
  failed : Bool := false

/-- The callback of a sweep, where `during` runs the commands listed for a visit. -/
def Sweeping.callback (limit failAt : Option Nat)
    (during : Nat → World κ ν → List (List (Report κ ν)) × World κ ν)
    (k : κ) (v : ν) (s : Sweeping κ ν) : Bool × Sweeping κ ν :=
  let visits := s.visits + 1
  let seen := (k, v) :: s.seen
  if failAt = some visits then
    (false, { s with visits, seen, failed := true })
  else
    let (reports, world) := during visits s.world
    (limit.all (visits < ·),
      { s with world, visits, seen, reports := reports.reverse ++ s.reports })

namespace World

/-- Sweeps a map.  The sweep stays on the trie that is current when it begins. -/
def sweep (w : World κ ν) (map : Nat) (limit failAt : Option Nat)
    (during : Nat → World κ ν → List (List (Report κ ν)) × World κ ν) :
    Effect (World κ ν) (Answer κ ν) :=
  match w.maps[map]? with
  | none => .fail w .missing
  | some m =>
    let generation := m.generation
    let s := Trie.sweep (fun (s : Sweeping κ ν) => s.world.trieAt map generation)
      (Sweeping.callback limit failAt during) { world := w }
    if s.failed then .fail s.world .callback
    else .pure s.world (.swept s.seen.reverse s.reports.reverse limit)

/-- The arrival of a probe, followed by what comes before its first comparison.  That happens
only if the probe arrived at a chain. -/
def begin (w : World κ ν) (map : Nat) (p : Probe κ ν) (between : World κ ν → ρ × World κ ν) :
    Effect (World κ ν) (Arrival × Option ρ) :=
  match w.maps[map]? with
  | none => .fail w .missing
  | some m =>
    match m.begin p with
    | .error f => .fail w f
    | .ok a =>
      if a.head.isSome then
        let (r, w) := between w
        .pure w (a, some r)
      else .pure w (a, none)

/-- What follows the arrival of a key whose value is built if need be.  The builder runs
`prelude` first, while the slot is held. -/
def build (w : World κ ν) (map : Nat) (a : Arrival) (k : κ)
    (prelude : World κ ν → ρ × World κ ν) (outcome : Except String ν) :
    Effect (World κ ν) (ν × Bool × Option ρ) :=
  match w.maps[map]? with
  | none => .fail w .missing
  | some m =>
    match m.settle a k with
    | .error f => .fail w f
    | .ok (.present v) => .pure w (v, true, none)
    | .ok (.absent held) =>
      let (r, w) := prelude w
      match outcome with
      | .error message => .fail w (.builder message)
      | .ok v => (w.update map fun m => m.insertHeld held k v).map fun _ => (v, false, some r)

end World

mutual

/-- Runs a command. -/
def Command.run : Command κ ν → World κ ν → Report κ ν × World κ ν
  | .on map action => action.run map

/-- Runs an action on a map. -/
def Action.run (map : Nat) : Action κ ν → World κ ν → Report κ ν × World κ ν
  | .call op => fun w => (w.update map (·.apply op)).report map .reply
  | .probe p between => fun w =>
    ((w.begin map p (runAll between)).andThen fun w (a, reports) =>
      (w.update map (·.finish a p)).map fun r => (r, reports)).report map
        fun (r, reports) => .interrupted (.reply r) reports
  | .build k between prelude outcome => fun w =>
    let hook := match between with
      | none => fun w => ([], w)
      | some commands => runAll commands
    ((w.begin map (.getOrBuild k outcome) hook).andThen fun w (a, reports) =>
      (w.build map a k (runAll prelude) outcome).map fun r => (r, reports)).report map
        fun ((v, loaded, steps), reports) =>
          let answer := .built v loaded steps
          if between.isSome then .interrupted answer reports else answer
  | .sweep limit failAt during => fun w =>
    (w.sweep map limit failAt (runDuring during)).report map id
  | .list shown => fun w => (w.look map (·.listOf shown.part)).report map .listing
  | .text spread => fun w =>
    (w.look map fun m =>
      if spread then spreadListingText m.toList else listingText m.toList).report map .text
  | .hash k => fun w => (w.look map (·.hash k)).report map .hash
  | .walkNew shown => fun w => (w.beginWalk map shown).report map .walk
  | .walkNext walk n => fun w => (w.stepWalk walk n).report map .steps
  | .walkDrop walk => fun w =>
    let (w, wasAlive) := w.dropWalk walk
    (Effect.pure w wasAlive).report map .dropped
  | .bulk jobs => fun w =>
    (w.update map fun m => Thread.run m ⟨jobs, []⟩).report map fun t => .tally t.tally
  | .digest => fun w => (w.look map fun m => Digest.ofList m.toList).report map .digest

/-- Runs commands in order. -/
def runAll : List (Command κ ν) → World κ ν → List (Report κ ν) × World κ ν
  | [], w => ([], w)
  | c :: rest, w =>
    let (report, w) := c.run w
    let (reports, w) := runAll rest w
    (report :: reports, w)

/-- Runs the commands that are listed for a visit, group by group. -/
def runDuring : List (Nat × List (Command κ ν)) → Nat → World κ ν →
    List (List (Report κ ν)) × World κ ν
  | [], _, w => ([], w)
  | (n, commands) :: rest, visit, w =>
    if n = visit then
      let (reports, w) := runAll commands w
      let (groups, w) := runDuring rest visit w
      (reports :: groups, w)
    else runDuring rest visit w

end

end NibbleTrie
