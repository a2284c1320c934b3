/-
What a map reports about the shape of its trie.

Every change of shape is an event: branches built before the first insert, a
whole trie given up, an entry hung in front of a chain of its own hash, a slot
that was split into branches, a branch that was dropped.  The wording of an
event is decided here and nowhere else.
-/
import NibbleTrie.Nibble

namespace NibbleTrie

/-- A reported change of shape. -/
inductive Event where
  /-- `levels` levels of branches were built for the hint `capacity`. -/
  | prebuilt (levels capacity : Nat)
  /-- The whole trie was given up for an empty one. -/
  | cleared
  /-- A new entry became the head of a chain of its hash in a slot at `level`. -/
  | chained (level : Nat)
  /-- A slot got `levels` nested branches; the hashes part at `level`. -/
  | split (levels level : Nat)
  /-- An empty branch was dropped from a slot at `level`. -/
  | dropped (level : Nat)
deriving DecidableEq

/-- How important an event is. -/
inductive Severity where
  | debug
  | trace
deriving DecidableEq

/-- The word that stands in front of a message. -/
def Severity.word : Severity → String
  | debug => "DEBUG"
  | trace => "TRACE"

namespace Event

/-- Events about a whole trie are rarer, and reported louder, than events about a slot. -/
def severity : Event → Severity
  | prebuilt .. | cleared => .debug
  | chained .. | split .. | dropped .. => .trace

/-- The text of an event; a level is told by the number of hash bits below it. -/
def message : Event → String
  | prebuilt levels capacity =>
    s!"pre-building {levels} trie level(s) for capacity {capacity}"
  | cleared => "cleared hash trie map"
  | chained level => s!"full hash collision at shift {shiftOf level}, chaining entry"
  | split levels level =>
    s!"expanded slot into {levels} indirect level(s), split at shift {shiftOf level}"
  | dropped level => s!"pruned empty indirect node at shift {shiftOf level}"

/-- The log line of an event. -/
def line (e : Event) : String := e.severity.word ++ " " ++ e.message

/-- One more occurrence of `e` in a list of counted events. -/
def bump (e : Event) : List (Event × Nat) → List (Event × Nat)
  | [] => [(e, 1)]
  | (x, n) :: rest => if x = e then (x, n + 1) :: rest else (x, n) :: bump e rest

/-- Each event of a list with the number of its occurrences, in order of first occurrence. -/
def counts (events : List Event) : List (Event × Nat) :=
  events.foldl (fun acc e => bump e acc) []

end Event

end NibbleTrie
