/-
Why an operation can end without an answer.

A fault leaves the map as it was at that moment.  Two of the faults come from
code handed in by the caller; the others say that the trie does not have the
shape an operation relies on, which a lawful key type never brings about.
-/
import NibbleTrie.Event

namespace NibbleTrie

/-- The cause that ended an operation early. -/
inductive Fault where
  /-- A walk from the root used up all groups of the hash and still met a branch. -/
  | routeExhausted
  /-- Two different hashes had no group left on which their entries could part. -/
  | splitExhausted
  /-- A branch stood where only an entry or nothing may stand. -/
  | branchInChain
  /-- A slot could not be taken although nothing had changed since it was found. -/
  | unsettled
  /-- The value builder gave up with a message. -/
  | builder (message : String)
  /-- The callback of a walk gave up. -/
  | callback
  /-- There is no such map or walk. -/
  | missing
deriving DecidableEq

namespace Fault

/-- The text of a fault. -/
def message : Fault → String
  | routeExhausted =>
    "internal error: entered unreachable code: hash trie ran out of hash bits while descending"
  | splitExhausted =>
    "internal error: entered unreachable code: hash trie ran out of hash bits while expanding"
  | branchInChain =>
    "internal error: entered unreachable code: indirect node found where an entry was expected"
  | unsettled => "no slot could be locked"
  | builder message => message
  | callback => "range callback panicked"
  | missing => "no such map or walk"

end Fault

end NibbleTrie
