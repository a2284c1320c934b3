/-
Texts about maps: the listing of a map, and why an insert was refused.
-/
import NibbleTrie.Map.Operation
import NibbleTrie.Key
import NibbleTrie.Value

namespace NibbleTrie

variable {κ : Type u} {ν : Type v} [Key κ] [Datum ν]

/-- Entries on one line between braces. -/
def listingText (entries : List (κ × ν)) : String :=
  "\x7b" ++ String.intercalate ", " (entries.map fun (k, v) => Key.render k ++ ": " ++ Datum.render v)
    ++ "\x7d"

/-- Entries between braces, each on lines of its own. -/
def spreadListingText : List (κ × ν) → String
  | [] => "\x7b\x7d"
  | entries =>
    "\x7b\n" ++ String.join (entries.map fun (k, v) =>
      String.ofList (List.replicate Value.indent ' ') ++ Key.render k ++ ": " ++
        Datum.renderSpread Value.indent v ++ ",\n") ++ "\x7d"

namespace Occupied

/-- The refusal as a sentence. -/
def message (o : Occupied κ ν) : String :=
  "key " ++ Key.render o.key ++ " already holds " ++ Datum.render o.existing ++
    ", rejected " ++ Datum.render o.value

/-- The refusal as a record. -/
def recordText (o : Occupied κ ν) : String :=
  "OccupiedError \x7b key: " ++ Key.render o.key ++ ", value: " ++ Datum.render o.value ++
    ", existing: " ++ Datum.render o.existing ++ " \x7d"

end Occupied

end NibbleTrie
