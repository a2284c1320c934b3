/-
Operations on a map.

Some operations hold their slot at once: `insert`, `swap`, `insertNew`.  The
others are probes.  A probe first looks for its key with no hold on the slot,
and other operations can run between its arrival at the head of a chain and
its first comparison with that head.  So a probe is given in two parts: the
arrival, and what follows it on the map as it is then.
-/
import NibbleTrie.Map.Basic

namespace NibbleTrie

/-- Why `insertNew` refused: the key is present.  Everything handed in is handed back. -/
structure Occupied (κ : Type u) (ν : Type v) where
  /-- The key that was not inserted. -/
  key : κ
  /-- The value that was not inserted. -/
  value : ν
  /-- The value that the map holds for the key. -/
  existing : ν

/-- What a held slot holds for a key that may have to be inserted. -/
inductive Settled (ν : Type v) where
  /-- The key is present. -/
  | present (value : ν)
  /-- The key is absent, and the slot is held for it. -/
  | absent (held : Held)

/-- Operations that begin with a search without a hold on the slot. -/
inductive Probe (κ : Type u) (ν : Type v) where
  /-- The value of a key. -/
  | get? (key : κ)
  /-- Whether a key is present. -/
  | contains (key : κ)
  /-- The value of a key, which is inserted with `value` if absent. -/
  | getOrInsert (key : κ) (value : ν)
  /-- The value of a key, which is inserted if absent with a value that is only then built;
  the builder may give up with a message. -/
  | getOrBuild (key : κ) (build : Except String ν)
  /-- Removes a key and answers its value. -/
  | pop? (key : κ)
  /-- Removes a key. -/
  | erase (key : κ)
  /-- Replaces the value of a key if it equals `old`. -/
  | compareAndSwap (key : κ) (old new : ν)
  /-- Removes a key if its value equals `old`. -/
  | compareAndErase (key : κ) (old : ν)

/-- Operations. -/
inductive Op (κ : Type u) (ν : Type v) where
  /-- An operation that begins with a search. -/
  | probe (p : Probe κ ν)
  /-- Sets the value of a key. -/
  | insert (key : κ) (value : ν)
  /-- Sets the value of a key and answers the previous one. -/
  | swap (key : κ) (value : ν)
  /-- Inserts a key unless it is present. -/
  | insertNew (key : κ) (value : ν)
  /-- Inserts entries in order. -/
  | insertMany (entries : List (κ × ν))
  /-- Removes every entry. -/
  | clear
  /-- The number of entries. -/
  | size
  /-- Whether there are no entries. -/
  | isEmpty

/-- Answers of operations. -/
inductive Reply (κ : Type u) (ν : Type v) where
  /-- The operation has nothing to say. -/
  | done
  /-- A value, if there is one. -/
  | value? (value : Option ν)
  /-- Yes or no. -/
  | flag (value : Bool)
  /-- A number. -/
  | count (n : Nat)
  /-- The value that the map holds now, and whether it held it before. -/
  | kept (value : ν) (loaded : Bool)
  /-- Whether a key was inserted. -/
  | inserted (result : Except (Occupied κ ν) Unit)

/-- The key of a probe. -/
def Probe.key {κ : Type u} {ν : Type v} : Probe κ ν → κ
  | get? k | contains k | getOrInsert k _ | getOrBuild k _ | pop? k | erase k
  | compareAndSwap k _ _ | compareAndErase k _ => k

namespace TrieMap

variable {κ : Type u} {ν : Type v} [BEq κ]

/-- Accepts every value. -/
def anyValue (_ : ν) : Bool := true

/-! ## Parts of operations -/

/-- The value that a search from the head of an arrival finds. -/
def peek (m : TrieMap κ ν) (a : Arrival) (k : κ) : Option ν :=
  a.head.bind fun head =>
    ((m.trieAt a.generation).search head k anyValue).map fun (_, x) => x.value

/-- Finds out whether a key is present: first from the head of an arrival, and else in the slot
at which the key now arrives, which is then held. -/
def settle (m : TrieMap κ ν) (a : Arrival) (k : κ) : Except Fault (Settled ν) :=
  match m.peek a k with
  | some v => .ok (.present v)
  | none =>
    match m.holdSlot (m.hash k) with
    | .error f => .error f
    | .ok held =>
      match (m.trieAt held.generation).locate held.site k anyValue with
      | .error f => .error f
      | .ok (some x) => .ok (.present x.entry.value)
      | .ok none => .ok (.absent held)

omit [BEq κ] in
/-- Inserts a key into a slot that is held for it. -/
def insertHeld (m : TrieMap κ ν) (held : Held) (k : κ) (v : ν) : Effect (TrieMap κ ν) Unit :=
  let hash := m.hash
  m.update held.generation fun t => t.insertAt hash held.site (hash k) k v

/-- How often a probe begins again: once, since a slot that nothing disturbed between arrival
and hold can be held. -/
def probeRetries : Nat := 1

/-- Removes the first entry for `k` with an accepted value, and answers its value. -/
def eraseWhere (m : TrieMap κ ν) (a : Arrival) (k : κ) (accept : ν → Bool) :
    Effect (TrieMap κ ν) (Option ν) :=
  match m.holdMatching k accept probeRetries a with
  | .error f => .fail m f
  | .ok none => .pure m none
  | .ok (some held) =>
    let h := m.hash k
    m.update held.generation fun t =>
      match t.locate held.site k accept with
      | .error f => .fail t f
      | .ok none => .pure t none
      | .ok (some x) =>
        let (t, events) := t.removeAt held.site h x
        ⟨.ok (some x.entry.value), t, events⟩

/-- Replaces the first entry for `k` with an accepted value by one with the same key. -/
def replaceWhere (m : TrieMap κ ν) (a : Arrival) (k : κ) (accept : ν → Bool) (new : ν) :
    Effect (TrieMap κ ν) Bool :=
  match m.holdMatching k accept probeRetries a with
  | .error f => .fail m f
  | .ok none => .pure m false
  | .ok (some held) =>
    m.update held.generation fun t =>
      match t.locate held.site k accept with
      | .error f => .fail t f
      | .ok none => .pure t false
      | .ok (some x) => .pure (t.replace x x.entry.key new) true

/-! ## Operations that hold their slot at once -/

/-- Sets the value of a key, and answers the previous value. -/
def swap (m : TrieMap κ ν) (k : κ) (v : ν) : Effect (TrieMap κ ν) (Option ν) :=
  match m.holdSlot (m.hash k) with
  | .error f => .fail m f
  | .ok held =>
    let hash := m.hash
    m.update held.generation fun t =>
      match t.locate held.site k anyValue with
      | .error f => .fail t f
      | .ok (some x) => .pure (t.replace x k v) (some x.entry.value)
      | .ok none => (t.insertAt hash held.site (hash k) k v).map fun _ => none

/-- Sets the value of a key. -/
def insert (m : TrieMap κ ν) (k : κ) (v : ν) : Effect (TrieMap κ ν) Unit :=
  (m.swap k v).map fun _ => ()

/-- Inserts a key unless it is present. -/
def insertNew (m : TrieMap κ ν) (k : κ) (v : ν) :
    Effect (TrieMap κ ν) (Except (Occupied κ ν) Unit) :=
  match m.holdSlot (m.hash k) with
  | .error f => .fail m f
  | .ok held =>
    let hash := m.hash
    m.update held.generation fun t =>
      match t.locate held.site k anyValue with
      | .error f => .fail t f
      | .ok (some x) => .pure t (.error ⟨k, v, x.entry.value⟩)
      | .ok none => (t.insertAt hash held.site (hash k) k v).map fun _ => .ok ()

/-- Inserts entries in order; a fault ends it. -/
def insertMany (m : TrieMap κ ν) : List (κ × ν) → Effect (TrieMap κ ν) Unit
  | [] => .pure m ()
  | (k, v) :: rest => (m.insert k v).andThen fun m _ => m.insertMany rest

/-! ## Probes -/

/-- The arrival of a probe. -/
def begin (m : TrieMap κ ν) (p : Probe κ ν) : Except Fault Arrival :=
  m.arrive (m.hash p.key)

variable [BEq ν]

/-- What a probe does after its arrival, on the map as it is then. -/
def finish (m : TrieMap κ ν) (a : Arrival) : Probe κ ν → Effect (TrieMap κ ν) (Reply κ ν)
  | .get? k => .pure m (.value? (m.peek a k))
  | .contains k => .pure m (.flag (m.peek a k).isSome)
  | .getOrInsert k v => insertOrKeep k (.ok v)
  | .getOrBuild k build => insertOrKeep k build
  | .pop? k => (m.eraseWhere a k anyValue).map .value?
  | .erase k => (m.eraseWhere a k anyValue).map fun v => .flag v.isSome
  | .compareAndSwap k old new => (m.replaceWhere a k (· == old) new).map .flag
  | .compareAndErase k old => (m.eraseWhere a k (· == old)).map fun v => .flag v.isSome
where
  /-- Keeps the value of a present key, and inserts an absent one if its value can be built. -/
  insertOrKeep (k : κ) (build : Except String ν) : Effect (TrieMap κ ν) (Reply κ ν) :=
    match m.settle a k with
    | .error f => .fail m f
    | .ok (.present v) => .pure m (.kept v true)
    | .ok (.absent held) =>
      match build with
      | .error message => .fail m (.builder message)
      | .ok v => (m.insertHeld held k v).map fun _ => .kept v false

/-- A probe with other changes of the map between its arrival and its first comparison.  They
happen only if it arrived at a chain; otherwise there is nothing to compare with. -/
def interrupted (m : TrieMap κ ν) (p : Probe κ ν) (between : TrieMap κ ν → TrieMap κ ν) :
    Effect (TrieMap κ ν) (Reply κ ν) :=
  match m.begin p with
  | .error f => .fail m f
  | .ok a => (if a.head.isSome then between m else m).finish a p

/-- Runs an operation that nothing interrupts. -/
def apply (m : TrieMap κ ν) : Op κ ν → Effect (TrieMap κ ν) (Reply κ ν)
  | .probe p => m.interrupted p id
  | .insert k v => (m.insert k v).map fun _ => .done
  | .swap k v => (m.swap k v).map .value?
  | .insertNew k v => (m.insertNew k v).map .inserted
  | .insertMany entries => (m.insertMany entries).map fun _ => .done
  | .clear => m.clear.map fun _ => .done
  | .size => .pure m (.count m.size)
  | .isEmpty => .pure m (.flag m.isEmpty)

end TrieMap

end NibbleTrie
