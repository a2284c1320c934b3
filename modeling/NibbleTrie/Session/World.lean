/-
The state of a session: its maps and its walks.
-/
import NibbleTrie.Session.Command

namespace NibbleTrie

/-- How a map is made: from a hash function, a capacity hint, and first entries. -/
structure Blueprint (κ : Type u) (ν : Type v) where
  /-- The mix that hashes the keys. -/
  mix : Mix := {}
  /-- The number of entries to be ready for. -/
  capacity : Nat := 0
  /-- Entries to insert, in order. -/
  entries : List (κ × ν) := []

/-- Makes a map. -/
def Blueprint.build {κ : Type u} {ν : Type v} [Key κ] (b : Blueprint κ ν) :
    Effect (TrieMap κ ν) Unit :=
  (TrieMap.withCapacity b.mix.hash b.capacity).andThen fun m _ => m.insertMany b.entries

/-- A walk that is taken step by step. -/
structure Walk where
  /-- The number of the walked map. -/
  map : Nat
  /-- The generation of the walked trie. -/
  generation : Nat
  /-- What its steps show. -/
  shown : Projection
  /-- Where it is. -/
  cursor : Cursor

/-- The maps and walks of a session.  A walk that was given up leaves its place empty. -/
structure World (κ : Type u) (ν : Type v) where
  /-- The maps. -/
  maps : Array (TrieMap κ ν)
  /-- The walks. -/
  walks : Array (Option Walk) := #[]

namespace World

variable {κ : Type u} {ν : Type v}

/-- The session whose maps are made from some blueprints, and the size and the events of each
map when it is made. -/
def ofBlueprints [Key κ] (bs : List (Blueprint κ ν)) : World κ ν × List (Nat × List Event) :=
  let made := bs.map Blueprint.build
  ({ maps := (made.map (·.state)).toArray }, made.map fun e => (e.state.size, e.events))

/-- The trie of a generation of a map; no map at all reads as an empty trie. -/
def trieAt (w : World κ ν) (map generation : Nat) : Trie κ ν :=
  match w.maps[map]? with
  | some m => m.trieAt generation
  | none => Trie.empty

/-- The size of a map. -/
def size (w : World κ ν) (map : Nat) : Nat :=
  match w.maps[map]? with
  | some m => m.size
  | none => 0

/-- Changes a map. -/
def update (w : World κ ν) (map : Nat) (change : TrieMap κ ν → Effect (TrieMap κ ν) ρ) :
    Effect (World κ ν) ρ :=
  match w.maps[map]? with
  | none => .fail w .missing
  | some m =>
    let e := change m
    ⟨e.result, { w with maps := w.maps.setIfInBounds map e.state }, e.events⟩

/-- Looks at a map. -/
def look (w : World κ ν) (map : Nat) (f : TrieMap κ ν → ρ) : Effect (World κ ν) ρ :=
  match w.maps[map]? with
  | none => .fail w .missing
  | some m => .pure w (f m)

/-- Begins a walk of a map, and answers its number. -/
def beginWalk (w : World κ ν) (map : Nat) (shown : Projection) : Effect (World κ ν) Nat :=
  match w.maps[map]? with
  | none => .fail w .missing
  | some m =>
    .pure { w with walks := w.walks.push (some ⟨map, m.generation, shown, Cursor.start⟩) }
      w.walks.size

/-- Takes `n` steps of a walk. -/
def stepWalk (w : World κ ν) (walk n : Nat) :
    Effect (World κ ν) (List (Option (Part κ ν))) :=
  match w.walks[walk]? with
  | some (some x) =>
    let (parts, cursor) := x.cursor.stepsPart (w.trieAt x.map x.generation) x.shown.part n
    .pure { w with walks := w.walks.setIfInBounds walk (some { x with cursor }) } parts
  | some none | none => .fail w .missing

/-- Gives up a walk, and answers whether it was still there. -/
def dropWalk (w : World κ ν) (walk : Nat) : World κ ν × Bool :=
  match w.walks[walk]? with
  | some (some _) => ({ w with walks := w.walks.setIfInBounds walk none }, true)
  | some none | none => (w, false)

end World

end NibbleTrie
