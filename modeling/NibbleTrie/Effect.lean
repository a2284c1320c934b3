/-
Changes of a state.

A change of a state has an answer or ends with a fault, leaves a state behind,
and reports events.  Tries and maps share this shape.
-/
import NibbleTrie.Fault

namespace NibbleTrie

/-- The result of one change: an answer or a fault, the state it leaves, and its events. -/
structure Effect (σ : Type u) (ρ : Type v) where
  /-- The answer, unless the change ended early. -/
  result : Except Fault ρ
  /-- The state that the change leaves behind. -/
  state : σ
  /-- The events of the change, in order. -/
  events : List Event := []

namespace Effect

variable {σ : Type u} {ρ : Type v} {ρ' : Type w}

/-- An answer that leaves the state alone and reports nothing. -/
def pure (s : σ) (r : ρ) : Effect σ ρ := ⟨.ok r, s, []⟩

/-- A fault that leaves the state alone and reports nothing. -/
def fail (s : σ) (f : Fault) : Effect σ ρ := ⟨.error f, s, []⟩

/-- The same change with another answer. -/
def map (g : ρ → ρ') (e : Effect σ ρ) : Effect σ ρ' :=
  ⟨e.result.map g, e.state, e.events⟩

/-- One change after another; a fault skips the second. -/
def andThen (e : Effect σ ρ) (next : σ → ρ → Effect σ ρ') : Effect σ ρ' :=
  match e with
  | ⟨.error f, s, events⟩ => ⟨.error f, s, events⟩
  | ⟨.ok r, s, events⟩ =>
    let e' := next s r
    ⟨e'.result, e'.state, events ++ e'.events⟩

end Effect

end NibbleTrie
