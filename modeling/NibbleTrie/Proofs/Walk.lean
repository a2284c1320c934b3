/-
How cursors and sweeps walk.

A cursor and a sweep move along a trail in the same way; what differs is who
holds the place in between.  Here the place of a walk is followed apart from what
it has shown: `Quiet` is a step that shows nothing, and an entry is shown between
two places, one before and one behind it.  Nothing is asked of hashes or keys.

Main statements: a step of a cursor leads quietly to the entry it yields, or to
the end (`Cursor.next_cases`); what is carried along by quiet steps and by the
callback is carried along by a whole sweep (`Carries.sweep`).
-/
import NibbleTrie.Proofs.Trail

namespace NibbleTrie

variable {κ : Type u} {ν : Type v}

/-- Where a walk is. -/
structure Place where
  /-- The branches of the walk, innermost first. -/
  spots : List Spot
  stand : Stand

/-- One step of a walk that shows nothing. -/
def Quiet (t : Trie κ ν) (p q : Place) : Prop :=
  ∀ shown, Trail.Step t ⟨p.spots, p.stand, shown⟩ ⟨q.spots, q.stand, shown⟩

/-- A quiet step, as a step of a trail: its kind can be told by cases. -/
theorem Quiet.exists_step {t : Trie κ ν} {spots spots' : List Spot} {stand stand' : Stand}
    (h : Quiet t ⟨spots, stand⟩ ⟨spots', stand'⟩) : ∃ shown shown', shown = shown' ∧
      Trail.Step t ⟨spots, stand, shown⟩ ⟨spots', stand', shown'⟩ :=
  ⟨[], [], rfl, h []⟩

/-! ## Cursors -/

section Cursor
variable {t : Trie κ ν} {path : BranchId → List Nibble}

/-- What a search for the next chain finds is where quiet steps lead: to a chain, with the stack
to go on with, or to the branches `below`. -/
def Finds (t : Trie κ ν) (spots below : List Spot) : Option (EntryId × List Frame) → Prop
  | none => Relation.ReflTransGen (Quiet t) ⟨spots, .between⟩ ⟨below, .between⟩
  | some (e, stack) => ∃ spots', stack = spots'.map Spot.toFrame ∧
      Relation.ReflTransGen (Quiet t) ⟨spots, .between⟩ ⟨spots', .before e⟩

theorem Finds.head {spots spots' below : List Spot} {r : Option (EntryId × List Frame)}
    (h : Quiet t ⟨spots, .between⟩ ⟨spots', .between⟩) (hr : Finds t spots' below r) :
    Finds t spots below r := by
  cases r with
  | none => exact Relation.ReflTransGen.head h hr
  | some found =>
    obtain ⟨spots'', hstack, hsteps⟩ := hr
    exact ⟨spots'', hstack, .head h hsteps⟩

/-- A search that finds nothing at first goes on from where it leads. -/
theorem Finds.trans {spots spots' below : List Spot} {r : Option (EntryId × List Frame)}
    (h : Finds t spots spots' none) (hr : Finds t spots' below r) : Finds t spots below r := by
  cases r with
  | none => exact Relation.ReflTransGen.trans h hr
  | some found =>
    obtain ⟨spots'', hstack, hsteps⟩ := hr
    exact ⟨spots'', hstack, Relation.ReflTransGen.trans h hsteps⟩

theorem seekSlots_finds {levels : Nat} {b : BranchId} {p : List Nibble} {below : List Spot}
    (down : ∀ {i c} rest, t.slot b i = .branch c →
      Finds t (⟨⟨c, allNibbles⟩, p ++ [i]⟩ :: ⟨⟨b, rest⟩, p⟩ :: below) (⟨⟨b, rest⟩, p⟩ :: below)
        (Cursor.seekBranch t levels c (⟨b, rest⟩ :: below.map Spot.toFrame))) :
    ∀ rest, Finds t (⟨⟨b, rest⟩, p⟩ :: below) below
      (Cursor.seekSlots t (Cursor.seekBranch t levels) b (below.map Spot.toFrame) rest)
  | [] => .single fun _ => .leave
  | i :: rest => by
    have ih := seekSlots_finds down rest
    rw [Cursor.seekSlots]
    cases hs : t.slot b i with
    | empty => exact ih.head fun _ => .skip hs
    | chain e => exact ⟨_, rfl, .single fun _ => .take hs⟩
    | branch c =>
      have hc := (down rest hs).head fun _ => .enter hs
      simp only
      cases hfound : Cursor.seekBranch t levels c (⟨b, rest⟩ :: below.map Spot.toFrame) with
      | none =>
        rw [hfound] at hc
        exact hc.trans ih
      | some found =>
        rw [hfound] at hc
        obtain ⟨spots, hstack, hsteps⟩ := hc
        exact ⟨spots, hstack, hsteps⟩

theorem seekBranch_finds (L : Trie.Layout path t) : ∀ {levels : Nat} {b : BranchId}
    {p : List Nibble} {below : List Spot}, t.isDead b = false → path b = p →
      p.length + levels = 16 → Finds t (⟨⟨b, allNibbles⟩, p⟩ :: below) below
        (Cursor.seekBranch t levels b (below.map Spot.toFrame))
  | 0, _, _, _, hb, rfl, hlen => absurd (L.depth hb) (by omega)
  | levels + 1, b, _, below, hb, rfl, hlen => by
    refine seekSlots_finds (fun rest hs => ?_) allNibbles
    refine seekBranch_finds L (L.child_live hs) (L.child_path hs) ?_
    rw [List.length_append, List.length_singleton]
    omega

/-- The search through a stack takes quiet steps. -/
theorem seek_finds (L : Trie.Layout path t) {spots : List Spot} (hs : Stacked t spots) :
    Finds t spots [] (Cursor.seek t (spots.map Spot.toFrame)) := by
  induction hs with
  | nil => exact .refl
  | @cons s below hlen hstays _ _ _ ih =>
    have hslots : Finds t (s :: below) below (Cursor.seekSlots t
        (Cursor.seekBranch t (hashGroups - 1 - below.length)) s.branch (below.map Spot.toFrame)
        s.rest) := by
      refine seekSlots_finds (fun {i c} rest hslot => ?_) s.rest
      have hlive := L.live_of_slot (i := i) (by rw [hslot]; simp)
      have hpath := hstays.path_eq L hlive
      have hdepth := L.depth hlive
      refine seekBranch_finds L (L.child_live hslot) (hpath ▸ L.child_path hslot) ?_
      rw [List.length_append, List.length_singleton, hashGroups]
      rw [hpath] at hdepth
      omega
    rw [List.map_cons, Cursor.seek, List.length_map]
    cases hfound : Cursor.seekSlots t (Cursor.seekBranch t (hashGroups - 1 - below.length))
        s.branch (below.map Spot.toFrame) s.rest with
    | none =>
      rw [hfound] at hslots
      exact hslots.trans ih
    | some found =>
      rw [hfound] at hslots
      exact hslots

namespace Cursor

/-- A cursor stands where a trail says. -/
def Matches (c : Cursor) (spots : List Spot) (stand : Stand) : Prop :=
  c.stack = spots.map Spot.toFrame ∧ stand = .ofLink c.pending

/-- The entry that the next step of a cursor yields. -/
def upcoming (t : Trie κ ν) (c : Cursor) : Option EntryId :=
  c.pending.or ((seek t c.stack).map (·.1))

/-- A cursor at its end stays there. -/
theorem next_end (t : Trie κ ν) : (⟨[], none⟩ : Cursor).next t = (none, ⟨[], none⟩) := rfl

/-- A step of a cursor leads quietly to an entry, which it yields, or to its end. -/
theorem next_cases (L : Trie.Layout path t) {c : Cursor} {spots : List Spot} {stand : Stand}
    (hc : c.Matches spots stand) (hs : Stacked t spots) (hin : stand.InTable t) :
    (∃ e x spots', c.upcoming t = some e ∧ t.entries[e]? = some x ∧
      Relation.ReflTransGen (Quiet t) ⟨spots, stand⟩ ⟨spots', .before e⟩ ∧
      c.next t = (some (x.key, x.value), ⟨spots'.map Spot.toFrame, x.next⟩)) ∨
    (c.upcoming t = none ∧ Relation.ReflTransGen (Quiet t) ⟨spots, stand⟩ ⟨[], .between⟩ ∧
      c.next t = (none, ⟨[], none⟩)) := by
  obtain ⟨stack, pending⟩ := c
  obtain ⟨hstack, hstand⟩ := hc
  obtain rfl : stack = spots.map Spot.toFrame := hstack
  obtain rfl : stand = .ofLink pending := hstand
  cases pending with
  | some e =>
    obtain ⟨x, hx⟩ := Trie.entry_of_lt (show e < t.entries.size from hin)
    exact .inl ⟨e, x, spots, rfl, hx, .refl, by simp only [next, yieldEntry, hx]⟩
  | none =>
    have hfinds := seek_finds L hs
    rw [next, upcoming]
    cases hfound : seek t (spots.map Spot.toFrame) with
    | none =>
      rw [hfound] at hfinds
      exact .inr ⟨rfl, hfinds, rfl⟩
    | some found =>
      obtain ⟨e, stack⟩ := found
      have hsought := seek_sought L (spots.map Spot.toFrame)
      rw [hfound] at hfinds hsought
      obtain ⟨spots', rfl, hsteps⟩ := hfinds
      obtain ⟨x, hx⟩ := Trie.entry_of_lt hsought.1
      exact .inl ⟨e, x, spots', rfl, hx, hsteps, by simp only [yieldEntry, hx]⟩

/-- The upcoming entry is the first of those a cursor has in front of it. -/
theorem upcoming_of_todo (L : Trie.Layout path t) {c : Cursor} (hc : c.InTable t) {e : EntryId}
    {rest : List EntryId} (htodo : c.todo t = e :: rest) : c.upcoming t = some e := by
  obtain ⟨stack, pending⟩ := c
  have first : ∀ {a : EntryId} {l : List EntryId}, a < t.entries.size →
      t.chain a ++ l = e :: rest → a = e := by
    intro a l ha heq
    rw [Trie.chain_eq_cons L.falling ha, List.cons_append, List.cons.injEq] at heq
    exact heq.1
  cases pending with
  | some a => exact congrArg some (first (hc a rfl) htodo)
  | none =>
    have hseek := seek_sought L stack
    have hstack : t.stackIds stack = e :: rest := htodo
    rw [upcoming, Option.none_or]
    cases hfound : seek t stack with
    | none =>
      rw [hfound] at hseek
      exact absurd (hstack.symm.trans hseek) (List.cons_ne_nil e rest)
    | some found =>
      rw [hfound] at hseek
      have heq := hseek.2.trans (List.append_nil _)
      exact congrArg some (first hseek.1 (heq.trans hstack))

end Cursor

end Cursor

/-! ## Sweeps -/

namespace Trie

section With
variable {σ : Type w} (view : σ → Trie κ ν) (f : EntryId → κ → ν → σ → Bool × σ)

/-- `sweepChain` with a callback that is also told the place of the entry. -/
def sweepChainWith : (fuel : Nat) → (cur : Option EntryId) → σ → Bool × σ
  | 0, _, s | _, none, s => (true, s)
  | fuel + 1, some e, s =>
    match (view s).entries[e]? with
    | none => (true, s)
    | some x =>
      match f e x.key x.value s with
      | (false, s) => (false, s)
      | (true, s) => sweepChainWith fuel ((view s).next? e) s

/-- `sweepSlots` with a callback that is also told the place of the entry. -/
def sweepSlotsWith (down : BranchId → σ → Bool × σ) (b : BranchId) :
    List Nibble → σ → Bool × σ
  | [], s => (true, s)
  | i :: rest, s =>
    let swept := match (view s).slot b i with
      | .empty => (true, s)
      | .chain head => sweepChainWith view f ((view s).chainBound head) (some head) s
      | .branch child => down child s
    match swept with
    | (false, s) => (false, s)
    | (true, s) => sweepSlotsWith down b rest s

/-- `sweepBranch` with a callback that is also told the place of the entry. -/
def sweepBranchWith : (levels : Nat) → BranchId → σ → Bool × σ
  | 0, _, s => (true, s)
  | levels + 1, b, s => sweepSlotsWith view f (sweepBranchWith levels) b allNibbles s

/-- Shows every entry and its place to the callback, until it answers false. -/
def sweepWith (s : σ) : Bool × σ := sweepBranchWith view f hashGroups root s

end With

section Forget
variable {σ : Type w} {σ' : Type w'} {view : σ → Trie κ ν} {f : κ → ν → σ → Bool × σ}
  {f' : EntryId → κ → ν → σ' → Bool × σ'} {π : σ' → σ}

/-- What the places are told for is forgotten. -/
def Forgets (π : σ' → σ) (f' : EntryId → κ → ν → σ' → Bool × σ') (f : κ → ν → σ → Bool × σ) :
    Prop :=
  ∀ e k v s, ((f' e k v s).1, π (f' e k v s).2) = f k v (π s)

variable (hf : Forgets π f' f)
include hf

theorem sweepChain_eq : ∀ (fuel : Nat) (cur : Option EntryId) (s : σ'),
    sweepChain view f fuel cur (π s) =
      ((sweepChainWith (view ∘ π) f' fuel cur s).1, π (sweepChainWith (view ∘ π) f' fuel cur s).2)
  | 0, _, _ => rfl
  | _ + 1, none, _ => rfl
  | fuel + 1, some e, s => by
    rw [sweepChain, sweepChainWith]
    cases hx : (view (π s)).entries[e]? with
    | none => simp only [Function.comp, hx]
    | some x =>
      simp only [Function.comp, hx, ← hf e]
      cases hcall : f' e x.key x.value s with
      | mk go s₁ =>
        cases go with
        | false => rfl
        | true => exact sweepChain_eq fuel _ s₁

theorem sweepSlots_eq {down : BranchId → σ → Bool × σ} {down' : BranchId → σ' → Bool × σ'}
    (hdown : ∀ c s, down c (π s) = ((down' c s).1, π (down' c s).2)) (b : BranchId) :
    ∀ (rest : List Nibble) (s : σ'), sweepSlots view f down b rest (π s) =
      ((sweepSlotsWith (view ∘ π) f' down' b rest s).1,
        π (sweepSlotsWith (view ∘ π) f' down' b rest s).2)
  | [], _ => rfl
  | i :: rest, s => by
    have ih := sweepSlots_eq hdown b rest
    rw [sweepSlots, sweepSlotsWith]
    cases hs : (view (π s)).slot b i with
    | empty => simp only [Function.comp, hs]; exact ih s
    | chain head =>
      simp only [Function.comp_apply, hs, sweepChain_eq hf]
      cases hchain : sweepChainWith (view ∘ π) f' ((view (π s)).chainBound head) (some head) s with
      | mk go s₁ =>
        cases go with
        | false => rfl
        | true => exact ih s₁
    | branch c =>
      simp only [Function.comp, hs, hdown]
      cases hbranch : down' c s with
      | mk go s₁ =>
        cases go with
        | false => rfl
        | true => exact ih s₁

theorem sweepBranch_eq : ∀ (levels : Nat) (b : BranchId) (s : σ'),
    sweepBranch view f levels b (π s) =
      ((sweepBranchWith (view ∘ π) f' levels b s).1, π (sweepBranchWith (view ∘ π) f' levels b s).2)
  | 0, _, _ => rfl
  | levels + 1, b, s => sweepSlots_eq hf (sweepBranch_eq levels) b allNibbles s

/-- A sweep is one whose callback makes no use of the places. -/
theorem sweep_eq (s : σ') : sweep view f (π s) = π (sweepWith (view ∘ π) f' s).2 := by
  rw [sweep, sweepBranch_eq hf]
  rfl

end Forget

end Trie

section Carries
variable {σ : Type w} {view : σ → Trie κ ν} {f : EntryId → κ → ν → σ → Bool × σ}
  {P : σ → Place → Prop} {Q : σ → Prop}

/-- A sweep that goes on is at the place `p`, and one that was ended is where `Q` says. -/
def Ends (P : σ → Place → Prop) (Q : σ → Prop) (p : Place) : Bool × σ → Prop
  | (true, s) => P s p
  | (false, s) => Q s

/-- What a sweep carries along: quiet steps and the callback preserve `P`, and if the callback
ends the sweep `Q` holds. -/
structure Carries (view : σ → Trie κ ν) (f : EntryId → κ → ν → σ → Bool × σ)
    (P : σ → Place → Prop) (Q : σ → Prop) : Prop where
  layout : ∀ {s p}, P s p → ∃ path, Trie.Layout path (view s)
  stacked : ∀ {s p}, P s p → Stacked (view s) p.spots
  inTable : ∀ {s p}, P s p → p.stand.InTable (view s)
  quiet : ∀ {s p q}, P s p → Quiet (view s) p q → P s q
  keeps : ∀ {s e spots x}, P s ⟨spots, .before e⟩ → (view s).entries[e]? = some x →
    (view s).Keeps (view (f e x.key x.value s).2)
  shows : ∀ {s e spots x}, P s ⟨spots, .before e⟩ → (view s).entries[e]? = some x →
    Ends P Q ⟨spots, .after e⟩ (f e x.key x.value s)

namespace Carries

variable (C : Carries view f P Q)
include C

/-- A sweep goes through a chain to its end: links lead to earlier births, also those that are
written while the sweep goes on. -/
theorem chain {spots : List Spot} : ∀ {fuel : Nat} {cur : Option EntryId} {s : σ},
    P s ⟨spots, .ofLink cur⟩ → (∀ e, cur = some e → (view s).birth e < fuel) →
      Ends P Q ⟨spots, .between⟩ (Trie.sweepChainWith view f fuel cur s)
  | 0, none, _, H, _ => H
  | 0, some e, _, _, hbirth => absurd (hbirth e rfl) (Nat.not_lt_zero _)
  | _ + 1, none, _, H, _ => H
  | fuel + 1, some e, s, H, hbirth => by
    have hlt : e < (view s).entries.size := C.inTable H
    obtain ⟨x, hx⟩ := Trie.entry_of_lt hlt
    have hkeeps := C.keeps H hx
    have hshows := C.shows H hx
    rw [Trie.sweepChainWith, hx]
    cases hcall : f e x.key x.value s with
    | mk go s₁ =>
      rw [hcall] at hkeeps hshows
      simp only [hcall]
      cases go with
      | false => exact hshows
      | true =>
        have H₁ : P s₁ ⟨spots, .after e⟩ := hshows
        refine chain (C.quiet H₁ fun _ => .follow) fun n hn => ?_
        obtain ⟨path, L⟩ := C.layout H₁
        have hfall := L.falling.birth_next hn
        have hsame := hkeeps.birth_eq hlt
        have hle := hbirth e rfl
        simp only at hsame
        omega

theorem slots {down : BranchId → σ → Bool × σ} {b : BranchId} {p : List Nibble}
    {below : List Spot}
    (hdown : ∀ {i c rest s}, (view s).slot b i = .branch c →
      P s ⟨⟨⟨c, allNibbles⟩, p ++ [i]⟩ :: ⟨⟨b, rest⟩, p⟩ :: below, .between⟩ →
      Ends P Q ⟨⟨⟨b, rest⟩, p⟩ :: below, .between⟩ (down c s)) :
    ∀ {rest : List Nibble} {s : σ}, P s ⟨⟨⟨b, rest⟩, p⟩ :: below, .between⟩ →
      Ends P Q ⟨below, .between⟩ (Trie.sweepSlotsWith view f down b rest s)
  | [], _, H => C.quiet H fun _ => .leave
  | i :: rest, s, H => by
    -- what comes of the slot, and the rest of the slots after it
    have goes : ∀ {r : Bool × σ}, Ends P Q ⟨⟨⟨b, rest⟩, p⟩ :: below, .between⟩ r →
        Ends P Q ⟨below, .between⟩ (match r with
          | (false, s) => (false, s)
          | (true, s) => Trie.sweepSlotsWith view f down b rest s) := by
      rintro ⟨go, s₁⟩ H₁
      cases go with
      | false => exact H₁
      | true => exact slots hdown H₁
    rw [Trie.sweepSlotsWith]
    cases hs : (view s).slot b i with
    | empty => exact slots hdown (C.quiet H fun _ => .skip hs)
    | chain head =>
      have H₁ : P s ⟨⟨⟨b, rest⟩, p⟩ :: below, .before head⟩ := C.quiet H fun _ => .take hs
      refine goes (C.chain H₁ ?_)
      intro e he
      cases he
      rw [Trie.chainBound_eq (C.inTable H₁)]
      exact Nat.lt_succ_self _
    | branch c => exact goes (hdown hs (C.quiet H fun _ => .enter hs))

theorem branch : ∀ {levels : Nat} {b : BranchId} {p : List Nibble} {below : List Spot} {s : σ},
    p.length < 16 → p.length + levels = 16 → P s ⟨⟨⟨b, allNibbles⟩, p⟩ :: below, .between⟩ →
      Ends P Q ⟨below, .between⟩ (Trie.sweepBranchWith view f levels b s)
  | 0, _, _, _, _, hlt, hlen, _ => absurd hlt (by omega)
  | levels + 1, b, p, below, s, _, hlen, H => by
    refine C.slots (fun {i c rest s} hs H => ?_) H
    refine branch ?_ ?_ H
    · obtain ⟨path, L⟩ := C.layout H
      have hlive := L.child_live hs
      have hdepth := L.depth hlive
      rw [(C.stacked H).path_of_live L hlive] at hdepth
      exact hdepth
    · rw [List.length_append, List.length_singleton]
      omega

/-- What a sweep carries along is so at its end. -/
theorem sweep {s : σ} (H : P s ⟨[.root], .between⟩) :
    Ends P Q ⟨[], .between⟩ (Trie.sweepWith view f s) :=
  C.branch (by decide) rfl H

end Carries

end Carries

end NibbleTrie
