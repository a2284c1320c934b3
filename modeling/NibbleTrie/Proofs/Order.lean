/-
The order of a walk.

A walk takes the slots of a branch in order and goes down into branches as it
meets them, so the groups of the hashes it comes by ascend; within a chain births
descend.  Writes cannot disturb this: what is ahead depends on the trail alone,
and an entry that comes into the chain at hand has the key and the birth of the
one it replaces.  `Orders` says how what was shown, what is at hand and what is
ahead lie, and is preserved by the steps of a walk and by writes.

A walk is observed here with the entries it shows, not only with their keys and
values (`Iteration.Shows` for cursors, `noting` for sweeps): the rank of an entry
is its own birth, also if its key was removed and inserted again since.

Main statement: in every walk under mutation hashes never descend, and within one
hash ranks strictly descend (`walks_ordered`).
-/
import NibbleTrie.Proofs.Rank
import NibbleTrie.Proofs.Tour

namespace NibbleTrie

variable {κ : Type u} {ν : Type v}

/-! ## What is ahead lies behind -/

/-- The slots still to be looked at are in order, and lie behind those the walk went through. -/
inductive Ascending : List Spot → Prop
  | nil : Ascending []
  | cons {s below} : s.rest.Pairwise (· < ·) →
      (∀ s' ∈ below, ∃ i, s'.path ++ [i] <+: s.path ∧ ∀ j ∈ s'.rest, i < j) → Ascending below →
      Ascending (s :: below)

/-- The walk is past the hash `h`: whatever is ahead is greater. -/
def Past (spots : List Spot) (h : UInt64) : Prop := ∀ h', Ahead spots h' → h < h'

theorem Past.of_ahead {spots spots' : List Spot} {h : UInt64} (hp : Past spots h)
    (hsub : ∀ h', Ahead spots' h' → Ahead spots h') : Past spots' h :=
  fun h' ha => hp h' (hsub h' ha)

section Ascending
variable {b c : BranchId} {i : Nibble} {rest p : List Nibble} {below : List Spot} {h : UInt64}

theorem Ascending.shorten (ha : Ascending (⟨⟨b, i :: rest⟩, p⟩ :: below)) :
    Ascending (⟨⟨b, rest⟩, p⟩ :: below) := by
  cases ha with
  | cons hsorted hfork hbelow => exact .cons (List.pairwise_cons.mp hsorted).2 hfork hbelow

theorem Ascending.enter (ha : Ascending (⟨⟨b, i :: rest⟩, p⟩ :: below)) :
    Ascending (⟨⟨c, allNibbles⟩, p ++ [i]⟩ :: ⟨⟨b, rest⟩, p⟩ :: below) := by
  have hshort := ha.shorten
  cases ha with
  | cons hsorted hfork _ =>
    refine .cons (List.pairwise_lt_finRange 16) ?_ hshort
    intro s hs
    rcases List.mem_cons.mp hs with rfl | hs
    · exact ⟨i, List.prefix_refl _, (List.pairwise_cons.mp hsorted).1⟩
    · obtain ⟨j, hpre, hlt⟩ := hfork s hs
      exact ⟨j, hpre.trans (List.prefix_append _ _), hlt⟩

/-- What goes through the slot at hand is smaller than all that is ahead. -/
theorem Ascending.past (ha : Ascending (⟨⟨b, i :: rest⟩, p⟩ :: below))
    (hway : p ++ [i] <+: digits h) : Past (⟨⟨b, rest⟩, p⟩ :: below) h := by
  intro h' hahead
  cases ha with
  | cons hsorted hfork _ =>
    rcases ahead_cons.mp hahead with ⟨j, hj, hway'⟩ | ⟨s, hs, j, hj, hway'⟩
    · exact lt_of_ways hway hway' ((List.pairwise_cons.mp hsorted).1 j hj)
    · obtain ⟨i', hpre, hlt⟩ := hfork s hs
      have hp : p <+: digits h := (List.prefix_append p [i]).trans hway
      exact lt_of_ways (hpre.trans hp) hway' (hlt j hj)

end Ascending

/-! ## The order of what was shown, what is at hand and what is ahead -/

/-- How the entries `es` that a walk has shown lie to the chain at hand and to what is ahead. -/
structure Orders (hash : κ → UInt64) (t : Trie κ ν) (p : Place) (es : List EntryId) : Prop where
  ascending : Ascending p.spots
  ordered : es.Pairwise (t.Before hash)
  lt_size : ∀ e ∈ es, e < t.entries.size
  shown_past : ∀ e ∈ es, ∀ x, t.entries[e]? = some x → Past p.spots (hash x.key)
  chain_past : ∀ a ∈ p.stand.rest t, ∀ x, t.entries[a]? = some x → Past p.spots (hash x.key)
  /-- The chain at hand has one hash. -/
  same : ∀ a ∈ p.stand.rest t, ∀ a' ∈ p.stand.rest t, ∀ x x', t.entries[a]? = some x →
    t.entries[a']? = some x' → hash x.key = hash x'.key
  shown_before : ∀ e ∈ es, ∀ a ∈ p.stand.rest t, t.Before hash e a

section Orders
variable [BEq κ] {t t' : Trie κ ν} {path path' : BranchId → List Nibble} {hash : κ → UInt64}
  {p q : Place} {es : List EntryId}

omit [BEq κ] in
theorem Orders.start (hash : κ → UInt64) (t : Trie κ ν) :
    Orders hash t ⟨[.root], .between⟩ [] where
  ascending := .cons (List.pairwise_lt_finRange 16) (fun _ h => absurd h List.not_mem_nil) .nil
  ordered := .nil
  lt_size _ h := absurd h List.not_mem_nil
  shown_past _ h := absurd h List.not_mem_nil
  chain_past _ h := absurd h List.not_mem_nil
  same _ h := absurd h List.not_mem_nil
  shown_before _ h := absurd h List.not_mem_nil

omit [BEq κ] in
/-- In no chain only the branches count. -/
theorem Orders.between {spots : List Spot} (H : Orders hash t p es) (ha : Ascending spots)
    (hsub : ∀ h, Ahead spots h → Ahead p.spots h) : Orders hash t ⟨spots, .between⟩ es where
  ascending := ha
  ordered := H.ordered
  lt_size := H.lt_size
  shown_past e he x hx := (H.shown_past e he x hx).of_ahead hsub
  chain_past _ h := absurd h List.not_mem_nil
  same _ h := absurd h List.not_mem_nil
  shown_before _ _ _ h := absurd h List.not_mem_nil

/-- A chain that is taken up lies behind what was shown, and in front of what is ahead. -/
theorem Orders.take {b : BranchId} {i : Nibble} {rest way : List Nibble} {below : List Spot}
    {head : EntryId} (K : Trie.Keyed hash path t)
    (H : Orders hash t ⟨⟨⟨b, i :: rest⟩, way⟩ :: below, .between⟩ es)
    (hs : Stacked t (⟨⟨b, i :: rest⟩, way⟩ :: below)) (hslot : t.slot b i = .chain head) :
    Orders hash t ⟨⟨⟨b, rest⟩, way⟩ :: below, .before head⟩ es := by
  obtain ⟨_, rfl⟩ := hs.path_eq K.toLayout (by rw [hslot]; simp)
  have hmem : ∀ a ∈ t.chain head, a ∈ t.chainAt b i := by
    intro a ha
    rw [Trie.chainAt_of_chain hslot]
    exact ha
  have hway : ∀ a ∈ t.chain head, ∀ x, t.entries[a]? = some x →
      path b ++ [i] <+: digits (hash x.key) := by
    intro a ha x hx
    exact K.way (hmem a ha) hx
  exact
    { ascending := H.ascending.shorten
      ordered := H.ordered
      lt_size := H.lt_size
      shown_past := by
        intro e he x hx
        exact (H.shown_past e he x hx).of_ahead fun _ ha => ha.shorten
      chain_past := by
        intro a ha x hx
        exact H.ascending.past (hway a ha x hx)
      same := by
        intro a ha a' ha' x x' hx hx'
        exact K.same (hmem a ha) (hmem a' ha') hx hx'
      shown_before := by
        intro e he a ha
        obtain ⟨x, hx⟩ := Trie.entry_of_lt (H.lt_size e he)
        obtain ⟨y, hy⟩ := Trie.entry_of_lt (K.lt_of_mem_chainAt (hmem a ha))
        have hahead : Ahead (⟨⟨b, i :: rest⟩, path b⟩ :: below) (hash y.key) :=
          ahead_cons.mpr (.inl ⟨i, List.mem_cons_self, hway a ha y hy⟩)
        exact ⟨x, y, hx, hy, .inl (H.shown_past e he x hx _ hahead)⟩ }

/-- A quiet step keeps the order. -/
theorem Orders.quiet (K : Trie.Keyed hash path t) (H : Orders hash t p es)
    (hs : Stacked t p.spots) (h : Quiet t p q) : Orders hash t q es := by
  obtain ⟨spots, stand⟩ := p
  obtain ⟨spots', stand'⟩ := q
  obtain ⟨shown, shown', hshown, hstep⟩ := h.exists_step
  cases hstep with
  | skip hslot => exact H.between H.ascending.shorten fun _ ha => ha.shorten
  | enter hslot =>
    refine H.between H.ascending.enter fun h' ha => ?_
    rcases ahead_cons.mp ha with hl | ha
    · exact ahead_cons.mpr (.inl ⟨_, List.mem_cons_self, hl.enter⟩)
    · exact ha.shorten
  | take hslot => exact H.take K hs hslot
  | leave =>
    have hbelow : Ascending spots' := by
      cases H.ascending with
      | cons _ _ hbelow => exact hbelow
    exact H.between hbelow fun _ ha => ahead_cons.mpr (.inr ha)
  | yield _ => simp at hshown
  | @follow spots shown e =>
    have hrest : (Stand.ofLink (t.next? e)).rest t = (Stand.after e).rest t :=
      Stand.rest_ofLink t _
    exact
      { ascending := H.ascending
        ordered := H.ordered
        lt_size := H.lt_size
        shown_past := H.shown_past
        chain_past := hrest ▸ H.chain_past
        same := hrest ▸ H.same
        shown_before := hrest ▸ H.shown_before }

/-- The entry that is shown comes after what was shown, and before the rest of its chain. -/
theorem Orders.yield {spots : List Spot} {e : EntryId} (K : Trie.Keyed hash path t)
    (H : Orders hash t ⟨spots, .before e⟩ es) (hlt : e < t.entries.size) :
    Orders hash t ⟨spots, .after e⟩ (es ++ [e]) := by
  have hchain : t.chain e = e :: t.chainOf (t.next? e) := Trie.chain_eq_cons K.falling hlt
  have hmem : e ∈ t.chain e := Trie.mem_chain_self K.falling hlt
  have hsub : ∀ a ∈ t.chainOf (t.next? e), a ∈ t.chain e := by
    intro a ha
    rw [hchain]
    exact List.mem_cons_of_mem _ ha
  have hfalls : ∀ a ∈ t.chainOf (t.next? e), t.Before hash e a := by
    intro a ha
    obtain ⟨x, hx⟩ := Trie.entry_of_lt hlt
    obtain ⟨y, hy⟩ := Trie.entry_of_lt ((Trie.linked_chainOf_next K.falling e).lt_size a ha)
    have hbirth := K.falling.birth_lt (Trie.linked_chainOf_next K.falling e) rfl a ha
    rw [Trie.birth_of_entry hx, Trie.birth_of_entry hy] at hbirth
    exact ⟨x, y, hx, hy, .inr ⟨H.same e hmem a (hsub a ha) x y hx hy, hbirth⟩⟩
  have hcases : ∀ {P : EntryId → Prop}, (∀ a ∈ es, P a) → P e → ∀ a ∈ es ++ [e], P a := by
    intro P hes he a ha
    rcases List.mem_append.mp ha with ha | ha
    · exact hes a ha
    · rw [List.mem_singleton.mp ha]
      exact he
  exact
    { ascending := H.ascending
      ordered := by
        refine List.pairwise_append.mpr ⟨H.ordered, List.pairwise_singleton _ _, ?_⟩
        intro a ha a' ha'
        rw [List.mem_singleton.mp ha']
        exact H.shown_before a ha e hmem
      lt_size := hcases H.lt_size hlt
      shown_past := hcases H.shown_past (H.chain_past e hmem)
      chain_past := fun a ha => H.chain_past a (hsub a ha)
      same := fun a ha a' ha' => H.same a (hsub a ha) a' (hsub a' ha')
      shown_before := by
        refine hcases (fun a ha a' ha' => ?_) hfalls
        exact H.shown_before a ha a' (hsub a' ha') }

variable [EquivBEq κ] (law : Lawful hash)
include law

/-- A write keeps the order: what it puts into the chain at hand has the hash and the birth of
what was there. -/
theorem Orders.moves (H : Orders hash t p es) (hin : p.stand.InTable t)
    (M : Trie.Moves hash t t') : Orders hash t' p es := by
  rcases M with rfl | ⟨path, path', gone, new, K, S⟩
  · exact H
  have hold : ∀ {e x}, e ∈ es → t'.entries[e]? = some x →
      ∃ y, t.entries[e]? = some y ∧ x.key = y.key := by
    intro e x he hx
    obtain ⟨y, hy, hxy, _⟩ := S.keeps.entry_of_lt (H.lt_size e he) hx
    exact ⟨y, hy, hxy⟩
  have hstood : ∀ {a x}, a ∈ p.stand.rest t' → t'.entries[a]? = some x →
      ∃ b ∈ p.stand.rest t, ∃ y, t.entries[b]? = some y ∧ hash y.key = hash x.key ∧
        y.birth = x.birth := by
    intro a x ha hx
    obtain ⟨b, hb, y, hy, hk, hbirth⟩ := Stand.key_before K S hin ha hx
    exact ⟨b, hb, y, hy, law.hash_eq hk, hbirth⟩
  have hlt : ∀ a ∈ p.stand.rest t', a < t'.entries.size := fun a ha =>
    Stand.lt_of_mem_rest S.keyed.falling (hin.mono S.keeps.size_le) ha
  exact
    { ascending := H.ascending
      ordered := H.ordered.imp fun h => h.keeps S.keeps
      lt_size := fun e he => Nat.lt_of_lt_of_le (H.lt_size e he) S.keeps.size_le
      shown_past := by
        intro e he x hx
        obtain ⟨y, hy, hxy⟩ := hold he hx
        rw [hxy]
        exact H.shown_past e he y hy
      chain_past := by
        intro a ha x hx
        obtain ⟨b, hb, y, hy, hh, _⟩ := hstood ha hx
        rw [← hh]
        exact H.chain_past b hb y hy
      same := by
        intro a ha a' ha' x x' hx hx'
        obtain ⟨b, hb, y, hy, hh, _⟩ := hstood ha hx
        obtain ⟨b', hb', y', hy', hh', _⟩ := hstood ha' hx'
        rw [← hh, ← hh']
        exact H.same b hb b' hb' y y' hy hy'
      shown_before := by
        intro e he a ha
        obtain ⟨x, hx⟩ := Trie.entry_of_lt (hlt a ha)
        obtain ⟨b, hb, y, hy, hh, hbirth⟩ := hstood ha hx
        obtain ⟨z, y', hz, hy', hlt'⟩ := H.shown_before e he b hb
        cases hy.symm.trans hy'
        obtain ⟨n, hn⟩ := S.keeps.entry hz
        rw [hh, hbirth] at hlt'
        exact ⟨_, x, hn, hx, hlt'⟩ }

theorem Orders.evolves (H : Orders hash t p es) (hin : p.stand.InTable t)
    (E : Trie.Evolves hash t t') : Orders hash t' p es :=
  (E.induct (P := fun u => p.stand.InTable u ∧ Orders hash u p es)
    (fun M h => ⟨h.1.mono M.keeps.size_le, h.2.moves law h.1 M⟩) ⟨hin, H⟩).2

end Orders

/-! ## Entries in order -/

/-- The entries `es` have the keys and values `shown`; their hashes never descend, and within one
hash their ranks strictly descend. -/
structure Trie.InOrder (hash : κ → UInt64) (t : Trie κ ν) (es : List EntryId)
    (shown : List (κ × ν)) : Prop where
  lt_size : ∀ e ∈ es, e < t.entries.size
  shown : shown = es.filterMap t.item?
  ordered : es.Pairwise (t.Before hash)

/-- The keys, values and ranks of a trie, in the order of its walks. -/
def Trie.ranked (t : Trie κ ν) : List ((κ × ν) × Nat) :=
  t.ids.filterMap fun e => t.entries[e]?.map fun x => ((x.key, x.value), x.birth)

/-- In order, ranks decide where a key is listed. -/
theorem Trie.InOrder.listed_eq {hash : κ → UInt64} {t t' : Trie κ ν} {shown shown' : List (κ × ν)}
    (h : t.InOrder hash t.ids shown) (h' : t'.InOrder hash t'.ids shown')
    (hperm : t.ranked.Perm t'.ranked) : shown = shown' := by
  let Earlier (a b : (κ × ν) × Nat) : Prop :=
    hash a.1.1 < hash b.1.1 ∨ hash a.1.1 = hash b.1.1 ∧ b.2 < a.2
  have sorted : ∀ {u : Trie κ ν} {l}, u.InOrder hash u.ids l → u.ranked.Pairwise Earlier := by
    intro u l hu
    refine List.pairwise_filterMap.mpr (hu.ordered.imp ?_)
    rintro a b ⟨x, y, hx, hy, hlt⟩ item hitem item' hitem'
    rw [hx, Option.map_some, Option.some.injEq] at hitem
    rw [hy, Option.map_some, Option.some.injEq] at hitem'
    subst hitem
    subst hitem'
    exact hlt
  have asymm : ∀ a b, Earlier a b → ¬Earlier b a := by
    rintro a b (hlt | ⟨heq, hlt⟩) (hlt' | ⟨heq', hlt'⟩)
    · exact absurd hlt' (UInt64.lt_asymm hlt)
    · exact absurd hlt (heq' ▸ UInt64.lt_irrefl _)
    · exact absurd hlt' (heq ▸ UInt64.lt_irrefl _)
    · exact absurd hlt' (Nat.lt_asymm hlt)
  have listed : ∀ u : Trie κ ν, u.ids.filterMap u.item? = u.ranked.map (·.1) := by
    intro u
    rw [Trie.ranked, List.map_filterMap]
    refine List.filterMap_congr fun e _ => ?_
    rw [Trie.item?]
    cases u.entries[e]? <;> rfl
  have heq : t.ranked = t'.ranked :=
    hperm.eq_of_pairwise (fun a b _ _ hab hba => absurd hba (asymm a b hab)) (sorted h) (sorted h')
  rw [h.shown, h'.shown, listed, listed, heq]

/-! ## Walks that are observed -/

variable [BEq κ] [BEq ν]

/-- A walk of the generation `g` is at the place `p`, and has shown the entries `es`. -/
structure Observed (hash : κ → UInt64) (g : Nat) (J : Journal κ ν) (es : List EntryId)
    (p : Place) : Prop where
  follows : Follows hash g J p.spots p.stand
  orders : Orders hash (J.now.map.trieAt g) p es
  shown : J.shown = es.filterMap (J.now.map.trieAt g).item?

namespace Observed

variable {hash : κ → UInt64} {g : Nat} {J J' : Journal κ ν} {es : List EntryId} {p q : Place}

theorem inOrder (O : Observed hash g J es p) :
    (J.now.map.trieAt g).InOrder hash es J.shown :=
  ⟨O.orders.lt_size, O.shown, O.orders.ordered⟩

variable [EquivBEq κ] (law : Lawful hash)
include law

theorem start {s : Moment κ ν} (h : Moment.Reachable hash s) :
    Observed hash s.map.generation (.start s) [] ⟨[.root], .between⟩ :=
  ⟨.start law h, .start hash _, rfl⟩

theorem quiet (O : Observed hash g J es p) (h : Quiet (J.now.map.trieAt g) p q) :
    Observed hash g J es q := by
  obtain ⟨path, K⟩ := O.follows.keyed law
  exact ⟨O.follows.step law (h J.shown), O.orders.quiet K O.follows.tracks.stacked h, O.shown⟩

theorem steps (O : Observed hash g J es p)
    (h : Relation.ReflTransGen (Quiet (J.now.map.trieAt g)) p q) : Observed hash g J es q := by
  induction h with
  | refl => exact O
  | tail _ h ih => exact ih.quiet law h

theorem yield {spots : List Spot} {e : EntryId} {x : Entry κ ν}
    (O : Observed hash g J es ⟨spots, .before e⟩)
    (hx : (J.now.map.trieAt g).entries[e]? = some x) :
    Observed hash g (J.record (x.key, x.value)) (es ++ [e]) ⟨spots, .after e⟩ := by
  obtain ⟨path, K⟩ := O.follows.keyed law
  refine ⟨O.follows.step law (.yield hx), O.orders.yield K (Trie.lt_of_entry hx), ?_⟩
  show J.shown ++ [(x.key, x.value)] = (es ++ [e]).filterMap (J.now.map.trieAt g).item?
  rw [O.shown, List.filterMap_append, List.filterMap_cons_some (Trie.item?_of_entry hx)]
  rfl

theorem pass (O : Observed hash g J es p) (h : Journal.Step J J') : Observed hash g J' es p := by
  have E := O.follows.evolves law h
  refine ⟨O.follows.pass law h, O.orders.evolves law O.follows.tracks.inTable E, ?_⟩
  have hsame : J'.shown = J.shown := by
    cases h
    rfl
  rw [hsame, O.shown, E.keeps.filterMap_item? O.orders.lt_size]

theorem passes (O : Observed hash g J es p) (h : Relation.ReflTransGen Journal.Step J J') :
    Observed hash g J' es p := by
  induction h with
  | refl => exact O
  | tail _ h ih => exact ih.pass law h

end Observed

/-! ## Cursors -/

namespace Iteration

/-- The entry that the next step of the cursor yields. -/
def upcoming (w : Iteration κ ν) : Option EntryId :=
  w.cursor.upcoming (w.journal.now.map.trieAt w.generation)

/-- The cursor has come to where it is and has shown the entries `es`. -/
inductive Shows (hash : κ → UInt64) : Iteration κ ν → List EntryId → Prop
  | start {s} : Moment.Reachable hash s → Shows hash ⟨.start s, s.map.generation, .start⟩ []
  | pass {w es J} : Shows hash w es → Journal.Step w.journal J →
      Shows hash { w with journal := J } es
  | next {w es e item c} : Shows hash w es → w.upcoming = some e → w.next = (some item, c) →
      Shows hash { w with journal := w.journal.record item, cursor := c } (es ++ [e])

variable [EquivBEq κ] {hash : κ → UInt64} (law : Lawful hash)
include law

theorem Shows.observed {w : Iteration κ ν} {es : List EntryId} (h : Shows hash w es) :
    ∃ spots stand, w.cursor.Matches spots stand ∧
      Observed hash w.generation w.journal es ⟨spots, stand⟩ := by
  induction h with
  | start h => exact ⟨[.root], .between, ⟨rfl, rfl⟩, .start law h⟩
  | pass _ hstep ih =>
    obtain ⟨spots, stand, hc, O⟩ := ih
    exact ⟨spots, stand, hc, O.pass law hstep⟩
  | @next w es e item c _ hup hnext ih =>
    obtain ⟨spots, stand, hc, O⟩ := ih
    obtain ⟨path, K⟩ := O.follows.keyed law
    rcases w.cursor.next_cases K.toLayout hc O.follows.tracks.stacked O.follows.tracks.inTable with
      ⟨e', x, spots', hup', hx, hsteps, hnext'⟩ | ⟨_, _, hnext'⟩
    · cases hup.symm.trans hup'
      cases hnext.symm.trans hnext'
      have O' : Observed hash w.generation (w.journal.record (x.key, x.value)) (es ++ [e])
          ⟨spots', .ofLink ((w.journal.now.map.trieAt w.generation).next? e)⟩ :=
        ((O.steps law hsteps).yield law hx).quiet law fun _ => .follow
      rw [Trie.next?_of_entry hx] at O'
      exact ⟨spots', _, ⟨rfl, rfl⟩, O'⟩
    · cases hnext.symm.trans hnext'

/-- Every walk of a cursor has shown some entries. -/
theorem Reachable.shows {w : Iteration κ ν} (h : w.Reachable hash) : ∃ es, Shows hash w es := by
  induction h with
  | start h => exact ⟨[], .start h⟩
  | pass _ hstep ih =>
    obtain ⟨es, S⟩ := ih
    exact ⟨es, S.pass hstep⟩
  | @next w item c _ hnext ih =>
    obtain ⟨es, S⟩ := ih
    obtain ⟨spots, stand, hc, O⟩ := S.observed law
    obtain ⟨path, K⟩ := O.follows.keyed law
    rcases w.cursor.next_cases K.toLayout hc O.follows.tracks.stacked O.follows.tracks.inTable with
      ⟨e, _, _, hup, _, _, _⟩ | ⟨_, _, hnext'⟩
    · exact ⟨es ++ [e], S.next hup hnext⟩
    · cases hnext.symm.trans hnext'

/-- A cursor that nothing disturbs shows what it has in front of it. -/
theorem Shows.undisturbed {J : Journal κ ν} {g : Nat} :
    ∀ {rest es : List EntryId} {c : Cursor} {shown : List (κ × ν)},
      Shows hash ⟨{ J with shown := shown }, g, c⟩ es → c.InTable (J.now.map.trieAt g) →
      c.todo (J.now.map.trieAt g) = rest →
      ∃ c' shown', Shows hash ⟨{ J with shown := shown' }, g, c'⟩ (es ++ rest)
  | [], es, c, shown, S, _, _ => ⟨c, shown, by rw [List.append_nil]; exact S⟩
  | e :: rest, es, c, shown, S, hin, htodo => by
    obtain ⟨_, _, _, O⟩ := S.observed law
    obtain ⟨path, K⟩ := O.follows.keyed law
    have hup := Cursor.upcoming_of_todo K.toLayout hin htodo
    obtain ⟨hlt, c', hnext, hin', htodo'⟩ := Cursor.next_of_todo K.toLayout hin htodo
    obtain ⟨item, hitem⟩ := Trie.item?_of_lt hlt
    rw [hitem] at hnext
    obtain ⟨c'', shown', S'⟩ := Shows.undisturbed (S.next hup hnext) hin' htodo'
    rw [List.append_assoc] at S'
    exact ⟨c'', shown', S'⟩

end Iteration

/-- At rest a map lists its entries in order. -/
theorem Moment.Reachable.listed [EquivBEq κ] {hash : κ → UInt64} (law : Lawful hash)
    {s : Moment κ ν} (h : Moment.Reachable hash s) :
    s.map.current.InOrder hash s.map.current.ids s.map.toList := by
  obtain ⟨path, K⟩ := (h.good law).sound.keyed_current
  have hin : Cursor.start.InTable (s.map.trieAt s.map.generation) := fun _ h => by cases h
  have htodo := Cursor.todo_start (s.map.trieAt s.map.generation)
  have S : Iteration.Shows hash ⟨.start s, s.map.generation, .start⟩ [] := .start h
  obtain ⟨c, shown, S'⟩ := Iteration.Shows.undisturbed law (J := .start s) S hin htodo
  obtain ⟨_, _, _, O⟩ := S'.observed law
  have hin' : (s.map.trieAt s.map.generation).InOrder hash (s.map.trieAt s.map.generation).ids
      shown := O.inOrder
  rw [TrieMap.trieAt_generation] at hin'
  exact ⟨hin'.lt_size, K.toList_eq, hin'.ordered⟩

/-! ## Sweeps -/

section Sweep
variable {σ : Type w} {journal : σ → Journal κ ν} {f : κ → ν → σ → Bool × σ}

/-- The callback `f`, with a note of every entry that it is shown. -/
def noting (f : κ → ν → σ → Bool × σ) (e : EntryId) (k : κ) (v : ν) (s : σ × List EntryId) :
    Bool × σ × List EntryId :=
  ((f k v s.1).1, (f k v s.1).2, s.2 ++ [e])

/-- The callback changes the map in any way, and ends the sweep when it likes. -/
def Obeys (journal : σ → Journal κ ν) (f : κ → ν → σ → Bool × σ) : Prop :=
  ∀ k v s, Relation.ReflTransGen Journal.Step ((journal s).record (k, v)) (journal (f k v s).2)

/-- A sweep carries along what it has shown. -/
theorem observed_carries [EquivBEq κ] {hash : κ → UInt64} (law : Lawful hash)
    (hf : Obeys journal f) (g : Nat) :
    Carries (viewOf journal g ∘ Prod.fst) (noting f)
      (fun s p => Observed hash g (journal s.1) s.2 p)
      fun s => ∃ p, Observed hash g (journal s.1) s.2 p where
  layout O := by
    obtain ⟨path, K⟩ := O.follows.keyed law
    exact ⟨path, K.toLayout⟩
  stacked O := O.follows.tracks.stacked
  inTable O := O.follows.tracks.inTable
  quiet O h := O.quiet law h
  keeps {s e spots x} O hx := by
    have F := O.follows.step law (.yield hx)
    exact (F.passes law (hf x.key x.value s.1)).2
  shows {s e spots x} O hx := by
    have O' := (O.yield law hx).passes law (hf x.key x.value s.1)
    rw [noting]
    cases (f x.key x.value s.1).1 with
    | true => exact O'
    | false => exact ⟨_, O'⟩

/-- What a sweep with notes has noted, and that it is the sweep without them. -/
theorem sweep_inOrder [EquivBEq κ] {hash : κ → UInt64} (law : Lawful hash) (hf : Obeys journal f)
    {s : σ} {m : Moment κ ν} (hm : Moment.Reachable hash m) (hstart : journal s = .start m) :
    let r := (Trie.sweepWith (viewOf journal m.map.generation ∘ Prod.fst) (noting f) (s, [])).2
    r.1 = Trie.sweep (viewOf journal m.map.generation) f s ∧
      (viewOf journal m.map.generation r.1).InOrder hash r.2 (journal r.1).shown := by
  intro r
  have forgets : Trie.Forgets Prod.fst (noting f) f := fun _ _ _ _ => rfl
  refine ⟨(Trie.sweep_eq forgets (s, [])).symm, ?_⟩
  have O : Observed hash m.map.generation (journal s) [] ⟨[.root], .between⟩ := by
    rw [hstart]
    exact .start law hm
  have hends := (observed_carries law hf m.map.generation).sweep (s := (s, [])) O
  have hr : ∃ go, Trie.sweepWith (viewOf journal m.map.generation ∘ Prod.fst) (noting f) (s, []) =
      (go, r) := ⟨_, rfl⟩
  obtain ⟨go, hr⟩ := hr
  rw [hr] at hends
  cases go with
  | true => exact Observed.inOrder hends
  | false =>
    obtain ⟨_, O'⟩ := hends
    exact O'.inOrder

end Sweep

/-! ## Every walk -/

section Every
variable [EquivBEq κ] {hash : κ → UInt64}

/-- The order of every walk.  A cursor, with any changes of the map between its steps, and a sweep,
whose callback changes the map in any way and may end it, show entries whose hashes never descend,
and whose ranks strictly descend within one hash.  A cursor that shows a part of each entry shows
the parts of entries in this order.  A map at rest is listed so, and ranks alone decide the list.
Whatever happens to a map, also in one store of an insertion of many entries, ranks are kept by
keys that stay and given by the clock to keys that come. -/
theorem walks_ordered (law : Lawful hash) :
    (∀ w : Iteration κ ν, w.Reachable hash → ∃ es, Iteration.Shows hash w es) ∧
    (∀ (w : Iteration κ ν) (es : List EntryId), Iteration.Shows hash w es →
      (w.journal.now.map.trieAt w.generation).InOrder hash es w.journal.shown) ∧
    (∀ {ρ : Type x} (part : κ × ν → ρ) (w : Iteration κ ν) (ps : List ρ),
      w.ShowsPart hash part ps → ∃ shown es, shown.map part = ps ∧
        (w.noted shown).Shows hash es ∧
        (w.journal.now.map.trieAt w.generation).InOrder hash es shown) ∧
    (∀ {σ : Type w} (journal : σ → Journal κ ν) (f : κ → ν → σ → Bool × σ) (s : σ)
      (m : Moment κ ν), Moment.Reachable hash m → journal s = .start m → Obeys journal f →
        let r := (Trie.sweepWith (viewOf journal m.map.generation ∘ Prod.fst) (noting f) (s, [])).2
        r.1 = Trie.sweep (viewOf journal m.map.generation) f s ∧
          (viewOf journal m.map.generation r.1).InOrder hash r.2 (journal r.1).shown) ∧
    (∀ m : Moment κ ν, Moment.Reachable hash m →
      m.map.current.InOrder hash m.map.current.ids m.map.toList ∧
        ∀ m' : Moment κ ν, Moment.Reachable hash m' →
          m.map.current.ranked.Perm m'.map.current.ranked → m.map.toList = m'.map.toList) ∧
    ∀ m : Moment κ ν, Moment.Reachable hash m → ∀ g ≤ m.map.generation,
      (∀ m', Moment.Step m m' → Trie.Ranks (m.map.trieAt g) (m'.map.trieAt g)) ∧
        ∀ entries e, Trie.Ranks ((m.map.insertMany entries).state.trieAt g)
          ((m.map.insertMany (entries ++ [e])).state.trieAt g) := by
  refine ⟨fun w hw => hw.shows law, ?_, ?_, ?_, ?_, ?_⟩
  · intro w es S
    obtain ⟨_, _, _, O⟩ := S.observed law
    exact O.inOrder
  · intro ρ part w ps hw
    obtain ⟨shown, hps, R⟩ := hw.exists_shown
    obtain ⟨es, S⟩ := R.shows law
    obtain ⟨_, _, _, O⟩ := S.observed law
    exact ⟨shown, es, hps, S, O.inOrder⟩
  · intro σ journal f s m hm hstart hf
    exact sweep_inOrder law hf hm hstart
  · intro m hm
    refine ⟨hm.listed law, fun m' hm' hperm => ?_⟩
    exact (hm.listed law).listed_eq (hm'.listed law) hperm
  · intro m hm g hg
    have G := hm.good law
    exact ⟨fun m' h => (h.evolves G).ranks G.sound hg,
      fun entries e => TrieMap.insertMany_ranks G.sound entries e hg⟩

end Every

/-- The walk of two keys shows the head of the chain and then the entry behind it, also after that
was replaced. -/
theorem shows_twoKeysWalk : Iteration.Shows (fun _ => 0) twoKeysWalk [1, 0] := by
  have h₀ : Iteration.Shows (fun _ => 0) ⟨.start ⟨twoKeys, []⟩, 0, .start⟩ [] :=
    .start reachable_twoKeys
  have h₁ : Iteration.Shows (fun _ => 0) ⟨(Journal.start ⟨twoKeys, []⟩).record (1, 5), 0,
      ⟨[⟨Trie.root, allNibbles.tail⟩], some 0⟩⟩ [1] := h₀.next rfl rfl
  have h₂ := h₁.pass (Journal.step_apply rfl (.swap 2 20))
  exact h₂.next rfl rfl

theorem obeys_eraseOne : Obeys Subtype.val eraseOne := by
  intro k v J
  have hpending : (J.1.record (k, v)).now.pending = [] := J.2
  exact .single (Journal.step_apply hpending _)

/-- The key inserted last is shown first, by the walk of two keys, also if it shows keys alone, and
by a sweep that removes it. -/
theorem walks_ordered_twoKeys :
    let r := (Trie.sweepWith (viewOf Subtype.val twoKeys.generation ∘ Prod.fst) (noting eraseOne)
      (⟨.start ⟨twoKeys, []⟩, rfl⟩, [])).2
    (twoKeysWalk.journal.now.map.trieAt 0).InOrder (fun _ => 0) [1, 0] [(1, 5), (2, 10)] ∧
      (∃ shown es, shown.map Prod.fst = [1, 2] ∧
        (twoKeysWalk.journal.now.map.trieAt 0).InOrder (fun _ => 0) es shown) ∧
      r.2 = [1, 0] ∧
        (viewOf Subtype.val twoKeys.generation r.1).InOrder (fun _ => 0) r.2 r.1.1.shown := by
  obtain ⟨_, cursors, parts, sweeps, _⟩ := walks_ordered (κ := Nat) (ν := Nat) (Lawful.const 0)
  obtain ⟨shown, es, hshown, _, horder⟩ := parts Prod.fst _ _ (showsPart_twoKeysWalk Prod.fst)
  refine ⟨cursors twoKeysWalk [1, 0] shows_twoKeysWalk, ⟨shown, es, hshown, horder⟩, rfl, ?_⟩
  exact (sweeps Subtype.val eraseOne _ ⟨twoKeys, []⟩ reachable_twoKeys rfl obeys_eraseOne).2

end NibbleTrie
