/-
What a walk has shown, and what it will come by.

A walk is seen here as a trail: the branches it is in, each with the slots still
to be looked at and the slots through which it was reached, the entry it stands
at, and what it has shown so far.  `Trail.Step` is one step of a walk: a slot is
passed by, gone into or taken up as a chain, a branch is left, an entry is
shown, a link is followed.

A hash is ahead of a trail if the way of the hash goes through a slot still to
be looked at.  That depends on the trail alone and not on the trie, so writes
cannot change it, and it is how to tell what was shown from what will be:
nothing that was shown and nothing in the chain at hand is ahead, and no key in
the chain at hand was shown (`Tracks`).  A key that stays present was shown, is
in the chain at hand, or is ahead in a branch that is live (`Covers`): writes
may take the branch of another key away, but not one on the way of a key that
stays.

Main statements: steps of the walk and writes to the trie preserve `Tracks`
(`Tracks.step`, `Tracks.moves`) and, for a key that stays, `Covers`
(`Covers.step`, `Covers.moves`).
-/
import Mathlib.Logic.Relation
import NibbleTrie.Proofs.Evolution

namespace NibbleTrie

/-- A branch under a walk, with the slots through which it was reached. -/
structure Spot extends Frame where
  path : List Nibble

/-- Where a walk stands in a chain. -/
inductive Stand where
  /-- In no chain. -/
  | between
  /-- In front of an entry, which it will show next. -/
  | before (e : EntryId)
  /-- Behind an entry, whose link it will follow next. -/
  | after (e : EntryId)

/-- A walk, and what it has shown, first one first. -/
structure Trail (κ : Type u) (ν : Type v) where
  /-- The branches of the walk, innermost first. -/
  spots : List Spot
  stand : Stand
  shown : List (κ × ν)

/-- In front of an entry, if there is one. -/
def Stand.ofLink : Option EntryId → Stand
  | none => between
  | some e => before e

variable {κ : Type u} {ν : Type v}

/-- One step of a walk. -/
inductive Trail.Step (t : Trie κ ν) : Trail κ ν → Trail κ ν → Prop
  /-- An empty slot is passed by. -/
  | skip {b i rest p below shown} : t.slot b i = .empty →
      Step t ⟨⟨⟨b, i :: rest⟩, p⟩ :: below, .between, shown⟩
        ⟨⟨⟨b, rest⟩, p⟩ :: below, .between, shown⟩
  /-- The branch in a slot is gone into. -/
  | enter {b i rest p below shown c} : t.slot b i = .branch c →
      Step t ⟨⟨⟨b, i :: rest⟩, p⟩ :: below, .between, shown⟩
        ⟨⟨⟨c, allNibbles⟩, p ++ [i]⟩ :: ⟨⟨b, rest⟩, p⟩ :: below, .between, shown⟩
  /-- The chain in a slot is taken up. -/
  | take {b i rest p below shown e} : t.slot b i = .chain e →
      Step t ⟨⟨⟨b, i :: rest⟩, p⟩ :: below, .between, shown⟩
        ⟨⟨⟨b, rest⟩, p⟩ :: below, .before e, shown⟩
  /-- A branch without slots to be looked at is left. -/
  | leave {b p below shown} :
      Step t ⟨⟨⟨b, []⟩, p⟩ :: below, .between, shown⟩ ⟨below, .between, shown⟩
  /-- An entry is shown. -/
  | yield {spots shown e x} : t.entries[e]? = some x →
      Step t ⟨spots, .before e, shown⟩ ⟨spots, .after e, shown ++ [(x.key, x.value)]⟩
  /-- A link is followed. -/
  | follow {spots shown e} :
      Step t ⟨spots, .after e, shown⟩ ⟨spots, .ofLink (t.next? e), shown⟩

/-- The way of the hash `h` goes through one of the slots still to be looked at. -/
def Spot.Leads (s : Spot) (h : UInt64) : Prop := ∃ i ∈ s.rest, s.path ++ [i] <+: digits h

/-- The way of the hash `h` goes through a slot still to be looked at. -/
def Ahead (spots : List Spot) (h : UInt64) : Prop := ∃ s ∈ spots, s.Leads h

/-- A walk with these branches under it will come by the hash `h`, if the live ones stay. -/
def Coming (t : Trie κ ν) (spots : List Spot) (h : UInt64) : Prop :=
  ∃ s ∈ spots, t.isDead s.branch = false ∧ s.Leads h

/-- The branches under a walk hang below one another, each in a slot that is no longer to be
looked at, and are where they were reached as long as they are live. -/
inductive Stacked (t : Trie κ ν) : List Spot → Prop
  | nil : Stacked t []
  | cons {s below} : s.path.length = below.length → t.Stays s.path s.branch → s.rest.Nodup →
      (∀ s' ∈ below, ∃ i, s'.path ++ [i] <+: s.path ∧ i ∉ s'.rest) → Stacked t below →
      Stacked t (s :: below)

namespace Stand

/-- The entries of the chain at hand that are still to be shown. -/
def rest (t : Trie κ ν) : Stand → List EntryId
  | between => []
  | before e => t.chain e
  | after e => t.chainOf (t.next? e)

/-- The entry that a walk stands at is in the table. -/
def InTable (t : Trie κ ν) : Stand → Prop
  | between => True
  | before e | after e => e < t.entries.size

theorem InTable.mono {t t' : Trie κ ν} {stand : Stand} (hin : stand.InTable t)
    (hle : t.entries.size ≤ t'.entries.size) : stand.InTable t' := by
  cases stand with
  | between => trivial
  | before e => exact Nat.lt_of_lt_of_le hin hle
  | after e => exact Nat.lt_of_lt_of_le hin hle

theorem rest_ofLink (t : Trie κ ν) (n : Option EntryId) : (ofLink n).rest t = t.chainOf n := by
  cases n <;> rfl

/-- What is still to be shown is in the table. -/
theorem lt_of_mem_rest {t : Trie κ ν} (hf : t.Falling) {stand : Stand} (hin : stand.InTable t)
    {a : EntryId} (ha : a ∈ stand.rest t) : a < t.entries.size := by
  cases stand with
  | between => cases ha
  | before e => exact (Trie.linked_chain hf hin).lt_size a ha
  | after e => exact (Trie.linked_chainOf_next hf e).lt_size a ha

end Stand

/-! ## What is ahead -/

section Ahead
variable {t : Trie κ ν} {b : BranchId} {i : Nibble} {rest p : List Nibble} {below : List Spot}
  {h : UInt64}

theorem Spot.Leads.shorten (hl : Spot.Leads ⟨⟨b, rest⟩, p⟩ h) : Spot.Leads ⟨⟨b, i :: rest⟩, p⟩ h := by
  obtain ⟨j, hj, hpre⟩ := hl
  exact ⟨j, List.mem_cons_of_mem _ hj, hpre⟩

theorem ahead_cons {s : Spot} {spots : List Spot} :
    Ahead (s :: spots) h ↔ s.Leads h ∨ Ahead spots h := by
  simp only [Ahead, List.mem_cons, exists_eq_or_imp]

theorem Ahead.shorten (ha : Ahead (⟨⟨b, rest⟩, p⟩ :: below) h) :
    Ahead (⟨⟨b, i :: rest⟩, p⟩ :: below) h := by
  rcases ahead_cons.mp ha with hl | hbelow
  · exact ahead_cons.mpr (.inl hl.shorten)
  · exact ahead_cons.mpr (.inr hbelow)

/-- What is coming goes through the first slot of the innermost branch, or is coming without it. -/
theorem Coming.cases_slot (hc : Coming t (⟨⟨b, i :: rest⟩, p⟩ :: below) h) :
    (t.isDead b = false ∧ p ++ [i] <+: digits h) ∨ Coming t (⟨⟨b, rest⟩, p⟩ :: below) h := by
  obtain ⟨s, hs, hlive, j, hj, hpre⟩ := hc
  rcases List.mem_cons.mp hs with rfl | hs
  · rcases List.mem_cons.mp hj with rfl | hj
    · exact .inl ⟨hlive, hpre⟩
    · exact .inr ⟨_, List.mem_cons_self, hlive, j, hj, hpre⟩
  · exact .inr ⟨s, List.mem_cons_of_mem _ hs, hlive, j, hj, hpre⟩

theorem Stacked.shorten (hs : Stacked t (⟨⟨b, i :: rest⟩, p⟩ :: below)) :
    Stacked t (⟨⟨b, rest⟩, p⟩ :: below) := by
  cases hs with
  | cons hlen hstays hnodup hfork hbelow =>
    exact .cons hlen hstays (List.nodup_cons.mp hnodup).2 hfork hbelow

/-- What goes through a slot that was looked at is not ahead. -/
theorem Stacked.not_ahead (hs : Stacked t (⟨⟨b, rest⟩, p⟩ :: below)) (hi : i ∉ rest)
    (hpre : p ++ [i] <+: digits h) : ¬Ahead (⟨⟨b, rest⟩, p⟩ :: below) h := by
  intro ha
  cases hs with
  | cons _ _ _ hfork _ =>
    rcases ahead_cons.mp ha with ⟨j, hj, hpre'⟩ | ⟨s, hs, j, hj, hpre'⟩
    · obtain rfl : i = j :=
        (concat_prefix_digits.mp hpre).2.2.trans (concat_prefix_digits.mp hpre').2.2.symm
      exact hi hj
    · obtain ⟨j', hp, hj'⟩ := hfork s hs
      have hp' : s.path ++ [j'] <+: digits h := hp.trans ((List.prefix_append p [i]).trans hpre)
      obtain rfl : j = j' :=
        (concat_prefix_digits.mp hpre').2.2.trans (concat_prefix_digits.mp hp').2.2.symm
      exact hj' hj

/-- What is ahead in the branch of a slot goes through the slot. -/
theorem Spot.Leads.enter {c : BranchId} (hl : Spot.Leads ⟨⟨c, allNibbles⟩, p ++ [i]⟩ h) :
    p ++ [i] <+: digits h := by
  obtain ⟨j, _, hpre⟩ := hl
  exact (concat_prefix_digits.mp hpre).1

end Ahead

section Keyed
variable [BEq κ] {t t' : Trie κ ν} {path path' : BranchId → List Nibble} {hash : κ → UInt64}
  {T T' : Trail κ ν} {k : κ}

/-- What was shown does not come again. -/
structure Tracks (hash : κ → UInt64) (t : Trie κ ν) (T : Trail κ ν) : Prop where
  stacked : Stacked t T.spots
  inTable : T.stand.InTable t
  distinct : Content.Distinct T.shown
  shown_behind : ∀ e ∈ T.shown, ¬Ahead T.spots (hash e.1)
  chain_behind : ∀ a ∈ T.stand.rest t, ∀ x, t.entries[a]? = some x → ¬Ahead T.spots (hash x.key)
  chain_fresh : ∀ a ∈ T.stand.rest t, ∀ x, t.entries[a]? = some x →
    ∀ e ∈ T.shown, (e.1 == x.key) = false

/-- A key was shown, is in the chain at hand, or is ahead in a live branch. -/
def Covers (hash : κ → UInt64) (t : Trie κ ν) (T : Trail κ ν) (k : κ) : Prop :=
  (∃ e ∈ T.shown, (e.1 == k) = true) ∨
  (∃ a ∈ T.stand.rest t, ∃ x, t.entries[a]? = some x ∧ (x.key == k) = true) ∨
  Coming t T.spots (hash k)

/-! ## The beginning and the end -/

/-- The root of a trie, with all its slots still to be looked at. -/
def Spot.root : Spot := ⟨⟨Trie.root, allNibbles⟩, []⟩

theorem Tracks.start (L : Trie.Layout path t) : Tracks hash t ⟨[.root], .between, []⟩ where
  stacked := by
    refine .cons rfl ?_ (List.nodup_finRange 16) (fun _ h => absurd h List.not_mem_nil) .nil
    show t.Stays [] Trie.root
    rw [← L.root_path]
    exact L.stays L.root_live
  inTable := trivial
  distinct := List.Pairwise.nil
  shown_behind _ h := absurd h List.not_mem_nil
  chain_behind _ h := absurd h List.not_mem_nil
  chain_fresh _ h := absurd h List.not_mem_nil

theorem Covers.start (L : Trie.Layout path t) (k : κ) :
    Covers hash t ⟨[.root], .between, []⟩ k :=
  .inr (.inr ⟨_, List.mem_cons_self, L.root_live, _, List.mem_finRange _,
    concat_prefix_digits.mpr ⟨List.nil_prefix, by decide, rfl⟩⟩)

/-- At the end of a walk every key was shown that it covers. -/
theorem Covers.of_end {shown : List (κ × ν)} (C : Covers hash t ⟨[], .between, shown⟩ k) :
    ∃ e ∈ shown, (e.1 == k) = true := by
  rcases C with hshown | ⟨a, ha, _⟩ | ⟨s, hs, _⟩
  · exact hshown
  · cases ha
  · cases hs

/-! ## Steps of a walk -/

section Layout
variable (L : Trie.Layout path t)
include L

omit [BEq κ]

theorem Stacked.path_of_live {b : BranchId} {rest p : List Nibble} {below : List Spot}
    (hs : Stacked t (⟨⟨b, rest⟩, p⟩ :: below)) (hlive : t.isDead b = false) : path b = p := by
  cases hs with
  | cons _ hstays _ _ _ => exact hstays.path_eq L hlive

/-- The innermost branch, in a slot of which something is met, is where it was reached. -/
theorem Stacked.path_eq {b : BranchId} {i : Nibble} {rest p : List Nibble} {below : List Spot}
    (hs : Stacked t (⟨⟨b, rest⟩, p⟩ :: below)) (hslot : t.slot b i ≠ .empty) :
    t.isDead b = false ∧ path b = p :=
  ⟨L.live_of_slot hslot, hs.path_of_live L (L.live_of_slot hslot)⟩

theorem Stacked.enter {b c : BranchId} {i : Nibble} {rest p : List Nibble} {below : List Spot}
    (hs : Stacked t (⟨⟨b, i :: rest⟩, p⟩ :: below)) (hslot : t.slot b i = .branch c) :
    Stacked t (⟨⟨c, allNibbles⟩, p ++ [i]⟩ :: ⟨⟨b, rest⟩, p⟩ :: below) := by
  obtain ⟨_, rfl⟩ := hs.path_eq L (by rw [hslot]; simp)
  have hshort := hs.shorten
  cases hs with
  | cons hlen _ hnodup hfork _ =>
    refine .cons ?_ ?_ (List.nodup_finRange 16) ?_ hshort
    · simpa using hlen
    · show t.Stays (path b ++ [i]) c
      rw [← L.child_path hslot]
      exact L.stays (L.child_live hslot)
    · intro s hmem
      rcases List.mem_cons.mp hmem with rfl | hmem
      · exact ⟨i, List.prefix_refl _, (List.nodup_cons.mp hnodup).1⟩
      · obtain ⟨j, hp, hj⟩ := hfork s hmem
        exact ⟨j, hp.trans (List.prefix_append _ _), hj⟩

end Layout

section Step
variable (K : Trie.Keyed hash path t)
include K

/-- An entry that is shown was not shown before, and does not come again. -/
theorem Tracks.yield {spots : List Spot} {shown : List (κ × ν)} {e : EntryId} {x : Entry κ ν}
    (H : Tracks hash t ⟨spots, .before e, shown⟩) (hx : t.entries[e]? = some x) :
    Tracks hash t ⟨spots, .after e, shown ++ [(x.key, x.value)]⟩ := by
  have hlt : e < t.entries.size := H.inTable
  have hchain : t.chain e = e :: t.chainOf (t.next? e) := Trie.chain_eq_cons K.falling hlt
  have hmem : e ∈ t.chain e := Trie.mem_chain_self K.falling hlt
  have hsub : ∀ a ∈ t.chainOf (t.next? e), a ∈ t.chain e := by
    intro a ha
    rw [hchain]
    exact List.mem_cons_of_mem _ ha
  refine ⟨H.stacked, hlt, ?_, ?_, fun a ha => H.chain_behind a (hsub a ha), ?_⟩
  · refine List.pairwise_append.mpr ⟨H.distinct, List.pairwise_singleton _ _, ?_⟩
    intro a ha a' ha'
    rw [List.mem_singleton.mp ha']
    exact H.chain_fresh e hmem x hx a ha
  · intro a ha
    rcases List.mem_append.mp ha with ha | ha
    · exact H.shown_behind a ha
    · rw [List.mem_singleton.mp ha]
      exact H.chain_behind e hmem x hx
  · intro a ha y hy a' ha'
    rcases List.mem_append.mp ha' with ha' | ha'
    · exact H.chain_fresh a (hsub a ha) y hy a' ha'
    · have hpair := K.distinct hlt
      rw [hchain] at hpair
      rw [List.mem_singleton.mp ha']
      exact (List.pairwise_cons.mp hpair).1 a ha x y hx hy

variable (law : Lawful hash)
include law

/-- A chain that is taken up goes through a slot that was ahead until then. -/
theorem Tracks.take {b : BranchId} {i : Nibble} {rest p : List Nibble} {below : List Spot}
    {shown : List (κ × ν)} {head : EntryId}
    (H : Tracks hash t ⟨⟨⟨b, i :: rest⟩, p⟩ :: below, .between, shown⟩)
    (hslot : t.slot b i = .chain head) :
    Tracks hash t ⟨⟨⟨b, rest⟩, p⟩ :: below, .before head, shown⟩ := by
  obtain ⟨hstacked, _, hdistinct, hshown, _, _⟩ := H
  obtain ⟨_, rfl⟩ := hstacked.path_eq K.toLayout (by rw [hslot]; simp)
  have hi : i ∉ rest := by
    cases hstacked with
    | cons _ _ hnodup _ _ => exact (List.nodup_cons.mp hnodup).1
  have hway : ∀ a ∈ t.chain head, ∀ x, t.entries[a]? = some x →
      path b ++ [i] <+: digits (hash x.key) := by
    intro a ha x hx
    exact K.way (Trie.chainAt_of_chain hslot ▸ ha) hx
  refine ⟨hstacked.shorten, K.head_lt hslot, hdistinct, fun e he ha => hshown e he ha.shorten,
    fun a ha x hx => hstacked.shorten.not_ahead hi (hway a ha x hx), ?_⟩
  intro a ha x hx e he
  cases hk : e.1 == x.key with
  | false => rfl
  | true =>
    refine absurd (ahead_cons.mpr (.inl ⟨i, List.mem_cons_self, ?_⟩)) (hshown e he)
    rw [law.hash_eq hk]
    exact hway a ha x hx

/-- One step of a walk shows nothing again. -/
theorem Tracks.step (H : Tracks hash t T) (W : Trail.Step t T T') : Tracks hash t T' := by
  cases W with
  | skip hslot =>
    exact ⟨H.stacked.shorten, trivial, H.distinct, fun e he ha => H.shown_behind e he ha.shorten,
      fun _ ha => absurd ha List.not_mem_nil, fun _ ha => absurd ha List.not_mem_nil⟩
  | enter hslot =>
    refine ⟨H.stacked.enter K.toLayout hslot, trivial, H.distinct, fun e he ha => H.shown_behind e he ?_,
      fun _ ha => absurd ha List.not_mem_nil, fun _ ha => absurd ha List.not_mem_nil⟩
    rcases ahead_cons.mp ha with hl | ha
    · exact ahead_cons.mpr (.inl ⟨_, List.mem_cons_self, hl.enter⟩)
    · exact ha.shorten
  | take hslot => exact H.take K law hslot
  | leave =>
    refine ⟨?_, trivial, H.distinct,
      fun e he ha => H.shown_behind e he (ahead_cons.mpr (.inr ha)),
      fun _ ha => absurd ha List.not_mem_nil, fun _ ha => absurd ha List.not_mem_nil⟩
    cases H.stacked with
    | cons _ _ _ _ hbelow => exact hbelow
  | yield hx => exact H.yield K hx
  | @follow spots shown e =>
    refine ⟨H.stacked, ?_, H.distinct, H.shown_behind, ?_, ?_⟩
    · cases hn : t.next? e with
      | none => trivial
      | some n => exact K.falling.next_lt hn
    · rw [Stand.rest_ofLink]
      exact H.chain_behind
    · rw [Stand.rest_ofLink]
      exact H.chain_fresh

/-- A present key that is ahead is still ahead after a step, or is in the chain taken up. -/
theorem Covers.of_coming (hcoming : Coming t T.spots (hash k)) (H : Tracks hash t T)
    (hk : t.Present k) (W : Trail.Step t T T') : Covers hash t T' k := by
  have hstacked := H.stacked
  cases W with
  | skip hslot =>
    rcases hcoming.cases_slot with ⟨hlive, hpre⟩ | hcoming
    · obtain rfl := hstacked.path_of_live K.toLayout hlive
      exact absurd hslot (K.slot_ne_empty_of_present law hk hlive hpre)
    · exact .inr (.inr hcoming)
  | @enter b i rest p below shown c hslot =>
    right; right
    rcases hcoming.cases_slot with ⟨_, hpre⟩ | ⟨s, hs, hlive, hl⟩
    · obtain ⟨_, rfl⟩ := hstacked.path_eq K.toLayout (by rw [hslot]; simp)
      have hc := K.child_live hslot
      have hdepth := K.depth hc
      rw [K.child_path hslot] at hdepth
      exact ⟨_, List.mem_cons_self, hc, _, List.mem_finRange _,
        concat_prefix_digits.mpr ⟨hpre, hdepth, rfl⟩⟩
    · exact ⟨s, List.mem_cons_of_mem _ hs, hlive, hl⟩
  | @take b i rest p below shown head hslot =>
    rcases hcoming.cases_slot with ⟨hlive, hpre⟩ | hcoming
    · obtain rfl := hstacked.path_of_live K.toLayout hlive
      obtain ⟨e, x, he, hx, hxk⟩ := hk
      have hmem := K.mem_chainAt law (K.fits_of_way hlive hpre) (by rw [hslot]; rfl) he hx hxk
      rw [Trie.chainAt_of_chain hslot] at hmem
      exact .inr (.inl ⟨e, hmem, x, hx, hxk⟩)
    · exact .inr (.inr hcoming)
  | leave =>
    obtain ⟨s, hs, hlive, hl⟩ := hcoming
    rcases List.mem_cons.mp hs with rfl | hs
    · obtain ⟨j, hj, _⟩ := hl
      cases hj
    · exact .inr (.inr ⟨s, hs, hlive, hl⟩)
  | yield _ => exact .inr (.inr hcoming)
  | follow => exact .inr (.inr hcoming)

/-- One step of a walk passes no present key by. -/
theorem Covers.step (C : Covers hash t T k) (H : Tracks hash t T) (hk : t.Present k)
    (W : Trail.Step t T T') : Covers hash t T' k := by
  rcases C with hshown | hchain | hcoming
  · -- what was shown stays shown
    left
    cases W with
    | yield _ =>
      obtain ⟨e, he, hek⟩ := hshown
      exact ⟨e, List.mem_append_left _ he, hek⟩
    | _ => exact hshown
  · obtain ⟨a, ha, x, hx, hxk⟩ := hchain
    cases W with
    | @yield spots shown e y hy =>
      rw [Stand.rest, Trie.chain_eq_cons K.falling H.inTable] at ha
      rcases List.mem_cons.mp ha with rfl | ha
      · cases hx.symm.trans hy
        exact .inl ⟨_, List.mem_append_right _ List.mem_cons_self, hxk⟩
      · exact .inr (.inl ⟨a, ha, x, hx, hxk⟩)
    | follow =>
      refine .inr (.inl ⟨a, ?_, x, hx, hxk⟩)
      rw [Stand.rest_ofLink]
      exact ha
    | _ => cases ha
  · exact Covers.of_coming K law hcoming H hk W

end Step

/-! ## Writes to the trie -/

section Moves
variable {gone : Option EntryId} {new : Option (κ × ν)}

omit [BEq κ] in
/-- A write leaves the chain at hand, or exchanges one entry in it. -/
theorem Stand.rest_write (L : Trie.Layout path t) (W : Trie.Write path path' t t' gone new)
    {stand : Stand} (hin : stand.InTable t) :
    stand.rest t' = stand.rest t ∨ ∃ a ∈ gone, ∃ m l,
      stand.rest t = m ++ a :: l ∧ stand.rest t' = m ++ ((t.fresh new).toList ++ l) := by
  cases stand with
  | between => exact .inl rfl
  | before e =>
    rcases W.stale e hin with hsame | ⟨a, ha, m, l, _, hold, hnew⟩
    · exact .inl hsame
    · exact .inr ⟨a, ha, m, l, hold, hnew⟩
  | after e =>
    have hin' := Nat.lt_of_lt_of_le hin W.keeps.size_le
    have hchain : t.chain e = e :: t.chainOf (t.next? e) := Trie.chain_eq_cons L.falling hin
    have hchain' : t'.chain e = e :: t'.chainOf (t'.next? e) :=
      Trie.chain_eq_cons W.layout.falling hin'
    rcases W.stale e hin with hsame | ⟨a, ha, m, l, hm, hold, hnew⟩
    · rw [hchain, hchain', List.cons.injEq] at hsame
      exact .inl hsame.2
    · -- the entry behind which the walk stands is not the one that is exchanged
      obtain ⟨e', m, rfl⟩ := List.exists_cons_of_ne_nil hm
      rw [hchain, List.cons_append, List.cons.injEq] at hold
      rw [hchain', List.cons_append, List.cons.injEq] at hnew
      exact .inr ⟨a, ha, m, l, hold.2, hnew.2⟩

/-- After a write every key in the chain at hand was in it before, born at the same time. -/
theorem Stand.key_before [EquivBEq κ] (K : Trie.Keyed hash path t)
    (S : Trie.Step hash path path' t t' gone new) {stand : Stand} (hin : stand.InTable t)
    {a : EntryId} {x : Entry κ ν} (ha : a ∈ stand.rest t') (hx : t'.entries[a]? = some x) :
    ∃ b ∈ stand.rest t, ∃ y, t.entries[b]? = some y ∧ (y.key == x.key) = true ∧
      y.birth = x.birth := by
  have hlt : ∀ b ∈ stand.rest t, b < t.entries.size := fun b hb =>
    Stand.lt_of_mem_rest K.falling hin hb
  have keep : a ∈ stand.rest t → ∃ b ∈ stand.rest t, ∃ y, t.entries[b]? = some y ∧
      (y.key == x.key) = true ∧ y.birth = x.birth := by
    intro hmem
    obtain ⟨y, hy⟩ := Trie.entry_of_lt (hlt a hmem)
    obtain ⟨n, hn⟩ := S.keeps.entry hy
    cases hx.symm.trans hn
    exact ⟨a, hmem, y, hy, BEq.rfl, rfl⟩
  rcases Stand.rest_write K.toLayout S.toWrite hin with hsame | ⟨g, hg, m, l, hold, hnew⟩
  · exact keep (hsame ▸ ha)
  · rw [hnew] at ha
    rcases List.mem_append.mp ha with hm | ha
    · exact keep (by rw [hold]; exact List.mem_append_left _ hm)
    rcases List.mem_append.mp ha with hf | hl
    · -- the fresh entry has the key of the one that goes, and its birth
      have hf := Option.mem_toList.mp hf
      obtain ⟨item, hitem, hkey⟩ := Trie.key_of_mem_fresh S.item hf hx
      have hmem : g ∈ stand.rest t := by rw [hold]; simp
      obtain ⟨y, hy⟩ := Trie.entry_of_lt (hlt g hmem)
      have hbirth := S.birth a hf
      rw [Trie.birth_of_entry hx, Option.mem_def.mp hg] at hbirth
      refine ⟨g, hmem, y, hy, ?_, (Trie.birth_of_entry hy).symm.trans hbirth.symm⟩
      rw [hkey]
      exact S.key g hg item hitem y hy
    · exact keep (by rw [hold]; exact List.mem_append_right _ (List.mem_cons_of_mem _ hl))

/-- A key in the chain at hand stays in it, if it is present after the write. -/
theorem Stand.key_after [EquivBEq κ] (law : Lawful hash) (K : Trie.Keyed hash path t)
    (S : Trie.Step hash path path' t t' gone new) {stand : Stand} (hin : stand.InTable t)
    (hk : t'.Present k) {a : EntryId} {x : Entry κ ν} (ha : a ∈ stand.rest t)
    (hx : t.entries[a]? = some x) (hxk : (x.key == k) = true) :
    ∃ b ∈ stand.rest t', ∃ y, t'.entries[b]? = some y ∧ (y.key == k) = true := by
  have keep : a ∈ stand.rest t' →
      ∃ b ∈ stand.rest t', ∃ y, t'.entries[b]? = some y ∧ (y.key == k) = true := by
    intro hmem
    obtain ⟨n, hn⟩ := S.keeps.entry hx
    exact ⟨a, hmem, _, hn, hxk⟩
  rcases Stand.rest_write K.toLayout S.toWrite hin with hsame | ⟨g, hg, m, l, hold, hnew⟩
  · exact keep (hsame ▸ ha)
  rw [hold] at ha
  rcases List.mem_append.mp ha with hm | ha
  · exact keep (by rw [hnew]; exact List.mem_append_left _ hm)
  rcases List.mem_cons.mp ha with rfl | hl
  · -- the entry goes, and the key is present because of the fresh one
    obtain ⟨e, y, hlive, hy, hyk⟩ := hk
    rcases (S.live e).mp hlive with ⟨hold', hne⟩ | hf
    · obtain ⟨z, hz, hzy, _⟩ := S.keeps.entry_of_lt (K.lt_of_live hold') hy
      have hzk : (z.key == x.key) = true := by
        rw [← hzy]
        exact BEq.trans hyk (BEq.symm hxk)
      exact absurd (K.eq_of_live law hold' (S.gone_live a hg) hz hx hzk ▸ hg) hne
    · refine ⟨e, ?_, y, hy, hyk⟩
      rw [hnew]
      simp [Option.mem_toList.mpr hf]
  · exact keep (by rw [hnew]; exact List.mem_append_right _ (List.mem_append_right _ hl))

omit [BEq κ] in
theorem Stacked.stays {spots : List Spot} (hs : Stacked t spots) :
    ∀ s ∈ spots, t.Stays s.path s.branch := by
  induction hs with
  | nil => exact fun _ h => absurd h List.not_mem_nil
  | cons _ hstays _ _ _ ih =>
    intro s hmem
    rcases List.mem_cons.mp hmem with rfl | hmem
    · exact hstays
    · exact ih s hmem

omit [BEq κ] in
theorem Stacked.write {spots : List Spot} (hs : Stacked t spots) (L : Trie.Layout path t)
    (W : Trie.Write path path' t t' gone new) : Stacked t' spots := by
  induction hs with
  | nil => exact .nil
  | cons hlen hstays hnodup hfork _ ih => exact .cons hlen (hstays.write L W) hnodup hfork ih

variable [EquivBEq κ] (law : Lawful hash)
include law

/-- A write lets nothing come again that was shown. -/
theorem Tracks.moves (H : Tracks hash t T) (M : Trie.Moves hash t t') : Tracks hash t' T := by
  rcases M with rfl | ⟨path, path', gone, new, K, S⟩
  · exact H
  · refine ⟨H.stacked.write K.toLayout S.toWrite, H.inTable.mono S.keeps.size_le, H.distinct,
      H.shown_behind, ?_, ?_⟩
    · intro a ha x hx
      obtain ⟨b, hb, y, hy, hyx, _⟩ := Stand.key_before K S H.inTable ha hx
      rw [← law.hash_eq hyx]
      exact H.chain_behind b hb y hy
    · intro a ha x hx e he
      obtain ⟨b, hb, y, hy, hyx, _⟩ := Stand.key_before K S H.inTable ha hx
      rw [← BEq.congr_right hyx]
      exact H.chain_fresh b hb y hy e he

/-- A write takes no key out of a walk that stays present. -/
theorem Covers.moves (C : Covers hash t T k) (H : Tracks hash t T) (M : Trie.Moves hash t t')
    (hk : t'.Present k) : Covers hash t' T k := by
  rcases M with rfl | ⟨path, path', gone, new, K, S⟩
  · exact C
  · rcases C with hshown | ⟨a, ha, x, hx, hxk⟩ | ⟨s, hs, hlive, i, hi, hpre⟩
    · exact .inl hshown
    · exact .inr (.inl (Stand.key_after law K S H.inTable hk ha hx hxk))
    · refine .inr (.inr ⟨s, hs, ?_, i, hi, hpre⟩)
      obtain ⟨e, x, he, hx, hxk⟩ := hk
      refine S.spared hlive he hx ?_
      rw [law.hash_eq hxk, (H.stacked.stays s hs).path_eq K.toLayout hlive]
      exact (concat_prefix_digits.mp hpre).1

theorem Tracks.evolves (H : Tracks hash t T) (E : Trie.Evolves hash t t') : Tracks hash t' T :=
  E.induct (P := fun u => Tracks hash u T) (fun M h => h.moves law M) H

theorem Covers.evolves (C : Covers hash t T k) (H : Tracks hash t T) (E : Trie.Evolves hash t t')
    (hk : t.Present k) (hk' : t'.Present k) : Covers hash t' T k :=
  (E.induct_present (P := fun u => Tracks hash u T ∧ Covers hash u T k)
    (fun M _ hk h => ⟨h.1.moves law M, h.2.moves law h.1 M hk⟩) ⟨H, C⟩ hk hk').2

end Moves

end Keyed

end NibbleTrie
