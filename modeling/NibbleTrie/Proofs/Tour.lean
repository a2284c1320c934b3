/-
Walks under mutation.

A walk is taken while the map changes: by a cursor, with any number of changes
between two of its steps, or by a sweep, whose callback changes the map.  A
`Journal` keeps what happened since the walk began: the moments that came about
and the entries that were shown.  Both kinds of walk are the steps of a trail on
the trie of one generation, with changes in between (`Follows`).

A walk stays on the generation on which it began.  A clearing leaves a moment in
which the map has no key at all, so while a key is there at every moment the
generation of the walk is the current one.

A cursor may show a part of each entry alone, its key or its value.  It shows the
parts of what a cursor in its place would have shown (`ShowsPart.exists_shown`).

Main statement: a walk to its end shows every key once that was there all the
time, and no key twice (`walks_complete`).
-/
import NibbleTrie.Proofs.Moment
import NibbleTrie.Proofs.Walk

namespace NibbleTrie

variable {κ : Type u} {ν : Type v}

/-- What happened since a walk began. -/
structure Journal (κ : Type u) (ν : Type v) where
  now : Moment κ ν
  /-- The moments since the walk began, last one first; the present one is among them. -/
  past : List (Moment κ ν)
  /-- The entries that were shown, first one first. -/
  shown : List (κ × ν)

namespace Journal

/-- The beginning of a walk. -/
def start (s : Moment κ ν) : Journal κ ν := ⟨s, [s], []⟩

/-- An entry is shown. -/
def record (J : Journal κ ν) (item : κ × ν) : Journal κ ν := { J with shown := J.shown ++ [item] }

/-- How often a key was shown. -/
def times [BEq κ] (J : Journal κ ν) (k : κ) : Nat := J.shown.countP fun e => e.1 == k

/-- The key was there in every moment since the walk began. -/
def Stayed [BEq κ] (J : Journal κ ν) (k : κ) : Prop := ∀ s ∈ J.past, s.map.Has k

variable [BEq κ] [BEq ν]

/-- Something happens to the map. -/
inductive Step : Journal κ ν → Journal κ ν → Prop
  | pass {J s} : Moment.Step J.now s → Step J ⟨s, s :: J.past, J.shown⟩

/-- An operation runs to its end. -/
def apply (J : Journal κ ν) (op : Op κ ν) : Journal κ ν :=
  let s : Moment κ ν := ⟨(J.now.map.apply op).state, J.now.pending⟩
  ⟨s, s :: J.past, J.shown⟩

theorem step_apply {J : Journal κ ν} (h : J.now.pending = []) (op : Op κ ν) :
    Step J (J.apply op) := by
  refine .pass (.apply op ?_)
  rw [h]
  exact fun h => absurd h List.not_mem_nil

end Journal

/-- A walk of the generation `g` is where the trail says, and its journal is right. -/
structure Follows [BEq κ] [BEq ν] (hash : κ → UInt64) (g : Nat) (J : Journal κ ν)
    (spots : List Spot) (stand : Stand) : Prop where
  reachable : Moment.Reachable hash J.now
  generation_le : g ≤ J.now.map.generation
  now_mem : J.now ∈ J.past
  tracks : Tracks hash (J.now.map.trieAt g) ⟨spots, stand, J.shown⟩
  covers : ∀ k, J.Stayed k → J.now.map.generation = g ∧
    Covers hash (J.now.map.trieAt g) ⟨spots, stand, J.shown⟩ k

namespace Follows

variable [BEq κ] [EquivBEq κ] [BEq ν] {hash : κ → UInt64} {g : Nat} {J J' : Journal κ ν}
  {spots spots' : List Spot} {stand stand' : Stand} (law : Lawful hash)
include law

theorem keyed (F : Follows hash g J spots stand) :
    ∃ path, Trie.Keyed hash path (J.now.map.trieAt g) := by
  obtain ⟨path, K⟩ := (F.reachable.good law).sound.keyed g F.generation_le
  exact ⟨path, F.reachable.hash_eq law ▸ K⟩

theorem start {s : Moment κ ν} (h : Moment.Reachable hash s) :
    Follows hash s.map.generation (.start s) [.root] .between := by
  obtain ⟨path, L⟩ := (h.good law).sound.layout (Nat.le_refl _)
  exact ⟨h, Nat.le_refl _, List.mem_cons_self, Tracks.start L, fun k _ => ⟨rfl, Covers.start L k⟩⟩

theorem evolves (F : Follows hash g J spots stand) (h : Journal.Step J J') :
    Trie.Evolves hash (J.now.map.trieAt g) (J'.now.map.trieAt g) := by
  cases h with
  | pass h =>
    have E := (h.evolves (F.reachable.good law)).tries g F.generation_le
    rw [F.reachable.hash_eq law] at E
    exact E

/-- A change of the map leaves a walk where it is. -/
theorem pass (F : Follows hash g J spots stand) (h : Journal.Step J J') :
    Follows hash g J' spots stand := by
  have Eg := F.evolves law h
  cases h with
  | @pass s h =>
    have G := F.reachable.good law
    have E := h.evolves G
    refine ⟨F.reachable.step h, Nat.le_trans F.generation_le E.generation_le, List.mem_cons_self,
      F.tracks.evolves law Eg, fun k hk => ?_⟩
    have hnow : s.map.Has k := hk s List.mem_cons_self
    obtain ⟨hgen, C⟩ := F.covers k fun m hm => hk m (List.mem_cons_of_mem _ hm)
    -- a new generation begins without the key
    have hsame : s.map.generation = g := by
      rcases Nat.lt_or_eq_of_le E.generation_le with hlt | heq
      · obtain ⟨e, he, _⟩ := hnow
        rw [E.cleared hlt] at he
        cases he
      · rw [← heq, hgen]
    refine ⟨hsame, C.evolves law F.tracks Eg ?_ ?_⟩
    · rw [← hgen, TrieMap.trieAt_generation, ← G.sound.has_iff]
      exact hk J.now (List.mem_cons_of_mem _ F.now_mem)
    · rw [← hsame, TrieMap.trieAt_generation, ← E.sound.has_iff]
      exact hnow

/-- Changes of the map leave a walk where it is, and the keys and values of entries. -/
theorem passes (F : Follows hash g J spots stand)
    (h : Relation.ReflTransGen Journal.Step J J') :
    Follows hash g J' spots stand ∧
      (J.now.map.trieAt g).Keeps (J'.now.map.trieAt g) := by
  induction h with
  | refl => exact ⟨F, .refl _⟩
  | tail _ h ih => exact ⟨ih.1.pass law h, ih.2.trans (ih.1.evolves law h).keeps⟩

/-- A step of the walk. -/
theorem step {shown : List (κ × ν)} (F : Follows hash g J spots stand)
    (h : Trail.Step (J.now.map.trieAt g) ⟨spots, stand, J.shown⟩ ⟨spots', stand', shown⟩) :
    Follows hash g { J with shown := shown } spots' stand' := by
  obtain ⟨path, K⟩ := F.keyed law
  refine ⟨F.reachable, F.generation_le, F.now_mem, F.tracks.step K law h, fun k hk => ?_⟩
  obtain ⟨hgen, C⟩ := F.covers k hk
  refine ⟨hgen, C.step K law F.tracks ?_ h⟩
  rw [← hgen, TrieMap.trieAt_generation, ← (F.reachable.good law).sound.has_iff]
  exact hk J.now F.now_mem

/-- Quiet steps of the walk. -/
theorem steps {p : Place} (F : Follows hash g J spots stand)
    (h : Relation.ReflTransGen (Quiet (J.now.map.trieAt g)) ⟨spots, stand⟩ p) :
    Follows hash g J p.spots p.stand := by
  induction h with
  | refl => exact F
  | tail _ h ih => exact ih.step law (h J.shown)

end Follows

/-! ## Cursors -/

/-- A step of a cursor shows the next entry, or the cursor is at its end. -/
theorem Follows.next [BEq κ] [EquivBEq κ] [BEq ν] {hash : κ → UInt64} {g : Nat}
    {J : Journal κ ν} {spots : List Spot} {stand : Stand} (law : Lawful hash) {c : Cursor}
    (F : Follows hash g J spots stand) (hc : c.Matches spots stand) :
    (∃ item c' spots' stand', c.next (J.now.map.trieAt g) = (some item, c') ∧
      c'.Matches spots' stand' ∧ Follows hash g (J.record item) spots' stand') ∨
    (c.next (J.now.map.trieAt g) = (none, ⟨[], none⟩) ∧ Follows hash g J [] .between) := by
  obtain ⟨path, K⟩ := F.keyed law
  rcases c.next_cases K.toLayout hc F.tracks.stacked F.tracks.inTable with
    ⟨e, x, spots', _, hx, hsteps, hnext⟩ | ⟨_, hsteps, hnext⟩
  · have F' := ((F.steps law hsteps).step law (.yield hx)).step law .follow
    rw [Trie.next?_of_entry hx] at F'
    exact .inl ⟨_, _, spots', _, hnext, ⟨rfl, rfl⟩, F'⟩
  · exact .inr ⟨hnext, F.steps law hsteps⟩

/-- A cursor on a trie of a map, and what happened since it began. -/
structure Iteration (κ : Type u) (ν : Type v) where
  journal : Journal κ ν
  /-- The generation that is current when the cursor begins. -/
  generation : Nat
  cursor : Cursor

namespace Iteration

/-- What the next step of the cursor shows, and the cursor after it. -/
def next (w : Iteration κ ν) : Option (κ × ν) × Cursor :=
  w.cursor.next (w.journal.now.map.trieAt w.generation)

variable [BEq κ] [BEq ν]

/-- A cursor begins in a moment that can come about; then the map changes and the cursor takes
steps in any order. -/
inductive Reachable (hash : κ → UInt64) : Iteration κ ν → Prop
  | start {s} : Moment.Reachable hash s → Reachable hash ⟨.start s, s.map.generation, .start⟩
  | pass {w J} : Reachable hash w → Journal.Step w.journal J →
      Reachable hash { w with journal := J }
  | next {w item c} : Reachable hash w → w.next = (some item, c) →
      Reachable hash { w with journal := w.journal.record item, cursor := c }

theorem Reachable.follows [EquivBEq κ] {hash : κ → UInt64} (law : Lawful hash) {w : Iteration κ ν}
    (h : Reachable hash w) : ∃ spots stand, w.cursor.Matches spots stand ∧
      Follows hash w.generation w.journal spots stand := by
  induction h with
  | start h => exact ⟨[.root], .between, ⟨rfl, rfl⟩, .start law h⟩
  | pass _ hstep ih =>
    obtain ⟨spots, stand, hc, F⟩ := ih
    exact ⟨spots, stand, hc, F.pass law hstep⟩
  | @next w item c _ hnext ih =>
    obtain ⟨spots, stand, hc, F⟩ := ih
    rcases F.next law hc with ⟨item', c', spots', stand', heq, hc', F'⟩ | ⟨heq, _⟩
    · cases hnext.symm.trans heq
      exact ⟨spots', stand', hc', F'⟩
    · cases hnext.symm.trans heq

end Iteration

/-! ## Cursors that show parts of entries -/

namespace Iteration

section Parts
variable {ρ : Type x} {part : κ × ν → ρ} {w : Iteration κ ν} {r : ρ} {c : Cursor}

/-- What the next step shows if the cursor shows a part of each entry, and the cursor after it. -/
def nextPart (part : κ × ν → ρ) (w : Iteration κ ν) : Option ρ × Cursor :=
  w.cursor.nextPart (w.journal.now.map.trieAt w.generation) part

/-- The cursor where it is, with these entries in its journal as what was shown. -/
def noted (w : Iteration κ ν) (shown : List (κ × ν)) : Iteration κ ν :=
  { w with journal := { w.journal with shown } }

/-- A part that is shown is the part of the entry that comes next. -/
theorem next_of_nextPart (h : w.nextPart part = (some r, c)) (shown : List (κ × ν)) :
    ∃ item, (w.noted shown).next = (some item, c) ∧ part item = r := by
  have hpart : ((w.noted shown).next.1.map part, (w.noted shown).next.2) = (some r, c) := h
  obtain ⟨hitem, hc⟩ := Prod.mk.inj hpart
  obtain ⟨item, hitem, hr⟩ := Option.map_eq_some_iff.mp hitem
  exact ⟨item, Prod.ext hitem hc, hr⟩

/-- If no part is shown, there is no entry any more. -/
theorem next_of_nextPart_none (h : w.nextPart part = (none, c)) (shown : List (κ × ν)) :
    (w.noted shown).next = (none, c) := by
  have hpart : ((w.noted shown).next.1.map part, (w.noted shown).next.2) = (none, c) := h
  obtain ⟨hitem, hc⟩ := Prod.mk.inj hpart
  exact Prod.ext (Option.map_eq_none_iff.mp hitem) hc

end Parts

variable [BEq κ] [BEq ν] {ρ : Type x}

/-- A cursor that shows a part of each entry has come to where it is and has shown the parts `ps`.
Its journal is told of no entry. -/
inductive ShowsPart (hash : κ → UInt64) (part : κ × ν → ρ) : Iteration κ ν → List ρ → Prop
  | start {s} : Moment.Reachable hash s →
      ShowsPart hash part ⟨.start s, s.map.generation, .start⟩ []
  | pass {w ps J} : ShowsPart hash part w ps → Journal.Step w.journal J →
      ShowsPart hash part { w with journal := J } ps
  | next {w ps r c} : ShowsPart hash part w ps → w.nextPart part = (some r, c) →
      ShowsPart hash part { w with cursor := c } (ps ++ [r])

/-- The parts are those of the entries that a cursor shows that takes the same steps. -/
theorem ShowsPart.exists_shown {hash : κ → UInt64} {part : κ × ν → ρ} {w : Iteration κ ν}
    {ps : List ρ} (h : ShowsPart hash part w ps) :
    ∃ shown, shown.map part = ps ∧ (w.noted shown).Reachable hash := by
  induction h with
  | start h => exact ⟨[], rfl, .start h⟩
  | pass _ hstep ih =>
    obtain ⟨shown, hps, R⟩ := ih
    cases hstep with
    | pass hstep => exact ⟨shown, hps, R.pass (.pass hstep)⟩
  | next _ hnext ih =>
    obtain ⟨shown, rfl, R⟩ := ih
    obtain ⟨item, hitem, rfl⟩ := next_of_nextPart hnext shown
    exact ⟨shown ++ [item], List.map_append, R.next hitem⟩

end Iteration

/-! ## Sweeps -/

section Sweep
variable {σ : Type w} [BEq κ] [BEq ν] {hash : κ → UInt64} {g : Nat} {journal : σ → Journal κ ν}
  {f : κ → ν → σ → Bool × σ}

/-- The callback lets the sweep go on; before that it changes the map in any way. -/
def LetsGoOn (journal : σ → Journal κ ν) (f : κ → ν → σ → Bool × σ) : Prop :=
  ∀ k v s, ∃ s', f k v s = (true, s') ∧
    Relation.ReflTransGen Journal.Step ((journal s).record (k, v)) (journal s')

/-- The trie of a generation, as it is now. -/
def viewOf (journal : σ → Journal κ ν) (g : Nat) (s : σ) : Trie κ ν :=
  (journal s).now.map.trieAt g

variable [EquivBEq κ]

/-- A sweep whose callback lets it go on carries its place along. -/
theorem follows_carries (law : Lawful hash) (hf : LetsGoOn journal f) :
    Carries (viewOf journal g) (fun _ => f)
      (fun s p => Follows hash g (journal s) p.spots p.stand) fun _ => False where
  layout F := by
    obtain ⟨path, K⟩ := F.keyed law
    exact ⟨path, K.toLayout⟩
  stacked F := F.tracks.stacked
  inTable F := F.tracks.inTable
  quiet F h := F.step law (h _)
  keeps {s e spots x} F hx := by
    obtain ⟨s', hcall, hsteps⟩ := hf x.key x.value s
    rw [hcall]
    exact ((F.step law (.yield hx)).passes law hsteps).2
  shows {s e spots x} F hx := by
    obtain ⟨s', hcall, hsteps⟩ := hf x.key x.value s
    rw [hcall]
    exact ((F.step law (.yield hx)).passes law hsteps).1

/-- A sweep is the steps of a walk to its end. -/
theorem sweep_follows (law : Lawful hash) (hf : LetsGoOn journal f) {s : σ}
    (F : Follows hash g (journal s) [.root] .between) :
    Follows hash g (journal (Trie.sweep (viewOf journal g) f s)) [] .between := by
  have h := (follows_carries law hf).sweep F
  have forgets : Trie.Forgets id (fun _ => f) f := fun _ _ _ _ => rfl
  have heq : Trie.sweep (viewOf journal g) f s =
      (Trie.sweepWith (viewOf journal g) (fun _ => f) s).2 := Trie.sweep_eq forgets s
  rw [heq]
  cases hr : Trie.sweepWith (viewOf journal g) (fun _ => f) s with
  | mk go s' =>
    rw [hr] at h
    cases go with
    | true => exact h
    | false => exact h.elim

end Sweep

/-! ## Both kinds of walk -/

section Once
variable [BEq κ] [EquivBEq κ] [BEq ν] {hash : κ → UInt64} {g : Nat} {J : Journal κ ν}
  {spots : List Spot} {stand : Stand}

/-- A walk shows no key twice. -/
theorem Follows.times_le_one (F : Follows hash g J spots stand) (k : κ) : J.times k ≤ 1 :=
  F.tracks.distinct.countP_le_one k

/-- At the end of a walk a key was shown that was there all the time. -/
theorem Follows.times_eq_one (F : Follows hash g J [] .between) {k : κ} (hk : J.Stayed k) :
    J.times k = 1 := by
  obtain ⟨e, he, hek⟩ := (F.covers k hk).2.of_end
  have hpos : 0 < J.times k := List.countP_pos_iff.mpr ⟨e, he, hek⟩
  exact Nat.le_antisymm (F.times_le_one k) hpos

/-- A cursor shows no key twice. -/
theorem Iteration.Reachable.times_le_one (law : Lawful hash) {w : Iteration κ ν}
    (h : w.Reachable hash) (k : κ) : w.journal.times k ≤ 1 := by
  obtain ⟨_, _, _, F⟩ := h.follows law
  exact F.times_le_one k

/-- A cursor at its end has shown every key once that was there all the time, and it is there for
good. -/
theorem Iteration.Reachable.at_end (law : Lawful hash) {w : Iteration κ ν}
    (h : w.Reachable hash) {c : Cursor} (hend : w.next = (none, c)) :
    (∀ k, w.journal.Stayed k → w.journal.times k = 1) ∧ c = ⟨[], none⟩ := by
  obtain ⟨spots, stand, hc, F⟩ := h.follows law
  rcases F.next law hc with ⟨item, c', _, _, heq, _, _⟩ | ⟨heq, F'⟩
  · cases hend.symm.trans heq
  · cases hend.symm.trans heq
    exact ⟨fun k hk => F'.times_eq_one hk, rfl⟩

/-- Walks under mutation.  A cursor, with any changes of the map between its steps, shows no key
twice; when it is at its end it has shown every key once that was there all the time, and it stays
at its end, whatever the trie becomes.  A cursor that shows a part of each entry, in the same
circumstances, shows the parts of what a cursor shows that shows entries, and is at its end when
that one is; so one that shows keys shows no key twice, and at its end every key once that was
there all the time.  A sweep whose callback lets it go on, and changes the map in any way, shows no
key twice, and every key once that was there all the time. -/
theorem walks_complete (law : Lawful hash) :
    (∀ w : Iteration κ ν, w.Reachable hash → (∀ k, w.journal.times k ≤ 1) ∧
      ∀ c, w.next = (none, c) → (∀ k, w.journal.Stayed k → w.journal.times k = 1) ∧
        ∀ t : Trie κ ν, c.next t = (none, c)) ∧
    (∀ {ρ : Type x} (part : κ × ν → ρ) (w : Iteration κ ν) (ps : List ρ),
      w.ShowsPart hash part ps → ∃ shown, shown.map part = ps ∧ (w.noted shown).Reachable hash ∧
        (∀ k, (w.noted shown).journal.times k ≤ 1) ∧
        ∀ c, w.nextPart part = (none, c) →
          (∀ k, w.journal.Stayed k → (w.noted shown).journal.times k = 1) ∧
          ∀ t : Trie κ ν, c.nextPart t part = (none, c)) ∧
    (∀ (w : Iteration κ ν) (ks : List κ), w.ShowsPart hash Prod.fst ks →
      (∀ k, ks.countP (· == k) ≤ 1) ∧ ∀ c, w.nextPart Prod.fst = (none, c) →
        ∀ k, w.journal.Stayed k → ks.countP (· == k) = 1) ∧
    ∀ {σ : Type w} (journal : σ → Journal κ ν) (f : κ → ν → σ → Bool × σ) (s : σ)
      (m : Moment κ ν), Moment.Reachable hash m → journal s = .start m → LetsGoOn journal f →
        let J := journal (Trie.sweep (viewOf journal m.map.generation) f s)
        (∀ k, J.times k ≤ 1) ∧ ∀ k, J.Stayed k → J.times k = 1 := by
  refine ⟨?_, ?_, ?_, ?_⟩
  · intro w hw
    refine ⟨hw.times_le_one law, fun c hend => ?_⟩
    obtain ⟨honce, rfl⟩ := hw.at_end law hend
    exact ⟨honce, Cursor.next_end⟩
  · intro ρ part w ps hw
    obtain ⟨shown, hps, R⟩ := hw.exists_shown
    refine ⟨shown, hps, R, R.times_le_one law, fun c hend => ?_⟩
    obtain ⟨honce, rfl⟩ := R.at_end law (Iteration.next_of_nextPart_none hend shown)
    exact ⟨honce, fun _ => rfl⟩
  · intro w ks hw
    obtain ⟨shown, rfl, R⟩ := hw.exists_shown
    have htimes : ∀ k, (shown.map Prod.fst).countP (· == k) = (w.noted shown).journal.times k :=
      fun k => List.countP_map
    refine ⟨fun k => ?_, fun c hend k hk => ?_⟩
    · rw [htimes]
      exact R.times_le_one law k
    · rw [htimes]
      exact (R.at_end law (Iteration.next_of_nextPart_none hend shown)).1 k hk
  · intro σ journal f s m hm hstart hf
    have F := Follows.start law hm
    rw [← hstart] at F
    have F' := sweep_follows law hf F
    exact ⟨F'.times_le_one, fun k hk => F'.times_eq_one hk⟩

/-- A walk of two keys to its end; between its steps the value of the second one is replaced. -/
def twoKeysWalk : Iteration Nat Nat :=
  ⟨(((Journal.start ⟨twoKeys, []⟩).record (1, 5)).apply (.swap 2 20)).record (2, 10), 0,
    ⟨[⟨Trie.root, allNibbles.tail⟩], none⟩⟩

theorem reachable_twoKeysWalk : twoKeysWalk.Reachable fun _ => 0 := by
  have h₀ : Iteration.Reachable (fun _ => 0) ⟨.start ⟨twoKeys, []⟩, 0, .start⟩ :=
    .start reachable_twoKeys
  have h₁ : Iteration.Reachable (fun _ => 0) ⟨(Journal.start ⟨twoKeys, []⟩).record (1, 5), 0,
      ⟨[⟨Trie.root, allNibbles.tail⟩], some 0⟩⟩ := h₀.next rfl
  have h₂ := h₁.pass (Journal.step_apply rfl (.swap 2 20))
  exact h₂.next rfl

/-- A walk in the same circumstances that shows a part of each of the two entries. -/
theorem showsPart_twoKeysWalk {ρ : Type x} (part : Nat × Nat → ρ) :
    (twoKeysWalk.noted []).ShowsPart (fun _ => 0) part [part (1, 5), part (2, 10)] := by
  have h₀ : Iteration.ShowsPart (fun _ => 0) part ⟨.start ⟨twoKeys, []⟩, 0, .start⟩ [] :=
    .start reachable_twoKeys
  have h₁ : Iteration.ShowsPart (fun _ => 0) part ⟨.start ⟨twoKeys, []⟩, 0,
      ⟨[⟨Trie.root, allNibbles.tail⟩], some 0⟩⟩ [part (1, 5)] := h₀.next rfl
  have h₂ := h₁.pass (Journal.step_apply rfl (.swap 2 20))
  exact h₂.next rfl

theorem stayed_twoKeysWalk : twoKeysWalk.journal.Stayed 2 := by
  intro s hs
  rcases List.mem_cons.mp hs with rfl | hs
  · exact ⟨(2, 20), by decide, rfl⟩
  · rw [List.mem_singleton.mp hs]
    exact ⟨(2, 10), by decide, rfl⟩

/-- A callback that removes the key 1 while nothing else is under way. -/
def eraseOne (k v : Nat) (J : { J : Journal Nat Nat // J.now.pending = [] }) :
    Bool × { J : Journal Nat Nat // J.now.pending = [] } :=
  (true, ⟨(J.1.record (k, v)).apply (.probe (.erase 1)), J.2⟩)

theorem letsGoOn_eraseOne : LetsGoOn Subtype.val eraseOne := by
  intro k v J
  have hpending : (J.1.record (k, v)).now.pending = [] := J.2
  exact ⟨_, rfl, .single (Journal.step_apply hpending _)⟩

/-- The walk of two keys shows the one that stays once, also if it shows keys alone, or values;
so does a sweep of them whose callback removes the other one. -/
theorem walks_complete_twoKeys :
    let J := (Trie.sweep (viewOf Subtype.val twoKeys.generation) eraseOne
      ⟨.start ⟨twoKeys, []⟩, rfl⟩).1
    twoKeysWalk.journal.times 2 = 1 ∧
      (∃ shown, shown.map Prod.snd = [5, 10] ∧ (twoKeysWalk.noted shown).journal.times 2 = 1) ∧
      [1, 2].countP (· == 2) = 1 ∧
      (∀ k, J.times k ≤ 1) ∧ ∀ k, J.Stayed k → J.times k = 1 := by
  obtain ⟨cursors, parts, keys, sweeps⟩ := walks_complete (κ := Nat) (ν := Nat) (Lawful.const 0)
  refine ⟨((cursors twoKeysWalk reachable_twoKeysWalk).2 _ rfl).1 2 stayed_twoKeysWalk, ?_, ?_, ?_⟩
  · obtain ⟨shown, hshown, _, _, hend⟩ := parts Prod.snd _ _ (showsPart_twoKeysWalk Prod.snd)
    exact ⟨shown, hshown, (hend _ rfl).1 2 stayed_twoKeysWalk⟩
  · exact (keys _ _ (showsPart_twoKeysWalk Prod.fst)).2 _ rfl 2 stayed_twoKeysWalk
  · exact sweeps Subtype.val eraseOne _ ⟨twoKeys, []⟩ reachable_twoKeys rfl letsGoOn_eraseOne

end Once

end NibbleTrie
