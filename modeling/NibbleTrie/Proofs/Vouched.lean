/-
Walks show nothing that was not there.

A walk may stand on entries that were taken out of their chains long ago, and go
on behind them along links that nobody else can reach any more.  Still it comes
only by entries that the map had at some moment since the walk began: those
ahead in the chain at hand were there when the chain was taken up, or came into
it later, with a write that put them into the map.

Operations run as a whole here, between the steps of a cursor or within the
callback of a sweep, and a clearing among them leaves the walk on its trie.

Main statement: `walks_vouched`.
-/
import NibbleTrie.Proofs.Linearization
import NibbleTrie.Proofs.Tour

namespace NibbleTrie

variable {κ : Type u} {ν : Type v}

namespace Journal

/-- The map had the entry, with this key and this value, at a moment since the walk began. -/
def Knew (J : Journal κ ν) (item : κ × ν) : Prop := ∃ s ∈ J.past, item ∈ s.map.toList

variable [BEq κ] [BEq ν]

/-- An operation runs as a whole.  Each of its parts takes effect at a moment of its own. -/
def call (J : Journal κ ν) (op : Op κ ν) : Journal κ ν := op.parts.foldl apply J

theorem map_foldl_apply (J : Journal κ ν) (ops : List (Op κ ν)) :
    (ops.foldl apply J).now.map = (J.now.map.run ops).2 := by
  induction ops generalizing J with
  | nil => rfl
  | cons op ops ih => exact ih (J.apply op)

/-- A whole operation leaves the map that the operation leaves. -/
theorem map_call [EquivBEq κ] {J : Journal κ ν} (S : J.now.map.Sound) (op : Op κ ν) :
    (J.call op).now.map = (J.now.map.apply op).state := by
  have hparts := TrieMap.run_parts S [op]
  rw [List.flatMap_cons, List.flatMap_nil, List.append_nil] at hparts
  rw [call, map_foldl_apply, hparts]
  rfl

/-- Operations one after another are steps of the journal, and leave nothing under way. -/
theorem steps_foldl_apply (ops : List (Op κ ν)) : ∀ {J : Journal κ ν}, J.now.pending = [] →
    Relation.ReflTransGen Step J (ops.foldl apply J) ∧ (ops.foldl apply J).now.pending = [] := by
  induction ops with
  | nil => exact fun h => ⟨.refl, h⟩
  | cons op ops ih =>
    intro J h
    have h' : (J.apply op).now.pending = [] := h
    obtain ⟨hsteps, halone⟩ := ih h'
    exact ⟨.head (step_apply h op) hsteps, halone⟩

theorem steps_foldl_call (ops : List (Op κ ν)) : ∀ {J : Journal κ ν}, J.now.pending = [] →
    Relation.ReflTransGen Step J (ops.foldl call J) := by
  induction ops with
  | nil => exact fun _ => .refl
  | cons op ops ih =>
    intro J h
    obtain ⟨hsteps, halone⟩ := steps_foldl_apply op.parts h
    exact hsteps.trans (ih halone)

theorem shown_of_steps {J J' : Journal κ ν} (h : Relation.ReflTransGen Step J J') :
    J'.shown = J.shown := by
  induction h with
  | refl => rfl
  | tail _ h ih =>
    cases h
    exact ih

/-- What was shown does not matter to an operation. -/
theorem call_shown (J : Journal κ ν) (op : Op κ ν) (shown : List (κ × ν)) :
    ({ J with shown } : Journal κ ν).call op = { J.call op with shown } := by
  rw [call, call]
  generalize op.parts = parts
  induction parts generalizing J with
  | nil => rfl
  | cons op parts ih => exact ih (J.apply op)

end Journal

/-- A walk of the generation `g` is at the place `p`, and what it has still to show in the chain at
hand was in the map since it began. -/
structure Vouched [BEq κ] [BEq ν] (hash : κ → UInt64) (g : Nat) (J : Journal κ ν) (p : Place) :
    Prop where
  follows : Follows hash g J p.spots p.stand
  /-- Nothing is under way besides the walk. -/
  alone : J.now.pending = []
  /-- The trie of the walk is the current one, or it is as it was when a clearing put it away. -/
  current : ∃ s ∈ J.past, s.map.current = J.now.map.trieAt g
  chain : ∀ a ∈ p.stand.rest (J.now.map.trieAt g), ∀ item ∈ (J.now.map.trieAt g).item? a,
    J.Knew item

namespace Vouched

variable [BEq κ] [BEq ν] {hash : κ → UInt64} {g : Nat} {J : Journal κ ν} {p q : Place}

theorem between {spots : List Spot} (V : Vouched hash g J p)
    (F : Follows hash g J spots .between) : Vouched hash g J ⟨spots, .between⟩ :=
  ⟨F, V.alone, V.current, fun _ h => absurd h List.not_mem_nil⟩

variable [EquivBEq κ] (law : Lawful hash)
include law

theorem start {s : Moment κ ν} (h : Moment.Reachable hash s) (halone : s.pending = []) :
    Vouched hash s.map.generation (.start s) ⟨[.root], .between⟩ where
  follows := .start law h
  alone := halone
  current := ⟨s, List.mem_cons_self, (s.map.trieAt_generation).symm⟩
  chain _ h := absurd h List.not_mem_nil

/-- The map had the entries of a chain that is taken up. -/
theorem take {spots : List Spot} {b : BranchId} {i : Nibble} {e : EntryId}
    (V : Vouched hash g J p) (F : Follows hash g J spots (.before e))
    (hs : (J.now.map.trieAt g).slot b i = .chain e) : Vouched hash g J ⟨spots, .before e⟩ where
  follows := F
  alone := V.alone
  current := V.current
  chain a ha item hitem := by
    obtain ⟨path, K⟩ := F.keyed law
    obtain ⟨s, hmem, hcurrent⟩ := V.current
    obtain ⟨x, hx, rfl⟩ := Option.map_eq_some_iff.mp hitem
    refine ⟨s, hmem, ?_⟩
    show _ ∈ s.map.current.toList
    rw [hcurrent]
    exact K.mem_toList.mpr ⟨a, x, ⟨b, i, by rwa [Trie.chainAt_of_chain hs]⟩, hx, rfl⟩

/-- A quiet step of the walk. -/
theorem quiet (V : Vouched hash g J p) (h : Quiet (J.now.map.trieAt g) p q) :
    Vouched hash g J q := by
  obtain ⟨spots, stand⟩ := p
  obtain ⟨spots', stand'⟩ := q
  have F : Follows hash g J spots' stand' := V.follows.step law (h J.shown)
  obtain ⟨shown, shown', hshown, hstep⟩ := h.exists_step
  cases hstep with
  | skip _ => exact V.between F
  | enter _ => exact V.between F
  | leave => exact V.between F
  | take hs => exact V.take law F hs
  | yield _ => simp at hshown
  | follow =>
    refine ⟨F, V.alone, V.current, fun a ha => V.chain a ?_⟩
    rw [Stand.rest_ofLink] at ha
    exact ha

theorem steps (V : Vouched hash g J p)
    (h : Relation.ReflTransGen (Quiet (J.now.map.trieAt g)) p q) : Vouched hash g J q := by
  induction h with
  | refl => exact V
  | tail _ h ih => exact ih.quiet law h

/-- The map had the entry that is shown. -/
theorem yield {spots : List Spot} {e : EntryId} {x : Entry κ ν}
    (V : Vouched hash g J ⟨spots, .before e⟩)
    (hx : (J.now.map.trieAt g).entries[e]? = some x) :
    J.Knew (x.key, x.value) ∧ Vouched hash g (J.record (x.key, x.value)) ⟨spots, .after e⟩ := by
  obtain ⟨path, K⟩ := V.follows.keyed law
  have hchain := Trie.chain_eq_cons K.falling (Trie.lt_of_entry hx)
  constructor
  · refine V.chain e ?_ _ (Trie.item?_of_entry hx)
    rw [Stand.rest, hchain]
    exact List.mem_cons_self
  · refine ⟨V.follows.step law (.yield hx), V.alone, V.current, fun a ha => V.chain a ?_⟩
    rw [Stand.rest, hchain]
    exact List.mem_cons_of_mem _ ha

/-- A write to the trie of the walk puts nothing into the chain at hand that is not in the map. -/
theorem moves {m : TrieMap κ ν} (V : Vouched hash g J p) (hcurrent : m.current = m.trieAt g)
    (M : Trie.Moves hash (J.now.map.trieAt g) (m.trieAt g)) :
    ∀ a ∈ p.stand.rest (m.trieAt g), ∀ item ∈ (m.trieAt g).item? a,
      J.Knew item ∨ item ∈ m.toList := by
  obtain ⟨path, K⟩ := V.follows.keyed law
  intro a ha item hitem
  rcases M with heq | ⟨path, path', gone, new, K', S⟩
  · rw [heq] at ha hitem
    exact .inl (V.chain a ha item hitem)
  · have hin := V.follows.tracks.inTable
    have old : a ∈ p.stand.rest (J.now.map.trieAt g) → J.Knew item := by
      intro hmem
      obtain ⟨x, hx⟩ := Trie.entry_of_lt (Stand.lt_of_mem_rest K.falling hin hmem)
      obtain ⟨n, hn⟩ := S.keeps.entry hx
      rw [Trie.item?_of_entry hn] at hitem
      cases hitem
      exact V.chain a hmem (x.key, x.value) (Trie.item?_of_entry hx)
    rcases Stand.rest_write K'.toLayout S.toWrite hin with heq | ⟨b, _, l₁, l₂, hold, hnew⟩
    · exact .inl (old (heq ▸ ha))
    · rw [hnew] at ha
      rcases List.mem_append.mp ha with h | h
      · exact .inl (old (by rw [hold]; exact List.mem_append_left _ h))
      rcases List.mem_append.mp h with h | h
      · -- the fresh entry is in the map as soon as it is in the chain at hand
        obtain ⟨x, hx, rfl⟩ := Option.map_eq_some_iff.mp hitem
        have hlive := (S.live a).mpr (.inr (Option.mem_toList.mp h))
        right
        rw [TrieMap.toList, hcurrent]
        exact S.layout.mem_toList.mpr ⟨a, x, hlive, hx, rfl⟩
      · refine .inl (old ?_)
        rw [hold]
        exact List.mem_append_right _ (List.mem_cons_of_mem _ h)

/-- An operation that takes effect at one point. -/
theorem apply (V : Vouched hash g J p) {op : Op κ ν} (hop : op.isSingle = true ∨ op = .clear) :
    Vouched hash g (J.apply op) p := by
  have F := V.follows.pass law (Journal.step_apply V.alone op)
  have G := V.follows.reachable.good law
  have hg := V.follows.generation_le
  have knew : ∀ {item}, J.Knew item → (J.apply op).Knew item := fun ⟨s, hs, h⟩ =>
    ⟨s, List.mem_cons_of_mem _ hs, h⟩
  -- as long as nothing is written to the trie of the walk it is where it was
  have still : (J.apply op).now.map.trieAt g = J.now.map.trieAt g →
      Vouched hash g (J.apply op) p := by
    intro hsame
    refine ⟨F, V.alone, ?_, fun a ha item hitem => ?_⟩
    · obtain ⟨s, hs, hcurrent⟩ := V.current
      exact ⟨s, List.mem_cons_of_mem _ hs, hcurrent.trans hsame.symm⟩
    · exact knew (V.chain a (hsame ▸ ha) item (hsame ▸ hitem))
  rcases hop with hop | rfl
  · have A := TrieMap.apply_acts G.sound hop
    by_cases h : g = J.now.map.generation
    · have hcurrent : (J.apply op).now.map.current = (J.apply op).now.map.trieAt g := by
        rw [h, ← A.generation_eq]
        exact (TrieMap.trieAt_generation _).symm
      refine ⟨F, V.alone, ⟨_, List.mem_cons_self, hcurrent⟩, fun a ha item hitem => ?_⟩
      have M : Trie.Moves hash (J.now.map.trieAt g) ((J.apply op).now.map.trieAt g) :=
        V.follows.reachable.hash_eq law ▸ A.moves hg
      rcases V.moves law hcurrent M a ha item hitem with h | h
      · exact knew h
      · exact ⟨_, List.mem_cons_self, h⟩
    · exact still (A.other g hg h)
  · exact still (J.now.map.trieAt_clear hg)

/-- A whole operation. -/
theorem call (V : Vouched hash g J p) (op : Op κ ν) : Vouched hash g (J.call op) p := by
  have hparts : ∀ q ∈ op.parts, q.isSingle = true ∨ q = .clear := fun _ => Op.single_of_mem_parts
  rw [Journal.call]
  generalize op.parts = parts at hparts
  induction parts generalizing J with
  | nil => exact V
  | cons q parts ih =>
    refine ih (V.apply law (hparts q List.mem_cons_self)) fun r hr => ?_
    exact hparts r (List.mem_cons_of_mem _ hr)

theorem calls (V : Vouched hash g J p) (ops : List (Op κ ν)) :
    Vouched hash g (ops.foldl Journal.call J) p := by
  induction ops generalizing J with
  | nil => exact V
  | cons op ops ih => exact ih (V.call law op)

end Vouched

/-- Everything under way can be given up. -/
theorem Moment.Reachable.alone [BEq κ] [BEq ν] {hash : κ → UInt64} {s : Moment κ ν}
    (h : Reachable hash s) : Reachable hash ⟨s.map, []⟩ := by
  obtain ⟨m, P⟩ := s
  induction P with
  | nil => exact h
  | cons o P ih => exact ih (h.step (.abandon (P := [])))

/-! ## Cursors -/

namespace Iteration

variable [BEq κ] [BEq ν]

/-- A cursor begins, and whole operations run between its steps. -/
inductive Attended (hash : κ → UInt64) : Iteration κ ν → Prop
  | start {s : Moment κ ν} : Moment.Reachable hash s →
      Attended hash ⟨.start ⟨s.map, []⟩, s.map.generation, .start⟩
  | call {w} (op : Op κ ν) : Attended hash w →
      Attended hash { w with journal := w.journal.call op }
  | next {w item c} : Attended hash w → w.next = (some item, c) →
      Attended hash { w with journal := w.journal.record item, cursor := c }

/-- A cursor that shows a part of each entry begins, and whole operations run between its steps.
Its journal is told of no entry. -/
inductive AttendedPart {ρ : Type x} (hash : κ → UInt64) (part : κ × ν → ρ) : Iteration κ ν → Prop
  | start {s : Moment κ ν} : Moment.Reachable hash s →
      AttendedPart hash part ⟨.start ⟨s.map, []⟩, s.map.generation, .start⟩
  | call {w} (op : Op κ ν) : AttendedPart hash part w →
      AttendedPart hash part { w with journal := w.journal.call op }
  | next {w r c} : AttendedPart hash part w → w.nextPart part = (some r, c) →
      AttendedPart hash part { w with cursor := c }

/-- A cursor that shows entries can take the same steps. -/
theorem AttendedPart.exists_shown {ρ : Type x} {hash : κ → UInt64} {part : κ × ν → ρ}
    {w : Iteration κ ν} (h : w.AttendedPart hash part) : ∃ shown, (w.noted shown).Attended hash := by
  induction h with
  | start h => exact ⟨[], .start h⟩
  | @call w op _ ih =>
    obtain ⟨shown, A⟩ := ih
    have A' := A.call op
    rw [noted, Journal.call_shown] at A'
    exact ⟨shown, A'⟩
  | next _ hnext ih =>
    obtain ⟨shown, A⟩ := ih
    obtain ⟨item, hitem, _⟩ := next_of_nextPart hnext shown
    exact ⟨shown ++ [item], A.next hitem⟩

variable [EquivBEq κ] {hash : κ → UInt64} (law : Lawful hash)
include law

/-- What the next step of a cursor shows was in the map, and so will be what comes after it. -/
theorem next_vouched {w : Iteration κ ν} {spots : List Spot} {stand : Stand}
    (hc : w.cursor.Matches spots stand) (V : Vouched hash w.generation w.journal ⟨spots, stand⟩)
    {item : κ × ν} {c : Cursor} (hnext : w.next = (some item, c)) :
    w.journal.Knew item ∧ ∃ spots' stand', c.Matches spots' stand' ∧
      Vouched hash w.generation (w.journal.record item) ⟨spots', stand'⟩ := by
  obtain ⟨path, K⟩ := V.follows.keyed law
  rcases w.cursor.next_cases K.toLayout hc V.follows.tracks.stacked V.follows.tracks.inTable with
    ⟨e, x, spots', _, hx, hsteps, hnext'⟩ | ⟨_, _, hnext'⟩
  · cases hnext.symm.trans hnext'
    obtain ⟨hknew, V'⟩ := (V.steps law hsteps).yield law hx
    have V'' : Vouched hash w.generation (w.journal.record (x.key, x.value))
        ⟨spots', .ofLink ((w.journal.now.map.trieAt w.generation).next? e)⟩ :=
      V'.quiet law fun _ => .follow
    rw [Trie.next?_of_entry hx] at V''
    exact ⟨hknew, spots', _, ⟨rfl, rfl⟩, V''⟩
  · cases hnext.symm.trans hnext'

theorem Attended.vouched {w : Iteration κ ν} (h : w.Attended hash) :
    ∃ spots stand, w.cursor.Matches spots stand ∧
      Vouched hash w.generation w.journal ⟨spots, stand⟩ := by
  induction h with
  | start h => exact ⟨[.root], .between, ⟨rfl, rfl⟩, .start law h.alone rfl⟩
  | call op _ ih =>
    obtain ⟨spots, stand, hc, V⟩ := ih
    exact ⟨spots, stand, hc, V.call law op⟩
  | next _ hnext ih =>
    obtain ⟨spots, stand, hc, V⟩ := ih
    exact (next_vouched law hc V hnext).2

/-- What a cursor shows was in the map. -/
theorem Attended.knew {w : Iteration κ ν} (h : w.Attended hash) {item : κ × ν} {c : Cursor}
    (hnext : w.next = (some item, c)) : w.journal.Knew item := by
  obtain ⟨spots, stand, hc, V⟩ := h.vouched law
  exact (next_vouched law hc V hnext).1

end Iteration

/-! ## Sweeps -/

section Sweep
variable {σ : Type w} {journal : σ → Journal κ ν} {f : κ → ν → σ → Bool × σ}

/-- The callback `f`, with a note of every entry that it is shown and of what happened until
then. -/
def witnessing (journal : σ → Journal κ ν) (f : κ → ν → σ → Bool × σ) (_ : EntryId) (k : κ) (v : ν)
    (s : σ × List ((κ × ν) × Journal κ ν)) : Bool × σ × List ((κ × ν) × Journal κ ν) :=
  ((f k v s.1).1, (f k v s.1).2, s.2 ++ [((k, v), journal s.1)])

/-- The notes are of what was shown, and the map had each entry when it was shown or before. -/
structure Witnessed (journal : σ → Journal κ ν) (s : σ × List ((κ × ν) × Journal κ ν)) : Prop where
  shown : (journal s.1).shown = s.2.map Prod.fst
  knew : ∀ note ∈ s.2, note.2.Knew note.1

variable [BEq κ] [BEq ν]

/-- The callback runs whole operations on the map, and ends the sweep when it likes. -/
def Calls (journal : σ → Journal κ ν) (f : κ → ν → σ → Bool × σ) : Prop :=
  ∀ k v s, ∃ ops : List (Op κ ν),
    journal (f k v s).2 = ops.foldl Journal.call ((journal s).record (k, v))

/-- A sweep carries its notes along. -/
theorem witnessed_carries [EquivBEq κ] {hash : κ → UInt64} (law : Lawful hash)
    (hf : Calls journal f) (g : Nat) :
    Carries (viewOf journal g ∘ Prod.fst) (witnessing journal f)
      (fun s p => Vouched hash g (journal s.1) p ∧ Witnessed journal s) (Witnessed journal) where
  layout H := by
    obtain ⟨path, K⟩ := H.1.follows.keyed law
    exact ⟨path, K.toLayout⟩
  stacked H := H.1.follows.tracks.stacked
  inTable H := H.1.follows.tracks.inTable
  quiet H h := ⟨H.1.quiet law h, H.2⟩
  keeps {s e spots x} H hx := by
    obtain ⟨V, _⟩ := H
    obtain ⟨_, V'⟩ := V.yield law hx
    obtain ⟨ops, hops⟩ := hf x.key x.value s.1
    have hkeeps := (V'.follows.passes law (Journal.steps_foldl_call ops V'.alone)).2
    rw [← hops] at hkeeps
    exact hkeeps
  shows {s e spots x} H hx := by
    obtain ⟨V, N⟩ := H
    obtain ⟨hknew, V'⟩ := V.yield law hx
    obtain ⟨ops, hops⟩ := hf x.key x.value s.1
    have V'' : Vouched hash g (journal (f x.key x.value s.1).2) ⟨spots, .after e⟩ := by
      rw [hops]
      exact V'.calls law ops
    have N' : Witnessed journal (witnessing journal f e x.key x.value s).2 := by
      constructor
      · show (journal (f x.key x.value s.1).2).shown = _
        rw [hops, Journal.shown_of_steps (Journal.steps_foldl_call ops V'.alone)]
        show (journal s.1).shown ++ [(x.key, x.value)] = _
        rw [N.shown, witnessing, List.map_append]
        rfl
      · intro note hnote
        rcases List.mem_append.mp hnote with h | h
        · exact N.knew note h
        · rw [List.mem_singleton.mp h]
          exact hknew
    cases hgo : (f x.key x.value s.1).1 with
    | true =>
      rw [witnessing, hgo]
      exact ⟨V'', N'⟩
    | false =>
      rw [witnessing, hgo]
      exact N'

end Sweep

/-! ## Both kinds of walk -/

section Walks
variable [BEq κ] [EquivBEq κ] [BEq ν] {hash : κ → UInt64}

/-- Walks show nothing that was not there.  What a cursor shows, with whole operations between its
steps, the map had with this key and this value at some moment since the cursor began; what a
cursor shows that shows a part of each entry is a part of such an entry.  What a sweep shows, whose
callback runs whole operations and ends the sweep when it likes, the map had at some moment between
the beginning of the sweep and the showing.  The operations that run leave the map that they leave
when no walk is under way. -/
theorem walks_vouched (law : Lawful hash) :
    (∀ (J : Journal κ ν) (op : Op κ ν), Moment.Reachable hash J.now →
      (J.call op).now.map = (J.now.map.apply op).state) ∧
    (∀ w : Iteration κ ν, w.Attended hash → ∀ item c, w.next = (some item, c) →
      w.journal.Knew item) ∧
    (∀ {ρ : Type x} (part : κ × ν → ρ) (w : Iteration κ ν), w.AttendedPart hash part →
      ∀ r c, w.nextPart part = (some r, c) → ∃ item, part item = r ∧ w.journal.Knew item) ∧
    ∀ {σ : Type w} (journal : σ → Journal κ ν) (f : κ → ν → σ → Bool × σ) (s : σ)
      (m : Moment κ ν), Moment.Reachable hash m → journal s = .start ⟨m.map, []⟩ →
        Calls journal f →
        let r := (Trie.sweepWith (viewOf journal m.map.generation ∘ Prod.fst)
          (witnessing journal f) (s, [])).2
        r.1 = Trie.sweep (viewOf journal m.map.generation) f s ∧
          (journal r.1).shown = r.2.map Prod.fst ∧ ∀ note ∈ r.2, note.2.Knew note.1 := by
  refine ⟨?_, ?_, ?_, ?_⟩
  · intro J op hJ
    exact Journal.map_call (hJ.good law).sound op
  · intro w hw item c hnext
    exact hw.knew law hnext
  · intro ρ part w hw r c hnext
    obtain ⟨shown, A⟩ := hw.exists_shown
    obtain ⟨item, hitem, hr⟩ := Iteration.next_of_nextPart hnext shown
    exact ⟨item, hr, A.knew law hitem⟩
  · intro σ journal f s m hm hstart hf r
    have forgets : Trie.Forgets Prod.fst (witnessing journal f) f := fun _ _ _ _ => rfl
    have V : Vouched hash m.map.generation (journal s) ⟨[.root], .between⟩ := by
      rw [hstart]
      exact .start law hm.alone rfl
    have N : Witnessed journal (s, []) := by
      refine ⟨?_, fun _ h => absurd h List.not_mem_nil⟩
      rw [hstart]
      rfl
    have hends := (witnessed_carries law hf m.map.generation).sweep (s := (s, [])) ⟨V, N⟩
    have hr : ∃ go, Trie.sweepWith (viewOf journal m.map.generation ∘ Prod.fst)
        (witnessing journal f) (s, []) = (go, r) := ⟨_, rfl⟩
    obtain ⟨go, hr⟩ := hr
    rw [hr] at hends
    refine ⟨(Trie.sweep_eq forgets (s, [])).symm, ?_⟩
    cases go with
    | true => exact ⟨hends.2.shown, hends.2.knew⟩
    | false => exact ⟨hends.shown, hends.knew⟩

end Walks

/-- A cursor that has shown the head of the chain, before the value behind it is replaced. -/
def halfWay : Iteration Nat Nat :=
  ⟨((Journal.start ⟨twoKeys, []⟩).record (1, 5)).call (.swap 2 20), 0,
    ⟨[⟨Trie.root, allNibbles.tail⟩], some 0⟩⟩

theorem attended_halfWay : halfWay.Attended fun _ => 0 := by
  have h₀ : Iteration.Attended (fun _ => 0) ⟨.start ⟨twoKeys, []⟩, 0, .start⟩ :=
    .start reachable_twoKeys
  have h₁ : Iteration.Attended (fun _ => 0) ⟨(Journal.start ⟨twoKeys, []⟩).record (1, 5), 0,
      ⟨[⟨Trie.root, allNibbles.tail⟩], some 0⟩⟩ := h₀.next rfl
  exact h₁.call (.swap 2 20)

/-- A cursor in the same circumstances that shows values. -/
theorem attendedPart_halfWay : (halfWay.noted []).AttendedPart (fun _ => 0) Prod.snd := by
  have h₀ : Iteration.AttendedPart (fun _ => 0) Prod.snd ⟨.start ⟨twoKeys, []⟩, 0, .start⟩ :=
    .start reachable_twoKeys
  have h₁ : Iteration.AttendedPart (fun _ => 0) Prod.snd ⟨.start ⟨twoKeys, []⟩, 0,
      ⟨[⟨Trie.root, allNibbles.tail⟩], some 0⟩⟩ := h₀.next (r := 5) rfl
  exact h₁.call (.swap 2 20)

/-- The cursor shows the value that was replaced, which the map had when it began, also if it shows
values alone; and so does a sweep of the two keys that removes one of them. -/
theorem walks_vouched_twoKeys :
    let r := (Trie.sweepWith (viewOf Subtype.val twoKeys.generation ∘ Prod.fst)
      (witnessing Subtype.val eraseOne) (⟨.start ⟨twoKeys, []⟩, rfl⟩, [])).2
    halfWay.journal.Knew (2, 10) ∧ (∃ item, item.2 = 10 ∧ halfWay.journal.Knew item) ∧
      r.2.map Prod.fst = [(1, 5), (2, 10)] ∧
      ∀ note ∈ r.2, note.2.Knew note.1 := by
  obtain ⟨_, cursors, parts, sweeps⟩ := walks_vouched (κ := Nat) (ν := Nat) (Lawful.const 0)
  refine ⟨cursors halfWay attended_halfWay (2, 10) _ rfl,
    parts Prod.snd _ attendedPart_halfWay 10 _ rfl, rfl, ?_⟩
  exact (sweeps Subtype.val eraseOne _ ⟨twoKeys, []⟩ reachable_twoKeys rfl
    fun _ _ _ => ⟨[.probe (.erase 1)], rfl⟩).2.2

end NibbleTrie
