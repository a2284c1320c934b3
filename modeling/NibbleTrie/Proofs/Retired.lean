/-
What has left a trie stays as it was.

A search without a hold on its slot, or a walk, may stand on an entry that was
taken out of its chain, or in a branch that was dropped, and goes on from there
by the links it finds.  So an entry keeps its key and its value for good, and
one that is no longer met from the root keeps its link as well: every write goes
through a slot of a live branch or through the link of an entry that is met.  A
branch that was dropped stays dropped and empty.

Main statement: `Instant.Reachable.retired_for_good`.
-/
import NibbleTrie.Proofs.Exact

namespace NibbleTrie

variable {κ : Type u} {ν : Type v}

namespace Trie

variable {t t' u : Trie κ ν} {path : BranchId → List Nibble} {e : EntryId} {b : BranchId}

/-- The branch `b` is reached from the root. -/
def Reached (t : Trie κ ν) (b : BranchId) : Prop := ∃ p, t.At p b

/-- The entry `e` was published and is not met from the root. -/
def Unmet (t : Trie κ ν) (e : EntryId) : Prop := e < t.entries.size ∧ ¬ t.Meets e

/-- The branch `b` was published, is dropped and empty, and is not reached from the root. -/
structure Retired (t : Trie κ ν) (b : BranchId) : Prop where
  published : b < t.branches.size
  dead : t.isDead b = true
  empty : ∀ i, t.slot b i = .empty
  unreached : ¬ t.Reached b

/-- What is published in `t` has in `t'` the key and the value it had, and what has left `t` is in
`t'` as it was. -/
structure Frozen (t t' : Trie κ ν) : Prop where
  keeps : t.Keeps t'
  entry : ∀ e, t.Unmet e → t'.Unmet e ∧ t'.next? e = t.next? e
  branch : ∀ b, t.Retired b → t'.Retired b

theorem Frozen.refl (t : Trie κ ν) : t.Frozen t := ⟨.refl t, fun _ h => ⟨h, rfl⟩, fun _ h => h⟩

theorem Frozen.trans (F : t.Frozen t') (F' : t'.Frozen u) : t.Frozen u where
  keeps := F.keeps.trans F'.keeps
  entry e he := by
    obtain ⟨he', hnext⟩ := F.entry e he
    obtain ⟨he'', hnext'⟩ := F'.entry e he'
    exact ⟨he'', hnext'.trans hnext⟩
  branch b hb := F'.branch b (F.branch b hb)

/-! ## Branches -/

theorem Layout.reached_iff (L : Layout path t) : t.Reached b ↔ t.isDead b = false :=
  ⟨fun ⟨_, h⟩ => (L.at_iff.mp h).1, fun h => ⟨_, L.at_of_live h⟩⟩

/-- A published branch that is dead is empty and not reached. -/
theorem Layout.retired (L : Layout path t) (hlt : b < t.branches.size)
    (hdead : t.isDead b = true) : t.Retired b where
  published := hlt
  dead := hdead
  empty := L.dead_empty hdead
  unreached h := by
    rw [L.reached_iff, hdead] at h
    cases h

/-- Every branch that was published is live and reached, or it has left the trie. -/
theorem Layout.reached_or_retired (L : Layout path t) (hlt : b < t.branches.size) :
    (t.isDead b = false ∧ t.Reached b) ∨ t.Retired b := by
  cases hdead : t.isDead b with
  | false => exact .inl ⟨rfl, L.reached_iff.mpr hdead⟩
  | true => exact .inr (L.retired hlt hdead)

/-! ## Links that are written -/

/-- Publishing leaves the links of the entries there are. -/
theorem next?_publish_of_lt (site : Site) (x : Entry κ ν) (bs : List Branch) (s : Slot)
    (he : e < t.entries.size) : (t.publish site x bs s).next? e = t.next? e :=
  next?_pushEntry_of_lt t x he

/-- The link that leads to a found entry is a slot, or it belongs to an entry of the chain. -/
theorem Layout.live_of_located [BEq κ] (L : Layout path t) {site : Site} {k : κ}
    {accept : ν → Bool} {x : Placed κ ν} (hx : t.locate site k accept = .ok (some x))
    (hlink : x.link = .next e) : t.Live e := by
  obtain ⟨l₁, l₂, hc, _, _, _, hafter⟩ := L.locate_some hx
  rcases List.eq_nil_or_concat' l₁ with rfl | ⟨l₀, p, rfl⟩
  · cases hafter.symm.trans hlink
  · rw [linkAfter_concat] at hafter
    cases hafter.symm.trans hlink
    exact ⟨_, _, by rw [hc]; simp⟩

section Change
variable [BEq κ] {hash : κ → UInt64} {gone new : Option (κ × ν)}

/-- No change writes to the link of an entry that is in no chain. -/
theorem Change.next?_eq (C : Change hash t t' gone new) (L : Layout path t)
    (he : e < t.entries.size) (hdead : ¬ t.Live e) : t'.next? e = t.next? e := by
  cases C with
  | keep => rfl
  | insert _ _ I =>
    cases I with
    | front => exact next?_publish_of_lt _ _ _ _ he
    | split => exact next?_publish_of_lt _ _ _ _ he
  | @replace site k k' accept x v hx _ =>
    rw [Trie.replace, next?_setLink _ fun h => hdead (L.live_of_located hx h)]
    exact next?_pushEntry_of_lt t _ he
  | @remove site h k accept x A hw hx =>
    have hlive := (isWritable_iff.mp hw).1
    have hentries := (L.removeAt_pruned (A.fits L hlive) hx).entries
    have hunlink : (t.unlink x).next? e = t.next? e :=
      next?_setLink (t := t) x.entry.next fun h => hdead (L.live_of_located hx h)
    rw [← hunlink, next?, next?, hentries]

/-- A change leaves alone what has left the trie before. -/
theorem Change.frozen (C : Change hash t t' gone new) (L : Layout path t) : t.Frozen t' := by
  obtain ⟨path', a, W, _⟩ := C.write L
  refine ⟨W.keeps, fun e ⟨hlt, hmeets⟩ => ?_, fun b hb => ?_⟩
  · rw [L.meets_iff] at hmeets
    refine ⟨⟨Nat.lt_of_lt_of_le hlt W.keeps.size_le, ?_⟩, C.next?_eq L hlt hmeets⟩
    rw [W.layout.meets_iff, W.live]
    rintro (⟨h, _⟩ | h)
    · exact hmeets h
    · exact absurd (eq_of_mem_fresh h) (Nat.ne_of_lt hlt)
  · exact W.layout.retired (Nat.lt_of_lt_of_le hb.published W.branches_le)
      (W.dead_old b hb.dead hb.published)

omit [BEq κ] in
/-- An entry that goes in a write is not met after it. -/
theorem Write.unmet {path' : BranchId → List Nibble} {a : EntryId}
    (W : Write path path' t t' (some a) new) (L : Layout path t) : t'.Unmet a := by
  have hlt := L.lt_of_live (W.gone_live a rfl)
  refine ⟨Nat.lt_of_lt_of_le hlt W.keeps.size_le, ?_⟩
  rw [W.layout.meets_iff, W.live]
  rintro (⟨_, h⟩ | h)
  · exact h rfl
  · exact absurd (eq_of_mem_fresh h) (Nat.ne_of_lt hlt)

/-- A plan that does not keep the entry it finds takes it out of the trie. -/
theorem Layout.carryOut_unmet (L : Layout path t) {site : Site} {plan : Plan κ ν}
    (A : t.Aimed (hash plan.key) site) (hw : t.isWritable site = true) {x : Placed κ ν}
    (hx : t.locate site plan.key plan.accept = .ok (some x))
    (hjudge : (plan.judge (some x.item)).2 ≠ .keep) :
    (t.carryOut hash site plan).state.Unmet x.id := by
  rw [carryOut_eq hx]
  dsimp only [Option.map_some]
  cases hedit : (plan.judge (some x.item)).2 with
  | keep => exact absurd hedit hjudge
  | remove => exact (L.removeAt_write (A.fits L (isWritable_iff.mp hw).1) hx).unmet L
  | put k v => exact (L.replace_write hx k v).unmet L

end Change

end Trie

namespace TrieMap

variable [BEq κ] {m m' : TrieMap κ ν} {g : Nat}

/-- What has left a generation stays as it was, whatever happens to the map. -/
theorem Turn.frozen (T : m.Turn m') (H : m.Laid) (hg : g ≤ m.generation) :
    (m.trieAt g).Frozen (m'.trieAt g) := by
  obtain ⟨path, L⟩ := H.layout g hg
  obtain ⟨_, _, C⟩ := T.changes hg
  exact C.frozen L

/-- An operation that replaces or removes the entry it finds in its slot takes it out. -/
theorem Laid.carryOut_unmet (H : m.Laid) {plan : Plan κ ν} {held : Held}
    (G : m.Grips (m.hash plan.key) held) {x : Placed κ ν}
    (hx : (m.trieAt held.generation).locate held.site plan.key plan.accept = .ok (some x))
    (hjudge : (plan.judge (some x.item)).2 ≠ .keep) :
    ((m.carryOut held plan).state.trieAt held.generation).Unmet x.id := by
  obtain ⟨path, L⟩ := H.layout held.generation G.generation_le
  rw [carryOut, trieAt_update _ G.generation_le G.generation_le, if_pos rfl]
  exact L.carryOut_unmet G.aimed G.writable hx hjudge

end TrieMap

namespace Instant

variable [BEq κ] [BEq ν] {hash : κ → UInt64} {s s' : Instant κ ν}

/-- What has left a generation stays as it was, however the run goes on. -/
theorem Good.frozen (G : s.Good) (R : s.Runs s') {g : Nat} (hg : g ≤ s.map.generation) :
    (s.map.trieAt g).Frozen (s'.map.trieAt g) := by
  induction R with
  | refl => exact .refl _
  | tail R hs ih =>
    have G' := G.runs R
    exact ih.trans ((hs.turn G').frozen G'.laid (Nat.le_trans hg (G.generation_le R)))

/-- What has left the map is frozen, in every generation and from every instant on.  A branch that
was ever published is live and reached from the root, or it is dead and empty and not reached, and
so it stays.  An entry keeps its key and value; and from the end of the operation that replaces or
removes it on, it is not met from the root and its link is never written again. -/
theorem Reachable.retired_for_good (h : Reachable hash s) :
    (∀ g ≤ s.map.generation, ∀ b < (s.map.trieAt g).branches.size,
      ((s.map.trieAt g).isDead b = false ∧ (s.map.trieAt g).Reached b) ∨
        (s.map.trieAt g).Retired b) ∧
    (∀ s', s.Runs s' → ∀ g ≤ s.map.generation,
      (s.map.trieAt g).Frozen (s'.map.trieAt g)) ∧
    ∀ P Q plan held x, s.works = P ++ .holding plan held :: Q →
      (s.map.trieAt held.generation).locate held.site plan.key plan.accept = .ok (some x) →
      (plan.judge (some x.item)).2 ≠ .keep →
      Respects (P ++ Q) s.map (s.map.carryOut held plan).state →
      ∀ s', Runs ⟨(s.map.carryOut held plan).state, P ++ Q⟩ s' →
        (s'.map.trieAt held.generation).Unmet x.id ∧
        (s'.map.trieAt held.generation).next? x.id =
          ((s.map.carryOut held plan).state.trieAt held.generation).next? x.id := by
  have H := h.good.laid
  refine ⟨fun g hg b hb => ?_, fun s' R g hg => h.good.frozen R hg, ?_⟩
  · obtain ⟨path, L⟩ := H.layout g hg
    exact L.reached_or_retired hb
  · intro P Q plan held x hworks hx hjudge hr s' R
    obtain ⟨m, W⟩ := s
    obtain rfl : W = P ++ .holding plan held :: Q := hworks
    have G : m.Grips (m.hash plan.key) held := h.good.ready (.holding plan held) (by simp)
    have hstep : Step ⟨m, P ++ .holding plan held :: Q⟩ ⟨(m.carryOut held plan).state, P ++ Q⟩ :=
      .write hr
    have hg := Nat.le_trans G.generation_le (hstep.turn h.good).generation_le
    exact ((hstep.good h.good).frozen R hg).entry x.id (H.carryOut_unmet G hx hjudge)

/-- The entry of the key 1 is replaced in a trie that was cleared away while its slot was held.  It
is not met any more after the map is cleared once again, and its link is as it was. -/
theorem retired_for_good_overtaken :
    ((overtaken.map.carryOut firstSlot (.store 1 6 fun _ => .done)).state.clear.state.trieAt
        0).Unmet 1 ∧
      ((overtaken.map.carryOut firstSlot (.store 1 6 fun _ => .done)).state.clear.state.trieAt
        0).next? 1 = some 0 := by
  obtain ⟨_, _, ended⟩ := Reachable.retired_for_good reachable_overtaken
  exact ended [] [] (.store 1 6 fun _ => .done) firstSlot
    ⟨.slot Trie.root (nibble 0 15), 1, ⟨1, 5, some 0, 1⟩⟩ rfl rfl (by simp [Plan.store])
    (fun _ h => absurd h List.not_mem_nil) _ (.single .clear)

end Instant

end NibbleTrie
