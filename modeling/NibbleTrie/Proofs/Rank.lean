/-
When a key was inserted.

The entry table is the clock of a trie: it has a row for every entry that was
ever published, so it grows with every insertion.  The birth of an entry is its
rank, the reading of the clock when its key was inserted while absent; an entry
that replaces another one takes its birth over.  `Ranks t t'` says of two
moments of a trie that births are set in this way in between.

Main statements: one write sets births so (`Step.ranks`), and any number of them
does that take no key away before the last one (`Evolves.ranks`); so does every
store of an insertion of many entries (`insertMany_ranks`).
-/
import NibbleTrie.Proofs.Evolution

namespace NibbleTrie

namespace Trie

variable {κ : Type u} {ν : Type v} {t t' u : Trie κ ν} {path path' : BranchId → List Nibble}
  {hash : κ → UInt64} {gone : Option EntryId} {new : Option (κ × ν)}

/-- The entry `a` comes before `b`: its hash is smaller, or the hash is the same and `a` has the
later birth. -/
def Before (hash : κ → UInt64) (t : Trie κ ν) (a b : EntryId) : Prop :=
  ∃ x y, t.entries[a]? = some x ∧ t.entries[b]? = some y ∧
    (hash x.key < hash y.key ∨ hash x.key = hash y.key ∧ y.birth < x.birth)

/-- Entries keep their order. -/
theorem Before.keeps {a b : EntryId} (h : t.Before hash a b) (hk : t.Keeps t') :
    t'.Before hash a b := by
  obtain ⟨x, y, hx, hy, hlt⟩ := h
  obtain ⟨n, hn⟩ := hk.entry hx
  obtain ⟨n', hn'⟩ := hk.entry hy
  exact ⟨_, _, hn, hn', hlt⟩

variable [BEq κ]

/-- From `t` to `t'` births are ranks: a key that is there before and after keeps its birth, and a
key that comes is born by the clock in between. -/
structure Ranks (t t' : Trie κ ν) : Prop where
  /-- No entry changes its key or its birth. -/
  keeps : t.Keeps t'
  kept : ∀ {e e' x x'}, t.Live e → t.entries[e]? = some x → t'.Live e' →
    t'.entries[e']? = some x' → (x.key == x'.key) = true → x'.birth = x.birth
  comes : ∀ {e' x'}, t'.Live e' → t'.entries[e']? = some x' → ¬t.Present x'.key →
    t.entries.size ≤ x'.birth ∧ x'.birth < t'.entries.size

variable [EquivBEq κ]

theorem Ranks.refl (law : Lawful hash) (K : Keyed hash path t) : Ranks t t where
  keeps := .refl t
  kept he hx he' hx' hk := by
    obtain rfl := K.eq_of_live law he he' hx hx' hk
    rw [Option.some.inj (hx.symm.trans hx')]
  comes he hx habsent := absurd ⟨_, _, he, hx, BEq.rfl⟩ habsent

/-- One write sets births as ranks. -/
theorem Step.ranks (law : Lawful hash) (K : Keyed hash path t)
    (S : Step hash path path' t t' gone new) : Ranks t t' where
  keeps := S.keeps
  kept {e e' x x'} he hx he' hx' hk := by
    obtain ⟨n, hn⟩ := S.keeps.entry hx
    rcases (S.live e').mp he' with ⟨hold, _⟩ | hfresh
    · -- an old entry of the same key is the same entry
      obtain ⟨y, hy, hyx, _⟩ := S.keeps.entry_of_lt (K.lt_of_live hold) hx'
      rw [hyx] at hk
      obtain rfl := K.eq_of_live law he hold hx hy hk
      rw [← Option.some.inj (hn.symm.trans hx')]
    · obtain ⟨item, hitem, hkey⟩ := key_of_mem_fresh S.item hfresh hx'
      have hbirth := S.birth e' hfresh
      rw [birth_of_entry hx'] at hbirth
      cases hg : gone with
      | none =>
        -- the old entry is still there, so the fresh one is not for its key
        have hlive : t'.Live e := (S.live e).mpr (.inl ⟨he, by simp [hg]⟩)
        have heq := S.keyed.eq_of_live law hlive he' hn hx' hk
        rw [eq_of_mem_fresh hfresh] at heq
        exact absurd (heq ▸ K.lt_of_live he) (Nat.lt_irrefl _)
      | some g =>
        have hglive := S.gone_live g hg
        obtain ⟨y, hy⟩ := entry_of_lt (K.lt_of_live hglive)
        have hyk : (x.key == y.key) = true := by
          refine BEq.trans hk ?_
          rw [hkey]
          exact BEq.symm (S.key g hg item hitem y hy)
        obtain rfl := K.eq_of_live law he hglive hx hy hyk
        rw [hbirth, hg]
        exact birth_of_entry hx
  comes {e' x'} he' hx' habsent := by
    rcases (S.live e').mp he' with ⟨hold, _⟩ | hfresh
    · obtain ⟨y, hy, hyx, _⟩ := S.keeps.entry_of_lt (K.lt_of_live hold) hx'
      exact absurd ⟨e', y, hold, hy, by rw [hyx]; exact BEq.rfl⟩ habsent
    · obtain ⟨item, hitem, hkey⟩ := key_of_mem_fresh S.item hfresh hx'
      have hbirth := S.birth e' hfresh
      rw [birth_of_entry hx'] at hbirth
      cases hg : gone with
      | none =>
        rw [hg] at hbirth
        have hlt := lt_of_entry hx'
        rw [eq_of_mem_fresh hfresh] at hlt
        rw [hbirth]
        exact ⟨Nat.le_refl _, hlt⟩
      | some g =>
        have hglive := S.gone_live g hg
        obtain ⟨y, hy⟩ := entry_of_lt (K.lt_of_live hglive)
        have hyk := S.key g hg item hitem y hy
        rw [← hkey] at hyk
        exact absurd ⟨g, y, hglive, hy, hyk⟩ habsent

theorem Moves.ranks (law : Lawful hash) (K : Keyed hash path t) (M : Moves hash t t') :
    Ranks t t' := by
  rcases M with rfl | ⟨_, _, _, _, K', S⟩
  · exact .refl law K
  · exact S.ranks law K'

/-- Births are ranks from `t` to `t'` if they are up to a moment in between, until which no key
went. -/
theorem Ranks.trans (h : Ranks t u) (hgrow : ∀ k, t.Present k → u.Present k) (h' : Ranks u t') :
    Ranks t t' where
  keeps := h.keeps.trans h'.keeps
  kept {e e' x x'} he hx he' hx' hk := by
    obtain ⟨a, y, ha, hy, hyk⟩ := hgrow x.key ⟨e, x, he, hx, BEq.rfl⟩
    have hfirst := h.kept he hx ha hy (BEq.symm hyk)
    have hsecond := h'.kept ha hy he' hx' (BEq.trans hyk hk)
    exact hsecond.trans hfirst
  comes {e' x'} he' hx' habsent := by
    by_cases hu : u.Present x'.key
    · -- the key came before the moment in between
      obtain ⟨a, y, ha, hy, hyk⟩ := hu
      have habsent' : ¬t.Present y.key := by
        rintro ⟨b, z, hb, hz, hzk⟩
        exact habsent ⟨b, z, hb, hz, BEq.trans hzk hyk⟩
      obtain ⟨hle, hlt⟩ := h.comes ha hy habsent'
      rw [h'.kept ha hy he' hx' hyk]
      exact ⟨hle, Nat.lt_of_lt_of_le hlt h'.keeps.size_le⟩
    · obtain ⟨hle, hlt⟩ := h'.comes he' hx' hu
      exact ⟨Nat.le_trans h.keeps.size_le hle, hlt⟩

theorem Evolves.ranks (law : Lawful hash) (E : Evolves hash t t') :
    ∀ {path}, Keyed hash path t → Ranks t t' := by
  induction E with
  | move M => exact fun K => M.ranks law K
  | grow M hgrow _ ih =>
    intro path K
    obtain ⟨path', K'⟩ := M.keyed K
    exact (M.ranks law K).trans hgrow (ih K')

end Trie

namespace TrieMap

variable {κ : Type u} {ν : Type v} [BEq κ] [EquivBEq κ] {m m' : TrieMap κ ν} {g : Nat}

theorem Evolves.ranks (S : m.Sound) (E : Evolves m m') (hg : g ≤ m.generation) :
    Trie.Ranks (m.trieAt g) (m'.trieAt g) := by
  obtain ⟨path, K⟩ := S.keyed g hg
  exact (E.tries g hg).ranks S.lawful K

/-- The last of many entries is stored as one entry is. -/
theorem insertMany_concat : ∀ {m : TrieMap κ ν} (_ : m.Sound) (entries : List (κ × ν)) (e : κ × ν),
    (m.insertMany (entries ++ [e])).state = ((m.insertMany entries).state.insert e.1 e.2).state
  | m, S, [], e => (insertMany_cons S e.1 e.2 []).2
  | m, S, (k, v) :: rest, e => by
    have R := (insert_acts S k v).refines S
    rw [List.cons_append, (insertMany_cons S k v (rest ++ [e])).2,
      (insertMany_cons S k v rest).2]
    exact insertMany_concat R.sound rest e

/-- Every store of an insertion of many entries sets births as ranks. -/
theorem insertMany_ranks (S : m.Sound) (entries : List (κ × ν)) (e : κ × ν)
    (hg : g ≤ m.generation) :
    Trie.Ranks ((m.insertMany entries).state.trieAt g)
      ((m.insertMany (entries ++ [e])).state.trieAt g) := by
  obtain ⟨E, hgen⟩ := insertMany_evolves S entries
  rw [insertMany_concat S]
  have A := insert_acts E.sound e.1 e.2
  exact (A.evolves E.sound).ranks E.sound (hgen ▸ hg)

end TrieMap

end NibbleTrie
