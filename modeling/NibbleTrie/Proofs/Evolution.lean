/-
How a map changes from one moment to the next.

Seen from somebody who stands in a generation, an operation is a few writes to
it, mostly none or one.  Only an insertion of many entries writes more often,
and it takes no key away in between.  `Evolves` says so, for a trie and for a
map; it keeps what an arrival holds.

Main statements: `apply_evolves`, `finish_evolves`, `insertHeld_evolves`.
-/
import NibbleTrie.Proofs.Refinement

namespace NibbleTrie

namespace Trie

variable {κ : Type u} {ν : Type v} [BEq κ] {t t' : Trie κ ν} {hash : κ → UInt64}

/-- `t'` is `t` after some writes.  Before the last one no key goes. -/
inductive Evolves (hash : κ → UInt64) : Trie κ ν → Trie κ ν → Prop
  | move {t t' : Trie κ ν} : Moves hash t t' → Evolves hash t t'
  | grow {t u t' : Trie κ ν} : Moves hash t u → (∀ k, t.Present k → u.Present k) → Evolves hash u t' →
      Evolves hash t t'

theorem Evolves.refl (t : Trie κ ν) : Evolves hash t t := .move (.inl rfl)

/-- What every write preserves is preserved. -/
theorem Evolves.induct {P : Trie κ ν → Prop} (move : ∀ {u u'}, Moves hash u u' → P u → P u')
    (E : Evolves hash t t') (h : P t) : P t' := by
  induction E with
  | move M => exact move M h
  | grow M _ _ ih => exact ih (move M h)

/-- What every write preserves that keeps a key is preserved if the key is present before and
after. -/
theorem Evolves.induct_present {P : Trie κ ν → Prop} {k : κ}
    (move : ∀ {u u'}, Moves hash u u' → u.Present k → u'.Present k → P u → P u')
    (E : Evolves hash t t') (h : P t) (hk : t.Present k) (hk' : t'.Present k) : P t' := by
  induction E with
  | move M => exact move M hk hk' h
  | grow M hgrow _ ih => exact ih (move M hk (hgrow k hk) h) (hgrow k hk) hk'

theorem Evolves.aimed (E : Evolves hash t t') {h : UInt64} {site : Site} (A : t.Aimed h site) :
    t'.Aimed h site :=
  E.induct (P := fun t => t.Aimed h site) (fun M A => M.aimed A) A

theorem Moves.keeps (M : Moves hash t t') : t.Keeps t' := by
  rcases M with rfl | ⟨_, _, _, _, _, S⟩
  · exact .refl _
  · exact S.keeps

theorem Evolves.keeps (E : Evolves hash t t') : t.Keeps t' :=
  E.induct (P := fun u => t.Keeps u) (fun M h => h.trans M.keeps) (.refl t)

theorem Evolves.size_le (E : Evolves hash t t') : t.entries.size ≤ t'.entries.size :=
  E.keeps.size_le

end Trie

namespace TrieMap

variable {κ : Type u} {ν : Type v} {ρ : Type w} [BEq κ] {m m' : TrieMap κ ν} {g : Nat}

/-- The map `m'` is `m` a moment later.  A new generation begins with no entries. -/
structure Evolves (m m' : TrieMap κ ν) : Prop where
  hash_eq : m'.hash = m.hash
  sound : m'.Sound
  generation_le : m.generation ≤ m'.generation
  tries : ∀ g ≤ m.generation, Trie.Evolves m.hash (m.trieAt g) (m'.trieAt g)
  cleared : m.generation < m'.generation → m'.toList = []

namespace Evolves

theorem refl (S : m.Sound) : Evolves m m :=
  ⟨rfl, S, Nat.le_refl _, fun _ _ => .refl _, fun h => absurd h (Nat.lt_irrefl _)⟩

theorem arrived (E : Evolves m m') {h : UInt64} {a : Arrival} (ha : m.Arrived h a) :
    m'.Arrived h a where
  generation_le := Nat.le_trans ha.generation_le E.generation_le
  head_lt x hx := Nat.lt_of_lt_of_le (ha.head_lt x hx) (E.tries _ ha.generation_le).size_le
  aimed := (E.tries _ ha.generation_le).aimed ha.aimed

end Evolves

theorem Acts.evolves {e : Effect (TrieMap κ ν) ρ}
    {spec : Content κ ν → Except Fault ρ × Content κ ν} (A : Acts m g e spec) (S : m.Sound) :
    Evolves m e.state where
  hash_eq := A.hash_eq
  sound := A.sound S
  generation_le := Nat.le_of_eq A.generation_eq.symm
  tries _ hg := .move (A.moves hg)
  cleared h := absurd (A.generation_eq ▸ h) (Nat.lt_irrefl _)

theorem evolves_clear (S : m.Sound) : Evolves m m.clear.state where
  hash_eq := rfl
  sound := S.clear
  generation_le := by rw [generation_clear]; exact Nat.le_succ _
  tries g hg := by rw [m.trieAt_clear hg]; exact .refl _
  cleared _ := toList_clear m

/-- Some key of the map is equal to `k`. -/
def Has (m : TrieMap κ ν) (k : κ) : Prop := ∃ e ∈ m.toList, (e.1 == k) = true

theorem Sound.has_iff (S : m.Sound) {k : κ} : m.Has k ↔ m.current.Present k := by
  obtain ⟨path, K⟩ := S.keyed_current
  exact (Trie.present_iff K.toLayout).symm

variable [EquivBEq κ]

/-- Inserting entries one after another. -/
theorem insertMany_evolves : ∀ {m : TrieMap κ ν} (_ : m.Sound) (entries : List (κ × ν)),
    Evolves m (m.insertMany entries).state ∧
      (m.insertMany entries).state.generation = m.generation
  | m, S, [] => ⟨.refl S, rfl⟩
  | m, S, (k, v) :: rest => by
    have A := insert_acts S k v
    have R := A.refines S
    have heq := (insertMany_cons S k v rest).2
    obtain ⟨E, hgen⟩ := insertMany_evolves R.sound rest
    have hgen' := hgen.trans A.generation_eq
    have keeps : ∀ k', m.current.Present k' → (m.insert k v).state.current.Present k' := by
      intro k' hk'
      rw [← S.has_iff] at hk'
      rw [← R.sound.has_iff]
      obtain ⟨e, he, hk'⟩ := hk'
      have hperm := (R.agrees _ (.refl _)).2
      by_cases h : (e.1 == k) = true
      · exact ⟨(k, v), hperm.mem_iff.mpr List.mem_cons_self, by
          rw [← hk']; exact (BEq.congr_left h).symm⟩
      · refine ⟨e, hperm.mem_iff.mpr (List.mem_cons_of_mem _ ?_), hk'⟩
        exact List.mem_filter.mpr ⟨he, by simpa using h⟩
    rw [heq]
    refine ⟨⟨E.hash_eq.trans A.hash_eq, E.sound, Nat.le_of_eq hgen'.symm, fun g hg => ?_,
      fun h => absurd (hgen' ▸ h) (Nat.lt_irrefl _)⟩, hgen'⟩
    by_cases h : g = m.generation
    · subst h
      refine .grow (A.moves (Nat.le_refl _)) (fun k' hk' => ?_) ?_
      · rw [trieAt_generation] at hk'
        rw [← A.generation_eq, trieAt_generation]
        exact keeps k' hk'
      · have := E.tries m.generation (Nat.le_of_eq A.generation_eq.symm)
        rw [A.hash_eq] at this
        exact this
    · have := E.tries g (by rw [A.generation_eq]; exact hg)
      rw [A.other g hg h, A.hash_eq] at this
      exact this

variable [BEq ν]

theorem apply_evolves (S : m.Sound) (op : Op κ ν) : Evolves m (m.apply op).state := by
  by_cases hop : op.isSingle = true
  · exact (apply_acts S hop).evolves S
  · cases op with
    | insertMany entries => exact (insertMany_evolves S entries).1
    | clear => exact evolves_clear S
    | _ => exact absurd rfl hop

theorem finish_evolves (S : m.Sound) (p : Probe κ ν) {a : Arrival}
    (ha : m.Arrived (m.hash p.key) a) : Evolves m (m.finish a p).state := by
  rcases finish_cases S p ha with ⟨hstate, _⟩ | ⟨g, _, A⟩
  · rw [hstate]
    exact .refl S
  · exact A.evolves S

omit [BEq ν] in
theorem insertHeld_evolves (S : m.Sound) {k : κ} {held : Held} (H : m.Holds (m.hash k) held)
    (habsent : (m.trieAt held.generation).locate held.site k anyValue = .ok none) (v : ν) :
    Evolves m (m.insertHeld held k v).state :=
  (insertHeld_acts S H habsent v).evolves S

end TrieMap

end NibbleTrie
