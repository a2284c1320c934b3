/-
What a probe does after its arrival.

Between its arrival and its first comparison the map may have changed, so what
a probe sees from the head it holds (`seen`) need not be the content of the
map.  Either it decides by what it saw and writes nothing, or it acts on the
content of one generation: the one on which it arrived, if its slot can still
be held, or the current one.

Main statements: `finish_cases`; for a fresh arrival what is seen is the content
(`seen_arrive`).
-/
import NibbleTrie.Proofs.Act

namespace NibbleTrie

/-- A search from the head that a slot on the way of a key holds now decides about the key. -/
theorem Trie.Keyed.search_none {κ : Type u} {ν : Type v} [BEq κ] {t : Trie κ ν}
    {path : BranchId → List Nibble} {hash : κ → UInt64} {site : Site} {k : κ}
    {accept : ν → Bool} (law : Lawful hash) (K : Trie.Keyed hash path t)
    (F : Trie.Fits path t (hash k) site) (hs : (t.slot site.branch site.index).isBranch = false)
    (hnone : ((t.slot site.branch site.index).head?.bind fun head =>
      t.search head k accept) = none) (l : Content κ ν) (hl : t.toList.Perm l) :
    ((Content.lookup? l k).filter fun e => accept e.2) = none := by
  rw [Option.filter_eq_none_iff]
  intro e he
  obtain ⟨hmem, hk⟩ := Content.of_lookup?_eq_some he
  obtain ⟨b, x, hlive, hx, rfl⟩ := K.mem_toList.mp (hl.mem_iff.mpr hmem)
  have hb := K.mem_chainAt law F hs hlive hx hk
  obtain ⟨head, hslot, hlt, hchain, _⟩ := K.exists_head hb
  rw [hslot] at hnone
  have := Trie.of_search_none K.falling hlt hnone b (hchain ▸ hb)
  rw [Trie.hit_of_entry hx, hk, Bool.true_and] at this
  simp [this]

namespace TrieMap

variable {κ : Type u} {ν : Type v} [BEq κ] {m : TrieMap κ ν} {a : Arrival} {k : κ}
  {accept : ν → Bool}

/-- The entry of a key that the search from the head of an arrival finds. -/
def seen (m : TrieMap κ ν) (a : Arrival) (k : κ) : Option (κ × ν) :=
  a.head.bind fun head =>
    ((m.trieAt a.generation).search head k anyValue).map fun (_, x) => (x.key, x.value)

theorem peek_eq (m : TrieMap κ ν) (a : Arrival) (k : κ) : m.peek a k = (m.seen a k).map (·.2) := by
  rw [peek, seen]
  cases a.head with
  | none => rfl
  | some head =>
    simp only [Option.bind_some, Option.map_map]
    rfl

/-- An entry that is seen is in the chain that the arrival holds. -/
theorem exists_of_seen (S : m.Sound) {h : UInt64} (ha : m.Arrived h a) {e : κ × ν}
    (hseen : m.seen a k = some e) : ∃ head b x, a.head = some head ∧
      b ∈ (m.trieAt a.generation).chain head ∧ (m.trieAt a.generation).entries[b]? = some x ∧
      (x.key == k) = true ∧ e = (x.key, x.value) := by
  obtain ⟨path, L⟩ := S.layout ha.generation_le
  obtain ⟨head, hhead, hsearch⟩ := Option.bind_eq_some_iff.mp hseen
  obtain ⟨⟨b, x⟩, hb, rfl⟩ := Option.map_eq_some_iff.mp hsearch
  obtain ⟨hmem, hx, hk, _⟩ := Trie.of_search_some L.falling (ha.head_lt head hhead) hb
  exact ⟨head, b, x, hhead, hmem, hx, hk, rfl⟩

/-- A search for an accepted value that finds nothing has not seen one. -/
theorem seen_filter (S : m.Sound) {h : UInt64} (ha : m.Arrived h a)
    (hnone : m.find? a k accept = none) : ((m.seen a k).filter fun e => accept e.2) = none := by
  rw [Option.filter_eq_none_iff]
  intro e he
  obtain ⟨head, b, x, hhead, hmem, hx, hk, rfl⟩ := exists_of_seen S ha he
  obtain ⟨path, L⟩ := S.layout ha.generation_le
  rw [find?, hhead, Option.bind_some] at hnone
  have := Trie.of_search_none L.falling (ha.head_lt head hhead) hnone b hmem
  rw [Trie.hit_of_entry hx, hk, Bool.true_and] at this
  simp [this]

/-- What a fresh arrival sees is the content. -/
theorem seen_arrive [EquivBEq κ] (S : m.Sound) (ha : m.arrive (m.hash k) = .ok a)
    {l : Content κ ν} (hl : m.toList.Perm l) : m.seen a k = Content.lookup? l k := by
  obtain ⟨path, K⟩ := S.keyed_current
  have harr := arrived_arrive K.toLayout ha
  obtain ⟨site, harrive, F, hs⟩ := arrive_eq K.toLayout (m.hash k)
  rw [harrive] at ha
  cases ha
  cases hseen : m.seen _ k with
  | none =>
    have hnone : ((m.current.slot site.branch site.index).head?.bind fun head =>
        m.current.search head k anyValue) = none := by
      simp only [seen, trieAt_generation] at hseen
      rw [Option.bind_eq_none_iff] at hseen ⊢
      exact fun head hhead => Option.map_eq_none_iff.mp (hseen head hhead)
    have := K.search_none S.lawful F hs hnone l hl
    cases h : Content.lookup? l k with
    | none => rfl
    | some e => rw [h] at this; simp [anyValue] at this
  | some e =>
    obtain ⟨head, b, x, hhead, hmem, hx, hk, rfl⟩ := exists_of_seen S harr hseen
    simp only [trieAt_generation] at hmem hx
    have hlive : m.current.Live b := by
      refine ⟨site.branch, site.index, ?_⟩
      rw [Trie.chainAt, show (m.current.slot site.branch site.index).head? = some head from hhead]
      exact hmem
    exact (K.lookup?_of_live S.lawful hl hlive hx hk).symm

/-- How the hold of a matching slot ends: the search from the head at hand finds no match; or a
new search from the root finds none; or a slot is held. -/
theorem holdMatching_cases (S : m.Sound) (ha : m.Arrived (m.hash k) a) (accept : ν → Bool) :
    (m.holdMatching k accept probeRetries a = .ok none ∧
      ((m.seen a k).filter fun e => accept e.2) = none) ∨
    (m.holdMatching k accept probeRetries a = .ok none ∧
      ∀ l, m.toList.Perm l → ((Content.lookup? l k).filter fun e => accept e.2) = none) ∨
    ∃ held, m.holdMatching k accept probeRetries a = .ok (some held) ∧
      m.Holds (m.hash k) held ∧
      (held.generation = a.generation ∨ held.generation = m.generation) := by
  obtain ⟨r, hr, M⟩ := S.laid.exists_matching k accept a
  cases r with
  | some held =>
    obtain ⟨G, hg⟩ := M.grips S.laid ha
    exact .inr (.inr ⟨held, hr, G.holds S, hg⟩)
  | none =>
    rcases M.find?_eq_none with hnone | ⟨b, harrive, hnone⟩
    · exact .inl ⟨hr, seen_filter S ha hnone⟩
    · -- the slot was split or dropped, so the probe began again on the current trie
      obtain ⟨path, K⟩ := S.keyed_current
      obtain ⟨site, harrive', F, hs⟩ := arrive_eq K.toLayout (m.hash k)
      cases harrive.symm.trans harrive'
      rw [find?, trieAt_generation] at hnone
      exact .inr (.inl ⟨hr, K.search_none S.lawful F hs hnone⟩)

/-! ## The parts of probes -/

/-- What removing the entry of a key answers and leaves, if its value is accepted. -/
def eraseSpec (k : κ) (accept : ν → Bool) (l : Content κ ν) :
    Except Fault (Option ν) × Content κ ν :=
  match (Content.lookup? l k).filter fun e => accept e.2 with
  | some e => (.ok (some e.2), Content.without l k)
  | none => (.ok none, l)

/-- What replacing the value of a key answers and leaves, if its value is accepted. -/
def replaceSpec (k : κ) (accept : ν → Bool) (new : ν) (l : Content κ ν) :
    Except Fault Bool × Content κ ν :=
  match (Content.lookup? l k).filter fun e => accept e.2 with
  | some e => (.ok true, (e.1, new) :: Content.without l k)
  | none => (.ok false, l)

/-- What keeping or inserting a key answers and leaves. -/
def keepSpec (k : κ) (build : Except String ν) (l : Content κ ν) :
    Except Fault (Reply κ ν) × Content κ ν :=
  match Content.lookup? l k, build with
  | some e, _ => (.ok (.kept e.2 true), l)
  | none, .error message => (.error (.builder message), l)
  | none, .ok v => (.ok (.kept v false), Content.store l (k, v))

variable [EquivBEq κ]

theorem eraseWhere_cases (S : m.Sound) (ha : m.Arrived (m.hash k) a) (accept : ν → Bool) :
    (m.eraseWhere a k accept = .pure m none ∧
      ((m.seen a k).filter fun e => accept e.2) = none) ∨
    ∃ g, (g = a.generation ∨ g = m.generation) ∧
      Acts m g (m.eraseWhere a k accept) (eraseSpec k accept) := by
  rw [eraseWhere]
  rcases holdMatching_cases S ha accept with ⟨hnone, hseen⟩ | ⟨hnone, hentry⟩ | ⟨held, hheld, H, hg⟩
  · rw [hnone]
    exact .inl ⟨rfl, hseen⟩
  · rw [hnone]
    refine .inr ⟨m.generation, .inr rfl, Acts.keep.congr fun l hl => ?_⟩
    rw [trieAt_generation] at hl
    rw [eraseSpec, hentry l hl]
  · rw [hheld]
    exact .inr ⟨held.generation, hg, erase_acts S H accept⟩

theorem replaceWhere_cases (S : m.Sound) (ha : m.Arrived (m.hash k) a) (accept : ν → Bool)
    (new : ν) :
    (m.replaceWhere a k accept new = .pure m false ∧
      ((m.seen a k).filter fun e => accept e.2) = none) ∨
    ∃ g, (g = a.generation ∨ g = m.generation) ∧
      Acts m g (m.replaceWhere a k accept new) (replaceSpec k accept new) := by
  rw [replaceWhere]
  rcases holdMatching_cases S ha accept with ⟨hnone, hseen⟩ | ⟨hnone, hentry⟩ | ⟨held, hheld, H, hg⟩
  · rw [hnone]
    exact .inl ⟨rfl, hseen⟩
  · rw [hnone]
    refine .inr ⟨m.generation, .inr rfl, Acts.keep.congr fun l hl => ?_⟩
    rw [trieAt_generation] at hl
    rw [replaceSpec, hentry l hl]
  · rw [hheld]
    exact .inr ⟨held.generation, hg, replace_acts S H accept new⟩

/-- Finding out whether a key is present: it was seen, or the slot of the key is held on the
current trie and shows the entry of the key. -/
theorem settle_cases (S : m.Sound) (a : Arrival) (k : κ) :
    (∃ e, m.seen a k = some e ∧ m.settle a k = .ok (.present e.2)) ∨
    (m.seen a k = none ∧ ∃ e, m.settle a k = .ok (.present e.2) ∧
      ∀ l, m.toList.Perm l → Content.lookup? l k = some e) ∨
    (m.seen a k = none ∧ ∃ held, m.settle a k = .ok (.absent held) ∧
      held.generation = m.generation ∧ m.Holds (m.hash k) held ∧
      (m.trieAt held.generation).locate held.site k anyValue = .ok none ∧
      ∀ l, m.toList.Perm l → Content.lookup? l k = none) := by
  rw [settle, peek_eq]
  cases hseen : m.seen a k with
  | some e => exact .inl ⟨e, rfl, rfl⟩
  | none =>
    right
    obtain ⟨path, K⟩ := S.keyed_current
    obtain ⟨site, hheld, F, hs⟩ := holdSlot_eq K.toLayout (m.hash k)
    simp only [Option.map_none, hheld, trieAt_generation]
    rcases K.located S.lawful F hs anyValue with ⟨x, hx, _, _, _, hentry⟩ | ⟨hnone, habsent⟩
    · simp only [hx]
      exact .inl ⟨trivial, (x.entry.key, x.entry.value), rfl, hentry⟩
    · simp only [hnone]
      refine .inr ⟨trivial, ⟨m.generation, site⟩, rfl, rfl, ⟨Nat.le_refl _, ⟨path, ?_, ?_⟩, ?_⟩, ?_,
        fun l hl => ?_⟩
      · rw [trieAt_generation]; exact K
      · rw [trieAt_generation]; exact F
      · rw [trieAt_generation]; exact hs
      · rw [trieAt_generation]; exact hnone
      · cases h : Content.lookup? l k with
        | none => rfl
        | some e => exact absurd (habsent l hl e h) (by simp [anyValue])

theorem insertOrKeep_cases (S : m.Sound) (a : Arrival) (k : κ) (build : Except String ν) :
    (∃ e, m.seen a k = some e ∧
      finish.insertOrKeep m a k build = .pure m (.kept e.2 true)) ∨
    Acts m m.generation (finish.insertOrKeep m a k build) (keepSpec k build) := by
  rw [finish.insertOrKeep]
  rcases settle_cases S a k with ⟨e, hseen, hset⟩ | ⟨_, e, hset, hentry⟩ |
    ⟨_, held, hset, hg, H, hnone, habsent⟩
  · rw [hset]
    exact .inl ⟨e, hseen, rfl⟩
  · rw [hset]
    refine .inr (Acts.keep.congr fun l hl => ?_)
    rw [trieAt_generation] at hl
    simp only [keepSpec, hentry l hl]
  · rw [hset]
    right
    cases build with
    | error message =>
      refine Acts.keep.congr fun l hl => ?_
      rw [trieAt_generation] at hl
      simp only [keepSpec, habsent l hl]
    | ok v =>
      have A := (insertHeld_acts S H hnone v).map fun _ => (Reply.kept v false : Reply κ ν)
      rw [hg] at A
      refine A.congr fun l hl => ?_
      rw [trieAt_generation] at hl
      simp only [keepSpec, habsent l hl]
      rfl

variable [BEq ν]

omit [BEq κ] [EquivBEq κ] [BEq ν] in
theorem eq_none_of_filter_anyValue {found : Option (κ × ν)}
    (h : (found.filter fun e => anyValue e.2) = none) : found = none := by
  cases found with
  | none => rfl
  | some e => simp [anyValue] at h

omit [BEq κ] [EquivBEq κ] in
theorem judge_compareAndSwap {k : κ} {old new : ν} {found : Option (κ × ν)}
    (h : (found.filter fun e => e.2 == old) = none) :
    (Probe.compareAndSwap k old new).judge found = (.ok (.flag false), .keep) := by
  cases found with
  | none => rfl
  | some e =>
    have he : (e.2 == old) = false := by simpa using h
    simp [Probe.judge, he]

omit [BEq κ] [EquivBEq κ] in
theorem judge_compareAndErase {k : κ} {old : ν} {found : Option (κ × ν)}
    (h : (found.filter fun e => e.2 == old) = none) :
    (Probe.compareAndErase k old).judge found = (.ok (.flag false), .keep) := by
  cases found with
  | none => rfl
  | some e =>
    have he : (e.2 == old) = false := by simpa using h
    simp [Probe.judge, he]

/-- After its arrival a probe decides by what it sees and writes nothing, or it acts on the
content of the generation of its arrival or of the current one. -/
theorem finish_cases (S : m.Sound) (p : Probe κ ν) (ha : m.Arrived (m.hash p.key) a) :
    ((m.finish a p).state = m ∧
      p.judge (m.seen a p.key) = ((m.finish a p).result, .keep)) ∨
    ∃ g, (g = a.generation ∨ g = m.generation) ∧
      Acts m g (m.finish a p) fun l => Content.apply l (.probe p) := by
  cases p with
  | get? k =>
    refine .inl ⟨rfl, ?_⟩
    simp only [Probe.judge, Probe.key, finish, Effect.pure, peek_eq]
  | contains k =>
    refine .inl ⟨rfl, ?_⟩
    simp only [Probe.judge, Probe.key, finish, Effect.pure, peek_eq, Option.isSome_map]
  | getOrInsert k v =>
    rcases insertOrKeep_cases S a k (.ok v) with ⟨e, hseen, heq⟩ | A
    · left
      rw [finish, heq, Probe.key, hseen]
      exact ⟨rfl, rfl⟩
    · refine .inr ⟨m.generation, .inr rfl, A.congr fun l _ => ?_⟩
      simp only [keepSpec, Content.apply, Probe.key]
      cases Content.lookup? l k <;> rfl
  | getOrBuild k build =>
    rcases insertOrKeep_cases S a k build with ⟨e, hseen, heq⟩ | A
    · left
      rw [finish, heq, Probe.key, hseen]
      exact ⟨rfl, rfl⟩
    · refine .inr ⟨m.generation, .inr rfl, A.congr fun l _ => ?_⟩
      simp only [keepSpec, Content.apply, Probe.key]
      cases Content.lookup? l k <;> cases build <;> rfl
  | pop? k =>
    rcases eraseWhere_cases (k := k) S ha anyValue with ⟨heq, hseen⟩ | ⟨g, hg, A⟩
    · left
      rw [finish, heq, Probe.key, eq_none_of_filter_anyValue hseen]
      exact ⟨rfl, rfl⟩
    · refine .inr ⟨g, hg, (A.map (Reply.value? (κ := κ))).congr fun l _ => ?_⟩
      simp only [eraseSpec, Content.apply, Probe.key]
      cases Content.lookup? l k <;> rfl
  | erase k =>
    rcases eraseWhere_cases (k := k) S ha anyValue with ⟨heq, hseen⟩ | ⟨g, hg, A⟩
    · left
      rw [finish, heq, Probe.key, eq_none_of_filter_anyValue hseen]
      exact ⟨rfl, rfl⟩
    · refine .inr ⟨g, hg, (A.map fun v => (Reply.flag v.isSome : Reply κ ν)).congr fun l _ => ?_⟩
      simp only [eraseSpec, Content.apply, Probe.key]
      cases Content.lookup? l k <;> rfl
  | compareAndSwap k old new =>
    rcases replaceWhere_cases (k := k) S ha (· == old) new with ⟨heq, hseen⟩ | ⟨g, hg, A⟩
    · left
      rw [finish, heq, Probe.key, judge_compareAndSwap hseen]
      exact ⟨rfl, rfl⟩
    · refine .inr ⟨g, hg, (A.map (Reply.flag (κ := κ) (ν := ν))).congr fun l _ => ?_⟩
      simp only [replaceSpec, Content.apply, Probe.key]
      cases Content.lookup? l k with
      | none => rfl
      | some e =>
        cases hv : e.2 == old with
        | false => simp [Option.filter_some, Probe.judge, hv, Content.edit, Except.map]
        | true => simp [Option.filter_some, Probe.judge, hv, Content.edit, Except.map]
  | compareAndErase k old =>
    rcases eraseWhere_cases (k := k) S ha (· == old) with ⟨heq, hseen⟩ | ⟨g, hg, A⟩
    · left
      rw [finish, heq, Probe.key, judge_compareAndErase hseen]
      exact ⟨rfl, rfl⟩
    · refine .inr ⟨g, hg, (A.map fun v => (Reply.flag v.isSome : Reply κ ν)).congr fun l _ => ?_⟩
      simp only [eraseSpec, Content.apply, Probe.key]
      cases Content.lookup? l k with
      | none => rfl
      | some e =>
        cases hv : e.2 == old with
        | false => simp [Option.filter_some, Probe.judge, hv, Content.edit, Except.map]
        | true => simp [Option.filter_some, Probe.judge, hv, Content.edit, Except.map]

end TrieMap

end NibbleTrie
