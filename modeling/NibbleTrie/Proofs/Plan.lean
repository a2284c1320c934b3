/-
What an operation does with the slot of its key.

Once an operation holds the slot of its key, all that it does is to look for an
entry there and to keep, remove, replace or insert one.  A `Plan` says which,
and `carryOut` does it.  Nothing is asked of the keys.

Main statement: carrying out a plan exchanges one entry at most, unless the slot
is jammed, when nothing happens (`Laid.carryOut_cases`).
-/
import NibbleTrie.Proofs.Grip

namespace NibbleTrie

variable {κ : Type u} {ν : Type v}

namespace Edit

/-- What an edit takes away, if `found` is the entry that it is about. -/
def gone : Edit κ ν → Option (κ × ν) → Option (κ × ν)
  | .keep, _ => none
  | .remove, found | .put _ _, found => found

/-- What an edit brings. -/
def new : Edit κ ν → Option (κ × ν)
  | .keep | .remove => none
  | .put k v => some (k, v)

end Edit

/-- What an operation does with the slot of its key once it holds it. -/
structure Plan (κ : Type u) (ν : Type v) where
  key : κ
  /-- The values with which an entry counts. -/
  accept : ν → Bool
  /-- What is answered and done if this is the entry that is found. -/
  judge : Option (κ × ν) → Except Fault (Reply κ ν) × Edit κ ν
  /-- The key that is put in is the key of the operation, or the one that is found. -/
  put_key : ∀ {found k v}, (judge found).2 = .put k v → k = key ∨ ∃ e ∈ found, k = e.1
  /-- Only a builder gives up, and then nothing is done. -/
  judge_error : ∀ {found f}, (judge found).1 = .error f →
    (judge found).2 = .keep ∧ ∃ message, f = .builder message

/-! ## The plans of operations -/

section Plans
variable [BEq ν]

/-- The values with which an entry counts for a probe. -/
def Probe.accept : Probe κ ν → ν → Bool
  | .compareAndSwap _ old _ | .compareAndErase _ old => (· == old)
  | .get? _ | .contains _ | .getOrInsert _ _ | .getOrBuild _ _ | .pop? _ | .erase _ =>
    TrieMap.anyValue

theorem Probe.put_key (p : Probe κ ν) {found : Option (κ × ν)} {k : κ} {v : ν}
    (h : (p.judge found).2 = .put k v) : k = p.key ∨ ∃ e ∈ found, k = e.1 := by
  cases p <;> cases found <;> simp only [judge, Edit.put.injEq, reduceCtorEq] at h
  case getOrInsert.none => exact .inl h.1.symm
  case getOrBuild.none build =>
    cases build with
    | error _ => cases h
    | ok _ => cases h; exact .inl rfl
  case compareAndSwap.some old new e =>
    split at h
    · cases h
      exact .inr ⟨e, rfl, rfl⟩
    · cases h
  case compareAndErase.some old e => split at h <;> cases h

theorem Probe.judge_error (p : Probe κ ν) {found : Option (κ × ν)} {f : Fault}
    (h : (p.judge found).1 = .error f) :
    (p.judge found).2 = .keep ∧ ∃ message, f = .builder message := by
  cases p <;> cases found <;> simp only [judge, reduceCtorEq] at h ⊢
  case getOrBuild.none build =>
    cases build with
    | error message => cases h; exact ⟨rfl, message, rfl⟩
    | ok _ => cases h
  case compareAndSwap.some => split at h <;> cases h
  case compareAndErase.some => split at h <;> cases h

/-- The plan of a probe. -/
def Probe.plan (p : Probe κ ν) : Plan κ ν := ⟨p.key, p.accept, p.judge, p.put_key, p.judge_error⟩

omit [BEq ν] in
/-- The plan of an operation that puts its key in, whether it is present or not. -/
def Plan.store (k : κ) (v : ν) (reply : Option (κ × ν) → Reply κ ν) : Plan κ ν where
  key := k
  accept := TrieMap.anyValue
  judge found := (.ok (reply found), .put k v)
  put_key h := by cases h; exact .inl rfl
  judge_error h := by cases h

omit [BEq ν] in
/-- The plan of an operation that puts its key in if it is absent. -/
def Plan.insertNew (k : κ) (v : ν) : Plan κ ν where
  key := k
  accept := TrieMap.anyValue
  judge
    | some e => (.ok (.inserted (.error ⟨k, v, e.2⟩)), .keep)
    | none => (.ok (.inserted (.ok ())), .put k v)
  put_key {found _ _} h := by
    cases found with
    | none => cases h; exact .inl rfl
    | some _ => cases h
  judge_error {found _} h := by cases found <;> cases h

/-- The plan of an operation on one key. -/
def Op.plan? : Op κ ν → Option (Plan κ ν)
  | .probe p => some p.plan
  | .insert k v => some (.store k v fun _ => .done)
  | .swap k v => some (.store k v fun found => .value? (found.map (·.2)))
  | .insertNew k v => some (.insertNew k v)
  | .insertMany _ | .clear | .size | .isEmpty => none

omit [BEq ν] in
/-- What a probe inserts if its key is absent. -/
def Probe.entry? : Probe κ ν → Option (κ × ν)
  | .getOrInsert k v | .getOrBuild k (.ok v) => some (k, v)
  | .getOrBuild _ (.error _) | .get? _ | .contains _ | .pop? _ | .erase _ | .compareAndSwap _ _ _
  | .compareAndErase _ _ => none

omit [BEq ν] in
/-- What an operation on one key inserts if its key is absent. -/
def Op.entry? : Op κ ν → Option (κ × ν)
  | .probe p => p.entry?
  | .insert k v | .swap k v | .insertNew k v => some (k, v)
  | .insertMany _ | .clear | .size | .isEmpty => none

theorem Probe.new_judge_none (p : Probe κ ν) : (p.judge none).2.new = p.entry? := by
  cases p with
  | getOrBuild k build => cases build <;> rfl
  | _ => rfl

theorem Op.new_judge_none {op : Op κ ν} {plan : Plan κ ν} (hplan : op.plan? = some plan) :
    (plan.judge none).2.new = op.entry? := by
  cases op <;> cases hplan
  case probe p => exact p.new_judge_none
  all_goals rfl

theorem Op.entry_key {op : Op κ ν} {plan : Plan κ ν} (hplan : op.plan? = some plan) {item : κ × ν}
    (h : op.entry? = some item) : plan.key = item.1 ∧ plan.accept = TrieMap.anyValue := by
  cases op <;> cases hplan
  case probe p =>
    cases p with
    | getOrInsert k v => cases h; exact ⟨rfl, rfl⟩
    | getOrBuild k build => cases build <;> cases h; exact ⟨rfl, rfl⟩
    | _ => cases h
  all_goals cases h; exact ⟨rfl, rfl⟩

end Plans

/-! ## Carrying out a plan -/

namespace Trie

variable {t : Trie κ ν} {hash : κ → UInt64} {site : Site} {path : BranchId → List Nibble} {k : κ}
  {v : ν}

/-- Makes an edit of the entry that was found in a slot, on the way of the hash `h`. -/
def makeEdit (t : Trie κ ν) (hash : κ → UInt64) (site : Site) (h : UInt64) :
    Edit κ ν → Option (Placed κ ν) → Effect (Trie κ ν) Unit
  | .keep, _ | .remove, none => .pure t ()
  | .remove, some x => ⟨.ok (), (t.removeAt site h x).1, (t.removeAt site h x).2⟩
  | .put k v, some x => .pure (t.replace x k v) ()
  | .put k v, none => t.insertAt hash site (hash k) k v

/-- Carries out a plan on a slot. -/
def carryOut [BEq κ] (t : Trie κ ν) (hash : κ → UInt64) (site : Site) (plan : Plan κ ν) :
    Effect (Trie κ ν) (Reply κ ν) :=
  match t.locate site plan.key plan.accept with
  | .error f => .fail t f
  | .ok found =>
    let verdict := plan.judge (found.map Placed.item)
    let e := t.makeEdit hash site (hash plan.key) verdict.2 found
    ⟨e.result.bind fun _ => verdict.1, e.state, e.events⟩

theorem carryOut_eq [BEq κ] {plan : Plan κ ν} {found : Option (Placed κ ν)}
    (h : t.locate site plan.key plan.accept = .ok found) :
    t.carryOut hash site plan =
      let verdict := plan.judge (found.map Placed.item)
      let e := t.makeEdit hash site (hash plan.key) verdict.2 found
      ⟨e.result.bind fun _ => verdict.1, e.state, e.events⟩ := by
  rw [carryOut, h]

/-- The entry with an accepted value that a slot shows for a key. -/
def sought? [BEq κ] (t : Trie κ ν) (site : Site) (k : κ) (accept : ν → Bool) : Option (κ × ν) :=
  match t.locate site k accept with
  | .error _ => none
  | .ok found => found.map Placed.item

/-- The slot holds a chain whose head has another hash than `k`, but the same bits below the
slot. -/
def Jams (hash : κ → UInt64) (t : Trie κ ν) (site : Site) (k : κ) : Prop :=
  ∃ head x, t.slot site.branch site.index = .chain head ∧ t.entries[head]? = some x ∧
    hash x.key ≠ hash k ∧
      ∀ j < shiftOf site.level, (hash x.key).toNat.testBit j = (hash k).toNat.testBit j

/-- An insertion comes to its end, unless the slot is jammed. -/
theorem Insertion.cases {e : Effect (Trie κ ν) Unit} (I : Insertion hash t site k v e) :
    ((∃ t' events, e = ⟨.ok (), t', events⟩) ∧ ¬ t.Jams hash site k) ∨
      (e = .fail t .splitExhausted ∧ t.Jams hash site k) := by
  cases I with
  | front hs hhash =>
    refine .inl ⟨⟨_, _, rfl⟩, ?_⟩
    rintro ⟨head, x, hslot, hx, hne, _⟩
    exact hne (hhash head x hslot hx)
  | @split head x bs hs hx hbs =>
    refine .inl ⟨⟨_, _, rfl⟩, ?_⟩
    rintro ⟨head', x', hslot, hx', _, hlow⟩
    cases hs.symm.trans hslot
    cases hx.symm.trans hx'
    obtain ⟨n, T⟩ := splitBranches_table hbs
    have hn := T.lt_level
    exact absurd (low_nibbles_iff.mpr hlow (site.level - 1 - n) (by omega)) T.parting
  | jam hs hx hne hlow => exact .inr ⟨rfl, _, _, hs, hx, hne, low_nibbles_iff.mp hlow⟩

/-- Where entries stand where their hashes put them, no slot is jammed for the keys on its way. -/
theorem Routed.not_jams (R : Routed hash path t) (F : Fits path t (hash k) site) :
    ¬ t.Jams hash site k := by
  rintro ⟨head, x, hs, hx, hne, hlow⟩
  exact hne (R.eq_of_low F hs hx (low_nibbles_iff.mpr hlow))

/-- The plan would insert its key into the slot, and the slot is jammed. -/
def Blocked [BEq κ] (hash : κ → UInt64) (t : Trie κ ν) (site : Site) (plan : Plan κ ν) : Prop :=
  t.sought? site plan.key plan.accept = none ∧ (plan.judge none).2.new.isSome ∧
    t.Jams hash site plan.key

section Sought
variable [BEq κ] {accept : ν → Bool}

/-- What a slot shows for a key is an entry of the trie with an equal key and an accepted value. -/
theorem Layout.of_sought?_eq_some (L : Layout path t) {e : κ × ν}
    (h : t.sought? site k accept = some e) :
    e ∈ t.toList ∧ (e.1 == k) = true ∧ accept e.2 = true := by
  rw [sought?] at h
  cases hloc : t.locate site k accept with
  | error f => rw [hloc] at h; cases h
  | ok found =>
    rw [hloc] at h
    obtain ⟨x, rfl, rfl⟩ := Option.map_eq_some_iff.mp h
    obtain ⟨l₁, l₂, hc, hx, hk, ha, _⟩ := L.locate_some hloc
    refine ⟨L.mem_toList.mpr ⟨x.id, x.entry, ⟨_, _, by rw [hc]; simp⟩, hx, rfl⟩, hk, ha⟩

/-- A slot shows nothing for a key if its chain has no match. -/
theorem Layout.sought?_eq_none_iff (L : Layout path t)
    (hs : (t.slot site.branch site.index).isBranch = false) :
    t.sought? site k accept = none ↔
      ∀ a ∈ t.chainAt site.branch site.index, t.hit k accept a = false := by
  obtain ⟨found, hloc⟩ := Layout.exists_locate hs k accept
  rw [sought?, hloc, Option.map_eq_none_iff]
  refine ⟨fun h => L.locate_none (h ▸ hloc), fun h => ?_⟩
  cases found with
  | none => rfl
  | some x =>
    obtain ⟨l₁, l₂, hc, hx, hk, ha, _⟩ := L.locate_some hloc
    have hmiss := h x.id (by rw [hc]; simp)
    rw [hit_of_entry hx, hk, ha] at hmiss
    cases hmiss

end Sought

section CarryOut
variable [BEq κ] {accept : ν → Bool}

/-- Inserting a key brings it in, or the slot is jammed and nothing happens. -/
theorem Layout.insertAt_cases (L : Layout path t) (A : t.Aimed (hash k) site)
    (hw : t.isWritable site = true) (v : ν) :
    (∃ t' events, t.insertAt hash site (hash k) k v = ⟨.ok (), t', events⟩ ∧
      Change hash t t' none (some (k, v)) ∧ ¬ t.Jams hash site k) ∨
    (t.insertAt hash site (hash k) k v = .fail t .splitExhausted ∧ t.Jams hash site k) := by
  have I : Insertion hash t site k v (t.insertAt hash site (hash k) k v) :=
    L.insertAt_insertion (isWritable_iff.mp hw).2 k v
  rcases I.cases with ⟨⟨t', events, he⟩, hjam⟩ | hjam
  · rw [he] at I
    exact .inl ⟨t', events, he, .insert A hw I, hjam⟩
  · exact .inr hjam

/-- An edit exchanges the entry that was found, or the slot is jammed and nothing happens. -/
theorem Layout.makeEdit_cases (L : Layout path t) (A : t.Aimed (hash k) site)
    (hw : t.isWritable site = true) {placed : Option (Placed κ ν)}
    (hloc : t.locate site k accept = .ok placed) {edit : Edit κ ν}
    (hput : ∀ {k' v}, edit = .put k' v → k' = k ∨ ∃ e ∈ placed.map Placed.item, k' = e.1) :
    (∃ t' events, t.makeEdit hash site (hash k) edit placed = ⟨.ok (), t', events⟩ ∧
      Change hash t t' (edit.gone (placed.map Placed.item)) edit.new ∧
      ¬ (placed = none ∧ edit.new.isSome ∧ t.Jams hash site k)) ∨
    (t.makeEdit hash site (hash k) edit placed = .fail t .splitExhausted ∧
      placed = none ∧ edit.new.isSome ∧ t.Jams hash site k) := by
  cases edit with
  | keep => exact .inl ⟨t, [], rfl, .keep, fun ⟨_, h, _⟩ => absurd h (by simp [Edit.new])⟩
  | remove =>
    cases placed with
    | none => exact .inl ⟨t, [], rfl, .keep, fun ⟨_, h, _⟩ => absurd h (by simp [Edit.new])⟩
    | some x => exact .inl ⟨_, _, rfl, .remove A hw hloc, fun ⟨h, _⟩ => by cases h⟩
  | put k' v =>
    cases placed with
    | some x =>
      refine .inl ⟨_, _, rfl, .replace v hloc ?_, fun ⟨h, _⟩ => by cases h⟩
      rcases hput rfl with h | ⟨e, he, h⟩
      · exact .inl h
      · cases he
        exact .inr h
    | none =>
      obtain rfl : k' = k := by
        rcases hput rfl with h | ⟨e, he, _⟩
        · exact h
        · cases he
      rcases L.insertAt_cases A hw v with ⟨t', events, he, hC, hjam⟩ | ⟨he, hjam⟩
      · exact .inl ⟨t', events, he, hC, fun h => hjam h.2.2⟩
      · exact .inr ⟨he, rfl, rfl, hjam⟩

/-- Carrying out a plan exchanges the entry that was found, or the slot is jammed and nothing
happens. -/
theorem Layout.carryOut_cases (L : Layout path t) (plan : Plan κ ν)
    (A : t.Aimed (hash plan.key) site) (hw : t.isWritable site = true) :
    let found := t.sought? site plan.key plan.accept
    let verdict := plan.judge found
    (∃ t' events, t.carryOut hash site plan = ⟨verdict.1, t', events⟩ ∧
      Change hash t t' (verdict.2.gone found) verdict.2.new ∧ ¬ t.Blocked hash site plan) ∨
    (t.carryOut hash site plan = .fail t .splitExhausted ∧ t.Blocked hash site plan) := by
  intro found verdict
  obtain ⟨placed, hloc⟩ := Layout.exists_locate (isWritable_iff.mp hw).2 plan.key plan.accept
  have hfound : found = placed.map Placed.item := by simp only [found, sought?, hloc]
  have hblocked : t.Blocked hash site plan ↔
      placed = none ∧ verdict.2.new.isSome ∧ t.Jams hash site plan.key := by
    show found = none ∧ _ ↔ _
    rw [hfound, Option.map_eq_none_iff]
    refine and_congr_right fun h => ?_
    simp only [verdict, hfound, h, Option.map_none]
  have hput : ∀ {k' v}, verdict.2 = .put k' v →
      k' = plan.key ∨ ∃ e ∈ placed.map Placed.item, k' = e.1 := by
    intro k' v h
    rw [← hfound]
    exact plan.put_key h
  rw [hblocked, hfound, carryOut_eq hloc]
  simp only [verdict, hfound] at hput ⊢
  rcases L.makeEdit_cases A hw hloc hput with ⟨t', events, he, hC, hjam⟩ | ⟨he, hjam⟩
  · rw [he]
    exact .inl ⟨t', events, rfl, hC, hjam⟩
  · rw [he]
    exact .inr ⟨rfl, hjam⟩

end CarryOut

end Trie

namespace TrieMap

variable [BEq κ] {m : TrieMap κ ν} {a : Arrival} {held : Held} {plan : Plan κ ν}

/-- Carries out a plan on a held slot. -/
def carryOut (m : TrieMap κ ν) (held : Held) (plan : Plan κ ν) :
    Effect (TrieMap κ ν) (Reply κ ν) :=
  let hash := m.hash
  m.update held.generation fun t => t.carryOut hash held.site plan

/-- The entry of its key that a plan meets in a held slot. -/
def sought? (m : TrieMap κ ν) (held : Held) (plan : Plan κ ν) : Option (κ × ν) :=
  (m.trieAt held.generation).sought? held.site plan.key plan.accept

/-- The plan would insert its key into a held slot that is jammed. -/
def Blocked (m : TrieMap κ ν) (held : Held) (plan : Plan κ ν) : Prop :=
  (m.trieAt held.generation).Blocked m.hash held.site plan

/-- Carrying out a plan exchanges the entry that it meets, in the generation of the slot, or the
slot is jammed and nothing happens. -/
theorem Laid.carryOut_cases (H : m.Laid) (G : m.Grips (m.hash plan.key) held) :
    let found := m.sought? held plan
    let verdict := plan.judge found
    (∃ m' events, m.carryOut held plan = ⟨verdict.1, m', events⟩ ∧
      m.Amends m' held.generation (verdict.2.gone found) verdict.2.new ∧ ¬ m.Blocked held plan) ∨
    (m.carryOut held plan = .fail m .splitExhausted ∧ m.Blocked held plan) := by
  intro found verdict
  obtain ⟨path, L⟩ := H.layout held.generation G.generation_le
  rcases L.carryOut_cases plan G.aimed G.writable with ⟨t', events, he, C, hb⟩ | ⟨he, hb⟩
  · refine .inl ⟨_, _, update_eq_of_result (congrArg Effect.result he), ?_, hb⟩
    exact .of_update G.generation_le (by rw [he]; exact C)
  · exact .inr ⟨update_of_keep he, hb⟩

/-- Inserting a key into a held slot brings it in, or the slot is jammed and nothing happens. -/
theorem Laid.insertHeld_cases (H : m.Laid) {k : κ} (G : m.Grips (m.hash k) held) (v : ν) :
    (∃ m' events, m.insertHeld held k v = ⟨.ok (), m', events⟩ ∧
      m.Amends m' held.generation none (some (k, v)) ∧
      ¬ (m.trieAt held.generation).Jams m.hash held.site k) ∨
    (m.insertHeld held k v = .fail m .splitExhausted ∧
      (m.trieAt held.generation).Jams m.hash held.site k) := by
  obtain ⟨path, L⟩ := H.layout held.generation G.generation_le
  rcases L.insertAt_cases G.aimed G.writable v with ⟨t', events, he, C, hjam⟩ | ⟨he, hjam⟩
  · refine .inl ⟨_, _, update_eq_of_result (congrArg Effect.result he), ?_, hjam⟩
    exact .of_update G.generation_le (by rw [he]; exact C)
  · exact .inr ⟨update_of_keep he, hjam⟩

end TrieMap

end NibbleTrie
