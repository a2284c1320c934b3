/-
One key at a time.

Where only a key is equal to itself, the content of a map is a table with a
place for every key, and neither the order of the content nor the shape of the
trie shows in it.  An operation on one key reads the place of its key and writes
there; what it answers and what it writes is decided by the value in that place.

Main statements: an operation on one key acts on the place of its key
(`TrieMap.apply_values`), and two maps with the same values list the same
entries (`TrieMap.Sound.toList_perm`).
-/
import Mathlib.Data.List.Perm.Basic
import Mathlib.Logic.Function.Basic
import NibbleTrie.Proofs.Plan
import NibbleTrie.Proofs.Refinement

namespace NibbleTrie

variable {κ : Type u} {ν : Type v}

/-- The value of every key that has one. -/
abbrev Values (κ : Type u) (ν : Type v) := κ → Option ν

/-- The value that an edit leaves where `v?` was. -/
def Edit.value : Edit κ ν → Option ν → Option ν
  | .keep, v? => v?
  | .remove, _ => none
  | .put _ v, _ => some v

/-- What a plan answers if this is the value of its key, and the value that it leaves. -/
def Plan.on (plan : Plan κ ν) (v? : Option ν) : Except Fault (Reply κ ν) × Option ν :=
  let verdict := plan.judge (v?.map (plan.key, ·))
  (verdict.1, verdict.2.value v?)

/-- A plan puts in nothing but its own key, unless it finds another. -/
theorem Plan.put_key_self (plan : Plan κ ν) {v? : Option ν} {k : κ} {v : ν}
    (h : (plan.judge (v?.map (plan.key, ·))).2 = .put k v) : k = plan.key := by
  rcases plan.put_key h with hk | ⟨e, he, hk⟩
  · exact hk
  · obtain ⟨w, _, rfl⟩ := Option.map_eq_some_iff.mp he
    exact hk

/-- Where only a key is equal to itself, every hash function will do. -/
theorem Lawful.of_eq [DecidableEq κ] (hash : κ → UInt64) : Lawful hash :=
  ⟨fun h => congrArg hash (eq_of_beq h)⟩

namespace Content

variable [DecidableEq κ] {l l' : Content κ ν} {k : κ}

/-- The value of a key. -/
def values (l : Content κ ν) : Values κ ν := fun k => (lookup? l k).map (·.2)

theorem lookup?_eq_values (l : Content κ ν) (k : κ) :
    lookup? l k = (values l k).map (k, ·) := by
  cases h : lookup? l k with
  | none => simp [values, h]
  | some e =>
    obtain rfl : e.1 = k := eq_of_beq (of_lookup?_eq_some h).2
    simp [values, h]

/-- What is removed is missed at its own place only. -/
theorem lookup?_without (l : Content κ ν) (k k' : κ) :
    lookup? (without l k) k' = if k' = k then none else lookup? l k' := by
  split
  case isTrue h =>
    refine lookup?_eq_none fun e he => ?_
    rw [h]
    simpa using (List.mem_filter.mp he).2
  case isFalse h =>
    induction l with
    | nil => rfl
    | cons e l ih =>
      simp only [without, lookup?] at ih ⊢
      by_cases hk : e.1 = k
      · have hk' : ¬ e.1 = k' := fun h' => h (h'.symm.trans hk)
        rw [List.filter_cons_of_neg (by simp [hk]), ih, List.find?_cons_of_neg (by simp [hk'])]
      · rw [List.filter_cons_of_pos (by simp [hk]), List.find?_cons, List.find?_cons, ih]

/-- An edit of the entry of a key writes at the place of the key. -/
theorem values_edit (l : Content κ ν) {e : Edit κ ν} (he : ∀ k' v, e = .put k' v → k' = k) :
    values (edit l k e) = Function.update (values l) k (e.value (values l k)) := by
  funext k'
  cases e with
  | keep => rw [edit, Edit.value, Function.update_eq_self]
  | remove =>
    show (lookup? (without l k) k').map (·.2) = _
    rw [lookup?_without, Function.update_apply, Edit.value]
    split <;> rfl
  | put k₁ v =>
    obtain rfl := he k₁ v rfl
    show (lookup? ((k₁, v) :: without l k₁) k').map (·.2) = _
    rw [Function.update_apply, Edit.value]
    split
    case isTrue h => rw [lookup?, List.find?_cons_of_pos (by simp [h])]; rfl
    case isFalse h =>
      rw [lookup?, List.find?_cons_of_neg (by simpa using Ne.symm h), ← lookup?, lookup?_without,
        if_neg h]
      rfl

/-- An operation on one key does to the content what its plan says. -/
theorem apply_plan [BEq ν] {op : Op κ ν} {plan : Plan κ ν} (hplan : op.plan? = some plan)
    (l : Content κ ν) :
    apply l op = ((plan.judge (lookup? l plan.key)).1,
      edit l plan.key (plan.judge (lookup? l plan.key)).2) := by
  cases op <;> cases hplan
  case insertNew k v =>
    cases h : lookup? l k <;> simp [apply, Plan.insertNew, h, edit, store]
  all_goals rfl

/-- An operation on one key acts on the place of its key. -/
theorem apply_values [BEq ν] {op : Op κ ν} {plan : Plan κ ν} (hplan : op.plan? = some plan)
    (l : Content κ ν) :
    (apply l op).1 = (plan.on (values l plan.key)).1 ∧
      values (apply l op).2 =
        Function.update (values l) plan.key (plan.on (values l plan.key)).2 := by
  rw [apply_plan hplan, lookup?_eq_values]
  exact ⟨rfl, values_edit l fun _ _ h => plan.put_key_self h⟩

/-- Distinct content holds the entries that its values say. -/
theorem mem_iff_values (hl : Distinct l) {e : κ × ν} : e ∈ l ↔ values l e.1 = some e.2 := by
  constructor
  · intro he
    rw [values, lookup?_eq_some hl he BEq.rfl]
    rfl
  · intro h
    obtain ⟨e', he', hv⟩ := Option.map_eq_some_iff.mp h
    obtain ⟨hmem, hk⟩ := of_lookup?_eq_some he'
    rwa [← Prod.ext (eq_of_beq hk) hv]

theorem values_perm (hl : Distinct l) (hp : l.Perm l') : values l = values l' := by
  funext k
  rw [values, values, lookup?_perm hl hp]

/-- Distinct content is determined by its values, up to the order. -/
theorem perm_of_values (hl : Distinct l) (hl' : Distinct l') (h : values l = values l') :
    l.Perm l' := by
  have nodup : ∀ {l : Content κ ν}, Distinct l → l.Nodup := fun hl =>
    hl.imp fun {a b} hab heq => by simp [heq] at hab
  refine (List.perm_ext_iff_of_nodup (nodup hl) (nodup hl')).mpr fun e => ?_
  rw [mem_iff_values hl, mem_iff_values hl', h]

end Content

namespace TrieMap

variable [DecidableEq κ] {m m' : TrieMap κ ν}

/-- The values of a map. -/
def values (m : TrieMap κ ν) : Values κ ν := Content.values m.toList

theorem Sound.distinct (S : m.Sound) : Content.Distinct m.toList := by
  obtain ⟨_, K⟩ := S.keyed_current
  exact K.distinct_toList S.lawful

/-- Maps with the same values list the same entries. -/
theorem Sound.toList_perm (S : m.Sound) (S' : m'.Sound) (h : m.values = m'.values) :
    m.toList.Perm m'.toList :=
  Content.perm_of_values S.distinct S'.distinct h

/-- An operation on one key reads and writes the place of its key, and nothing else counts. -/
theorem apply_values [BEq ν] (S : m.Sound) {op : Op κ ν} {plan : Plan κ ν} {k : κ}
    (hplan : op.plan? = some plan) (hk : plan.key = k) :
    (m.apply op).result = (plan.on (m.values k)).1 ∧
      (m.apply op).state.values = Function.update m.values k (plan.on (m.values k)).2 := by
  subst hk
  have R := apply_refines S op
  obtain ⟨hresult, hperm⟩ := R.agrees m.toList (.refl _)
  obtain ⟨hanswer, hvalues⟩ := Content.apply_values hplan m.toList
  exact ⟨hresult.trans hanswer, (Content.values_perm R.sound.distinct hperm).trans hvalues⟩

theorem probe_values [BEq ν] (S : m.Sound) (p : Probe κ ν) (k : κ) (hk : p.key = k) :
    (m.apply (.probe p)).result = (p.plan.on (m.values k)).1 ∧
      (m.apply (.probe p)).state.values =
        Function.update m.values k (p.plan.on (m.values k)).2 :=
  apply_values S rfl hk

end TrieMap

end NibbleTrie
