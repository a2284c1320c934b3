/-
The log accounts for the branches.

Every event tells how many branches come or go (`Event.tally`): a split brings as
many as it has levels, a drop takes one away, and a cleared map begins again with
its root.  What is reported of one change is what the branches of the trie come to
(`Trie.Tallies`), whatever the keys are, and so it is along every run.  Branches
are counted in the table; by the layout those that are not dropped are the ones
that are reached (`Layout.reached_eq`).

An operation that only looks something up, replaces a value, fails or gives up
(`TrieMap.Plain`) reports nothing.  The insertion of many entries stands for one
insertion after the other, and may give up after some of them have reported.

Main statement: `TrieMap.log_accounts_for_branches`.
-/
import Mathlib.Algebra.Ring.GeomSum
import NibbleTrie.Proofs.Cutback
import NibbleTrie.Proofs.Jam
import NibbleTrie.Proofs.Report

namespace NibbleTrie

variable {κ : Type u} {ν : Type v}

namespace Event

/-- True of the report that a branch was dropped. -/
def isDrop : Event → Bool
  | .dropped _ => true
  | .prebuilt .. | .cleared | .chained _ | .split .. => false

/-- How many branches there are after an event, if there were `n` before. -/
def tally (n : Int) : Event → Int
  | .split levels _ => n + levels
  | .dropped _ => n - 1
  | .cleared => 1
  | .prebuilt .. | .chained _ => n

/-- As long as nothing is cleared, branches come by splits and go by drops. -/
theorem foldl_tally {l : List Event} (h : .cleared ∉ l) (n : Int) :
    l.foldl tally n + l.countP isDrop = n + NibbleTrie.splitLevels l := by
  induction l generalizing n with
  | nil => rfl
  | cons e l ih =>
    obtain ⟨he, hl⟩ := not_or.mp (List.mem_cons.not.mp h)
    have hrest := ih hl (tally n e)
    rw [List.foldl_cons, List.countP_cons, NibbleTrie.splitLevels]
    cases e with
    | cleared => exact absurd rfl he
    | prebuilt levels capacity => simpa [tally, isDrop, splitLevels] using hrest
    | chained level => simpa [tally, isDrop, splitLevels] using hrest
    | split levels level =>
      simp only [tally, isDrop, splitLevels] at hrest ⊢
      push_cast
      omega
    | dropped level =>
      simp only [tally, isDrop, splitLevels] at hrest ⊢
      push_cast
      omega

end Event

/-- Where the plan answers `r`, it exchanges one entry for another, or none for none. -/
def Plan.Even (plan : Plan κ ν) (r : Reply κ ν) : Prop :=
  ∀ found, (plan.judge found).1 = .ok r →
    ((plan.judge found).2.gone found).isSome = (plan.judge found).2.new.isSome

namespace Trie

variable {t t' u : Trie κ ν} {path : BranchId → List Nibble} {hash : κ → UInt64} {site : Site}
  {b : BranchId} {l l' : List Event}

/-! ## Counting branches -/

/-- The branches that are there and were not dropped. -/
def standing (t : Trie κ ν) : Finset BranchId :=
  (Finset.range t.branches.size).filter fun b => t.isDead b = false

@[simp] theorem mem_standing : b ∈ t.standing ↔ t.isDead b = false := by
  rw [standing, Finset.mem_filter, Finset.mem_range]
  exact and_iff_right_of_imp lt_of_isDead_eq_false

theorem Layout.reached_eq (L : Layout path t) : {b | t.Reached b} = ↑t.standing := by
  ext b
  exact L.reached_iff.trans mem_standing.symm

theorem standing_congr (h : ∀ b, t'.isDead b = t.isDead b) : t'.standing = t.standing := by
  ext b
  rw [mem_standing, mem_standing, h]

theorem card_standing_empty : (empty : Trie κ ν).standing.card = 1 := rfl

/-- A split brings its nested branches. -/
theorem Split.standing_eq {h₁ h₂ : UInt64} {head : EntryId} {n : Nat}
    (S : Split t t' site h₁ h₂ head n) :
    t'.standing =
      t.standing ∪ Finset.Ico t.branches.size (t.branches.size + (n + 1)) := by
  ext c
  rw [Finset.mem_union, mem_standing, mem_standing, Finset.mem_Ico]
  rcases S.cases_branch c with hc | ⟨j, hj, rfl⟩ | hc
  · rw [S.dead_old c hc]
    exact (or_iff_left fun h => absurd hc (Nat.not_lt.mpr h.1)).symm
  · refine iff_of_true (S.dead_new j hj) (.inr ⟨Nat.le_add_right _ _, ?_⟩)
    exact Nat.add_lt_add_left (Nat.lt_succ_of_le hj) _
  · have hc' := S.branches_size
    rw [hc'] at hc
    rw [isDead_of_size_le (hc' ▸ hc), isDead_of_size_le (Nat.le_of_add_right_le hc)]
    refine iff_of_false (fun h => by cases h) ?_
    rintro (h | h)
    · cases h
    · exact absurd h.2 (Nat.not_lt.mpr hc)

/-- A removal takes away as many branches as it cuts off. -/
theorem Cutback.card_standing {n : Nat} (C : Cutback t t' site n) (L : Layout path t)
    (hlive : t.isDead site.branch = false) (hbare : ∀ m < n, t.Bare site m) :
    t'.standing.card + n = t.standing.card := by
  have habove : ∀ m < n, ∃ b, t.above? site.branch m = some b := fun m hm =>
    (hbare m hm).imp fun _ h => h.1
  -- `cut m` is the branch that was `m` levels above the slot
  choose! cut hcut using habove
  have hunion : t.standing = t'.standing ∪ (Finset.range n).image cut := by
    ext c
    have hdead := C.dead c
    rw [Finset.mem_union, mem_standing, mem_standing, Finset.mem_image]
    constructor
    · intro h
      by_cases hc : t'.isDead c = true
      · obtain ⟨m, hm, hc⟩ := (hdead.mp hc).resolve_left (by rw [h]; exact Bool.false_ne_true)
        exact .inr ⟨m, Finset.mem_range.mpr hm, Option.some.inj ((hcut m hm).symm.trans hc)⟩
      · exact .inl (Bool.eq_false_iff.mpr hc)
    · rintro (h | ⟨m, hm, rfl⟩)
      · refine Bool.eq_false_iff.mpr fun hc => ?_
        rw [hdead.mpr (.inl hc)] at h
        cases h
      · exact (L.above?_spec hlive (hcut m (Finset.mem_range.mp hm))).1
  have hdisj : Disjoint t'.standing ((Finset.range n).image cut) := by
    rw [Finset.disjoint_right]
    intro c hc h
    obtain ⟨m, hm, rfl⟩ := Finset.mem_image.mp hc
    have hm := Finset.mem_range.mp hm
    rw [mem_standing, (C.dead _).mpr (.inr ⟨m, hm, hcut m hm⟩)] at h
    cases h
  have hinj : Set.InjOn cut (Finset.range n) := by
    intro m hm m' hm' heq
    have hm := hcut m (Finset.mem_range.mp hm)
    have hm' := hcut m' (Finset.mem_range.mp hm')
    rw [← heq] at hm'
    exact L.above?_inj hlive hm hm'
  rw [hunion, Finset.card_union_of_disjoint hdisj, Finset.card_image_of_injOn hinj,
    Finset.card_range]

/-! ## One change -/

/-- The branches of `t'` are those of `t` and what is reported. -/
def Tallies (t t' : Trie κ ν) (l : List Event) : Prop :=
  (t'.standing.card : Int) = l.foldl Event.tally t.standing.card

theorem Tallies.refl (t : Trie κ ν) : Tallies t t [] := rfl

theorem Tallies.trans (T : Tallies t t' l) (T' : Tallies t' u l') : Tallies t u (l ++ l') := by
  rw [Tallies, List.foldl_append, ← T]
  exact T'

theorem Tallies.clear (t : Trie κ ν) : Tallies t (empty : Trie κ ν) [.cleared] :=
  congrArg Nat.cast card_standing_empty

theorem Tallies.of_dead (h : ∀ b, t'.isDead b = t.isDead b) : Tallies t t' [] :=
  congrArg (fun s : Finset BranchId => (s.card : Int)) (standing_congr h)

theorem Tallies.chained (h : ∀ b, t'.isDead b = t.isDead b) (level : Nat) :
    Tallies t t' [.chained level] :=
  of_dead h

theorem Split.tallies {h₁ h₂ : UInt64} {head : EntryId} {n : Nat}
    (S : Split t t' site h₁ h₂ head n) (level : Nat) : Tallies t t' [.split (n + 1) level] := by
  have hdisj : Disjoint t.standing
      (Finset.Ico t.branches.size (t.branches.size + (n + 1))) := by
    rw [Finset.disjoint_left]
    intro c hc hnew
    have hlt := lt_of_isDead_eq_false (mem_standing.mp hc)
    exact absurd (Finset.mem_Ico.mp hnew).1 (Nat.not_le.mpr hlt)
  rw [Tallies, S.standing_eq, Finset.card_union_of_disjoint hdisj, Nat.card_Ico,
    Nat.add_sub_cancel_left]
  exact Nat.cast_add _ _

theorem foldl_dropEvents (level count : Nat) (n : Int) :
    (dropEvents level count).foldl Event.tally n = n - count := by
  induction count generalizing level n with
  | zero => exact (sub_zero n).symm
  | succ count ih =>
    rw [dropEvents_succ, List.foldl_cons, ih, Event.tally]
    push_cast
    omega

theorem Cutback.tallies {n : Nat} (C : Cutback t t' site n) (L : Layout path t)
    (hlive : t.isDead site.branch = false) (hbare : ∀ m < n, t.Bare site m) (level : Nat) :
    Tallies t t' (dropEvents level n) := by
  have hcard := C.card_standing L hlive hbare
  rw [Tallies, foldl_dropEvents]
  omega

/-- Inserting a key. -/
theorem Layout.insertAt_tallies (L : Layout path t) (hlive : t.isDead site.branch = false)
    (hs : (t.slot site.branch site.index).isBranch = false) (h : UInt64) (k : κ) (v : ν) :
    Tallies t (t.insertAt hash site h k v).state (t.insertAt hash site h k v).events := by
  have hfront := (L.front hlive hs site.level k v).dead
  cases hslot : t.slot site.branch site.index with
  | branch _ =>
    rw [hslot] at hs
    cases hs
  | empty =>
    rw [hslot] at hfront
    simp only [insertAt, hslot]
    exact .of_dead hfront
  | chain head =>
    rw [hslot] at hfront
    simp only [insertAt, hslot]
    split
    · exact .chained hfront _
    · split
      · exact .refl t
      · next bs hbs =>
        obtain ⟨n, T⟩ := splitBranches_table hbs
        rw [T.length]
        exact (split_publish L hlive hslot T k v).tallies _

section CarryOut
variable [BEq κ] {k : κ} {accept : ν → Bool}

/-- Removing an entry. -/
theorem Layout.removeAt_tallies (L : Layout path t) {h : UInt64} (F : Fits path t h site)
    {x : Placed κ ν} (hx : t.locate site k accept = .ok (some x)) :
    Tallies t (t.removeAt site h x).1 (t.removeAt site h x).2 := by
  rcases L.removeAt_cutback F hx with ⟨_, _, _, X, _, hevents⟩ | ⟨_, n, hn, C, hevents⟩
  · rw [hevents]
    exact .of_dead X.dead
  · rw [hevents]
    exact C.tallies L F.live hn.1 _

/-- Replacing an entry leaves the branches alone. -/
theorem Layout.isDead_replace (L : Layout path t) {x : Placed κ ν}
    (hx : t.locate site k accept = .ok (some x)) (k' : κ) (v : ν) (b : BranchId) :
    (t.replace x k' v).isDead b = t.isDead b := by
  obtain ⟨_, _, hc, hentry, _, _, hlink⟩ := L.locate_some hx
  exact (L.replace hc hentry hlink k' v).dead b

/-- Carrying out a plan. -/
theorem Layout.carryOut_tallies (L : Layout path t) (plan : Plan κ ν)
    (A : t.Aimed (hash plan.key) site) (hw : t.isWritable site = true) :
    Tallies t (t.carryOut hash site plan).state (t.carryOut hash site plan).events := by
  obtain ⟨hlive, hs⟩ := isWritable_iff.mp hw
  obtain ⟨found, hloc⟩ := Layout.exists_locate hs plan.key plan.accept
  rw [carryOut_eq hloc]
  dsimp only
  cases (plan.judge (found.map Placed.item)).2 with
  | keep => exact .refl t
  | remove =>
    cases found with
    | none => exact .refl t
    | some x => exact L.removeAt_tallies (A.fits L hlive) hloc
  | put k v =>
    cases found with
    | none => exact L.insertAt_tallies hlive hs (hash k) k v
    | some x => exact .of_dead (L.isDead_replace hloc k v)

/-! ## Plans that leave the branches alone -/

/-- A plan that is even where it has its answer leaves the branches alone and reports nothing. -/
theorem Layout.carryOut_even (L : Layout path t) {plan : Plan κ ν}
    (hs : (t.slot site.branch site.index).isBranch = false)
    (heven : ∀ r, (t.carryOut hash site plan).result = .ok r → plan.Even r) :
    (t.carryOut hash site plan).events = [] ∧
      ∀ b, (t.carryOut hash site plan).state.isDead b = t.isDead b := by
  obtain ⟨found, hloc⟩ := Layout.exists_locate hs plan.key plan.accept
  rw [carryOut_eq hloc] at heven ⊢
  dsimp only at heven ⊢
  cases hverdict : (plan.judge (found.map Placed.item)).1 with
  | error f =>
    rw [(plan.judge_error hverdict).1]
    exact ⟨rfl, fun _ => rfl⟩
  | ok r =>
    have hsame := fun hr => heven r hr (found.map Placed.item) hverdict
    cases hedit : (plan.judge (found.map Placed.item)).2 with
    | keep => exact ⟨rfl, fun _ => rfl⟩
    | remove =>
      cases found with
      | none => exact ⟨rfl, fun _ => rfl⟩
      | some x =>
        rw [hedit, hverdict] at hsame
        cases hsame rfl
    | put k v =>
      cases found with
      | some x => exact ⟨rfl, L.isDead_replace hloc k v⟩
      | none =>
        have I : Insertion hash t site k v (t.insertAt hash site (hash k) k v) :=
          L.insertAt_insertion hs k v
        rcases I.cases with ⟨⟨t', events, he⟩, _⟩ | ⟨he, _⟩
        · -- a fresh entry for none that was found is not even
          rw [hedit, hverdict, makeEdit, he] at hsame
          cases hsame rfl
        · rw [makeEdit, he]
          exact ⟨rfl, fun _ => rfl⟩

end CarryOut

/-! ## Branches built ahead -/

/-- Filling slots brings as many branches for each slot, if filling a single branch does. -/
theorem size_fillSlots {levels n : Nat}
    (fill : ∀ (t : Trie κ ν) (b : BranchId),
      (fillLevels levels b t).branches.size + 1 = t.branches.size + n)
    (b : BranchId) (slots : List Nibble) (t : Trie κ ν) :
    (slots.foldl (fillSlot levels b) t).branches.size = t.branches.size + slots.length * n := by
  induction slots generalizing t with
  | nil => rw [List.foldl_nil, List.length_nil, Nat.zero_mul, Nat.add_zero]
  | cons i rest ih =>
    have hfill := fill (t.hang b i) t.branches.size
    rw [branches_hang_size] at hfill
    rw [List.foldl_cons, ih, fillSlot, List.length_cons, Nat.succ_mul]
    omega

/-- Filling a branch with full levels brings sixteen branches for the branch, and so on. -/
theorem size_fillLevels (levels : Nat) (t : Trie κ ν) (b : BranchId) :
    (fillLevels levels b t).branches.size + 1 =
      t.branches.size + ∑ i ∈ Finset.range (levels + 1), 16 ^ i := by
  induction levels generalizing t b with
  | zero => rfl
  | succ levels ih =>
    have hslots := size_fillSlots ih b allNibbles t
    rw [geom_sum_succ]
    change (allNibbles.foldl (fillSlot levels b) t).branches.size + 1 = _
    rw [hslots, allNibbles, List.length_finRange]
    omega

theorem card_standing_prebuilt (capacity : Nat) :
    (prebuilt (levelsFor capacity) : Trie κ ν).standing.card =
      ∑ i ∈ Finset.range (levelsFor capacity + 1), 16 ^ i := by
  obtain ⟨_, _, _, _, fills⟩ := exists_fills_prebuilt (κ := κ) (ν := ν) capacity
  have hsize := size_fillLevels (levelsFor capacity) (empty : Trie κ ν) root
  have hall : (prebuilt (levelsFor capacity) : Trie κ ν).standing = Finset.range _ :=
    Finset.filter_true_of_mem fun b hb => (fills b (Finset.mem_range.mp hb)).live
  rw [hall, Finset.card_range]
  exact Nat.succ.inj (hsize.trans (Nat.add_comm _ _))

end Trie

theorem slotsAt_eq (levels : Nat) : slotsAt levels = 16 ^ (levels + 1) := by
  rw [slotsAt, shiftOf, Nat.one_shiftLeft, Nat.pow_mul]

/-- The levels that are built ahead are the most, up to a limit, that have no more slots than the
hint, or none. -/
theorem isGreatest_upTo (capacity limit : Nat) :
    IsGreatest {levels | levels ≤ limit ∧ (levels = 0 ∨ 16 ^ (levels + 1) ≤ capacity)}
      (levelsFor.upTo capacity limit) := by
  induction limit with
  | zero => exact ⟨⟨Nat.le_refl 0, .inl rfl⟩, fun _ h => h.1⟩
  | succ limit ih =>
    rw [levelsFor.upTo, slotsAt_eq]
    split
    · next hle => exact ⟨⟨Nat.le_refl _, .inr hle⟩, fun _ h => h.1⟩
    · next hgt =>
      refine ⟨⟨Nat.le_succ_of_le ih.1.1, ih.1.2⟩, fun levels h => ih.2 ⟨?_, h.2⟩⟩
      refine Nat.le_of_lt_succ (Nat.lt_of_le_of_ne h.1 ?_)
      rintro rfl
      exact h.2.elim (fun h => by cases h) hgt

namespace TrieMap

variable [BEq κ] [BEq ν] {m : TrieMap κ ν} {op : Op κ ν} {plan : Plan κ ν}

/-! ## Runs -/

theorem Laid.apply_laid (H : m.Laid) (op : Op κ ν) : (m.apply op).state.Laid := by
  have G : Instant.Good ⟨m, []⟩ := ⟨H, fun _ h => absurd h List.not_mem_nil⟩
  exact (G.runs (.apply (fun _ h => absurd h List.not_mem_nil) G op)).laid

theorem Laid.apply_tallies_keyed (H : m.Laid) (hplan : op.plan? = some plan) :
    Trie.Tallies m.current (m.apply op).state.current (m.apply op).events := by
  obtain ⟨site, _, hA, hw, heq⟩ := H.apply_eq hplan
  obtain ⟨path, L⟩ := H.layout_current
  rw [heq]
  exact L.carryOut_tallies plan hA hw

theorem Laid.insertMany_tallies (H : m.Laid) (entries : List (κ × ν)) :
    Trie.Tallies m.current (m.insertMany entries).state.current (m.insertMany entries).events := by
  induction entries generalizing m with
  | nil => exact .refl _
  | cons item rest ih =>
    obtain ⟨k, v⟩ := item
    rw [insertMany]
    rcases H.insert_cases k v with ⟨hok, H', _⟩ | ⟨he, _⟩
    · have hplan : (Op.insert k v).plan? = some _ := rfl
      have T := H.apply_tallies_keyed hplan
      change Trie.Tallies _ (m.insert k v).state.current (m.insert k v).events at T
      rw [(Effect.andThen_of_ok hok).2, Effect.events_andThen_of_ok hok]
      exact T.trans (ih H')
    · rw [he]
      exact .refl _

/-- What an operation reports is what the branches come to. -/
theorem Laid.apply_tallies (H : m.Laid) (op : Op κ ν) :
    Trie.Tallies m.current (m.apply op).state.current (m.apply op).events := by
  cases hplan : op.plan? with
  | some plan => exact H.apply_tallies_keyed hplan
  | none =>
    cases op with
    | insertMany entries => exact H.insertMany_tallies entries
    | clear => exact .clear _
    | size => exact .refl _
    | isEmpty => exact .refl _
    | _ => cases hplan

theorem Laid.run_laid (H : m.Laid) (ops : List (Op κ ν)) : (m.run ops).2.Laid := by
  induction ops generalizing m with
  | nil => exact H
  | cons op ops ih => exact ih (H.apply_laid op)

/-- What operations report that run one after another is what the branches come to. -/
theorem Laid.run_tallies (H : m.Laid) (ops : List (Op κ ν)) :
    Trie.Tallies m.current (m.run ops).2.current (m.log ops) := by
  induction ops generalizing m with
  | nil => exact .refl _
  | cons op ops ih => exact (H.apply_tallies op).trans (ih (H.apply_laid op))

/-! ## Operations that report nothing -/

/-- By what it answers, the operation has looked something up, replaced a value, failed, or ended
with a fault. -/
inductive Plain (m : TrieMap κ ν) : Op κ ν → Prop
  | get? (k : κ) : Plain m (.probe (.get? k))
  | contains (k : κ) : Plain m (.probe (.contains k))
  | size : Plain m .size
  | isEmpty : Plain m .isEmpty
  /-- The key was present. -/
  | getOrInsert {k : κ} {v u : ν} :
    (m.apply (.probe (.getOrInsert k v))).result = .ok (.kept u true) →
    Plain m (.probe (.getOrInsert k v))
  | getOrBuild {k : κ} {build : Except String ν} {u : ν} :
    (m.apply (.probe (.getOrBuild k build))).result = .ok (.kept u true) →
    Plain m (.probe (.getOrBuild k build))
  | insertNew {k : κ} {v : ν} {o : Occupied κ ν} :
    (m.apply (.insertNew k v)).result = .ok (.inserted (.error o)) → Plain m (.insertNew k v)
  /-- A value was replaced. -/
  | swap {k : κ} {v u : ν} : (m.apply (.swap k v)).result = .ok (.value? (some u)) →
    Plain m (.swap k v)
  /-- Setting the value of a key does not tell whether it is replaced; `swap` would. -/
  | insert {k : κ} {v u : ν} : (m.apply (.swap k v)).result = .ok (.value? (some u)) →
    Plain m (.insert k v)
  | compareAndSwap (k : κ) (old new : ν) : Plain m (.probe (.compareAndSwap k old new))
  /-- There was nothing to remove. -/
  | pop? {k : κ} : (m.apply (.probe (.pop? k))).result = .ok (.value? none) →
    Plain m (.probe (.pop? k))
  | erase {k : κ} : (m.apply (.probe (.erase k))).result = .ok (.flag false) →
    Plain m (.probe (.erase k))
  | compareAndErase {k : κ} {old : ν} :
    (m.apply (.probe (.compareAndErase k old))).result = .ok (.flag false) →
    Plain m (.probe (.compareAndErase k old))
  | fault {op : Op κ ν} {f : Fault} : op.isSingle = true → (m.apply op).result = .error f →
    Plain m op

/-- An operation whose plan is even where it has its answer leaves the branches alone and reports
nothing. -/
theorem Laid.apply_even (H : m.Laid) (hplan : op.plan? = some plan)
    (heven : ∀ r, (m.apply op).result = .ok r → plan.Even r) :
    (m.apply op).events = [] ∧
      ∀ b, (m.apply op).state.current.isDead b = m.current.isDead b := by
  obtain ⟨site, _, _, hw, heq⟩ := H.apply_eq hplan
  obtain ⟨path, L⟩ := H.layout_current
  rw [heq] at heven ⊢
  exact L.carryOut_even (Trie.isWritable_iff.mp hw).2 heven

/-- The same for an operation whose answer is known. -/
theorem Laid.apply_even_of_result (H : m.Laid) (hplan : op.plan? = some plan) {r : Reply κ ν}
    (hresult : (m.apply op).result = .ok r) (heven : plan.Even r) :
    (m.apply op).events = [] ∧
      ∀ b, (m.apply op).state.current.isDead b = m.current.isDead b := by
  refine H.apply_even hplan fun r' hr => ?_
  cases hresult.symm.trans hr
  exact heven

theorem Laid.apply_plain (H : m.Laid) (h : m.Plain op) :
    (m.apply op).events = [] ∧
      ∀ b, (m.apply op).state.current.isDead b = m.current.isDead b := by
  have hswap : ∀ {k : κ} {v u : ν}, (m.apply (.swap k v)).result = .ok (.value? (some u)) →
      (m.apply (.swap k v)).events = [] ∧
        ∀ b, (m.apply (.swap k v)).state.current.isDead b = m.current.isDead b := fun h =>
    H.apply_even_of_result rfl h fun
      | none, hj => by cases hj
      | some _, _ => rfl
  cases h with
  | get? k => exact H.apply_even rfl fun _ _ _ _ => rfl
  | contains k => exact H.apply_even rfl fun _ _ _ _ => rfl
  | size => exact ⟨rfl, fun _ => rfl⟩
  | isEmpty => exact ⟨rfl, fun _ => rfl⟩
  | getOrInsert h =>
    refine H.apply_even_of_result rfl h fun found hj => ?_
    cases found with
    | none => cases hj
    | some e => rfl
  | @getOrBuild k build u h =>
    refine H.apply_even_of_result rfl h fun found hj => ?_
    cases found with
    | none => cases build <;> cases hj
    | some e => rfl
  | insertNew h =>
    refine H.apply_even_of_result rfl h fun found hj => ?_
    cases found with
    | none => cases hj
    | some e => rfl
  | swap h => exact hswap h
  | insert h => exact hswap h
  | compareAndSwap k old new =>
    refine H.apply_even rfl fun _ _ found _ => ?_
    cases found with
    | none => rfl
    | some e =>
      simp only [Probe.plan, Probe.judge]
      split <;> rfl
  | pop? h =>
    refine H.apply_even_of_result rfl h fun found hj => ?_
    cases found with
    | none => rfl
    | some e => cases hj
  | erase h =>
    refine H.apply_even_of_result rfl h fun found hj => ?_
    cases found with
    | none => rfl
    | some e => cases hj
  | @compareAndErase k old h =>
    refine H.apply_even_of_result rfl h fun found hj => ?_
    cases found with
    | none => rfl
    | some e =>
      simp only [Probe.plan, Probe.judge] at hj ⊢
      split at hj
      · cases hj
      · next hold =>
        rw [if_neg hold]
        rfl
  | @fault _ f hop h =>
    cases hplan : op.plan? with
    | some plan =>
      refine H.apply_even hplan fun _ hr => ?_
      cases h.symm.trans hr
    | none =>
      cases op with
      | size => exact ⟨rfl, fun _ => rfl⟩
      | isEmpty => exact ⟨rfl, fun _ => rfl⟩
      | insertMany _ => cases hop
      | clear => cases hop
      | _ => cases hplan

/-! ## Inserting many entries -/

/-- The insertions that inserting many entries stands for. -/
def insertions (entries : List (κ × ν)) : List (Op κ ν) := entries.map fun e => .insert e.1 e.2

/-- Inserting many entries comes to inserting them one after the other, all of them or those before
the first one that ends with a fault. -/
inductive Unrolls (m : TrieMap κ ν) : List (κ × ν) → Effect (TrieMap κ ν) (Reply κ ν) → Prop
  | all (entries : List (κ × ν)) : Unrolls m entries
      ⟨.ok .done, (m.run (insertions entries)).2, m.log (insertions entries)⟩
  | upTo (done : List (κ × ν)) {rest : List (κ × ν)} {k : κ} {v : ν} {f : Fault} :
      ((m.run (insertions done)).2.apply (.insert k v)).result = .error f →
      Unrolls m (done ++ (k, v) :: rest)
        ⟨.error f, (m.run (insertions done)).2, m.log (insertions done)⟩

theorem Unrolls.cons {k : κ} {v : ν} {rest : List (κ × ν)} {e : Effect (TrieMap κ ν) (Reply κ ν)}
    (U : (m.apply (.insert k v)).state.Unrolls rest e) :
    m.Unrolls ((k, v) :: rest)
      ⟨e.result, e.state, (m.apply (.insert k v)).events ++ e.events⟩ := by
  cases U with
  | all => exact .all ((k, v) :: rest)
  | @upTo done more k' v' f h => exact .upTo ((k, v) :: done) h

/-- Inserting many entries begins with the first, and goes on if that is inserted. -/
theorem apply_insertMany_cons {k : κ} {v : ν} (rest : List (κ × ν))
    (hok : (m.insert k v).result = .ok ()) :
    m.apply (.insertMany ((k, v) :: rest)) =
      let e := (m.insert k v).state.apply (.insertMany rest)
      ⟨e.result, e.state, (m.insert k v).events ++ e.events⟩ := by
  simp only [apply, insertMany]
  generalize m.insert k v = e at hok ⊢
  obtain ⟨result, state, events⟩ := e
  obtain rfl : result = .ok () := hok
  rfl

theorem Laid.insertMany_unrolls (H : m.Laid) (entries : List (κ × ν)) :
    m.Unrolls entries (m.apply (.insertMany entries)) := by
  induction entries generalizing m with
  | nil => exact .all []
  | cons item rest ih =>
    obtain ⟨k, v⟩ := item
    rcases H.insert_cases k v with ⟨hok, H', _⟩ | ⟨he, _⟩
    · rw [apply_insertMany_cons rest hok]
      exact (ih H').cons
    · have hfault : (m.apply (.insert k v)).result = .error .splitExhausted := by
        rw [apply, he]
        rfl
      rw [apply, insertMany, he]
      exact .upTo [] hfault

/-! ## The log of a map -/

/-- Everything that was reported since the map was made, `l`, accounts for the branches that are
reached: since the map was last cleared, or made with branches built ahead for `capacity`, branches
came by splits and went by drops. -/
structure Balanced (capacity : Nat) (m : TrieMap κ ν) (l : List Event) : Prop where
  finite : {b | m.current.Reached b}.Finite
  made : .cleared ∉ l → {b | m.current.Reached b}.ncard + l.countP Event.isDrop =
    ∑ i ∈ Finset.range (levelsFor capacity + 1), 16 ^ i + splitLevels l
  cleared : ∀ {before since : List Event}, l = before ++ .cleared :: since → .cleared ∉ since →
    {b | m.current.Reached b}.ncard + since.countP Event.isDrop = 1 + splitLevels since

omit [BEq ν] in
theorem Laid.balanced (H : m.Laid) {capacity : Nat} {l : List Event}
    (T : Trie.Tallies (Trie.prebuilt (levelsFor capacity)) m.current l) :
    m.Balanced capacity l := by
  obtain ⟨path, L⟩ := H.layout_current
  rw [Trie.Tallies, Trie.card_standing_prebuilt] at T
  refine ⟨?_, fun hl => ?_, ?_⟩
  · rw [L.reached_eq]
    exact Finset.finite_toSet _
  · have hcount := Event.foldl_tally hl (∑ i ∈ Finset.range (levelsFor capacity + 1), 16 ^ i : Nat)
    rw [← T] at hcount
    rw [L.reached_eq, Set.ncard_coe_finset]
    exact_mod_cast hcount
  · rintro before since rfl hsince
    have hcount := Event.foldl_tally hsince 1
    rw [List.foldl_append, List.foldl_cons, Event.tally] at T
    rw [← T] at hcount
    rw [L.reached_eq, Set.ncard_coe_finset]
    exact_mod_cast hcount

/-- Whatever the keys are, and whatever operations run one after another on a map that was made
with branches built ahead: what was reported accounts for the branches that are reached.  An
operation that only looks something up, replaces a value, fails or ends with a fault reports nothing
and leaves these branches as they are.  Inserting many entries is inserting one after the other, as
far as none ends with a fault. -/
theorem log_accounts_for_branches (hash : κ → UInt64) (capacity : Nat) (ops : List (Op κ ν)) :
    let start : Effect (TrieMap κ ν) Unit := withCapacity hash capacity
    let m := (start.state.run ops).2
    IsGreatest {levels | levels ≤ 3 ∧ (levels = 0 ∨ 16 ^ (levels + 1) ≤ capacity)}
      (levelsFor capacity) ∧
    m.Balanced capacity (start.events ++ start.state.log ops) ∧
    (∀ op, m.Plain op → (m.apply op).events = [] ∧
      {b | (m.apply op).state.current.Reached b} = {b | m.current.Reached b}) ∧
    ∀ entries, m.Unrolls entries (m.apply (.insertMany entries)) := by
  intro start m
  have H₀ : start.state.Laid := laid_withCapacity hash capacity
  have H : m.Laid := H₀.run_laid ops
  have T₀ : Trie.Tallies (Trie.prebuilt (levelsFor capacity)) start.state.current start.events := by
    simp only [start, withCapacity]
    split
    · exact .refl _
    · exact rfl
  refine ⟨isGreatest_upTo capacity maxPrebuiltLevels, H.balanced (T₀.trans (H₀.run_tallies ops)),
    fun op h => ?_, H.insertMany_unrolls⟩
  obtain ⟨hevents, hdead⟩ := H.apply_plain h
  obtain ⟨_, L⟩ := H.layout_current
  obtain ⟨_, L'⟩ := (H.apply_laid op).layout_current
  exact ⟨hevents, by rw [L.reached_eq, L'.reached_eq, Trie.standing_congr hdead]⟩

/-- The key 1 is left below the two branches of a split and the root, and replacing its value
changes nothing about that. -/
theorem log_accounts_for_branches_deep :
    {b | Instant.deep.current.Reached b}.ncard = 3 ∧
      (Instant.deep.apply (.probe (.compareAndSwap 1 6 7))).events = [] := by
  obtain ⟨_, balanced, plain, _⟩ := log_accounts_for_branches Instant.afar 0
    ([.insert 0 5, .insert 1 6, .probe (.erase 0)] : List (Op Nat Nat))
  have hlog : (withCapacity Instant.afar 0 : Effect (TrieMap Nat Nat) Unit).events ++
      (withCapacity Instant.afar 0 : Effect (TrieMap Nat Nat) Unit).state.log
        [.insert 0 5, .insert 1 6, .probe (.erase 0)] = [.split 2 13] := by decide +kernel
  rw [hlog] at balanced
  exact ⟨balanced.made (by decide), (plain _ (.compareAndSwap 1 6 7)).1⟩

/-- Inserting many entries can end with a fault and have reported something: the key 5 splits a
slot, and then the key 4 cannot be put in. -/
theorem fault_after_report :
    ¬ ∀ (capacity : Nat) (ops : List (Op Tagged Nat)) (op : Op Tagged Nat) (f : Fault),
      let m := ((withCapacity Tagged.hash capacity : Effect _ Unit).state.run ops).2
      (m.apply op).result = .error f → (m.apply op).events = [] := by
  intro h
  have hevents := h 0 goAstray (.insertMany [(⟨5, 0x0210000000000000⟩, 50), (⟨4, 0⟩, 40)])
    .splitExhausted rfl
  cases hevents

end TrieMap

end NibbleTrie
