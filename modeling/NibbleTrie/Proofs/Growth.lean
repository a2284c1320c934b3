/-
Tries as they are built.

The empty trie has a layout, and so has a trie with branches built ahead: each
step of the construction hangs one empty branch into one empty slot (`Hung`), and
many of them are growth below a branch (`Grown`).

Main statement: a trie with branches built ahead has a layout, and only the
branches of its lowest level have empty slots (`exists_fills_prebuilt`).
-/
import NibbleTrie.Proofs.Relink
import NibbleTrie.Trie.Prebuilt

namespace NibbleTrie

namespace Trie

variable {κ : Type u} {ν : Type v} {t t' : Trie κ ν} {path path' : BranchId → List Nibble}

theorem slot_empty (b : BranchId) (i : Nibble) : (empty : Trie κ ν).slot b i = .empty := by
  cases b with
  | zero => simp [slot, empty]
  | succ b => exact slot_of_size_le (t := empty) (Nat.succ_le_succ (Nat.zero_le b)) i

theorem isDead_empty (b : BranchId) : (empty : Trie κ ν).isDead b = decide (b ≠ root) := by
  cases b with
  | zero => rfl
  | succ b => exact isDead_of_size_le (t := empty) (Nat.succ_le_succ (Nat.zero_le b))

theorem falling_of_no_entries (h : t.entries = #[]) : t.Falling where
  next_lt hn := by simp [next?, h] at hn
  birth_next hn := by simp [next?, h] at hn
  birth_le e := by simp [birth, h]

theorem layout_empty : Layout (fun _ => []) (empty : Trie κ ν) where
  root_live := rfl
  root_path := rfl
  root_parent := rfl
  depth _ := by simp
  child_live hs := by rw [slot_empty] at hs; cases hs
  child_parent hs := by rw [slot_empty] at hs; cases hs
  child_path hs := by rw [slot_empty] at hs; cases hs
  held hlive hne := by
    rw [isDead_empty, decide_eq_true hne] at hlive
    cases hlive
  dead_empty _ i := slot_empty _ i
  head_lt hs := by rw [slot_empty] at hs; cases hs
  falling := falling_of_no_entries rfl
  apart he := by
    rw [chainAt_of_empty (slot_empty _ _)] at he
    cases he

/-- `t'` has the branches of `t`, and new ones below the slots of `b`. -/
structure Grown (path path' : BranchId → List Nibble) (t t' : Trie κ ν) (b : BranchId) :
    Prop where
  layout : Layout path' t'
  entries : t'.entries = t.entries
  count : t'.count = t.count
  size_le : t.branches.size ≤ t'.branches.size
  path_old : ∀ c < t.branches.size, path' c = path c
  dead_old : ∀ c < t.branches.size, t'.isDead c = t.isDead c
  slot_old : ∀ c < t.branches.size, c ≠ b → ∀ i, t'.slot c i = t.slot c i

namespace Grown

theorem refl (L : Layout path t) (b : BranchId) : Grown path path t t b :=
  ⟨L, rfl, rfl, Nat.le_refl _, fun _ _ => rfl, fun _ _ => rfl, fun _ _ _ _ => rfl⟩

/-- Growth below a new branch is growth below the branch in which it was hung. -/
theorem trans {path₁ path₂ : BranchId → List Nibble} {t₁ t₂ : Trie κ ν} {b a : BranchId}
    (G : Grown path path₁ t t₁ b) (G' : Grown path₁ path₂ t₁ t₂ a)
    (ha : a = b ∨ t.branches.size ≤ a) : Grown path path₂ t t₂ b where
  layout := G'.layout
  entries := G'.entries.trans G.entries
  count := G'.count.trans G.count
  size_le := Nat.le_trans G.size_le G'.size_le
  path_old c hc := (G'.path_old c (Nat.lt_of_lt_of_le hc G.size_le)).trans (G.path_old c hc)
  dead_old c hc := (G'.dead_old c (Nat.lt_of_lt_of_le hc G.size_le)).trans (G.dead_old c hc)
  slot_old c hc hcb i := by
    refine (G'.slot_old c (Nat.lt_of_lt_of_le hc G.size_le) ?_ i).trans (G.slot_old c hc hcb i)
    rintro rfl
    rcases ha with rfl | ha
    · exact hcb rfl
    · exact absurd hc (Nat.not_lt.mpr ha)

end Grown

/-! ## One new branch -/

/-- The trie with a new branch in a slot. -/
def hang (t : Trie κ ν) (b : BranchId) (i : Nibble) : Trie κ ν :=
  (t.pushBranches [Branch.new (some b)]).setSlot b i (.branch t.branches.size)

theorem branches_hang_size (t : Trie κ ν) (b : BranchId) (i : Nibble) :
    (t.hang b i).branches.size = t.branches.size + 1 := by
  rw [hang, branches_setSlot_size, pushBranches, Array.size_append]
  rfl

/-- The trie `u` is `t` with a new branch in the slot `i` of `b`, slot by slot. -/
structure Hung (t u : Trie κ ν) (b : BranchId) (i : Nibble) : Prop where
  size_eq : u.branches.size = t.branches.size + 1
  entries : u.entries = t.entries
  count : u.count = t.count
  dead_old : ∀ c < t.branches.size, u.isDead c = t.isDead c
  dead_new : u.isDead t.branches.size = false
  parent_old : ∀ c < t.branches.size, u.parent? c = t.parent? c
  parent_new : u.parent? t.branches.size = some b
  slot_self : u.slot b i = .branch t.branches.size
  slot_old : ∀ c < t.branches.size, ∀ j, ¬(c = b ∧ j = i) → u.slot c j = t.slot c j
  slot_new : ∀ j, u.slot t.branches.size j = .empty

/-- The path of the new branch goes through the slot in which it hangs. -/
def hungPath (path : BranchId → List Nibble) (t : Trie κ ν) (b : BranchId) (i : Nibble) :
    BranchId → List Nibble :=
  fun c => if c < t.branches.size then path c else path b ++ [i]

theorem hung_hang {b : BranchId} (hb : b < t.branches.size) (i : Nibble) :
    Hung t (t.hang b i) b i where
  size_eq := t.branches_hang_size b i
  entries := rfl
  count := rfl
  dead_old c hc := by rw [hang, isDead_setSlot, isDead_pushBranches_of_lt t _ hc]
  dead_new := by
    rw [hang, isDead_setSlot, isDead_pushBranches_of_ge t _ (Nat.le_refl _), Nat.sub_self]
    rfl
  parent_old c hc := by rw [hang, parent?_setSlot, parent?_pushBranches_of_lt t _ hc]
  parent_new := by
    rw [hang, parent?_setSlot, parent?_pushBranches_of_ge t _ (Nat.le_refl _), Nat.sub_self]
    rfl
  slot_self := by
    have hb' : b < (t.pushBranches [Branch.new (some b)]).branches.size := by
      rw [pushBranches, Array.size_append]
      exact Nat.lt_of_lt_of_le hb (Nat.le_add_right _ _)
    rw [hang, slot_setSlot, if_pos ⟨rfl, rfl, hb'⟩]
  slot_old c hc j h := by
    rw [hang, slot_setSlot, if_neg fun h' => h ⟨h'.1.symm, h'.2.1.symm⟩,
      slot_pushBranches_of_lt t _ j hc]
  slot_new j := by
    rw [hang, slot_setSlot, if_neg fun h => absurd h.1 (Nat.ne_of_lt hb),
      slot_pushBranches_of_ge t _ j (Nat.le_refl _), Nat.sub_self]
    exact Branch.get_new (some b) j

namespace Hung

variable {u : Trie κ ν} {b : BranchId} {i : Nibble}

/-- A branch of the new table is an old one, the new one, or none. -/
theorem cases_branch (H : Hung t u b i) (c : BranchId) :
    c < t.branches.size ∨ c = t.branches.size ∨ u.branches.size ≤ c := by
  rw [H.size_eq]
  rcases Nat.lt_trichotomy c t.branches.size with h | h | h
  · exact .inl h
  · exact .inr (.inl h)
  · exact .inr (.inr h)

/-- A slot is the one the new branch hangs in, an old one that holds what it held, or empty. -/
theorem slot_cases (H : Hung t u b i) (c : BranchId) (j : Nibble) :
    (c = b ∧ j = i) ∨ (c < t.branches.size ∧ u.slot c j = t.slot c j) ∨ u.slot c j = .empty := by
  rcases H.cases_branch c with hc | rfl | hc
  · by_cases h : c = b ∧ j = i
    · exact .inl h
    · exact .inr (.inl ⟨hc, H.slot_old c hc j h⟩)
  · exact .inr (.inr (H.slot_new j))
  · exact .inr (.inr (slot_of_size_le hc j))

theorem of_slot_branch (H : Hung t u b i) {c a : BranchId} {j : Nibble}
    (h : u.slot c j = .branch a) :
    (c = b ∧ j = i ∧ a = t.branches.size) ∨ (c < t.branches.size ∧ t.slot c j = .branch a) := by
  rcases H.slot_cases c j with ⟨rfl, rfl⟩ | ⟨hc, hsame⟩ | hempty
  · rw [H.slot_self] at h
    cases h
    exact .inl ⟨rfl, rfl, rfl⟩
  · exact .inr ⟨hc, hsame ▸ h⟩
  · rw [hempty] at h
    cases h

theorem chainAt_eq (H : Hung t u b i) (hs : t.slot b i = .empty) (c : BranchId) (j : Nibble) :
    u.chainAt c j = t.chainAt c j := by
  by_cases h : c = b ∧ j = i
  · obtain ⟨rfl, rfl⟩ := h
    rw [chainAt_of_branch H.slot_self, chainAt_of_empty hs]
  · rcases H.cases_branch c with hc | rfl | hc
    · exact chainAt_congr H.entries (H.slot_old c hc j h)
    · rw [chainAt_of_empty (H.slot_new j), chainAt_of_empty (slot_of_size_le (Nat.le_refl _) j)]
    · have hc' : t.branches.size ≤ c := Nat.le_trans (H.size_eq ▸ Nat.le_succ _) hc
      rw [chainAt_of_empty (slot_of_size_le hc j), chainAt_of_empty (slot_of_size_le hc' j)]

theorem path_old {c : BranchId} (hc : c < t.branches.size) : hungPath path t b i c = path c :=
  if_pos hc

theorem path_new : hungPath path t b i t.branches.size = path b ++ [i] :=
  if_neg (Nat.lt_irrefl _)

/-- A new branch in an empty slot keeps the layout. -/
theorem layout (H : Hung t u b i) (L : Layout path t) (hlive : t.isDead b = false)
    (hs : t.slot b i = .empty) (hdepth : (path b).length + 1 < 16) :
    Layout (hungPath path t b i) u := by
  have hroot := lt_of_isDead_eq_false L.root_live
  have hb := lt_of_isDead_eq_false hlive
  exact
    { root_live := (H.dead_old root hroot).trans L.root_live
      root_path := (path_old hroot).trans L.root_path
      root_parent := (H.parent_old root hroot).trans L.root_parent
      depth := by
        intro c hc
        rcases H.cases_branch c with h | rfl | h
        · rw [path_old h]
          exact L.depth ((H.dead_old c h).symm.trans hc)
        · rw [path_new, List.length_append]
          exact hdepth
        · rw [isDead_of_size_le h] at hc
          cases hc
      child_live := by
        intro c j a h
        rcases H.of_slot_branch h with ⟨rfl, rfl, rfl⟩ | ⟨_, h⟩
        · exact H.dead_new
        · exact (H.dead_old a (lt_of_isDead_eq_false (L.child_live h))).trans (L.child_live h)
      child_parent := by
        intro c j a h
        rcases H.of_slot_branch h with ⟨rfl, rfl, rfl⟩ | ⟨_, h⟩
        · exact H.parent_new
        · exact (H.parent_old a (lt_of_isDead_eq_false (L.child_live h))).trans (L.child_parent h)
      child_path := by
        intro c j a h
        rcases H.of_slot_branch h with ⟨rfl, rfl, rfl⟩ | ⟨hc, h⟩
        · rw [path_new, path_old hb]
        · rw [path_old hc, path_old (lt_of_isDead_eq_false (L.child_live h))]
          exact L.child_path h
      held := by
        intro c hc hne
        rcases H.cases_branch c with h | rfl | h
        · obtain ⟨a, j, ha⟩ := L.held ((H.dead_old c h).symm.trans hc) hne
          have ha' := lt_of_isDead_eq_false (L.live_of_slot (i := j) (by rw [ha]; simp))
          refine ⟨a, j, (H.slot_old a ha' j ?_).trans ha⟩
          rintro ⟨rfl, rfl⟩
          rw [hs] at ha
          cases ha
        · exact ⟨b, i, H.slot_self⟩
        · rw [isDead_of_size_le h] at hc
          cases hc
      dead_empty := by
        intro c hc j
        rcases H.slot_cases c j with ⟨rfl, rfl⟩ | ⟨h, hsame⟩ | hempty
        · rw [H.dead_old c hb, hlive] at hc
          cases hc
        · rw [hsame]
          exact L.dead_empty ((H.dead_old c h).symm.trans hc) j
        · exact hempty
      head_lt := by
        intro c j e h
        rw [H.entries]
        rcases H.slot_cases c j with ⟨rfl, rfl⟩ | ⟨_, hsame⟩ | hempty
        · rw [H.slot_self] at h
          cases h
        · exact L.head_lt (hsame ▸ h)
        · rw [hempty] at h
          cases h
      falling := L.falling.congr H.entries
      apart := by
        intro c j c' j' e he he'
        rw [H.chainAt_eq hs] at he he'
        exact L.apart he he' }

/-- A new branch in an empty slot is growth. -/
theorem grown (H : Hung t u b i) (L : Layout path t) (hlive : t.isDead b = false)
    (hs : t.slot b i = .empty) (hdepth : (path b).length + 1 < 16) :
    Grown path (hungPath path t b i) t u b where
  layout := H.layout L hlive hs hdepth
  entries := H.entries
  count := H.count
  size_le := H.size_eq ▸ Nat.le_succ _
  path_old _ hc := path_old hc
  dead_old := H.dead_old
  slot_old c hc hcb j := H.slot_old c hc j fun h => hcb h.1

end Hung

/-! ## Filling branches -/

/-- One step of the construction, in the words of `fillLevels`. -/
def fillSlot (levels : Nat) (b : BranchId) (t : Trie κ ν) (i : Nibble) : Trie κ ν :=
  fillLevels levels t.branches.size (t.hang b i)

/-- A live branch that stands at most `n` levels down, and has no empty slot unless it stands just
that far. -/
structure Fills (path : BranchId → List Nibble) (t : Trie κ ν) (n : Nat) (c : BranchId) :
    Prop where
  live : t.isDead c = false
  length_le : (path c).length ≤ n
  full : (path c).length < n → ∀ i, t.slot c i ≠ .empty

/-- Only a branch of the lowest level is empty. -/
theorem Fills.lowest {c : BranchId} {n : Nat} (F : Fills path t n c)
    (hempty : ∀ i, t.slot c i = .empty) : (path c).length = n := by
  rcases Nat.lt_or_eq_of_le F.length_le with hlt | heq
  · exact absurd (hempty 0) (F.full hlt 0)
  · exact heq

/-- A branch below which nothing is hung fills as it did. -/
theorem Grown.fills {b c : BranchId} {n : Nat} (G : Grown path path' t t' b)
    (F : Fills path t n c) (hc : c < t.branches.size) (hne : c ≠ b) : Fills path' t' n c where
  live := (G.dead_old c hc).trans F.live
  length_le := by rw [G.path_old c hc]; exact F.length_le
  full hlt i := by
    rw [G.path_old c hc] at hlt
    rw [G.slot_old c hc hne i]
    exact F.full hlt i

/-- What filling a branch with full levels comes to, down to the level `n`. -/
def FillsBelow (levels n : Nat) (b : BranchId) (path : BranchId → List Nibble) (t : Trie κ ν) :
    Prop :=
  ∃ path', Grown path path' t (fillLevels levels b t) b ∧
    ∀ c, c = b ∨ t.branches.size ≤ c → c < (fillLevels levels b t).branches.size →
      Fills path' (fillLevels levels b t) n c

/-- Filling some empty slots of a branch, if filling a single branch with one level less is
growth. -/
theorem Layout.fillSlots {levels n : Nat} (hn : n < 16)
    (fill : ∀ {path : BranchId → List Nibble} {t : Trie κ ν} {c : BranchId}, Layout path t →
      t.isDead c = false → (∀ i, t.slot c i = .empty) → (path c).length + levels = n →
      FillsBelow levels n c path t)
    {b : BranchId} : ∀ {l : List Nibble} {path : BranchId → List Nibble} {t : Trie κ ν},
      Layout path t → t.isDead b = false → l.Nodup → (∀ i ∈ l, t.slot b i = .empty) →
      (path b).length + levels + 1 = n →
      ∃ path', Grown path path' t (l.foldl (fillSlot levels b) t) b ∧
        (∀ c, t.branches.size ≤ c → c < (l.foldl (fillSlot levels b) t).branches.size →
          Fills path' (l.foldl (fillSlot levels b) t) n c) ∧
        (∀ i ∈ l, (l.foldl (fillSlot levels b) t).slot b i ≠ .empty) ∧
        ∀ i ∉ l, (l.foldl (fillSlot levels b) t).slot b i = t.slot b i
  | [], path, t, L, _, _, _, _ =>
    ⟨path, .refl L b, fun _ hc hc' => absurd hc' (Nat.not_lt.mpr hc),
      fun _ h => absurd h List.not_mem_nil, fun _ _ => rfl⟩
  | i :: rest, path, t, L, hlive, hnodup, hempty, hdepth => by
    obtain ⟨hi, hrest⟩ := List.nodup_cons.mp hnodup
    have hb := lt_of_isDead_eq_false hlive
    have H := hung_hang hb i
    have G₁ := H.grown L hlive (hempty i List.mem_cons_self) (by omega)
    have hb₁ : b < (t.hang b i).branches.size := Nat.lt_of_lt_of_le hb G₁.size_le
    obtain ⟨path₂, G₂, fills₂⟩ := fill G₁.layout H.dead_new H.slot_new (by
      rw [Hung.path_new, List.length_append, List.length_singleton]; omega)
    change Grown _ path₂ _ (fillSlot levels b t i) _ at G₂
    have G₁₂ := G₁.trans G₂ (.inr (Nat.le_refl _))
    have hb₂ : b < (fillSlot levels b t i).branches.size := Nat.lt_of_lt_of_le hb G₁₂.size_le
    have hslot₂ : ∀ j, (fillSlot levels b t i).slot b j = (t.hang b i).slot b j := fun j =>
      G₂.slot_old b hb₁ (Nat.ne_of_lt hb) j
    have hold : ∀ j, j ≠ i → (fillSlot levels b t i).slot b j = t.slot b j := fun j hj =>
      (hslot₂ j).trans (H.slot_old b hb j fun h => hj h.2)
    obtain ⟨path₃, G₃, fills₃, hfull, hrest₃⟩ := Layout.fillSlots hn fill G₂.layout
      ((G₁₂.dead_old b hb).trans hlive) hrest
      (fun j hj => (hold j fun h => hi (h ▸ hj)).trans (hempty j (List.mem_cons_of_mem _ hj)))
      (by rw [G₁₂.path_old b hb]; exact hdepth)
    refine ⟨path₃, G₁₂.trans G₃ (.inl rfl), fun c hc hc' => ?_, fun j hj => ?_, fun j hj => ?_⟩
    · rcases Nat.lt_or_ge c (fillSlot levels b t i).branches.size with hlt | hge
      · -- the new branch itself, or one below it
        have hnew : c = t.branches.size ∨ (t.hang b i).branches.size ≤ c :=
          H.size_eq ▸ (Nat.eq_or_lt_of_le hc).imp_left Eq.symm
        exact G₃.fills (fills₂ c hnew hlt) hlt fun h => absurd hb (Nat.not_lt.mpr (h ▸ hc))
      · exact fills₃ c hge hc'
    · rcases List.mem_cons.mp hj with rfl | hj
      · rw [List.foldl_cons, hrest₃ j hi, hslot₂, H.slot_self]
        simp
      · exact hfull j hj
    · obtain ⟨hji, hj⟩ := not_or.mp (List.mem_cons.not.mp hj)
      exact (hrest₃ j hj).trans (hold j hji)

/-- Filling a branch with full levels is growth below it, and only in the lowest level there are
empty slots. -/
theorem Layout.fillLevels {n : Nat} (hn : n < 16) : ∀ {levels : Nat}
    {path : BranchId → List Nibble} {t : Trie κ ν} {b : BranchId}, Layout path t →
      t.isDead b = false → (∀ i, t.slot b i = .empty) → (path b).length + levels = n →
      FillsBelow levels n b path t
  | 0, path, t, b, L, hlive, _, hdepth => by
    refine ⟨path, .refl L b, fun c hc hc' => ?_⟩
    obtain rfl : c = b := hc.resolve_right (Nat.not_le.mpr hc')
    exact ⟨hlive, Nat.le_of_eq hdepth, fun hlt => absurd hdepth (Nat.ne_of_lt hlt)⟩
  | levels + 1, path, t, b, L, hlive, hempty, hdepth => by
    obtain ⟨path', G, fills, hfull, _⟩ := Layout.fillSlots hn
      (fun L hlive hempty hdepth => L.fillLevels hn hlive hempty hdepth) L hlive
      (List.nodup_finRange 16) (fun i _ => hempty i) hdepth
    refine ⟨path', G, fun c hc hc' => ?_⟩
    rcases hc with rfl | hc
    · have hb := lt_of_isDead_eq_false hlive
      refine ⟨(G.dead_old c hb).trans hlive, ?_, fun _ i => hfull i (List.mem_finRange i)⟩
      rw [G.path_old c hb]
      omega
    · exact fills c hc hc'

theorem levelsFor_le (capacity : Nat) : levelsFor capacity ≤ maxPrebuiltLevels := by
  have upTo_le : ∀ levels, levelsFor.upTo capacity levels ≤ levels := by
    intro levels
    induction levels with
    | zero => exact Nat.le_refl _
    | succ levels ih =>
      rw [levelsFor.upTo]
      split
      · exact Nat.le_refl _
      · exact Nat.le_succ_of_le ih
  exact upTo_le _

/-- A trie with branches built ahead has a layout, no entries, and empty slots in its lowest level
alone. -/
theorem exists_fills_prebuilt (capacity : Nat) :
    ∃ path, Layout path (prebuilt (levelsFor capacity) : Trie κ ν) ∧
      (prebuilt (levelsFor capacity) : Trie κ ν).entries = #[] ∧
      (prebuilt (levelsFor capacity) : Trie κ ν).count = 0 ∧
      ∀ c < (prebuilt (levelsFor capacity) : Trie κ ν).branches.size,
        Fills path (prebuilt (levelsFor capacity) : Trie κ ν) (levelsFor capacity) c := by
  have hle : levelsFor capacity ≤ 3 := levelsFor_le capacity
  obtain ⟨path, G, fills⟩ : FillsBelow (levelsFor capacity) (levelsFor capacity) root
      (fun _ => []) (empty : Trie κ ν) :=
    layout_empty.fillLevels (by omega) rfl (slot_empty root) (Nat.zero_add _)
  refine ⟨path, G.layout, G.entries, G.count, fun c hc => fills c ?_ hc⟩
  cases c with
  | zero => exact .inl rfl
  | succ c => exact .inr (Nat.succ_le_succ (Nat.zero_le c))

/-- A trie with branches built ahead has a layout, and no entries. -/
theorem exists_layout_prebuilt (capacity : Nat) :
    ∃ path, Layout path (prebuilt (levelsFor capacity) : Trie κ ν) ∧
      (prebuilt (levelsFor capacity) : Trie κ ν).entries = #[] ∧
      (prebuilt (levelsFor capacity) : Trie κ ν).count = 0 := by
  obtain ⟨path, L, hentries, hcount, _⟩ := exists_fills_prebuilt (κ := κ) (ν := ν) capacity
  exact ⟨path, L, hentries, hcount⟩

end Trie

end NibbleTrie
