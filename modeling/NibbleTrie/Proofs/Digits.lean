/-
The groups of a hash as a path.

A hash is the list of its sixteen groups, highest first, and a slot of a trie
is reached through a list of groups.  An entry belongs below a slot exactly
when the slot's list is a prefix of the groups of its hash.

Main statements: the groups determine the hash (`eq_of_nibbles`), and hashes are
ordered as their groups are (`lt_of_ways`).
-/
import Mathlib.Data.List.Induction
import Mathlib.Data.List.Nodup
import Mathlib.Data.List.Perm.Basic
import Mathlib.Tactic.Common
import NibbleTrie.Nibble

namespace NibbleTrie

/-- The groups of a hash, highest first. -/
def digits (h : UInt64) : List Nibble := (List.range hashGroups).map fun j => nibble h (15 - j)

@[simp] theorem length_digits (h : UInt64) : (digits h).length = 16 := by
  simp [digits, hashGroups]

theorem getElem?_digits (h : UInt64) {j : Nat} (hj : j < 16) :
    (digits h)[j]? = some (nibble h (15 - j)) := by
  simp [digits, hashGroups, hj]

/-- A path goes on along a hash by the group that the hash has at the next level. -/
theorem concat_prefix_digits {h : UInt64} {p : List Nibble} {i : Nibble} :
    p ++ [i] <+: digits h ↔ p <+: digits h ∧ p.length < 16 ∧ i = nibble h (15 - p.length) := by
  constructor
  · intro hp
    have hlen : p.length < 16 := by
      have := hp.length_le
      simp at this
      omega
    have hi := List.prefix_iff_getElem?.mp hp p.length (by simp)
    rw [getElem?_digits h hlen] at hi
    exact ⟨(List.prefix_append p [i]).trans hp, hlen, by simpa using hi.symm⟩
  · rintro ⟨⟨s, hs⟩, hlen, rfl⟩
    obtain ⟨j, rest, rfl⟩ : ∃ j rest, s = j :: rest := by
      cases s with
      | nil =>
        have := congrArg List.length hs
        simp at this
        omega
      | cons j rest => exact ⟨j, rest, rfl⟩
    have hj := getElem?_digits h hlen
    rw [← hs] at hj
    refine ⟨rest, ?_⟩
    rw [← hs]
    simpa using hj.symm

/-- Of two paths along one hash the shorter one is a prefix of the longer one. -/
theorem prefix_of_digits {h : UInt64} {p q : List Nibble} (hp : p <+: digits h)
    (hq : q <+: digits h) (hle : p.length ≤ q.length) : p <+: q :=
  List.prefix_of_prefix_length_le hp hq hle

theorem take_digits_prefix (h : UInt64) (n : Nat) : (digits h).take n <+: digits h :=
  List.take_prefix n _

/-- The first groups of a hash and the next one. -/
theorem take_digits_succ (h : UInt64) {n : Nat} (hn : n < 16) :
    (digits h).take (n + 1) = (digits h).take n ++ [nibble h (15 - n)] := by
  rw [List.take_add_one, getElem?_digits h hn]
  rfl

theorem eq_take_of_prefix {h : UInt64} {p : List Nibble} (hp : p <+: digits h) :
    p = (digits h).take p.length := by
  exact List.prefix_iff_eq_take.mp hp

/-- A bit of a hash is a bit of one of its groups. -/
theorem testBit_nibble (h : UInt64) (level j : Nat) :
    (nibble h level : Nat).testBit j = (decide (j < 4) && h.toNat.testBit (4 * level + j)) := by
  have : (nibble h level : Nat) = (h.toNat >>> (4 * level)) % 2 ^ 4 := rfl
  rw [this, Nat.testBit_mod_two_pow, Nat.testBit_shiftRight]

theorem testBit_of_ge (h : UInt64) {j : Nat} (hj : 64 ≤ j) : h.toNat.testBit j = false :=
  Nat.testBit_lt_two_pow
    (Nat.lt_of_lt_of_le h.toNat_lt (Nat.pow_le_pow_right (by omega) hj))

/-- The bits of two hashes are the same at levels where the groups are. -/
theorem testBit_eq_of_nibble {h₁ h₂ : UInt64} {j : Nat}
    (heq : nibble h₁ (j / 4) = nibble h₂ (j / 4)) : h₁.toNat.testBit j = h₂.toNat.testBit j := by
  have hb := testBit_nibble h₁ (j / 4) (j % 4)
  rw [heq, testBit_nibble] at hb
  have hmod : j % 4 < 4 := Nat.mod_lt _ (by omega)
  have hdiv : 4 * (j / 4) + j % 4 = j := by omega
  simpa [hmod, hdiv] using hb.symm

/-- Hashes with the same groups from a level on agree from there on. -/
theorem shiftRight_eq_of_nibbles {h₁ h₂ : UInt64} {level : Nat}
    (heq : ∀ l < 16, level ≤ l → nibble h₁ l = nibble h₂ l) :
    h₁.toNat >>> shiftOf level = h₂.toNat >>> shiftOf level := by
  refine Nat.eq_of_testBit_eq fun j => ?_
  rw [Nat.testBit_shiftRight, Nat.testBit_shiftRight, shiftOf]
  by_cases hj : 4 * level + j < 64
  · exact testBit_eq_of_nibble (heq _ (by omega) (by omega))
  · rw [testBit_of_ge h₁ (by omega), testBit_of_ge h₂ (by omega)]

/-- Hashes with the same groups are the same. -/
theorem eq_of_nibbles {h₁ h₂ : UInt64} (heq : ∀ level < 16, nibble h₁ level = nibble h₂ level) :
    h₁ = h₂ := by
  have h : h₁.toNat >>> shiftOf 0 = h₂.toNat >>> shiftOf 0 :=
    shiftRight_eq_of_nibbles fun l hl _ => heq l hl
  exact UInt64.toNat_inj.mp h

/-- Two hashes have the same groups below a level if and only if they have the same bits there. -/
theorem low_nibbles_iff {h₁ h₂ : UInt64} {level : Nat} :
    (∀ l < level, nibble h₁ l = nibble h₂ l) ↔
      ∀ j < shiftOf level, h₁.toNat.testBit j = h₂.toNat.testBit j := by
  rw [shiftOf]
  constructor
  · intro heq j hj
    exact testBit_eq_of_nibble (heq _ (by omega))
  · intro heq l hl
    refine Fin.ext (Nat.eq_of_testBit_eq fun j => ?_)
    rw [testBit_nibble, testBit_nibble]
    by_cases hj : j < 4
    · rw [heq (4 * l + j) (by omega)]
    · simp [hj]

/-- A hash down to a level is the hash down to the next one and one more group. -/
theorem shiftRight_level (h : UInt64) (level : Nat) :
    h.toNat >>> shiftOf level = 16 * (h.toNat >>> shiftOf (level + 1)) + nibble h level := by
  have hshift : h.toNat >>> shiftOf (level + 1) = (h.toNat >>> shiftOf level) / 16 := by
    rw [shiftOf, shiftOf, show 4 * (level + 1) = 4 * level + 4 by omega, Nat.shiftRight_add,
      Nat.shiftRight_eq_div_pow _ 4]
  have hnibble : (nibble h level : Nat) = (h.toNat >>> shiftOf level) % 16 := rfl
  rw [hshift, hnibble]
  omega

/-- The group on which the ways of two hashes part decides which hash is smaller. -/
theorem lt_of_ways {h₁ h₂ : UInt64} {p : List Nibble} {i j : Nibble} (hi : p ++ [i] <+: digits h₁)
    (hj : p ++ [j] <+: digits h₂) (hlt : i < j) : h₁ < h₂ := by
  obtain ⟨hp₁, hlen, rfl⟩ := concat_prefix_digits.mp hi
  obtain ⟨hp₂, _, rfl⟩ := concat_prefix_digits.mp hj
  have hhigh : h₁.toNat >>> shiftOf (15 - p.length + 1) =
      h₂.toNat >>> shiftOf (15 - p.length + 1) := by
    refine shiftRight_eq_of_nibbles fun l hl hle => ?_
    have hd₁ := List.prefix_iff_getElem?.mp hp₁ (15 - l) (by omega)
    have hd₂ := List.prefix_iff_getElem?.mp hp₂ (15 - l) (by omega)
    rw [getElem?_digits _ (by omega), show 15 - (15 - l) = l by omega] at hd₁ hd₂
    exact Option.some.inj (hd₁.trans hd₂.symm)
  have hlow : h₁.toNat >>> shiftOf (15 - p.length) < h₂.toNat >>> shiftOf (15 - p.length) := by
    rw [shiftRight_level h₁, shiftRight_level h₂, hhigh]
    exact Nat.add_lt_add_left hlt _
  refine UInt64.lt_iff_toNat_lt.mpr (Nat.lt_of_not_le fun hle => ?_)
  rw [Nat.shiftRight_eq_div_pow, Nat.shiftRight_eq_div_pow] at hlow
  exact absurd (Nat.div_le_div_right hle) (Nat.not_le_of_lt hlow)

end NibbleTrie
