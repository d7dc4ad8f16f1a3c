import Mathlib.Data.Nat.ModEq
import Sxla.Library.Transition

/-!
# Linear probing

A table of a power of two slots, in which a probe for a key begins at the
key's low bits and takes one slot after the other, round the end. The table
is ordered for search when a probe for a key it holds passes every slot that
comes before the one that holds it.
-/

namespace LinearProbe

/-- Where a probe for `key` is after `j` steps. -/
def position (mask key j : Nat) : Nat := (key + j) &&& mask

section

variable {mask : Nat}

theorem and_eq_mod (hpow : (mask + 1).isPowerOfTwo) (n : Nat) : n &&& mask = n % (mask + 1) := by
  obtain ⟨k, hk⟩ := hpow
  have hmask : mask = 2 ^ k - 1 := by omega
  rw [hk, hmask, Nat.and_two_pow_sub_one_eq_mod]

theorem position_lt (key j : Nat) : position mask key j < mask + 1 :=
  Nat.lt_succ_of_le Nat.and_le_right

theorem position_succ (hpow : (mask + 1).isPowerOfTwo) (key j : Nat) :
    (position mask key j + 1) &&& mask = position mask key (j + 1) := by
  rw [position, position, and_eq_mod hpow, and_eq_mod hpow, and_eq_mod hpow, Nat.mod_add_mod,
    Nat.add_assoc]

/-- A probe sees no slot twice. -/
theorem position_inj (hpow : (mask + 1).isPowerOfTwo) {key j m : Nat} (hj : j ≤ mask)
    (hm : m ≤ mask) (h : position mask key j = position mask key m) : j = m := by
  rw [position, position, and_eq_mod hpow, and_eq_mod hpow] at h
  have hmod : j ≡ m [MOD mask + 1] := Nat.ModEq.add_left_cancel' key h
  rwa [Nat.ModEq, Nat.mod_eq_of_lt (Nat.lt_succ_of_le hj), Nat.mod_eq_of_lt (Nat.lt_succ_of_le hm)]
    at hmod

/-- A probe sees every slot. -/
theorem exists_position (hpow : (mask + 1).isPowerOfTwo) {i : Nat} (hi : i < mask + 1)
    (key : Nat) : ∃ j ≤ mask, position mask key j = i := by
  have hlow : key % (mask + 1) < mask + 1 := Nat.mod_lt key (Nat.succ_pos mask)
  have hkey := Nat.div_add_mod key (mask + 1)
  by_cases hle : key % (mask + 1) ≤ i
  · refine ⟨i - key % (mask + 1), by omega, ?_⟩
    have hsum : key + (i - key % (mask + 1)) = (mask + 1) * (key / (mask + 1)) + i := by omega
    rw [position, and_eq_mod hpow, hsum, Nat.mul_add_mod, Nat.mod_eq_of_lt hi]
  · refine ⟨mask + 1 + i - key % (mask + 1), by omega, ?_⟩
    have hsum : key + (mask + 1 + i - key % (mask + 1)) =
        (mask + 1) * (key / (mask + 1)) + (mask + 1 + i) := by omega
    rw [position, and_eq_mod hpow, hsum, Nat.mul_add_mod, Nat.add_mod_left, Nat.mod_eq_of_lt hi]

end

-- ---------------------------------------------------------------------------
-- Tables ordered for search
-- ---------------------------------------------------------------------------

section

variable {α : Type} {Holds Passes : α → Nat → Prop} {slots : List α} {mask : Nat}

/-- What a probe for `key` sees after `j` steps. -/
def seen (slots : List α) (mask key j : Nat) : Option α := slots[position mask key j]?

/-- The table holds `key`, and a probe that is at step `n` has not seen it. -/
def Ahead (Holds : α → Nat → Prop) (slots : List α) (mask key n : Nat) : Prop :=
  ∃ m c, n ≤ m ∧ m ≤ mask ∧ seen slots mask key m = some c ∧ Holds c key

structure Ordered (Holds Passes : α → Nat → Prop) (slots : List α) (mask : Nat) : Prop where
  size : slots.length = mask + 1
  pow : (mask + 1).isPowerOfTwo
  path : ∀ key m c, m ≤ mask → seen slots mask key m = some c → Holds c key →
    ∀ j < m, ∀ d, seen slots mask key j = some d → Passes d key

theorem seen_set {i key j : Nat} {c' d : α}
    (h : seen (slots.set i c') mask key j = some d) :
    (position mask key j = i ∧ d = c') ∨
    (position mask key j ≠ i ∧ seen slots mask key j = some d) := by
  rcases Transition.getElem?_set_cases h with ⟨hpos, rfl⟩ | ⟨hpos, hd⟩
  · exact .inl ⟨hpos, rfl⟩
  · exact .inr ⟨hpos, hd⟩

theorem Ordered.exists_seen (h : Ordered Holds Passes slots mask) (key j : Nat) :
    ∃ c, seen slots mask key j = some c := by
  have hlt : position mask key j < slots.length := by
    rw [h.size]
    exact position_lt key j
  exact ⟨_, List.getElem?_eq_getElem hlt⟩

theorem Ordered.exists_position (h : Ordered Holds Passes slots mask) {i : Nat} {c : α}
    (hc : slots[i]? = some c) (key : Nat) :
    ∃ j ≤ mask, position mask key j = i ∧ seen slots mask key j = some c := by
  obtain ⟨hi, -⟩ := List.getElem?_eq_some_iff.mp hc
  rw [h.size] at hi
  obtain ⟨j, hj, hpos⟩ := LinearProbe.exists_position h.pow hi key
  exact ⟨j, hj, hpos, by rw [seen, hpos, hc]⟩

theorem Ordered.ahead_of_getElem? (h : Ordered Holds Passes slots mask) {i key : Nat} {c : α}
    (hc : slots[i]? = some c) (hholds : Holds c key) : Ahead Holds slots mask key 0 := by
  obtain ⟨j, hj, -, hseen⟩ := h.exists_position hc key
  exact ⟨j, c, Nat.zero_le j, hj, hseen, hholds⟩

/-- One slot changes. It still lets pass the probes for the keys that are
held, and where it comes to hold a key, a probe for it passes all before. -/
theorem Ordered.set (h : Ordered Holds Passes slots mask) {i : Nat} {c c' : α}
    (hc : slots[i]? = some c)
    (hpass : ∀ key, Ahead Holds slots mask key 0 → Passes c key → Passes c' key)
    (hholds : ∀ key m, m ≤ mask → position mask key m = i → Holds c' key →
      Holds c key ∨ ∀ j < m, ∀ d, seen slots mask key j = some d → Passes d key) :
    Ordered Holds Passes (slots.set i c') mask := by
  refine ⟨by rw [List.length_set, h.size], h.pow, ?_⟩
  intro key m e hm he hheld j hj d hd
  -- Either the table held the key at this step before, or it now holds it in the changed slot.
  have hbefore : (∃ e', seen slots mask key m = some e' ∧ Holds e' key) ∨
      (position mask key m = i ∧
        ∀ j < m, ∀ d, seen slots mask key j = some d → Passes d key) := by
    rcases seen_set he with ⟨hpos, rfl⟩ | ⟨-, he⟩
    · rcases hholds key m hm hpos hheld with hold | hnew
      · exact .inl ⟨c, by rw [seen, hpos, hc], hold⟩
      · exact .inr ⟨hpos, hnew⟩
    · exact .inl ⟨e, he, hheld⟩
  rcases seen_set hd with ⟨hpos, rfl⟩ | ⟨-, hd⟩
  · rcases hbefore with ⟨e', he', hheld'⟩ | ⟨hpos', -⟩
    · refine hpass key ⟨m, e', Nat.zero_le m, hm, he', hheld'⟩ ?_
      exact h.path key m e' hm he' hheld' j hj c (by rw [seen, hpos, hc])
    · have hjm := position_inj h.pow (by omega) hm (hpos.trans hpos'.symm)
      omega
  · rcases hbefore with ⟨e', he', hheld'⟩ | ⟨-, hnew⟩
    · exact h.path key m e' hm he' hheld' j hj d hd
    · exact hnew j hj d hd

theorem Ahead.set {i key n : Nat} {c c' : α} (h : Ahead Holds slots mask key n)
    (hc : slots[i]? = some c) (hholds : Holds c key → Holds c' key) :
    Ahead Holds (slots.set i c') mask key n := by
  obtain ⟨m, d, hn, hm, hd, hheld⟩ := h
  by_cases hpos : position mask key m = i
  · have hdc : d = c := by
      rw [seen, hpos, hc] at hd
      exact (Option.some.inj hd).symm
    subst hdc
    refine ⟨m, c', hn, hm, ?_, hholds hheld⟩
    rw [seen, hpos]
    exact Transition.getElem?_set_of hc c'
  · refine ⟨m, d, hn, hm, ?_, hheld⟩
    rw [seen, List.getElem?_set_ne (Ne.symm hpos)]
    exact hd

theorem Ahead.of_set {i key n : Nat} {c c' : α} (h : Ahead Holds (slots.set i c') mask key n)
    (hc : slots[i]? = some c) (hholds : Holds c' key → Holds c key) :
    Ahead Holds slots mask key n := by
  have hback := h.set (Transition.getElem?_set_of hc c') hholds
  obtain ⟨hi, rfl⟩ := List.getElem?_eq_some_iff.mp hc
  rwa [List.set_set, List.set_getElem_self] at hback

/-- A key ahead of a probe that is not in the next slot is ahead of the step after. -/
theorem Ahead.step {key n : Nat} {c : α} (h : Ahead Holds slots mask key n)
    (hc : seen slots mask key n = some c) (hholds : ¬ Holds c key) :
    Ahead Holds slots mask key (n + 1) := by
  obtain ⟨m, d, hn, hm, hd, hheld⟩ := h
  refine ⟨m, d, ?_, hm, hd, hheld⟩
  by_cases hmn : m = n
  · subst hmn
    rw [hc] at hd
    cases hd
    exact absurd hheld hholds
  · omega

/-- A slot at which probes for a key end, and that does not hold it, shows that
the key is not ahead. -/
theorem Ordered.not_ahead (h : Ordered Holds Passes slots mask) {key n : Nat} {c : α}
    (hc : seen slots mask key n = some c) (hpass : ¬ Passes c key) (hholds : ¬ Holds c key) :
    ¬ Ahead Holds slots mask key n := by
  intro hahead
  obtain ⟨m, d, hn, hm, hd, hheld⟩ := hahead.step hc hholds
  exact hpass (h.path key m d hm hd hheld n (by omega) c hc)

/-- Two slots that hold one key are one slot. -/
theorem Ordered.unique (h : Ordered Holds Passes slots mask)
    (hexcl : ∀ c key, Passes c key → ¬ Holds c key) {i j key : Nat} {c d : α}
    (hc : slots[i]? = some c) (hd : slots[j]? = some d) (hcheld : Holds c key)
    (hdheld : Holds d key) : i = j := by
  obtain ⟨m, hm, hmpos, hmseen⟩ := h.exists_position hc key
  obtain ⟨n, hn, hnpos, hnseen⟩ := h.exists_position hd key
  rcases Nat.lt_trichotomy m n with hlt | heq | hlt
  · exact absurd hcheld (hexcl c key (h.path key n d hn hnseen hdheld m hlt c hmseen))
  · rw [← hmpos, ← hnpos, heq]
  · exact absurd hdheld (hexcl d key (h.path key m c hm hmseen hcheld n hlt d hnseen))

end

end LinearProbe
