import Mathlib.Data.Nat.ModEq

/-!
# Counters that wrap

Machine words that count how often something was done. As long as two counts
are less than the range of a word apart, the difference of the words is that
of the counts, and the low bits of a word are the count modulo any power of
two.
-/

namespace RingCounter

variable {a b cap i j lo n : Nat}

theorem size_pos : 0 < UInt64.size := by decide

theorem toNat_sub (h : b ≤ a) (hlt : a < b + UInt64.size) :
    (UInt64.ofNat a - UInt64.ofNat b).toNat = a - b := by
  rw [← UInt64.ofNat_sub h, UInt64.toNat_ofNat_of_lt' (by omega)]

theorem ofNat_inj (h : b ≤ a) (hlt : a < b + UInt64.size) :
    UInt64.ofNat a = UInt64.ofNat b ↔ a = b := by
  refine ⟨fun heq => ?_, fun heq => heq ▸ rfl⟩
  have hsub := toNat_sub h hlt
  rw [heq, UInt64.sub_self] at hsub
  have : a - b = 0 := hsub.symm
  omega

/-- The low bits of a counter are its remainder. -/
theorem slot_eq (hpow : cap.isPowerOfTwo) (hcap : cap < UInt64.size) (n : Nat) :
    (UInt64.ofNat n &&& UInt64.ofNat (cap - 1)).toNat = n % cap := by
  obtain ⟨k, rfl⟩ := hpow
  have hk : k < 64 := (Nat.pow_lt_pow_iff_right Nat.one_lt_two).mp hcap
  have hdvd : 2 ^ k ∣ UInt64.size := pow_dvd_pow 2 hk.le
  rw [UInt64.toNat_and, UInt64.toNat_ofNat_of_lt' (Nat.lt_of_le_of_lt (Nat.sub_le ..) hcap),
    Nat.and_two_pow_sub_one_eq_mod, UInt64.toNat_ofNat', Nat.mod_mod_of_dvd _ hdvd]

/-- A window as long as the ring meets each slot at most once. -/
theorem mod_inj (hi : lo ≤ i) (hi' : i < lo + cap) (hj : lo ≤ j) (hj' : j < lo + cap)
    (h : i % cap = j % cap) : i = j := by
  have hi₀ : lo + (i - lo) = i := by omega
  have hj₀ : lo + (j - lo) = j := by omega
  have hmod : i - lo ≡ j - lo [MOD cap] := by
    apply Nat.ModEq.add_left_cancel' lo
    rw [hi₀, hj₀]
    exact h
  have heq := Nat.ModEq.eq_of_lt_of_lt hmod (by omega) (by omega)
  omega

end RingCounter
