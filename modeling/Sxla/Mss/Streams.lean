import Mathlib.Logic.Function.Iterate
import Sxla.Library.XorShift
import Sxla.Mss.Search

/-!
# Random streams

A step of the generator is three xor-shifts, each of which can be undone, and
what it draws is the state times an odd constant. So two generators draw
different numbers all along if they start differently. But the lowest bit of a
seed is set, whatever it was: seeds that differ in it alone start alike, and so
do two of the four bands.
-/

namespace Sxla.Mss

namespace Rng

variable {a b rng : Rng} {x y s t : UInt64}

def next (rng : Rng) : Rng := rng.nextU64.2

def after (rng : Rng) (n : Nat) : Rng := next^[n] rng

/-- The numbers that it draws. -/
def stream (rng : Rng) (n : Nat) : UInt64 := (rng.after n).nextU64.1

theorem eq_of_state (h : a.state = b.state) : a = b := by
  cases a
  cases b
  exact congrArg Rng.mk h

-- ---------------------------------------------------------------------------
-- A step
-- ---------------------------------------------------------------------------

/-- The product with `2^25` as a shift. -/
theorem toBitVec_mul_shift : (x * 0x2000000).toBitVec = x.toBitVec <<< 25 := by
  rw [BitVec.shiftLeft_eq_mul_twoPow]
  rfl

theorem eq_of_xor_shiftRight12 (h : x ^^^ x >>> 12 = y ^^^ y >>> 12) : x = y := by
  apply UInt64.eq_of_toBitVec_eq
  exact XorShift.ushiftRight_injective (by decide : 0 < 12) (congrArg UInt64.toBitVec h)

theorem eq_of_xor_shiftLeft25 (h : x ^^^ x * 0x2000000 = y ^^^ y * 0x2000000) : x = y := by
  apply UInt64.eq_of_toBitVec_eq
  have hbits := congrArg UInt64.toBitVec h
  rw [UInt64.toBitVec_xor, UInt64.toBitVec_xor, toBitVec_mul_shift, toBitVec_mul_shift] at hbits
  exact XorShift.shiftLeft_injective (by decide : 0 < 25) hbits

theorem eq_of_xor_shiftRight27 (h : x ^^^ x >>> 27 = y ^^^ y >>> 27) : x = y := by
  apply UInt64.eq_of_toBitVec_eq
  exact XorShift.ushiftRight_injective (by decide : 0 < 27) (congrArg UInt64.toBitVec h)

theorem next_injective : Function.Injective next := by
  intro a b h
  have hstate : (next a).state = (next b).state := by rw [h]
  apply eq_of_state
  apply eq_of_xor_shiftRight12
  apply eq_of_xor_shiftLeft25
  apply eq_of_xor_shiftRight27
  exact hstate

/-- The constant has an inverse. -/
theorem draw_injective (h : x * 0x2545F4914F6CDD1D = y * 0x2545F4914F6CDD1D) : x = y := by
  have hinverse := congrArg (· * 0x59071D96D81ECD35) h
  have hone : (0x2545F4914F6CDD1D : UInt64) * 0x59071D96D81ECD35 = 1 := by decide
  simp only [UInt64.mul_assoc, hone, UInt64.mul_one] at hinverse
  exact hinverse

-- ---------------------------------------------------------------------------
-- A stream
-- ---------------------------------------------------------------------------

theorem after_injective (n : Nat) : Function.Injective fun rng : Rng => rng.after n :=
  next_injective.iterate n

theorem after_zero (n : Nat) : after ⟨0⟩ n = ⟨0⟩ := Function.iterate_fixed rfl n

/-- A state that is not zero never becomes zero. -/
theorem after_state_ne_zero (h : rng.state ≠ 0) (n : Nat) : (rng.after n).state ≠ 0 := by
  intro hzero
  have hsame : rng.after n = after ⟨0⟩ n := by
    rw [after_zero]
    exact eq_of_state hzero
  exact h (congrArg Rng.state (after_injective n hsame))

theorem stream_eq_iff : a.stream = b.stream ↔ a = b := by
  constructor
  · intro h
    have hfirst := congrFun h 0
    apply next_injective
    apply eq_of_state
    exact draw_injective hfirst
  · rintro rfl
    rfl

-- ---------------------------------------------------------------------------
-- Seeds
-- ---------------------------------------------------------------------------

/-- The seed, with another in the place of zero. -/
def spread (seed : UInt64) : UInt64 := if seed = 0 then 0x9E3779B97F4A7C15 else seed

theorem getLsbD_set_lowest (x : BitVec 64) (i : Nat) :
    (x ||| 1#64).getLsbD i = (decide (i = 0) || x.getLsbD i) := by
  rw [BitVec.getLsbD_or, BitVec.getLsbD_one, Bool.or_comm]
  rfl

theorem getLsbD_shift_lowest (x : BitVec 64) (i : Nat) :
    (x >>> 1).getLsbD i = x.getLsbD (i + 1) := by
  rw [BitVec.getLsbD_ushiftRight, Nat.add_comm]

/-- What is left of a word whose lowest bit is set are the bits above. -/
theorem set_lowest_eq_iff : x ||| 1 = y ||| 1 ↔ x >>> 1 = y >>> 1 := by
  constructor
  · intro h
    have hbits : x.toBitVec ||| 1#64 = y.toBitVec ||| 1#64 := congrArg UInt64.toBitVec h
    apply UInt64.eq_of_toBitVec_eq
    apply BitVec.eq_of_getLsbD_eq
    intro i _
    change (x.toBitVec >>> 1).getLsbD i = (y.toBitVec >>> 1).getLsbD i
    have hbit := congrArg (BitVec.getLsbD · (i + 1)) hbits
    simp only [getLsbD_set_lowest] at hbit
    rw [getLsbD_shift_lowest, getLsbD_shift_lowest]
    exact hbit
  · intro h
    have hbits : x.toBitVec >>> 1 = y.toBitVec >>> 1 := congrArg UInt64.toBitVec h
    apply UInt64.eq_of_toBitVec_eq
    apply BitVec.eq_of_getLsbD_eq
    intro i _
    change (x.toBitVec ||| 1#64).getLsbD i = (y.toBitVec ||| 1#64).getLsbD i
    rw [getLsbD_set_lowest, getLsbD_set_lowest]
    cases i with
    | zero => rfl
    | succ i =>
      have hbit := congrArg (BitVec.getLsbD · i) hbits
      simp only [getLsbD_shift_lowest] at hbit
      rw [hbit]

theorem set_lowest_ne_zero (x : UInt64) : x ||| 1 ≠ 0 := by
  intro h
  have hbits : x.toBitVec ||| 1#64 = 0#64 := congrArg UInt64.toBitVec h
  have hbit := congrArg (BitVec.getLsbD · 0) hbits
  simp only [getLsbD_set_lowest] at hbit
  cases hbit

theorem new_eq_iff : Rng.new s = Rng.new t ↔ spread s >>> 1 = spread t >>> 1 := by
  rw [← set_lowest_eq_iff]
  exact ⟨congrArg Rng.state, eq_of_state⟩

end Rng

/-- Two seeds give different states all along if they differ above the lowest
bit, and no state is zero. Two of the bands draw one stream. -/
theorem streams_differ_iff (s t : UInt64) (a b : Band) :
    ((∀ n, ((Rng.new s).after n).state ≠ ((Rng.new t).after n).state) ↔
      Rng.spread s >>> 1 ≠ Rng.spread t >>> 1) ∧
    (∀ n, ((Rng.new s).after n).state ≠ 0) ∧
    (a.rng.stream ≠ b.rng.stream ↔
      a ≠ b ∧ ¬ (a = .warm ∧ b = .cold) ∧ ¬ (a = .cold ∧ b = .warm)) := by
  refine ⟨?_, fun n => ?_, ?_⟩
  · rw [ne_eq, ← Rng.new_eq_iff]
    constructor
    · intro hall heq
      exact hall 0 (by rw [heq])
    · intro hne n heq
      exact hne (Rng.after_injective n (Rng.eq_of_state heq))
  · exact Rng.after_state_ne_zero (Rng.set_lowest_ne_zero _) n
  · rw [ne_eq, Rng.stream_eq_iff]
    cases a <;> cases b <;> decide

/-- Seeds 2 and 3 start alike, and so do the warm band and the cold one. -/
theorem seeds_collide : ¬ ((∀ s t : UInt64, s ≠ t → ∀ n,
      ((Rng.new s).after n).state ≠ ((Rng.new t).after n).state) ∧
    (∀ (s : UInt64) (n : Nat), ((Rng.new s).after n).state ≠ 0) ∧
    ∀ a b : Band, a ≠ b → a.rng.stream ≠ b.rng.stream) := by
  rintro ⟨hseeds, -, -⟩
  exact hseeds 2 3 (by decide) 0 rfl

end Sxla.Mss
