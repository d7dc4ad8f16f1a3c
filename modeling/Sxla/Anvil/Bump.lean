import Mathlib
import Sxla.Library.Transition

/-!
# The bump arena

One block of bytes and an offset. A call rounds the offset up to the type's
alignment and moves it behind the new range; `reset` moves it back to the
start. The block is asked for as bytes, so its address is any.
-/

namespace Sxla

open Transition

namespace Bump

inductive ArenaError where
  | exhausted
  | alignment
deriving DecidableEq, Repr

/-- `size_of` and `align_of` of a type: no type is larger than `isize::MAX`. -/
structure Layout where
  size : UInt64
  align : UInt64
  power : align.toNat.isPowerOfTwo
  bounded : size.toNat < 2 ^ 63

/-- What the allocator returns for a request of bytes: no request passes
`isize::MAX`, and the block does not reach beyond the address space. -/
structure Block where
  base : UInt64
  capacity : UInt64
  bounded : capacity.toNat < 2 ^ 63
  inside : base.toNat + capacity.toNat < 2 ^ 64

structure BumpArena where
  base : UInt64
  capacity : UInt64
  offset : UInt64
  resets : UInt32
deriving DecidableEq, Repr

namespace BumpArena

def new (b : Block) : BumpArena := ⟨b.base, b.capacity, 0, 0⟩

def alignedStart (a : BumpArena) (t : Layout) : UInt64 :=
  (a.offset + (t.align - 1)) &&& ~~~(t.align - 1)

/-- The address of the new value. -/
def alloc (a : BumpArena) (t : Layout) : Except ArenaError UInt64 × BumpArena :=
  let aligned := a.alignedStart t
  let fin := aligned + t.size
  if fin > a.capacity then
    (.error (if t.align > a.capacity then .alignment else .exhausted), a)
  else
    (.ok (a.base + aligned), { a with offset := fin })

def reset (a : BumpArena) : BumpArena := { a with offset := 0, resets := a.resets + 1 }

end BumpArena

/-- Addresses from `start` on, so many. -/
structure Range where
  start : Nat
  size : Nat
deriving DecidableEq, Repr

namespace Range

def Disjoint (r r' : Range) : Prop :=
  r.start + r.size ≤ r'.start ∨ r'.start + r'.size ≤ r.start

instance (r r' : Range) : Decidable (r.Disjoint r') := inferInstanceAs (Decidable (_ ∨ _))

end Range

/-- The arena and what it has handed out since the last reset. -/
structure State where
  arena : BumpArena
  handed : List Range
deriving DecidableEq, Repr

inductive Call where
  | alloc (t : Layout)
  | reset

namespace State

def start (b : Block) : State := ⟨.new b, []⟩

def step (s : State) : Call → Option State
  | .alloc t =>
    match s.arena.alloc t with
    | (.ok address, arena) => some ⟨arena, ⟨address.toNat, t.size.toNat⟩ :: s.handed⟩
    | (.error _, arena) => some { s with arena }
  | .reset => some ⟨s.arena.reset, []⟩

/-- Some range of the type behind the offset is aligned and fits the block. -/
def Room (s : State) (t : Layout) : Prop :=
  ∃ n ≥ s.arena.offset.toNat, n + t.size.toNat ≤ s.arena.capacity.toNat ∧
    t.align.toNat ∣ s.arena.base.toNat + n

/-- What an allocation promises: a range in the block, apart from all handed
out since the last reset and aligned, or else an arena as it was, without
room. -/
def Proper (b : Block) (s : State) (t : Layout) : Prop :=
  match s.arena.alloc t with
  | (.ok address, _) =>
    b.base.toNat ≤ address.toNat ∧
      address.toNat + t.size.toNat ≤ b.base.toNat + b.capacity.toNat ∧
      (∀ r ∈ s.handed, Range.Disjoint ⟨address.toNat, t.size.toNat⟩ r) ∧
      t.align.toNat ∣ address.toNat
  | (.error _, arena) => arena = s.arena ∧ ¬ s.Room t

end State

-- ---------------------------------------------------------------------------
-- Rounding up
-- ---------------------------------------------------------------------------

theorem and_not_mask {k : Nat} (x m : UInt64) (hm : m.toNat = 2 ^ k - 1) :
    (x &&& ~~~m).toNat = x.toNat / 2 ^ k * 2 ^ k := by
  refine Nat.eq_of_testBit_eq fun i => ?_
  have hbit : (x &&& ~~~m).toNat.testBit i =
      (x.toNat.testBit i && (decide (i < 64) && !m.toNat.testBit i)) := by
    rw [UInt64.toNat_and, Nat.testBit_and]
    congr 1
    rw [← UInt64.toNat_toBitVec, UInt64.toBitVec_not, BitVec.testBit_toNat, BitVec.getLsbD_not]
    rfl
  rw [hbit, hm, Nat.testBit_two_pow_sub_one, Nat.testBit_mul_two_pow, Nat.testBit_div_two_pow]
  by_cases hi : k ≤ i
  · have hlt : x.toNat.testBit i = true → i < 64 := by
      intro h
      by_contra hge
      have hpow : x.toNat < 2 ^ i :=
        Nat.lt_of_lt_of_le x.toNat_lt (Nat.pow_le_pow_right (by decide) (Nat.le_of_not_lt hge))
      rw [Nat.testBit_lt_two_pow hpow] at h
      cases h
    rw [Nat.sub_add_cancel hi]
    cases hx : x.toNat.testBit i
    · simp
    · simp [hi, hlt hx, Nat.not_lt.mpr hi]
  · simp [hi, Nat.lt_of_not_le hi]

namespace Layout

variable (t : Layout)

theorem pos : 0 < t.align.toNat := by
  obtain ⟨k, hk⟩ := t.power
  rw [hk]
  exact Nat.two_pow_pos k

/-- A power of two that fits a word divides `2 ^ 63`. -/
theorem dvd_half : t.align.toNat ∣ 2 ^ 63 := by
  obtain ⟨k, hk⟩ := t.power
  have hlt : 2 ^ k < 2 ^ 64 := hk ▸ t.align.toNat_lt
  rw [hk]
  exact Nat.pow_dvd_pow 2 (Nat.le_of_lt_succ ((Nat.pow_lt_pow_iff_right Nat.one_lt_two).mp hlt))

end Layout

namespace BumpArena

variable {a : BumpArena} {t : Layout} {n : Nat}

theorem alignedStart_eq (ho : a.offset.toNat < 2 ^ 63) :
    (a.alignedStart t).toNat =
      (a.offset.toNat + (t.align.toNat - 1)) / t.align.toNat * t.align.toNat := by
  have hpos := t.pos
  have hle : t.align.toNat ≤ 2 ^ 63 := Nat.le_of_dvd (by decide) t.dvd_half
  have hmask : (t.align - 1).toNat = t.align.toNat - 1 := by
    have hone : (1 : UInt64) ≤ t.align := UInt64.le_iff_toNat_le.mpr hpos
    rw [UInt64.toNat_sub_of_le _ _ hone]
    rfl
  have hsum : (a.offset + (t.align - 1)).toNat = a.offset.toNat + (t.align.toNat - 1) := by
    rw [UInt64.toNat_add, hmask, Nat.mod_eq_of_lt (by omega)]
  obtain ⟨k, hk⟩ := t.power
  rw [alignedStart, and_not_mask _ _ (hmask.trans (by rw [hk])), hsum, hk]

theorem le_alignedStart (ho : a.offset.toNat < 2 ^ 63) :
    a.offset.toNat ≤ (a.alignedStart t).toNat := by
  have hpos := t.pos
  have hdiv := Nat.div_add_mod (a.offset.toNat + (t.align.toNat - 1)) t.align.toNat
  have hmod := Nat.mod_lt (a.offset.toNat + (t.align.toNat - 1)) hpos
  rw [Nat.mul_comm] at hdiv
  rw [alignedStart_eq ho]
  omega

theorem dvd_alignedStart (ho : a.offset.toNat < 2 ^ 63) :
    t.align.toNat ∣ (a.alignedStart t).toNat := by
  rw [alignedStart_eq ho]
  exact Nat.dvd_mul_left ..

/-- Rounding gives the first aligned offset. -/
theorem alignedStart_le (ho : a.offset.toNat < 2 ^ 63) (hn : a.offset.toNat ≤ n)
    (hdvd : t.align.toNat ∣ n) : (a.alignedStart t).toNat ≤ n := by
  obtain ⟨q, rfl⟩ := hdvd
  have hpos := t.pos
  have hlt : (a.offset.toNat + (t.align.toNat - 1)) / t.align.toNat < q + 1 := by
    rw [Nat.div_lt_iff_lt_mul hpos, Nat.add_mul, Nat.mul_comm q]
    omega
  rw [alignedStart_eq ho, Nat.mul_comm]
  exact Nat.mul_le_mul_left _ (Nat.le_of_lt_succ hlt)

/-- The end of the range does not wrap. -/
theorem end_eq (ho : a.offset.toNat < 2 ^ 63) :
    (a.alignedStart t + t.size).toNat = (a.alignedStart t).toNat + t.size.toNat := by
  have hle := alignedStart_le (n := 2 ^ 63) ho (Nat.le_of_lt ho) t.dvd_half
  have hsize := t.bounded
  rw [UInt64.toNat_add, Nat.mod_eq_of_lt (by omega)]

end BumpArena

-- ---------------------------------------------------------------------------
-- Runs
-- ---------------------------------------------------------------------------

namespace State

/-- Everything handed out ends below the offset. -/
structure Inv (b : Block) (s : State) : Prop where
  base : s.arena.base = b.base
  capacity : s.arena.capacity = b.capacity
  offset : s.arena.offset.toNat ≤ b.capacity.toNat
  below : ∀ r ∈ s.handed, r.start + r.size ≤ b.base.toNat + s.arena.offset.toNat

variable {b : Block} {s s' : State} {t : Layout}

theorem start_inv : (start b).Inv b := ⟨rfl, rfl, Nat.zero_le _, nofun⟩

theorem Inv.offset_lt (h : s.Inv b) : s.arena.offset.toNat < 2 ^ 63 :=
  Nat.lt_of_le_of_lt h.offset b.bounded

/-- A range that fits the block is handed out; otherwise nothing changes. -/
theorem Inv.alloc_cases (h : s.Inv b) :
    ((s.arena.alignedStart t).toNat + t.size.toNat ≤ b.capacity.toNat ∧
      ∃ address, s.arena.alloc t =
        (.ok address, { s.arena with offset := s.arena.alignedStart t + t.size }) ∧
        address.toNat = b.base.toNat + (s.arena.alignedStart t).toNat) ∨
    (b.capacity.toNat < (s.arena.alignedStart t).toNat + t.size.toNat ∧
      ∃ e, s.arena.alloc t = (.error e, s.arena)) := by
  have hend := BumpArena.end_eq (t := t) h.offset_lt
  have hinside := b.inside
  by_cases hfull : s.arena.alignedStart t + t.size > s.arena.capacity
  · have hlt := UInt64.lt_iff_toNat_lt.mp hfull
    rw [hend, h.capacity] at hlt
    refine .inr ⟨hlt, if t.align > s.arena.capacity then .alignment else .exhausted, ?_⟩
    simp only [BumpArena.alloc, if_pos hfull]
  · have hle := UInt64.le_iff_toNat_le.mp (UInt64.not_lt.mp hfull)
    rw [hend, h.capacity] at hle
    refine .inl ⟨hle, s.arena.base + s.arena.alignedStart t, ?_, ?_⟩
    · simp only [BumpArena.alloc, if_neg hfull]
    · rw [UInt64.toNat_add, h.base, Nat.mod_eq_of_lt (by omega)]

theorem Inv.step {call : Call} (h : s.Inv b) (hstep : s.step call = some s') : s'.Inv b := by
  cases call with
  | reset =>
    cases hstep
    exact ⟨h.base, h.capacity, Nat.zero_le _, nofun⟩
  | alloc t =>
    rw [State.step] at hstep
    rcases h.alloc_cases (t := t) with ⟨hle, address, halloc, haddress⟩ | ⟨-, e, halloc⟩
    · rw [halloc] at hstep
      cases hstep
      have hend := BumpArena.end_eq (t := t) h.offset_lt
      have hstart := BumpArena.le_alignedStart (t := t) h.offset_lt
      refine ⟨h.base, h.capacity, hend.symm ▸ hle, fun r hr => ?_⟩
      show r.start + r.size ≤ b.base.toNat + (s.arena.alignedStart t + t.size).toNat
      rw [hend]
      rcases List.mem_cons.mp hr with rfl | hr
      · simp only [haddress]
        omega
      · have hbelow := h.below r hr
        omega
    · rw [halloc] at hstep
      cases hstep
      exact h

/-- A multiple behind the base is a multiple behind zero exactly where the
base is one. -/
theorem dvd_add_iff {m x y : Nat} (hy : m ∣ y) : m ∣ x + y ↔ m ∣ x :=
  (Nat.dvd_add_iff_left hy).symm

theorem Inv.proper (h : s.Inv b) (hbase : t.align.toNat ∣ b.base.toNat) : s.Proper b t := by
  have hstart := BumpArena.le_alignedStart (t := t) h.offset_lt
  have hdvd := BumpArena.dvd_alignedStart (t := t) h.offset_lt
  rw [Proper]
  rcases h.alloc_cases (t := t) with ⟨hle, address, halloc, haddress⟩ | ⟨hlt, e, halloc⟩
  · rw [halloc]
    refine ⟨by omega, by omega, fun r hr => .inr ?_, ?_⟩
    · have hbelow := h.below r hr
      show r.start + r.size ≤ address.toNat
      omega
    · rw [haddress, dvd_add_iff hdvd]
      exact hbase
  · rw [halloc]
    refine ⟨rfl, ?_⟩
    rintro ⟨n, hn, hfits, hn'⟩
    rw [h.base, Nat.add_comm, dvd_add_iff hbase] at hn'
    rw [h.capacity] at hfits
    have hleast := BumpArena.alignedStart_le h.offset_lt hn hn'
    omega

/-- A value at an address that its type allows. -/
theorem Inv.dvd_base (h : s.Inv b) {address : UInt64} {arena : BumpArena}
    (halloc : s.arena.alloc t = (.ok address, arena)) (hproper : s.Proper b t) :
    t.align.toNat ∣ b.base.toNat := by
  have hdvd := BumpArena.dvd_alignedStart (t := t) h.offset_lt
  rcases h.alloc_cases (t := t) with ⟨-, address', halloc', haddress⟩ | ⟨-, e, halloc'⟩
  · rw [Proper, halloc'] at hproper
    have haligned := hproper.2.2.2
    rwa [haddress, dvd_add_iff hdvd] at haligned
  · rw [halloc] at halloc'
    cases halloc'

end State

/-- What calls on a new arena over the block reach. -/
def Reached (b : Block) (s : State) : Prop :=
  Reachable State.step (fun _ _ => True) (.start b) s

theorem Reached.inv {b : Block} {s : State} (h : Reached b s) : s.Inv b :=
  h.invariant State.start_inv fun _ _ _ hinv _ hstep => hinv.step hstep

/-- Allocations keep their promise for every type whose alignment divides the
block's address, and no allocation that succeeds keeps it for another. -/
theorem alloc_proper (b : Block) (s : State) (h : Reached b s) (t : Layout) :
    (t.align.toNat ∣ b.base.toNat → s.Proper b t) ∧
      ∀ address arena, s.arena.alloc t = (.ok address, arena) → s.Proper b t →
        t.align.toNat ∣ b.base.toNat :=
  ⟨h.inv.proper, fun _ _ halloc hproper => h.inv.dvd_base halloc hproper⟩

def word : Layout := ⟨8, 8, ⟨3, rfl⟩, by decide⟩

/-- 64 bytes behind the given address. -/
def blockAt (base : UInt64) (h : base.toNat < 2 ^ 63) : Block :=
  ⟨base, 64, by decide, by
    have hcap : (64 : UInt64).toNat = 64 := rfl
    omega⟩

theorem alloc_proper_even : (State.start (blockAt 4096 (by decide))).Proper
    (blockAt 4096 (by decide)) word :=
  (alloc_proper (blockAt 4096 (by decide)) _ .start word).1 (by decide)

/-- The first word of a block at an odd address. -/
theorem alloc_not_proper_odd : ¬ ∀ (b : Block) (s : State), Reached b s →
    ∀ t : Layout, s.Proper b t := by
  intro hall
  have hproper := hall (blockAt 4097 (by decide)) _ .start word
  exact absurd hproper.2.2.2 (by decide)

end Bump

end Sxla
