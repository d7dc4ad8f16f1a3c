import Mathlib.Algebra.Group.Nat.Defs
import Mathlib.Data.List.Basic
import Mathlib.Data.List.Zip

/-!
# Blocks of one length

A list whose entries are each written as a block of the same length can be
read back, without separators, where the blocks tell the entries apart. The
little-endian bytes of bounded numbers are such blocks.

Codes of differing lengths can be read back from the front of a list when
values whose codes may be confused are known to be alike in some respect.
-/

namespace Blocks

variable {α β : Type*} {f : α → List β} {size : Nat}

/-- Equal concatenations of blocks are of equal lists. -/
theorem flatMap_injOn (hlen : ∀ x, (f x).length = size) (hpos : 0 < size) {l l' : List α}
    (hinj : ∀ x ∈ l, ∀ y ∈ l', f x = f y → x = y) (h : l.flatMap f = l'.flatMap f) : l = l' := by
  induction l generalizing l' with
  | nil =>
    cases l' with
    | nil => rfl
    | cons y l' =>
      have hblock := congrArg List.length h
      simp only [List.flatMap_nil, List.flatMap_cons, List.length_nil, List.length_append,
        hlen] at hblock
      omega
  | cons x l ih =>
    cases l' with
    | nil =>
      have hblock := congrArg List.length h
      simp only [List.flatMap_nil, List.flatMap_cons, List.length_nil, List.length_append,
        hlen] at hblock
      omega
    | cons y l' =>
      rw [List.flatMap_cons, List.flatMap_cons] at h
      obtain ⟨hhead, htail⟩ := List.append_inj h (by rw [hlen, hlen])
      obtain rfl := hinj x List.mem_cons_self y List.mem_cons_self hhead
      rw [ih (fun a ha b hb => hinj a (List.mem_cons_of_mem _ ha) b (List.mem_cons_of_mem _ hb))
        htail]

/-- The `count` low bytes of a number, the lowest first. -/
def littleEndian (count v : Nat) : List UInt8 :=
  (List.range count).map fun i => .ofNat (v / 256 ^ i)

theorem length_littleEndian (count v : Nat) : (littleEndian count v).length = count := by
  simp [littleEndian]

/-- The bytes determine the number modulo `256 ^ count`. -/
theorem mod_eq_of_littleEndian {count v w : Nat} (h : littleEndian count v = littleEndian count w) :
    v % 256 ^ count = w % 256 ^ count := by
  induction count with
  | zero => simp only [Nat.pow_zero, Nat.mod_one]
  | succ count ih =>
    simp only [littleEndian, List.range_succ, List.map_append, List.map_cons, List.map_nil] at h
    obtain ⟨hlow, hhigh⟩ := List.append_inj h (by simp)
    have hbyte : v / 256 ^ count % 256 = w / 256 ^ count % 256 := by
      simpa using congrArg UInt8.toNat (List.cons.inj hhigh).1
    rw [Nat.pow_succ, Nat.mod_mul, Nat.mod_mul, ih hlow, hbyte]

-- ---------------------------------------------------------------------------
-- Codes of any length
-- ---------------------------------------------------------------------------

/-- Of values related by `R`, the codes in front of equal lists are of values
related by `E`, with the same rest behind them. -/
def Separates (R E : α → α → Prop) (f : α → List β) : Prop :=
  ∀ ⦃x y⦄, R x y → ∀ ⦃s t⦄, f x ++ s = f y ++ t → E x y ∧ s = t

section Separates

variable {R E : α → α → Prop} {l l' : List α} {s t : List β}

theorem separates_of_length (hlen : ∀ x y, R x y → (f x).length = (f y).length)
    (hinj : ∀ x y, R x y → f x = f y → E x y) : Separates R E f := by
  intro x y hR s t h
  obtain ⟨hcode, hrest⟩ := List.append_inj h (hlen x y hR)
  exact ⟨hinj x y hR hcode, hrest⟩

theorem separates_littleEndian (count : Nat) :
    Separates (fun v w => v < 256 ^ count ∧ w < 256 ^ count) Eq (littleEndian count) := by
  refine separates_of_length (fun v w _ => ?_) fun v w ⟨hv, hw⟩ h => ?_
  · rw [length_littleEndian, length_littleEndian]
  · have hmod := mod_eq_of_littleEndian h
    rwa [Nat.mod_eq_of_lt hv, Nat.mod_eq_of_lt hw] at hmod

/-- Lists of one length are separated when their entries are. -/
theorem Separates.flatMap (hf : Separates R E f) (hlen : l.length = l'.length)
    (hR : ∀ p ∈ l.zip l', R p.1 p.2) (h : l.flatMap f ++ s = l'.flatMap f ++ t) :
    List.Forall₂ E l l' ∧ s = t := by
  induction l generalizing l' with
  | nil =>
    obtain rfl := List.eq_nil_of_length_eq_zero hlen.symm
    exact ⟨.nil, h⟩
  | cons x l ih =>
    obtain ⟨y, l', rfl⟩ := List.exists_cons_of_length_eq_add_one hlen.symm
    rw [List.flatMap_cons, List.flatMap_cons, List.append_assoc, List.append_assoc] at h
    obtain ⟨hxy, h⟩ := hf (hR (x, y) List.mem_cons_self) h
    obtain ⟨hrest, hst⟩ := ih (Nat.succ.inj hlen) (fun p hp => hR p (List.mem_cons_of_mem _ hp)) h
    exact ⟨.cons hxy hrest, hst⟩

/-- So are lists of any length in front of rests of one length, when no code
is empty. -/
theorem Separates.flatMap_of_rest (hf : Separates R E f) (hne : ∀ x, f x ≠ [])
    (hR : ∀ p ∈ l.zip l', R p.1 p.2) (hst : s.length = t.length)
    (h : l.flatMap f ++ s = l'.flatMap f ++ t) : List.Forall₂ E l l' ∧ s = t := by
  induction l generalizing l' with
  | nil =>
    cases l' with
    | nil => exact ⟨.nil, h⟩
    | cons y l' =>
      have hlen := congrArg List.length h
      have hy := List.length_pos_of_ne_nil (hne y)
      simp only [List.flatMap_nil, List.nil_append, List.flatMap_cons, List.length_append] at hlen
      omega
  | cons x l ih =>
    cases l' with
    | nil =>
      have hlen := congrArg List.length h
      have hx := List.length_pos_of_ne_nil (hne x)
      simp only [List.flatMap_nil, List.nil_append, List.flatMap_cons, List.length_append] at hlen
      omega
    | cons y l' =>
      rw [List.flatMap_cons, List.flatMap_cons, List.append_assoc, List.append_assoc] at h
      obtain ⟨hxy, h⟩ := hf (hR (x, y) List.mem_cons_self) h
      obtain ⟨hrest, hst⟩ := ih (fun p hp => hR p (List.mem_cons_of_mem _ hp)) h
      exact ⟨.cons hxy hrest, hst⟩

end Separates

end Blocks
