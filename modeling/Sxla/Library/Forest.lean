import Mathlib.Data.List.Basic

/-!
# Descending forests

A parent list in which no parent is above its child. Following parents from
`x` reaches the root of its tree within `x` steps. The roots are the only
solution of their recursion, so what an update does to them is checked one
step at a time.
-/

namespace Forest

variable {parent : List Nat} {x y p r : Nat}

def Descending (parent : List Nat) : Prop := ∀ x p : Nat, parent[x]? = some p → p ≤ x

/-- At most `fuel` steps up from `x`. -/
def climb (parent : List Nat) : Nat → Nat → Nat
  | 0, x => x
  | fuel + 1, x => if parent.getD x x = x then x else climb parent fuel (parent.getD x x)

def root (parent : List Nat) (x : Nat) : Nat := climb parent x x

theorem Descending.getD_le (h : Descending parent) (x : Nat) : parent.getD x x ≤ x := by
  rw [List.getD_eq_getElem?_getD]
  cases hx : parent[x]? with
  | none => exact Nat.le_refl _
  | some p => exact h x p hx

/-- Any climb that is long enough ends at the root. -/
theorem Descending.climb_eq (h : Descending parent) {fuel : Nat} (hf : x ≤ fuel) :
    climb parent fuel x = root parent x := by
  induction x using Nat.strongRecOn generalizing fuel with
  | _ x ih =>
    unfold root
    have hle := h.getD_le x
    cases x with
    | zero =>
      have hzero : parent.getD 0 0 = 0 := Nat.le_zero.mp hle
      cases fuel with
      | zero => rfl
      | succ fuel =>
        simp only [climb, hzero, ↓reduceIte]
    | succ x =>
      obtain ⟨fuel, rfl⟩ := Nat.exists_eq_add_of_le' hf
      rw [show fuel + (x + 1) = (fuel + x) + 1 by omega, climb, climb]
      split
      · rfl
      · next hne =>
        rw [ih _ (by omega) (by omega), ih _ (by omega) (by omega)]

/-- One step of the recursion. -/
theorem Descending.root_eq (h : Descending parent) (x : Nat) :
    root parent x = if parent.getD x x = x then x else root parent (parent.getD x x) := by
  have hle := h.getD_le x
  rw [← h.climb_eq (Nat.le_succ x), climb]
  split
  · rfl
  · exact h.climb_eq hle

theorem Descending.root_self (h : Descending parent) (hx : parent[x]? = some x) :
    root parent x = x := by
  rw [h.root_eq, if_pos (by simp [hx])]

theorem Descending.root_of_length_le (h : Descending parent) (hx : parent.length ≤ x) :
    root parent x = x := by
  rw [h.root_eq, if_pos (by simp [List.getD_eq_getElem?_getD, hx])]

theorem Descending.root_le (h : Descending parent) (x : Nat) : root parent x ≤ x := by
  induction x using Nat.strongRecOn with
  | _ x ih =>
    have hle := h.getD_le x
    rw [h.root_eq]
    split
    · exact Nat.le_refl _
    · exact Nat.le_trans (ih _ (by omega)) hle

theorem Descending.getElem?_root (h : Descending parent) (hx : x < parent.length) :
    parent[root parent x]? = some (root parent x) := by
  induction x using Nat.strongRecOn with
  | _ x ih =>
    have hle := h.getD_le x
    rw [h.root_eq]
    split
    · next heq =>
      rw [List.getElem?_eq_getElem hx]
      simpa [List.getD_eq_getElem?_getD, List.getElem?_eq_getElem hx] using heq
    · exact ih _ (by omega) (by omega)

theorem Descending.root_root (h : Descending parent) (hx : x < parent.length) :
    root parent (root parent x) = root parent x :=
  h.root_self (h.getElem?_root hx)

/-- The root is the only function that solves the recursion. -/
theorem Descending.root_unique (h : Descending parent) {f : Nat → Nat}
    (hf : ∀ x p : Nat, parent[x]? = some p → f x = if p = x then x else f p)
    (hx : x < parent.length) :
    root parent x = f x := by
  induction x using Nat.strongRecOn with
  | _ x ih =>
    have hp := List.getElem?_eq_getElem hx
    have hle := h x _ hp
    have hget : parent.getD x x = parent[x] := by simp [List.getD_eq_getElem?_getD, hp]
    rw [h.root_eq, hget, hf x _ hp]
    split
    · rfl
    · exact ih _ (by omega) (by omega)

-- ---------------------------------------------------------------------------
-- Updates
-- ---------------------------------------------------------------------------

theorem Descending.set (h : Descending parent) (hp : p ≤ y) : Descending (parent.set y p) := by
  intro x q hq
  rw [List.getElem?_set] at hq
  split at hq
  · next hyx =>
    subst hyx
    split at hq
    · cases hq
      exact hp
    · cases hq
  · exact h x q hq

/-- Pointing an entry at another one of its tree moves no root. -/
theorem Descending.root_shortcut (h : Descending parent) (hr : r ≤ y)
    (hroot : root parent r = root parent y) (hself : r = y → parent[y]? = some y)
    (hx : x < parent.length) : root (parent.set y r) x = root parent x := by
  refine (h.set hr).root_unique (fun z p hz => ?_) (by simpa using hx)
  rw [List.getElem?_set] at hz
  split at hz
  · next hyz =>
    subst hyz
    split at hz
    · cases hz
      split
      · next heq =>
        subst heq
        exact h.root_self (hself rfl)
      · exact hroot.symm
    · cases hz
  · rw [h.root_eq]
    simp [List.getD_eq_getElem?_getD, hz]

/-- Pointing an entry at its root moves no root. -/
theorem Descending.root_compress (h : Descending parent) (hy : y < parent.length)
    (hx : x < parent.length) :
    root (parent.set y (root parent y)) x = root parent x :=
  h.root_shortcut (h.root_le y) (h.root_root hy) (fun heq => heq ▸ h.getElem?_root hy) hx

/-- Pointing a root at another, lower one joins its tree to that one's. -/
theorem Descending.root_link (h : Descending parent) (hy : parent[y]? = some y)
    (hr : parent[r]? = some r) (hry : r ≤ y) (hx : x < parent.length) :
    root (parent.set y r) x = if root parent x = y then r else root parent x := by
  refine @Descending.root_unique (parent.set y r) x (h.set hry)
    (fun x => if root parent x = y then r else root parent x) (fun z p hz => ?_) (by simpa using hx)
  rw [List.getElem?_set] at hz
  split at hz
  · next hyz =>
    subst hyz
    rw [if_pos (List.getElem?_eq_some_iff.mp hy).1] at hz
    cases hz
    rw [h.root_self hy, h.root_self hr]
    split_ifs <;> simp_all
  · next hyz =>
    have hzroot : root parent z = if p = z then z else root parent p := by
      rw [h.root_eq]
      simp [List.getD_eq_getElem?_getD, hz]
    rw [hzroot]
    split
    · next hpz => exact if_neg (Ne.symm hyz)
    · rfl

-- ---------------------------------------------------------------------------
-- Updates that keep the roots
-- ---------------------------------------------------------------------------

structure SameRoots (parent parent' : List Nat) : Prop where
  descending : Descending parent'
  length : parent'.length = parent.length
  root : ∀ x < parent.length, root parent' x = root parent x

theorem SameRoots.refl (h : Descending parent) : SameRoots parent parent := ⟨h, rfl, fun _ _ => rfl⟩

theorem SameRoots.trans {parent' parent'' : List Nat} (h : SameRoots parent parent')
    (h' : SameRoots parent' parent'') : SameRoots parent parent'' where
  descending := h'.descending
  length := h'.length.trans h.length
  root x hx := (h'.root x (h.length.symm ▸ hx)).trans (h.root x hx)

theorem Descending.sameRoots (h : Descending parent) (hy : y < parent.length) :
    SameRoots parent (parent.set y (root parent y)) :=
  ⟨h.set (h.root_le y), List.length_set, fun _ hx => h.root_compress hy hx⟩

-- ---------------------------------------------------------------------------
-- Entries that are roots
-- ---------------------------------------------------------------------------

/-- The parent of `x` is its root. -/
def Flat (parent : List Nat) (x : Nat) : Prop := parent[x]? = some (root parent x)

theorem Flat.lt (h : Flat parent x) : x < parent.length := (List.getElem?_eq_some_iff.mp h).1

theorem Descending.root_of_entry (h : Descending parent) (hx : parent[x]? = some r) :
    root parent x = if r = x then x else root parent r := by
  rw [h.root_eq]
  simp [List.getD_eq_getElem?_getD, hx]

theorem Descending.flat_of (h : Descending parent) (hx : parent[x]? = some r)
    (hr : parent[r]? = some r) : Flat parent x := by
  have hroot : root parent x = r := by
    rw [h.root_of_entry hx, h.root_self hr]
    split
    · next hrx => exact hrx.symm
    · rfl
  rw [Flat, hroot, hx]

/-- A new root leaves what is flat flat. -/
theorem Descending.flat_set_self (h : Descending parent) (hx : Flat parent x) (y : Nat) :
    Flat (parent.set y y) x := by
  have hset : Descending (parent.set y y) := h.set (Nat.le_refl y)
  have hself : ∀ z r : Nat, parent[z]? = some r → z = y → (parent.set y y)[z]? = some z := by
    rintro z r hz rfl
    rw [List.getElem?_set_self (List.getElem?_eq_some_iff.mp hz).1]
  by_cases hxy : x = y
  · exact hset.flat_of (hself x _ hx hxy) (hself x _ hx hxy)
  · refine @Descending.flat_of _ _ (root parent x) hset ?_ ?_
    · rw [List.getElem?_set_ne (Ne.symm hxy)]
      exact hx
    · have hroot := h.getElem?_root hx.lt
      by_cases hry : root parent x = y
      · exact hself _ _ hroot hry
      · rwa [List.getElem?_set_ne (Ne.symm hry)]

theorem Descending.root_set_self (h : Descending parent) (hx : Flat parent x) (y : Nat) :
    root (parent.set y y) x = if x = y then x else root parent x := by
  have hentry : (parent.set y y)[x]? = some (root (parent.set y y) x) := h.flat_set_self hx y
  split
  · next hxy =>
    rw [← hxy, List.getElem?_set_self hx.lt] at hentry
    rw [← hxy]
    exact (Option.some.inj hentry).symm
  · next hxy =>
    rw [List.getElem?_set_ne (Ne.symm hxy)] at hentry
    exact Option.some.inj (hentry.symm.trans hx)

end Forest
