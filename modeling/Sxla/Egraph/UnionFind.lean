import Sxla.Library.Forest

/-!
# The union-find table

Parents are never above their children, so the loops of `find` climb from an
id to its root within as many rounds as the id says.
-/

namespace Sxla

inductive UnionFindError where
  | outOfBounds
deriving DecidableEq, Repr

structure UnionFind where
  parent : List Nat
deriving DecidableEq, Repr

namespace UnionFind

open Forest

def new (capacity : Nat) : UnionFind := ⟨List.range capacity⟩

/-- The second loop of `find`: every entry on the way is pointed at the root. -/
def compress (root : Nat) : Nat → List Nat → Nat → List Nat
  | 0, parent, _ => parent
  | fuel + 1, parent, cur =>
    if cur = root then parent
    else compress root fuel (parent.set cur root) (parent.getD cur cur)

def findRo (uf : UnionFind) (id : Nat) : Except UnionFindError Nat :=
  if id ≥ uf.parent.length then .error .outOfBounds else .ok (root uf.parent id)

def find (uf : UnionFind) (id : Nat) : Except UnionFindError (Nat × UnionFind) :=
  if id ≥ uf.parent.length then .error .outOfBounds
  else
    let r := root uf.parent id
    .ok (r, ⟨compress r id uf.parent id⟩)

/-- The lower root wins. -/
def union (uf : UnionFind) (a b : Nat) : Except UnionFindError (Nat × UnionFind) := do
  let (ra, uf) ← uf.find a
  let (rb, uf) ← uf.find b
  if ra = rb then return (ra, uf)
  return (min ra rb, ⟨uf.parent.set (max ra rb) (min ra rb)⟩)

-- ---------------------------------------------------------------------------
-- What the operations do to the roots
-- ---------------------------------------------------------------------------

variable {uf : UnionFind} {id a b : Nat}

theorem new_descending (n : Nat) : Descending (new n).parent := by
  intro x p hp
  obtain ⟨hx, rfl⟩ := List.getElem?_eq_some_iff.mp hp
  simp [new]

theorem new_root : root (new a).parent b = b := by
  rw [(new_descending a).root_eq, if_pos]
  simp only [new, List.getD_eq_getElem?_getD]
  cases h : (List.range a)[b]? with
  | none => rfl
  | some p =>
    obtain ⟨_, hp⟩ := List.getElem?_eq_some_iff.mp h
    simpa using hp.symm

theorem compress_sameRoots {parent : List Nat} {fuel cur : Nat} (h : Descending parent)
    (hcur : cur < parent.length) :
    SameRoots parent (compress (root parent cur) fuel parent cur) := by
  induction fuel generalizing parent cur with
  | zero => exact .refl h
  | succ fuel ih =>
    unfold compress
    split
    · exact .refl h
    · next hne =>
      have hset := h.sameRoots hcur
      have hnext : parent.getD cur cur < parent.length := Nat.lt_of_le_of_lt (h.getD_le cur) hcur
      have hroot : root parent (parent.getD cur cur) = root parent cur := by
        have hstep := h.root_eq cur
        split at hstep
        · exact absurd hstep.symm hne
        · exact hstep.symm
      have hih := @ih (parent.set cur (root parent cur)) (parent.getD cur cur) hset.descending
        (by simpa using hnext)
      rw [hset.root _ hnext, hroot] at hih
      exact hset.trans hih

theorem compress_entry {parent : List Nat} {r fuel cur : Nat} (x : Nat) :
    (compress r fuel parent cur)[x]? = parent[x]? ∨
      (compress r fuel parent cur)[x]? = some r := by
  induction fuel generalizing parent cur with
  | zero => exact .inl rfl
  | succ fuel ih =>
    unfold compress
    split
    · exact .inl rfl
    · rcases @ih (parent.set cur r) (parent.getD cur cur) with h | h
      · rw [h, List.getElem?_set]
        split
        · next hx =>
          subst hx
          split
          · exact .inr rfl
          · next hlt => exact .inl (List.getElem?_eq_none (Nat.le_of_not_lt hlt)).symm
        · exact .inl rfl
      · exact .inr h

/-- What was flat stays so. -/
theorem compress_keeps_flat {parent : List Nat} {fuel cur x : Nat} (h : Descending parent)
    (hcur : cur < parent.length) (hx : Flat parent x) :
    Flat (compress (root parent cur) fuel parent cur) x := by
  have hsame := @compress_sameRoots _ fuel _ h hcur
  rcases @compress_entry parent (root parent cur) fuel cur x with hentry | hentry
  · rw [Flat, hentry, hsame.root x hx.lt]
    exact hx
  · have hlt : root parent cur < parent.length := Nat.lt_of_le_of_lt (h.root_le cur) hcur
    have hroot := hsame.descending.root_of_entry hentry
    rw [hsame.root _ hlt, h.root_root hcur] at hroot
    rw [Flat, hentry, hroot]
    split
    · next heq => rw [heq]
    · rfl

/-- A climb that is long enough leaves its start flat. -/
theorem compress_flat {parent : List Nat} {fuel cur : Nat} (h : Descending parent)
    (hcur : cur < parent.length) (hfuel : cur ≤ fuel) :
    Flat (compress (root parent cur) fuel parent cur) cur := by
  have hsame := @compress_sameRoots _ fuel _ h hcur
  have hentry : (compress (root parent cur) fuel parent cur)[cur]? = some (root parent cur) := by
    have hroot := h.getElem?_root hcur
    cases fuel with
    | zero =>
      obtain rfl := Nat.le_zero.mp hfuel
      exact hroot
    | succ fuel =>
      rw [compress]
      split
      · next heq =>
        rw [← heq] at hroot
        rw [hroot, ← heq]
      · rcases @compress_entry (parent.set cur (root parent cur)) (root parent cur) fuel
          (parent.getD cur cur) cur with hset | hset
        · rw [hset, List.getElem?_set_self hcur]
        · exact hset
  rw [Flat, hentry, hsame.root cur hcur]

theorem findRo_eq (hid : id < uf.parent.length) : uf.findRo id = .ok (root uf.parent id) := by
  simp [findRo, hid]

theorem find_eq (h : Descending uf.parent) (hid : id < uf.parent.length) :
    ∃ uf', uf.find id = .ok (root uf.parent id, uf') ∧ SameRoots uf.parent uf'.parent := by
  refine ⟨_, if_neg (Nat.not_le.mpr hid), compress_sameRoots h hid⟩

/-- The root of the higher tree is pointed at that of the lower. -/
theorem union_spec (h : Descending uf.parent) (ha : a < uf.parent.length)
    (hb : b < uf.parent.length) :
    ∃ uf', uf.union a b = .ok (min (root uf.parent a) (root uf.parent b), uf') ∧
      Descending uf'.parent ∧ uf'.parent.length = uf.parent.length ∧
      ∀ x < uf.parent.length, root uf'.parent x =
        if root uf.parent x = max (root uf.parent a) (root uf.parent b)
          then min (root uf.parent a) (root uf.parent b) else root uf.parent x := by
  obtain ⟨u, hu, hsu⟩ := find_eq h ha
  obtain ⟨v, hv, hsv⟩ := find_eq hsu.descending (hsu.length.symm ▸ hb)
  rw [hsu.root b hb] at hv
  have hsame := hsu.trans hsv
  simp only [union, hu, hv, bind, Except.bind, pure, Except.pure]
  have hroot : ∀ x < uf.parent.length,
      v.parent[root uf.parent x]? = some (root uf.parent x) := by
    intro x hx
    have hget := hsame.descending.getElem?_root (hsame.length.symm ▸ hx)
    rwa [hsame.root x hx] at hget
  have hra := hroot a ha
  have hrb := hroot b hb
  generalize root uf.parent a = ra at *
  generalize root uf.parent b = rb at *
  by_cases hab : ra = rb
  · subst hab
    refine ⟨v, by simp, hsame.descending, hsame.length, fun x hx => ?_⟩
    rw [hsame.root x hx]
    split <;> simp_all
  · have hmax : v.parent[max ra rb]? = some (max ra rb) := by
      rcases Nat.le_total ra rb with hle | hle
      · rwa [Nat.max_eq_right hle]
      · rwa [Nat.max_eq_left hle]
    have hmin : v.parent[min ra rb]? = some (min ra rb) := by
      rcases Nat.le_total ra rb with hle | hle
      · rwa [Nat.min_eq_left hle]
      · rwa [Nat.min_eq_right hle]
    have hle : min ra rb ≤ max ra rb := by omega
    refine ⟨⟨v.parent.set (max ra rb) (min ra rb)⟩, by simp [hab], hsame.descending.set hle, ?_,
      fun x hx => ?_⟩
    · simpa using hsame.length
    · rw [hsame.descending.root_link hmax hmin hle (hsame.length.symm ▸ hx), hsame.root x hx]

/-- Joining two roots. -/
theorem union_eq (h : Descending uf.parent) (ha : uf.parent[a]? = some a)
    (hb : uf.parent[b]? = some b) :
    ∃ uf', uf.union a b = .ok (min a b, uf') ∧ Descending uf'.parent ∧
      uf'.parent.length = uf.parent.length ∧
      ∀ x < uf.parent.length, root uf'.parent x =
        if root uf.parent x = max a b then min a b else root uf.parent x := by
  have hspec := union_spec h (List.getElem?_eq_some_iff.mp ha).1 (List.getElem?_eq_some_iff.mp hb).1
  rwa [h.root_self ha, h.root_self hb] at hspec

end UnionFind

end Sxla
