import Sxla.Egraph.UnionFind
import Sxla.Library.Checked
import Mathlib.Data.Sym.Sym2
import Mathlib.Logic.Relation
import Mathlib.Order.Bounds.Basic

/-!
# Representatives are least ids of components

Over any sequence of calls the trees of the table are the components of the
links made so far, each rooted at its least id. The loops of the source are
given once more without a bound, as relations: a run of a loop that ends is
a derivation.
-/

namespace Sxla

open Checked

namespace UnionFind

open Forest

/-- The table as `new` stores it: an entry is an index cut to 32 bits. -/
def allocate (capacity : Nat) : UnionFind := ⟨(List.range capacity).map (· % 0x100000000)⟩

inductive Call where
  | union (a b : Nat)
  | find (id : Nat)
  | findRo (id : Nat)
deriving DecidableEq, Repr

namespace Call

def ids : Call → List Nat
  | .union a b => [a, b]
  | .find id => [id]
  | .findRo id => [id]

/-- Ids are 32-bit words. -/
def InRange (capacity : Nat) (call : Call) : Prop :=
  ∀ id ∈ call.ids, id < capacity ∧ id < 0x100000000

instance (capacity : Nat) (call : Call) : Decidable (call.InRange capacity) :=
  inferInstanceAs (Decidable (∀ id ∈ call.ids, id < capacity ∧ id < 0x100000000))

def link? : Call → Option (Nat × Nat)
  | .union a b => some (a, b)
  | _ => none

def perform (uf : UnionFind) : Call → Except UnionFindError UnionFind
  | .union a b => do
    let (_, uf) ← uf.union a b
    return uf
  | .find id => do
    let (_, uf) ← uf.find id
    return uf
  | .findRo id => do
    let _ ← uf.findRo id
    return uf

end Call

def run (uf : UnionFind) (calls : List Call) : Except UnionFindError UnionFind :=
  calls.foldlM Call.perform uf

def links (calls : List Call) : List (Nat × Nat) := calls.filterMap Call.link?

def undirected (links : List (Nat × Nat)) : List (Sym2 Nat) := links.map fun l => s(l.1, l.2)

def Joined (links : List (Nat × Nat)) : Nat → Nat → Prop :=
  Relation.EqvGen fun a b => (a, b) ∈ links

-- ---------------------------------------------------------------------------
-- The loops of `find` and `find_ro`
-- ---------------------------------------------------------------------------

/-- Up to the first entry that points at itself. -/
inductive Climbs (parent : List Nat) : Nat → Nat → Prop where
  | stop {x : Nat} (h : parent[x]? = some x) : Climbs parent x x
  | step {x p r : Nat} (h : parent[x]? = some p) (hne : p ≠ x) (hp : Climbs parent p r) :
    Climbs parent x r

/-- Up to the root, with every entry on the way pointed at it. -/
inductive Compresses (r : Nat) : List Nat → Nat → List Nat → Prop where
  | stop {parent : List Nat} : Compresses r parent r parent
  | step {parent parent' : List Nat} {cur next : Nat} (hne : cur ≠ r)
    (h : parent[cur]? = some next) (hp : Compresses r (parent.set cur r) next parent') :
    Compresses r parent cur parent'

/-- Both finds end at `r`, the one that compresses with the loops of the source. -/
structure Represents (uf : UnionFind) (id r : Nat) : Prop where
  findRo : uf.findRo id = .ok r
  climbs : Climbs uf.parent id r
  find : ∃ parent', Compresses r uf.parent id parent' ∧ uf.find id = .ok (r, ⟨parent'⟩)

variable {parent : List Nat} {uf uf' : UnionFind} {calls calls' : List Call}
  {l l' : List (Nat × Nat)} {capacity id a b x y fuel : Nat}

theorem climbs_root (h : Descending parent) (hx : x < parent.length) :
    Climbs parent x (root parent x) := by
  induction x using Nat.strongRecOn with
  | _ x ih =>
    have hget := List.getElem?_eq_getElem hx
    have hle := h x _ hget
    rw [h.root_of_entry hget]
    split
    · next heq =>
      rw [heq] at hget
      exact .stop hget
    · next hne => exact .step hget hne (ih _ (by omega) (by omega))

theorem compresses_compress (h : Descending parent) (hx : x < parent.length) (hf : x ≤ fuel) :
    Compresses (root parent x) parent x (compress (root parent x) fuel parent x) := by
  induction fuel generalizing parent x with
  | zero =>
    obtain rfl := Nat.le_zero.mp hf
    have hroot : root parent 0 = 0 := Nat.le_zero.mp (h.root_le 0)
    rw [hroot]
    exact .stop
  | succ fuel ih =>
    have hget := List.getElem?_eq_getElem hx
    have hnext : parent.getD x x = parent[x] := by simp [List.getD_eq_getElem?_getD, hget]
    rw [compress]
    split
    · next heq =>
      rw [← heq]
      exact .stop
    · next hne =>
      have hlt : parent[x] < x := by
        refine lt_of_le_of_ne (h x _ hget) fun heq => hne ?_
        rw [h.root_of_entry hget, if_pos heq]
      have hroot : root parent x = root parent parent[x] := by
        rw [h.root_of_entry hget, if_neg hlt.ne]
      have hset := h.sameRoots hx
      have hrest := @ih (parent.set x (root parent x)) parent[x] hset.descending
        (by simpa using hlt.trans hx) (by omega)
      rw [hset.root _ (hlt.trans hx), ← hroot] at hrest
      rw [hnext]
      exact .step hne hget hrest

theorem represents_root (h : Descending uf.parent) (hid : id < uf.parent.length) :
    uf.Represents id (root uf.parent id) where
  findRo := findRo_eq hid
  climbs := climbs_root h hid
  find := ⟨_, compresses_compress h hid le_rfl, if_neg (Nat.not_le.mpr hid)⟩

-- ---------------------------------------------------------------------------
-- Trees and components
-- ---------------------------------------------------------------------------

theorem Joined.mono (hl : ∀ e ∈ l, e ∈ l') (h : Joined l x y) : Joined l' x y :=
  Relation.EqvGen.mono (fun a b he => hl (a, b) he) x y h

theorem joined_of_link (h : s(a, b) ∈ undirected l) : Joined l a b := by
  obtain ⟨⟨c, d⟩, hmem, heq⟩ := List.mem_map.mp h
  rcases Sym2.eq_iff.mp heq with ⟨rfl, rfl⟩ | ⟨rfl, rfl⟩
  · exact .rel _ _ hmem
  · exact .symm _ _ (.rel _ _ hmem)

/-- Components depend on the undirected links alone. -/
theorem Joined.of_undirected (hl : ∀ e ∈ undirected l, e ∈ undirected l') (h : Joined l x y) :
    Joined l' x y := by
  induction h with
  | rel a b he =>
    exact joined_of_link (hl _ (List.mem_map.mpr ⟨(a, b), he, rfl⟩))
  | refl a => exact .refl a
  | symm a b _ ih => exact .symm _ _ ih
  | trans a b c _ _ ih ih' => exact .trans _ _ _ ih ih'

/-- The trees are the components of the links. -/
structure Spans (capacity : Nat) (l : List (Nat × Nat)) (uf : UnionFind) : Prop where
  descending : Descending uf.parent
  length : uf.parent.length = capacity
  bounded : ∀ e ∈ l, e.1 < capacity ∧ e.2 < capacity
  linked : ∀ e ∈ l, root uf.parent e.1 = root uf.parent e.2
  joined : ∀ x, x < capacity → x < 0x100000000 → Joined l x (root uf.parent x)

theorem Spans.root_eq (h : Spans capacity l uf) (hxy : Joined l x y) :
    root uf.parent x = root uf.parent y := by
  induction hxy with
  | rel a b he => exact h.linked _ he
  | refl a => rfl
  | symm a b _ ih => exact ih.symm
  | trans a b c _ _ ih ih' => exact ih.trans ih'

theorem Spans.isLeast (h : Spans capacity l uf) (hid : id < capacity) (hword : id < 0x100000000) :
    IsLeast {x | Joined l id x} (root uf.parent id) := by
  refine ⟨h.joined id hid hword, fun y hy => ?_⟩
  rw [h.root_eq hy]
  exact h.descending.root_le y

theorem allocate_spans (capacity : Nat) : Spans capacity [] (allocate capacity) := by
  have hentry : ∀ x p : Nat, (allocate capacity).parent[x]? = some p → p = x % 0x100000000 := by
    intro x p hp
    rw [allocate, List.getElem?_map] at hp
    obtain ⟨y, hy, rfl⟩ := Option.map_eq_some_iff.mp hp
    obtain ⟨_, rfl⟩ := List.getElem?_eq_some_iff.mp hy
    simp
  have hdesc : Descending (allocate capacity).parent := by
    intro x p hp
    rw [hentry x p hp]
    exact Nat.mod_le _ _
  refine ⟨hdesc, by simp [allocate], by simp, by simp, fun x hx hword => ?_⟩
  have hget := List.getElem?_eq_getElem (show x < (allocate capacity).parent.length by
    simpa [allocate] using hx)
  have hself := hentry x _ hget
  rw [hself, Nat.mod_eq_of_lt hword] at hget
  rw [hdesc.root_self hget]
  exact .refl x

theorem Spans.sameRoots (h : Spans capacity l uf) (hs : SameRoots uf.parent uf'.parent) :
    Spans capacity l uf' := by
  refine ⟨hs.descending, hs.length.trans h.length, h.bounded, fun e he => ?_, fun x hx hw => ?_⟩
  · obtain ⟨h1, h2⟩ := h.bounded e he
    rw [hs.root _ (h.length.symm ▸ h1), hs.root _ (h.length.symm ▸ h2)]
    exact h.linked e he
  · rw [hs.root x (h.length.symm ▸ hx)]
    exact h.joined x hx hw

theorem Spans.union (h : Spans capacity l uf) (ha : a < capacity ∧ a < 0x100000000)
    (hb : b < capacity ∧ b < 0x100000000) :
    ∃ r uf', uf.union a b = .ok (r, uf') ∧ Spans capacity (l ++ [(a, b)]) uf' := by
  have hlen := h.length
  obtain ⟨uf', hunion, hdesc, hlen', hroot⟩ :=
    union_spec h.descending (hlen.symm ▸ ha.1) (hlen.symm ▸ hb.1)
  rw [hlen] at hroot
  have hrootA := hroot a ha.1
  have hrootB := hroot b hb.1
  have hmono : ∀ x y, Joined l x y → Joined (l ++ [(a, b)]) x y := fun x y =>
    .mono fun e he => List.mem_append_left _ he
  have hends : Joined (l ++ [(a, b)]) (root uf.parent a) (root uf.parent b) :=
    .trans _ _ _ (.symm _ _ (hmono _ _ (h.joined a ha.1 ha.2)))
      (.trans _ _ _ (.rel _ _ (by simp)) (hmono _ _ (h.joined b hb.1 hb.2)))
  refine ⟨_, uf', hunion, hdesc, hlen'.trans hlen, fun e he => ?_, fun e he => ?_,
    fun x hx hw => ?_⟩
  · rcases List.mem_append.mp he with he | he
    · exact h.bounded e he
    · obtain rfl := List.mem_singleton.mp he
      exact ⟨ha.1, hb.1⟩
  · rcases List.mem_append.mp he with he | he
    · obtain ⟨h1, h2⟩ := h.bounded e he
      rw [hroot _ h1, hroot _ h2, h.linked e he]
    · obtain rfl := List.mem_singleton.mp he
      rw [hrootA, hrootB]
      rcases Nat.le_total (root uf.parent a) (root uf.parent b) with hle | hle
      · rw [Nat.min_eq_left hle, Nat.max_eq_right hle]
        simp
      · rw [Nat.min_eq_right hle, Nat.max_eq_left hle]
        simp
  · have hold := hmono _ _ (h.joined x hx hw)
    rw [hroot x hx]
    split
    · next heq =>
      refine .trans _ _ _ hold ?_
      rw [heq]
      rcases Nat.le_total (root uf.parent a) (root uf.parent b) with hle | hle
      · rw [Nat.min_eq_left hle, Nat.max_eq_right hle]
        exact .symm _ _ hends
      · rw [Nat.min_eq_right hle, Nat.max_eq_left hle]
        exact hends
    · exact hold

theorem Spans.perform (h : Spans capacity l uf) {call : Call} (hin : call.InRange capacity) :
    ∃ uf', call.perform uf = .ok uf' ∧ Spans capacity (l ++ call.link?.toList) uf' := by
  have hlen := h.length
  cases call with
  | union a b =>
    obtain ⟨r, uf', hunion, hspans⟩ := h.union (hin a (by simp [Call.ids]))
      (hin b (by simp [Call.ids]))
    exact ⟨uf', by simp [Call.perform, hunion, bind, Except.bind, pure, Except.pure], hspans⟩
  | find id =>
    have hid := hin id (by simp [Call.ids])
    obtain ⟨uf', hfind, hsame⟩ := find_eq h.descending (hlen.symm ▸ hid.1)
    refine ⟨uf', by simp [Call.perform, hfind, bind, Except.bind, pure, Except.pure], ?_⟩
    simpa [Call.link?] using h.sameRoots hsame
  | findRo id =>
    have hid := hin id (by simp [Call.ids])
    have hfind := findRo_eq (hlen.symm ▸ hid.1 : id < uf.parent.length)
    refine ⟨uf, by simp [Call.perform, hfind, bind, Except.bind, pure, Except.pure], ?_⟩
    simpa [Call.link?] using h

theorem Spans.run (h : Spans capacity l uf) (hin : ∀ call ∈ calls, call.InRange capacity) :
    ∃ uf', uf.run calls = .ok uf' ∧ Spans capacity (l ++ links calls) uf' := by
  induction calls generalizing uf l with
  | nil => exact ⟨uf, rfl, by simpa [links] using h⟩
  | cons call calls ih =>
    obtain ⟨uf₁, hcall, hspans⟩ := h.perform (hin call (List.mem_cons_self ..))
    obtain ⟨uf', hrun, hspans'⟩ := ih hspans fun c hc => hin c (List.mem_cons_of_mem _ hc)
    refine ⟨uf', ?_, ?_⟩
    · rw [UnionFind.run, List.foldlM_cons, hcall]
      exact hrun
    · have hlinks : links (call :: calls) = call.link?.toList ++ links calls := by
        cases hl : call.link? <;> simp [links, hl]
      rw [hlinks, ← List.append_assoc]
      exact hspans'

theorem run_spans (hin : ∀ call ∈ calls, call.InRange capacity) :
    ∃ uf, (allocate capacity).run calls = .ok uf ∧ Spans capacity (links calls) uf := by
  obtain ⟨uf, hrun, hspans⟩ := (allocate_spans capacity).run hin
  exact ⟨uf, hrun, by simpa using hspans⟩

theorem isLeast_joined_congr {r r' : Nat} (hp : (undirected l').Perm (undirected l))
    (h : IsLeast {x | Joined l id x} r) (h' : IsLeast {x | Joined l' id x} r') : r' = r := by
  have hset : {x | Joined l' id x} = {x | Joined l id x} := by
    ext x
    exact ⟨.of_undirected fun e => hp.mem_iff.mp, .of_undirected fun e => hp.mem_iff.mpr⟩
  rw [hset] at h'
  exact h'.unique h

/-- Every id is answered by the least id of its component, and any other calls
that make the same links in another order or direction give the same answer. -/
theorem find_least (hin : ∀ call ∈ calls, call.InRange capacity) :
    ∃ uf, (allocate capacity).run calls = .ok uf ∧
      ∀ id, id < capacity → id < 0x100000000 →
        ∃ r, IsLeast {x | Joined (links calls) id x} r ∧ uf.Represents id r ∧
          ∀ calls' : List Call, (∀ call ∈ calls', call.InRange capacity) →
            (undirected (links calls')).Perm (undirected (links calls)) →
            ∃ uf', (allocate capacity).run calls' = .ok uf' ∧ uf'.Represents id r := by
  obtain ⟨uf, hrun, hspans⟩ := run_spans hin
  refine ⟨uf, hrun, fun id hid hword => ?_⟩
  have hleast := hspans.isLeast hid hword
  refine ⟨_, hleast, represents_root hspans.descending (hspans.length.symm ▸ hid), ?_⟩
  intro calls' hin' hperm
  obtain ⟨uf', hrun', hspans'⟩ := run_spans hin'
  have hsame := isLeast_joined_congr hperm hleast (hspans'.isLeast hid hword)
  refine ⟨uf', hrun', ?_⟩
  rw [← hsame]
  exact represents_root hspans'.descending (hspans'.length.symm ▸ hid)

def chainCalls : List Call := [.union 2 1, .find 2, .union 1 0, .findRo 3]

theorem find_least_chainCalls :
    ∃ uf, (allocate 4).run chainCalls = .ok uf ∧
      ∀ id, id < 4 → id < 0x100000000 →
        ∃ r, IsLeast {x | Joined (links chainCalls) id x} r ∧ uf.Represents id r ∧
          ∀ calls' : List Call, (∀ call ∈ calls', call.InRange 4) →
            (undirected (links calls')).Perm (undirected (links chainCalls)) →
            ∃ uf', (allocate 4).run calls' = .ok uf' ∧ uf'.Represents id r :=
  find_least (by decide)

end UnionFind

end Sxla
