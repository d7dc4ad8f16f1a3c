import Sxla.Library.DepOrder

/-!
# Kahn's algorithm on counter tables

Positions `0 .. producers.length - 1`, each with the list of positions it
needs (with repetition). A state keeps one counter for each position, the
emitted flags and the order so far; emitting a position lowers the counter
of each of its consumers once for every use. `Inv` says what the tables
mean, so that a zero counter is exactly readiness, and a `Run` is any
sequence of emissions of ready positions, whatever rule picks them.
-/

namespace Kahn

open DepOrder

variable {producers : List (List Nat)}

/-- `y` uses `x`. -/
def Dep (producers : List (List Nat)) (x y : Nat) : Prop := x ∈ producers.getD y []

structure State where
  indeg : List Nat
  emitted : List Bool
  order : List Nat

def init (producers : List (List Nat)) : State :=
  { indeg := producers.map List.length
    emitted := List.replicate producers.length false
    order := [] }

/-- Every consumer of `pos`, once for each use. -/
def consumers (producers : List (List Nat)) (pos : Nat) : List Nat :=
  (List.range producers.length).flatMap fun c =>
    List.replicate ((producers.getD c []).count pos) c

def release (emitted : List Bool) (indeg : List Nat) (c : Nat) : List Nat :=
  if emitted.getD c false then indeg else indeg.modify c (· - 1)

def emit (producers : List (List Nat)) (s : State) (pos : Nat) : State :=
  let emitted := s.emitted.set pos true
  { indeg := (consumers producers pos).foldl (release emitted) s.indeg
    emitted
    order := s.order ++ [pos] }

def ready (s : State) (pos : Nat) : Bool :=
  !s.emitted.getD pos false && s.indeg.getD pos 0 == 0

structure Inv (producers : List (List Nat)) (s : State) : Prop where
  indeg_length : s.indeg.length = producers.length
  emitted_length : s.emitted.length = producers.length
  nodup : s.order.Nodup
  lt : ∀ p ∈ s.order, p < producers.length
  emitted_iff : ∀ p < producers.length, s.emitted.getD p false = true ↔ p ∈ s.order
  indeg_eq : ∀ c < producers.length, c ∉ s.order →
    s.indeg.getD c 0 = (producers.getD c []).countP (· ∉ s.order)
  ordered : Ordered (Dep producers) s.order

/-- Emissions of ready positions, in any order. -/
inductive Run (producers : List (List Nat)) : State → State → Prop
  | refl : Run producers s s
  | emit : Run producers s t → pos < producers.length → ready t pos = true →
      Run producers s (emit producers t pos)

-- ---------------------------------------------------------------------------
-- One emission
-- ---------------------------------------------------------------------------

theorem count_consumers (hc : c < producers.length) :
    (consumers producers pos).count c = (producers.getD c []).count pos := by
  suffices h : ∀ m, ((List.range m).flatMap fun c' =>
      List.replicate ((producers.getD c' []).count pos) c').count c =
        if c < m then (producers.getD c []).count pos else 0 by
    rw [consumers, h, if_pos hc]
  intro m
  induction m with
  | zero => simp
  | succ m ih =>
    rw [List.range_succ, List.flatMap_append, List.count_append, ih]
    rcases Nat.lt_trichotomy c m with h | rfl | h
    · have : (m == c) = false := by simp; omega
      simp [List.count_replicate, this, h, Nat.lt_succ_of_lt h]
    · simp
    · have : (m == c) = false := by simp; omega
      simp [List.count_replicate, this, Nat.not_lt.mpr h.le, show ¬ c < m + 1 by omega]

theorem foldl_release_length (l : List Nat) (d : List Nat) :
    (l.foldl (release emitted) d).length = d.length := by
  induction l generalizing d with
  | nil => rfl
  | cons c l ih =>
    rw [List.foldl_cons, ih, release]
    split <;> simp

theorem getD_modify_self (d : List Nat) (c : Nat) :
    (d.modify c (· - 1)).getD c 0 = d.getD c 0 - 1 := by
  simp only [List.getD_eq_getElem?_getD, List.getElem?_modify_eq]
  cases d[c]? <;> rfl

theorem getD_modify_ne (d : List Nat) (h : c' ≠ c) :
    (d.modify c' (· - 1)).getD c 0 = d.getD c 0 := by
  rw [List.getD_eq_getElem?_getD, List.getElem?_modify_ne _ _ h, ← List.getD_eq_getElem?_getD]

/-- Each use of the emitted position lowers the counter of an unemitted
consumer by one. -/
theorem foldl_release (he : emitted.getD c false = false) (l : List Nat) (d : List Nat) :
    (l.foldl (release emitted) d).getD c 0 = d.getD c 0 - l.count c := by
  induction l generalizing d with
  | nil => simp
  | cons c' l ih =>
    rw [List.foldl_cons, ih]
    by_cases h : c' = c
    · subst h
      rw [release, if_neg (by rw [he]; simp), getD_modify_self, List.count_cons_self]
      omega
    · rw [List.count_cons_of_ne h, release]
      split
      · rfl
      · rw [getD_modify_ne _ h]

/-- Splitting off one value that no longer counts. -/
theorem countP_append_singleton (l order : List Nat) (hp : pos ∉ order) :
    l.countP (· ∉ order ++ [pos]) + l.count pos = l.countP (· ∉ order) := by
  induction l with
  | nil => rfl
  | cons x l ih =>
    by_cases hx : x = pos
    · subst hx
      simp only [List.count_cons_self, List.countP_cons]
      simp [hp]
      simp at ih
      omega
    · rw [List.count_cons_of_ne hx, List.countP_cons, List.countP_cons]
      by_cases ho : x ∈ order
      · simp [ho]
        simpa using ih
      · simp [ho, hx]
        simp at ih
        omega

theorem init_inv : Inv producers (init producers) where
  indeg_length := by simp [init]
  emitted_length := by simp [init]
  nodup := by simp [init]
  lt := by simp [init]
  emitted_iff := by
    intro p _
    simp [init, List.getElem?_replicate]
    split <;> simp
  indeg_eq := by
    intro c hc _
    simp [init, List.getElem?_eq_getElem hc]
  ordered := Ordered.nil

/-- A zero counter is readiness: nothing the position uses is missing. -/
theorem Inv.ready_iff (h : Inv producers s) (hp : pos < producers.length) :
    ready s pos = true ↔ pos ∉ s.order ∧ ∀ x, Dep producers x pos → x ∈ s.order := by
  have he := h.emitted_iff pos hp
  simp only [ready, Bool.and_eq_true, Bool.not_eq_true', beq_iff_eq]
  rw [← Bool.not_eq_true, he]
  refine and_congr_right fun hno => ?_
  rw [h.indeg_eq pos hp hno, List.countP_eq_zero]
  simp [Dep]

theorem Inv.emit (h : Inv producers s) (hp : pos < producers.length) (hr : ready s pos = true) :
    Inv producers (emit producers s pos) := by
  obtain ⟨hno, hdeps⟩ := (h.ready_iff hp).mp hr
  have hemit : ∀ p < producers.length,
      (s.emitted.set pos true).getD p false = true ↔ p ∈ s.order ++ [pos] := by
    intro p hlt
    by_cases hpp : pos = p
    · subst hpp
      simp [h.emitted_length, hp]
    · have := h.emitted_iff p hlt
      rw [List.getD_eq_getElem?_getD, List.getElem?_set_ne hpp, ← List.getD_eq_getElem?_getD, this]
      simp [Ne.symm hpp]
  exact
    { indeg_length := by rw [Kahn.emit, foldl_release_length, h.indeg_length]
      emitted_length := by simp [Kahn.emit, h.emitted_length]
      nodup := by
        rw [Kahn.emit, List.nodup_append]
        exact ⟨h.nodup, List.nodup_singleton _, by
          intro a ha b hb
          obtain rfl := List.mem_singleton.mp hb
          exact fun he => hno (he ▸ ha)⟩
      lt := by
        intro p hp'
        rcases List.mem_append.mp hp' with hp' | hp'
        · exact h.lt p hp'
        · exact List.mem_singleton.mp hp' ▸ hp
      emitted_iff := hemit
      indeg_eq := by
        intro c hc hno'
        have hce : (s.emitted.set pos true).getD c false = false :=
          Bool.eq_false_iff.mpr fun ht => hno' ((hemit c hc).mp ht)
        have hco : c ∉ s.order := fun hm => hno' (List.mem_append_left _ hm)
        have hsplit := countP_append_singleton (producers.getD c []) s.order hno
        simp only [Kahn.emit]
        rw [foldl_release hce, count_consumers hc, h.indeg_eq c hc hco]
        exact Nat.sub_eq_of_eq_add hsplit.symm
      ordered := h.ordered.concat hdeps }

-- ---------------------------------------------------------------------------
-- Whole runs
-- ---------------------------------------------------------------------------

theorem Run.trans (h : Run producers s t) (h' : Run producers t u) : Run producers s u := by
  induction h' with
  | refl => exact h
  | emit _ hp hr ih => exact ih.emit hp hr

theorem Run.inv (h : Run producers s t) (hs : Inv producers s) : Inv producers t := by
  induction h with
  | refl => exact hs
  | emit _ hp hr ih => exact ih.emit hp hr

theorem Run.order_isPrefix (h : Run producers s t) : s.order <+: t.order := by
  induction h with
  | refl => exact List.prefix_rfl
  | emit _ _ _ ih => exact ih.trans (List.prefix_append _ _)

theorem Inv.length_le (h : Inv producers s) : s.order.length ≤ producers.length := by
  have hsub : s.order ⊆ List.range producers.length := fun p hp => List.mem_range.mpr (h.lt p hp)
  simpa using (h.nodup.subperm hsub).length_le

/-- An order that is long enough lists every position once. -/
theorem Inv.perm_range (h : Inv producers s) (hl : s.order.length = producers.length) :
    s.order.Perm (List.range producers.length) := by
  refine (h.nodup.subperm fun p hp => List.mem_range.mpr (h.lt p hp)).perm_of_length_le ?_
  simp [hl]

/-- Without cycles an incomplete order leaves something ready. -/
theorem Inv.exists_ready (h : Inv producers s)
    (hclosed : ∀ y < producers.length, ∀ x, Dep producers x y → x < producers.length)
    (hacyc : Acyclic (Dep producers) (· < producers.length))
    (hl : s.order.length < producers.length) :
    ∃ pos < producers.length, ready s pos = true := by
  have hmiss : ∃ y ∈ List.range producers.length, y ∉ s.order := by
    by_contra hall
    push Not at hall
    have := (List.nodup_range.subperm hall).length_le
    simp at this
    omega
  obtain ⟨y, hy, hno, hdeps⟩ :
      ∃ y ∈ List.range producers.length, y ∉ s.order ∧ ∀ x, Dep producers x y → x ∈ s.order :=
    DepOrder.exists_ready (by simpa using hclosed) (by simpa [Acyclic] using hacyc) hmiss
  have hy := List.mem_range.mp hy
  exact ⟨y, hy, (h.ready_iff hy).mpr ⟨hno, hdeps⟩⟩

/-- A complete order rules cycles out. -/
theorem Inv.acyclic (h : Inv producers s) (hl : s.order.length = producers.length) :
    Acyclic (Dep producers) (· < producers.length) := fun x hx =>
  h.ordered.acyclic h.nodup x ((h.perm_range hl).mem_iff.mpr (List.mem_range.mpr hx))

end Kahn
