import Mathlib.Algebra.BigOperators.Group.List.Basic
import Mathlib.Algebra.Ring.Nat
import Mathlib.Data.List.Induction
import Mathlib.Data.List.Perm.Basic

/-!
# Parties that take one step after the other

A system is a function that gives the state after an action, or nothing
where the action is not enabled. Runs may be held to a condition on their
steps. The parties' own states are a list, and a step replaces one of them.
-/

namespace Transition

/-- What runs whose steps meet `ok` reach. -/
inductive Reachable {σ α : Type} (step : σ → α → Option σ) (ok : σ → α → Prop) (start : σ) : σ → Prop
  | start : Reachable step ok start start
  | step {s s' : σ} {a : α} (h : Reachable step ok start s) (hok : ok s a)
      (hs : step s a = some s') : Reachable step ok start s'

section

variable {σ α : Type} {step : σ → α → Option σ} {ok : σ → α → Prop} {start s : σ}

theorem Reachable.invariant {Inv : σ → Prop} (h : Reachable step ok start s) (hstart : Inv start)
    (hstep : ∀ s a s', Inv s → ok s a → step s a = some s' → Inv s') : Inv s := by
  induction h with
  | start => exact hstart
  | step _ hok hs ih => exact hstep _ _ _ ih hok hs

theorem Reachable.trans {mid : σ} (h : Reachable step ok start mid) (h' : Reachable step ok mid s) :
    Reachable step ok start s := by
  induction h' with
  | start => exact h
  | step _ hok hs ih => exact ih.step hok hs

/-- The state behind a list of actions. -/
def run (step : σ → α → Option σ) (s : σ) (as : List α) : Option σ := as.foldlM step s

theorem reachable_of_run {as : List α} {s' : σ} (hok : ∀ s a, ok s a)
    (h : Reachable step ok start s) (hrun : run step s as = some s') :
    Reachable step ok start s' := by
  induction as generalizing s with
  | nil =>
    cases hrun
    exact h
  | cons a as ih =>
    rw [run, List.foldlM_cons] at hrun
    obtain ⟨t, ht, hrun⟩ := Option.bind_eq_some_iff.mp hrun
    exact ih (.step h (hok s a) ht) hrun

/-- A run that stops short of a step without the condition. -/
def runMeeting (step : σ → α → Option σ) (ok : σ → α → Prop) [∀ s a, Decidable (ok s a)] (s : σ)
    (as : List α) : Option σ :=
  as.foldlM (fun s a => if ok s a then step s a else none) s

theorem reachable_of_runMeeting [∀ s a, Decidable (ok s a)] {as : List α} {s' : σ}
    (h : Reachable step ok start s) (hrun : runMeeting step ok s as = some s') :
    Reachable step ok start s' := by
  induction as generalizing s with
  | nil =>
    cases hrun
    exact h
  | cons a as ih =>
    rw [runMeeting, List.foldlM_cons] at hrun
    obtain ⟨t, ht, hrun⟩ := Option.bind_eq_some_iff.mp hrun
    split at ht
    · next hok => exact ih (.step h hok ht) hrun
    · cases ht

theorem run_append {as bs : List α} : run step s (as ++ bs) = (run step s as).bind (run step · bs) :=
  List.foldlM_append ..

/-- Where `P` goes from one state to the next exactly over steps that meet
`ok`, it holds in all states of a run exactly when all its steps do. -/
theorem run_forall_iff {Inv P : σ → Prop} (hinv : Inv start) (hstart : P start)
    (hstep : ∀ s a s', Inv s → step s a = some s' → Inv s' ∧ (P s → (P s' ↔ ok s a)))
    {as : List α} (hrun : run step start as = some s) :
    Inv s ∧ ((∀ pre s', pre <+: as → run step start pre = some s' → P s') ↔
      ∀ pre a rest s', as = pre ++ a :: rest → run step start pre = some s' → ok s' a) := by
  induction as using List.reverseRecOn generalizing s with
  | nil =>
    cases hrun
    refine ⟨hinv, iff_of_true (fun pre s' hpre hs' => ?_) fun pre a rest s' heq => by simp at heq⟩
    obtain rfl := List.prefix_nil.mp hpre
    cases hs'
    exact hstart
  | append_singleton as a ih =>
    rw [run_append] at hrun
    obtain ⟨t, ht, hlast⟩ := Option.bind_eq_some_iff.mp hrun
    obtain ⟨hinvt, hiff⟩ := ih ht
    have hone : step t a = some s := by simpa [run] using hlast
    obtain ⟨hinvs, hnext⟩ := hstep t a s hinvt hone
    refine ⟨hinvs, fun hall pre b rest s' heq hs' => ?_, fun hall pre s' hpre hs' => ?_⟩
    · have hbefore : ∀ pre s', pre <+: as → run step start pre = some s' → P s' :=
        fun pre s' hpre => hall pre s' (hpre.trans (List.prefix_append ..))
      rcases List.eq_nil_or_concat rest with rfl | ⟨rest, c, rfl⟩
      · obtain ⟨rfl, hab⟩ := List.append_inj' heq rfl
        obtain rfl : a = b := List.singleton_inj.mp hab
        cases Option.some.inj (ht.symm.trans hs')
        exact (hnext (hbefore _ _ List.prefix_rfl ht)).mp (hall _ _ List.prefix_rfl
          (by rw [run_append, ht]; exact hlast))
      · rw [List.concat_eq_append, ← List.cons_append, ← List.append_assoc] at heq
        exact hiff.mp hbefore pre b rest s' (List.append_inj' heq rfl).1 hs'
    · have hmeets : ∀ pre a rest s', as = pre ++ a :: rest → run step start pre = some s' →
          ok s' a := fun pre b rest s' heq =>
        hall pre b (rest ++ [a]) s' (by rw [heq, List.append_assoc, List.cons_append])
      rcases List.prefix_concat_iff.mp hpre with rfl | hpre
      · rw [run_append, ht] at hs'
        cases Option.some.inj (hlast.symm.trans hs')
        exact (hnext (hiff.mpr hmeets _ _ List.prefix_rfl ht)).mpr (hall as a [] t rfl ht)
      · exact hiff.mpr hmeets pre s' hpre hs'

end

-- ---------------------------------------------------------------------------
-- One party of many
-- ---------------------------------------------------------------------------

section

variable {α : Type} {l : List α} {i : Nat} {x y : α}

theorem perm_set (h : l[i]? = some x) (y : α) : (x :: l.set i y).Perm (y :: l) := by
  induction l generalizing i with
  | nil => cases h
  | cons z l ih =>
    cases i with
    | zero =>
      cases h
      exact .swap y x l
    | succ i => exact (List.Perm.swap z x _).trans (((ih h).cons z).trans (.swap y z l))

theorem sum_map_set (f : α → Nat) (h : l[i]? = some x) (y : α) :
    ((l.set i y).map f).sum + f x = (l.map f).sum + f y := by
  have hsum := ((perm_set h y).map f).sum_eq
  rw [List.map_cons, List.map_cons, List.sum_cons, List.sum_cons] at hsum
  omega

theorem countP_set (p : α → Bool) (h : l[i]? = some x) (y : α) :
    (l.set i y).countP p + (if p x then 1 else 0) = l.countP p + (if p y then 1 else 0) := by
  have hcount := (perm_set h y).countP_eq p
  rwa [List.countP_cons, List.countP_cons] at hcount

theorem perm_flatMap_set {β : Type} (f : α → List β) (h : l[i]? = some x) (y : α) :
    (f x ++ (l.set i y).flatMap f).Perm (f y ++ l.flatMap f) := by
  have hperm := (perm_set h y).flatMap_right f
  rwa [List.flatMap_cons, List.flatMap_cons] at hperm

theorem perm_flatten_set {ls : List (List α)} {l : List α} (h : ls[i]? = some l) (m : List α) :
    (l ++ (ls.set i m).flatten).Perm (m ++ ls.flatten) := by
  have hperm := (perm_set h m).flatten
  rwa [List.flatten_cons, List.flatten_cons] at hperm

theorem countP_lt_succ (kind : α → Nat) (l : List α) (n : Nat) :
    l.countP (kind · < n + 1) = l.countP (kind · < n) + l.countP (kind · = n) := by
  induction l with
  | nil => rfl
  | cons x l ih =>
    rw [List.countP_cons, List.countP_cons, List.countP_cons, ih]
    have hone : (if decide (kind x < n + 1) then 1 else 0) =
        (if decide (kind x < n) then 1 else 0) + if decide (kind x = n) then 1 else 0 := by
      simp only [decide_eq_true_eq]
      split_ifs <;> omega
    omega

/-- The elements below a bound, kind by kind. -/
theorem sum_countP_range (kind : α → Nat) (l : List α) (n : Nat) :
    ((List.range n).map fun j => l.countP (kind · = j)).sum = l.countP (kind · < n) := by
  induction n with
  | zero => simp
  | succ n ih =>
    rw [List.range_succ, List.map_append, List.sum_append, ih, List.map_singleton,
      List.sum_singleton, countP_lt_succ]

theorem getElem?_set_cases {j : Nat} {z : α} (h : (l.set i y)[j]? = some z) :
    (j = i ∧ z = y) ∨ (j ≠ i ∧ l[j]? = some z) := by
  by_cases hj : j = i
  · subst hj
    rw [List.getElem?_set_self'] at h
    obtain ⟨-, -, rfl⟩ := Option.map_eq_some_iff.mp h
    exact .inl ⟨rfl, rfl⟩
  · rw [List.getElem?_set_ne (Ne.symm hj)] at h
    exact .inr ⟨hj, h⟩

theorem getElem?_set_of (h : l[i]? = some x) (y : α) : (l.set i y)[i]? = some y := by
  rw [List.getElem?_set_self', h]
  rfl

/-- What one party holds, and what all others do. -/
theorem flatMap_split {β : Type} (f : α → List β) {z : α} (h : l[i]? = some x) (hz : f z = []) :
    (l.flatMap f).Perm (f x ++ (l.set i z).flatMap f) ∧
    ∀ y, ((l.set i y).flatMap f).Perm (f y ++ (l.set i z).flatMap f) := by
  have hall := perm_flatMap_set f h z
  rw [hz] at hall
  refine ⟨hall.symm, ?_⟩
  intro y
  have hset := perm_flatMap_set f (getElem?_set_of h z) y
  rw [hz, List.set_set] at hset
  exact hset

theorem mem_set_cases (hx : x ∈ l.set i y) : x = y ∨ x ∈ l := by
  rcases List.mem_or_eq_of_mem_set hx with h | h
  · exact .inr h
  · exact .inl h

end

end Transition
