import Sxla.Library.Checked

/-!
# How a checked computation can end

`Ends E Q x` says that a result of `x` satisfies `Q` and an error satisfies
`E`. The rules follow the program: sequencing, loops with an invariant, maps.
-/

namespace Checked

variable {E E' : ε → Prop} {P Q I : α → Prop}

def Ends (E : ε → Prop) (Q : α → Prop) : Except ε α → Prop
  | .ok x => Q x
  | .error e => E e

@[simp] theorem ends_ok : Ends E Q (.ok x) ↔ Q x := Iff.rfl

@[simp] theorem ends_error : Ends E Q (.error e : Except ε α) ↔ E e := Iff.rfl

@[simp] theorem ends_pure : Ends E Q (pure x : Except ε α) ↔ Q x := Iff.rfl

theorem Ends.mono {x : Except ε α} (h : Ends E P x) (hE : ∀ e, E e → E' e)
    (hQ : ∀ a, P a → Q a) : Ends E' Q x := by
  cases x with
  | ok a => exact hQ a h
  | error e => exact hE e h

theorem Ends.weaken {x : Except ε α} (h : Ends E P x) (hQ : ∀ a, P a → Q a) : Ends E Q x :=
  h.mono (fun _ he => he) hQ

theorem Ends.and_eq {x : Except ε α} (h : Ends E P x) : Ends E (fun a => P a ∧ x = .ok a) x := by
  cases x with
  | ok a => exact ⟨h, rfl⟩
  | error e => exact h

theorem Ends.bind {Q : β → Prop} {x : Except ε α} {f : α → Except ε β} (h : Ends E P x)
    (hf : ∀ a, P a → Ends E Q (f a)) : Ends E Q (x >>= f) := by
  cases x with
  | ok a => exact hf a h
  | error e => exact h

theorem ends_any {x : Except ε α} : Ends (fun _ => True) (fun _ => True) x := by
  cases x <;> trivial

theorem Ends.ite {c : Prop} [Decidable c] {x y : Except ε α} (hx : c → Ends E Q x)
    (hy : ¬ c → Ends E Q y) : Ends E Q (if c then x else y) := by
  split
  · exact hx ‹_›
  · exact hy ‹_›

theorem Ends.foldlM {f : α → β → Except ε α} {l : List β}
    (hf : ∀ x ∈ l, ∀ s, I s → Ends E I (f s x)) (hs : I s) : Ends E I (l.foldlM f s) := by
  induction l generalizing s with
  | nil => exact hs
  | cons x l ih =>
    rw [List.foldlM_cons]
    exact (hf x (by simp) s hs).bind fun t ht =>
      ih (fun y hy => hf y (List.mem_cons_of_mem _ hy)) ht

/-- A counting loop, with an invariant that knows the count. -/
theorem Ends.range {I : Nat → α → Prop} {f : α → Nat → Except ε α}
    (hf : ∀ i < n, ∀ s, I i s → Ends E (I (i + 1)) (f s i)) (hs : I 0 s) :
    Ends E (I n) ((List.range n).foldlM f s) := by
  induction n with
  | zero => exact hs
  | succ n ih =>
    rw [List.range_succ, List.foldlM_append]
    refine (ih fun i hi => hf i (Nat.lt_succ_of_lt hi)).bind fun t ht => ?_
    rw [List.foldlM_cons]
    exact (hf n (Nat.lt_succ_self n) t ht).bind fun u hu => hu

/-- A loop that ends in a result has run every one of its steps. -/
theorem foldlM_visits {f : α → β → Except ε α} {l : List β} (h : l.foldlM f s = .ok t)
    (hx : x ∈ l) : ∃ s' t', f s' x = .ok t' := by
  induction l generalizing s with
  | nil => simp at hx
  | cons y l ih =>
    rw [List.foldlM_cons, bind_ok] at h
    obtain ⟨u, hu, h⟩ := h
    rcases List.mem_cons.mp hx with rfl | hx
    · exact ⟨s, u, hu⟩
    · exact ih h hx

theorem Ends.mapM {Q : β → Prop} {f : α → Except ε β} {l : List α}
    (hf : ∀ x ∈ l, Ends E Q (f x)) :
    Ends E (fun r => r.length = l.length ∧ ∀ y ∈ r, Q y) (l.mapM f) := by
  induction l with
  | nil => exact ⟨rfl, by simp⟩
  | cons x l ih =>
    rw [List.mapM_cons]
    refine (hf x (by simp)).bind fun y hy => ?_
    refine (ih fun z hz => hf z (List.mem_cons_of_mem _ hz)).bind fun ys hys => ?_
    simpa [hy] using hys

/-- Splitting a run of steps at one of them. -/
theorem foldlM_append_cons {f : α → β → Except ε α} {l r : List β} :
    (l ++ x :: r).foldlM f s = (do
      let t ← l.foldlM f s
      let u ← f t x
      r.foldlM f u) := by
  rw [List.foldlM_append]
  rfl

end Checked
