import Sxla.Library.Checked

/-!
# Metered computations

Checked computations on a state that uses up something bounded. A computation
has a price, and one error, the one for want of room, only where the price is
not covered. Prices add up along a computation.
-/

namespace Metered

open Checked

/-- How much a state has used, what the computations leave as it is, and the
limit, which is read off that. -/
structure Meter (σ τ : Type) where
  used : σ → Nat
  fixed : σ → τ
  limit : τ → Nat

namespace Meter

variable {σ τ σ' τ' ε α β γ : Type} {m : Meter σ τ} {full e : ε} {j k : Nat}
  {s s' s'' : σ} {t : σ'} {view : β → σ} {view' : γ → σ} {x : Except ε β}

structure Spends (m : Meter σ τ) (k : Nat) (s s' : σ) : Prop where
  fixed : m.fixed s' = m.fixed s
  used : m.used s' ≤ m.used s + k

def Covers (m : Meter σ τ) (s : σ) (k : Nat) : Prop := m.used s + k ≤ m.limit (m.fixed s)

/-- The computation ends in a state, and spends its price at most, or fails
where the price is not covered. -/
inductive Costs (m : Meter σ τ) (full : ε) (view : β → σ) (k : Nat) (s : σ) : Except ε β → Prop
  | ok {b : β} (h : m.Spends k s (view b)) : Costs m full view k s (.ok b)
  | full (h : ¬ m.Covers s k) : Costs m full view k s (.error full)

theorem Spends.refl : m.Spends 0 s s := ⟨rfl, Nat.le_refl _⟩

theorem Spends.mono (h : m.Spends j s s') (hjk : j ≤ k) : m.Spends k s s' :=
  ⟨h.fixed, Nat.le_trans h.used (Nat.add_le_add_left hjk _)⟩

theorem Spends.trans (h : m.Spends j s s') (h' : m.Spends k s' s'') : m.Spends (j + k) s s'' := by
  have hused := h.used
  have hused' := h'.used
  exact ⟨h'.fixed.trans h.fixed, by omega⟩

/-- What is covered from the start is covered after the first part. -/
theorem Covers.rest (hc : m.Covers s (j + k)) (h : m.Spends j s s') : m.Covers s' k := by
  have hused := h.used
  unfold Covers at hc ⊢
  rw [h.fixed]
  omega

theorem Covers.anti (hc : m.Covers s k) (hjk : j ≤ k) : m.Covers s j := by
  unfold Covers at hc ⊢
  omega

theorem Costs.mono (h : m.Costs full view j s x) (hjk : j ≤ k) : m.Costs full view k s x := by
  cases h with
  | ok h => exact .ok (h.mono hjk)
  | full h => exact .full fun hc => h (hc.anti hjk)

theorem Costs.isOk (h : m.Costs full view k s x) (hc : m.Covers s k) :
    ∃ b, x = .ok b ∧ m.Spends k s (view b) := by
  cases h with
  | ok h => exact ⟨_, rfl, h⟩
  | full h => exact absurd hc h

theorem Costs.error (h : m.Costs full view k s x) (he : x = .error e) : e = full := by
  cases h with
  | ok h => cases he
  | full h => exact (Except.error.inj he).symm

theorem Costs.spends {b : β} (h : m.Costs full view k s x) (hb : x = .ok b) :
    m.Spends k s (view b) := by
  cases h with
  | ok h =>
    obtain rfl := Except.ok.inj hb
    exact h
  | full h => cases hb

theorem Costs.bind {f : β → Except ε γ} (h : m.Costs full view j s x)
    (hf : ∀ b, x = .ok b → m.Costs full view' k (view b) (f b)) :
    m.Costs full view' (j + k) s (x >>= f) := by
  cases h with
  | full h => exact .full fun hc => h (hc.anti (Nat.le_add_right j k))
  | @ok b h =>
    change m.Costs full view' (j + k) s (f b)
    cases hfb : f b with
    | ok c =>
      exact .ok (h.trans ((hf b rfl).spends hfb))
    | error e =>
      obtain rfl := (hf b rfl).error hfb
      refine .full fun hc => ?_
      obtain ⟨c, hc, -⟩ := (hf b rfl).isOk (hc.rest h)
      cases hfb.symm.trans hc

/-- A computation on one state as one on another that it is a part of. -/
theorem Costs.part (h : m.Costs full view k s x) (m' : Meter σ' τ') (view' : β → σ')
    (hc : m'.Covers t j → m.Covers s k)
    (hs : ∀ b, m.Spends k s (view b) → m'.Spends j t (view' b)) :
    m'.Costs full view' j t x := by
  cases h with
  | ok h => exact .ok (hs _ h)
  | full h => exact .full fun hc' => h (hc hc')

theorem Costs.map (f : β → γ) (view' : γ → σ)
    (h : m.Costs full (fun b => view' (f b)) k s x) :
    m.Costs full view' k s (x >>= fun b => pure (f b)) := by
  cases h with
  | ok h => exact .ok h
  | full h => exact .full h

/-- Every step of a fold costs the same, and keeps the invariant that it costs
so under. -/
theorem Costs.foldlM {f : β → α → Except ε β} {P : β → Prop} {l : List α} {b : β} (hb : P b)
    (hf : ∀ b x, x ∈ l → P b → m.Costs full view k (view b) (f b x) ∧
      ∀ b', f b x = .ok b' → P b') :
    m.Costs full view (l.length * k) (view b) (l.foldlM f b) ∧
      ∀ b', l.foldlM f b = .ok b' → P b' := by
  refine ⟨?_, fun b' => foldlM_preserves_mem (fun b x b' hx hb' hP => (hf b x hx hP).2 b' hb') hb⟩
  induction l generalizing b with
  | nil =>
    rw [List.length_nil, Nat.zero_mul]
    exact .ok .refl
  | cons x l ih =>
    obtain ⟨hx, hP⟩ := hf b x List.mem_cons_self hb
    rw [List.foldlM_cons, List.length_cons, Nat.succ_mul, Nat.add_comm]
    exact hx.bind fun b' hb' => ih (hP b' hb') fun b y hy => hf b y (List.mem_cons_of_mem x hy)

end Meter

end Metered
