import Mathlib.Data.List.Forall2

/-!
# Results of checked computations

How success of an `Except` computation splits into success of its parts.
-/

namespace Checked

theorem bind_ok {x : Except ε α} {f : α → Except ε β} :
    x >>= f = .ok b ↔ ∃ a, x = .ok a ∧ f a = .ok b := by
  cases x <;> simp [bind, Except.bind]

theorem pure_ok : (pure a : Except ε α) = .ok b ↔ a = b := by
  simp [pure, Except.pure]

theorem map_ok {x : Except ε α} {f : α → β} : x.map f = .ok b ↔ ∃ a, x = .ok a ∧ f a = b := by
  cases x <;> simp [Except.map]

theorem mapError_ok {x : Except ε α} {f : ε → ε'} : x.mapError f = .ok a ↔ x = .ok a := by
  cases x <;> simp [Except.mapError]

theorem toOption_eq_some {x : Except ε α} : x.toOption = some a ↔ x = .ok a := by
  cases x <;> simp [Except.toOption]

theorem unless_ok {c : Bool} {e : ε} {u : PUnit} :
    (unless c do throw e : Except ε PUnit) = .ok u ↔ c = true := by
  cases c <;> simp [throw, throwThe, MonadExceptOf.throw, pure, Except.pure]

theorem forM_ok {f : α → Except ε PUnit} {l : List α} {u : PUnit} :
    l.forM f = .ok u ↔ ∀ x ∈ l, f x = .ok u := by
  induction l with
  | nil => simp [pure_ok]
  | cons x l ih =>
    rw [List.forM_eq_forM, List.forM_cons, bind_ok, List.forall_mem_cons]
    constructor
    · rintro ⟨_, hx, hl⟩
      exact ⟨hx, ih.mp hl⟩
    · rintro ⟨hx, hl⟩
      exact ⟨_, hx, ih.mpr hl⟩

/-- An error of a checked fold is an error of one of its steps. -/
theorem foldlM_error {f : β → α → Except ε β} {P : ε → Prop}
    (hf : ∀ b x e, f b x = .error e → P e) {l : List α} {b : β} {e : ε}
    (h : l.foldlM f b = .error e) : P e := by
  induction l generalizing b with
  | nil => cases h
  | cons x l ih =>
    rw [List.foldlM_cons] at h
    cases hb : f b x with
    | error e' =>
      rw [hb] at h
      cases h
      exact hf b x _ hb
    | ok b' =>
      rw [hb] at h
      exact ih h

/-- A checked fold that succeeds keeps what its steps keep. -/
theorem foldlM_preserves_mem {f : β → α → Except ε β} {P : β → Prop} {l : List α}
    (hf : ∀ b x b', x ∈ l → f b x = .ok b' → P b → P b') {b b' : β} (hb : P b)
    (h : l.foldlM f b = .ok b') : P b' := by
  induction l generalizing b with
  | nil =>
    cases h
    exact hb
  | cons x l ih =>
    rw [List.foldlM_cons] at h
    obtain ⟨c, hx, h⟩ := bind_ok.mp h
    exact ih (fun b y b' hy => hf b y b' (List.mem_cons_of_mem x hy))
      (hf b x c List.mem_cons_self hx hb) h

theorem foldlM_preserves {f : β → α → Except ε β} {P : β → Prop}
    (hf : ∀ b x b', f b x = .ok b' → P b → P b') {l : List α} {b b' : β} (hb : P b)
    (h : l.foldlM f b = .ok b') : P b' :=
  foldlM_preserves_mem (fun b x b' _ => hf b x b') hb h

/-- Two checked folds whose steps agree on a view of their states agree on
that view of their results. -/
theorem foldlM_map_congr {f : β → α → Except ε β} {g : γ → α → Except ε γ} {p : β → δ}
    {q : γ → δ} (h : ∀ b c x, p b = q c → (f b x).map p = (g c x).map q) {l : List α} {b : β}
    {c : γ} (hbc : p b = q c) : (l.foldlM f b).map p = (l.foldlM g c).map q := by
  induction l generalizing b c with
  | nil => exact congrArg Except.ok hbc
  | cons x l ih =>
    have hx := h b c x hbc
    rw [List.foldlM_cons, List.foldlM_cons]
    cases hf : f b x with
    | error e =>
      cases hg : g c x with
      | error e' =>
        rw [hf, hg] at hx
        cases hx
        rfl
      | ok c' =>
        rw [hf, hg] at hx
        cases hx
    | ok b' =>
      cases hg : g c x with
      | error e' =>
        rw [hf, hg] at hx
        cases hx
      | ok c' =>
        rw [hf, hg] at hx
        exact ih (Except.ok.inj hx)

/-- A checked fold succeeds where its steps keep an invariant. -/
theorem foldlM_isOk {f : β → α → Except ε β} {P : β → Prop} {l : List α} {b : β} (hb : P b)
    (hf : ∀ b x, x ∈ l → P b → ∃ b', f b x = .ok b' ∧ P b') :
    ∃ b', l.foldlM f b = .ok b' ∧ P b' := by
  induction l generalizing b with
  | nil => exact ⟨b, rfl, hb⟩
  | cons x l ih =>
    obtain ⟨b', hx, hb'⟩ := hf b x List.mem_cons_self hb
    rw [List.foldlM_cons, hx]
    exact ih hb' fun b y hy => hf b y (List.mem_cons_of_mem _ hy)

/-- A checked map succeeds entry by entry. -/
theorem mapM_ok {f : α → Except ε β} {l : List α} :
    l.mapM f = .ok r ↔ List.Forall₂ (fun x y => f x = .ok y) l r := by
  induction l generalizing r with
  | nil =>
    simp only [List.mapM_nil, pure_ok, List.forall₂_nil_left_iff]
    exact eq_comm
  | cons x l ih =>
    simp only [List.mapM_cons, bind_ok, pure_ok, ih, List.forall₂_cons_left_iff]
    constructor
    · rintro ⟨y, hy, ys, hys, rfl⟩
      exact ⟨y, ys, hy, hys, rfl⟩
    · rintro ⟨y, ys, hy, hys, rfl⟩
      exact ⟨y, hy, ys, hys, rfl⟩

theorem mapM_isOk {f : α → Except ε β} {l : List α} :
    (∃ r, l.mapM f = .ok r) ↔ ∀ x ∈ l, ∃ y, f x = .ok y := by
  simp only [mapM_ok]
  constructor
  · rintro ⟨r, h⟩ x hx
    induction h with
    | nil => simp at hx
    | cons hxy _ ih =>
      rcases List.mem_cons.mp hx with rfl | hx
      · exact ⟨_, hxy⟩
      · exact ih hx
  · intro h
    induction l with
    | nil => exact ⟨[], .nil⟩
    | cons x l ih =>
      obtain ⟨y, hy⟩ := h x (by simp)
      obtain ⟨ys, hys⟩ := ih fun z hz => h z (List.mem_cons_of_mem _ hz)
      exact ⟨y :: ys, .cons hy hys⟩

theorem mapM_eq {f : α → Except ε β} {g : α → β} {l : List α} (h : ∀ x ∈ l, f x = .ok (g x)) :
    l.mapM f = .ok (l.map g) := by
  induction l with
  | nil => rfl
  | cons x l ih =>
    obtain ⟨hx, hl⟩ := List.forall_mem_cons.mp h
    rw [List.mapM_cons, hx, ih hl]
    rfl

end Checked
