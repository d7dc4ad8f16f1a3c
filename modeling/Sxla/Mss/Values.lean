import Sxla.Mss.Program
import Mathlib.Logic.Function.Basic

/-!
# The values of a program's rows

The interpreter reads the rows in their order, and fails on a row without a
value even where the root does not need it. So a built program evaluates where
each of its rows has a value, from those of rows before it. A builder's rows
name rows before them and opcodes that exist: what may be missing is a
parameter, or the root itself where it lies past the 32-bit loop.
-/

namespace Sxla.Mss

variable {p : Program} {params : List Int64} {f g : Nat → Int64} {i k n len : Nat} {d : NodeDef}
  {v : Int64} {values : List (Option Int64)}

/-- The row in slot `i` has its value from those of the rows before it. -/
inductive NodeDef.HasValue (params : List Int64) (f : Nat → Int64) (i : Nat) (d : NodeDef) : Prop
  | const (hk : d.kind = .const) (hv : f i = d.imm) : HasValue params f i d
  | param (hk : d.kind = .param) (hv : paramValue params d.imm = .ok (f i)) : HasValue params f i d
  | bin (hk : d.kind = .bin) (hl : d.lhs < i) (hr : d.rhs < i)
    (hv : binValue d.opcode (f d.lhs) (f d.rhs) = .ok (f i)) : HasValue params f i d
  | un (hk : d.kind = .un) (hl : d.lhs < i) (hv : unValue d.opcode (f d.lhs) = .ok (f i)) :
    HasValue params f i d

namespace NodeDef

theorem HasValue.not_alias (h : d.HasValue params f i) : d.kind ≠ .alias := by
  cases h with
  | const hk _ | param hk _ | bin hk _ _ _ | un hk _ _ =>
    rw [hk]
    nofun

theorem HasValue.not_dead (h : d.HasValue params f i) : d.kind ≠ .dead := by
  cases h with
  | const hk _ | param hk _ | bin hk _ _ _ | un hk _ _ =>
    rw [hk]
    nofun

theorem HasValue.congr (h : d.HasValue params f i) (heq : ∀ j ≤ i, g j = f j) :
    d.HasValue params g i := by
  cases h with
  | const hk hv => exact .const hk ((heq i (Nat.le_refl i)).trans hv)
  | param hk hv =>
    refine .param hk ?_
    rw [heq i (Nat.le_refl i)]
    exact hv
  | bin hk hl hr hv =>
    refine .bin hk hl hr ?_
    rw [heq i (Nat.le_refl i), heq d.lhs (Nat.le_of_lt hl), heq d.rhs (Nat.le_of_lt hr)]
    exact hv
  | un hk hl hv =>
    refine .un hk hl ?_
    rw [heq i (Nat.le_refl i), heq d.lhs (Nat.le_of_lt hl)]
    exact hv

end NodeDef

/-- The rows that the interpreter reads have the values `f`. -/
structure Program.Valued (p : Program) (params : List Int64) (f : Nat → Int64) : Prop where
  rows : ∀ (i : Nat) (d : NodeDef), i < u32 p.arena.length → p.arena[i]? = some d →
    d.HasValue params f i
  root : p.root < u32 p.arena.length

-- ---------------------------------------------------------------------------
-- The loop
-- ---------------------------------------------------------------------------

/-- The values after so many slots of `n`. -/
def filled (f : Nat → Int64) (n k : Nat) : List (Option Int64) :=
  (List.range n).map fun i => if i < k then some (f i) else none

theorem filled_zero : filled f n 0 = List.replicate n none := by
  apply List.ext_getElem?
  intro i
  rw [filled, List.getElem?_map, List.getElem?_replicate]
  by_cases hi : i < n
  · rw [List.getElem?_range hi, if_pos hi]
    rfl
  · rw [if_neg hi, List.getElem?_eq_none (by rw [List.length_range]; exact Nat.le_of_not_lt hi)]
    rfl

theorem getElem?_filled (hi : i < n) :
    (filled f n k)[i]? = some (if i < k then some (f i) else none) := by
  rw [filled, List.getElem?_map, List.getElem?_range hi]
  rfl

theorem filled_set (hk : k < n) : (filled f n k).set k (some (f k)) = filled f n (k + 1) := by
  apply List.ext_getElem?
  intro i
  have hlen : (filled f n k).length = n := by rw [filled, List.length_map, List.length_range]
  by_cases hi : i < n
  · rw [getElem?_filled hi]
    by_cases hik : k = i
    · subst hik
      rw [List.getElem?_set_self (by rw [hlen]; exact hk), if_pos (Nat.lt_succ_self k)]
    · rw [List.getElem?_set_ne hik, getElem?_filled hi]
      have hiff : i < k ↔ i < k + 1 := by omega
      simp only [hiff]
  · have hge := Nat.le_of_not_lt hi
    rw [List.getElem?_eq_none (by rw [List.length_set, hlen]; exact hge),
      List.getElem?_eq_none (by rw [filled, List.length_map, List.length_range]; exact hge)]

theorem filled_congr (heq : ∀ j < k, g j = f j) : filled g n k = filled f n k := by
  refine List.map_congr_left fun i _ => ?_
  by_cases hi : i < k
  · rw [if_pos hi, if_pos hi, heq i hi]
  · rw [if_neg hi, if_neg hi]

theorem computed_filled (hi : i < n) (hik : i < k) : computed (filled f n k) i = .ok (f i) := by
  rw [computed, getElem?_filled hi, if_pos hik]

namespace Program

theorem resolve_self (hi : p.arena[i]? = some d) (h : d.kind ≠ .alias) : p.resolve i = some i := by
  have hfrom : ∀ hops, p.resolveFrom hops i = some i := by
    intro hops
    unfold resolveFrom
    rw [hi, Option.bind_eq_bind, Option.bind_some, if_neg h]
  exact hfrom _

theorem target_self (hi : p.arena[i]? = some d) (h : d.kind ≠ .alias) (slot : Nat) :
    p.target slot i = .ok i := by
  rw [target, resolve_self hi h]

/-- A slot that is neither dead nor an alias. -/
theorem evalSlot_eq (hi : p.arena[k]? = some d) (halias : d.kind ≠ .alias) (hdead : d.kind ≠ .dead) :
    p.evalSlot params values k = (p.nodeValue params values k d).map fun r =>
      r.elim values fun v => values.set k (some v) := by
  rw [evalSlot, hi]
  dsimp only
  rw [if_neg hdead, resolve_self hi halias]
  dsimp only
  rw [if_neg (not_not_intro rfl)]
  cases p.nodeValue params values k d with
  | error e => rfl
  | ok r => cases r <;> rfl

namespace Valued

theorem exists_row (h : p.Valued params f) (hi : i < u32 p.arena.length) :
    ∃ d, p.arena[i]? = some d ∧ d.HasValue params f i := by
  have hlen : i < p.arena.length := Nat.lt_of_lt_of_le hi (Nat.mod_le ..)
  exact ⟨_, List.getElem?_eq_getElem hlen, h.rows i _ hi (List.getElem?_eq_getElem hlen)⟩

theorem target (h : p.Valued params f) (hi : i < u32 p.arena.length) (slot : Nat) :
    p.target slot i = .ok i := by
  obtain ⟨d, hd, hv⟩ := h.exists_row hi
  exact target_self hd hv.not_alias slot

theorem nodeValue (h : p.Valued params f) (hk : k < u32 p.arena.length)
    (hd : d.HasValue params f k) :
    p.nodeValue params (filled f p.arena.length k) k d = .ok (some (f k)) := by
  have hle : u32 p.arena.length ≤ p.arena.length := Nat.mod_le ..
  have hoperand : ∀ operand, operand < k → p.target k operand = .ok operand ∧
      computed (filled f p.arena.length k) operand = .ok (f operand) := fun operand ho =>
    ⟨h.target (ho.trans hk) k, computed_filled (Nat.lt_of_lt_of_le (ho.trans hk) hle) ho⟩
  cases hd with
  | const hkind hv => rw [Program.nodeValue, hkind, hv]
  | param hkind hv =>
    rw [Program.nodeValue, hkind]
    dsimp only
    rw [hv]
    rfl
  | bin hkind hl hr hv =>
    obtain ⟨htl, hvl⟩ := hoperand _ hl
    obtain ⟨htr, hvr⟩ := hoperand _ hr
    rw [Program.nodeValue, hkind]
    simp only [htl, htr, hvl, hvr, hv, bind, Except.bind, pure, Except.pure]
  | un hkind hl hv =>
    obtain ⟨htl, hvl⟩ := hoperand _ hl
    rw [Program.nodeValue, hkind]
    simp only [htl, hvl, hv, bind, Except.bind, pure, Except.pure]

theorem evalSlot (h : p.Valued params f) (hk : k < u32 p.arena.length) :
    p.evalSlot params (filled f p.arena.length k) k = .ok (filled f p.arena.length (k + 1)) := by
  obtain ⟨d, hd, hv⟩ := h.exists_row hk
  rw [evalSlot_eq hd hv.not_alias hv.not_dead, h.nodeValue hk hv]
  exact congrArg Except.ok (filled_set (Nat.lt_of_lt_of_le hk (Nat.mod_le ..)))

theorem foldlM (h : p.Valued params f) (hk : k ≤ u32 p.arena.length) :
    (List.range k).foldlM (p.evalSlot params) (filled f p.arena.length 0) =
      .ok (filled f p.arena.length k) := by
  induction k with
  | zero => rfl
  | succ k ih =>
    rw [List.range_succ, List.foldlM_append, ih (Nat.le_of_succ_le hk)]
    change [k].foldlM (p.evalSlot params) (filled f p.arena.length k) = _
    rw [List.foldlM_cons, h.evalSlot hk]
    rfl

/-- The program evaluates to the value of its root. -/
theorem evaluate (h : p.Valued params f) : p.evaluate params = .ok (f p.root) := by
  obtain ⟨d, hd, hv⟩ := h.exists_row h.root
  have hlen : p.root < p.arena.length := (List.getElem?_eq_some_iff.mp hd).1
  have hloop := h.foldlM (Nat.le_refl _)
  rw [filled_zero] at hloop
  rw [Program.evaluate, hd]
  simp only [if_neg hv.not_dead, hloop, resolve_self hd hv.not_alias, getElem?_filled hlen,
    if_pos h.root, bind, Except.bind, pure, Except.pure]

end Valued

end Program

-- ---------------------------------------------------------------------------
-- The rows of a builder
-- ---------------------------------------------------------------------------

/-- The argument of the row was passed, if it takes one. -/
def NodeDef.Provided (params : List Int64) (d : NodeDef) : Prop :=
  d.kind = .param → d.imm.toInt.toNat < params.length

theorem toInt_ofNat {m : Nat} (hm : m < 0x100000000) : (Int64.ofNat m).toInt = m :=
  Int64.toInt_ofNat_of_lt (by omega)

theorem paramValue_ofNat {m : Nat} (hm : m < 0x100000000) :
    paramValue params (.ofNat m) = (params[m]?).elim (.error (.missingParam m)) .ok := by
  have hneg : ¬ Int64.ofNat m < 0 := by
    rw [Int64.lt_iff_toInt_lt, toInt_ofNat hm, Int64.toInt_zero]
    omega
  have hword : (Int64.ofNat m).toUInt64.toNat % 0x100000000 = m := by
    rw [Int64.toUInt64_ofNat', UInt64.toNat_ofNat', Nat.mod_eq_of_lt (by omega : m < 2 ^ 64),
      Nat.mod_eq_of_lt hm]
  rw [paramValue, if_neg hneg, toInt_ofNat hm, hword, Int.toNat_natCast]
  cases params[m]? <;> rfl

/-- The builder numbers a parameter by a word. -/
theorem NodeDef.Appended.imm_eq (h : d.Appended len) (hk : d.kind = .param) :
    ∃ m, m < 0x100000000 ∧ d.imm = .ofNat m := by
  rcases h with h | h | ⟨h, -⟩ | ⟨h, -⟩
  · rw [h] at hk
    cases hk
  · exact ⟨_, UInt32.toNat_lt _, congrArg NodeDef.imm h⟩
  · rw [h] at hk
    cases hk
  · rw [h] at hk
    cases hk

theorem binValue_isOk {opcode : Nat} (h : (BinOp.ofCode? opcode).isSome = true) (x y : Int64) :
    ∃ v, binValue opcode x y = .ok v := by
  obtain ⟨op, hop⟩ := Option.isSome_iff_exists.mp h
  have hfound := List.find?_some hop
  have hcode : op.code = opcode := of_decide_eq_true hfound
  subst hcode
  cases op <;> exact ⟨_, rfl⟩

theorem NodeDef.Appended.bin_rows (h : d.Appended len) (hk : d.kind = .bin) :
    d.lhs < len ∧ d.rhs < len ∧ (BinOp.ofCode? d.opcode).isSome = true := by
  rcases h with h | h | ⟨-, hop, hl, hr, -⟩ | ⟨h, -⟩
  · rw [h] at hk
    cases hk
  · rw [h] at hk
    cases hk
  · exact ⟨hl, hr, hop⟩
  · rw [h] at hk
    cases hk

theorem NodeDef.Appended.un_rows (h : d.Appended len) (hk : d.kind = .un) :
    d.lhs < len ∧ d.opcode = UnOp.neg.code := by
  rcases h with h | h | ⟨h, -⟩ | ⟨h, hl, -⟩
  · rw [h] at hk
    cases hk
  · rw [h] at hk
    cases hk
  · rw [h] at hk
    cases hk
  · exact ⟨hl, congrArg NodeDef.opcode h⟩

namespace Program

/-- A row has its value, or a parameter that was not passed. -/
theorem Built.nodeValue_cases (hp : p.Built) (hd : p.arena[k]? = some d) :
    (d.Provided params ∧ ∃ w, p.nodeValue params (filled f p.arena.length k) k d = .ok (some w) ∧
      d.HasValue params (Function.update f k w) k) ∨
    (d.kind = .param ∧ params.length ≤ d.imm.toInt.toNat ∧
      p.nodeValue params (filled f p.arena.length k) k d =
        .error (.missingParam d.imm.toInt.toNat)) := by
  have hlen : k < p.arena.length := (List.getElem?_eq_some_iff.mp hd).1
  have hrow := hp.rows hd
  have hself : ∀ w, Function.update f k w k = w := fun w => Function.update_self k w f
  have hother : ∀ w {j}, j < k → Function.update f k w j = f j := fun w j hj =>
    Function.update_of_ne (Nat.ne_of_lt hj) w f
  have hoperand : ∀ {j}, j < k → p.target k j = .ok j ∧
      computed (filled f p.arena.length k) j = .ok (f j) := by
    intro j hj
    obtain ⟨e, he⟩ : ∃ e, p.arena[j]? = some e :=
      ⟨_, List.getElem?_eq_getElem (hj.trans hlen)⟩
    exact ⟨target_self he (hp.rows he).not_alias k, computed_filled (hj.trans hlen) hj⟩
  have hplain : d.kind ≠ .param → d.Provided params := fun hne hk => absurd hk hne
  rw [nodeValue]
  cases hkind : d.kind with
  | const =>
    refine .inl ⟨hplain (by rw [hkind]; decide), d.imm, rfl, .const hkind (hself _)⟩
  | param =>
    obtain ⟨m, hm, himm⟩ := hrow.imm_eq hkind
    have hint : d.imm.toInt.toNat = m := by rw [himm, toInt_ofNat hm, Int.toNat_natCast]
    dsimp only
    rw [hint, himm, paramValue_ofNat hm]
    cases hv : params[m]? with
    | some v =>
      refine .inl ⟨fun _ => ?_, v, rfl, .param hkind ?_⟩
      · rw [hint]
        exact (List.getElem?_eq_some_iff.mp hv).1
      · rw [hself, himm, paramValue_ofNat hm, hv]
        rfl
    | none => exact .inr ⟨rfl, List.getElem?_eq_none_iff.mp hv, rfl⟩
  | bin =>
    obtain ⟨hl, hr, hop⟩ := hrow.bin_rows hkind
    obtain ⟨htl, hvl⟩ := hoperand hl
    obtain ⟨htr, hvr⟩ := hoperand hr
    obtain ⟨w, hw⟩ := binValue_isOk hop (f d.lhs) (f d.rhs)
    refine .inl ⟨hplain (by rw [hkind]; decide), w, ?_, .bin hkind hl hr ?_⟩
    · simp only [htl, htr, hvl, hvr, hw, bind, Except.bind, pure, Except.pure]
    · rw [hself, hother w hl, hother w hr]
      exact hw
  | un =>
    obtain ⟨hl, hop⟩ := hrow.un_rows hkind
    obtain ⟨htl, hvl⟩ := hoperand hl
    refine .inl ⟨hplain (by rw [hkind]; decide), -f d.lhs, ?_, .un hkind hl ?_⟩
    · rw [hop]
      simp only [htl, hvl, bind, Except.bind, pure, Except.pure]
      rfl
    · rw [hself, hother _ hl, hop]
      rfl
  | «alias» => exact absurd hkind hrow.not_alias
  | dead => exact absurd hkind hrow.not_dead

/-- A row that the loop cannot pass. -/
structure Lacks (p : Program) (params : List Int64) (i : Nat) (d : NodeDef) : Prop where
  row : p.arena[i]? = some d
  kind : d.kind = .param
  short : params.length ≤ d.imm.toInt.toNat
  first : ∀ (j : Nat) (e : NodeDef), j < i → p.arena[j]? = some e → e.Provided params

/-- After so many rows: every one of them has its value, or the loop has
stopped at the first that lacks its parameter. -/
theorem Built.foldlM_cases (hp : p.Built) (hk : k ≤ u32 p.arena.length) :
    (∃ f, (List.range k).foldlM (p.evalSlot params) (List.replicate p.arena.length none) =
        .ok (filled f p.arena.length k) ∧
      ∀ (i : Nat) (d : NodeDef), i < k → p.arena[i]? = some d →
        d.Provided params ∧ d.HasValue params f i) ∨
    ∃ i d, i < k ∧ p.Lacks params i d ∧
      (List.range k).foldlM (p.evalSlot params) (List.replicate p.arena.length none) =
        .error (.missingParam d.imm.toInt.toNat) := by
  induction k with
  | zero =>
    refine .inl ⟨fun _ => 0, ?_, fun i d hi => absurd hi (Nat.not_lt_zero i)⟩
    rw [filled_zero]
    rfl
  | succ k ih =>
    rw [List.range_succ]
    rcases ih (Nat.le_of_succ_le hk) with ⟨f, hloop, hrows⟩ | ⟨i, d, hi, hlacks, hloop⟩
    · have hlen : k < p.arena.length := Nat.lt_of_lt_of_le hk (Nat.mod_le ..)
      have hd : p.arena[k]? = some p.arena[k] := List.getElem?_eq_getElem hlen
      have hrow := hp.rows hd
      have hnext : (List.range k ++ [k]).foldlM (p.evalSlot params)
          (List.replicate p.arena.length none) =
            p.evalSlot params (filled f p.arena.length k) k := by
        rw [List.foldlM_append, hloop]
        change [k].foldlM (p.evalSlot params) _ = _
        rw [List.foldlM_cons]
        cases p.evalSlot params (filled f p.arena.length k) k <;> rfl
      rw [hnext, evalSlot_eq hd hrow.not_alias hrow.not_dead]
      rcases hp.nodeValue_cases hd with ⟨hprov, w, hw, hv⟩ | ⟨hkind, hshort, herr⟩
      · have hbelow : ∀ j < k, Function.update f k w j = f j := fun j hj =>
          Function.update_of_ne (Nat.ne_of_lt hj) w f
        refine .inl ⟨Function.update f k w, ?_, fun i e hi he => ?_⟩
        · rw [hw, ← filled_set hlen, filled_congr hbelow, Function.update_self]
          rfl
        · rcases Nat.lt_succ_iff_lt_or_eq.mp hi with hi | rfl
          · obtain ⟨hpe, hve⟩ := hrows i e hi he
            exact ⟨hpe, hve.congr fun j hj => hbelow j (Nat.lt_of_le_of_lt hj hi)⟩
          · cases Option.some.inj (hd.symm.trans he)
            exact ⟨hprov, hv⟩
      · refine .inr ⟨k, _, Nat.lt_succ_self k, ⟨hd, hkind, hshort, fun j e hj he => ?_⟩, ?_⟩
        · exact (hrows j e hj he).1
        · rw [herr]
          rfl
    · refine .inr ⟨i, d, Nat.lt_succ_of_lt hi, hlacks, ?_⟩
      rw [List.foldlM_append, hloop]
      rfl

-- ---------------------------------------------------------------------------
-- The values of a built program
-- ---------------------------------------------------------------------------

theorem Built.root_lt (hp : p.Built) : p.root < p.arena.length := by
  obtain ⟨b, root, -, hfinish⟩ := hp
  unfold ProgramBuilder.finish at hfinish
  split at hfinish
  · cases hfinish
  · next hlt =>
    cases hfinish
    exact Nat.lt_of_not_le hlt

/-- A loop that stops stops the program. -/
theorem Built.evaluate_stopped (hp : p.Built) {e : InterpError}
    (h : (List.range (u32 p.arena.length)).foldlM (p.evalSlot params)
      (List.replicate p.arena.length none) = .error e) : p.evaluate params = .error e := by
  obtain ⟨d, hd⟩ : ∃ d, p.arena[p.root]? = some d := ⟨_, List.getElem?_eq_getElem hp.root_lt⟩
  rw [evaluate, hd]
  simp only [if_neg (hp.rows hd).not_dead, h, bind, Except.bind]

/-- A root that the loop does not reach has no value. -/
theorem Built.evaluate_unread (hp : p.Built) (hread : u32 p.arena.length ≤ p.root)
    (h : (List.range (u32 p.arena.length)).foldlM (p.evalSlot params)
      (List.replicate p.arena.length none) = .ok (filled f p.arena.length (u32 p.arena.length))) :
    p.evaluate params = .error .deadRoot := by
  obtain ⟨d, hd⟩ : ∃ d, p.arena[p.root]? = some d := ⟨_, List.getElem?_eq_getElem hp.root_lt⟩
  rw [evaluate, hd]
  simp only [if_neg (hp.rows hd).not_dead, h, resolve_self hd (hp.rows hd).not_alias,
    getElem?_filled hp.root_lt, if_neg (Nat.not_lt_of_le hread), bind, Except.bind]
  rfl

/-- A built program that evaluates has a value in every row. -/
theorem Built.exists_values (hp : p.Built) (h : p.evaluate params = .ok v) :
    ∃ f, p.Valued params f ∧ f p.root = v := by
  rcases @Built.foldlM_cases p params _ hp (Nat.le_refl _) with
    ⟨f, hloop, hrows⟩ | ⟨i, d, hi, hlacks, hloop⟩
  · by_cases hread : p.root < u32 p.arena.length
    · have hvalued : p.Valued params f := ⟨fun i d hi he => (hrows i d hi he).2, hread⟩
      exact ⟨f, hvalued, Except.ok.inj (hvalued.evaluate.symm.trans h)⟩
    · rw [hp.evaluate_unread (Nat.le_of_not_lt hread) hloop] at h
      cases h
  · rw [hp.evaluate_stopped hloop] at h
    cases h

/-- A built program evaluates to the value of its root, or names the first
parameter that was not passed, or has its root past the rows that are read. -/
theorem Built.evaluate_cases (hp : p.Built) :
    (∃ f, p.Valued params f ∧ p.evaluate params = .ok (f p.root)) ∨
    (∃ i d, i < u32 p.arena.length ∧ p.Lacks params i d ∧
      p.evaluate params = .error (.missingParam d.imm.toInt.toNat)) ∨
    (u32 p.arena.length ≤ p.root ∧
      (∀ (i : Nat) (d : NodeDef), i < u32 p.arena.length → p.arena[i]? = some d →
        d.Provided params) ∧
      p.evaluate params = .error .deadRoot) := by
  rcases @Built.foldlM_cases p params _ hp (Nat.le_refl _) with
    ⟨f, hloop, hrows⟩ | ⟨i, d, hi, hlacks, hloop⟩
  · by_cases hread : p.root < u32 p.arena.length
    · have hvalued : p.Valued params f := ⟨fun i d hi he => (hrows i d hi he).2, hread⟩
      exact .inl ⟨f, hvalued, hvalued.evaluate⟩
    · exact .inr (.inr ⟨Nat.le_of_not_lt hread, fun i d hi he => (hrows i d hi he).1,
        hp.evaluate_unread (Nat.le_of_not_lt hread) hloop⟩)
  · exact .inr (.inl ⟨i, d, hi, hlacks, hp.evaluate_stopped hloop⟩)

/-- One parameter and nothing else. -/
def oneParam : Program := ⟨[⟨.param, 0, 0, NO_OPERAND, NO_OPERAND⟩], 0⟩

theorem Built.evaluate_cases_oneParam : ∃ i d, oneParam.Lacks [] i d ∧
    oneParam.evaluate [] = .error (.missingParam d.imm.toInt.toNat) := by
  have herror : oneParam.evaluate [] = .error (.missingParam 0) := by decide
  have hp : oneParam.Built := built_of_check (by decide) (by decide) (by decide)
  rcases @Built.evaluate_cases oneParam [] hp with
    ⟨f, -, hok⟩ | ⟨i, d, -, hlacks, hmissing⟩ | ⟨-, -, hdead⟩
  · cases herror.symm.trans hok
  · exact ⟨i, d, hlacks, hmissing⟩
  · cases herror.symm.trans hdead

end Program

end Sxla.Mss
