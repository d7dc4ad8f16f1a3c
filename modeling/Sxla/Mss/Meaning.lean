import Mathlib
import Sxla.Mss.Materialize
import Sxla.Mss.Values

/-!
# What the slots of a candidate compute

A slot computes a value where its operands, with aliases resolved, do. The
depth of the derivation shows that the graph below the slot has no cycle, so a
root with a value reaches a well formed graph, and materializing it keeps the
value.
-/

namespace Sxla.Mss

open Relation

namespace Candidate

variable {c : Candidate} {params : List Int64} {n m s t operand : Nat} {v w : Int64}

/-- The operand resolves to `t`. -/
def Arg (c : Candidate) (operand t : Nat) : Prop := operand ≠ NO_OPERAND ∧ c.Ends operand t

/-- The slot, which is no alias, computes `v`, with fewer than `n` operands
below each other. -/
inductive Computes (c : Candidate) (params : List Int64) : Nat → Nat → Int64 → Prop
  | const {n s : Nat} (hk : (c.view s).kind = .const) (hnone : operandsOf (c.view s) = []) :
    Computes c params (n + 1) s (c.view s).imm
  | param {n s : Nat} {v : Int64} (hk : (c.view s).kind = .param)
    (hnone : operandsOf (c.view s) = []) (hv : paramValue params (c.view s).imm = .ok v) :
    Computes c params (n + 1) s v
  | bin {n s l r : Nat} {lv rv v : Int64} (hk : (c.view s).kind = .bin)
    (hl : c.Arg (c.view s).lhs l) (hr : c.Arg (c.view s).rhs r) (hlv : Computes c params n l lv)
    (hrv : Computes c params n r rv) (hv : binValue (c.view s).opcode lv rv = .ok v) :
    Computes c params (n + 1) s v
  | un {n s o : Nat} {ov v : Int64} (hk : (c.view s).kind = .un) (ho : c.Arg (c.view s).lhs o)
    (hnone : (c.view s).rhs = NO_OPERAND) (hov : Computes c params n o ov)
    (hv : unValue (c.view s).opcode ov = .ok v) : Computes c params (n + 1) s v

/-- The slot, an alias or not, stands for the value. -/
def Holds (c : Candidate) (params : List Int64) (s : Nat) (v : Int64) : Prop :=
  ∃ t n, c.Ends s t ∧ c.Computes params n t v

/-- There is nothing behind the slots that are counted. -/
def Bounded (c : Candidate) : Prop := ∀ s, c.slots ≤ s → (c.view s).kind = .dead

namespace Computes

theorem mono (h : c.Computes params n s v) (hle : n ≤ m) : c.Computes params m s v := by
  induction h generalizing m with
  | const hk hnone =>
    cases m with
    | zero => cases hle
    | succ m => exact .const hk hnone
  | param hk hnone hv =>
    cases m with
    | zero => cases hle
    | succ m => exact .param hk hnone hv
  | bin hk hl hr _ _ hv ihl ihr =>
    cases m with
    | zero => cases hle
    | succ m =>
      have hle := Nat.le_of_succ_le_succ hle
      exact .bin hk hl hr (ihl hle) (ihr hle) hv
  | un hk ho hnone _ hv ih =>
    cases m with
    | zero => cases hle
    | succ m => exact .un hk ho hnone (ih (Nat.le_of_succ_le_succ hle)) hv

theorem not_alias (h : c.Computes params n s v) : (c.view s).kind ≠ .alias := by
  cases h with
  | const hk _ | param hk _ _ | bin hk _ _ _ _ _ | un hk _ _ _ _ =>
    rw [hk]
    nofun

theorem not_dead (h : c.Computes params n s v) : (c.view s).kind ≠ .dead := by
  cases h with
  | const hk _ | param hk _ _ | bin hk _ _ _ _ _ | un hk _ _ _ _ =>
    rw [hk]
    nofun

theorem holds (h : c.Computes params n s v) : c.Holds params s v :=
  ⟨s, n, .here h.not_alias, h⟩

theorem unique (h : c.Computes params n s v) (h' : c.Computes params m s w) : v = w := by
  induction h generalizing m w with
  | const hk _ =>
    cases h' with
    | const => rfl
    | param hk' _ _ | bin hk' _ _ _ _ _ | un hk' _ _ _ _ =>
      exact absurd (hk.symm.trans hk') nofun
  | param hk _ hv =>
    cases h' with
    | param _ _ hv' => exact Except.ok.inj (hv.symm.trans hv')
    | const hk' _ | bin hk' _ _ _ _ _ | un hk' _ _ _ _ => exact absurd (hk.symm.trans hk') nofun
  | bin hk hl hr _ _ hv ihl ihr =>
    cases h' with
    | bin _ hl' hr' hlv' hrv' hv' =>
      obtain rfl := hl.2.unique hl'.2
      obtain rfl := hr.2.unique hr'.2
      rw [ihl hlv', ihr hrv'] at hv
      exact Except.ok.inj (hv.symm.trans hv')
    | const hk' _ | param hk' _ _ | un hk' _ _ _ _ => exact absurd (hk.symm.trans hk') nofun
  | un hk ho _ _ hv ih =>
    cases h' with
    | un _ ho' _ hov' hv' =>
      obtain rfl := ho.2.unique ho'.2
      rw [ih hov'] at hv
      exact Except.ok.inj (hv.symm.trans hv')
    | const hk' _ | param hk' _ _ | bin hk' _ _ _ _ _ => exact absurd (hk.symm.trans hk') nofun

/-- What an operand resolves to computes a value, with less below it. -/
theorem operand_computes (h : c.Computes params n s v) (ho : operand ∈ operandsOf (c.view s)) :
    ∃ t m w, c.Ends operand t ∧ m < n ∧ c.Computes params m t w := by
  cases h with
  | const _ hnone | param _ hnone _ =>
    rw [hnone] at ho
    cases ho
  | @bin k _ l r _ _ _ _ hl hr hlv hrv _ =>
    obtain ⟨-, rfl | rfl⟩ := mem_operandsOf.mp ho
    · exact ⟨l, k, _, hl.2, Nat.lt_succ_self k, hlv⟩
    · exact ⟨r, k, _, hr.2, Nat.lt_succ_self k, hrv⟩
  | @un k _ o _ _ _ hl hnone hov _ =>
    obtain ⟨hne, rfl | rfl⟩ := mem_operandsOf.mp ho
    · exact ⟨o, k, _, hl.2, Nat.lt_succ_self k, hov⟩
    · exact absurd hnone hne

theorem needs (h : c.Computes params n s v) (ht : c.Needs t s) :
    ∃ m w, m < n ∧ c.Computes params m t w := by
  obtain ⟨operand, ho, ht⟩ := ht
  obtain ⟨t', m, w, ht', hm, hw⟩ := h.operand_computes ho
  obtain rfl := ht.unique ht'
  exact ⟨m, w, hm, hw⟩

theorem needed (h : c.Computes params n s v) (ht : TransGen c.Needs t s) :
    ∃ m w, m < n ∧ c.Computes params m t w := by
  induction ht using TransGen.head_induction_on with
  | single ht => exact h.needs ht
  | head ht _ ih =>
    obtain ⟨k, u, hk, hu⟩ := ih
    obtain ⟨m, w, hm, hw⟩ := hu.needs ht
    exact ⟨m, w, hm.trans hk, hw⟩

/-- A slot that computes a value does not need itself. -/
theorem not_cyclic (h : c.Computes params n s v) : ¬ TransGen c.Needs s s := by
  induction n using Nat.strong_induction_on generalizing v with
  | _ n ih =>
    intro hcycle
    obtain ⟨m, w, hm, hw⟩ := h.needed hcycle
    exact ih m hm hw hcycle

end Computes

-- ---------------------------------------------------------------------------
-- A root with a value
-- ---------------------------------------------------------------------------

namespace Holds

theorem computes (h : c.Holds params s v) (halias : (c.view s).kind ≠ .alias) :
    ∃ n, c.Computes params n s v := by
  obtain ⟨t, n, ht, hv⟩ := h
  obtain rfl := ht.unique (.here halias)
  exact ⟨n, hv⟩

theorem not_dead (h : c.Holds params s v) : (c.view s).kind ≠ .dead := by
  obtain ⟨t, n, ht, hv⟩ := h
  cases ht with
  | here => exact hv.not_dead
  | hop halias =>
    rw [halias]
    nofun

/-- All that is met has a value. -/
theorem met (h : c.Holds params c.root v) (hs : c.Met s) : ∃ w, c.Holds params s w := by
  induction hs with
  | root => exact ⟨v, h⟩
  | hop _ halias hne ih =>
    obtain ⟨w, t, n, ht, hw⟩ := ih
    cases ht with
    | here hnot => exact absurd halias hnot
    | hop _ _ ht => exact ⟨w, t, n, ht, hw⟩
  | operand _ hnot ho ih =>
    obtain ⟨w, hw⟩ := ih
    obtain ⟨n, hw⟩ := hw.computes hnot
    obtain ⟨t, m, u, ht, -, hu⟩ := hw.operand_computes ho
    exact ⟨u, t, m, ht, hu⟩

theorem reached (h : c.Holds params c.root v) (hs : c.Reached s) :
    ∃ n w, c.Computes params n s w := by
  obtain ⟨hmet, halias⟩ := hs.met_not_alias
  obtain ⟨w, hw⟩ := h.met hmet
  obtain ⟨n, hw⟩ := hw.computes halias
  exact ⟨n, w, hw⟩

theorem wellFormed (h : c.Holds params c.root v) (hb : c.Bounded) : c.WellFormed where
  inRange := by
    intro s hs
    obtain ⟨w, hw⟩ := h.met hs
    by_contra hge
    exact hw.not_dead (hb s (Nat.le_of_not_lt hge))
  live := by
    intro s hs
    obtain ⟨w, hw⟩ := h.met hs
    exact hw.not_dead
  ends := by
    intro s hs
    obtain ⟨w, t, n, ht, -⟩ := h.met hs
    exact ⟨t, ht⟩
  acyclic := by
    intro s hs
    obtain ⟨n, w, hw⟩ := h.reached hs
    exact hw.not_cyclic

end Holds

-- ---------------------------------------------------------------------------
-- The materialized program
-- ---------------------------------------------------------------------------

/-- The value that a slot computes, if it does. -/
noncomputable def valueOf (c : Candidate) (params : List Int64) (s : Nat) : Int64 :=
  open Classical in if h : ∃ v n, c.Computes params n s v then h.choose else 0

theorem Computes.valueOf_eq (h : c.Computes params n s v) : c.valueOf params s = v := by
  have hex : ∃ v n, c.Computes params n s v := ⟨v, n, h⟩
  obtain ⟨m, hm⟩ := hex.choose_spec
  rw [valueOf, dif_pos hex]
  exact hm.unique h

/-- The rows of a re-linearised program have the values of their slots. -/
theorem Linear.valued {p : Program} {order : List Nat} (h : c.Linear p.arena order)
    (hall : ∀ s, c.Reached s → ∃ n v, c.Computes params n s v)
    (hlen : p.arena.length < 0x100000000) (hroot : p.root < p.arena.length) :
    p.Valued params fun i => c.valueOf params (order.getD i 0) := by
  have hword : u32 p.arena.length = p.arena.length := Nat.mod_eq_of_lt hlen
  have hvalue : ∀ (i s : Nat), order[i]? = some s →
      c.valueOf params (order.getD i 0) = c.valueOf params s := by
    intro i s hi
    rw [List.getD_eq_getElem?_getD, hi]
    rfl
  have harg : ∀ {i operand index t k : Nat} {w : Int64}, c.Renumbered order i operand index →
      c.Arg operand t → c.Computes params k t w →
      index < i ∧ c.valueOf params (order.getD index 0) = w := by
    intro i operand index t k w hindex harg hw
    obtain ⟨-, hlt, t', ht', hget⟩ := hindex.resolve_left fun hnone => harg.1 hnone.1
    obtain rfl := harg.2.unique ht'
    exact ⟨hlt, (hvalue index _ hget).trans hw.valueOf_eq⟩
  refine ⟨fun i d _ hd => ?_, by rw [hword]; exact hroot⟩
  have hlt : i < order.length := h.length ▸ (List.getElem?_eq_some_iff.mp hd).1
  have hi := List.getElem?_eq_getElem hlt
  obtain ⟨l, r, hrow, hl, hr⟩ := h.rows i _ hi
  cases Option.some.inj (hd.symm.trans hrow)
  obtain ⟨n, v, hv⟩ := hall _ ((h.reached _).mp (List.mem_of_getElem? hi))
  have hself : c.valueOf params (order.getD i 0) = v := (hvalue i _ hi).trans hv.valueOf_eq
  cases hv with
  | const hk _ => exact .const hk hself
  | param hk _ hv => exact .param hk (hself.symm ▸ hv)
  | bin hk hal har hlv hrv hv =>
    obtain ⟨hlt, hleft⟩ := harg hl hal hlv
    obtain ⟨hrt, hright⟩ := harg hr har hrv
    refine .bin hk hlt hrt ?_
    rw [hself, hleft, hright]
    exact hv
  | un hk hao _ hov hv =>
    obtain ⟨hlt, hleft⟩ := harg hl hao hov
    refine .un hk hlt ?_
    rw [hself, hleft]
    exact hv

/-- There are no more rows than slots. -/
theorem WellFormed.length_lt {arena : List NodeDef} {order : List Nat} (hc : c.WellFormed)
    (h : c.Linear arena order) : arena.length < 0x100000000 := by
  have hsub : order.Subperm (List.range c.slots) := by
    refine List.subperm_of_subset h.nodup fun s hs => List.mem_range.mpr ?_
    exact hc.inRange s ((h.reached s).mp hs).met_not_alias.1
  have hle := hsub.length_le
  rw [List.length_range] at hle
  rw [h.length]
  exact Nat.lt_of_le_of_lt hle c.slots_lt

/-- Materializing keeps the value of the root. -/
theorem Holds.materialize (h : c.Holds params c.root v) (hb : c.Bounded)
    (hsome : ∃ s < 0xFFFFFFFF, ¬ c.Reached s) : c.materialize.evaluate params = .ok v := by
  have hc := h.wellFormed hb
  obtain ⟨s, hs, hnot⟩ := hsome
  obtain ⟨order, hlin, r, hr, hroot⟩ := hc.relinearized fun hall => hnot (hall s hs)
  have hin : c.materialize.root < c.materialize.arena.length :=
    hlin.length ▸ (List.getElem?_eq_some_iff.mp hroot).1
  have hvalued := hlin.valued (fun s hs => h.reached hs) (hc.length_lt hlin) hin
  obtain ⟨t, n, ht, hv⟩ := h
  obtain rfl := ht.unique hr
  rw [hvalued.evaluate, List.getD_eq_getElem?_getD, hroot, Option.getD_some, hv.valueOf_eq]

/-- A root that is lost leaves the value of a slot without operands. -/
theorem Holds.materialize_lost (h : c.Holds params c.root v) (hb : c.Bounded)
    (hall : ∀ s < 0xFFFFFFFF, c.Reached s) : ∃ s, c.Reached s ∧ (∀ t, ¬ c.Needs t s) ∧
      c.materialize.evaluate params = .ok (c.valueOf params s) := by
  have hc := h.wellFormed hb
  obtain ⟨order, hlin, hlost⟩ := hc.root_lost hall
  obtain ⟨i, hi⟩ := List.mem_iff_getElem?.mp ((hlin.reached 0).mpr (hall 0 (by decide)))
  have hlen : 0 < order.length := Nat.zero_lt_of_lt (List.getElem?_eq_some_iff.mp hi).1
  have hfirst := List.getElem?_eq_getElem hlen
  have hin : c.materialize.root < c.materialize.arena.length := by
    rw [hlost, hlin.length]
    exact hlen
  have hvalued := hlin.valued (fun s hs => h.reached hs) (hc.length_lt hlin) hin
  refine ⟨order[0], (hlin.reached _).mp (List.mem_of_getElem? hfirst), fun t ht => ?_, ?_⟩
  · obtain ⟨j, hj, -⟩ := hlin.needs_lt hfirst ht
    exact Nat.not_lt_zero j hj
  · rw [hvalued.evaluate, hlost, List.getD_eq_getElem?_getD, hfirst, Option.getD_some]

-- ---------------------------------------------------------------------------
-- The program that a search starts from
-- ---------------------------------------------------------------------------

section

variable {p : Program} {f : Nat → Int64} {i : Nat} {d : NodeDef}

theorem view_fromProgram (hi : i < u32 p.arena.length) (hd : p.arena[i]? = some d) :
    (fromProgram p).view i = d := by
  have hbase : (fromProgram p).view i = (fromProgram p).baseDef i := rfl
  have hin : i < (fromProgram p).baseLen := hi
  rw [hbase, baseDef, if_pos hin]
  change p.arena.getD i deadDef = d
  rw [List.getD_eq_getElem?_getD, hd]
  rfl

theorem bounded_fromProgram (p : Program) : (fromProgram p).Bounded := by
  intro s hs
  have hbase : (fromProgram p).view s = (fromProgram p).baseDef s := rfl
  have hout : ¬ s < (fromProgram p).baseLen := Nat.not_lt_of_le hs
  rw [hbase, baseDef, if_neg hout]
  rfl

/-- The slots of a built program compute its values. -/
theorem computes_fromProgram (hp : p.Built) (hv : p.Valued params f)
    (hi : i < u32 p.arena.length) : (fromProgram p).Computes params (i + 1) i (f i) := by
  induction i using Nat.strong_induction_on with
  | _ i ih =>
    obtain ⟨d, hd, hvalue⟩ := hv.exists_row hi
    have hview := view_fromProgram hi hd
    have harg : ∀ operand, operand < i → operand < NO_OPERAND →
        (fromProgram p).Arg operand operand ∧ (fromProgram p).Computes params i operand (f operand) := by
      intro operand ho hword
      have hcomputes := ih operand ho (ho.trans hi)
      exact ⟨⟨Nat.ne_of_lt hword, .here hcomputes.not_alias⟩, hcomputes.mono ho⟩
    have hrow := hp.rows hd
    cases hvalue with
    | const hk hvi =>
      rw [hvi, ← hview]
      exact .const (hview ▸ hk) (hview ▸ hrow.operandsOf_leaf (.inl hk))
    | param hk hvi =>
      exact .param (hview ▸ hk) (hview ▸ hrow.operandsOf_leaf (.inr hk)) (hview ▸ hvi)
    | bin hk hl hr hvi =>
      obtain ⟨hlword, hrword⟩ := hrow.bin_words hk
      obtain ⟨hal, hlv⟩ := harg _ hl hlword
      obtain ⟨har, hrv⟩ := harg _ hr hrword
      exact .bin (hview ▸ hk) (hview ▸ hal) (hview ▸ har) hlv hrv (hview ▸ hvi)
    | un hk hl hvi =>
      obtain ⟨hlword, hnone⟩ := hrow.un_words hk
      obtain ⟨hal, hlv⟩ := harg _ hl hlword
      exact .un (hview ▸ hk) (hview ▸ hal) (hview ▸ hnone) hlv (hview ▸ hvi)

theorem holds_fromProgram (hp : p.Built) (hv : p.evaluate params = .ok v) :
    (fromProgram p).Holds params (fromProgram p).root v := by
  obtain ⟨f, hvalued, rfl⟩ := hp.exists_values hv
  exact (computes_fromProgram hp hvalued hvalued.root).holds

end

end Candidate

end Sxla.Mss
