import Mathlib
import Sxla.Mss.CriticalPath
import Sxla.Mss.Improvement
import Sxla.Mss.Meaning

/-!
# Mutations preserve meaning

A mutation gives one slot another definition, behind which stands the same
value, and what the other slots compute stays as it was. By induction on what
stands below a slot, all that the root reaches keeps its value, through any run
of mutations, and so does what is materialized.

Slots are counted in 32 bits. Past them the appended nodes have no slot, and
with `2^32 - 1` of them reached, materializing misses the root.
-/

namespace Sxla.Mss

namespace Candidate

variable {c d : Candidate} {params : List Int64} {slot n m s t operand fuel : Nat}
  {v w lv rv : Int64} {row : NodeDef} {overlays : List Overlay}

-- ---------------------------------------------------------------------------
-- Overlays
-- ---------------------------------------------------------------------------

/-- The slots with the appended ones have numbers of 32 bits. -/
def InRange (c : Candidate) : Prop := c.baseLen + c.extendCount < 0x100000000

theorem InRange.slots_eq (h : c.InRange) : c.slots = c.baseLen + c.extendCount := by
  change (c.base.arena.length + c.extendCount) % 0x100000000 = _
  unfold InRange baseLen u32 at *
  omega

theorem replay_count (p : Program) (root : Nat) (s : NodeDef × Nat) :
    (overlays.foldl (replay slot) s).2 = s.2 + (Candidate.mk p overlays root).extendCount := by
  induction overlays generalizing s with
  | nil => rfl
  | cons o overlays ih =>
    rw [List.foldl_cons, ih, extendCount, extendCount, List.countP_cons]
    cases o with
    | replace target row => rfl
    | extend row => exact Nat.add_right_comm s.2 1 _

theorem view_push (o : Overlay) :
    (c.push o).view s = (replay s (c.view s, c.baseLen + c.extendCount) o).1 := by
  have hcount : (c.overlays.foldl (replay s) (c.baseDef s, c.baseLen)).2 =
      c.baseLen + c.extendCount := replay_count c.base c.root (c.baseDef s, c.baseLen)
  change ((c.overlays ++ [o]).foldl (replay s) (c.baseDef s, c.baseLen)).1 = _
  rw [List.foldl_append, List.foldl_cons, List.foldl_nil, view, ← hcount]

theorem view_replace :
    (c.push (.replace slot row)).view s = if slot = s then row else c.view s :=
  view_push _

theorem view_extend : (c.push (.extend row)).view s =
    if c.baseLen + c.extendCount = s then row else c.view s :=
  view_push _

theorem extendCount_replace : (c.push (.replace slot row)).extendCount = c.extendCount := by
  change (c.overlays ++ [_]).countP _ = c.overlays.countP _
  rw [List.countP_append]
  rfl

theorem extendCount_extend : (c.push (.extend row)).extendCount = c.extendCount + 1 := by
  change (c.overlays ++ [_]).countP _ = c.overlays.countP _ + 1
  rw [List.countP_append]
  rfl

theorem slots_replace : (c.push (.replace slot row)).slots = c.slots := by
  change u32 (_ + (c.push _).extendCount) = u32 (_ + c.extendCount)
  rw [extendCount_replace]
  rfl

theorem Bounded.replace (hb : c.Bounded) (hlt : slot < c.slots) :
    (c.push (.replace slot row)).Bounded := by
  intro s hs
  rw [slots_replace] at hs
  rw [view_replace, if_neg (Nat.ne_of_lt (Nat.lt_of_lt_of_le hlt hs))]
  exact hb s hs

-- ---------------------------------------------------------------------------
-- Operands
-- ---------------------------------------------------------------------------

/-- The operand stands for the value. -/
def Reads (c : Candidate) (params : List Int64) (operand : Nat) (v : Int64) : Prop :=
  operand ≠ NO_OPERAND ∧ c.Holds params operand v

theorem Reads.exists_arg (h : c.Reads params operand v) :
    ∃ t n, c.Arg operand t ∧ c.Computes params n t v := by
  obtain ⟨hne, t, n, ht, hv⟩ := h
  exact ⟨t, n, ⟨hne, ht⟩, hv⟩

theorem Reads.bin (hk : (c.view s).kind = .bin) (hl : c.Reads params (c.view s).lhs lv)
    (hr : c.Reads params (c.view s).rhs rv) (hv : binValue (c.view s).opcode lv rv = .ok v) :
    c.Holds params s v := by
  obtain ⟨l, n, hl, hlv⟩ := hl.exists_arg
  obtain ⟨r, m, hr, hrv⟩ := hr.exists_arg
  have hleft := hlv.mono (Nat.le_max_left n m)
  have hright := hrv.mono (Nat.le_max_right n m)
  exact (Computes.bin hk hl hr hleft hright hv).holds

theorem Reads.un (hk : (c.view s).kind = .un) (ho : c.Reads params (c.view s).lhs lv)
    (hnone : (c.view s).rhs = NO_OPERAND) (hv : unValue (c.view s).opcode lv = .ok v) :
    c.Holds params s v := by
  obtain ⟨o, n, ho, hov⟩ := ho.exists_arg
  exact (Computes.un hk ho hnone hov hv).holds

/-- A slot that became an alias. -/
theorem Reads.alias (h : c.Reads params t v) (hview : c.view s = aliasDef t) :
    c.Holds params s v := by
  obtain ⟨hne, t', n, ht, hv⟩ := h
  refine ⟨t', n, .hop (by rw [hview]; rfl) (by rw [hview]; exact hne) ?_, hv⟩
  rw [hview]
  exact ht

/-- A slot that became a constant. -/
theorem holds_const (hview : c.view s = constDef v) : c.Holds params s v := by
  have hcomputes : c.Computes params 1 s (c.view s).imm :=
    .const (by rw [hview]; rfl) (by rw [hview]; rfl)
  rw [hview] at hcomputes
  exact hcomputes.holds

theorem operandsOf_eq_nil : operandsOf row = [] ↔ row.lhs = NO_OPERAND ∧ row.rhs = NO_OPERAND := by
  rw [List.eq_nil_iff_forall_not_mem]
  constructor
  · intro h
    constructor
    · by_contra hne
      exact h _ (mem_operandsOf.mpr ⟨hne, .inl rfl⟩)
    · by_contra hne
      exact h _ (mem_operandsOf.mpr ⟨hne, .inr rfl⟩)
  · rintro ⟨hl, hr⟩ o ho
    obtain ⟨hne, rfl | rfl⟩ := mem_operandsOf.mp ho
    · exact hne hl
    · exact hne hr

/-- A slot with the same operation, and operands that stand for the same
values, computes the same. -/
theorem Computes.copy (h : c.Computes params n s v) (hk : (d.view t).kind = (c.view s).kind)
    (himm : (d.view t).imm = (c.view s).imm) (hopcode : (d.view t).opcode = (c.view s).opcode)
    (hl : ∀ x m w, c.Arg (c.view s).lhs x → m < n → c.Computes params m x w →
      d.Reads params (d.view t).lhs w)
    (hr : ∀ x m w, c.Arg (c.view s).rhs x → m < n → c.Computes params m x w →
      d.Reads params (d.view t).rhs w)
    (hnol : (c.view s).lhs = NO_OPERAND → (d.view t).lhs = NO_OPERAND)
    (hnor : (c.view s).rhs = NO_OPERAND → (d.view t).rhs = NO_OPERAND) :
    d.Holds params t v := by
  cases h with
  | const hkind hnone =>
    obtain ⟨hleft, hright⟩ := operandsOf_eq_nil.mp hnone
    have hcomputes : d.Computes params 1 t (d.view t).imm :=
      .const (hk.trans hkind) (operandsOf_eq_nil.mpr ⟨hnol hleft, hnor hright⟩)
    rw [himm] at hcomputes
    exact hcomputes.holds
  | param hkind hnone hv =>
    obtain ⟨hleft, hright⟩ := operandsOf_eq_nil.mp hnone
    have hcomputes : d.Computes params 1 t v :=
      .param (hk.trans hkind) (operandsOf_eq_nil.mpr ⟨hnol hleft, hnor hright⟩) (himm ▸ hv)
    exact hcomputes.holds
  | bin hkind hal har hlv hrv hv =>
    have hleft := hl _ _ _ hal (Nat.lt_succ_self _) hlv
    have hright := hr _ _ _ har (Nat.lt_succ_self _) hrv
    exact Reads.bin (hk.trans hkind) hleft hright (hopcode ▸ hv)
  | un hkind hao hnone hov hv =>
    have hleft := hl _ _ _ hao (Nat.lt_succ_self _) hov
    exact Reads.un (hk.trans hkind) hleft (hnor hnone) (hopcode ▸ hv)

-- ---------------------------------------------------------------------------
-- One slot differs
-- ---------------------------------------------------------------------------

/-- `d` differs from `c` in the slot, which is no alias, and in dead ones. -/
structure Differs (c d : Candidate) (slot : Nat) : Prop where
  root : d.root = c.root
  notAlias : (c.view slot).kind ≠ .alias
  rest : ∀ s, s ≠ slot → (c.view s).kind ≠ .dead → d.view s = c.view s

/-- What computes a value with less than `n` below it still stands for it. -/
def KeptBelow (c d : Candidate) (params : List Int64) (n : Nat) : Prop :=
  ∀ m < n, ∀ s w, c.Reached s → c.Computes params m s w → d.Holds params s w

/-- The slot still stands for its value where all below it does. -/
def KeepsSlot (c d : Candidate) (params : List Int64) (slot : Nat) : Prop :=
  ∀ n v, c.Reached slot → c.Computes params n slot v → c.KeptBelow d params n →
    d.Holds params slot v

theorem Reached.arg (hs : c.Reached s) (ho : operand = (c.view s).lhs ∨ operand = (c.view s).rhs)
    (h : c.Arg operand t) : c.Reached t :=
  hs.operand (mem_operandsOf.mpr ⟨h.1, ho⟩) h.2

namespace Differs

/-- Alias chains are as they were. -/
theorem holds_of_ends (hd : c.Differs d slot) (h : c.Ends s t) (hv : d.Holds params t v) :
    d.Holds params s v := by
  induction h with
  | here => exact hv
  | @hop s t halias hne _ ih =>
    obtain ⟨t', n, ht', hv⟩ := ih hv
    have hsame : d.view s = c.view s := by
      apply hd.rest
      · rintro rfl
        exact hd.notAlias halias
      · rw [halias]
        nofun
    exact ⟨t', n, .hop (hsame ▸ halias) (hsame ▸ hne) (hsame ▸ ht'), hv⟩

theorem reads (hd : c.Differs d slot) (h : c.Arg operand t) (hv : d.Holds params t v) :
    d.Reads params operand v :=
  ⟨h.1, hd.holds_of_ends h.2 hv⟩

/-- What is reached keeps its value if the slot does. -/
theorem holds_of_computes (hd : c.Differs d slot) (hslot : c.KeepsSlot d params slot)
    (hs : c.Reached s) (h : c.Computes params n s v) : d.Holds params s v := by
  induction n using Nat.strong_induction_on generalizing s v with
  | _ n ih =>
    by_cases hne : s = slot
    · subst hne
      exact hslot n v hs h fun m hm x w hx hw => ih m hm hx hw
    · have hsame := hd.rest s hne h.not_dead
      have hoperand : ∀ operand, operand = (c.view s).lhs ∨ operand = (c.view s).rhs →
          ∀ x m w, c.Arg operand x → m < n → c.Computes params m x w →
            d.Reads params operand w := by
        intro operand ho x m w hx hm hw
        exact hd.reads hx (ih m hm (hs.arg ho hx) hw)
      refine h.copy (by rw [hsame]) (by rw [hsame]) (by rw [hsame]) ?_ ?_ ?_ ?_
      · rw [hsame]
        exact hoperand _ (.inl rfl)
      · rw [hsame]
        exact hoperand _ (.inr rfl)
      · rw [hsame]
        exact id
      · rw [hsame]
        exact id

/-- So does the root. -/
theorem holds_root (hd : c.Differs d slot) (hslot : c.KeepsSlot d params slot)
    (h : c.Holds params c.root v) : d.Holds params d.root v := by
  obtain ⟨t, n, ht, hv⟩ := h
  rw [hd.root]
  exact hd.holds_of_ends ht (hd.holds_of_computes hslot (.root ht) hv)

end Differs

theorem differs_replace (h : (c.view slot).kind ≠ .alias) :
    c.Differs (c.push (.replace slot row)) slot := by
  refine ⟨rfl, h, fun s hs _ => ?_⟩
  rw [view_replace, if_neg (Ne.symm hs)]

-- ---------------------------------------------------------------------------
-- What the mutations see of an operand
-- ---------------------------------------------------------------------------

/-- What the operand resolves to computes the value, with less than `n` below. -/
structure Resolved (c : Candidate) (params : List Int64) (n operand : Nat) (v : Int64) : Prop where
  arg : c.Arg operand (c.resolve operand)
  reached : c.Reached (c.resolve operand)
  computes : ∃ m < n, c.Computes params m (c.resolve operand) v

namespace Resolved

theorem holds (h : c.Resolved params n operand v) (hkept : c.KeptBelow d params n) :
    d.Holds params (c.resolve operand) v := by
  obtain ⟨m, hm, hv⟩ := h.computes
  exact hkept m hm _ _ h.reached hv

theorem reads (h : c.Resolved params n operand v) (hd : c.Differs d slot)
    (hkept : c.KeptBelow d params n) : d.Reads params operand v :=
  hd.reads h.arg (h.holds hkept)

/-- What it resolves to is an operand as well. -/
theorem reads_resolved (h : c.Resolved params n operand v) (hc : c.WellFormed)
    (hkept : c.KeptBelow d params n) : d.Reads params (c.resolve operand) v :=
  ⟨Nat.ne_of_lt (hc.reached_lt h.reached), h.holds hkept⟩

theorem unique (h : c.Resolved params n operand v) (h' : c.Resolved params m s w)
    (heq : c.resolve operand = c.resolve s) : v = w := by
  obtain ⟨k, -, hv⟩ := h.computes
  obtain ⟨k', -, hw⟩ := h'.computes
  rw [heq] at hv
  exact hv.unique hw

theorem imm (h : c.Resolved params n operand v)
    (hk : (c.view (c.resolve operand)).kind = .const) : v = (c.view (c.resolve operand)).imm := by
  obtain ⟨m, -, hv⟩ := h.computes
  cases hv with
  | const => rfl
  | param hk' | bin hk' | un hk' => exact absurd (hk.symm.trans hk') nofun

theorem mono (h : c.Resolved params m operand v) (hle : m ≤ n) : c.Resolved params n operand v := by
  obtain ⟨k, hk, hv⟩ := h.computes
  exact ⟨h.arg, h.reached, k, Nat.lt_of_lt_of_le hk hle, hv⟩

end Resolved

theorem WellFormed.resolved (hc : c.WellFormed) (hs : c.Reached s)
    (ho : operand = (c.view s).lhs ∨ operand = (c.view s).rhs) (h : c.Arg operand t)
    (hv : c.Computes params m t v) (hm : m < n) : c.Resolved params n operand v := by
  have hmem := mem_operandsOf.mpr ⟨h.1, ho⟩
  have heq : c.resolve operand = t := hc.resolve_eq (hs.operand_met hmem) h.2
  subst heq
  exact ⟨h, hs.arg ho h, m, hm, hv⟩

/-- The operands of a binary operation that computes a value. -/
theorem WellFormed.bin_operands (hc : c.WellFormed) (hs : c.Reached s)
    (h : c.Computes params n s v) (hk : (c.view s).kind = .bin) :
    ∃ lv rv, c.Resolved params n (c.view s).lhs lv ∧ c.Resolved params n (c.view s).rhs rv ∧
      binValue (c.view s).opcode lv rv = .ok v := by
  cases h with
  | bin _ hl hr hlv hrv hv =>
    exact ⟨_, _, hc.resolved hs (.inl rfl) hl hlv (Nat.lt_succ_self _),
      hc.resolved hs (.inr rfl) hr hrv (Nat.lt_succ_self _), hv⟩
  | const hk' | param hk' | un hk' => exact absurd (hk.symm.trans hk') nofun

-- ---------------------------------------------------------------------------
-- The families
-- ---------------------------------------------------------------------------

/-- The slot gets another definition, behind which stands the same value. -/
def Rewrites (c d : Candidate) (params : List Int64) (slot : Nat) : Prop :=
  ∃ row, d = c.push (.replace slot row) ∧ (c.WellFormed → c.KeepsSlot d params slot)

theorem view_replace_self : (c.push (.replace slot row)).view slot = row := by
  rw [view_replace, if_pos rfl]

section

variable {op : BinOp} {unit : Int64} {x : Nat} {c1 c2 value : Int64} {opcode : Nat}
  {xv yv : Int64}

/-- The unit of an operation, on either side. -/
theorem rewrites_identity (hunit : ∀ x, binValue op.code unit x = .ok x ∧ binValue op.code x unit = .ok x)
    (h : c.identity op unit slot = some d) : c.Rewrites d params slot := by
  unfold identity at h
  dsimp only at h
  split at h
  · next hbin =>
    obtain ⟨hk, hop⟩ := of_decide_eq_true hbin
    split at h
    · next hl =>
      obtain ⟨hlk, hlv⟩ := of_decide_eq_true hl
      cases h
      refine ⟨_, rfl, fun hc n v hs hv hkept => ?_⟩
      obtain ⟨lv, rv, hleft, hright, hvalue⟩ := hc.bin_operands hs hv hk
      rw [hop, hleft.imm hlk, hlv, (hunit rv).1] at hvalue
      cases hvalue
      exact (hright.reads_resolved hc hkept).alias view_replace_self
    · split at h
      · next hr =>
        obtain ⟨hrk, hrv⟩ := of_decide_eq_true hr
        cases h
        refine ⟨_, rfl, fun hc n v hs hv hkept => ?_⟩
        obtain ⟨lv, rv, hleft, hright, hvalue⟩ := hc.bin_operands hs hv hk
        rw [hop, hright.imm hrk, hrv, (hunit lv).2] at hvalue
        cases hvalue
        exact (hleft.reads_resolved hc hkept).alias view_replace_self
      · cases h
  · cases h

theorem rewrites_subSelf (h : c.subSelf slot = some d) : c.Rewrites d params slot := by
  unfold subSelf at h
  split at h
  · next hsub =>
    obtain ⟨hk, hop⟩ := of_decide_eq_true hsub.1
    cases h
    refine ⟨_, rfl, fun hc n v hs hv hkept => ?_⟩
    obtain ⟨lv, rv, hleft, hright, hvalue⟩ := hc.bin_operands hs hv hk
    obtain rfl := hleft.unique hright hsub.2
    have hzero : binValue BinOp.sub.code lv lv = .ok (lv - lv) := rfl
    rw [hop, hzero, Int64.sub_self] at hvalue
    cases hvalue
    exact holds_const view_replace_self
  · cases h

/-- A fold gives the value of the operation. -/
theorem folded_value (h : folded opcode xv yv = some value) : binValue opcode xv yv = .ok value := by
  unfold folded at h
  unfold binValue
  split_ifs at h ⊢
  · rw [CheckedInt.add_eq_some h]
  · rw [CheckedInt.sub_eq_some h]
  · rw [CheckedInt.mul_eq_some h]
  · rw [Option.some.inj h]
  · rw [Option.some.inj h]

theorem rewrites_constFold (h : c.constFold slot = some d) : c.Rewrites d params slot := by
  unfold constFold at h
  dsimp only at h
  split at h
  · next hconst =>
    obtain ⟨hk, hlk, hrk⟩ := hconst
    obtain ⟨value, hfolded, h⟩ := Option.bind_eq_some_iff.mp h
    cases h
    refine ⟨_, rfl, fun hc n v hs hv hkept => ?_⟩
    obtain ⟨lv, rv, hleft, hright, hvalue⟩ := hc.bin_operands hs hv hk
    rw [hleft.imm hlk, hright.imm hrk, folded_value hfolded] at hvalue
    cases hvalue
    exact holds_const view_replace_self
  · cases h

theorem wrapping_max_comm (x y : Int64) : max x y = max y x := by
  change (if x ≤ y then y else x) = if y ≤ x then x else y
  rcases Int64.le_total x y with hle | hle
  · rw [if_pos hle]
    split
    · next hge => exact Int64.le_antisymm hge hle
    · rfl
  · rw [if_pos hle]
    split
    · next hge => exact Int64.le_antisymm hle hge
    · rfl

theorem binValue_comm (h : commutative opcode = true) :
    binValue opcode xv yv = binValue opcode yv xv := by
  rcases of_decide_eq_true h with rfl | rfl | rfl | rfl
  · exact congrArg Except.ok (Int64.add_comm xv yv)
  · exact congrArg Except.ok (Int64.mul_comm xv yv)
  · exact congrArg Except.ok (Std.Commutative.comm xv yv)
  · exact congrArg Except.ok (wrapping_max_comm xv yv)

theorem rewrites_commuteNorm (h : c.commuteNorm slot = some d) : c.Rewrites d params slot := by
  unfold commuteNorm at h
  dsimp only at h
  split at h
  · next hcomm =>
    obtain ⟨hk, hop, -⟩ := hcomm
    cases h
    have hdiffers := fun row => @differs_replace c slot row (by rw [hk]; nofun)
    refine ⟨_, rfl, fun hc n v hs hv hkept => ?_⟩
    obtain ⟨lv, rv, hleft, hright, hvalue⟩ := hc.bin_operands hs hv hk
    rw [binValue_comm hop] at hvalue
    refine @Reads.bin _ params slot v rv lv ?_ ?_ ?_ ?_
    all_goals rw [view_replace_self]
    · exact hk
    · exact hright.reads (hdiffers _) hkept
    · exact hleft.reads (hdiffers _) hkept
    · exact hvalue
  · cases h

/-- The sum at a site of reassociation. -/
theorem WellFormed.reassocSite_value (hc : c.WellFormed) (hs : c.Reached slot)
    (hv : c.Computes params n slot v) (h : c.reassocSite slot = some (x, c1, c2)) :
    ∃ operand xv, c.Resolved params n operand xv ∧ c.resolve operand = x ∧
      v = xv + (c1 + c2) := by
  have hadd : ∀ {xv yv v : Int64}, binValue BinOp.add.code xv yv = .ok v → v = xv + yv :=
    fun h => (Except.ok.inj h).symm
  unfold reassocSite at h
  dsimp only at h
  split at h
  · next hsums =>
    obtain ⟨hk, hop⟩ := of_decide_eq_true hsums.1
    obtain ⟨hlk, hlop⟩ := of_decide_eq_true hsums.2
    obtain ⟨lv, rv, hleft, hright, hvalue⟩ := hc.bin_operands hs hv hk
    obtain ⟨m, hm, hlv⟩ := hleft.computes
    obtain ⟨xv, yv, hx, hy, hinner⟩ := hc.bin_operands hleft.reached hlv hlk
    rw [hop] at hvalue
    rw [hlop] at hinner
    split at h
    · next hconst =>
      cases h
      refine ⟨_, xv, hx.mono (Nat.le_of_lt hm), rfl, ?_⟩
      rw [hadd hvalue, hadd hinner, hy.imm hconst.1, hright.imm hconst.2, Int64.add_assoc]
    · split at h
      · next hconst =>
        cases h
        refine ⟨_, yv, hy.mono (Nat.le_of_lt hm), rfl, ?_⟩
        rw [hadd hvalue, hadd hinner, hx.imm hconst.1, hright.imm hconst.2, Int64.add_comm _ yv,
          Int64.add_assoc]
      · cases h
  · cases h

/-- The constant is appended, and the sum takes it. -/
def reassociated (c : Candidate) (slot x : Nat) (value : Int64) : Candidate :=
  (c.push (.extend (constDef value))).push (.replace slot ⟨.bin, 0, BinOp.add.code, x, c.slots⟩)

theorem extendCount_reassociated :
    (c.reassociated slot x value).extendCount = c.extendCount + 1 :=
  extendCount_replace.trans extendCount_extend

theorem reassocAdd_some (h : c.reassocAdd slot = some d) :
    ∃ x c1 c2 value, c.reassocSite slot = some (x, c1, c2) ∧ CheckedInt.add c1 c2 = some value ∧
      d = c.reassociated slot x value := by
  obtain ⟨⟨x, c1, c2⟩, hsite, h⟩ := Option.bind_eq_some_iff.mp h
  obtain ⟨value, hvalue, h⟩ := Option.bind_eq_some_iff.mp h
  have hword : u32 ((c.push (.extend (constDef value))).slotCount - 1) = c.slots := by
    change u32 (c.base.arena.length + (c.push _).extendCount - 1) = _
    rw [extendCount_extend]
    rfl
  refine ⟨x, c1, c2, value, hsite, hvalue, ?_⟩
  dsimp only at h
  rw [hword] at h
  exact (Option.some.inj h).symm

/-- The new slot is behind all the slots there were. -/
theorem slots_reassociated (hd : (c.reassociated slot x value).InRange) :
    c.InRange ∧ (c.reassociated slot x value).slots = c.slots + 1 := by
  have hslots : (c.reassociated slot x value).slots =
      c.baseLen + (c.reassociated slot x value).extendCount := hd.slots_eq
  have hcount : c.baseLen + (c.reassociated slot x value).extendCount < 0x100000000 := hd
  rw [extendCount_reassociated] at hslots hcount
  have hc : c.InRange := Nat.lt_of_succ_lt hcount
  refine ⟨hc, ?_⟩
  rw [hslots, hc.slots_eq]
  rfl

theorem view_reassociated (hc : c.InRange) (s : Nat) : (c.reassociated slot x value).view s =
    if slot = s then ⟨.bin, 0, BinOp.add.code, x, c.slots⟩
    else if c.slots = s then constDef value else c.view s := by
  rw [reassociated, view_replace, view_extend, hc.slots_eq]

theorem differs_reassociated (hb : c.Bounded) (hd : (c.reassociated slot x value).InRange)
    (h : (c.view slot).kind ≠ .alias) : c.Differs (c.reassociated slot x value) slot := by
  have hc := (slots_reassociated hd).1
  refine ⟨rfl, h, fun s hs hdead => ?_⟩
  rw [view_reassociated hc, if_neg (Ne.symm hs), if_neg]
  rintro rfl
  exact hdead (hb _ (Nat.le_refl _))

theorem keeps_reassociated (hwell : c.WellFormed) (hlt : slot < c.slots)
    (hd : (c.reassociated slot x value).InRange) (hsite : c.reassocSite slot = some (x, c1, c2))
    (hvalue : CheckedInt.add c1 c2 = some value) :
    c.KeepsSlot (c.reassociated slot x value) params slot := by
  intro n v hs hv hkept
  obtain ⟨operand, xv, hx, rfl, rfl⟩ := hwell.reassocSite_value hs hv hsite
  obtain ⟨hc, hslots⟩ := slots_reassociated hd
  have hword := (c.reassociated slot (c.resolve operand) value).slots_lt
  have hview := @view_reassociated c slot (c.resolve operand) value hc
  rw [← CheckedInt.add_eq_some hvalue]
  refine @Reads.bin _ params slot _ xv value ?_ ?_ ?_ ?_
  all_goals rw [hview, if_pos rfl]
  · exact hx.reads_resolved hwell hkept
  · refine ⟨?_, holds_const ?_⟩
    · change c.slots ≠ 0xFFFFFFFF
      omega
    · rw [hview, if_neg (Nat.ne_of_lt hlt), if_pos rfl]
  · rfl

theorem Bounded.reassociated (hb : c.Bounded) (hlt : slot < c.slots)
    (hd : (c.reassociated slot x value).InRange) : (c.reassociated slot x value).Bounded := by
  obtain ⟨hc, hslots⟩ := slots_reassociated hd
  intro s hs
  rw [hslots] at hs
  have hle : c.slots ≤ s := Nat.le_of_succ_le hs
  rw [view_reassociated hc, if_neg (Nat.ne_of_lt (Nat.lt_of_lt_of_le hlt hle)),
    if_neg (Nat.ne_of_lt hs)]
  exact hb s hle

end

-- ---------------------------------------------------------------------------
-- The scans
-- ---------------------------------------------------------------------------

theorem follow_ne (h : s ≠ NO_OPERAND) : c.follow fuel s ≠ NO_OPERAND := by
  induction fuel generalizing s with
  | zero => exact h
  | succ fuel ih =>
    unfold follow
    split
    · split
      · exact h
      · next hne => exact ih hne
    · exact h

/-- Where the walk comes to a slot that is no alias, the chain ends there. -/
theorem ends_of_follow (h : c.follow fuel s = t) (ht : (c.view t).kind ≠ .alias) : c.Ends s t := by
  induction fuel generalizing s with
  | zero =>
    cases h
    exact .here ht
  | succ fuel ih =>
    unfold follow at h
    split at h
    · next halias =>
      split at h
      · cases h
        exact absurd halias ht
      · next hne => exact .hop halias hne (ih h)
    · cases h
      exact .here ht

theorem resolveOperand_eq_none (h : c.resolveOperand operand = NO_OPERAND) :
    operand = NO_OPERAND := by
  unfold resolveOperand at h
  split at h
  · next hnone => exact hnone
  · next hne => exact absurd h (follow_ne hne)

theorem rel_of_mem_zip_tail {α : Type} {R : α → α → Prop} {l : List α} {a b : α}
    (hl : l.Pairwise R) (h : (a, b) ∈ l.zip l.tail) : R a b := by
  induction l with
  | nil => cases h
  | cons x l ih =>
    cases hl with
    | cons hx hl =>
      cases l with
      | nil => cases h
      | cons y l =>
        rcases List.mem_cons.mp h with heq | h
        · cases heq
          exact hx _ (List.mem_cons_self ..)
        · exact ih hl h

theorem mem_twins {a : Twin} (h : a ∈ c.twins) : a.slot ∈ c.liveSlots ∧ a = c.twinOf a.slot := by
  obtain ⟨s, hs, rfl⟩ := List.mem_map.mp (List.mem_mergeSort.mp h)
  exact ⟨hs, rfl⟩

theorem twins_nodup : c.twins.Nodup := by
  have hslots : c.liveSlots.Nodup := List.nodup_range.filter _
  refine (List.mergeSort_perm _ _).nodup_iff.mpr (hslots.map ?_)
  exact fun a b hab => congrArg Twin.slot hab

theorem kind_of_code {k k' : Kind} (h : k.code = k'.code) : k = k' := by
  cases k <;> cases k' <;> first | rfl | cases h

/-- A slot with the resolved definition of another computes its value. -/
theorem Computes.twin (hc : c.WellFormed) (hs : c.Reached s) (hv : c.Computes params n s v)
    (hd : c.Differs d s) (hkept : c.KeptBelow d params n) (hsame : d.view t = c.view t)
    (hkey : (c.twinOf t).key = (c.twinOf s).key) : d.Holds params t v := by
  simp only [twinOf, Twin.key, Prod.mk.injEq] at hkey
  obtain ⟨hkind, hopcode, himm, hl, hr⟩ := hkey
  have hnone : ∀ {o o' : Nat}, c.resolveOperand o = c.resolveOperand o' → o' = NO_OPERAND →
      o = NO_OPERAND := by
    rintro o o' heq rfl
    exact resolveOperand_eq_none (heq.trans (if_pos rfl))
  have hoperand : ∀ {o o' : Nat}, c.resolveOperand o = c.resolveOperand o' →
      o' = (c.view s).lhs ∨ o' = (c.view s).rhs →
      ∀ x m w, c.Arg o' x → m < n → c.Computes params m x w → d.Reads params o w := by
    intro o o' heq ho x m w hx hm hw
    have hresolved := hc.resolved hs ho hx hw hm
    have hne : o ≠ NO_OPERAND := by
      rintro rfl
      exact hx.1 (resolveOperand_eq_none (heq.symm.trans (if_pos rfl)))
    rw [resolveOperand, resolveOperand, if_neg hne, if_neg hx.1] at heq
    have hends : c.Ends o (c.resolve o') := ends_of_follow heq hresolved.arg.2.not_alias
    exact hd.reads ⟨hne, hends⟩ (hresolved.holds hkept)
  refine hv.copy (by rw [hsame]; exact kind_of_code hkind) (by rw [hsame, himm])
    (by rw [hsame, hopcode]) ?_ ?_ ?_ ?_
  all_goals rw [hsame]
  · exact hoperand hl (.inl rfl)
  · exact hoperand hr (.inr rfl)
  · exact hnone hl
  · exact hnone hr

theorem rewrites_cse (h : c.cse = some d) : ∃ slot ∈ c.liveSlots, c.Rewrites d params slot := by
  obtain ⟨⟨a, b⟩, hfind, h⟩ := Option.bind_eq_some_iff.mp h
  cases h
  have hfound := List.find?_some hfind
  have hkey : a.key = b.key := of_decide_eq_true hfound
  have hmem := List.mem_of_find?_eq_some hfind
  have hne := rel_of_mem_zip_tail twins_nodup hmem
  obtain ⟨hmema, hmemb⟩ := List.of_mem_zip hmem
  obtain ⟨halive, ha⟩ := mem_twins hmema
  obtain ⟨hblive, hb'⟩ := mem_twins (List.mem_of_mem_tail hmemb)
  have hslots : a.slot ≠ b.slot := fun heq => hne (by rw [ha, hb', heq])
  rw [ha, hb'] at hkey
  refine ⟨b.slot, hblive, _, rfl, fun hc n v hs hv hkept => ?_⟩
  have hdiffers := @differs_replace c b.slot (aliasDef a.slot) (mem_liveSlots.mp hblive).2.2
  have hsame : (c.push (.replace b.slot (aliasDef a.slot))).view a.slot = c.view a.slot := by
    rw [view_replace, if_neg (Ne.symm hslots)]
  have hholds := Computes.twin hc hs hv hdiffers hkept hsame hkey
  have hword : a.slot ≠ NO_OPERAND := by
    have hlt := (mem_liveSlots.mp halive).1
    have hslots := c.slots_lt
    rw [NO_OPERAND]
    omega
  exact Reads.alias ⟨hword, hholds⟩ view_replace_self

theorem rewrites_dce (h : c.dce = some d) : ∃ slot ∈ c.liveSlots, c.Rewrites d params slot := by
  obtain ⟨s, hfind, h⟩ := Option.bind_eq_some_iff.mp h
  cases h
  have hfound := List.find?_some hfind
  obtain ⟨hreach, hlive⟩ := of_decide_eq_true hfound
  have hlt := List.mem_range.mp (List.mem_of_find?_eq_some hfind)
  refine ⟨s, mem_liveSlots.mpr ⟨hlt, hlive⟩, _, rfl, fun hc n v hs _ _ => ?_⟩
  rw [hc.reachable_iff.mpr hs] at hreach
  cases hreach

-- ---------------------------------------------------------------------------
-- A mutation, and any run of them
-- ---------------------------------------------------------------------------

/-- The root computes the value, with nothing behind the slots. -/
structure Means (c : Candidate) (params : List Int64) (v : Int64) : Prop where
  holds : c.Holds params c.root v
  bounded : c.Bounded

theorem Means.rewritten (h : c.Means params v) (hlive : slot ∈ c.liveSlots)
    (hd : c.Rewrites d params slot) : d.Means params v := by
  obtain ⟨row, rfl, hkeeps⟩ := hd
  obtain ⟨hlt, -, halias⟩ := mem_liveSlots.mp hlive
  have hkeeps := hkeeps (h.holds.wellFormed h.bounded)
  exact ⟨(differs_replace halias).holds_root hkeeps h.holds, h.bounded.replace hlt⟩

theorem Means.reassociated (h : c.Means params v) (hlive : slot ∈ c.liveSlots) (hd : d.InRange)
    (happly : c.reassocAdd slot = some d) : d.Means params v := by
  obtain ⟨x, c1, c2, value, hsite, hvalue, rfl⟩ := reassocAdd_some happly
  obtain ⟨hlt, -, halias⟩ := mem_liveSlots.mp hlive
  have hdiffers := differs_reassociated h.bounded hd halias
  have hkeeps : c.KeepsSlot _ params slot :=
    keeps_reassociated (h.holds.wellFormed h.bounded) hlt hd hsite hvalue
  exact ⟨hdiffers.holds_root hkeeps h.holds, h.bounded.reassociated hlt hd⟩

variable {family : MutationFamily} {rng : Rng}

theorem mem_of_randomLiveSlot (h : (c.randomLiveSlot rng).1 = some slot) : slot ∈ c.liveSlots := by
  unfold randomLiveSlot at h
  split at h
  · cases h
  · exact List.mem_of_getElem? h

theorem add_unit (x : Int64) : binValue BinOp.add.code 0 x = .ok x ∧
    binValue BinOp.add.code x 0 = .ok x :=
  ⟨congrArg Except.ok (Int64.zero_add x), congrArg Except.ok (Int64.add_zero x)⟩

theorem mul_unit (x : Int64) : binValue BinOp.mul.code 1 x = .ok x ∧
    binValue BinOp.mul.code x 1 = .ok x :=
  ⟨congrArg Except.ok (Int64.one_mul x), congrArg Except.ok (Int64.mul_one x)⟩

/-- All families but one only replace a slot. -/
theorem apply_some (h : (c.apply family rng).1 = some d) : ∃ slot ∈ c.liveSlots,
    c.Rewrites d params slot ∨ c.reassocAdd slot = some d := by
  have hscan : (∃ slot ∈ c.liveSlots, c.Rewrites d params slot) → ∃ slot ∈ c.liveSlots,
      c.Rewrites d params slot ∨ c.reassocAdd slot = some d := by
    rintro ⟨slot, hlive, hd⟩
    exact ⟨slot, hlive, .inl hd⟩
  cases family with
  | cse => exact hscan (rewrites_cse h)
  | dce => exact hscan (rewrites_dce h)
  | identityAdd | identityMul | subSelf | constFold | commuteNorm | reassocAdd =>
    obtain ⟨slot, hslot, h⟩ := Option.bind_eq_some_iff.mp h
    refine ⟨slot, mem_of_randomLiveSlot hslot, ?_⟩
    first
    | exact .inl (rewrites_identity add_unit h)
    | exact .inl (rewrites_identity mul_unit h)
    | exact .inl (rewrites_subSelf h)
    | exact .inl (rewrites_constFold h)
    | exact .inl (rewrites_commuteNorm h)
    | exact .inr h

/-- A mutation keeps the meaning. -/
theorem Means.apply (h : c.Means params v) (hd : d.InRange)
    (happly : (c.apply family rng).1 = some d) : d.Means params v := by
  obtain ⟨slot, hlive, hd' | hd'⟩ := @apply_some c d params family rng happly
  · exact h.rewritten hlive hd'
  · exact h.reassociated hlive hd hd'

/-- Mutations append to the overlays, and at most one node. -/
theorem apply_grows (happly : (c.apply family rng).1 = some d) :
    d.base = c.base ∧ c.extendCount ≤ d.extendCount ∧ d.extendCount ≤ c.extendCount + 1 := by
  obtain ⟨slot, -, ⟨row, rfl, -⟩ | hd⟩ := @apply_some c d [] family rng happly
  · rw [extendCount_replace]
    exact ⟨rfl, Nat.le_refl _, Nat.le_succ _⟩
  · obtain ⟨_, _, _, _, -, -, rfl⟩ := reassocAdd_some hd
    rw [extendCount_reassociated]
    exact ⟨rfl, Nat.le_succ _, Nat.le_refl _⟩

theorem InRange.of_apply (hd : d.InRange) (happly : (c.apply family rng).1 = some d) :
    c.InRange := by
  obtain ⟨hbase, hle, -⟩ := apply_grows happly
  have hlen : d.baseLen = c.baseLen := congrArg (fun p : Program => u32 p.arena.length) hbase
  rw [InRange, hlen] at hd
  exact Nat.lt_of_le_of_lt (Nat.add_le_add_left hle _) hd

/-- The slots have numbers, and not all that there can be are reached. -/
def Fits (c : Candidate) : Prop := c.InRange ∧ ∃ s < 0xFFFFFFFF, ¬ c.Reached s

end Candidate

section

variable {p : Program} {c d : Candidate} {params : List Int64} {v : Int64} {k : Nat}

/-- So does any run of mutations. -/
theorem Derived.means (h : Derived p c) (hp : p.Built) (hv : p.evaluate params = .ok v)
    (hc : c.InRange) : c.Means params v := by
  induction h with
  | start => exact ⟨Candidate.holds_fromProgram hp hv, Candidate.bounded_fromProgram p⟩
  | apply family rng _ happly ih => exact (ih (hc.of_apply happly)).apply hc happly

theorem Derived.materialize (h : Derived p c) (hp : p.Built) (hv : p.evaluate params = .ok v)
    (hc : c.Fits) : c.materialize.evaluate params = .ok v := by
  have hmeans := h.means hp hv hc.1
  exact hmeans.holds.materialize hmeans.bounded hc.2

theorem Derived.base (h : Derived p c) : c.base = p := by
  induction h with
  | start => rfl
  | apply family rng _ happly ih => exact (Candidate.apply_grows happly).1.trans ih

-- ---------------------------------------------------------------------------
-- What a search draws
-- ---------------------------------------------------------------------------

/-- Mutations made it of the program, and appended so many nodes at most. -/
structure Drawn (p : Program) (k : Nat) (c : Candidate) : Prop where
  derived : Derived p c
  appended : c.extendCount ≤ k

theorem Drawn.mono {n : Nat} (h : Drawn p k c) (hle : k ≤ n) : Drawn p n c :=
  ⟨h.derived, h.appended.trans hle⟩

/-- A built program that leaves room for the nodes fits with them. -/
theorem Drawn.fits (h : Drawn p k c) (hp : p.Built) (hv : p.evaluate params = .ok v)
    (hroom : u32 p.arena.length + k < 0xFFFFFFFF) : c.Fits := by
  have hlen : c.baseLen = u32 p.arena.length :=
    congrArg (fun p : Program => u32 p.arena.length) h.derived.base
  have happended := h.appended
  have hc : c.InRange := by
    rw [Candidate.InRange, hlen]
    omega
  have hmeans := h.derived.means hp hv hc
  refine ⟨hc, 0xFFFFFFFE, by decide, fun hreached => ?_⟩
  have hlt := (hmeans.holds.wellFormed hmeans.bounded).inRange _ hreached.met_not_alias.1
  rw [hc.slots_eq, hlen] at hlt
  omega

namespace Chain

variable {libm : Libm} {band : Band} {s : Chain} {child : Candidate}

/-- The candidates that a chain holds are drawn. -/
structure Within (p : Program) (k : Nat) (s : Chain) : Prop where
  current : Drawn p k s.current
  elite : Drawn p k s.result.elite

theorem Within.move (h : Within p k s) (hchild : Drawn p k child) : Within p k (s.move child) := by
  unfold Chain.move
  dsimp only
  split
  · exact ⟨hchild, hchild⟩
  · exact ⟨hchild, h.elite⟩

theorem Within.filter (h : Within p k s) (hchild : Drawn p k child) :
    Within p k (Chain.filter libm band s child) := by
  unfold Chain.filter
  dsimp only
  split
  · exact ⟨h.current, h.elite⟩
  · split
    · exact ⟨h.current, h.elite⟩
    · unfold Chain.weigh
      dsimp only
      split
      · exact Within.move ⟨h.current, h.elite⟩ hchild
      · exact ⟨h.current, h.elite⟩

theorem Within.iteration (h : Within p k s) : Within p (k + 1) (Chain.iteration libm band s) := by
  have hnext : Within p (k + 1) s :=
    ⟨h.current.mono (Nat.le_succ k), h.elite.mono (Nat.le_succ k)⟩
  rcases hdraw : draw s.current s.rng with ⟨child | child, next⟩
  · rw [iteration_none hdraw]
    exact ⟨hnext.current, hnext.elite⟩
  · rw [iteration_some hdraw]
    have happly := congrArg Prod.fst hdraw
    refine Within.filter ⟨hnext.current, hnext.elite⟩ ⟨h.current.derived.apply _ _ happly, ?_⟩
    exact (Candidate.apply_grows happly).2.2.trans (Nat.succ_le_succ h.current.appended)

theorem Within.iterations (h : Within p k s) (count : Nat) :
    Within p (k + count) (Chain.iterations libm band count s) := by
  induction count generalizing k s with
  | zero => exact h
  | succ count ih =>
    rw [iterations_succ, ← Nat.succ_add_eq_add_succ]
    exact ih h.iteration

end Chain

/-- What a search returns is drawn within the iterations of a band. -/
theorem drawn_of_searched {libm : Libm} {inRegion : Bool} {pool : Pool} {workers : Nat}
    {o : SearchOutcome} (h : Searched libm inRegion pool p workers o) :
    Drawn p ITERS_PER_BAND o.best := by
  have hseed : ∀ k, Drawn p k (.fromProgram p) := fun k => ⟨.start, Nat.zero_le k⟩
  obtain ⟨results, rfl, hall⟩ := searched_outcome h
  refine merged (P := fun r => Drawn p ITERS_PER_BAND r.elite) (hseed _) fun r hr => ?_
  obtain ⟨band, count, hcount, rfl⟩ := hall r hr
  have hstart : Chain.Within p 0 (.start (.fromProgram p) band) := ⟨hseed 0, hseed 0⟩
  have hwithin := @Chain.Within.iterations p 0 libm band _ hstart count
  rw [Nat.zero_add] at hwithin
  exact hwithin.elite.mono hcount

end

/-- The candidates that mutations make of a program that evaluates materialize,
where they fit, to programs of the same value. A search returns one of them,
which fits where there is room for the nodes of a band's iterations. -/
theorem values_kept (p : Program) (hp : p.Built) (params : List Int64) (v : Int64)
    (hv : p.evaluate params = .ok v) :
    (∀ c, Derived p c → c.Fits → c.materialize.evaluate params = .ok v) ∧
    (∀ libm inRegion pool workers o, Searched libm inRegion pool p workers o → o.best.Fits →
      o.best.materialize.evaluate params = .ok v) ∧
    (u32 p.arena.length + ITERS_PER_BAND < 0xFFFFFFFF →
      (∀ libm inRegion pool workers o, Searched libm inRegion pool p workers o →
        o.best.materialize.evaluate params = .ok v) ∧
      ∀ libm inRegion pool workers q, Optimized libm inRegion pool workers p q →
        q.evaluate params = .ok v) := by
  have hderived : ∀ c, Derived p c → c.Fits → c.materialize.evaluate params = .ok v :=
    fun c hc hfits => hc.materialize hp hv hfits
  refine ⟨hderived, ?_, fun hroom => ?_⟩
  · intro libm inRegion pool workers o ho hfits
    exact hderived _ (drawn_of_searched ho).derived hfits
  · have hsearched : ∀ libm inRegion pool workers o, Searched libm inRegion pool p workers o →
        o.best.materialize.evaluate params = .ok v := by
      intro libm inRegion pool workers o ho
      have hdrawn := drawn_of_searched ho
      exact hderived _ hdrawn.derived (hdrawn.fits hp hv hroom)
    refine ⟨hsearched, ?_⟩
    rintro libm inRegion pool workers q ⟨ho⟩
    exact hsearched _ _ _ _ _ ho

/-- The reassociated sum, and whatever `optimize` makes of it. -/
theorem values_kept_negatedSum : negatedConst.materialize.evaluate [] = .ok 12 ∧
    ∀ q, Optimized .absent false oneHelper 2 negatedSum q → q.evaluate [] = .ok 12 := by
  have hvalue : negatedSum.evaluate [] = .ok 12 := rfl
  obtain ⟨hderived, -, hroom⟩ := values_kept negatedSum negatedSum_built [] 12 hvalue
  have hdrawn : Drawn negatedSum 1 negatedConst := ⟨negatedConst_derived, by decide⟩
  have hfits := hdrawn.fits negatedSum_built hvalue (by decide)
  exact ⟨hderived _ negatedConst_derived hfits, (hroom (by decide)).2 _ _ _ _⟩

-- ---------------------------------------------------------------------------
-- A chain that loses its root
-- ---------------------------------------------------------------------------

/-- One, and each row after it the difference of the row before and itself. -/
def difference : Nat → NodeDef
  | 0 => constDef 1
  | slot + 1 => ⟨.bin, 0, BinOp.sub.code, slot, slot⟩

theorem difference_chained : Chained difference where
  appended := by
    intro i hi
    cases i with
    | zero => exact .inl rfl
    | succ i =>
      have hlt := Nat.lt_succ_self i
      exact .inr (.inr (.inl ⟨rfl, rfl, hlt, hlt, hi, hi⟩))
  takes := fun i hi => Candidate.mem_operandsOf.mpr ⟨Nat.ne_of_lt hi, .inl rfl⟩

/-- The differences are zero. -/
theorem difference_valued {n : Nat} (hpos : 0 < n) (hn : n < 0x100000000) :
    (chain difference n).Valued [] fun i => if i = 0 then 1 else 0 := by
  have hword : u32 (chain difference n).arena.length = n := by
    rw [chain, List.length_map, List.length_range]
    exact Nat.mod_eq_of_lt hn
  refine ⟨fun i d hi hd => ?_, ?_⟩
  · rw [hword] at hi
    cases Option.some.inj ((Chained.getElem?_chain hi).symm.trans hd)
    cases i with
    | zero => exact .const rfl rfl
    | succ i =>
      have hlt := Nat.lt_succ_self i
      refine .bin rfl hlt hlt ?_
      exact congrArg Except.ok (Int64.sub_self _)
  · rw [hword]
    exact Nat.sub_lt hpos Nat.one_pos

/-- With `2^32 - 1` slots reached, the first row is left as the root. -/
theorem difference_lost {n : Nat} (hn : n = 0xFFFFFFFF) :
    (Candidate.fromProgram (chain difference n)).materialize.evaluate [] = .ok 1 := by
  have hpos : 0 < n := by omega
  have hlt : n < 0x100000000 := by omega
  have hbuilt := difference_chained.built hpos hlt
  have hvalued := difference_valued hpos hlt
  have hslots : u32 (chain difference n).arena.length = n := Chained.slots_eq hlt
  have hall : ∀ s < 0xFFFFFFFF, (Candidate.fromProgram (chain difference n)).Reached s :=
    fun s hs => difference_chained.reached hlt (hn ▸ hs)
  obtain ⟨s, hreached, hleaf, hvalue⟩ :=
    (Candidate.holds_fromProgram hbuilt hvalued.evaluate).materialize_lost
      (Candidate.bounded_fromProgram _) hall
  have hs := difference_chained.met_lt hpos hlt hreached.met_not_alias.1
  have hcomputes := Candidate.computes_fromProgram hbuilt hvalued (hslots.symm ▸ hs)
  rw [hvalue, hcomputes.valueOf_eq]
  cases s with
  | zero => rfl
  | succ s => exact absurd (difference_chained.needs hlt hs) (hleaf s)

/-- So the last of `2^32 - 1` rows, which is zero, comes out as one. -/
theorem value_lost : ¬ ∀ p c params v, p.Built → Derived p c → p.evaluate params = .ok v →
    c.materialize.evaluate params = .ok v := by
  intro hall
  obtain ⟨n, hn⟩ : ∃ n, n = 0xFFFFFFFF := ⟨_, rfl⟩
  have hpos : 0 < n := by omega
  have hlt : n < 0x100000000 := by omega
  have hkept := hall _ _ [] _ (difference_chained.built hpos hlt) .start
    (difference_valued hpos hlt).evaluate
  rw [difference_lost hn] at hkept
  have hroot : (chain difference n).root ≠ 0 := by
    change n - 1 ≠ 0
    omega
  rw [if_neg hroot] at hkept
  exact absurd (Except.ok.inj hkept) (by decide)

end Sxla.Mss
