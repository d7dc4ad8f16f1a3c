import Mathlib
import Sxla.Mss.Search

/-!
# The cost of a candidate and its critical path

The weighing visits the slots in their order, and knows the depth of an
operand only where its slot comes before its user's. Mutations append
constants behind the slots that use them, so what it reports is the heaviest
of the paths that go down in the slots.
-/

namespace Sxla.Mss

/-- What mutations make of a program. -/
inductive Derived (p : Program) : Candidate → Prop
  | start : Derived p (.fromProgram p)
  | apply {c d : Candidate} (family : MutationFamily) (rng : Rng) (h : Derived p c)
      (happly : (c.apply family rng).1 = some d) : Derived p d

namespace Candidate

variable (c : Candidate)

-- ---------------------------------------------------------------------------
-- The graph of the live slots
-- ---------------------------------------------------------------------------

/-- The live slot `t` is an operand of `s`, with aliases resolved. -/
def Uses (s t : Nat) : Prop :=
  t ∈ c.liveSlots ∧ t ∈ c.operandTarget (c.view s).lhs ++ c.operandTarget (c.view s).rhs

instance (s t : Nat) : Decidable (c.Uses s t) := inferInstanceAs (Decidable (_ ∧ _))

def weight (s : Nat) : Nat := nodeWeight (c.view s).kind (c.view s).opcode

/-- From users to operands. -/
structure IsPath (path : List Nat) : Prop where
  live : ∀ s ∈ path, s ∈ c.liveSlots
  uses : path.IsChain c.Uses

def pathWeight (path : List Nat) : Nat := (path.map c.weight).sum

/-- Every operand comes before its user. -/
def Descending (path : List Nat) : Prop := path.IsChain fun s t => t < s

variable {c} {s : Weighing} {k slot t operand : Nat} {path : List Nat} {depths : List Nat}

theorem mem_liveSlots : slot ∈ c.liveSlots ↔
    slot < c.slots ∧ (c.view slot).kind ≠ .dead ∧ (c.view slot).kind ≠ .alias := by
  rw [liveSlots, List.mem_filter, List.mem_range, decide_eq_true_eq]

theorem weight_le (slot : Nat) : c.weight slot ≤ 3 := by
  unfold weight nodeWeight
  cases (c.view slot).kind with
  | un =>
    dsimp only
    split <;> decide
  | bin =>
    dsimp only
    split <;> decide
  | const | param => exact (by decide : 1 ≤ 3)
  | _ => exact Nat.zero_le _

theorem slots_lt : c.slots < 0x100000000 := Nat.mod_lt _ (by decide)

theorem isPath_cons_cons : c.IsPath (slot :: t :: path) ↔
    slot ∈ c.liveSlots ∧ c.Uses slot t ∧ c.IsPath (t :: path) := by
  constructor
  · rintro ⟨hlive, huses⟩
    rw [List.isChain_cons_cons] at huses
    exact ⟨hlive slot (List.mem_cons_self ..), huses.1,
      fun s hs => hlive s (List.mem_cons_of_mem _ hs), huses.2⟩
  · rintro ⟨hslot, huse, hlive, huses⟩
    refine ⟨?_, List.isChain_cons_cons.mpr ⟨huse, huses⟩⟩
    intro s hs
    rcases List.mem_cons.mp hs with rfl | hs
    · exact hslot
    · exact hlive s hs

theorem descending_cons_cons : Descending (slot :: t :: path) ↔ t < slot ∧ Descending (t :: path) :=
  List.isChain_cons_cons

theorem isPath_singleton (h : slot ∈ c.liveSlots) : c.IsPath [slot] := by
  refine ⟨fun s hs => ?_, List.isChain_singleton _⟩
  rw [List.mem_singleton.mp hs]
  exact h

theorem pathWeight_cons : c.pathWeight (slot :: path) = c.weight slot + c.pathWeight path := by
  rw [pathWeight, List.map_cons, List.sum_cons, pathWeight]

-- ---------------------------------------------------------------------------
-- What the weighing knows
-- ---------------------------------------------------------------------------

def liveBelow (c : Candidate) (k : Nat) : List Nat :=
  (List.range k).filter fun s => (c.view s).kind ≠ .dead ∧ (c.view s).kind ≠ .alias

/-- The depth of a slot is the weight of the heaviest descending path from it,
and 0 for the slots that have not been visited and those that are not live. -/
structure Weighed (c : Candidate) (k : Nat) (s : Weighing) : Prop where
  length : s.depths.length = c.slots
  unseen : ∀ t, k ≤ t → s.depths.getD t 0 = 0
  dead : ∀ t, t ∉ c.liveSlots → s.depths.getD t 0 = 0
  bound : ∀ t, s.depths.getD t 0 ≤ 3 * (t + 1)
  attained : ∀ t < k, t ∈ c.liveSlots → ∃ path, c.IsPath (t :: path) ∧ Descending (t :: path) ∧
    c.pathWeight (t :: path) = s.depths.getD t 0
  upper : ∀ t < k, ∀ path, c.IsPath (t :: path) → Descending (t :: path) →
    c.pathWeight (t :: path) ≤ s.depths.getD t 0
  total : s.cost.total = ((c.liveBelow k).map c.weight).sum
  depth : ∀ t, s.depths.getD t 0 ≤ s.cost.depth
  deepest : s.cost.depth = 0 ∨ ∃ t < k, t ∈ c.liveSlots ∧ s.depths.getD t 0 = s.cost.depth

theorem operandDepth_of_mem (h : t ∈ c.operandTarget operand) :
    c.operandDepth depths operand = depths.getD t 0 := by
  unfold operandTarget at h
  unfold operandDepth
  split at h
  · cases h
  · next hne =>
    rw [if_neg hne, List.mem_singleton.mp h]

theorem exists_of_operandDepth (h : c.operandDepth depths operand ≠ 0) :
    ∃ t ∈ c.operandTarget operand, depths.getD t 0 = c.operandDepth depths operand := by
  unfold operandDepth at h ⊢
  unfold operandTarget
  split at h
  · exact absurd rfl h
  · next hne =>
    rw [if_neg hne, if_neg hne]
    exact ⟨_, List.mem_singleton.mpr rfl, rfl⟩

theorem getD_set (depths : List Nat) (hk : k < depths.length) (d t : Nat) :
    (depths.set k d).getD t 0 = if t = k then d else depths.getD t 0 := by
  rw [List.getD_eq_getElem?_getD, List.getD_eq_getElem?_getD]
  by_cases ht : t = k
  · rw [if_pos ht, ht, List.getElem?_set_self hk]
    rfl
  · rw [if_neg ht, List.getElem?_set_ne (Ne.symm ht)]

theorem liveBelow_succ (k : Nat) : c.liveBelow (k + 1) =
    c.liveBelow k ++ if (c.view k).kind ≠ .dead ∧ (c.view k).kind ≠ .alias then [k] else [] := by
  rw [liveBelow, List.range_succ, List.filter_append, liveBelow]
  by_cases h : (c.view k).kind ≠ .dead ∧ (c.view k).kind ≠ .alias
  · rw [if_pos h, List.filter_cons_of_pos (by simpa using h), List.filter_nil]
  · rw [if_neg h, List.filter_cons_of_neg (by simpa using h), List.filter_nil]

theorem sum_weights_le (l : List Nat) : (l.map c.weight).sum ≤ 3 * l.length := by
  induction l with
  | nil => exact Nat.le_refl _
  | cons slot l ih =>
    have hw := c.weight_le slot
    rw [List.map_cons, List.sum_cons, List.length_cons]
    omega

namespace Weighed

theorem start (c : Candidate) : Weighed c 0 ⟨List.replicate c.slots 0, ⟨0, 0⟩⟩ := by
  have hzero : ∀ t, (List.replicate c.slots 0).getD t 0 = 0 := by
    intro t
    rw [List.getD_eq_getElem?_getD, List.getElem?_replicate]
    split <;> rfl
  refine ⟨List.length_replicate, fun t _ => hzero t, fun t _ => hzero t, fun t => ?_, ?_, ?_, rfl,
    fun t => (hzero t).le, .inl rfl⟩
  · rw [hzero]
    exact Nat.zero_le _
  · exact fun t ht => absurd ht (Nat.not_lt_zero t)
  · exact fun t ht => absurd ht (Nat.not_lt_zero t)

/-- A slot that holds nothing to weigh. -/
theorem skip (hs : Weighed c k s) (hk : k ∉ c.liveSlots) (hlt : k < c.slots) : Weighed c (k + 1) s := by
  have hdead : ¬ ((c.view k).kind ≠ .dead ∧ (c.view k).kind ≠ .alias) := fun h =>
    hk (mem_liveSlots.mpr ⟨hlt, h⟩)
  have hbelow : ∀ t < k + 1, t ∈ c.liveSlots → t < k := by
    intro t ht hlive
    rcases Nat.lt_succ_iff_lt_or_eq.mp ht with ht | rfl
    · exact ht
    · exact absurd hlive hk
  refine ⟨hs.length, fun t ht => hs.unseen t (Nat.le_of_succ_le ht), hs.dead, hs.bound, ?_, ?_, ?_,
    hs.depth, hs.deepest.imp_right ?_⟩
  · exact fun t ht hlive => hs.attained t (hbelow t ht hlive) hlive
  · intro t ht path hpath hdesc
    exact hs.upper t (hbelow t ht (hpath.live t (List.mem_cons_self ..))) path hpath hdesc
  · rw [liveBelow_succ, if_neg hdead, List.append_nil]
    exact hs.total
  · rintro ⟨t, ht, hlive, hdepth⟩
    exact ⟨t, Nat.lt_succ_of_lt ht, hlive, hdepth⟩

/-- What an operand counts for is at most the bound of the slots visited. -/
theorem operandDepth_le (hs : Weighed c k s) (operand : Nat) :
    c.operandDepth s.depths operand ≤ 3 * k := by
  unfold operandDepth
  split
  · exact Nat.zero_le _
  · by_cases hlt : c.resolve operand < k
    · exact (hs.bound _).trans (by omega)
    · rw [hs.unseen _ (Nat.le_of_not_lt hlt)]
      exact Nat.zero_le _

/-- The depth of a slot, from those of its operands. -/
def slotDepth (c : Candidate) (s : Weighing) (k : Nat) : Nat :=
  c.weight k + max (c.operandDepth s.depths (c.view k).lhs) (c.operandDepth s.depths (c.view k).rhs)

theorem slotDepth_le (hs : Weighed c k s) : slotDepth c s k ≤ 3 * (k + 1) := by
  have hw := c.weight_le k
  have hl := hs.operandDepth_le (c.view k).lhs
  have hr := hs.operandDepth_le (c.view k).rhs
  rw [slotDepth]
  omega

/-- Nothing saturates. -/
theorem weighSlot_eq (hs : Weighed c k s) (hk : k ∈ c.liveSlots) : c.weighSlot s k =
    ⟨s.depths.set k (slotDepth c s k),
      ⟨s.cost.total + c.weight k, max s.cost.depth (slotDepth c s k)⟩⟩ := by
  obtain ⟨hlt, hdead, halias⟩ := mem_liveSlots.mp hk
  have hslots := c.slots_lt
  have htotal : s.cost.total ≤ 3 * k := by
    have hlen : (c.liveBelow k).length ≤ k :=
      (List.length_filter_le ..).trans List.length_range.le
    rw [hs.total]
    exact (sum_weights_le _).trans (by omega)
  have hw := c.weight_le k
  have hd := hs.slotDepth_le
  have hsum : Saturating.add s.cost.total (c.weight k) = s.cost.total + c.weight k := by
    rw [Saturating.add, Saturating.u64Max]
    omega
  have hdepth : Saturating.add (c.weight k) (max (c.operandDepth s.depths (c.view k).lhs)
      (c.operandDepth s.depths (c.view k).rhs)) = slotDepth c s k := by
    rw [slotDepth] at hd ⊢
    rw [Saturating.add, Saturating.u64Max]
    omega
  unfold weighSlot
  dsimp only
  rw [if_neg (not_or.mpr ⟨hdead, halias⟩)]
  rw [weight] at hsum hdepth ⊢
  rw [hsum, hdepth]

/-- The heaviest path from a slot starts with the heaviest of its operands. -/
theorem slotDepth_attained (hs : Weighed c k s) (hk : k ∈ c.liveSlots) :
    ∃ path, c.IsPath (k :: path) ∧ Descending (k :: path) ∧
      c.pathWeight (k :: path) = slotDepth c s k := by
  by_cases hzero : max (c.operandDepth s.depths (c.view k).lhs)
      (c.operandDepth s.depths (c.view k).rhs) = 0
  · refine ⟨[], isPath_singleton hk, List.isChain_singleton _, ?_⟩
    rw [slotDepth, hzero, pathWeight_cons]
    rfl
  · have hbest : ∃ t ∈ c.operandTarget (c.view k).lhs ++ c.operandTarget (c.view k).rhs,
        s.depths.getD t 0 = max (c.operandDepth s.depths (c.view k).lhs)
          (c.operandDepth s.depths (c.view k).rhs) := by
      rcases max_choice (c.operandDepth s.depths (c.view k).lhs)
        (c.operandDepth s.depths (c.view k).rhs) with heq | heq
      · rw [heq] at hzero ⊢
        obtain ⟨t, ht, hdepth⟩ := exists_of_operandDepth hzero
        exact ⟨t, List.mem_append_left _ ht, hdepth⟩
      · rw [heq] at hzero ⊢
        obtain ⟨t, ht, hdepth⟩ := exists_of_operandDepth hzero
        exact ⟨t, List.mem_append_right _ ht, hdepth⟩
    obtain ⟨t, ht, hdepth⟩ := hbest
    have hlive : t ∈ c.liveSlots := by
      by_contra hdead
      exact hzero (hdepth ▸ hs.dead t hdead)
    have hlt : t < k := by
      by_contra hge
      exact hzero (hdepth ▸ hs.unseen t (Nat.le_of_not_lt hge))
    obtain ⟨path, hpath, hdesc, hweight⟩ := hs.attained t hlt hlive
    refine ⟨t :: path, isPath_cons_cons.mpr ⟨hk, ⟨hlive, ht⟩, hpath⟩,
      descending_cons_cons.mpr ⟨hlt, hdesc⟩, ?_⟩
    rw [pathWeight_cons, hweight, slotDepth, hdepth]

theorem slotDepth_upper (hs : Weighed c k s) (hpath : c.IsPath (k :: path))
    (hdesc : Descending (k :: path)) : c.pathWeight (k :: path) ≤ slotDepth c s k := by
  rw [pathWeight_cons, slotDepth]
  apply Nat.add_le_add_left
  cases path with
  | nil => exact Nat.zero_le _
  | cons t path =>
    obtain ⟨-, ⟨-, ht⟩, hrest⟩ := isPath_cons_cons.mp hpath
    obtain ⟨hlt, hdesc⟩ := descending_cons_cons.mp hdesc
    have hupper := hs.upper t hlt path hrest hdesc
    rcases List.mem_append.mp ht with ht | ht
    · rw [← operandDepth_of_mem ht] at hupper
      exact hupper.trans (Nat.le_max_left ..)
    · rw [← operandDepth_of_mem ht] at hupper
      exact hupper.trans (Nat.le_max_right ..)

theorem visit (hs : Weighed c k s) (hk : k ∈ c.liveSlots) : Weighed c (k + 1) (c.weighSlot s k) := by
  obtain ⟨hlt, hlive⟩ := mem_liveSlots.mp hk
  rw [hs.weighSlot_eq hk]
  have hget : ∀ t, (s.depths.set k (slotDepth c s k)).getD t 0 =
      if t = k then slotDepth c s k else s.depths.getD t 0 :=
    getD_set s.depths (hs.length ▸ hlt) (slotDepth c s k)
  have hself : (s.depths.set k (slotDepth c s k)).getD k 0 = slotDepth c s k := by
    rw [hget, if_pos rfl]
  have hother : ∀ t, t ≠ k → (s.depths.set k (slotDepth c s k)).getD t 0 = s.depths.getD t 0 := by
    intro t ht
    rw [hget, if_neg ht]
  refine ⟨List.length_set.trans hs.length, ?_, ?_, ?_, ?_, ?_, ?_, ?_, ?_⟩
  · intro t ht
    rw [hother t (Nat.ne_of_gt ht)]
    exact hs.unseen t (Nat.le_of_succ_le ht)
  · intro t ht
    rw [hother t fun heq => ht (heq ▸ hk)]
    exact hs.dead t ht
  · intro t
    by_cases ht : t = k
    · rw [ht, hself]
      exact hs.slotDepth_le
    · rw [hother t ht]
      exact hs.bound t
  · intro t ht htlive
    rcases Nat.lt_succ_iff_lt_or_eq.mp ht with ht | rfl
    · rw [hother t (Nat.ne_of_lt ht)]
      exact hs.attained t ht htlive
    · rw [hself]
      exact hs.slotDepth_attained hk
  · intro t ht path hpath hdesc
    rcases Nat.lt_succ_iff_lt_or_eq.mp ht with ht | rfl
    · rw [hother t (Nat.ne_of_lt ht)]
      exact hs.upper t ht path hpath hdesc
    · rw [hself]
      exact hs.slotDepth_upper hpath hdesc
  · rw [liveBelow_succ, if_pos hlive, List.map_append, List.sum_append, ← hs.total]
    rfl
  · intro t
    by_cases ht : t = k
    · rw [ht, hself]
      exact Nat.le_max_right ..
    · rw [hother t ht]
      exact (hs.depth t).trans (Nat.le_max_left ..)
  · right
    by_cases hmax : s.cost.depth ≤ slotDepth c s k
    · refine ⟨k, Nat.lt_succ_self k, hk, ?_⟩
      rw [hself]
      exact (Nat.max_eq_right hmax).symm
    · have hkept : max s.cost.depth (slotDepth c s k) = s.cost.depth :=
        Nat.max_eq_left (Nat.le_of_not_le hmax)
      obtain ⟨t, ht, htlive, hdepth⟩ := hs.deepest.resolve_left (by omega)
      refine ⟨t, Nat.lt_succ_of_lt ht, htlive, ?_⟩
      rw [hother t (Nat.ne_of_lt ht), hdepth]
      exact hkept.symm

theorem weighSlot (hs : Weighed c k s) (hlt : k < c.slots) :
    Weighed c (k + 1) (c.weighSlot s k) := by
  by_cases hk : k ∈ c.liveSlots
  · exact hs.visit hk
  · have hkept : c.weighSlot s k = s := by
      have hdead : (c.view k).kind = .dead ∨ (c.view k).kind = .alias := by
        rw [mem_liveSlots] at hk
        by_contra hnot
        exact hk ⟨hlt, not_or.mp hnot⟩
      exact if_pos hdead
    rw [hkept]
    exact hs.skip hk hlt

end Weighed

theorem weighed (c : Candidate) : Weighed c c.slots
    ((List.range c.slots).foldl c.weighSlot ⟨List.replicate c.slots 0, ⟨0, 0⟩⟩) := by
  have hprefix : ∀ k ≤ c.slots, Weighed c k
      ((List.range k).foldl c.weighSlot ⟨List.replicate c.slots 0, ⟨0, 0⟩⟩) := by
    intro k hk
    induction k with
    | zero => exact .start c
    | succ k ih =>
      rw [List.range_succ, List.foldl_append]
      exact (ih (Nat.le_of_succ_le hk)).weighSlot hk
  exact hprefix c.slots (Nat.le_refl _)

/-- The total is the weight of all live slots. -/
theorem cost_total (c : Candidate) : c.cost.total = (c.liveSlots.map c.weight).sum :=
  c.weighed.total

/-- The depth is the weight of the heaviest descending path. -/
theorem cost_depth_attained (c : Candidate) :
    ∃ path, c.IsPath path ∧ Descending path ∧ c.pathWeight path = c.cost.depth := by
  rcases c.weighed.deepest with hzero | ⟨t, ht, hlive, hdepth⟩
  · exact ⟨[], ⟨fun s hs => absurd hs (List.not_mem_nil), List.isChain_nil⟩, List.isChain_nil,
      hzero.symm⟩
  · obtain ⟨path, hpath, hdesc, hweight⟩ := c.weighed.attained t ht hlive
    exact ⟨t :: path, hpath, hdesc, hweight.trans hdepth⟩

theorem cost_depth_upper (c : Candidate) (hpath : c.IsPath path) (hdesc : Descending path) :
    c.pathWeight path ≤ c.cost.depth := by
  cases path with
  | nil => exact Nat.zero_le _
  | cons t path =>
    have hlt := (mem_liveSlots.mp (hpath.live t (List.mem_cons_self ..))).1
    exact (c.weighed.upper t hlt path hpath hdesc).trans (c.weighed.depth t)

/-- The weights of all paths. -/
def pathWeights (c : Candidate) : Set Nat := {w | ∃ path, c.IsPath path ∧ c.pathWeight path = w}

/-- The cost is the sum of the live slots and the weight of the critical path
where a heaviest path goes down in the slots all along. -/
theorem cost_iff (c : Candidate) :
    (IsGreatest c.pathWeights c.cost.depth ∧ c.cost.total = (c.liveSlots.map c.weight).sum) ↔
      ∃ path, c.IsPath path ∧ Descending path ∧
        ∀ other, c.IsPath other → c.pathWeight other ≤ c.pathWeight path := by
  constructor
  · rintro ⟨⟨-, hupper⟩, -⟩
    obtain ⟨path, hpath, hdesc, hweight⟩ := c.cost_depth_attained
    refine ⟨path, hpath, hdesc, fun other hother => ?_⟩
    rw [hweight]
    exact hupper ⟨other, hother, rfl⟩
  · rintro ⟨path, hpath, hdesc, hheaviest⟩
    obtain ⟨deepest, hdeepest, -, hweight⟩ := c.cost_depth_attained
    refine ⟨⟨⟨deepest, hdeepest, hweight⟩, ?_⟩, c.cost_total⟩
    rintro w ⟨other, hother, rfl⟩
    exact (hheaviest other hother).trans (c.cost_depth_upper hpath hdesc)

end Candidate

/-- `-(-(-(-((0 + 5) + 7))))`. -/
def negatedSum : Program where
  arena := [constDef 0, constDef 5, ⟨.bin, 0, 0, 0, 1⟩, constDef 7, ⟨.bin, 0, 0, 2, 3⟩,
    ⟨.un, 0, 0, 4, NO_OPERAND⟩, ⟨.un, 0, 0, 5, NO_OPERAND⟩, ⟨.un, 0, 0, 6, NO_OPERAND⟩,
    ⟨.un, 0, 0, 7, NO_OPERAND⟩]
  root := 8

theorem negatedSum_built : negatedSum.Built :=
  Program.built_of_check (by decide) (by decide) (by decide)

/-- The sum is reassociated, and what is left of it is its new constant. -/
def negatedConst : Candidate where
  base := negatedSum
  overlays := [.extend (constDef 12), .replace 4 ⟨.bin, 0, 0, 0, 9⟩, .replace 4 (aliasDef 9)]
  root := 8

theorem negatedConst_derived : Derived negatedSum negatedConst := by
  have hsum : Derived negatedSum
      ⟨negatedSum, [.extend (constDef 12), .replace 4 ⟨.bin, 0, 0, 0, 9⟩], 8⟩ :=
    .apply .reassocAdd (.new 7) .start rfl
  exact .apply .identityAdd (.new 13) hsum rfl

/-- The negations come before the constant that they negate. -/
theorem cost_misses_path : ¬ ∀ p c, p.Built → Derived p c →
    IsGreatest c.pathWeights c.cost.depth ∧ c.cost.total = (c.liveSlots.map c.weight).sum := by
  intro hall
  have hgreatest := (hall negatedSum negatedConst negatedSum_built negatedConst_derived).1
  have hpath : negatedConst.IsPath [8, 7, 6, 5, 9] := ⟨by decide, by decide⟩
  have hle : negatedConst.pathWeight [8, 7, 6, 5, 9] ≤ negatedConst.cost.depth :=
    hgreatest.2 ⟨_, hpath, rfl⟩
  exact absurd hle (by decide)

end Sxla.Mss
