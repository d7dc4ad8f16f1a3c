import Mathlib
import Sxla.Library.DepOrder
import Sxla.Mss.Emission

/-!
# Materializing re-linearises

The slots that the root reaches through resolved operands are emitted each
once, behind their operands, for any order of the slots in the candidate. Slot
counts are taken as a `u32`, and so a slot is in range below `slots`.

The index `0xFFFFFFFE` marks slots that are skipped. A root whose image has
this index is taken for one of them.
-/

namespace Sxla.Mss

open DepOrder Relation

def operandsOf (d : NodeDef) : List Nat := [d.lhs, d.rhs].filter (· ≠ NO_OPERAND)

namespace Candidate

variable {c : Candidate} {s t x operand fuel k : Nat} {order : List Nat}

-- ---------------------------------------------------------------------------
-- The effective graph
-- ---------------------------------------------------------------------------

/-- The alias chain from `s` ends in `t`. -/
inductive Ends (c : Candidate) : Nat → Nat → Prop
  | here {s : Nat} (h : (c.view s).kind ≠ .alias) : Ends c s s
  | hop {s t : Nat} (h : (c.view s).kind = .alias) (hne : (c.view s).lhs ≠ NO_OPERAND)
      (ht : Ends c (c.view s).lhs t) : Ends c s t

/-- What the resolved root reaches through resolved operands. -/
inductive Reached (c : Candidate) : Nat → Prop
  | root {t : Nat} (ht : c.Ends c.root t) : Reached c t
  | operand {s operand t : Nat} (hs : Reached c s) (ho : operand ∈ operandsOf (c.view s))
      (ht : c.Ends operand t) : Reached c t

/-- What is met on the way, the aliases among it. -/
inductive Met (c : Candidate) : Nat → Prop
  | root : Met c c.root
  | hop {s : Nat} (hs : Met c s) (h : (c.view s).kind = .alias)
      (hne : (c.view s).lhs ≠ NO_OPERAND) : Met c (c.view s).lhs
  | operand {s operand : Nat} (hs : Met c s) (h : (c.view s).kind ≠ .alias)
      (ho : operand ∈ operandsOf (c.view s)) : Met c operand

/-- `t` is an operand of `s`, resolved. -/
def Needs (c : Candidate) (t s : Nat) : Prop := ∃ operand ∈ operandsOf (c.view s), c.Ends operand t

/-- Alias chains end, the resolved operand graph has no cycle, and the root
reaches no slot that is dead or dangles. -/
structure WellFormed (c : Candidate) : Prop where
  inRange : ∀ s, c.Met s → s < c.slots
  live : ∀ s, c.Met s → (c.view s).kind ≠ .dead
  ends : ∀ s, c.Met s → ∃ t, c.Ends s t
  acyclic : Acyclic c.Needs c.Reached

/-- An operand is renumbered to the position, before its user's, of what it
resolves to. -/
def Renumbered (c : Candidate) (order : List Nat) (i operand index : Nat) : Prop :=
  (operand = NO_OPERAND ∧ index = NO_OPERAND) ∨
    (operand ≠ NO_OPERAND ∧ index < i ∧ ∃ t, c.Ends operand t ∧ order[index]? = some t)

/-- The arena has one node for each slot reached and no other, in this order of
the slots. -/
structure Linear (c : Candidate) (arena : List NodeDef) (order : List Nat) : Prop where
  nodup : order.Nodup
  reached : ∀ s, s ∈ order ↔ c.Reached s
  length : arena.length = order.length
  rows : ∀ (i slot : Nat), order[i]? = some slot →
    ∃ l r, arena[i]? = some { c.view slot with lhs := l, rhs := r } ∧
      c.Renumbered order i (c.view slot).lhs l ∧ c.Renumbered order i (c.view slot).rhs r

/-- The root is the image of the resolved root. -/
def Relinearized (c : Candidate) (p : Program) : Prop :=
  ∃ order, c.Linear p.arena order ∧ ∃ t, c.Ends c.root t ∧ order[p.root]? = some t

theorem Ends.not_alias (h : c.Ends s t) : (c.view t).kind ≠ .alias := by
  induction h with
  | here h => exact h
  | hop _ _ _ ih => exact ih

theorem Ends.unique {t' : Nat} (h : c.Ends s t) (h' : c.Ends s t') : t = t' := by
  induction h with
  | here h =>
    cases h' with
    | here => rfl
    | hop halias => exact absurd halias h
  | hop halias _ _ ih =>
    cases h' with
    | here h => exact absurd halias h
    | hop _ _ ht => exact ih ht

theorem Ends.met (h : c.Ends s t) (hs : c.Met s) : c.Met t := by
  induction h with
  | here => exact hs
  | hop halias hne _ ih => exact ih (hs.hop halias hne)

theorem Reached.met_not_alias (h : c.Reached s) : c.Met s ∧ (c.view s).kind ≠ .alias := by
  induction h with
  | root ht => exact ⟨ht.met .root, ht.not_alias⟩
  | operand _ ho ht ih => exact ⟨ht.met (ih.1.operand ih.2 ho), ht.not_alias⟩

theorem Reached.operand_met (h : c.Reached s) (ho : operand ∈ operandsOf (c.view s)) :
    c.Met operand :=
  h.met_not_alias.1.operand h.met_not_alias.2 ho

theorem Reached.needs (h : c.Reached s) (ht : c.Needs t s) : c.Reached t := by
  obtain ⟨operand, ho, ht⟩ := ht
  exact h.operand ho ht

theorem mem_operandsOf {d : NodeDef} :
    operand ∈ operandsOf d ↔ operand ≠ NO_OPERAND ∧ (operand = d.lhs ∨ operand = d.rhs) := by
  rw [operandsOf, List.mem_filter, List.mem_pair, decide_eq_true_eq, and_comm]

/-- All that is reached is needed for the root. -/
theorem Reached.eq_or_needed {r : Nat} (hr : c.Ends c.root r) (h : c.Reached s) :
    s = r ∨ TransGen c.Needs s r := by
  induction h with
  | root ht => exact .inl (ht.unique hr)
  | operand _ ho ht ih =>
    rcases ih with rfl | ih
    · exact .inr (.single ⟨_, ho, ht⟩)
    · exact .inr (.head ⟨_, ho, ht⟩ ih)

-- ---------------------------------------------------------------------------
-- Resolving
-- ---------------------------------------------------------------------------

/-- The next slot of an alias chain. -/
def target (c : Candidate) (s : Nat) : Nat := (c.view s).lhs

/-- The chain ends after so many aliases. -/
theorem Ends.iterate (h : c.Ends s t) : ∃ k, c.target^[k] s = t ∧
    ∀ i < k, (c.view (c.target^[i] s)).kind = .alias ∧ (c.view (c.target^[i] s)).lhs ≠ NO_OPERAND := by
  induction h with
  | here => exact ⟨0, rfl, fun i hi => absurd hi (Nat.not_lt_zero i)⟩
  | hop halias hne _ ih =>
    obtain ⟨k, hend, hall⟩ := ih
    refine ⟨k + 1, hend, fun i hi => ?_⟩
    cases i with
    | zero => exact ⟨halias, hne⟩
    | succ i => exact hall i (Nat.lt_of_succ_lt_succ hi)

theorem met_iterate (hs : c.Met s)
    (hall : ∀ i < k, (c.view (c.target^[i] s)).kind = .alias ∧
      (c.view (c.target^[i] s)).lhs ≠ NO_OPERAND) : ∀ i ≤ k, c.Met (c.target^[i] s) := by
  intro i hi
  induction i with
  | zero => exact hs
  | succ i ih =>
    rw [Function.iterate_succ_apply']
    exact (ih (Nat.le_of_succ_le hi)).hop (hall i hi).1 (hall i hi).2

/-- A chain that ends meets no slot twice. -/
theorem WellFormed.hops_lt (hc : c.WellFormed) (hs : c.Met s)
    (hend : (c.view (c.target^[k] s)).kind ≠ .alias)
    (hall : ∀ i < k, (c.view (c.target^[i] s)).kind = .alias ∧
      (c.view (c.target^[i] s)).lhs ≠ NO_OPERAND) : k < c.slots := by
  have hinj : ∀ i ≤ k, ∀ j ≤ k, i < j → c.target^[i] s ≠ c.target^[j] s := by
    intro i _ j hj hij heq
    have hshift : c.target^[(k - j) + i] s = c.target^[(k - j) + j] s := by
      rw [Function.iterate_add_apply, Function.iterate_add_apply, heq]
    rw [Nat.sub_add_cancel hj] at hshift
    exact hend (hshift ▸ (hall _ (by omega)).1)
  have hnodup : ((List.range (k + 1)).map fun i => c.target^[i] s).Nodup := by
    refine List.nodup_range.map_on fun i hi j hj heq => ?_
    have hik := Nat.le_of_lt_succ (List.mem_range.mp hi)
    have hjk := Nat.le_of_lt_succ (List.mem_range.mp hj)
    by_contra hne
    rcases Nat.lt_or_gt_of_ne hne with hlt | hlt
    · exact hinj i hik j hjk hlt heq
    · exact hinj j hjk i hik hlt heq.symm
  have hsub : ((List.range (k + 1)).map fun i => c.target^[i] s) ⊆ List.range c.slots := by
    intro slot hslot
    obtain ⟨i, hi, rfl⟩ := List.mem_map.mp hslot
    have hik := Nat.le_of_lt_succ (List.mem_range.mp hi)
    exact List.mem_range.mpr (hc.inRange _ (met_iterate hs hall i hik))
  have hle := (List.subperm_of_subset hnodup hsub).length_le
  rw [List.length_map, List.length_range, List.length_range] at hle
  exact hle

theorem follow_iterate (hend : (c.view (c.target^[k] s)).kind ≠ .alias)
    (hall : ∀ i < k, (c.view (c.target^[i] s)).kind = .alias ∧
      (c.view (c.target^[i] s)).lhs ≠ NO_OPERAND) (hfuel : k < fuel) :
    c.follow fuel s = c.target^[k] s := by
  induction k generalizing s fuel with
  | zero =>
    cases fuel with
    | zero => cases hfuel
    | succ fuel => exact if_neg hend
  | succ k ih =>
    cases fuel with
    | zero => cases hfuel
    | succ fuel =>
      have hfirst := hall 0 (Nat.succ_pos k)
      rw [Function.iterate_zero_apply] at hfirst
      have hrest : ∀ i < k, (c.view (c.target^[i] (c.target s))).kind = .alias ∧
          (c.view (c.target^[i] (c.target s))).lhs ≠ NO_OPERAND :=
        fun i hi => hall (i + 1) (Nat.succ_lt_succ hi)
      rw [follow, if_pos hfirst.1, if_neg hfirst.2]
      exact ih hend hrest (Nat.lt_of_succ_lt_succ hfuel)

/-- Resolving finds the end of the chain. -/
theorem WellFormed.resolve_eq (hc : c.WellFormed) (hs : c.Met s) (h : c.Ends s t) :
    c.resolve s = t := by
  obtain ⟨k, rfl, hall⟩ := h.iterate
  have hlt := hc.hops_lt hs h.not_alias hall
  exact follow_iterate h.not_alias hall (hlt.trans (Nat.lt_succ_self _))

-- ---------------------------------------------------------------------------
-- Marking
-- ---------------------------------------------------------------------------

variable {stack : List Nat} {marked : List Bool}

/-- What a slot adds to the stack. -/
def pushed (c : Candidate) (s : Nat) : List Nat :=
  c.operandTarget (c.view s).rhs ++ c.operandTarget (c.view s).lhs

theorem mem_pushed : t ∈ c.pushed s ↔ ∃ operand ∈ operandsOf (c.view s), c.resolve operand = t := by
  have hone : ∀ operand, t ∈ c.operandTarget operand ↔ operand ≠ NO_OPERAND ∧ c.resolve operand = t := by
    intro operand
    unfold operandTarget
    split
    · next hnone => exact iff_of_false List.not_mem_nil fun h => h.1 hnone
    · next hsome => rw [List.mem_singleton, eq_comm, and_iff_right hsome]
  rw [pushed, List.mem_append, hone, hone]
  constructor
  · rintro (⟨hne, ht⟩ | ⟨hne, ht⟩)
    · exact ⟨_, mem_operandsOf.mpr ⟨hne, .inr rfl⟩, ht⟩
    · exact ⟨_, mem_operandsOf.mpr ⟨hne, .inl rfl⟩, ht⟩
  · rintro ⟨operand, ho, ht⟩
    obtain ⟨hne, rfl | rfl⟩ := mem_operandsOf.mp ho
    · exact .inr ⟨hne, ht⟩
    · exact .inl ⟨hne, ht⟩

theorem getD_set_true (marked : List Bool) (s t : Nat) :
    (marked.set s true).getD t false = true ↔ (t = s ∧ s < marked.length) ∨ marked.getD t false = true := by
  rw [List.getD_eq_getElem?_getD, List.getD_eq_getElem?_getD]
  by_cases hts : t = s
  · subst hts
    by_cases hlt : t < marked.length
    · rw [List.getElem?_set_self hlt]
      exact iff_of_true rfl (.inl ⟨rfl, hlt⟩)
    · rw [List.getElem?_eq_none (by rw [List.length_set]; exact Nat.le_of_not_lt hlt),
        List.getElem?_eq_none (Nat.le_of_not_lt hlt)]
      exact iff_of_false Bool.false_ne_true fun h => h.elim (fun h => hlt h.2) Bool.false_ne_true
  · rw [List.getElem?_set_ne (Ne.symm hts)]
    exact ⟨.inr, fun h => h.resolve_left fun h => hts h.1⟩

theorem mark_nil : c.mark fuel [] marked = marked := by
  cases fuel <;> rfl

/-- A slot that the loop leaves unexpanded. -/
theorem mark_skip (h : s = NO_OPERAND ∨ s ≥ marked.length ∨ marked.getD s false = true) :
    c.mark (fuel + 1) (s :: stack) marked = c.mark fuel stack marked := by
  rw [mark, if_pos h]

theorem mark_expand (h : ¬ (s = NO_OPERAND ∨ s ≥ marked.length ∨ marked.getD s false = true)) :
    c.mark (fuel + 1) (s :: stack) marked =
      c.mark fuel (c.pushed s ++ stack) (marked.set s true) := by
  rw [mark, if_neg h, pushed]

/-- What a property closed under the pushes holds of at first, it holds of at
the end. -/
theorem mark_sound {P : Nat → Prop} (hclosed : ∀ s, P s → ∀ t ∈ c.pushed s, P t)
    (hstack : ∀ s ∈ stack, P s) (hmarked : ∀ s, marked.getD s false = true → P s) :
    ∀ s, (c.mark fuel stack marked).getD s false = true → P s := by
  induction fuel generalizing stack marked with
  | zero => rwa [mark]
  | succ fuel ih =>
    cases stack with
    | nil => rwa [mark_nil]
    | cons s stack =>
      rw [List.forall_mem_cons] at hstack
      by_cases h : s = NO_OPERAND ∨ s ≥ marked.length ∨ marked.getD s false = true
      · rw [mark_skip h]
        exact ih hstack.2 hmarked
      · rw [mark_expand h]
        apply ih
        · intro t ht
          rcases List.mem_append.mp ht with ht | ht
          · exact hclosed s hstack.1 t ht
          · exact hstack.2 t ht
        · intro t ht
          rcases (getD_set_true marked s t).mp ht with ⟨rfl, -⟩ | ht
          · exact hstack.1
          · exact hmarked t ht

theorem pushed_length_le (c : Candidate) (s : Nat) : (c.pushed s).length ≤ 2 := by
  have hone : ∀ operand, (c.operandTarget operand).length ≤ 1 := by
    intro operand
    unfold operandTarget
    split
    · exact Nat.zero_le _
    · exact Nat.le_refl _
  have hl := hone (c.view s).lhs
  have hr := hone (c.view s).rhs
  rw [pushed, List.length_append]
  omega

/-- A slot is closed once what it pushes is marked or on the stack. -/
def Closed (c : Candidate) (stack : List Nat) (marked : List Bool) : Prop :=
  ∀ s, marked.getD s false = true → ∀ t ∈ c.pushed s, t < c.slots →
    marked.getD t false = true ∨ t ∈ stack

/-- A slot that is marked or out of range may leave the stack. -/
theorem Closed.skip (h : c.Closed (s :: stack) marked)
    (hdone : s < c.slots → marked.getD s false = true) : c.Closed stack marked := by
  intro x hx t ht hlt
  rcases h x hx t ht hlt with h' | h'
  · exact .inl h'
  · rcases List.mem_cons.mp h' with rfl | h'
    · exact .inl (hdone hlt)
    · exact .inr h'

theorem Closed.expand (h : c.Closed (s :: stack) marked) (hlt : s < marked.length) :
    c.Closed (c.pushed s ++ stack) (marked.set s true) := by
  intro x hx t ht htlt
  rcases (getD_set_true marked s x).mp hx with ⟨rfl, -⟩ | hx
  · exact .inr (List.mem_append_left _ ht)
  · rcases h x hx t ht htlt with h' | h'
    · exact .inl ((getD_set_true marked s t).mpr (.inr h'))
    · rcases List.mem_cons.mp h' with rfl | h'
      · exact .inl ((getD_set_true marked t t).mpr (.inl ⟨rfl, hlt⟩))
      · exact .inr (List.mem_append_right _ h')

theorem count_set_true_lt (hlt : s < marked.length) (hval : ¬ marked.getD s false = true) :
    (marked.set s true).count false < marked.count false := by
  have hget : marked[s]? = some false := by
    rw [List.getElem?_eq_getElem hlt]
    rw [List.getD_eq_getElem?_getD, List.getElem?_eq_getElem hlt] at hval
    exact congrArg some (Bool.of_not_eq_true hval)
  have hset := Transition.countP_set (· == false) hget true
  exact Nat.lt_of_succ_le (Nat.le_of_eq hset)

/-- With enough rounds the loop empties its stack. -/
theorem mark_complete (hlen : marked.length = c.slots)
    (hfuel : 2 * marked.count false + stack.length ≤ fuel) (hclosed : c.Closed stack marked) :
    (∀ s, marked.getD s false = true → (c.mark fuel stack marked).getD s false = true) ∧
    (∀ s ∈ stack, s < c.slots → (c.mark fuel stack marked).getD s false = true) ∧
    c.Closed [] (c.mark fuel stack marked) := by
  induction fuel generalizing stack marked with
  | zero =>
    have hnil : stack = [] := List.eq_nil_of_length_eq_zero (by omega)
    subst hnil
    rw [mark]
    exact ⟨fun _ h => h, fun s hs => absurd hs List.not_mem_nil, hclosed⟩
  | succ fuel ih =>
    cases stack with
    | nil =>
      rw [mark_nil]
      exact ⟨fun _ h => h, fun s hs => absurd hs List.not_mem_nil, hclosed⟩
    | cons s stack =>
      rw [List.length_cons] at hfuel
      by_cases h : s = NO_OPERAND ∨ s ≥ marked.length ∨ marked.getD s false = true
      · rw [mark_skip h]
        have hdone : s < c.slots → marked.getD s false = true := by
          intro hlt
          have hslots := c.slots_lt
          rcases h with h | h | h
          · rw [NO_OPERAND] at h
            omega
          · omega
          · exact h
        obtain ⟨hkept, hstack, hend⟩ := ih hlen (by omega) (hclosed.skip hdone)
        refine ⟨hkept, ?_, hend⟩
        exact List.forall_mem_cons.mpr ⟨fun hlt => hkept s (hdone hlt), hstack⟩
      · rw [mark_expand h]
        rw [not_or, not_or] at h
        have hlt : s < marked.length := Nat.lt_of_not_le h.2.1
        have hcount := count_set_true_lt hlt h.2.2
        have hpushed := c.pushed_length_le s
        have hfuel' : 2 * (marked.set s true).count false + (c.pushed s ++ stack).length ≤ fuel := by
          rw [List.length_append]
          omega
        obtain ⟨hkept, hstack, hend⟩ :=
          ih (List.length_set.trans hlen) hfuel' (hclosed.expand hlt)
        refine ⟨fun x hx => hkept x ((getD_set_true marked s x).mpr (.inr hx)), ?_, hend⟩
        intro x hx hxlt
        rcases List.mem_cons.mp hx with rfl | hx
        · exact hkept x ((getD_set_true marked x x).mpr (.inl ⟨rfl, hlt⟩))
        · exact hstack x (List.mem_append_right _ hx) hxlt

theorem WellFormed.pushed_iff (hc : c.WellFormed) (hs : c.Reached s) :
    t ∈ c.pushed s ↔ c.Needs t s := by
  rw [mem_pushed]
  constructor
  · rintro ⟨operand, ho, rfl⟩
    have hmet := hs.operand_met ho
    obtain ⟨t, ht⟩ := hc.ends operand hmet
    rw [hc.resolve_eq hmet ht]
    exact ⟨operand, ho, ht⟩
  · rintro ⟨operand, ho, ht⟩
    exact ⟨operand, ho, hc.resolve_eq (hs.operand_met ho) ht⟩

/-- The loop marks what is reached. -/
theorem WellFormed.reachable_iff (hc : c.WellFormed) :
    c.reachable.getD s false = true ↔ c.Reached s := by
  obtain ⟨r, hr⟩ := hc.ends _ .root
  have hroot : c.resolve c.root = r := hc.resolve_eq .root hr
  have hfalse : ∀ s, (List.replicate c.slots false).getD s false = true → c.Reached s := by
    intro s hs
    rw [List.getD_eq_getElem?_getD, List.getElem?_replicate] at hs
    split at hs <;> cases hs
  constructor
  · apply mark_sound
    · exact fun s hs t ht => hs.needs ((hc.pushed_iff hs).mp ht)
    · intro s hs
      rw [List.mem_singleton.mp hs, hroot]
      exact .root hr
    · exact hfalse
  · have hfuel : 2 * (List.replicate c.slots false).count false + [c.resolve c.root].length ≤
        2 * c.slots + 2 := by
      rw [List.count_replicate_self]
      exact Nat.le_succ _
    have hclosed : c.Closed [c.resolve c.root] (List.replicate c.slots false) := by
      intro s hs
      rw [List.getD_eq_getElem?_getD, List.getElem?_replicate] at hs
      split at hs <;> cases hs
    obtain ⟨-, hstack, hend⟩ := mark_complete List.length_replicate hfuel hclosed
    intro hs
    induction hs with
    | root ht =>
      have hmet := ht.met .root
      apply hstack _ _ (hc.inRange _ hmet)
      rw [hroot, hr.unique ht]
      exact List.mem_singleton.mpr rfl
    | operand hs ho ht ih =>
      have hpushed := (hc.pushed_iff hs).mpr ⟨_, ho, ht⟩
      have hmet := (Reached.operand hs ho ht).met_not_alias.1
      exact (hend _ ih _ hpushed (hc.inRange _ hmet)).resolve_right List.not_mem_nil

-- ---------------------------------------------------------------------------
-- The program
-- ---------------------------------------------------------------------------

theorem WellFormed.wanted_iff (hc : c.WellFormed) : c.Wanted c.reachable s ↔ c.Reached s := by
  constructor
  · exact fun h => hc.reachable_iff.mp h.2
  · intro h
    obtain ⟨hmet, halias⟩ := h.met_not_alias
    exact ⟨mem_liveSlots.mpr ⟨hc.inRange _ hmet, hc.live _ hmet, halias⟩, hc.reachable_iff.mpr h⟩

/-- An operand is ready once what it resolves to is emitted. -/
theorem Emitted.exists_ready (h : c.Emitted c.reachable c.emitted order)
    (hshort : order.length < c.slots)
    (ho : operand ≠ NO_OPERAND → c.resolve operand ∈ order) :
    ∃ l, c.ready c.emitted.newIndex operand = .at l := by
  unfold ready
  by_cases hnone : operand = NO_OPERAND
  · rw [if_pos hnone]
    exact ⟨_, rfl⟩
  · obtain ⟨i, hi⟩ := List.mem_iff_getElem?.mp (ho hnone)
    have hindex : c.emitted.newIndex.getD (c.resolve operand) UNSEEN = i := by
      rw [List.getD_eq_getElem?_getD, h.index i _ hi]
      rfl
    have hlt := (List.getElem?_eq_some_iff.mp hi).1
    have hslots := c.slots_lt
    have hunseen : i ≠ UNSEEN := by
      rw [UNSEEN]
      omega
    have hskipped : i ≠ SKIPPED := by
      rw [SKIPPED]
      omega
    rw [if_neg hnone, hindex, if_neg hunseen, if_neg hskipped]
    exact ⟨i, rfl⟩

/-- Every slot that is reached is emitted. -/
theorem WellFormed.mem_order_iff (hc : c.WellFormed) (h : c.Emitted c.reachable c.emitted order)
    (hwaits : ∀ slot < c.slots, c.Waits c.reachable c.emitted slot) :
    s ∈ order ↔ c.Reached s := by
  refine ⟨fun hs => hc.wanted_iff.mp (h.wanted s hs), ?_⟩
  intro hs
  by_contra hmissing
  let all := (List.range c.slots).filter fun slot => c.reachable.getD slot false
  have hall : ∀ slot, slot ∈ all ↔ c.Reached slot := by
    intro slot
    rw [List.mem_filter, List.mem_range, hc.reachable_iff]
    exact and_iff_right_of_imp fun hslot => hc.inRange _ hslot.met_not_alias.1
  obtain ⟨y, hy, hnot, hready⟩ := @DepOrder.exists_ready Nat c.Needs order all
    (fun y hy x hx => (hall x).mpr (((hall y).mp hy).needs hx))
    (fun x hx => hc.acyclic x ((hall x).mp hx)) ⟨s, (hall s).mpr hs, hmissing⟩
  have hyreached := (hall y).mp hy
  have hylt := hc.inRange _ hyreached.met_not_alias.1
  have hunseen : c.emitted.newIndex.getD y UNSEEN = UNSEEN := by
    rw [List.getD_eq_getElem?_getD]
    rcases h.rest y hylt hnot with hget | ⟨-, hunwanted⟩
    · rw [hget]
      rfl
    · exact absurd (hc.wanted_iff.mpr hyreached) hunwanted
  have hoperand : ∀ operand, (operand = (c.view y).lhs ∨ operand = (c.view y).rhs) →
      operand ≠ NO_OPERAND → c.resolve operand ∈ order := by
    intro operand ho hne
    have hmem := mem_operandsOf.mpr ⟨hne, ho⟩
    have hmet := hyreached.operand_met hmem
    obtain ⟨t, ht⟩ := hc.ends operand hmet
    rw [hc.resolve_eq hmet ht]
    exact hready t ⟨operand, hmem, ht⟩
  have hshort := h.length_lt hylt hnot
  obtain ⟨l, hl⟩ := h.exists_ready hshort (hoperand _ (.inl rfl))
  obtain ⟨r, hr⟩ := h.exists_ready hshort (hoperand _ (.inr rfl))
  exact (hwaits y hylt hunseen).2 l r hl hr

/-- Where the code's resolved operands are found, the operands' ends are. -/
theorem WellFormed.renumbered (hc : c.WellFormed) (hs : c.Reached s) {i index : Nat}
    (ho : operand = (c.view s).lhs ∨ operand = (c.view s).rhs)
    (h : c.OperandAt order i operand index) : c.Renumbered order i operand index := by
  refine h.imp_right fun h => ⟨h.1, h.2.1, ?_⟩
  have hmet := hs.operand_met (mem_operandsOf.mpr ⟨h.1, ho⟩)
  obtain ⟨t, ht⟩ := hc.ends operand hmet
  refine ⟨t, ht, ?_⟩
  rw [← hc.resolve_eq hmet ht]
  exact h.2.2

theorem WellFormed.linear (hc : c.WellFormed) (h : c.Emitted c.reachable c.emitted order)
    (hwaits : ∀ slot < c.slots, c.Waits c.reachable c.emitted slot) :
    c.Linear c.emitted.arena order := by
  refine ⟨h.nodup, fun s => hc.mem_order_iff h hwaits, h.size, ?_⟩
  intro i slot hi
  have hslot := (hc.mem_order_iff h hwaits).mp (List.mem_of_getElem? hi)
  obtain ⟨l, r, hrow, hl, hr⟩ := h.rows i slot hi
  exact ⟨l, r, hrow, hc.renumbered hslot (.inl rfl) hl, hc.renumbered hslot (.inr rfl) hr⟩

namespace Linear

variable {arena : List NodeDef} {i j : Nat}

/-- An operand stands before its user. -/
theorem needs_lt (h : c.Linear arena order) (hj : order[j]? = some s) (ht : c.Needs t s) :
    ∃ i < j, order[i]? = some t := by
  obtain ⟨operand, ho, ht⟩ := ht
  obtain ⟨hne, ho⟩ := mem_operandsOf.mp ho
  obtain ⟨l, r, -, hl, hr⟩ := h.rows j s hj
  have hfound : ∃ index, c.Renumbered order j operand index := by
    rcases ho with rfl | rfl
    · exact ⟨l, hl⟩
    · exact ⟨r, hr⟩
  obtain ⟨index, hindex⟩ := hfound
  obtain ⟨-, hlt, t', ht', hget⟩ := hindex.resolve_left fun hnone => hne hnone.1
  rw [ht.unique ht']
  exact ⟨index, hlt, hget⟩

/-- So does all that a user needs. -/
theorem needed_lt (h : c.Linear arena order) (hj : order[j]? = some s) (ht : TransGen c.Needs t s) :
    ∃ i < j, order[i]? = some t := by
  induction ht using TransGen.head_induction_on with
  | single ht => exact h.needs_lt hj ht
  | head ht _ ih =>
    obtain ⟨k, hk, hget⟩ := ih
    obtain ⟨i, hi, hget⟩ := h.needs_lt hget ht
    exact ⟨i, hi.trans hk, hget⟩

/-- The resolved root comes last. -/
theorem root_last (h : c.Linear arena order) {r : Nat} (hr : c.Ends c.root r)
    (hi : order[i]? = some r) : i + 1 = order.length := by
  have hlt := (List.getElem?_eq_some_iff.mp hi).1
  by_contra hne
  have hnext : i + 1 < order.length := by omega
  have hget := List.getElem?_eq_getElem hnext
  have hreached := (h.reached _).mp (List.mem_of_getElem? hget)
  rcases hreached.eq_or_needed hr with heq | hneeded
  · have hsame := h.nodup.getElem_inj_iff.mp
      (heq.trans (List.getElem?_eq_some_iff.mp hi).2.symm)
    omega
  · obtain ⟨j, hj, hget'⟩ := h.needed_lt hi hneeded
    obtain ⟨hjlt, heq⟩ := List.getElem?_eq_some_iff.mp hget'
    have hsame := h.nodup.getElem_inj_iff.mp heq
    omega

/-- The order is as long as there are slots where all of them are reached. -/
theorem length_eq_iff (h : c.Linear arena order) {n : Nat} (hbound : ∀ s ∈ order, s < n) :
    order.length = n ↔ ∀ s < n, c.Reached s := by
  have hsub : order.Subperm (List.range n) :=
    List.subperm_of_subset h.nodup fun s hs => List.mem_range.mpr (hbound s hs)
  constructor
  · intro hlen s hs
    have hperm := hsub.perm_of_length_le (by rw [List.length_range, hlen])
    exact (h.reached s).mp (hperm.mem_iff.mpr (List.mem_range.mpr hs))
  · intro hall
    have hsup : (List.range n).Subperm order :=
      List.subperm_of_subset List.nodup_range fun s hs =>
        (h.reached s).mpr (hall s (List.mem_range.mp hs))
    have hle := hsub.length_le
    have hge := hsup.length_le
    rw [List.length_range] at hle hge
    exact Nat.le_antisymm hle hge

end Linear

theorem WellFormed.reached_lt (hc : c.WellFormed) (h : c.Reached s) : s < 0xFFFFFFFF :=
  Nat.lt_of_lt_of_le (hc.inRange _ h.met_not_alias.1) (Nat.le_of_lt_succ c.slots_lt)

/-- Where the root of what is materialized points. -/
theorem WellFormed.materialize_root (hc : c.WellFormed) {r i : Nat}
    (h : c.Emitted c.reachable c.emitted order) (hr : c.Ends c.root r) (hi : order[i]? = some r) :
    c.materialize.root = if i ≠ UNSEEN ∧ i ≠ SKIPPED then i else 0 := by
  have hindex : c.emitted.newIndex.getD (c.resolve c.root) UNSEEN = i := by
    rw [hc.resolve_eq .root hr, List.getD_eq_getElem?_getD, h.index i r hi]
    rfl
  rw [materialize, hindex]

/-- With `2^32 - 1` slots reached, the root has the index of those skipped. -/
theorem WellFormed.root_lost (hc : c.WellFormed) (hall : ∀ s < 0xFFFFFFFF, c.Reached s) :
    ∃ order, c.Linear c.materialize.arena order ∧ c.materialize.root = 0 := by
  obtain ⟨order, h, hwaits⟩ := c.emitted_spec
  have hlin := hc.linear h hwaits
  obtain ⟨r, hr⟩ := hc.ends _ .root
  obtain ⟨i, hi⟩ := List.mem_iff_getElem?.mp ((hlin.reached r).mpr (.root hr))
  have hlen := (hlin.length_eq_iff fun s hs => hc.reached_lt ((hlin.reached s).mp hs)).mpr hall
  have hlast := hlin.root_last hr hi
  have hskipped : i = SKIPPED := by
    rw [SKIPPED]
    omega
  refine ⟨order, hlin, ?_⟩
  rw [hc.materialize_root h hr hi, if_neg fun hboth => hboth.2 hskipped]

theorem WellFormed.not_relinearized (hc : c.WellFormed) (hall : ∀ s < 0xFFFFFFFF, c.Reached s) :
    ¬ c.Relinearized c.materialize := by
  rintro ⟨order, hlin, r, hr, hroot⟩
  obtain ⟨-, -, hlost⟩ := hc.root_lost hall
  have hlen := (hlin.length_eq_iff fun s hs => hc.reached_lt ((hlin.reached s).mp hs)).mpr hall
  rw [hlost] at hroot
  have hfirst := hlin.root_last hr hroot
  omega

/-- With fewer the root keeps its index. -/
theorem WellFormed.relinearized (hc : c.WellFormed) (hsome : ¬ ∀ s < 0xFFFFFFFF, c.Reached s) :
    c.Relinearized c.materialize := by
  obtain ⟨order, h, hwaits⟩ := c.emitted_spec
  have hlin := hc.linear h hwaits
  obtain ⟨r, hr⟩ := hc.ends _ .root
  obtain ⟨i, hi⟩ := List.mem_iff_getElem?.mp ((hlin.reached r).mpr (.root hr))
  have hbound : ∀ s ∈ order, s < 0xFFFFFFFF := fun s hs => hc.reached_lt ((hlin.reached s).mp hs)
  have hne : order.length ≠ 0xFFFFFFFF := fun hlen => hsome ((hlin.length_eq_iff hbound).mp hlen)
  have hle : order.length ≤ 0xFFFFFFFF := by
    have hsub := List.subperm_of_subset h.nodup fun s hs => List.mem_range.mpr (hbound s hs)
    have hlen := hsub.length_le
    rwa [List.length_range] at hlen
  have hlt := (List.getElem?_eq_some_iff.mp hi).1
  have hkept : i ≠ UNSEEN ∧ i ≠ SKIPPED := by
    rw [UNSEEN, SKIPPED]
    omega
  refine ⟨order, hlin, r, hr, ?_⟩
  rw [hc.materialize_root h hr hi, if_pos hkept]
  exact hi

/-- Materializing re-linearises the graph, but for one of `2^32 - 1` slots. -/
theorem materialize_iff (hc : c.WellFormed) :
    c.Relinearized c.materialize ↔ ¬ ∀ s < 0xFFFFFFFF, c.Reached s :=
  ⟨fun h hall => hc.not_relinearized hall h, hc.relinearized⟩

end Candidate

-- ---------------------------------------------------------------------------
-- Chains of rows
-- ---------------------------------------------------------------------------

theorem NodeDef.Appended.operand_lt {d : NodeDef} {len operand : Nat} (h : d.Appended len)
    (ho : operand ∈ operandsOf d) : operand < len := by
  obtain ⟨hne, ho⟩ := Candidate.mem_operandsOf.mp ho
  rcases h with h | h | ⟨-, -, hl, hr, -⟩ | ⟨h, hl, -⟩
  · rw [h] at ho
    rcases ho with rfl | rfl <;> exact absurd rfl hne
  · rw [h] at ho
    rcases ho with rfl | rfl <;> exact absurd rfl hne
  · rcases ho with rfl | rfl
    · exact hl
    · exact hr
  · rcases ho with rfl | rfl
    · exact hl
    · rw [h] at hne
      exact absurd rfl hne

theorem NodeDef.Appended.operandsOf_leaf {d : NodeDef} {len : Nat} (h : d.Appended len)
    (hk : d.kind = .const ∨ d.kind = .param) : operandsOf d = [] := by
  rcases h with h | h | ⟨h, -⟩ | ⟨h, -⟩
  · rw [h]
    rfl
  · rw [h]
    rfl
  · rw [h] at hk
    rcases hk with hk | hk <;> cases hk
  · rw [h] at hk
    rcases hk with hk | hk <;> cases hk

/-- Rows that each take the row before them. -/
structure Chained (row : Nat → NodeDef) : Prop where
  appended : ∀ i ≤ NO_OPERAND, (row i).Appended i
  takes : ∀ i < NO_OPERAND, i ∈ operandsOf (row (i + 1))

/-- The program of the first `n` rows, with the last for its root. -/
def chain (row : Nat → NodeDef) (n : Nat) : Program := ⟨(List.range n).map row, n - 1⟩

namespace Chained

variable {row : Nat → NodeDef} {n slot : Nat}

theorem slots_eq (hn : n < 0x100000000) : (Candidate.fromProgram (chain row n)).slots = n := by
  have hlen : (chain row n).arena.length = n := by rw [chain, List.length_map, List.length_range]
  exact (congrArg u32 hlen).trans (Nat.mod_eq_of_lt hn)

theorem getElem?_chain (hslot : slot < n) : (chain row n).arena[slot]? = some (row slot) := by
  rw [chain, List.getElem?_map, List.getElem?_range hslot]
  rfl

theorem view_eq (hn : n < 0x100000000) (hslot : slot < n) :
    (Candidate.fromProgram (chain row n)).view slot = row slot := by
  have hin : slot < (Candidate.fromProgram (chain row n)).baseLen :=
    Nat.lt_of_lt_of_eq hslot (slots_eq hn).symm
  have hbase : (Candidate.fromProgram (chain row n)).view slot =
      (Candidate.fromProgram (chain row n)).baseDef slot := rfl
  rw [hbase, Candidate.baseDef, if_pos hin]
  change (chain row n).arena.getD slot deadDef = row slot
  rw [List.getD_eq_getElem?_getD, getElem?_chain hslot]
  rfl

theorem appended_of_lt (h : Chained row) (hn : n < 0x100000000) (hslot : slot < n) :
    (row slot).Appended slot :=
  h.appended slot (Nat.le_of_lt_succ (Nat.lt_of_lt_of_le hslot (Nat.le_of_lt hn)))

theorem built (h : Chained row) (hpos : 0 < n) (hn : n < 0x100000000) : (chain row n).Built := by
  have hlen : (chain row n).arena.length = n := by rw [chain, List.length_map, List.length_range]
  apply Program.built_of_rows
  · intro i d hi
    have hlt : i < n := hlen ▸ (List.getElem?_eq_some_iff.mp hi).1
    cases Option.some.inj ((getElem?_chain hlt).symm.trans hi)
    exact h.appended_of_lt hn hlt
  · rw [hlen]
    exact Nat.sub_lt hpos Nat.one_pos
  · exact Nat.lt_of_le_of_lt (Nat.sub_le ..) hn

theorem met_lt (h : Chained row) (hpos : 0 < n) (hn : n < 0x100000000)
    (hslot : (Candidate.fromProgram (chain row n)).Met slot) : slot < n := by
  induction hslot with
  | root => exact Nat.sub_lt hpos Nat.one_pos
  | hop _ halias _ ih =>
    rw [view_eq hn ih] at halias
    exact absurd halias (h.appended_of_lt hn ih).not_alias
  | operand _ _ ho ih =>
    rw [view_eq hn ih] at ho
    exact ((h.appended_of_lt hn ih).operand_lt ho).trans ih

theorem ends_self (h : Chained row) (hn : n < 0x100000000) (hslot : slot < n) :
    (Candidate.fromProgram (chain row n)).Ends slot slot := by
  refine .here ?_
  rw [view_eq hn hslot]
  exact (h.appended_of_lt hn hslot).not_alias

theorem needs_lt (h : Chained row) {t : Nat} (hpos : 0 < n) (hn : n < 0x100000000)
    (hs : (Candidate.fromProgram (chain row n)).Reached slot)
    (ht : (Candidate.fromProgram (chain row n)).Needs t slot) : t < slot := by
  obtain ⟨operand, ho, ht⟩ := ht
  have hoperand := h.met_lt hpos hn (hs.operand_met ho)
  have hslot := h.met_lt hpos hn hs.met_not_alias.1
  rw [view_eq hn hslot] at ho
  rw [ht.unique (h.ends_self hn hoperand)]
  exact (h.appended_of_lt hn hslot).operand_lt ho

theorem wellFormed (h : Chained row) (hpos : 0 < n) (hn : n < 0x100000000) :
    (Candidate.fromProgram (chain row n)).WellFormed := by
  refine ⟨?_, ?_, ?_, ?_⟩
  · intro s hs
    rw [slots_eq hn]
    exact h.met_lt hpos hn hs
  · intro s hs
    rw [view_eq hn (h.met_lt hpos hn hs)]
    exact (h.appended_of_lt hn (h.met_lt hpos hn hs)).not_dead
  · exact fun s hs => ⟨s, h.ends_self hn (h.met_lt hpos hn hs)⟩
  · intro x hx hcycle
    have hbelow : ∀ t, TransGen (Candidate.fromProgram (chain row n)).Needs t x →
        (Candidate.fromProgram (chain row n)).Reached t ∧ t < x := by
      intro t ht
      induction ht using TransGen.head_induction_on with
      | single ht => exact ⟨hx.needs ht, h.needs_lt hpos hn hx ht⟩
      | head ht _ ih => exact ⟨ih.1.needs ht, (h.needs_lt hpos hn ih.1 ht).trans ih.2⟩
    exact Nat.lt_irrefl x (hbelow x hcycle).2

theorem needs (h : Chained row) (hn : n < 0x100000000) (hslot : slot + 1 < n) :
    (Candidate.fromProgram (chain row n)).Needs slot (slot + 1) := by
  refine ⟨slot, ?_, h.ends_self hn (Nat.lt_of_succ_lt hslot)⟩
  rw [view_eq hn hslot]
  apply h.takes
  rw [NO_OPERAND]
  omega

theorem reached (h : Chained row) (hn : n < 0x100000000) (hslot : slot < n) :
    (Candidate.fromProgram (chain row n)).Reached slot := by
  have hdown : ∀ k < n, (Candidate.fromProgram (chain row n)).Reached (n - 1 - k) := by
    intro k hk
    induction k with
    | zero =>
      have hroot : n - 1 < n := by omega
      exact .root (h.ends_self hn hroot)
    | succ k ih =>
      have hstep : n - 1 - k = (n - 1 - (k + 1)) + 1 := by omega
      have hprev := ih (Nat.lt_of_succ_lt hk)
      rw [hstep] at hprev
      exact hprev.needs (h.needs hn (by omega))
  have hlast := hdown (n - 1 - slot) (by omega)
  rwa [show n - 1 - (n - 1 - slot) = slot by omega] at hlast

end Chained

def negation : Nat → NodeDef
  | 0 => ⟨.param, 0, 0, NO_OPERAND, NO_OPERAND⟩
  | slot + 1 => ⟨.un, 0, UnOp.neg.code, slot, NO_OPERAND⟩

/-- A parameter, negated until there are `n` nodes. -/
def negations (n : Nat) : Program := ⟨(List.range n).map negation, n - 1⟩

theorem negation_chained : Chained negation where
  appended := by
    intro i hi
    cases i with
    | zero => exact .inr (.inl (by decide))
    | succ i => exact .inr (.inr (.inr ⟨rfl, Nat.lt_succ_self i, hi⟩))
  takes := fun i hi => Candidate.mem_operandsOf.mpr ⟨Nat.ne_of_lt hi, .inl rfl⟩

/-- A parameter and its negation come out as they are. -/
theorem materialize_iff_negation :
    (Candidate.fromProgram (negations 2)).Relinearized
      (Candidate.fromProgram (negations 2)).materialize := by
  have hc := negation_chained.wellFormed (n := 2) (by decide) (by decide)
  refine (Candidate.materialize_iff hc).mpr fun hall => ?_
  have hlast := (hall 2 (by decide)).met_not_alias.1
  exact absurd (negation_chained.met_lt (n := 2) (by decide) (by decide) hlast) (by decide)

/-- A parameter negated until there are `2^32 - 1` nodes comes out with its
parameter as the root. -/
theorem materialize_loses_root : ¬ ∀ c : Candidate, c.base.Built → c.WellFormed →
    c.Relinearized c.materialize := by
  intro hall
  have hpos : 0 < 0xFFFFFFFF := by decide
  have hn : 0xFFFFFFFF < 0x100000000 := by decide
  have hc := negation_chained.wellFormed hpos hn
  exact hc.not_relinearized (fun s hs => negation_chained.reached hn hs)
    (hall (.fromProgram (negations 0xFFFFFFFF)) (negation_chained.built hpos hn) hc)

end Sxla.Mss
