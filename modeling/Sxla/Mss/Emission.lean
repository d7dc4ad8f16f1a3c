import Mathlib
import Sxla.Mss.CriticalPath

/-!
# What the passes of materializing emit

The emitted slots have an order, in which each stands behind the slots that
its operands resolve to. No slot is emitted twice, and the passes go on until
no slot is left that could be.
-/

namespace Sxla.Mss

namespace Candidate

variable {c : Candidate} {reach : List Bool} {s t : Emission} {order : List Nat}
  {slot operand i index : Nat}

/-- Where the operand of the node in position `i` is found. -/
def OperandAt (c : Candidate) (order : List Nat) (i operand index : Nat) : Prop :=
  (operand = NO_OPERAND ∧ index = NO_OPERAND) ∨
    (operand ≠ NO_OPERAND ∧ index < i ∧ order[index]? = some (c.resolve operand))

/-- The row of a slot is its definition with the operands renumbered. -/
def RowOf (c : Candidate) (order : List Nat) (arena : List NodeDef) (i slot : Nat) : Prop :=
  ∃ l r, arena[i]? = some { c.view slot with lhs := l, rhs := r } ∧
    c.OperandAt order i (c.view slot).lhs l ∧ c.OperandAt order i (c.view slot).rhs r

/-- A slot that is to be emitted. -/
def Wanted (c : Candidate) (reach : List Bool) (slot : Nat) : Prop :=
  slot ∈ c.liveSlots ∧ reach.getD slot false = true

/-- The slots emitted so far, in their order. -/
structure Emitted (c : Candidate) (reach : List Bool) (s : Emission) (order : List Nat) : Prop where
  length : s.newIndex.length = c.slots
  nodup : order.Nodup
  wanted : ∀ slot ∈ order, c.Wanted reach slot
  index : ∀ (i slot : Nat), order[i]? = some slot → s.newIndex[slot]? = some i
  rest : ∀ slot < c.slots, slot ∉ order → s.newIndex[slot]? = some UNSEEN ∨
    (s.newIndex[slot]? = some SKIPPED ∧ ¬ c.Wanted reach slot)
  size : s.arena.length = order.length
  rows : ∀ (i slot : Nat), order[i]? = some slot → c.RowOf order s.arena i slot

theorem OperandAt.append (h : c.OperandAt order i operand index) (more : List Nat) :
    c.OperandAt (order ++ more) i operand index := by
  rcases h with h | ⟨hne, hlt, hget⟩
  · exact .inl h
  · exact .inr ⟨hne, hlt, (List.getElem?_append_left (List.getElem?_eq_some_iff.mp hget).1).trans hget⟩

namespace Emitted

theorem start (c : Candidate) (reach : List Bool) :
    c.Emitted reach ⟨List.replicate c.slots UNSEEN, [], false⟩ [] where
  length := List.length_replicate
  nodup := .nil
  wanted := fun slot hslot => absurd hslot List.not_mem_nil
  index := fun i slot hi => by cases hi
  rest := fun slot hlt _ => .inl (by rw [List.getElem?_replicate, if_pos hlt])
  size := rfl
  rows := fun i slot hi => by cases hi

/-- A pass starts without progress. -/
theorem progress (h : c.Emitted reach s order) (progress : Bool) :
    c.Emitted reach { s with progress } order :=
  ⟨h.length, h.nodup, h.wanted, h.index, h.rest, h.size, h.rows⟩

theorem lt_slots (h : c.Emitted reach s order) (hslot : slot ∈ order) : slot < c.slots :=
  (mem_liveSlots.mp (h.wanted slot hslot).1).1

/-- As long as a slot is not emitted, the order is shorter than the slots are
many. -/
theorem length_lt (h : c.Emitted reach s order) (hlt : slot < c.slots) (hnot : slot ∉ order) :
    order.length < c.slots := by
  have hnodup : (slot :: order).Nodup := List.nodup_cons.mpr ⟨hnot, h.nodup⟩
  have hsub : slot :: order ⊆ List.range c.slots := by
    intro x hx
    rcases List.mem_cons.mp hx with rfl | hx
    · exact List.mem_range.mpr hlt
    · exact List.mem_range.mpr (h.lt_slots hx)
  have hle := (List.subperm_of_subset hnodup hsub).length_le
  rw [List.length_cons, List.length_range] at hle
  exact hle

/-- An index is that of an emitted slot, or marks a slot that waits or never
comes. -/
theorem getD_index (h : c.Emitted reach s order) (hindex : s.newIndex.getD slot UNSEEN = index)
    (hunseen : index ≠ UNSEEN) (hskipped : index ≠ SKIPPED) : order[index]? = some slot := by
  rw [List.getD_eq_getElem?_getD] at hindex
  by_cases hlt : slot < c.slots
  · by_cases hslot : slot ∈ order
    · obtain ⟨i, hi⟩ := List.mem_iff_getElem?.mp hslot
      rw [h.index i slot hi] at hindex
      cases hindex
      exact hi
    · rcases h.rest slot hlt hslot with hget | ⟨hget, -⟩
      · rw [hget] at hindex
        exact absurd hindex.symm hunseen
      · rw [hget] at hindex
        exact absurd hindex.symm hskipped
  · rw [List.getElem?_eq_none (by rw [h.length]; exact Nat.le_of_not_lt hlt)] at hindex
    exact absurd hindex.symm hunseen

theorem not_mem_of_unseen (h : c.Emitted reach s order)
    (hunseen : s.newIndex.getD slot UNSEEN = UNSEEN) : slot ∉ order := by
  intro hslot
  obtain ⟨i, hi⟩ := List.mem_iff_getElem?.mp hslot
  rw [List.getD_eq_getElem?_getD, h.index i slot hi] at hunseen
  have hlen : order.length ≤ c.slots := by
    have hle := (List.subperm_of_subset h.nodup
      (fun x hx => List.mem_range.mpr (h.lt_slots hx))).length_le
    rwa [List.length_range] at hle
  have hi' := (List.getElem?_eq_some_iff.mp hi).1
  have hslots := c.slots_lt
  have heq : i = UNSEEN := hunseen
  rw [UNSEEN] at heq
  omega

end Emitted

theorem ready_at (h : c.Emitted reach s order) (hready : c.ready s.newIndex operand = .at index) :
    c.OperandAt order order.length operand index := by
  unfold ready at hready
  by_cases hnone : operand = NO_OPERAND
  · rw [if_pos hnone] at hready
    cases hready
    exact .inl ⟨hnone, rfl⟩
  · rw [if_neg hnone] at hready
    dsimp only at hready
    split at hready
    · cases hready
    next hunseen =>
    split at hready
    · cases hready
    next hskipped =>
    cases hready
    have hget := h.getD_index rfl hunseen hskipped
    exact .inr ⟨hnone, (List.getElem?_eq_some_iff.mp hget).1, hget⟩

-- ---------------------------------------------------------------------------
-- The passes
-- ---------------------------------------------------------------------------

/-- How many slots still wait. -/
def unseen (s : Emission) : Nat := s.newIndex.count UNSEEN

/-- The slot waits for an operand. -/
def Waits (c : Candidate) (reach : List Bool) (s : Emission) (slot : Nat) : Prop :=
  s.newIndex.getD slot UNSEEN = UNSEEN → c.Wanted reach slot ∧
    ∀ l r, c.ready s.newIndex (c.view slot).lhs = .at l → c.ready s.newIndex (c.view slot).rhs ≠ .at r

theorem count_set {l : List Nat} (hslot : l[slot]? = some UNSEEN) (hindex : index ≠ UNSEEN) :
    (l.set slot index).count UNSEEN < l.count UNSEEN := by
  have hcount := Transition.countP_set (· == UNSEEN) hslot index
  simp only [beq_self_eq_true, if_true, beq_iff_eq, hindex, if_false] at hcount
  exact Nat.lt_of_succ_le (Nat.le_of_eq hcount)

namespace Emitted

theorem getElem?_unseen (h : c.Emitted reach s order) (hlt : slot < c.slots)
    (hunseen : s.newIndex.getD slot UNSEEN = UNSEEN) : s.newIndex[slot]? = some UNSEEN := by
  have hlen : slot < s.newIndex.length := by
    rw [h.length]
    exact hlt
  rw [List.getD_eq_getElem?_getD, List.getElem?_eq_getElem hlen] at hunseen
  rw [List.getElem?_eq_getElem hlen]
  exact congrArg some hunseen

/-- A slot that never comes. -/
theorem skip (h : c.Emitted reach s order) (hlt : slot < c.slots) (hnot : slot ∉ order)
    (hunwanted : ¬ c.Wanted reach slot) :
    c.Emitted reach { s with newIndex := s.newIndex.set slot SKIPPED, progress := true } order := by
  refine ⟨List.length_set.trans h.length, h.nodup, h.wanted, ?_, ?_, h.size, h.rows⟩
  · intro i other hi
    have hne : slot ≠ other := fun heq => hnot (heq ▸ List.mem_of_getElem? hi)
    exact (List.getElem?_set_ne hne).trans (h.index i other hi)
  · intro other hother hrest
    by_cases heq : slot = other
    · subst heq
      exact .inr ⟨List.getElem?_set_self (by rw [h.length]; exact hlt), hunwanted⟩
    · have hkept : (s.newIndex.set slot SKIPPED)[other]? = s.newIndex[other]? :=
        List.getElem?_set_ne heq
      dsimp only
      rw [hkept]
      exact h.rest other hother hrest

theorem emit (h : c.Emitted reach s order) (hlt : slot < c.slots) (hnot : slot ∉ order)
    (hwanted : c.Wanted reach slot) {l r : Nat}
    (hl : c.ready s.newIndex (c.view slot).lhs = .at l)
    (hr : c.ready s.newIndex (c.view slot).rhs = .at r) :
    c.Emitted reach
      { newIndex := s.newIndex.set slot (u32 s.arena.length)
        arena := s.arena ++ [{ c.view slot with lhs := l, rhs := r }]
        progress := true } (order ++ [slot]) := by
  have hindex : u32 s.arena.length = order.length := by
    have hshort := h.length_lt hlt hnot
    rw [h.size]
    exact Nat.mod_eq_of_lt (hshort.trans c.slots_lt)
  rw [hindex]
  refine ⟨List.length_set.trans h.length, ?_, ?_, ?_, ?_, ?_, ?_⟩
  · exact List.nodup_append.mpr ⟨h.nodup, List.nodup_singleton _, fun x hx y hy heq =>
      hnot (List.mem_singleton.mp hy ▸ heq ▸ hx)⟩
  · intro x hx
    rcases List.mem_append.mp hx with hx | hx
    · exact h.wanted x hx
    · rw [List.mem_singleton.mp hx]
      exact hwanted
  · intro i other hi
    dsimp only
    by_cases hlast : i < order.length
    · rw [List.getElem?_append_left hlast] at hi
      have hne : slot ≠ other := fun heq => hnot (heq ▸ List.mem_of_getElem? hi)
      rw [List.getElem?_set_ne hne]
      exact h.index i other hi
    · have hlen := (List.getElem?_eq_some_iff.mp hi).1
      rw [List.length_append, List.length_singleton] at hlen
      obtain rfl : i = order.length := by omega
      rw [List.getElem?_concat_length] at hi
      cases hi
      exact List.getElem?_set_self (by rw [h.length]; exact hlt)
  · intro other hother hrest
    rw [List.mem_append, not_or] at hrest
    have hne : slot ≠ other := fun heq => hrest.2 (List.mem_singleton.mpr heq.symm)
    dsimp only
    rw [List.getElem?_set_ne hne]
    exact h.rest other hother hrest.1
  · rw [List.length_append, List.length_append, h.size]
    rfl
  · intro i other hi
    by_cases hlast : i < order.length
    · rw [List.getElem?_append_left hlast] at hi
      obtain ⟨l', r', hrow, hl', hr'⟩ := h.rows i other hi
      refine ⟨l', r', ?_, hl'.append _, hr'.append _⟩
      exact (List.getElem?_append_left (by rw [h.size]; exact hlast)).trans hrow
    · have hlen := (List.getElem?_eq_some_iff.mp hi).1
      rw [List.length_append, List.length_singleton] at hlen
      obtain rfl : i = order.length := by omega
      rw [List.getElem?_concat_length] at hi
      cases hi
      refine ⟨l, r, ?_, (ready_at h hl).append _, (ready_at h hr).append _⟩
      dsimp only
      rw [← h.size]
      exact List.getElem?_concat_length

/-- A visit leaves a slot that waits, or makes progress. -/
theorem emitSlot (h : c.Emitted reach s order) (hlt : slot < c.slots) :
    (c.emitSlot reach s slot = s ∧ c.Waits reach s slot) ∨
      ((c.emitSlot reach s slot).progress = true ∧ unseen (c.emitSlot reach s slot) < unseen s ∧
        ∃ order', order <+: order' ∧ c.Emitted reach (c.emitSlot reach s slot) order') := by
  unfold Candidate.emitSlot
  by_cases hunseen : s.newIndex.getD slot UNSEEN = UNSEEN
  · rw [if_neg (not_not_intro hunseen)]
    dsimp only
    have hget := h.getElem?_unseen hlt hunseen
    have hnot := h.not_mem_of_unseen hunseen
    by_cases hskip : (c.view slot).kind = .dead ∨ (c.view slot).kind = .alias ∨
        reach.getD slot false = false
    · rw [if_pos hskip]
      have hunwanted : ¬ c.Wanted reach slot := by
        rintro ⟨hlive, hreach⟩
        obtain ⟨-, hdead, halias⟩ := mem_liveSlots.mp hlive
        rcases hskip with heq | heq | heq
        · exact hdead heq
        · exact halias heq
        · rw [hreach] at heq
          cases heq
      exact .inr ⟨rfl, count_set hget (by decide), order, List.prefix_rfl,
        h.skip hlt hnot hunwanted⟩
    · rw [if_neg hskip]
      rw [not_or, not_or] at hskip
      have hwanted : c.Wanted reach slot :=
        ⟨mem_liveSlots.mpr ⟨hlt, hskip.1, hskip.2.1⟩, Bool.of_not_eq_false hskip.2.2⟩
      cases hl : c.ready s.newIndex (c.view slot).lhs with
      | «at» l =>
        cases hr : c.ready s.newIndex (c.view slot).rhs with
        | «at» r =>
          have hemit := h.emit hlt hnot hwanted hl hr
          refine .inr ⟨rfl, count_set hget ?_, _, List.prefix_append .., hemit⟩
          have hshort := h.length_lt hlt hnot
          have hslots := c.slots_lt
          rw [h.size, u32, Nat.mod_eq_of_lt (hshort.trans hslots), UNSEEN]
          omega
        | _ =>
          refine .inl ⟨rfl, fun _ => ⟨hwanted, fun l r _ hr' => ?_⟩⟩
          rw [hr] at hr'
          cases hr'
      | _ =>
        refine .inl ⟨rfl, fun _ => ⟨hwanted, fun l r hl' _ => ?_⟩⟩
        rw [hl] at hl'
        cases hl'
  · rw [if_pos hunseen]
    exact .inl ⟨rfl, fun heq => absurd heq hunseen⟩

/-- A pass over some slots leaves all of them waiting, or makes progress. -/
theorem foldl_emitSlot (h : c.Emitted reach s order) {slots : List Nat}
    (hslots : ∀ slot ∈ slots, slot < c.slots) :
    ∃ order', order <+: order' ∧ c.Emitted reach (slots.foldl (c.emitSlot reach) s) order' ∧
      ((slots.foldl (c.emitSlot reach) s = s ∧ ∀ slot ∈ slots, c.Waits reach s slot) ∨
        ((slots.foldl (c.emitSlot reach) s).progress = true ∧
          unseen (slots.foldl (c.emitSlot reach) s) < unseen s)) := by
  induction slots generalizing s order with
  | nil => exact ⟨order, List.prefix_rfl, h, .inl ⟨rfl, fun slot hslot => absurd hslot List.not_mem_nil⟩⟩
  | cons slot slots ih =>
    rw [List.forall_mem_cons] at hslots
    rw [List.foldl_cons]
    rcases h.emitSlot hslots.1 with ⟨hkept, hwaits⟩ | ⟨hprogress, hless, order₁, hprefix, h₁⟩
    · rw [hkept]
      obtain ⟨order', hprefix, h', hend⟩ := ih h hslots.2
      refine ⟨order', hprefix, h', hend.imp_left fun hend => ⟨hend.1, ?_⟩⟩
      exact List.forall_mem_cons.mpr ⟨hwaits, hend.2⟩
    · obtain ⟨order', hprefix', h', hend⟩ := ih h₁ hslots.2
      refine ⟨order', hprefix.trans hprefix', h', .inr ?_⟩
      rcases hend with ⟨heq, -⟩ | ⟨hprogress', hless'⟩
      · rw [heq]
        exact ⟨hprogress, hless⟩
      · exact ⟨hprogress', hless'.trans hless⟩

/-- With more passes than slots that wait, the last one finds nothing to do. -/
theorem passes (h : c.Emitted reach s order) {count : Nat} (hcount : unseen s < count) :
    ∃ order', order <+: order' ∧ c.Emitted reach (c.passes reach count s) order' ∧
      ∀ slot < c.slots, c.Waits reach (c.passes reach count s) slot := by
  induction count generalizing s order with
  | zero => exact absurd hcount (Nat.not_lt_zero _)
  | succ count ih =>
    have hin : ∀ slot ∈ List.range c.slots, slot < c.slots := fun slot => List.mem_range.mp
    obtain ⟨order₁, hprefix, h₁, hend⟩ := (h.progress false).foldl_emitSlot hin
    rw [Candidate.passes]
    rcases hend with ⟨heq, hwaits⟩ | ⟨hprogress, hless⟩
    · rw [heq] at h₁ ⊢
      exact ⟨order₁, hprefix, h₁, fun slot hslot => hwaits slot (List.mem_range.mpr hslot)⟩
    · rw [if_pos hprogress]
      have hfewer : unseen ((List.range c.slots).foldl (c.emitSlot reach) { s with progress := false }) <
          count := Nat.lt_of_lt_of_le hless (Nat.le_of_lt_succ hcount)
      obtain ⟨order', hprefix', h', hwaits⟩ := ih h₁ hfewer
      exact ⟨order', hprefix.trans hprefix', h', hwaits⟩

end Emitted

/-- What materializing emits, and that it leaves no slot out that it could. -/
theorem emitted_spec (c : Candidate) : ∃ order, c.Emitted c.reachable c.emitted order ∧
    ∀ slot < c.slots, c.Waits c.reachable c.emitted slot := by
  have hcount : unseen ⟨List.replicate c.slots UNSEEN, [], false⟩ < c.slots + 1 := by
    have hle := List.count_le_length (a := UNSEEN) (l := List.replicate c.slots UNSEEN)
    rw [List.length_replicate] at hle
    exact Nat.lt_succ_of_le hle
  obtain ⟨order, -, h, hwaits⟩ := (Emitted.start c c.reachable).passes hcount
  exact ⟨order, h, hwaits⟩

end Candidate

end Sxla.Mss
