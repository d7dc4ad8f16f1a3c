import Mathlib.Data.List.Induction
import Sxla.Graph.Rewire

/-!
# Layout inference

`layoutInfer` visits the tensor nodes once, in slot order. A transpose gets a
column-major result, a matmul a row-major one, and any other node asks for
the layout that its first tensor input has at that moment; only row-major
types are rewritten. `Turned` says on the arena as it was which slots a run
rewrites.
-/

namespace Sxla

open Checked IrArena

def Ty.tensorLayout : Ty → Option Layout
  | .tensor t => .some t.layout
  | _ => Option.none

def Node.withLayout (layout : Layout) (n : Node) : Node :=
  match n.ty with
  | .tensor t => { n with ty := .tensor { t with layout } }
  | _ => n

namespace Level1

def firstInputLayout (a : IrArena) (id : NodeId) : Option Layout :=
  match a.node id with
  | .error _ => none
  | .ok n => n.valueInputs.findSome? fun v =>
    match a.node v.node with
    | .ok prod => prod.ty.tensorLayout
    | .error _ => none

def inferred (a : IrArena) (id : NodeId) : Op → Option Layout
  | .transpose .. => some .colMajor
  | .matmul .. => some .rowMajor
  | _ => firstInputLayout a id

/-- The tensor nodes with the ops they have when the pass starts. -/
def tensorNodes (a : IrArena) : List (NodeId × Op) :=
  (a.liveNodes.filter (·.2.ty.tensorLayout.isSome)).map fun x => (x.1, x.2.op)

/-- One visit, with the count of the changes so far. -/
def inferStep (s : IrArena × Nat) (x : NodeId × Op) : IrArena × Nat :=
  match inferred s.1 x.1 x.2 with
  | none => s
  | some layout =>
    match s.1.node x.1 with
    | .error _ => s
    | .ok n =>
      match n.ty with
      | .tensor t =>
        if t.layout ≠ layout ∧ t.layout = .rowMajor then
          (s.1.rewrite x.1 (Node.withLayout layout), s.2 + 1)
        else s
      | _ => s

end Level1

def layoutInfer (a : IrArena) : IrArena × Nat :=
  (Level1.tensorNodes a).foldl Level1.inferStep (a, 0)

-- ---------------------------------------------------------------------------
-- Mapped slots
-- ---------------------------------------------------------------------------

namespace IrArena

variable {a : IrArena} {f : Node → Node} {id x : NodeId} {n n' : Node} {l : List Nat} {i : Nat}

theorem mapSlots_slots : (a.mapSlots l f).slots[i]? =
    (a.slots[i]?).map fun s => if i ∈ l then ⟨f s.node, s.generation⟩ else s :=
  List.getElem?_mapIdx

@[simp] theorem mapSlots_liveSlots : (a.mapSlots l f).liveSlots = a.liveSlots := by
  unfold liveSlots mapSlots
  rw [List.length_mapIdx]

theorem mapSlots_node : (a.mapSlots l f).node x =
    (a.node x).map fun n => if x.index ∈ l then f n else n := by
  simp only [node, mapSlots_slots]
  cases a.slots[x.index]? with
  | none => rfl
  | some s =>
    simp only [Option.map_some]
    by_cases hx : x.index ∈ l
    · simp only [hx, ↓reduceIte]
      split <;> rfl
    · simp only [hx, ↓reduceIte]
      split <;> rfl

theorem mem_mapSlots_liveNodes (hop : ∀ n, (f n).op = n.op) :
    (id, n') ∈ (a.mapSlots l f).liveNodes ↔
      ∃ n, (id, n) ∈ a.liveNodes ∧ (if id.index ∈ l then f n else n) = n' := by
  constructor
  · intro h
    obtain ⟨hfree, g, hslot, hid⟩ := mem_liveNodes.mp h
    rw [mapSlots_slots, Option.map_eq_some_iff] at hslot
    obtain ⟨s, hs, heq⟩ := hslot
    by_cases hi : id.index ∈ l
    · rw [if_pos hi] at heq
      cases heq
      refine ⟨s.node, mem_liveNodes.mpr ⟨hfree, s.generation, hs, ?_⟩, if_pos hi⟩
      rw [← hop]
      exact hid
    · rw [if_neg hi] at heq
      subst heq
      exact ⟨n', mem_liveNodes.mpr ⟨hfree, g, hs, hid⟩, if_neg hi⟩
  · rintro ⟨n, hn, rfl⟩
    obtain ⟨hfree, g, hslot, hid⟩ := mem_liveNodes.mp hn
    refine mem_liveNodes.mpr ⟨hfree, g, ?_, ?_⟩
    · rw [mapSlots_slots, hslot, Option.map_some]
      split <;> rfl
    · split
      · rw [hop]
        exact hid
      · exact hid

end IrArena

-- ---------------------------------------------------------------------------
-- Which slots a run rewrites
-- ---------------------------------------------------------------------------

namespace Node

variable {n : Node} {layout : Layout} {l : Layout}

@[simp] theorem withLayout_op : (n.withLayout layout).op = n.op := by
  unfold withLayout
  split <;> rfl

@[simp] theorem withLayout_valueInputs :
    (n.withLayout layout).valueInputs = n.valueInputs := by
  unfold withLayout
  split <;> rfl

theorem withLayout_tensorLayout :
    (n.withLayout layout).ty.tensorLayout = n.ty.tensorLayout.map fun _ => layout := by
  unfold withLayout
  cases h : n.ty <;> simp [Ty.tensorLayout, h]

end Node

namespace Level1

/-- The ops that take the layout of their first tensor input. -/
def inherits : Op → Bool
  | .transpose .. | .matmul .. => false
  | _ => true

/-- The slot and the layout of the first tensor input. -/
def firstTensor (a : IrArena) (n : Node) : Option (Nat × Layout) :=
  n.valueInputs.findSome? fun v =>
    match a.node v.node with
    | .ok prod => prod.ty.tensorLayout.map fun layout => (v.node.index, layout)
    | .error _ => none

/-- The row-major slots that a run turns column-major: the transposes, the
nodes whose first tensor input is column-major from the start, and those
whose first tensor input is turned and stands in an earlier slot. -/
inductive Turned (a : IrArena) : Nat → Prop
  | transpose {id : NodeId} {n : Node} {perm : List UInt8} {rank : UInt8} :
      (id, n) ∈ a.liveNodes → n.ty.tensorLayout = some .rowMajor →
      n.op = .transpose perm rank → Turned a id.index
  | source {id : NodeId} {n : Node} {j : Nat} :
      (id, n) ∈ a.liveNodes → n.ty.tensorLayout = some .rowMajor → inherits n.op = true →
      firstTensor a n = some (j, .colMajor) → Turned a id.index
  | chain {id : NodeId} {n : Node} {j : Nat} {layout : Layout} :
      (id, n) ∈ a.liveNodes → n.ty.tensorLayout = some .rowMajor → inherits n.op = true →
      firstTensor a n = some (j, layout) → j < id.index → Turned a j → Turned a id.index

variable {a : IrArena} {id : NodeId} {n : Node} {i j : Nat} {layout : Layout} {cols : List Nat}
  {op : Op}

theorem Turned.live (h : Turned a i) : ∃ id n, (id, n) ∈ a.liveNodes ∧ id.index = i ∧
    n.ty.tensorLayout = some .rowMajor := by
  cases h with
  | @transpose id n _ _ hn hty => exact ⟨id, n, hn, rfl, hty⟩
  | @source id n _ hn hty => exact ⟨id, n, hn, rfl, hty⟩
  | @chain id n _ _ hn hty => exact ⟨id, n, hn, rfl, hty⟩

theorem turned_transpose (hn : (id, n) ∈ a.liveNodes) {perm : List UInt8} {rank : UInt8}
    (hop : n.op = .transpose perm rank) :
    Turned a id.index ↔ n.ty.tensorLayout = some .rowMajor := by
  constructor
  · intro h
    obtain ⟨id', n', hn', hi, hty⟩ := h.live
    rw [(live_unique hn hn' hi.symm).2]
    exact hty
  · exact fun hty => .transpose hn hty hop

theorem not_turned_matmul (hn : (id, n) ∈ a.liveNodes) {ta tb : Bool}
    (hop : n.op = .matmul ta tb) : ¬ Turned a id.index := by
  intro h
  generalize hi : id.index = i at h
  cases h with
  | transpose hn' _ hop' =>
    rw [← (live_unique hn hn' hi).2, hop] at hop'
    cases hop'
  | source hn' _ hin =>
    rw [← (live_unique hn hn' hi).2, hop] at hin
    cases hin
  | chain hn' _ hin =>
    rw [← (live_unique hn hn' hi).2, hop] at hin
    cases hin

theorem turned_inherits (hn : (id, n) ∈ a.liveNodes) (hop : inherits n.op = true) :
    Turned a id.index ↔ n.ty.tensorLayout = some .rowMajor ∧
      ∃ j layout, firstTensor a n = some (j, layout) ∧
        (layout = .colMajor ∨ j < id.index ∧ Turned a j) := by
  constructor
  · intro h
    generalize hi : id.index = i at h ⊢
    cases h with
    | transpose hn' _ hop' =>
      rw [(live_unique hn hn' hi).2, hop'] at hop
      cases hop
    | source hn' hty _ hfirst =>
      rw [(live_unique hn hn' hi).2]
      exact ⟨hty, _, _, hfirst, .inl rfl⟩
    | chain hn' hty _ hfirst hlt hj =>
      rw [(live_unique hn hn' hi).2]
      exact ⟨hty, _, _, hfirst, .inr ⟨hlt, hj⟩⟩
  · rintro ⟨hty, j, layout, hfirst, rfl | ⟨hlt, hj⟩⟩
    · exact .source hn hty hop hfirst
    · exact .chain hn hty hop hfirst hlt hj

-- ---------------------------------------------------------------------------
-- The run
-- ---------------------------------------------------------------------------

/-- The arena with the given slots turned. -/
def turn (a : IrArena) (cols : List Nat) : IrArena :=
  a.mapSlots cols (Node.withLayout .colMajor)

theorem firstTensor_turn (hinputs : n'.valueInputs = n.valueInputs) :
    firstTensor (turn a cols) n' = (firstTensor a n).map fun x =>
      (x.1, if x.1 ∈ cols then .colMajor else x.2) := by
  unfold firstTensor
  rw [hinputs, List.map_findSome?]
  refine congrArg (fun f => n.valueInputs.findSome? f) (funext fun v => ?_)
  simp only [turn, mapSlots_node, Function.comp]
  cases a.node v.node with
  | error e => rfl
  | ok prod =>
    simp only [Except.map]
    by_cases hv : v.node.index ∈ cols
    · simp only [hv, ↓reduceIte, Node.withLayout_tensorLayout]
      cases prod.ty.tensorLayout <;> simp [hv]
    · simp only [hv, ↓reduceIte]
      cases prod.ty.tensorLayout <;> simp [hv]

theorem firstInputLayout_eq (h : a.node id = .ok n) :
    firstInputLayout a id = (firstTensor a n).map (·.2) := by
  rw [firstInputLayout, h, firstTensor, List.map_findSome?]
  refine congrArg (fun f => n.valueInputs.findSome? f) (funext fun v => ?_)
  simp only [Function.comp]
  cases a.node v.node with
  | error e => rfl
  | ok prod =>
    simp only [Option.map_map]
    cases prod.ty.tensorLayout <;> rfl

theorem inferred_inherits (h : inherits op = true) : inferred a id op = firstInputLayout a id := by
  cases op <;> first | rfl | cases h

theorem mem_tensorNodes {x : NodeId × Op} : x ∈ tensorNodes a ↔
    ∃ n, (x.1, n) ∈ a.liveNodes ∧ n.op = x.2 ∧ n.ty.tensorLayout.isSome = true := by
  rw [tensorNodes, List.mem_map]
  constructor
  · rintro ⟨y, hy, rfl⟩
    rw [List.mem_filter] at hy
    exact ⟨y.2, hy.1, rfl, hy.2⟩
  · rintro ⟨n, hn, hop, hty⟩
    refine ⟨(x.1, n), List.mem_filter.mpr ⟨hn, hty⟩, ?_⟩
    rw [hop]

theorem tensorNodes_sorted : ((tensorNodes a).map (·.1.index)).Pairwise (· < ·) := by
  have hsorted : (a.liveNodes.map (·.1.index)).Pairwise (· < ·) := by
    rw [map_index_liveNodes]
    exact List.pairwise_lt_range.filter _
  rw [tensorNodes, List.map_map]
  exact hsorted.sublist (List.filter_sublist.map _)

theorem Turned.mem_tensorNodes (h : Turned a i) : i ∈ (tensorNodes a).map (·.1.index) := by
  obtain ⟨id, n, hn, rfl, hty⟩ := h.live
  refine List.mem_map.mpr ⟨(id, n.op), Level1.mem_tensorNodes.mpr ⟨n, hn, rfl, ?_⟩, rfl⟩
  rw [hty]
  rfl

/-- A visit in a partly turned arena asks for column-major exactly when the
slot is one of those a run turns. -/
theorem inferred_turn (hn : (id, n) ∈ a.liveNodes) (hid : id.index ∉ cols)
    (hcols : ∀ j, j ∈ cols ↔ Turned a j ∧ j < id.index) :
    Turned a id.index ↔ n.ty.tensorLayout = some .rowMajor ∧
      inferred (turn a cols) id n.op = some .colMajor := by
  by_cases hop : inherits n.op = true
  · have hnode : (turn a cols).node id = .ok n := by
      rw [turn, mapSlots_node, node_of_live hn]
      exact congrArg Except.ok (if_neg hid)
    rw [turned_inherits hn hop, inferred_inherits hop, firstInputLayout_eq hnode,
      firstTensor_turn rfl]
    refine and_congr_right fun _ => ?_
    cases firstTensor a n with
    | none => simp
    | some x =>
      simp only [Option.some.injEq, Option.map_some]
      constructor
      · rintro ⟨j, layout, rfl, rfl | ⟨hlt, hj⟩⟩
        · exact ite_self _
        · exact if_pos ((hcols j).mpr ⟨hj, hlt⟩)
      · intro hx
        refine ⟨x.1, x.2, rfl, ?_⟩
        split at hx
        · next hj => exact .inr ((hcols x.1).mp hj).symm
        · exact .inl hx
  · cases hcase : n.op with
    | transpose perm rank =>
      rw [turned_transpose hn hcase]
      simp [inferred]
    | matmul ta tb =>
      refine iff_of_false (not_turned_matmul hn hcase) ?_
      rintro ⟨-, hcol⟩
      cases hcol
    | _ => exact absurd (by rw [hcase]; rfl) hop

theorem turn_cons (hi : id.index ∉ cols) (hn : (turn a cols).node id = .ok n) :
    (turn a cols).rewrite id (Node.withLayout .colMajor) = turn a (id.index :: cols) := by
  rw [rewrite_eq hn]
  simp only [turn, mapSlots, List.mapIdx_mapIdx]
  congr 1
  refine List.mapIdx_eq_mapIdx_iff.mpr fun j hj => ?_
  by_cases hji : j = id.index
  · subst hji
    simp [hi]
  · simp [hji]

theorem inferStep_turn {count : Nat} (hn : (id, n) ∈ a.liveNodes)
    (hty : n.ty.tensorLayout.isSome = true) (hid : id.index ∉ cols)
    (hcols : ∀ j, j ∈ cols ↔ Turned a j ∧ j < id.index) :
    (Turned a id.index → inferStep (turn a cols, count) (id, n.op) =
      (turn a (id.index :: cols), count + 1)) ∧
    (¬ Turned a id.index → inferStep (turn a cols, count) (id, n.op) = (turn a cols, count)) := by
  have hnode : (turn a cols).node id = .ok n := by
    rw [turn, mapSlots_node, node_of_live hn]
    exact congrArg Except.ok (if_neg hid)
  have hiff := inferred_turn hn hid hcols
  cases hcase : n.ty with
  | tensor t =>
    rw [hcase] at hiff
    constructor
    · intro h
      obtain ⟨hrow, hcol⟩ := hiff.mp h
      have hlayout : t.layout = .rowMajor := Option.some.inj hrow
      simp only [inferStep, hcol, hnode, hcase]
      rw [if_pos ⟨by rw [hlayout]; decide, hlayout⟩, turn_cons hid hnode]
    · intro h
      cases hinf : inferred (turn a cols) id n.op with
      | none => simp only [inferStep, hinf]
      | some layout =>
        simp only [inferStep, hinf, hnode, hcase]
        refine if_neg fun hchange => h (hiff.mpr ?_)
        refine ⟨congrArg some hchange.2, ?_⟩
        rw [hinf]
        cases layout with
        | rowMajor => exact absurd hchange.2 hchange.1
        | colMajor => rfl
  | _ =>
    rw [hcase] at hty
    cases hty

/-- After the visits of a prefix, the slots turned are those of the prefix
that a run turns. -/
theorem infer_prefix {pre rest : List (NodeId × Op)} (h : tensorNodes a = pre ++ rest) :
    ∃ cols, pre.foldl inferStep (a, 0) = (turn a cols, cols.length) ∧
      ∀ j, j ∈ cols ↔ Turned a j ∧ j ∈ pre.map (·.1.index) := by
  induction pre using List.reverseRecOn generalizing rest with
  | nil =>
    refine ⟨[], ?_, by simp⟩
    rw [turn, mapSlots_nil]
    rfl
  | append_singleton pre x ih =>
    rw [List.append_assoc] at h
    obtain ⟨cols, hfold, hcols⟩ := ih h
    obtain ⟨n, hn, hop, hty⟩ :=
      Level1.mem_tensorNodes.mp (h ▸ List.mem_append_right _ List.mem_cons_self)
    have hsorted := @tensorNodes_sorted a
    rw [h, List.map_append, List.pairwise_append] at hsorted
    have hbefore : ∀ j ∈ pre.map (·.1.index), j < x.1.index :=
      fun j hj => hsorted.2.2 j hj _ (List.mem_map.mpr ⟨x, List.mem_cons_self, rfl⟩)
    have hid : x.1.index ∉ cols := fun hx => absurd (hbefore _ ((hcols _).mp hx).2) (lt_irrefl _)
    have hcols' : ∀ j, j ∈ cols ↔ Turned a j ∧ j < x.1.index := by
      intro j
      rw [hcols]
      refine and_congr_right fun hj => ⟨hbefore j, fun hlt => ?_⟩
      -- an earlier tensor node stands in the prefix
      have hmem := hj.mem_tensorNodes
      rw [h, List.map_append, List.mem_append] at hmem
      refine hmem.resolve_right fun hin => ?_
      rcases List.mem_cons.mp hin with heq | hrest
      · exact absurd heq hlt.ne
      · have htail := (List.pairwise_cons.mp hsorted.2.1).1 j hrest
        exact absurd hlt htail.not_gt
    obtain ⟨hyes, hno⟩ := @inferStep_turn a x.1 n cols cols.length hn hty hid hcols'
    rw [List.foldl_append, hfold, List.foldl_cons, List.foldl_nil]
    have hx : x = (x.1, n.op) := by rw [hop]
    by_cases hturned : Turned a x.1.index
    · refine ⟨x.1.index :: cols, ?_, fun j => ?_⟩
      · rw [hx]
        exact hyes hturned
      · rw [List.map_append, List.mem_append, List.mem_cons, hcols]
        constructor
        · rintro (rfl | ⟨hj, hpre⟩)
          · exact ⟨hturned, .inr (List.mem_map.mpr ⟨x, List.mem_cons_self, rfl⟩)⟩
          · exact ⟨hj, .inl hpre⟩
        · rintro ⟨hj, hpre | hself⟩
          · exact .inr ⟨hj, hpre⟩
          · exact .inl (by simpa using hself)
    · refine ⟨cols, ?_, fun j => ?_⟩
      · rw [hx]
        exact hno hturned
      · rw [List.map_append, List.mem_append, hcols]
        refine and_congr_right fun hj => ⟨.inl, fun hpre => hpre.resolve_right fun hself => ?_⟩
        have hjx : j = x.1.index := by simpa using hself
        exact hturned (hjx ▸ hj)

end Level1

open Level1

/-- A run turns the slots of `Turned` and counts them. -/
theorem layoutInfer_eq (a : IrArena) : ∃ cols, layoutInfer a = (turn a cols, cols.length) ∧
    ∀ i, i ∈ cols ↔ Turned a i := by
  obtain ⟨cols, hfold, hcols⟩ := infer_prefix (List.append_nil (tensorNodes a)).symm
  refine ⟨cols, hfold, fun i => ?_⟩
  rw [hcols]
  exact and_iff_left_of_imp fun h => h.mem_tensorNodes

end Sxla
