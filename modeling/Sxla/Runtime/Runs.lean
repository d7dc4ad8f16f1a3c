import Sxla.Library.Ends
import Sxla.Runtime.Interp

/-!
# Runs of a program

The tables a run goes through, and the frame of one instruction: whatever it
computes, it writes its destination and nothing else.
-/

namespace Sxla

open Checked Interp

variable {libm : Libm} {program : TargetProgram} {params : List Value} {i : Instr}
  {rest : List Instr} {table table' : List Value} {v : Value} {dst slot a b x : Nat}

/-- The table after the first steps of a run, and the steps still to come. -/
def Reaches (libm : Libm) (program : TargetProgram) (params : List Value) (table : List Value)
    (rest : List Instr) : Prop :=
  ∃ l, program.instrs = l ++ rest ∧
    l.foldlM (runInstr libm) (initialTable program params) = .ok table

theorem Reaches.start : Reaches libm program params (initialTable program params) program.instrs :=
  ⟨[], rfl, rfl⟩

theorem Reaches.step (h : Reaches libm program params table (i :: rest))
    (hi : runInstr libm table i = .ok table') : Reaches libm program params table' rest := by
  obtain ⟨l, hl, hrun⟩ := h
  refine ⟨l ++ [i], by simp [hl], ?_⟩
  rw [foldlM_append_cons, hrun]
  exact (bind_ok (x := runInstr libm table i)).mpr ⟨table', hi, rfl⟩

-- ---------------------------------------------------------------------------
-- Frames
-- ---------------------------------------------------------------------------

/-- The table with another value in the slot. -/
def Stores (table : List Value) (dst : Nat) (table' : List Value) : Prop :=
  ∃ v, dst < table.length ∧ table' = table.set dst v

theorem Stores.getElem?_ne (h : Stores table dst table') (hx : x ≠ dst) : table'[x]? = table[x]? := by
  obtain ⟨v, _, rfl⟩ := h
  exact List.getElem?_set_ne hx.symm

namespace Interp

/-- Whatever else happens, a result is the old table with one slot written. -/
abbrev Frame (table : List Value) (dst : Nat) : Run (List Value) → Prop :=
  Ends (fun _ => True) (Stores table dst)

theorem store_frame : Frame table dst (store table dst v) :=
  .ite (fun h => ⟨v, h, rfl⟩) fun _ => trivial

theorem bind_frame {x : Run α} {f : α → Run (List Value)} (h : ∀ a, Frame table dst (f a)) :
    Frame table dst (x >>= f) :=
  ends_any.bind fun a _ => h a

theorem binOp_frame : Frame table dst (binOp table dst a b f) := by
  refine bind_frame fun va => bind_frame fun vb => ?_
  split
  · exact bind_frame fun _ => store_frame
  · exact bind_frame fun _ => store_frame
  · exact bind_frame fun _ => store_frame
  · exact bind_frame fun _ => store_frame
  · exact .ite (fun _ => trivial) fun _ => bind_frame fun _ => store_frame
  · trivial

theorem unOp_frame : Frame table dst (unOp table dst a f) := by
  refine bind_frame fun v => ?_
  split
  · exact store_frame
  · exact store_frame
  · trivial

theorem reduce_frame : Frame table dst (reduce table dst a axis monoid) := by
  refine bind_frame fun v => ?_
  split
  · exact store_frame
  · trivial
  · refine .ite (fun _ => trivial) fun _ => bind_frame fun _ => bind_frame fun _ => ?_
    exact .ite (fun _ => bind_frame fun _ => store_frame) fun _ => store_frame

theorem matmul_frame : Frame table dst (matmul table dst a b ta tb) := by
  refine bind_frame fun _ => bind_frame fun _ => bind_frame fun _ => bind_frame fun _ => ?_
  split
  · exact .ite (fun _ => trivial) fun _ => bind_frame fun _ => bind_frame fun _ => store_frame
  · trivial

theorem transpose_frame : Frame table dst (transpose table dst a) := by
  refine bind_frame fun v => ?_
  split
  · split
    · exact bind_frame fun _ => bind_frame fun _ => store_frame
    · trivial
  · trivial

theorem conv_frame : Frame table dst (conv table dst a b padding stride) := by
  refine bind_frame fun _ => bind_frame fun _ => bind_frame fun _ => bind_frame fun _ => ?_
  split
  · refine .ite (fun _ => trivial) fun _ => .ite (fun _ => trivial) fun _ => ?_
    exact .ite (fun _ => trivial) fun _ => bind_frame fun _ => bind_frame fun _ => store_frame
  · trivial

theorem rng_frame {dist : RngDist} : Frame table dst (rng libm table dst seed dist) :=
  bind_frame fun _ => .ite (fun _ => bind_frame fun _ => store_frame) fun _ => store_frame

theorem runInstr_frame (libm : Libm) (table : List Value) (i : Instr) :
    Frame table i.dst (runInstr libm table i) := by
  cases i with
  | add dst a b | sub dst a b | mul dst a b | max dst a b | min dst a b | div dst a b =>
    exact binOp_frame
  | neg dst a | relu dst a | exp dst a | log dst a => exact unOp_frame
  | dot dst a b =>
    exact bind_frame fun _ => bind_frame fun _ =>
      .ite (fun _ => trivial) fun _ => bind_frame fun _ => store_frame
  | reduce dst a axis monoid => exact reduce_frame
  | matmul dst a b ta tb => exact matmul_frame
  | broadcast dst a | mov dst a => exact bind_frame fun _ => store_frame
  | transpose dst a => exact transpose_frame
  | conv dst a b padding stride => exact conv_frame
  | rng dst seed dist => exact rng_frame
  | constF64 dst v | constI64 dst v => exact store_frame

end Interp

theorem stores_of_runInstr (h : runInstr libm table i = .ok table') :
    Stores table i.dst table' := by
  have := runInstr_frame libm table i
  rwa [h] at this

/-- Instructions that all write other slots leave a slot alone. -/
theorem foldlM_runInstr_frame {l : List Instr} (h : l.foldlM (runInstr libm) table = .ok table')
    (hl : ∀ i ∈ l, x ≠ i.dst) : table'[x]? = table[x]? := by
  induction l generalizing table with
  | nil =>
    rw [List.foldlM_nil, pure_ok] at h
    rw [h]
  | cons i l ih =>
    rw [List.foldlM_cons, bind_ok] at h
    obtain ⟨t, ht, h⟩ := h
    rw [ih h fun i hi => hl i (List.mem_cons_of_mem _ hi)]
    exact (stores_of_runInstr ht).getElem?_ne (hl i (by simp))

end Sxla
