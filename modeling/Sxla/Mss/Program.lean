import Sxla.Library.Checked
import Sxla.Library.CheckedInt
import Sxla.Library.Transition

/-!
# Sea-of-nodes programs

A program is an arena of nodes, each named by its slot, and a root. The
builder appends nodes behind their operands, so the interpreter reads the
slots in order. The columns of the arena are the fields of its rows here.

Slots are `u32`: both take the count of the slots by a cast that drops what
passes 32 bits.
-/

namespace Sxla.Mss

/-- `n as u32`. -/
def u32 (n : Nat) : Nat := n % 0x100000000

def NO_OPERAND : Nat := 0xFFFFFFFF

inductive Kind where
  | const
  | param
  | bin
  | un
  | alias
  | dead
deriving DecidableEq, Repr

/-- `kind as u8`. -/
def Kind.code : Kind → Nat
  | .const => 0
  | .param => 1
  | .bin => 2
  | .un => 3
  | .alias => 4
  | .dead => 5

inductive BinOp where
  | add
  | sub
  | mul
  | min
  | max
deriving DecidableEq, Repr

def BinOp.code : BinOp → Nat
  | .add => 0
  | .sub => 1
  | .mul => 2
  | .min => 3
  | .max => 4

inductive UnOp where
  | neg
deriving DecidableEq, Repr

def UnOp.code : UnOp → Nat
  | .neg => 0

structure NodeDef where
  kind : Kind
  imm : Int64
  opcode : Nat
  lhs : Nat
  rhs : Nat
deriving DecidableEq, Repr

structure Program where
  arena : List NodeDef
  root : Nat
deriving DecidableEq, Repr

inductive BuildError where
  | badOperand
deriving DecidableEq, Repr

structure ProgramBuilder where
  arena : List NodeDef

namespace ProgramBuilder

def new : ProgramBuilder := ⟨[]⟩

def checkOperand (b : ProgramBuilder) (slot : UInt32) : Except BuildError Unit :=
  if slot.toNat = NO_OPERAND ∨ slot.toNat ≥ b.arena.length then .error .badOperand else .ok ()

/-- The builder with one more node, and the node's slot. -/
def push (b : ProgramBuilder) (d : NodeDef) : ProgramBuilder × UInt32 :=
  (⟨b.arena ++ [d]⟩, .ofNat b.arena.length)

def constI64 (b : ProgramBuilder) (value : Int64) : ProgramBuilder × UInt32 :=
  b.push ⟨.const, value, 0, NO_OPERAND, NO_OPERAND⟩

def param (b : ProgramBuilder) (index : UInt32) : ProgramBuilder × UInt32 :=
  b.push ⟨.param, .ofNat index.toNat, 0, NO_OPERAND, NO_OPERAND⟩

def bin (b : ProgramBuilder) (op : BinOp) (lhs rhs : UInt32) :
    Except BuildError (ProgramBuilder × UInt32) := do
  b.checkOperand lhs
  b.checkOperand rhs
  return b.push ⟨.bin, 0, op.code, lhs.toNat, rhs.toNat⟩

def un (b : ProgramBuilder) (op : UnOp) (operand : UInt32) :
    Except BuildError (ProgramBuilder × UInt32) := do
  b.checkOperand operand
  return b.push ⟨.un, 0, op.code, operand.toNat, NO_OPERAND⟩

def finish (b : ProgramBuilder) (root : UInt32) : Except BuildError Program :=
  if root.toNat ≥ b.arena.length then .error .badOperand else .ok ⟨b.arena, root.toNat⟩

/-- The builders that a sequence of calls leaves. -/
inductive Reached : ProgramBuilder → Prop
  | new : Reached .new
  | constI64 {b : ProgramBuilder} (h : Reached b) (value : Int64) : Reached (b.constI64 value).1
  | param {b : ProgramBuilder} (h : Reached b) (index : UInt32) : Reached (b.param index).1
  | bin {b : ProgramBuilder} {op : BinOp} {lhs rhs : UInt32} {r : ProgramBuilder × UInt32}
      (h : Reached b) (hr : b.bin op lhs rhs = .ok r) : Reached r.1
  | un {b : ProgramBuilder} {op : UnOp} {operand : UInt32} {r : ProgramBuilder × UInt32}
      (h : Reached b) (hr : b.un op operand = .ok r) : Reached r.1

end ProgramBuilder

/-- The program comes out of `finish`. -/
def Program.Built (p : Program) : Prop :=
  ∃ b root, ProgramBuilder.Reached b ∧ b.finish root = .ok p

-- rows that a builder can leave

def BinOp.ofCode? (code : Nat) : Option BinOp :=
  [BinOp.add, .sub, .mul, .min, .max].find? (·.code = code)

/-- A call of the builder with so many nodes appends the node. -/
def NodeDef.Appended (d : NodeDef) (len : Nat) : Prop :=
  d = ⟨.const, d.imm, 0, NO_OPERAND, NO_OPERAND⟩ ∨
  d = ⟨.param, .ofNat (UInt32.ofNat d.imm.toInt.toNat).toNat, 0, NO_OPERAND, NO_OPERAND⟩ ∨
  (d = ⟨.bin, 0, d.opcode, d.lhs, d.rhs⟩ ∧ (BinOp.ofCode? d.opcode).isSome ∧ d.lhs < len ∧
    d.rhs < len ∧ d.lhs < NO_OPERAND ∧ d.rhs < NO_OPERAND) ∨
  (d = ⟨.un, 0, UnOp.neg.code, d.lhs, NO_OPERAND⟩ ∧ d.lhs < len ∧ d.lhs < NO_OPERAND)

instance (d : NodeDef) (len : Nat) : Decidable (d.Appended len) :=
  inferInstanceAs (Decidable (_ ∨ _))

namespace ProgramBuilder

theorem checkOperand_ok {b : ProgramBuilder} {slot : Nat} (hlt : slot < b.arena.length)
    (hslot : slot < NO_OPERAND) :
    b.checkOperand (.ofNat slot) = .ok () ∧ (UInt32.ofNat slot).toNat = slot := by
  have hword : (UInt32.ofNat slot).toNat = slot :=
    UInt32.toNat_ofNat_of_lt' (hslot.trans (by decide))
  refine ⟨?_, hword⟩
  rw [checkOperand, hword, if_neg]
  rintro (heq | hge)
  · exact absurd heq (Nat.ne_of_lt hslot)
  · exact absurd hlt (Nat.not_lt_of_le hge)

theorem Reached.append {b : ProgramBuilder} {d : NodeDef} (h : Reached b)
    (hd : d.Appended b.arena.length) : Reached ⟨b.arena ++ [d]⟩ := by
  rcases hd with hd | hd | ⟨hd, hop, hl, hr, hl', hr'⟩ | ⟨hd, hl, hl'⟩
  · rw [hd]
    exact h.constI64 d.imm
  · rw [hd]
    exact h.param (.ofNat d.imm.toInt.toNat)
  · obtain ⟨op, hop⟩ := Option.isSome_iff_exists.mp hop
    have hcode : op.code = d.opcode := by
      have hfound := List.find?_some hop
      exact of_decide_eq_true hfound
    obtain ⟨hlok, hlword⟩ := checkOperand_ok hl hl'
    obtain ⟨hrok, hrword⟩ := checkOperand_ok hr hr'
    have hbin : b.bin op (.ofNat d.lhs) (.ofNat d.rhs) =
        .ok (b.push ⟨.bin, 0, op.code, d.lhs, d.rhs⟩) := by
      rw [ProgramBuilder.bin, hlok, hrok, hlword, hrword]
      rfl
    have hreached := h.bin hbin
    rw [hcode, ← hd] at hreached
    exact hreached
  · obtain ⟨hlok, hlword⟩ := checkOperand_ok hl hl'
    have hun : b.un .neg (.ofNat d.lhs) =
        .ok (b.push ⟨.un, 0, UnOp.neg.code, d.lhs, NO_OPERAND⟩) := by
      rw [ProgramBuilder.un, hlok, hlword]
      rfl
    have hreached := h.un hun
    rw [← hd] at hreached
    exact hreached

/-- Rows that each name rows before them come out of a builder. -/
theorem reached_of_rows {arena : List NodeDef}
    (h : ∀ (i : Nat) (d : NodeDef), arena[i]? = some d → d.Appended i) : Reached ⟨arena⟩ := by
  induction arena using List.reverseRecOn with
  | nil => exact .new
  | append_singleton arena d ih =>
    have hinit : Reached ⟨arena⟩ := by
      apply ih
      intro i row hi
      apply h i row
      rw [List.getElem?_append_left (List.getElem?_eq_some_iff.mp hi).1]
      exact hi
    exact hinit.append (h arena.length d List.getElem?_concat_length)

theorem of_checkOperand {b : ProgramBuilder} {slot : UInt32} (h : b.checkOperand slot = .ok ()) :
    slot.toNat < b.arena.length ∧ slot.toNat < NO_OPERAND := by
  unfold checkOperand at h
  split at h
  · cases h
  · next hin =>
    rw [not_or] at hin
    have hword : slot.toNat < 0x100000000 := slot.toNat_lt
    have hnone := hin.1
    rw [NO_OPERAND] at hnone ⊢
    omega

theorem appended_param (index : UInt32) (len : Nat) :
    NodeDef.Appended ⟨.param, .ofNat index.toNat, 0, NO_OPERAND, NO_OPERAND⟩ len := by
  refine .inr (.inl ?_)
  have hword : index.toNat < 0x100000000 := index.toNat_lt
  have himm : (Int64.ofNat index.toNat).toInt.toNat = index.toNat := by
    rw [Int64.toInt_ofNat_of_lt (by omega)]
    rfl
  dsimp only
  rw [himm, UInt32.ofNat_toNat]

/-- The rows of a builder each name rows before them. -/
theorem Reached.rows {b : ProgramBuilder} (h : Reached b) :
    ∀ (i : Nat) (d : NodeDef), b.arena[i]? = some d → d.Appended i := by
  have hpush : ∀ (b : ProgramBuilder) (row : NodeDef),
      (∀ (i : Nat) (d : NodeDef), b.arena[i]? = some d → d.Appended i) →
      row.Appended b.arena.length →
      ∀ (i : Nat) (d : NodeDef), (b.push row).1.arena[i]? = some d → d.Appended i := by
    intro b row hrows hrow i d hi
    change (b.arena ++ [row])[i]? = some d at hi
    by_cases hlt : i < b.arena.length
    · rw [List.getElem?_append_left hlt] at hi
      exact hrows i d hi
    · have hlen := (List.getElem?_eq_some_iff.mp hi).1
      rw [List.length_append, List.length_singleton] at hlen
      obtain rfl : i = b.arena.length := by omega
      rw [List.getElem?_concat_length] at hi
      cases hi
      exact hrow
  induction h with
  | new => exact fun i d hi => by cases hi
  | constI64 _ value ih => exact hpush _ _ ih (.inl rfl)
  | param _ index ih => exact hpush _ _ ih (appended_param index _)
  | @bin b op lhs rhs r _ hr ih =>
    obtain ⟨_, hl, hr⟩ := Checked.bind_ok.mp hr
    obtain ⟨_, hr', hr⟩ := Checked.bind_ok.mp hr
    cases Checked.pure_ok.mp hr
    obtain ⟨hl, hlword⟩ := of_checkOperand hl
    obtain ⟨hr, hrword⟩ := of_checkOperand hr'
    refine hpush _ _ ih (.inr (.inr (.inl ⟨rfl, ?_, hl, hr, hlword, hrword⟩)))
    cases op <;> rfl
  | @un b op operand r _ hr ih =>
    obtain ⟨_, ho, hr⟩ := Checked.bind_ok.mp hr
    cases Checked.pure_ok.mp hr
    obtain ⟨ho, hword⟩ := of_checkOperand ho
    exact hpush _ _ ih (.inr (.inr (.inr ⟨by cases op; rfl, ho, hword⟩)))

end ProgramBuilder

theorem NodeDef.Appended.not_alias {d : NodeDef} {len : Nat} (h : d.Appended len) :
    d.kind ≠ .alias := by
  rcases h with h | h | ⟨h, -⟩ | ⟨h, -⟩ <;> rw [h] <;> nofun

theorem NodeDef.Appended.not_dead {d : NodeDef} {len : Nat} (h : d.Appended len) :
    d.kind ≠ .dead := by
  rcases h with h | h | ⟨h, -⟩ | ⟨h, -⟩ <;> rw [h] <;> nofun

theorem NodeDef.Appended.bin_words {d : NodeDef} {len : Nat} (h : d.Appended len)
    (hk : d.kind = .bin) : d.lhs < NO_OPERAND ∧ d.rhs < NO_OPERAND := by
  rcases h with h | h | ⟨-, -, -, -, hl, hr⟩ | ⟨h, -⟩
  · rw [h] at hk
    cases hk
  · rw [h] at hk
    cases hk
  · exact ⟨hl, hr⟩
  · rw [h] at hk
    cases hk

theorem NodeDef.Appended.un_words {d : NodeDef} {len : Nat} (h : d.Appended len)
    (hk : d.kind = .un) : d.lhs < NO_OPERAND ∧ d.rhs = NO_OPERAND := by
  rcases h with h | h | ⟨h, -⟩ | ⟨h, -, hl⟩
  · rw [h] at hk
    cases hk
  · rw [h] at hk
    cases hk
  · rw [h] at hk
    cases hk
  · exact ⟨hl, congrArg NodeDef.rhs h⟩

theorem Program.Built.rows {p : Program} (h : p.Built) {i : Nat} {d : NodeDef}
    (hi : p.arena[i]? = some d) : d.Appended i := by
  obtain ⟨b, root, hb, hfinish⟩ := h
  unfold ProgramBuilder.finish at hfinish
  split at hfinish
  · cases hfinish
  · cases hfinish
    exact hb.rows i d hi

/-- A program whose rows each name rows before them is built. -/
theorem Program.built_of_rows {p : Program}
    (hrows : ∀ (i : Nat) (d : NodeDef), p.arena[i]? = some d → d.Appended i)
    (hroot : p.root < p.arena.length) (hword : p.root < 0x100000000) : p.Built := by
  refine ⟨⟨p.arena⟩, .ofNat p.root, ProgramBuilder.reached_of_rows hrows, ?_⟩
  have hroot' : (UInt32.ofNat p.root).toNat = p.root := UInt32.toNat_ofNat_of_lt' hword
  rw [ProgramBuilder.finish, hroot', if_neg (Nat.not_le_of_lt hroot)]

/-- The rows of a given arena, one by one. -/
theorem Program.built_of_check {p : Program}
    (hrows : ∀ i < p.arena.length, (p.arena.getD i ⟨.dead, 0, 0, 0, 0⟩).Appended i)
    (hroot : p.root < p.arena.length) (hword : p.root < 0x100000000) : p.Built := by
  refine built_of_rows (fun i d hi => ?_) hroot hword
  have hlt := (List.getElem?_eq_some_iff.mp hi).1
  have hrow := hrows i hlt
  rw [List.getD_eq_getElem?_getD, hi] at hrow
  exact hrow

-- ---------------------------------------------------------------------------
-- The interpreter
-- ---------------------------------------------------------------------------

inductive InterpError where
  | deadRoot
  | danglingOperand (slot : Nat)
  | missingParam (index : Nat)
  | unknownOpcode (opcode : Nat)
deriving DecidableEq, Repr

namespace Program

/-- Follows aliases for a number of hops. -/
def resolveFrom (p : Program) : Nat → Nat → Option Nat
  | hops, cur => do
    let d ← p.arena[cur]?
    if d.kind = .alias then
      if d.lhs = NO_OPERAND then none
      else match hops with
        | 0 => none
        | hops + 1 => p.resolveFrom hops d.lhs
    else some cur

def resolve (p : Program) (slot : Nat) : Option Nat := p.resolveFrom p.arena.length slot

end Program

/-- The operation of an opcode, on wrapping integers. -/
def binValue (opcode : Nat) (lv rv : Int64) : Except InterpError Int64 :=
  if opcode = BinOp.add.code then .ok (lv + rv)
  else if opcode = BinOp.sub.code then .ok (lv - rv)
  else if opcode = BinOp.mul.code then .ok (lv * rv)
  else if opcode = BinOp.min.code then .ok (min lv rv)
  else if opcode = BinOp.max.code then .ok (max lv rv)
  else .error (.unknownOpcode opcode)

def unValue (opcode : Nat) (ov : Int64) : Except InterpError Int64 :=
  if opcode = UnOp.neg.code then .ok (-ov) else .error (.unknownOpcode opcode)

def paramValue (params : List Int64) (imm : Int64) : Except InterpError Int64 :=
  if imm < 0 then .error (.missingParam (imm.toUInt64.toNat % 0x100000000))
  else match params[imm.toInt.toNat]? with
    | some v => .ok v
    | none => .error (.missingParam (imm.toUInt64.toNat % 0x100000000))

namespace Program

/-- The slot that an operand of the node in `slot` stands for. -/
def target (p : Program) (slot operand : Nat) : Except InterpError Nat :=
  match p.resolve operand with
  | none => .error (.danglingOperand slot)
  | some t => .ok t

end Program

def computed (values : List (Option Int64)) (slot : Nat) : Except InterpError Int64 :=
  match values[slot]? with
  | some (some v) => .ok v
  | _ => .error (.danglingOperand slot)

namespace Program

/-- The value of a node; nothing for a slot that holds none. -/
def nodeValue (p : Program) (params : List Int64) (values : List (Option Int64)) (slot : Nat)
    (d : NodeDef) : Except InterpError (Option Int64) :=
  match d.kind with
  | .const => .ok (some d.imm)
  | .param => do return some (← paramValue params d.imm)
  | .bin => do
    let l ← p.target slot d.lhs
    let r ← p.target slot d.rhs
    return some (← binValue d.opcode (← computed values l) (← computed values r))
  | .un => do
    let o ← p.target slot d.lhs
    return some (← unValue d.opcode (← computed values o))
  | .alias | .dead => .ok none

/-- One slot of the loop. The slots without a value keep `none`. -/
def evalSlot (p : Program) (params : List Int64) (values : List (Option Int64)) (slot : Nat) :
    Except InterpError (List (Option Int64)) :=
  match p.arena[slot]? with
  | none => .ok values
  | some d =>
    if d.kind = .dead then .ok values
    else match p.resolve slot with
      | none => if slot = p.root then .error (.danglingOperand slot) else .ok values
      | some target =>
        if target ≠ slot then .ok values
        else do
          match ← p.nodeValue params values slot d with
          | some v => return values.set slot (some v)
          | none => return values

def evaluate (p : Program) (params : List Int64) : Except InterpError Int64 := do
  match p.arena[p.root]? with
  | none => throw .deadRoot
  | some d => if d.kind = .dead then throw .deadRoot
  let values ← (List.range (u32 p.arena.length)).foldlM (p.evalSlot params)
    (List.replicate p.arena.length none)
  match p.resolve p.root with
  | none => throw .deadRoot
  | some target => match values[target]? with
    | some (some v) => return v
    | _ => throw .deadRoot

end Program

end Sxla.Mss
