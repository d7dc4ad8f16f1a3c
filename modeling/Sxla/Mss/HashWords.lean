import Mathlib
import Sxla.Mss.CriticalPath

/-!
# The words of the canonical hash

Each live slot gives five words, with its operands resolved and without the
number of the slot, and the last word is the root as it stands. So two
candidates give the same words where their live definitions are the same list
and their roots the same slot, whatever aliases that slot stands for.
-/

namespace Sxla.Mss

def NodeDef.Typed (d : NodeDef) : Prop :=
  d.opcode < 0x100 ∧ d.lhs < 0x100000000 ∧ d.rhs < 0x100000000

instance (d : NodeDef) : Decidable d.Typed := inferInstanceAs (Decidable (_ ∧ _))

def Overlay.definition : Overlay → NodeDef
  | .replace _ d | .extend d => d

/-- A live slot as the hash sees it. -/
structure Effective where
  kind : Kind
  opcode : Nat
  imm : Int64
  lhs : Option Nat
  rhs : Option Nat
deriving DecidableEq, Repr

/-- The exclusive or of a word with its upper half. -/
def mixed (x : UInt64) : UInt64 := x ^^^ (x >>> 32)

namespace Candidate

/-- The columns are bytes and 32-bit words. -/
structure Typed (c : Candidate) : Prop where
  base : ∀ d ∈ c.base.arena, d.Typed
  overlays : ∀ o ∈ c.overlays, o.definition.Typed
  root : c.root < 0x100000000

/-- What the hash takes a slot to stand for. -/
def hashTarget (c : Candidate) (slot : Nat) : Nat := c.follow (c.slotCount + 1) slot

def hashOperand (c : Candidate) (operand : Nat) : Option Nat :=
  if operand = NO_OPERAND then none else some (c.hashTarget operand)

def effective (c : Candidate) (slot : Nat) : Effective :=
  ⟨(c.view slot).kind, (c.view slot).opcode, (c.view slot).imm, c.hashOperand (c.view slot).lhs,
    c.hashOperand (c.view slot).rhs⟩

/-- The same live slots with equal definitions, and the same resolved root. -/
def SameGraph (c d : Candidate) : Prop :=
  c.liveSlots = d.liveSlots ∧ (∀ slot ∈ c.liveSlots, c.effective slot = d.effective slot) ∧
    c.hashTarget c.root = d.hashTarget d.root

def slotWords (c : Candidate) (slot : Nat) : List UInt64 :=
  [.ofNat (c.view slot).kind.code, .ofNat (c.view slot).opcode, mixed (c.view slot).imm.toUInt64,
    c.operandWord (c.view slot).lhs, c.operandWord (c.view slot).rhs]

def words (c : Candidate) : List UInt64 := c.liveSlots.flatMap c.slotWords ++ [UInt64.ofNat c.root]

variable {c d : Candidate} {slot operand : Nat}

/-- The hash is that of the words. -/
theorem canonicalHash_eq (c : Candidate) :
    c.canonicalHash = c.words.foldl hashWord 0xCBF29CE484222325 := by
  have hslots : ∀ (l : List Nat) (h : UInt64), l.foldl c.hashSlot h =
      ((l.filter fun s => (c.view s).kind ≠ .dead ∧ (c.view s).kind ≠ .alias).flatMap
        c.slotWords).foldl hashWord h := by
    intro l
    induction l with
    | nil => exact fun h => rfl
    | cons slot l ih =>
      intro h
      rw [List.foldl_cons, ih]
      by_cases hlive : (c.view slot).kind ≠ .dead ∧ (c.view slot).kind ≠ .alias
      · have hskip : ¬ ((c.view slot).kind = .dead ∨ (c.view slot).kind = .alias) := not_or.mpr hlive
        rw [List.filter_cons_of_pos (by simpa using hlive), List.flatMap_cons, List.foldl_append]
        have hhash : c.hashSlot h slot = (c.slotWords slot).foldl hashWord h := if_neg hskip
        rw [hhash]
      · have hskip : (c.view slot).kind = .dead ∨ (c.view slot).kind = .alias := by
          by_contra hnot
          exact hlive (not_or.mp hnot)
        have hhash : c.hashSlot h slot = h := if_pos hskip
        rw [List.filter_cons_of_neg (by simpa using hlive), hhash]
  rw [canonicalHash, words, List.foldl_append, hslots, List.foldl_cons, List.foldl_nil, liveSlots]

-- ---------------------------------------------------------------------------
-- No word is lost
-- ---------------------------------------------------------------------------

theorem view_typed (hc : c.Typed) (slot : Nat) : (c.view slot).Typed := by
  have hbase : (c.baseDef slot).Typed := by
    have hdead : deadDef.Typed := by decide
    unfold baseDef
    split
    · rw [List.getD_eq_getElem?_getD]
      cases hget : c.base.arena[slot]? with
      | none => exact hdead
      | some d => exact hc.base d (List.mem_of_getElem? hget)
    · exact hdead
  have hreplay : ∀ (l : List Overlay) (s : NodeDef × Nat), (∀ o ∈ l, o.definition.Typed) →
      s.1.Typed → (l.foldl (replay slot) s).1.Typed := by
    intro l
    induction l with
    | nil => exact fun s _ hs => hs
    | cons o l ih =>
      intro s hall hs
      rw [List.forall_mem_cons] at hall
      apply ih _ hall.2
      cases o with
      | replace target d =>
        rw [replay]
        split
        · exact hall.1
        · exact hs
      | extend d =>
        rw [replay]
        split
        · exact hall.1
        · exact hs
  exact hreplay c.overlays _ hc.overlays hbase

/-- No slot that an operand stands for is the word of a missing one. -/
theorem follow_bound (fuel : Nat) (hc : c.Typed) (hlt : slot < 0x100000000) (hne : slot ≠ NO_OPERAND) :
    c.follow fuel slot < 0x100000000 ∧ c.follow fuel slot ≠ NO_OPERAND := by
  induction fuel generalizing slot with
  | zero => exact ⟨hlt, hne⟩
  | succ fuel ih =>
    rw [follow]
    split
    · split
      · exact ⟨hlt, hne⟩
      · next hsome => exact ih (view_typed hc slot).2.1 hsome
    · exact ⟨hlt, hne⟩

theorem ofNat_inj {m n : Nat} (hm : m < 0x100000000) (hn : n < 0x100000000) :
    UInt64.ofNat m = .ofNat n ↔ m = n := by
  refine ⟨fun h => ?_, fun h => h ▸ rfl⟩
  have hnat := congrArg UInt64.toNat h
  rwa [UInt64.toNat_ofNat_of_lt' (hm.trans (by decide)),
    UInt64.toNat_ofNat_of_lt' (hn.trans (by decide))] at hnat

theorem operandWord_inj (hc : c.Typed) (hd : d.Typed) {o o' : Nat} (ho : o < 0x100000000)
    (ho' : o' < 0x100000000) :
    c.operandWord o = d.operandWord o' ↔ c.hashOperand o = d.hashOperand o' := by
  have hnone : NO_OPERAND < 0x100000000 := by decide
  unfold operandWord hashOperand hashTarget
  by_cases h : o = NO_OPERAND <;> by_cases h' : o' = NO_OPERAND
  · rw [if_pos h, if_pos h', if_pos h, if_pos h']
    exact iff_of_true rfl rfl
  · obtain ⟨hlt, hne⟩ := follow_bound (d.slotCount + 1) hd ho' h'
    rw [if_pos h, if_neg h', if_pos h, if_neg h', ofNat_inj hnone hlt]
    exact iff_of_false hne.symm nofun
  · obtain ⟨hlt, hne⟩ := follow_bound (c.slotCount + 1) hc ho h
    rw [if_neg h, if_pos h', if_neg h, if_pos h', ofNat_inj hlt hnone]
    exact iff_of_false hne nofun
  · have hlt := (follow_bound (c.slotCount + 1) hc ho h).1
    have hlt' := (follow_bound (d.slotCount + 1) hd ho' h').1
    rw [if_neg h, if_neg h', if_neg h, if_neg h', ofNat_inj hlt hlt', Option.some_inj]

/-- Folding twice gives the word back. -/
theorem mixed_mixed (x : UInt64) : mixed (mixed x) = x := by
  have hgone : (x >>> 32) >>> 32 = 0 := by
    apply UInt64.toNat_inj.mp
    have hx := x.toNat_lt
    rw [UInt64.toNat_shiftRight, UInt64.toNat_shiftRight]
    simp only [UInt64.reduceToNat, Nat.reduceMod, Nat.shiftRight_eq_div_pow, Nat.reducePow]
    omega
  rw [mixed, mixed, UInt64.shiftRight_xor, hgone, UInt64.xor_zero, UInt64.xor_assoc,
    UInt64.xor_self, UInt64.xor_zero]

theorem mixed_inj {x y : UInt64} : mixed x = mixed y ↔ x = y := by
  refine ⟨fun h => ?_, fun h => h ▸ rfl⟩
  rw [← mixed_mixed x, h, mixed_mixed]

theorem code_inj {k k' : Kind} : UInt64.ofNat k.code = .ofNat k'.code ↔ k = k' := by
  refine ⟨fun h => ?_, fun h => h ▸ rfl⟩
  have hlt : ∀ k : Kind, k.code < 0x100000000 := by
    intro k
    cases k <;> decide
  have hcode := (ofNat_inj (hlt k) (hlt k')).mp h
  cases k <;> cases k' <;> first | rfl | cases hcode

theorem imm_inj {x y : Int64} : x.toUInt64 = y.toUInt64 ↔ x = y := by
  refine ⟨fun h => ?_, fun h => h ▸ rfl⟩
  cases x
  cases y
  exact congrArg Int64.ofUInt64 h

/-- Two slots give the same words where they have the same definition. -/
theorem slotWords_inj (hc : c.Typed) (hd : d.Typed) {s t : Nat} :
    c.slotWords s = d.slotWords t ↔ c.effective s = d.effective t := by
  obtain ⟨hop, hl, hr⟩ := view_typed hc s
  obtain ⟨hop', hl', hr'⟩ := view_typed hd t
  rw [slotWords, slotWords, effective, effective, Effective.mk.injEq]
  simp only [List.cons.injEq, and_true]
  rw [code_inj, ofNat_inj (hop.trans (by decide)) (hop'.trans (by decide)), mixed_inj,
    imm_inj, operandWord_inj hc hd hl hl', operandWord_inj hc hd hr hr']

/-- Words that come five by five can be told apart. -/
theorem flatMap_inj {α : Type} {f g : Nat → List UInt64} {e e' : Nat → α}
    (hf : ∀ s, (f s).length = 5) (hg : ∀ s, (g s).length = 5)
    (hinj : ∀ s t, f s = g t ↔ e s = e' t) {l m : List Nat} :
    l.flatMap f = m.flatMap g ↔ l.map e = m.map e' := by
  induction l generalizing m with
  | nil =>
    cases m with
    | nil => exact iff_of_true rfl rfl
    | cons t m =>
      refine iff_of_false (fun h => ?_) nofun
      have hlen := congrArg List.length h
      rw [List.flatMap_nil, List.length_nil, List.flatMap_cons, List.length_append, hg] at hlen
      omega
  | cons s l ih =>
    cases m with
    | nil =>
      refine iff_of_false (fun h => ?_) nofun
      have hlen := congrArg List.length h
      rw [List.flatMap_nil, List.length_nil, List.flatMap_cons, List.length_append, hf] at hlen
      omega
    | cons t m =>
      rw [List.flatMap_cons, List.flatMap_cons, List.map_cons, List.map_cons, List.cons.injEq,
        ← hinj, ← ih]
      exact ⟨fun h => List.append_inj h ((hf s).trans (hg t).symm), fun h => by rw [h.1, h.2]⟩

/-- The words are those of the live definitions, and of the root slot. -/
theorem words_eq_iff (hc : c.Typed) (hd : d.Typed) (hroot : c.root = d.root) :
    c.words = d.words ↔ c.liveSlots.map c.effective = d.liveSlots.map d.effective := by
  rw [words, words, hroot, List.append_left_inj]
  exact flatMap_inj (fun _ => rfl) (fun _ => rfl) fun s t => slotWords_inj hc hd

theorem map_effective_of_sameGraph (h : SameGraph c d) :
    c.liveSlots.map c.effective = d.liveSlots.map d.effective := by
  rw [← h.1]
  exact List.map_congr_left h.2.1

/-- The words separate two candidates with the same root slot exactly where
their lists of live definitions differ, or where the same slots are live and
the roots resolve to the same one. -/
theorem words_iff (c d : Candidate) (hc : c.Typed) (hd : d.Typed) (hroot : c.root = d.root) :
    c.canonicalHash = c.words.foldl hashWord 0xCBF29CE484222325 ∧
    ((c.words = d.words ↔ SameGraph c d) ↔
      (c.liveSlots.map c.effective ≠ d.liveSlots.map d.effective ∨
        (c.liveSlots = d.liveSlots ∧ c.hashTarget c.root = d.hashTarget d.root))) := by
  refine ⟨c.canonicalHash_eq, ?_⟩
  rw [words_eq_iff hc hd hroot]
  constructor
  · intro hiff
    by_cases hdefs : c.liveSlots.map c.effective = d.liveSlots.map d.effective
    · have hsame := hiff.mp hdefs
      exact .inr ⟨hsame.1, hsame.2.2⟩
    · exact .inl hdefs
  · rintro (hdiffer | ⟨hlive, htarget⟩)
    · exact iff_of_false hdiffer fun hsame => hdiffer (map_effective_of_sameGraph hsame)
    · refine ⟨fun hdefs => ⟨hlive, ?_, htarget⟩, map_effective_of_sameGraph⟩
      rw [← hlive] at hdefs
      exact List.map_inj_left.mp hdefs

end Candidate

/-- `5 + 7`, and its slot made an alias of one of the two. -/
def fivePlusSeven : Program := ⟨[constDef 5, constDef 7, ⟨.bin, 0, 0, 0, 1⟩], 2⟩

def aliasedSum (target : Nat) : Candidate := ⟨fivePlusSeven, [.replace 2 (aliasDef target)], 2⟩

/-- The same alias twice. -/
theorem words_iff_aliasedSum : (aliasedSum 0).words = (aliasedSum 0).words ↔
    Candidate.SameGraph (aliasedSum 0) (aliasedSum 0) := by
  have htyped : (aliasedSum 0).Typed := ⟨by decide, by decide, by decide⟩
  exact (Candidate.words_iff _ _ htyped htyped rfl).2.mpr (.inr ⟨rfl, rfl⟩)

/-- The root is 5 in the one and 7 in the other. -/
theorem words_miss_root : ¬ ∀ c d : Candidate, c.Typed → d.Typed → c.slotCount = d.slotCount →
    c.root = d.root → (c.words = d.words ↔ Candidate.SameGraph c d) := by
  intro hall
  have hsame := (hall (aliasedSum 0) (aliasedSum 1) ⟨by decide, by decide, by decide⟩
    ⟨by decide, by decide, by decide⟩ rfl rfl).mp rfl
  exact absurd hsame.2.2 (by decide)

end Sxla.Mss
