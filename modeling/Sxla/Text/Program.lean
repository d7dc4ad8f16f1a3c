import Sxla.Ir.Handles
import Sxla.Ir.Links
import Sxla.Text.Parse
import Sxla.Library.Checked

/-!
# Programs behind the text

A `Block` is what the statements of one block say, and `Block.run` builds it:
the parser's edits without its tokens. Whatever the parser accepts is the run
of some block (`parseTokens_ok`).
-/

namespace Sxla

open Checked Parse

/-- The statements of a block; `cond` is an `if` with its two blocks. -/
inductive Block where
  | done
  | node (defn : Nat) (op : Op) (uses : List Nat) (ty : Ty) (rest : Block)
  | cond (defn : Nat) (uses : List Nat) (ty : Ty) (thenB elseB rest : Block)

/-- What a parse has built so far. -/
structure Built where
  arena : IrArena
  vals : Vals

namespace Built

def define (b : Built) (region : RegionId) (defn : Nat) (op : Op) (inputs : List ValueId) (ty : Ty) :
    Option (NodeId × Built) :=
  match b.arena.insertNode region (.new op region inputs ty) with
  | .error _ => none
  | .ok (id, a) =>
    match a.valueOf id 0 with
    | .error _ => none
    | .ok v => some (id, ⟨a, b.vals ++ [(.ofNat defn, v)]⟩)

def newRegion (b : Built) (parent : RegionId) (owner : NodeId) : Option (RegionId × Built) :=
  match b.arena.newRegion parent owner with
  | .error _ => none
  | .ok (r, a) => some (r, { b with arena := a })

def lookup (b : Built) (u : Nat) : Option ValueId :=
  let found := lastValue b.vals (.ofNat u)
  if found.isNone then none else some found

def resolve (b : Built) (uses : List Nat) : Option (List ValueId) := uses.mapM b.lookup

end Built

/-- The permutations that the parser makes: up to four entries, padded. -/
def Op.Spellable : Op → Prop
  | .transpose perm rank => ∃ l : List UInt8, l ≠ [] ∧ l.length ≤ MAX_RANK ∧
      perm = l ++ List.replicate (MAX_RANK - l.length) 0 ∧ rank = .ofNat l.length
  | _ => True

namespace Block

def run : Block → RegionId → Built → Option Built
  | .done, _, b => some b
  | .node defn op uses ty rest, region, b => do
    let inputs ← b.resolve uses
    let (_, b) ← b.define region defn op inputs ty
    rest.run region b
  | .cond defn uses ty thenB elseB rest, region, b => do
    let inputs ← b.resolve uses
    let (id, b) ← b.define region defn .ifOp inputs ty
    let (thenR, b) ← b.newRegion region id
    let b ← thenB.run thenR b
    let (elseR, b) ← b.newRegion region id
    let b ← elseB.run elseR b
    rest.run region b

/-- What the parser grants every block at a nesting depth. -/
def Spelled : Nat → Block → Prop
  | depth, .done => depth ≤ MAX_NEST
  | depth, .node _ op _ _ rest => op.Spellable ∧ op ≠ .ifOp ∧ rest.Spelled depth
  | depth, .cond _ _ _ thenB elseB rest =>
    thenB.Spelled (depth + 1) ∧ elseB.Spelled (depth + 1) ∧ rest.Spelled depth

end Block

namespace Parse

def PState.built (s : PState) : Built := ⟨s.arena, s.vals⟩

-- ---------------------------------------------------------------------------
-- Sequencing
-- ---------------------------------------------------------------------------

theorem bind_run {σ α β : Type} {x : StateT σ (Except ParseError) α}
    {f : α → StateT σ (Except ParseError) β} {s : σ} {r : β × σ} :
    (x >>= f) s = .ok r ↔ ∃ a s', x s = .ok (a, s') ∧ f a s' = .ok r := by
  show (x s >>= fun p => f p.1 p.2) = .ok r ↔ _
  rw [bind_ok]
  constructor
  · rintro ⟨⟨a, s'⟩, h, hf⟩
    exact ⟨a, s', h, hf⟩
  · rintro ⟨a, s', h, hf⟩
    exact ⟨(a, s'), h, hf⟩

theorem tokens_run {r : Reader α} {s s' : PState} :
    tokens r s = .ok (x, s') ↔ ∃ toks, r s.toks = .ok (x, toks) ∧ s' = { s with toks } := by
  unfold tokens
  cases h : r s.toks with
  | error e => simp
  | ok p =>
    obtain ⟨y, toks⟩ := p
    simp only [Except.ok.injEq, Prod.mk.injEq]
    constructor
    · rintro ⟨rfl, rfl⟩
      exact ⟨toks, ⟨rfl, rfl⟩, rfl⟩
    · rintro ⟨toks, ⟨rfl, rfl⟩, rfl⟩
      exact ⟨rfl, rfl⟩

/-- Every result of a reader has a property. -/
def Yields (r : Reader α) (Q : α → Prop) : Prop := ∀ s x s', r s = .ok (x, s') → Q x

variable {Q : α → Prop} {r : Reader α}

theorem Yields.pure (h : Q x) : Yields (Pure.pure x) Q := by
  rintro s y s' hy
  cases hy
  exact h

theorem Yields.throw (e : ParseError) : Yields (throw e : Reader α) Q := by
  rintro s y s' hy
  cases hy

theorem Yields.bind {r : Reader β} {P : β → Prop} {f : β → Reader α} (hr : Yields r P)
    (hf : ∀ x, P x → Yields (f x) Q) : Yields (r >>= f) Q := by
  intro s y s' h
  obtain ⟨x, t, hx, hy⟩ := bind_run.mp h
  exact hf x (hr s x t hx) t y s' hy

theorem Yields.tail {r : Reader β} {f : β → Reader α} (hf : ∀ x, Yields (f x) Q) :
    Yields (r >>= f) Q :=
  Yields.bind (P := fun _ => True) (fun _ _ _ _ => trivial) fun x _ => hf x

-- ---------------------------------------------------------------------------
-- Ops and edits
-- ---------------------------------------------------------------------------

theorem permItems_yields (room : Nat) :
    Yields (permItems room) fun l => l ≠ [] ∧ l.length ≤ room := by
  induction room with
  | zero => exact .tail fun _ => .throw _
  | succ room ih =>
    refine .tail fun p => .tail fun t => ?_
    split
    · refine .tail fun _ => ih.bind fun l hl => .pure ⟨by simp, ?_⟩
      simpa using hl.2
    · exact .pure ⟨by simp, by simp⟩

theorem transpose_yields : Yields transpose Op.Spellable := by
  refine .tail fun _ => .tail fun _ => (permItems_yields _).bind fun l hl => .tail fun _ => ?_
  exact .pure ⟨l, hl.1, hl.2, rfl, rfl⟩

theorem broadcast_yields : Yields broadcast Op.Spellable := by
  refine .tail fun _ => .tail fun _ => .tail fun _ => .tail fun _ => ?_
  split
  · exact .pure trivial
  · refine .tail fun t => ?_
    split <;> exact .throw _

theorem constF64_yields : Yields constF64 Op.Spellable := by
  refine .tail fun t => ?_
  split
  · refine .tail fun _ => .tail ?_
    rintro ⟨hi, hiOff⟩
    refine .tail ?_
    rintro ⟨lo, loOff⟩
    exact .tail fun _ => .tail fun _ => .pure trivial
  · refine .tail ?_
    rintro ⟨tok, off⟩
    dsimp only
    split
    · exact .pure trivial
    · exact .pure trivial
    · exact .throw _

theorem parseOp_yields (name : String) (off : Nat) : Yields (parseOp name off) Op.Spellable := by
  unfold parseOp
  split
  all_goals
    first
    | exact transpose_yields
    | exact broadcast_yields
    | exact constF64_yields
    | repeat (first | exact .pure trivial | exact .throw _ | refine .tail fun _ => ?_)

theorem statementHead_yields : Yields statementHead fun h => h.2.2.1.Spellable := by
  refine .tail ?_
  rintro ⟨tok, off⟩
  dsimp only
  split
  · refine .tail fun _ => .tail ?_
    rintro ⟨word, wordOff⟩
    dsimp only
    split
    · exact (parseOp_yields _ _).bind fun op hop => .pure hop
    · exact .throw _
  · exact .throw _

theorem define_eq (region : RegionId) (defn : Nat) (op : Op) (inputs : List ValueId) (ty : Ty)
    (s : PState) : define region (.ofNat defn) op inputs ty s =
      match s.built.define region defn op inputs ty with
      | none => .error .arenaExhausted
      | some (id, b) => .ok (id, ⟨s.toks, b.arena, b.vals⟩) := by
  unfold define Built.define PState.built
  cases hi : s.arena.insertNode region (.new op region inputs ty) with
  | error e => simp [edit, hi, bind, StateT.bind, Except.bind]
  | ok p =>
    obtain ⟨id, a⟩ := p
    cases hv : a.valueOf id 0 with
    | error e => simp [edit, hi, hv, bind, StateT.bind, Except.bind, Except.map]
    | ok v =>
      simp [edit, hi, hv, bind, StateT.bind, Except.bind, Except.map, modify, modifyGet,
        MonadStateOf.modifyGet, StateT.modifyGet]
      rfl

theorem newRegion_eq (parent : RegionId) (owner : NodeId) (s : PState) :
    edit (fun a => a.newRegion parent owner) s =
      match s.built.newRegion parent owner with
      | none => .error .arenaExhausted
      | some (r, b) => .ok (r, ⟨s.toks, b.arena, b.vals⟩) := by
  unfold edit Built.newRegion PState.built
  cases h : s.arena.newRegion parent owner <;> simp [h]

/-- A state of the parser with the tokens of one and the arena of another. -/
def PState.with (s : PState) (b : Built) : PState := ⟨s.toks, b.arena, b.vals⟩

theorem define_ok {region : RegionId} {defn : Nat} {op : Op} {inputs : List ValueId} {ty : Ty}
    {id : NodeId} {s s' : PState} : define region (.ofNat defn) op inputs ty s = .ok (id, s') ↔
      ∃ b, s.built.define region defn op inputs ty = some (id, b) ∧ s' = s.with b := by
  rw [define_eq]
  cases s.built.define region defn op inputs ty with
  | none => simp
  | some p =>
    obtain ⟨id', b⟩ := p
    simp only [Except.ok.injEq, Prod.mk.injEq, Option.some.injEq, PState.with]
    constructor
    · rintro ⟨rfl, rfl⟩
      exact ⟨b, ⟨rfl, rfl⟩, rfl⟩
    · rintro ⟨b, ⟨rfl, rfl⟩, rfl⟩
      exact ⟨rfl, rfl⟩

theorem newRegion_ok {parent r : RegionId} {owner : NodeId} {s s' : PState} :
    edit (fun a => a.newRegion parent owner) s = .ok (r, s') ↔
      ∃ b, s.built.newRegion parent owner = some (r, b) ∧ s' = s.with b := by
  rw [newRegion_eq]
  cases s.built.newRegion parent owner with
  | none => simp
  | some p =>
    obtain ⟨r', b⟩ := p
    simp only [Except.ok.injEq, Prod.mk.injEq, Option.some.injEq, PState.with]
    constructor
    · rintro ⟨rfl, rfl⟩
      exact ⟨b, ⟨rfl, rfl⟩, rfl⟩
    · rintro ⟨b, ⟨rfl, rfl⟩, rfl⟩
      exact ⟨rfl, rfl⟩

theorem lookup_toNat {b : Built} {n : UInt32} (h : ¬ (lastValue b.vals n).isNone = true) :
    b.lookup n.toNat = some (lastValue b.vals n) := by
  simp only [Built.lookup, UInt32.ofNat_toNat, if_neg h]

theorem useItems_ok {b : Built} {toks toks' : Tokens} {vs : List ValueId}
    (h : useItems b.vals toks = .ok (vs, toks')) : ∃ us, b.resolve us = some vs := by
  fun_induction useItems b.vals toks generalizing vs toks' with
  | case1 => cases h
  | case2 n _ found hfound =>
    rename_i ih
    obtain ⟨⟨vs', s'⟩, hs, he⟩ := map_ok.mp h
    cases he
    obtain ⟨us, hus⟩ := ih hs
    refine ⟨n.toNat :: us, ?_⟩
    rw [Built.resolve] at hus
    simp [Built.resolve, List.mapM_cons, lookup_toNat hfound, hus, found]
  | case3 n _ found hfound =>
    cases h
    exact ⟨[n.toNat], by simp [Built.resolve, lookup_toNat hfound, found]⟩
  | case4 =>
    cases h
    exact ⟨[], rfl⟩

theorem uses_ok {s s' : PState} {vs : List ValueId} (h : uses s = .ok (vs, s')) :
    ∃ us, s.built.resolve us = some vs ∧ s'.built = s.built := by
  obtain ⟨toks, ht, rfl⟩ := tokens_run.mp h
  obtain ⟨us, hus⟩ := useItems_ok (b := s.built) ht
  exact ⟨us, hus, rfl⟩

-- ---------------------------------------------------------------------------
-- What is accepted is the run of a block
-- ---------------------------------------------------------------------------

/-- A parse of statements that starts in one state and ends in another is
some beginning of a block. -/
def Begins (region : RegionId) (depth : Nat) (s s' : PState) : Prop :=
  ∃ first : Block → Block, ∀ rest, (rest.Spelled depth → (first rest).Spelled depth) ∧
    (first rest).run region s.built = rest.run region s'.built

theorem parseStatement_ok {block : RegionId → Nat → Parser Unit} {region : RegionId} {depth : Nat}
    {s s' : PState}
    (hblock : ∀ r d t t', block r d t = .ok ((), t') →
      ∃ b : Block, b.Spelled d ∧ b.run r t.built = some t'.built)
    (h : parseStatement block region depth s = .ok ((), s')) : Begins region depth s s' := by
  obtain ⟨⟨defn, off, op, wordOff⟩, t, hread, h⟩ := bind_run.mp h
  obtain ⟨toks, hhead, rfl⟩ := tokens_run.mp hread
  have hop : op.Spellable := statementHead_yields _ _ _ hhead
  obtain ⟨inputs, t, huses, h⟩ := bind_run.mp h
  obtain ⟨us, hus, ht⟩ := uses_ok huses
  have hus : s.built.resolve us = some inputs := hus
  have ht : t.built = s.built := ht
  rw [← UInt32.ofNat_toNat (x := defn)] at h
  split at h
  · next hif =>
    subst hif
    obtain ⟨_, u, hcolon, h⟩ := bind_run.mp h
    obtain ⟨toks₁, -, rfl⟩ := tokens_run.mp hcolon
    obtain ⟨ty, u, hty, h⟩ := bind_run.mp h
    obtain ⟨toks₂, -, rfl⟩ := tokens_run.mp hty
    obtain ⟨id, u, hinsert, h⟩ := bind_run.mp h
    obtain ⟨b, hdef, rfl⟩ := define_ok.mp hinsert
    obtain ⟨_, u, hbrace, h⟩ := bind_run.mp h
    obtain ⟨toks₃, -, rfl⟩ := tokens_run.mp hbrace
    obtain ⟨thenR, u, hopen, h⟩ := bind_run.mp h
    obtain ⟨b₁, hthenR, rfl⟩ := newRegion_ok.mp hopen
    obtain ⟨_, u₁, hparse, h⟩ := bind_run.mp h
    obtain ⟨thenB, hthenS, hthen⟩ := hblock _ _ _ _ hparse
    obtain ⟨_, u, helse, h⟩ := bind_run.mp h
    obtain ⟨toks₄, -, rfl⟩ := tokens_run.mp helse
    obtain ⟨_, u, hbrace, h⟩ := bind_run.mp h
    obtain ⟨toks₅, -, rfl⟩ := tokens_run.mp hbrace
    obtain ⟨elseR, u, hopen, h⟩ := bind_run.mp h
    obtain ⟨b₂, helseR, rfl⟩ := newRegion_ok.mp hopen
    obtain ⟨_, u₂, hparse, h⟩ := bind_run.mp h
    obtain ⟨elseB, helseS, helse⟩ := hblock _ _ _ _ hparse
    obtain ⟨toks₆, -, rfl⟩ := tokens_run.mp h
    refine ⟨.cond defn.toNat us ty thenB elseB, fun rest => ⟨fun hr => ⟨hthenS, helseS, hr⟩, ?_⟩⟩
    have hdef : s.built.define region defn.toNat .ifOp inputs ty = some (id, b) := ht ▸ hdef
    have hthen : thenB.run thenR b₁ = some u₁.built := hthen
    have helseR : u₁.built.newRegion region id = some (elseR, b₂) := helseR
    have helse : elseB.run elseR b₂ = some u₂.built := helse
    have hthenR : b.newRegion region id = some (thenR, b₁) := hthenR
    simp only [Block.run, hus, hdef, hthenR, hthen, helseR, helse, Option.bind_eq_bind,
      Option.bind_some]
    rfl
  · next hif =>
    obtain ⟨ty, u, hty, h⟩ := bind_run.mp h
    obtain ⟨toks₁, -, rfl⟩ := tokens_run.mp hty
    obtain ⟨id, u, hinsert, h⟩ := bind_run.mp h
    obtain ⟨b, hdef, rfl⟩ := define_ok.mp hinsert
    obtain ⟨toks₂, -, rfl⟩ := tokens_run.mp h
    refine ⟨.node defn.toNat op us ty, fun rest => ⟨fun hr => ⟨hop, hif, hr⟩, ?_⟩⟩
    have hdef : s.built.define region defn.toNat op inputs ty = some (id, b) := ht ▸ hdef
    simp only [Block.run, hus, hdef, Option.bind_eq_bind, Option.bind_some]
    rfl

theorem parseBlock_ok {fuel depth : Nat} {region : RegionId} {s s' : PState}
    (h : parseBlock fuel region depth s = .ok ((), s')) :
    ∃ b : Block, b.Spelled depth ∧ b.run region s.built = some s'.built := by
  induction fuel generalizing region depth s s' with
  | zero => cases h
  | succ fuel ih =>
    unfold parseBlock at h
    split at h
    · next hd =>
      obtain ⟨t, _, _, h⟩ := bind_run.mp h
      obtain ⟨_, _, h, _⟩ := bind_run.mp h
      cases h
    · next hd =>
      obtain ⟨_, t, hskip, h⟩ := bind_run.mp h
      obtain ⟨toks, -, rfl⟩ := tokens_run.mp hskip
      obtain ⟨tok, t, hpeek, h⟩ := bind_run.mp h
      obtain ⟨toks₁, -, rfl⟩ := tokens_run.mp hpeek
      split at h
      · obtain ⟨_, t, hnext, h⟩ := bind_run.mp h
        obtain ⟨toks₂, -, rfl⟩ := tokens_run.mp hnext
        cases h
        exact ⟨.done, Nat.le_of_not_lt hd, rfl⟩
      · cases h
      · obtain ⟨_, t, hstmt, h⟩ := bind_run.mp h
        obtain ⟨rest, hrestS, hrest⟩ := ih h
        obtain ⟨first, hfirst⟩ := parseStatement_ok (fun _ _ _ _ hb => ih hb) hstmt
        exact ⟨first rest, (hfirst rest).1 hrestS, (hfirst rest).2.trans hrest⟩

/-- Whatever the parser accepts is the run of a block on the empty arena. -/
theorem parseTokens_ok {toks : Tokens} {cap : Nat} {a : IrArena}
    (h : parseTokens toks cap = .ok a) : ∃ (b : Block) (vals : Vals), b.Spelled 0 ∧
      b.run (IrArena.withCapacity cap (cap / 2 + 8)).rootRegion
        ⟨.withCapacity cap (cap / 2 + 8), []⟩ = some ⟨a, vals⟩ := by
  obtain ⟨⟨_, toks₁⟩, -, h⟩ := bind_ok.mp h
  obtain ⟨⟨_, s⟩, hblock, h⟩ := bind_ok.mp h
  obtain ⟨⟨_, toks₂⟩, -, h⟩ := bind_ok.mp h
  obtain rfl := pure_ok.mp h
  obtain ⟨b, hb, hrun⟩ := parseBlock_ok hblock
  exact ⟨b, s.vals, hb, hrun⟩

end Parse

-- ---------------------------------------------------------------------------
-- What definitions and new regions keep
-- ---------------------------------------------------------------------------

theorem Built.define_edit {b b' : Built} {region : RegionId} {defn : Nat} {op : Op}
    {inputs : List ValueId} {ty : Ty} {id : NodeId}
    (h : b.define region defn op inputs ty = some (id, b')) :
    b.arena.insertNode region (.new op region inputs ty) = .ok (id, b'.arena) ∧
      ∃ v, b'.arena.valueOf id 0 = .ok v ∧ b'.vals = b.vals ++ [(.ofNat defn, v)] := by
  unfold Built.define at h
  split at h
  · cases h
  · next hinsert =>
    split at h
    · cases h
    · next hval =>
      cases h
      exact ⟨hinsert, _, hval, rfl⟩

theorem Built.newRegion_edit {b b' : Built} {parent r : RegionId} {owner : NodeId}
    (h : b.newRegion parent owner = some (r, b')) :
    b.arena.newRegion parent owner = .ok (r, b'.arena) ∧ b'.vals = b.vals := by
  unfold Built.newRegion at h
  split at h
  · cases h
  · next hopen =>
    cases h
    exact ⟨hopen, rfl⟩

/-- A block's run keeps what its definitions and its new regions keep. -/
theorem Block.run_keeps {P : Built → Prop}
    (hdefine : ∀ {b b' region defn op uses inputs ty id}, P b → b.resolve uses = some inputs →
      b.define region defn op inputs ty = some (id, b') → P b')
    (hregion : ∀ {b b' parent r owner}, P b → b.newRegion parent owner = some (r, b') → P b')
    {block : Block} {region : RegionId} {b b' : Built} (h : block.run region b = some b')
    (hb : P b) : P b' := by
  induction block generalizing region b b' with
  | done =>
    cases h
    exact hb
  | node defn op uses ty rest ih =>
    simp only [run, Option.bind_eq_bind, Option.bind_eq_some_iff] at h
    obtain ⟨inputs, hinputs, ⟨id, b₁⟩, hdef, h⟩ := h
    exact ih h (hdefine hb hinputs hdef)
  | cond defn uses ty thenB elseB rest ihThen ihElse ih =>
    simp only [run, Option.bind_eq_bind, Option.bind_eq_some_iff] at h
    obtain ⟨inputs, hinputs, ⟨id, b₁⟩, hdef, ⟨thenR, b₂⟩, hthenR, b₃, hthen, ⟨elseR, b₄⟩, helseR,
      b₅, helse, h⟩ := h
    have h₃ := ihThen hthen (hregion (hdefine hb hinputs hdef) hthenR)
    exact ih h (ihElse helse (hregion h₃ helseR))

/-- So does the parser. -/
theorem parseArena_keeps {P : Built → Prop} {src : String} {capacity : Nat} {a : IrArena}
    (hstart : P ⟨.withCapacity capacity (capacity / 2 + 8), []⟩)
    (hdefine : ∀ {b b' region defn op uses inputs ty id}, P b → b.resolve uses = some inputs →
      b.define region defn op inputs ty = some (id, b') → P b')
    (hregion : ∀ {b b' parent r owner}, P b → b.newRegion parent owner = some (r, b') → P b')
    (h : parseArena src capacity = .ok a) : ∃ vals, P ⟨a, vals⟩ := by
  obtain ⟨toks, -, h⟩ := bind_ok.mp h
  obtain ⟨block, vals, -, hrun⟩ := Parse.parseTokens_ok h
  exact ⟨vals, Block.run_keeps hdefine hregion hrun hstart⟩

/-- A parsed arena comes from insertions and new regions. -/
theorem parseArena_tended {src : String} {capacity : Nat} {a : IrArena}
    (h : parseArena src capacity = .ok a) : Tended capacity (capacity / 2 + 8) a := by
  let P (b : Built) : Prop := Tended capacity (capacity / 2 + 8) b.arena
  obtain ⟨_, ha⟩ := @parseArena_keeps P _ _ _ .start
    (fun hb _ hdef => hb.insert (Built.define_edit hdef).1)
    (fun hb hopen => hb.newRegion (Built.newRegion_edit hopen).1) h
  exact ha

-- ---------------------------------------------------------------------------
-- The order of the definitions
-- ---------------------------------------------------------------------------

/-- No slot was freed, and a node's operands, like the values that have a
name, are in slots that were taken before. -/
structure Built.InOrder (b : Built) : Prop where
  unfreed : b.arena.nodeFree = []
  operands : ∀ id n, (id, n) ∈ b.arena.liveNodes → ∀ v ∈ n.valueInputs, v.node.index < id.index
  named : ∀ k v, (k, v) ∈ b.vals → v.node.index < b.arena.slots.length

theorem lastValue_mem {vals : Vals} {k : UInt32} (h : (lastValue vals k).isNone = false) :
    ∃ j, (j, lastValue vals k) ∈ vals := by
  induction vals using List.reverseRecOn with
  | nil => cases h
  | append_singleton vals p ih =>
    obtain ⟨j, v⟩ := p
    rw [lastValue, List.foldl_append] at h ⊢
    change (if j = k then v else lastValue vals k).isNone = false at h
    change ∃ i, (i, if j = k then v else lastValue vals k) ∈ _
    split at h
    · next hj =>
      rw [if_pos hj]
      exact ⟨j, List.mem_append_right _ List.mem_cons_self⟩
    · next hj =>
      obtain ⟨i, hi⟩ := ih h
      rw [if_neg hj]
      exact ⟨i, List.mem_append_left _ hi⟩

theorem Built.resolve_mem {b : Built} {uses : List Nat} {inputs : List ValueId}
    (h : b.resolve uses = some inputs) {v : ValueId} (hv : v ∈ inputs) :
    ∃ j, (j, v) ∈ b.vals := by
  rw [Built.resolve] at h
  induction uses generalizing inputs with
  | nil =>
    cases h
    cases hv
  | cons u uses ih =>
    rw [List.mapM_cons, Option.bind_eq_bind, Option.bind_eq_some_iff] at h
    obtain ⟨w, hw, h⟩ := h
    obtain ⟨rest, hrest, hret⟩ := Option.bind_eq_some_iff.mp h
    cases hret
    rcases List.mem_cons.mp hv with rfl | hv
    · unfold Built.lookup at hw
      dsimp only at hw
      split at hw
      · cases hw
      · next hsome =>
        cases hw
        exact lastValue_mem (Bool.not_eq_true _ ▸ hsome)
    · exact ih hrest hv

theorem IrArena.valueOf_index {a : IrArena} {id : NodeId} {slot : Nat} {v : ValueId}
    (h : a.valueOf id slot = .ok v) : v.node.index = id.index := by
  unfold IrArena.valueOf at h
  split at h
  · cases h
  · obtain ⟨n, -, h⟩ := bind_ok.mp h
    split at h
    · cases h
    · cases h
      rfl

namespace Built.InOrder

variable {b b' : Built}

theorem start (nodes regions : Nat) : InOrder ⟨.withCapacity nodes regions, []⟩ := by
  obtain ⟨hslots, hfree⟩ := Session.slots_withCapacity nodes regions
  refine ⟨hfree, fun id n hn => ?_, nofun⟩
  obtain ⟨-, g, hget, -⟩ := IrArena.mem_liveNodes.mp hn
  rw [hslots] at hget
  cases hget

theorem define {region : RegionId} {defn : Nat} {op : Op} {uses : List Nat}
    {inputs : List ValueId} {ty : Ty} {id : NodeId} (h : b.InOrder)
    (hinputs : b.resolve uses = some inputs)
    (hdef : b.define region defn op inputs ty = some (id, b')) : b'.InOrder := by
  obtain ⟨hinsert, v, hval, hvals⟩ := Built.define_edit hdef
  have hnext : b.arena.nextSlot = (b.arena.slots.length, 0, []) := by
    rw [IrArena.nextSlot, h.unfreed]
  have hins := IrArena.insertNode_ok (by simp [h.unfreed]) hinsert
  have hlen : b'.arena.slots.length = b.arena.slots.length + 1 := by
    rw [hins.length, hnext]
    exact max_eq_right (Nat.le_succ _)
  have hid : id.index = b.arena.slots.length := by rw [hins.id_eq, hnext, NodeId.pack_index]
  have hnamed : ∀ w ∈ inputs, w.node.index < b.arena.slots.length := fun w hw => by
    obtain ⟨k, hk⟩ := resolve_mem hinputs hw
    exact h.named k w hk
  refine ⟨by rw [hins.free, hnext], fun x m hm w hw => ?_, fun k w hw => ?_⟩
  · obtain ⟨-, g, hget, hx⟩ := IrArena.mem_liveNodes.mp hm
    by_cases hnew : x.index = b.arena.slots.length
    · obtain ⟨r, -, hslot⟩ := hins.region_ok
      rw [hnext, ← hnew, hget] at hslot
      obtain ⟨rfl, -⟩ := NodeSlot.mk.inj (Option.some.inj hslot)
      rw [hnew]
      exact hnamed w (List.mem_of_mem_take (List.mem_of_mem_take hw))
    · have hold := hins.others x.index (by rwa [hnext])
      refine h.operands x m (IrArena.mem_liveNodes.mpr ⟨?_, g, hold ▸ hget, hx⟩) w hw
      rw [h.unfreed]
      exact List.not_mem_nil
  · rw [hvals] at hw
    rcases List.mem_append.mp hw with hw | hw
    · exact (h.named k w hw).trans (hlen ▸ Nat.lt_succ_self _)
    · cases List.mem_singleton.mp hw
      rw [hlen, IrArena.valueOf_index hval, hid]
      exact Nat.lt_succ_self _

theorem newRegion {parent r : RegionId} {owner : NodeId} (h : b.InOrder)
    (hopen : b.newRegion parent owner = some (r, b')) : b'.InOrder := by
  obtain ⟨hnew, hvals⟩ := Built.newRegion_edit hopen
  obtain ⟨hslots, hfree⟩ := Session.newRegion_slots hnew
  refine ⟨hfree.trans h.unfreed, fun id n hn => ?_, fun k v hv => ?_⟩
  · refine h.operands id n ?_
    rw [IrArena.mem_liveNodes] at hn ⊢
    rwa [hslots, hfree] at hn
  · rw [hslots]
    exact h.named k v (hvals ▸ hv)

end Built.InOrder

/-- What the parser builds is in order. -/
theorem parseArena_inOrder {src : String} {capacity : Nat} {a : IrArena}
    (h : parseArena src capacity = .ok a) : ∃ vals, Built.InOrder ⟨a, vals⟩ :=
  parseArena_keeps (.start _ _) .define .newRegion h

/-- The parser frees no slot. -/
theorem parseArena_unfreed {src : String} {capacity : Nat} {a : IrArena}
    (h : parseArena src capacity = .ok a) : a.nodeFree = [] := by
  obtain ⟨_, ha⟩ := parseArena_inOrder h
  exact ha.unfreed

end Sxla
