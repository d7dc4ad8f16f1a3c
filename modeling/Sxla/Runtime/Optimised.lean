import Sxla.Graph.FoldLaws
import Sxla.Graph.GvnSound
import Sxla.Levels.Canonicalize
import Sxla.Runtime.Denotation
import Sxla.Runtime.Folding

/-!
# What the optimised graph computes

Each pass of the canonicalization keeps the values of the nodes it leaves:
folding where it folds to what the kernel computes, value numbering where it
can redirect every use, dead code elimination always. A graph that has a
meaning keeps it; one that has none may gain one, because a node without a
value may be dead.
-/

namespace Sxla

open Checked Interp IrArena

variable {libm : Libm} {args vs : List Value} {a b t : IrArena} {roots : List NodeId}
  {id x y : NodeId} {n m : Node} {v : ValueId} {w : Value} {z : Run Value}

theorem Denotes.root_live {r : NodeId} (h : Denotes libm a roots args vs) (hr : r ∈ roots) :
    r.index ∈ a.liveSlots := by
  obtain ⟨v, -, p, hp, hpi, -⟩ := Schedule.mem_of_forall₂ h.results.flip hr
  exact hpi ▸ (isLive_of_mem_liveIds hp).index_mem

/-- Values survive when the nodes that stay keep theirs. -/
theorem Denotes.restrict (h : Denotes libm a roots args vs)
    (hkeep : ∀ x n', (x, n') ∈ b.liveNodes → ∃ n, (x, n) ∈ a.liveNodes ∧
      n'.op.hasInstr = n.op.hasInstr)
    (hval : ∀ x ∈ b.liveIds, ∀ z, Evaluates (executor libm args) a x z →
      Evaluates (executor libm args) b x z)
    (hroots : ∀ r ∈ roots, r.index ∈ b.liveSlots) : Denotes libm b roots args vs where
  nodes x n' hn' hin := by
    obtain ⟨n, hn, hop⟩ := hkeep x n' hn'
    obtain ⟨v, hv⟩ := h.nodes x n hn (hop ▸ hin)
    exact ⟨v, hval x (List.mem_map_of_mem hn') _ hv⟩
  results := by
    refine List.forall₂_iff_get.mpr ⟨h.results.length_eq, fun i hi hi' => ?_⟩
    obtain ⟨p, hp, hpi, hv⟩ := h.results.get hi hi'
    obtain ⟨q, d, hq, hqi⟩ := exists_live (hroots _ (List.get_mem roots ⟨i, hi⟩))
    obtain ⟨c, hc, -⟩ := hkeep q d hq
    obtain ⟨⟨_, e⟩, he, rfl⟩ := List.mem_map.mp hp
    obtain ⟨rfl, -⟩ := live_unique hc he (hqi.trans hpi.symm)
    exact ⟨q, List.mem_map_of_mem hq, hqi, hval q (List.mem_map_of_mem hq) _ hv⟩

-- ---------------------------------------------------------------------------
-- Folding
-- ---------------------------------------------------------------------------

theorem valueInputs_of_verified (hv : verify a = .ok ()) (hn : (x, n) ∈ a.liveNodes) :
    n.valueInputs = n.inputs :=
  ((verify_ok.mp hv).2.2 x n hn).valueInputs_eq

/-- The interpreter on a node with constant operands is its kernel on them. -/
theorem evalNode_kernel (ha : n.inputs.length = expectedArity n.op)
    (h : evalNode libm t n = some z) :
    ∃ xs, List.Forall₂ (fun v w => loadOf t v = some w) n.inputs xs ∧
      kernel libm n.op xs = z := by
  unfold evalNode at h
  cases hop : n.op with
  | unary u =>
    rw [hop] at ha
    obtain ⟨v, hin⟩ := List.length_eq_one_iff.mp ha
    simp only [hop, hin, List.getElem?_cons_zero, Option.bind_eq_bind, Option.bind_some] at h
    obtain ⟨w, hw, h⟩ := Option.bind_eq_some_iff.mp h
    refine ⟨[w], hin ▸ .cons hw .nil, ?_⟩
    rw [← Option.some.inj h]
    cases u <;> rfl
  | binary b =>
    rw [hop] at ha
    obtain ⟨u, v, hin⟩ := List.length_eq_two.mp ha
    simp only [hop, hin, List.getElem?_cons_zero, List.getElem?_cons_succ, Option.bind_eq_bind,
      Option.bind_some] at h
    obtain ⟨w, hw, h⟩ := Option.bind_eq_some_iff.mp h
    obtain ⟨w', hw', h⟩ := Option.bind_eq_some_iff.mp h
    refine ⟨[w, w'], hin ▸ .cons hw (.cons hw' .nil), ?_⟩
    rw [← Option.some.inj h]
    cases b <;> rfl
  | _ => simp [hop] at h

theorem executor_const {k : Nat} (hc : constValue m.op = some w) :
    (executor libm args).apply k m [] = .ok w := by
  unfold Meaning.apply
  cases hop : m.op with
  | constI64 v | constF64 v =>
    rw [hop] at hc
    obtain rfl := Option.some.inj hc
    rfl
  | _ =>
    rw [hop] at hc
    cases hc

/-- A constant is what it loads. -/
theorem Evaluates.of_const (hn : (x, m) ∈ a.liveNodes) (hin : m.valueInputs = [])
    (hc : constValue m.op = some w) : Evaluates (executor libm args) a x (.ok w) := by
  rw [← @executor_const libm args m w x.index hc]
  exact .apply hn (hin ▸ .nil)

theorem Evaluates.load_eq (hv : verify a = .ok ()) (h : Evaluates (executor libm args) a v.node z)
    (hw : loadOf a v = some w) : z = .ok w := by
  unfold loadOf at hw
  split at hw
  · next d hd =>
    obtain ⟨p, hp, hi, -⟩ := Gvn.live_of_node hd h.live
    have hin : d.valueInputs = [] := by
      have harity := ((verify_ok.mp hv).2.2 p d hp).arity
      rw [valueInputs_of_verified hv hp, ← List.length_eq_zero_iff, harity]
      cases hop : d.op <;> simp [hop, constValue] at hw <;> rfl
    exact h.unique ((Evaluates.of_const hp hin hw).of_live hp hi hd)
  · cases hw

namespace Fold

/-- The operands of a folded node are what it was folded from. -/
theorem operands_eq (hv : verify a = .ok ()) {inputs : List ValueId} {xs : List Value}
    {zs : List (Run Value)} (hload : List.Forall₂ (fun v w => loadOf a v = some w) inputs xs)
    (hlen : zs.length = inputs.length)
    (hzs : ∀ (i : Nat) (v : ValueId) (z : Run Value), inputs[i]? = some v → zs[i]? = some z →
      Evaluates (executor libm args) a v.node z) : zs = xs.map Except.ok := by
  refine List.ext_getElem (by rw [List.length_map, hlen, hload.length_eq]) fun i hi hi' => ?_
  have hin : i < inputs.length := hlen ▸ hi
  have hx : i < xs.length := hload.length_eq ▸ hin
  rw [List.getElem_map]
  exact (hzs i _ _ (List.getElem?_eq_getElem hin) (List.getElem?_eq_getElem hi)).load_eq hv
    (hload.get hin hx)

/-- A constant that keeps its node's execution is worth what the node was. -/
theorem Write.value_eq (hw : Write a b id n m) (hv : verify a = .ok ())
    (hp : Preserved libm a n m) (h : Evaluates (executor libm args) a id z) :
    (executor libm args).apply id.index m [] = z := by
  obtain ⟨w, hconst, heval⟩ := hp
  cases h with
  | @node _ d zs hlive hd hlen hzs =>
    cases Except.ok.inj (hd.symm.trans hw.node_eq)
    obtain ⟨p, hn, hpi, -⟩ := Gvn.live_of_node hd hlive
    obtain ⟨xs, hload, hkernel⟩ := evalNode_kernel ((verify_ok.mp hv).2.2 p n hn).arity heval
    rw [valueInputs_of_verified hv hn] at hlen hzs
    have hin : n.op.isParam = false ∧ n.op.isPure = true := by
      rcases hw.constant.elementwise with ⟨u, hop⟩ | ⟨u, hop⟩ <;> rw [hop] <;> exact ⟨rfl, rfl⟩
    rw [operands_eq hv hload hlen hzs, executor_apply hin.1 hin.2, hkernel]
    exact executor_const hconst

/-- Every folding of the run gives what the kernel computes. -/
def Faithful (libm : Libm) (a : IrArena) : Prop :=
  ∀ t id n m, FoldsTo libm a t id n m → Preserved libm t n m

theorem run_evaluates (hv : verify a = .ok ()) (hf : Faithful libm a)
    (h : Evaluates (executor libm args) a y z) :
    Evaluates (executor libm args) (run libm a).1 y z := by
  have hrun : verify (run libm a).1 = .ok () ∧ Evaluates (executor libm args) (run libm a).1 y z := by
    refine run_induction (P := fun t => verify t = .ok () ∧ Evaluates (executor libm args) t y z)
      ⟨hv, h⟩ ?_
    rintro l id rest t b n m hl ht hfold hw ⟨htv, hty⟩
    have hto : FoldsTo libm a t id n m := ⟨⟨l, rest, hl, ht⟩, hw.node_eq, hfold⟩
    exact ⟨hw.verified htv, hw.evaluates (fun z => hw.value_eq htv (hf t id n m hto)) hty⟩
  exact hrun.2

theorem Constant.hasInstr_eq (h : Constant n m) : m.op.hasInstr = n.op.hasInstr := by
  rcases h.elementwise with ⟨u, hu⟩ | ⟨u, hu⟩ <;> rcases h.const with ⟨k, hk⟩ | ⟨k, hk⟩ <;>
    rw [hu, hk] <;> rfl

theorem run_denotes (hv : verify a = .ok ()) (hf : Faithful libm a)
    (h : Denotes libm a roots args vs) : Denotes libm (run libm a).1 roots args vs := by
  refine h.restrict (fun x n' hn' => ?_) (fun x _ z => run_evaluates hv hf) fun r hr => ?_
  · obtain ⟨n, hn⟩ := (@run_liveNodes libm a).2 x n' hn'
    obtain ⟨m, hm, hcases⟩ := (@run_liveNodes libm a).1 x n hn
    obtain rfl := (live_unique hm hn' rfl).2
    refine ⟨n, hn, ?_⟩
    rcases hcases with rfl | hconst
    · rfl
    · exact hconst.hasInstr_eq
  · obtain ⟨p, n, hn, hi⟩ := exists_live (h.root_live hr)
    obtain ⟨m, hm, -⟩ := (@run_liveNodes libm a).1 p n hn
    exact hi ▸ index_mem_liveSlots hm

end Fold

-- ---------------------------------------------------------------------------
-- Value numbering
-- ---------------------------------------------------------------------------

theorem Gvn.Outcome.denotes {tree : DominatorTree} {walk : Gvn.Walk}
    (h : Gvn.Outcome tree a walk b) (hv : verify a = .ok ())
    (hh : ∀ x r, Gvn.Handed tree a x r ↔ x ∈ walk.removals ∧ walk.known x.index = some r)
    (hred : Gvn.Redirectable tree a) (hroots : ∀ r ∈ roots, r.index ∈ b.liveSlots)
    (hd : Denotes libm a roots args vs) : Denotes libm b roots args vs := by
  refine hd.restrict (fun x n' hn' => ?_) (fun x hx z hz => ?_) hroots
  · obtain ⟨n, hn, -, heq⟩ := h.of_kept hn'
    exact ⟨n, hn, congrArg _ (Node.unlinked_fields heq).1⟩
  · exact (h.values hv hh hred _ (isLive_of_mem_liveIds hx) z).mp hz

-- ---------------------------------------------------------------------------
-- Dead code elimination
-- ---------------------------------------------------------------------------

namespace Dce

/-- What the survivors name survives. -/
theorem run_closed (hl : LinksOk a) (hrun : Dce.run a roots = .ok (b, k)) :
    Trimmed a b ∧ LinksOk b ∧ (∀ i j, i ∈ b.liveSlots → Names a i j → j ∈ b.liveSlots) ∧
      ∀ i, Anchored a roots i → i ∈ b.liveSlots := by
  obtain ⟨b', k', hrun', htrim, hlinks, -, hsup, hgreat⟩ :=
    @rounds_greatest a roots (a.liveSlots.length + 1) 0 hl (Nat.lt_succ_self _)
  obtain ⟨rfl, -⟩ := Prod.mk.inj (Except.ok.inj (hrun.symm.trans hrun'))
  refine ⟨htrim, hlinks, fun i j hi hij => ?_, fun i hi => ?_⟩
  · have hins : Peeling.Supported (Anchored a roots) (Names a)
        (insert j {i | i ∈ b.liveSlots}) := by
      rintro x (rfl | hx)
      · exact .inr ⟨i, .inr hi, hij⟩
      · exact (hsup x hx).imp_right fun ⟨y, hy, hyx⟩ => ⟨y, .inr hy, hyx⟩
    exact hgreat hins (Set.mem_insert ..)
  · have hself : Peeling.Supported (Anchored a roots) (Names a) {i} := by
      rintro x rfl
      exact .inl hi
    exact hgreat hself rfl

theorem simulates (h : Trimmed a b)
    (hclosed : ∀ i j, i ∈ b.liveSlots → Names a i j → j ∈ b.liveSlots) :
    Simulates (fun x y => x = y ∧ x.index ∈ b.liveSlots) a b := by
  rintro x y n ⟨rfl, hx⟩ hxa hn hinputs
  obtain ⟨m, hm, heq⟩ := h.node (fun _ => hx) hn
  obtain ⟨hop, hty, -, hin, -⟩ := Node.unlinked_fields heq
  have hval : m.valueInputs = n.valueInputs := by rw [Node.valueInputs, Node.valueInputs, hin]
  refine ⟨hx, m, hm, fun V meaning xs => Gvn.apply_congr hop hty (fun _ => rfl) xs,
    congrArg List.length hval, fun i v w hv hw => ?_⟩
  rw [hval, hv] at hw
  obtain rfl := Option.some.inj hw
  have hmem := List.mem_of_getElem? hv
  obtain ⟨p, hp, hpi, -⟩ := Gvn.live_of_node hn hxa
  refine ⟨rfl, hclosed x.index _ hx ⟨hinputs v hmem, p, n, hp, hpi.symm, v, ?_, rfl⟩⟩
  exact List.mem_append_left _ hmem

theorem run_denotes (hl : LinksOk a) (hrun : Dce.run a roots = .ok (b, k))
    (h : Denotes libm a roots args vs) : Denotes libm b roots args vs := by
  obtain ⟨htrim, -, hclosed, hanchored⟩ := run_closed hl hrun
  refine h.restrict (fun x n' hn' => ?_) (fun x hx z hz => ?_) fun r hr => ?_
  · obtain ⟨n, hn, heq⟩ := htrim.live_of_live hn'
    exact ⟨n, hn, congrArg _ (Node.unlinked_fields heq).1⟩
  · obtain ⟨⟨_, n⟩, hn, rfl⟩ := List.mem_map.mp hx
    exact .map (simulates htrim hclosed) ⟨rfl, index_mem_liveSlots hn⟩ hz
  · obtain ⟨p, n, hn, hi⟩ := exists_live (h.root_live hr)
    exact hanchored _ ⟨p, n, hn, hi, .inl ⟨r, hr, rfl⟩⟩

theorem run_verify (hl : LinksOk a) (hv : verify a = .ok ()) (hrun : Dce.run a roots = .ok (b, k)) :
    verify b = .ok () := by
  obtain ⟨htrim, hlinks, hclosed, hanchored⟩ := run_closed hl hrun
  refine htrim.verify hl hlinks hv (fun id n hn hop => ?_) fun id n hn hi v hv' hlive => ?_
  · exact hanchored _ ⟨id, n, hn, rfl, .inr (by rw [hop]; rfl)⟩
  · exact hclosed _ _ hi ⟨hlive, id, n, hn, rfl, v, List.mem_append_left _ hv', rfl⟩

end Dce

-- ---------------------------------------------------------------------------
-- Canonicalization
-- ---------------------------------------------------------------------------

/-- Folding is faithful, value numbering of the folded arena can redirect
every use, and merges no root. -/
structure Canonicalizable (libm : Libm) (a : IrArena) (roots : List NodeId) : Prop where
  faithful : Fold.Faithful libm a
  redirects : ∃ tree, DominatorTree.build (Fold.run libm a).1 = .ok tree ∧
    Gvn.Redirectable tree (Fold.run libm a).1
  roots : ∀ r ∈ roots, ¬ MergesRoot libm a r

/-- Nothing folds, and value numbering merges nothing. -/
theorem Canonicalizable.of_settled {k : Nat} (hl : LinksOk a) (hv : verify a = .ok ())
    (hstill : ∀ id n, (id, n) ∈ a.liveNodes → Fold.folded libm a n = none)
    (hrun : Gvn.run a = .ok (b, k)) (hslots : ∀ i ∈ a.liveSlots, i ∈ b.liveSlots)
    (hlive : ∀ r ∈ roots, a.IsLive r) : Canonicalizable libm a roots := by
  have hfold : (Fold.run libm a).1 = a :=
    congrArg Prod.fst (Fold.visits_still hstill fun _ => id)
  obtain ⟨tree, htree⟩ := DominatorTree.build_total a
  obtain ⟨walk, b', hrun', hout, hhanded⟩ := Gvn.run_outcome hl hv htree
  obtain ⟨rfl, -⟩ := Prod.mk.inj (Except.ok.inj (hrun.symm.trans hrun'))
  have hnone : ∀ x, x ∉ walk.removals := by
    intro x hx
    obtain ⟨n, hn⟩ := hout.numbered.removals x hx
    have hgone := ((hout.slots x.index).mp (hslots _ (isLive_of_live hn).index_mem)).2
    exact hgone (List.mem_map_of_mem hx)
  refine ⟨?_, ⟨tree, hfold.symm ▸ htree, hfold.symm ▸ ?_⟩, ?_⟩
  · rintro t id n m ⟨⟨l, rest, hsplit, ht⟩, hnode, hfolds⟩
    have hsub : ∀ x ∈ l, x ∈ a.liveIds := fun x hx => hsplit ▸ List.mem_append_left _ hx
    rw [Fold.visits_still hstill hsub] at ht
    obtain rfl := ht
    obtain ⟨⟨_, d⟩, hd, rfl⟩ :=
      List.mem_map.mp (hsplit ▸ List.mem_append_right l List.mem_cons_self : id ∈ a.liveIds)
    obtain rfl := Except.ok.inj ((node_of_live hd).symm.trans hnode)
    cases (hstill _ d hd).symm.trans hfolds
  · intro x r hx
    exact absurd ((hhanded x r).mp hx).1 (hnone x)
  · intro r hr
    rintro ⟨tree', x, htree', hx, hi⟩
    rw [hfold] at htree' hx
    obtain ⟨b', k', hrun', hkept⟩ := Gvn.walk_liveNodes htree'
    obtain ⟨rfl, -⟩ := Prod.mk.inj (Except.ok.inj (hrun.symm.trans hrun'))
    have hliveb : b.IsLive r := (hout.isLive r).mpr ⟨hlive r hr, fun hmem => by
      obtain ⟨y, hy, -⟩ := List.mem_map.mp hmem
      exact hnone y hy⟩
    exact ((hkept r).mp hliveb).2 x hx hi

/-- The pass ends with an accepted arena that has every meaning of the old
one. -/
theorem canonicalize_denotes (hl : LinksOk a) (hv : verify a = .ok ())
    (hlive : ∀ r ∈ roots, a.IsLive r) (h : Canonicalizable libm a roots) :
    ∃ c, canonicalize libm a roots = .ok c ∧ verify c.arena = .ok () ∧ LinksOk c.arena ∧
      SameTree a c.arena ∧ ∀ args vs, Denotes libm a roots args vs → Denotes libm c.arena roots args vs := by
  obtain ⟨c, hc, hkept⟩ := @canonicalize_spec libm a roots hlive
  obtain ⟨⟨f, merged⟩, hgvn, hdce⟩ := bind_ok.mp hc
  obtain ⟨⟨b, removed⟩, hrun, hres⟩ := bind_ok.mp hdce
  obtain rfl := Except.ok.inj hres
  obtain ⟨tree, htree, hred⟩ := h.redirects
  have hfl := @Fold.run_linksOk libm a hl
  have hfv := @Fold.run_verify libm a hv
  obtain ⟨walk, f', hgvn', hout, hh⟩ := Gvn.run_outcome hfl hfv htree
  obtain ⟨rfl, -⟩ := Prod.mk.inj (Except.ok.inj (hgvn.symm.trans hgvn'))
  have hsound := hout.sound hfv hfl hh hred
  obtain ⟨htrim, hblinks, -, -⟩ := Dce.run_closed hout.links hrun
  have hsame := ((@Fold.run_sameTree libm a).trans (mapLive_sameTree.trans hout.trimmed.tree)).trans
    htrim.tree
  refine ⟨_, hc, Dce.run_verify hout.links hsound.accepted hrun, hblinks, hsame, fun args vs hd => ?_⟩
  refine Dce.run_denotes hout.links hrun ?_
  refine hout.denotes hfv hh hred (fun r hr => ?_) (Fold.run_denotes hv h.faithful hd)
  exact htrim.live _ ((hkept r hr).mpr (h.roots r hr)).index_mem

end Sxla
