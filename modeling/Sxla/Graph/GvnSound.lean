import Sxla.Graph.DominanceLaws
import Sxla.Graph.GvnLaws

/-!
# What value numbering keeps

A node is removed behind a representative of its value, and its uses are
redirected where they are written with its own handle. The result is sound
exactly when no node that stays names a removed one by another handle, or
reads it where the verifier does not see the representative.
-/

namespace Sxla

open Checked IrArena Verifier

namespace Gvn

/-- A use of the value of `x`, by any handle that resolves to it. -/
def UsesOf (x : NodeId) (v : ValueId) : Prop :=
  v.slot = 0 ∧ v.node.index = x.index ∧ v.node.generation = x.generation

/-- Every node that stays reads the value of `r` where it read that of `x`. -/
def Redirected (a b : IrArena) (x r : NodeId) : Prop :=
  ∀ y n n', (y, n) ∈ a.liveNodes → (y, n') ∈ b.liveNodes →
    (∀ (i : Nat) (v : ValueId), n.inputs[i]? = some v → UsesOf x v →
      n'.inputs[i]? = some (.fromNode r 0)) ∧
    (UsesOf x n.effectIn → n'.effectIn = .fromNode r 0)

/-- `b` passes the verifier, its nodes have the values they had, and what is
gone was pure and is represented. -/
structure Sound (tree : DominatorTree) (a b : IrArena) : Prop where
  accepted : verify b = .ok ()
  values : ∀ (V : Type) (m : Meaning V) (id : NodeId), b.IsLive id → ∀ x,
    Evaluates m a id x ↔ Evaluates m b id x
  removed : ∀ x n, (x, n) ∈ a.liveNodes → ¬ b.IsLive x → n.op.isPure = true ∧
    ∃ r d, (r, d) ∈ a.liveNodes ∧ b.IsLive r ∧ d.ty = n.ty ∧
      tree.dominates d.region n.region = true ∧
      (∀ (V : Type) (m : Meaning V) v, Evaluates m a x v ↔ Evaluates m a r v) ∧
      Redirected a b x r
  impure : ∀ x n, (x, n) ∈ a.liveNodes → n.op.isPure = false → b.IsLive x

/-- The walk merges `x` into `r`. -/
def Handed (tree : DominatorTree) (a : IrArena) (x r : NodeId) : Prop :=
  HandedIn tree a a.liveNodes x r

/-- A node that is not merged names a merged one by its own handle, and reads
it where the verifier lets it read the representative. -/
def Redirectable (tree : DominatorTree) (a : IrArena) : Prop :=
  ∀ x r, Handed tree a x r → ∀ y n, (y, n) ∈ a.liveNodes → (∀ r', ¬ Handed tree a y r') →
    (∀ v ∈ n.inputs ++ [n.effectIn], UsesOf x v → v.node = x) ∧
    ∀ v ∈ n.inputs, UsesOf x v → ∀ d, a.node r = .ok d →
      regionDominates a d.region n.region = true

variable {a b c c' : IrArena} {tree : DominatorTree} {t : Walk} {id r x y : NodeId} {n n' d : Node}
  {v w : ValueId} {i : Nat}

theorem node_respell (h : a.node id = .ok n) (hi : x.index = id.index)
    (hg : x.generation = id.generation) : a.node x = .ok n := by
  rw [← h]
  simp only [IrArena.node, hi, hg]

theorem live_of_node (h : a.node x = .ok n) (hl : x.index ∈ a.liveSlots) :
    ∃ id, (id, n) ∈ a.liveNodes ∧ x.index = id.index ∧ x.generation = id.generation := by
  obtain ⟨id, m, hm, hi⟩ := exists_live hl
  have hslot := slot_of_node h
  rw [← hi, slot_of_node (node_of_live hm)] at hslot
  obtain ⟨hmn, hg⟩ := NodeSlot.mk.inj (Option.some.inj hslot)
  subst hmn
  exact ⟨id, hm, hi.symm, hg.symm⟩

-- ---------------------------------------------------------------------------
-- Classes
-- ---------------------------------------------------------------------------

namespace Numbered

theorem known_live (h : Numbered tree a a.liveNodes t) (hk : t.known i = some r) :
    i ∈ a.liveSlots := by
  by_contra hi
  have hnone := h.unseen i fun e he heq => hi (heq ▸ index_mem_liveSlots he)
  rw [hnone] at hk
  cases hk

theorem exists_known (h : Numbered tree a a.liveNodes t) (hi : i ∈ a.liveSlots) :
    ∃ r, t.known i = some r ∧ t.known r.index = some r := by
  obtain ⟨id, n, hn, rfl⟩ := exists_live hi
  obtain ⟨r, d, -, hk, hr, -⟩ := h.seen id n hn
  exact ⟨r, hk, hr⟩

/-- A value that has the representative of a live node names a live node. -/
theorem known_of_rep (h : Numbered tree a a.liveNodes t) (hv : v.node.index ∈ a.liveSlots)
    (heq : t.rep v = t.rep w) : t.known v.node.index = t.known w.node.index := by
  obtain ⟨r, hk, hr⟩ := h.exists_known hv
  rw [rep_eq, rep_eq, hk] at heq
  cases hw : t.known w.node.index with
  | some r' =>
    rw [hw] at heq
    rw [hk]
    exact congrArg some heq
  | none =>
    rw [hw] at heq
    have heq : r = w.node := heq
    rw [heq, hw] at hr
    cases hr

/-- Nodes of one class differ in nothing that their values depend on. -/
theorem alike (h : Numbered tree a a.liveNodes t) (hx : (x, n) ∈ a.liveNodes)
    (hy : (y, d) ∈ a.liveNodes) (hk : t.known x.index = t.known y.index) :
    d.op = n.op ∧ d.ty = n.ty ∧ (n.op.isPure = false → y.index = x.index) ∧
      d.valueInputs.length = n.valueInputs.length ∧
      ∀ (i : Nat) (v w : ValueId), n.valueInputs[i]? = some v → d.valueInputs[i]? = some w →
        t.rep v = t.rep w := by
  have hself : ∀ (m : Node) (i : Nat) (v w : ValueId), m.valueInputs[i]? = some v →
      m.valueInputs[i]? = some w → t.rep v = t.rep w := fun m i v w hv hw => by
    rw [Option.some.inj (hv.symm.trans hw)]
  obtain ⟨r, e, he, hkx, -, -, hcx⟩ := h.seen x n hx
  obtain ⟨r', e', he', hky, -, -, hcy⟩ := h.seen y d hy
  rw [hkx, hky] at hk
  cases Option.some.inj hk
  obtain rfl := (live_unique he he' rfl).2
  rcases hcx with ⟨-, rfl⟩ | ⟨-, hcx⟩
  · obtain rfl := (live_unique hx he rfl).2
    rcases hcy with ⟨-, rfl⟩ | ⟨-, hcy⟩
    · obtain rfl := (live_unique hy he rfl).2
      exact ⟨rfl, rfl, fun _ => rfl, rfl, hself d⟩
    · refine ⟨hcy.op.symm, hcy.ty.symm, fun hp => ?_, hcy.arity.symm, fun i v w hv hw => ?_⟩
      · rw [hcy.op, hcy.pure] at hp
        cases hp
      · exact (hcy.inputs i w v hw hv).symm
  · rcases hcy with ⟨-, rfl⟩ | ⟨-, hcy⟩
    · obtain rfl := (live_unique hy he rfl).2
      refine ⟨hcx.op, hcx.ty, fun hp => ?_, hcx.arity, hcx.inputs⟩
      rw [hcx.pure] at hp
      cases hp
    · refine ⟨hcy.op.symm.trans hcx.op, hcy.ty.symm.trans hcx.ty, fun hp => ?_,
        hcy.arity.symm.trans hcx.arity, fun i v w hv hw => ?_⟩
      · rw [hcx.pure] at hp
        cases hp
      · have hlt : i < e.valueInputs.length := by
          rw [hcx.arity]
          exact (List.getElem?_eq_some_iff.mp hv).1
        have hget := List.getElem?_eq_getElem hlt
        exact (hcx.inputs i v _ hv hget).trans (hcy.inputs i w _ hw hget).symm

end Numbered

-- ---------------------------------------------------------------------------
-- Values
-- ---------------------------------------------------------------------------

/-- The live nodes of `c` are nodes of `a`, with inputs of the same classes. -/
structure View (t : Walk) (a c : IrArena) : Prop where
  live : ∀ i ∈ c.liveSlots, i ∈ a.liveSlots
  node : ∀ (x : NodeId) (n' : Node), x.index ∈ c.liveSlots → c.node x = .ok n' →
    ∃ n, a.node x = .ok n ∧ n'.op = n.op ∧ n'.ty = n.ty ∧
      n'.valueInputs.length = n.valueInputs.length ∧
      ∀ (i : Nat) (v v' : ValueId), n.valueInputs[i]? = some v → n'.valueInputs[i]? = some v' →
        t.rep v' = t.rep v

/-- What the nodes of `c` read is there, if it was ever live. -/
def Closed (t : Walk) (c : IrArena) : Prop :=
  ∀ (y : NodeId) (d : Node), y.index ∈ c.liveSlots → c.node y = .ok d → ∀ w ∈ d.valueInputs,
    (∃ r, t.known w.node.index = some r) →
    w.node.index ∈ c.liveSlots ∧ ∃ m, c.node w.node = .ok m

def SameClass (t : Walk) (c : IrArena) (x y : NodeId) : Prop :=
  t.known x.index = t.known y.index ∧ y.index ∈ c.liveSlots ∧ ∃ d, c.node y = .ok d

theorem view_self : View t a a :=
  ⟨fun _ hi => hi, fun _ n' _ hn => ⟨n', hn, rfl, rfl, rfl, fun i v v' hv hv' => by
    rw [Option.some.inj (hv.symm.trans hv')]⟩⟩

theorem apply_congr {V : Type} {m : Meaning V} {j : Nat} (hop : d.op = n.op) (hty : d.ty = n.ty)
    (hi : n.op.isPure = false → j = i) (xs : List V) : m.apply j d xs = m.apply i n xs := by
  unfold Meaning.apply
  rw [hop, hty]
  split
  · rfl
  · cases hp : n.op.isPure with
    | true => rfl
    | false => rw [hi hp]

theorem simulates (h : Numbered tree a a.liveNodes t) (hc : View t a c) (hc' : View t a c')
    (hclosed : Closed t c') : Simulates (SameClass t c') c c' := by
  rintro x y n' ⟨hk, hy, d', hd'⟩ hx hn' hinputs
  obtain ⟨n, hn, hop, hty, hlen, hrep⟩ := hc.node x n' hx hn'
  obtain ⟨d, hd, hop', hty', hlen', hrep'⟩ := hc'.node y d' hy hd'
  obtain ⟨idx, hnl, hxi, -⟩ := live_of_node hn (hc.live _ hx)
  obtain ⟨idy, hdl, hyi, -⟩ := live_of_node hd (hc'.live _ hy)
  rw [hxi, hyi] at hk
  obtain ⟨hops, htys, hpure, hlens, hreps⟩ := h.alike hnl hdl hk
  refine ⟨hy, d', hd', fun V m xs => ?_, hlen'.trans (hlens.trans hlen.symm),
    fun i v' w' hv' hw' => ?_⟩
  · refine apply_congr (hop'.trans (hops.trans hop.symm)) (hty'.trans (htys.trans hty.symm))
      (fun hp => ?_) xs
    rw [hxi, hyi]
    exact hpure (hop ▸ hp)
  · have hlt : i < n.valueInputs.length := hlen ▸ (List.getElem?_eq_some_iff.mp hv').1
    have hlt' : i < d.valueInputs.length := hlen' ▸ (List.getElem?_eq_some_iff.mp hw').1
    have hv := List.getElem?_eq_getElem hlt
    have hw := List.getElem?_eq_getElem hlt'
    have heq : t.rep v' = t.rep w' :=
      (hrep i _ v' hv hv').trans ((hreps i _ _ hv hw).trans (hrep' i _ w' hw hw').symm)
    have hlive := hc.live _ (hinputs v' (List.mem_of_getElem? hv'))
    have hknown := h.known_of_rep hlive heq
    obtain ⟨r, hr, -⟩ := h.exists_known hlive
    exact ⟨hknown, hclosed y d' hy hd' w' (List.mem_of_getElem? hw') ⟨r, hknown ▸ hr⟩⟩

theorem closed_self (h : Numbered tree a a.liveNodes t) (hv : verify a = .ok ()) : Closed t a := by
  rintro y d hy hd w hw ⟨r, hr⟩
  obtain ⟨id, hn, -⟩ := live_of_node hd hy
  obtain ⟨m, hm⟩ := ((verify_ok.mp hv).2.2 id d hn).inputs w hw
  exact ⟨h.known_live hr, m, hm.def_eq⟩

-- ---------------------------------------------------------------------------
-- The run
-- ---------------------------------------------------------------------------

/-- The walk and the removals behind it. -/
structure Outcome (tree : DominatorTree) (a : IrArena) (t : Walk) (b : IrArena) : Prop where
  numbered : Numbered tree a a.liveNodes t
  trimmed : Trimmed (a.mapLive t.redirectNode) b
  links : LinksOk b
  isLive : ∀ x, b.IsLive x ↔ a.IsLive x ∧ x.index ∉ t.removals.map (·.index)
  slots : ∀ i, i ∈ b.liveSlots ↔ i ∈ a.liveSlots ∧ i ∉ t.removals.map (·.index)

theorem const_inputs (hv : verify a = .ok ()) :
    ∀ id n, (id, n) ∈ a.liveNodes → ∀ x, n.op = .constF64 x → n.inputs = [] := by
  intro id n hn x hop
  have harity := ((verify_ok.mp hv).2.2 id n hn).arity
  rw [hop] at harity
  exact List.length_eq_zero_iff.mp harity

theorem run_outcome (hl : LinksOk a) (hv : verify a = .ok ())
    (htree : DominatorTree.build a = .ok tree) :
    ∃ t b, run a = .ok (b, t.changed) ∧ Outcome tree a t b ∧
      ∀ x r, Handed tree a x r ↔ x ∈ t.removals ∧ t.known x.index = some r := by
  obtain ⟨t, ht, hnum, hhanded⟩ :=
    @walk_numbered a tree a.liveNodes List.prefix_rfl (const_inputs hv)
  obtain ⟨t', ht', -, hsub, -⟩ :=
    @walk_spec a tree a.liveNodes fun e he => isLive_of_live he
  cases Except.ok.inj (ht.symm.trans ht')
  have hlinks := mapLive_linksOk hl (@redirectNode_inputsOnly t)
  have hremovals : ∀ id ∈ t.removals,
      (a.mapLive t.redirectNode).IsLive id ∧ id ≠ .NONE := by
    intro id hid
    obtain ⟨n, hn⟩ := hnum.removals id hid
    obtain ⟨-, g, -, hpack⟩ := mem_liveNodes.mp hn
    refine ⟨mapLive_isLive.mpr (isLive_of_live hn), ?_⟩
    rw [hpack]
    exact NodeId.pack_ne_none
  have hnodup : (t.removals.map (·.index)).Nodup := by
    have hsub' := hsub.map (·.index)
    rw [List.map_map] at hsub'
    exact (map_index_liveNodes a ▸ a.liveSlots_nodup).sublist hsub'
  obtain ⟨b, hb, htrim, hblinks, hslots⟩ := Dce.removeAll_trimmed hlinks hremovals hnodup
  obtain ⟨b', hb', -, -, hlive⟩ := @removeAll_spec _ _ _ (fun _ => PassError.internal)
    (fun id hid => (hremovals id hid).1) hnodup
  cases Except.ok.inj (hb.symm.trans hb')
  refine ⟨t, b, ?_, ⟨hnum, htrim, hblinks, fun x => ?_, fun i => ?_⟩, hhanded⟩
  · have hfold : t.removals.foldlM
        (fun a id => (a.removeNode id).mapError fun _ => PassError.internal) t.arena = .ok b := by
      rw [hnum.arena]
      exact hb
    exact bind_ok.mpr ⟨tree, by rw [htree]; rfl, bind_ok.mpr ⟨t, ht, bind_ok.mpr ⟨b, hfold, rfl⟩⟩⟩
  · rw [hlive, mapLive_isLive]
  · rw [hslots, mapLive_liveSlots]

namespace Outcome

theorem kept_iff (h : Outcome tree a t b) (hx : (x, n) ∈ a.liveNodes) :
    x.index ∈ b.liveSlots ↔ x ∉ t.removals := by
  rw [h.slots]
  constructor
  · exact fun hi hr => hi.2 (List.mem_map_of_mem hr)
  · refine fun hr => ⟨index_mem_liveSlots hx, fun hi => hr ?_⟩
    obtain ⟨z, hz, hzi⟩ := List.mem_map.mp hi
    obtain ⟨m, hm⟩ := h.numbered.removals z hz
    exact (live_unique hm hx hzi).1 ▸ hz

theorem isLive_iff (h : Outcome tree a t b) (hx : (x, n) ∈ a.liveNodes) :
    b.IsLive x ↔ x ∉ t.removals := by
  rw [h.isLive, ← h.kept_iff hx, h.slots]
  exact and_congr_left fun _ => iff_of_true (isLive_of_live hx) (index_mem_liveSlots hx)

/-- The nodes of `b`, as nodes of `a` with their uses redirected. -/
theorem of_kept (h : Outcome tree a t b) (hx : (x, n') ∈ b.liveNodes) :
    ∃ n, (x, n) ∈ a.liveNodes ∧ x ∉ t.removals ∧ n'.unlinked = (t.redirectNode n).unlinked := by
  obtain ⟨m, hm, heq⟩ := h.trimmed.live_of_live hx
  obtain ⟨n, hn, rfl⟩ := (mem_mapLive_liveNodes redirectNode_inputsOnly).mp hm
  exact ⟨n, hn, (h.kept_iff hn).mp (index_mem_liveSlots hx), heq⟩

theorem kept (h : Outcome tree a t b) (hx : (x, n) ∈ a.liveNodes) (hr : x ∉ t.removals) :
    ∃ n', (x, n') ∈ b.liveNodes ∧ n'.unlinked = (t.redirectNode n).unlinked :=
  h.trimmed.live_kept ((mem_mapLive_liveNodes redirectNode_inputsOnly).mpr ⟨n, hx, rfl⟩)
    ((h.kept_iff hx).mpr hr)

theorem valueInputs_of_unlinked (h : n'.unlinked = (t.redirectNode n).unlinked) :
    n'.valueInputs = n.valueInputs.map t.redirect := by
  obtain ⟨-, -, -, hinputs, -⟩ := Node.unlinked_fields h
  rw [Node.valueInputs, hinputs]
  exact redirectNode_valueInputs

theorem view (h : Outcome tree a t b) : View t a b := by
  refine ⟨fun i hi => ((h.slots i).mp hi).1, fun x n' hx hn' => ?_⟩
  obtain ⟨id, hid, hi, hg⟩ := live_of_node hn' hx
  obtain ⟨n, hn, -, heq⟩ := h.of_kept hid
  obtain ⟨hop, hty, -⟩ := Node.unlinked_fields heq
  have hvalue := valueInputs_of_unlinked heq
  refine ⟨n, node_respell (node_of_live hn) hi hg, hop, hty, ?_, fun i v v' hv hv' => ?_⟩
  · rw [hvalue, List.length_map]
  · rw [hvalue, List.getElem?_map, hv] at hv'
    cases hv'
    exact h.numbered.rep_redirect fun e he => he

/-- What is removed has a representative that stays. -/
theorem represented (h : Outcome tree a t b) (hx : (x, n) ∈ a.liveNodes) (hr : x ∈ t.removals) :
    ∃ r d, (r, d) ∈ a.liveNodes ∧ r ∉ t.removals ∧ t.known x.index = some r ∧
      t.known r.index = some r ∧ Congruent tree t d n := by
  obtain ⟨r, d, hd, hk, hkr, hkept, hcases⟩ := h.numbered.seen x n hx
  rcases hcases with ⟨hnot, -⟩ | ⟨-, hcong⟩
  · exact absurd hr hnot
  · exact ⟨r, d, hd, hkept, hk, hkr, hcong⟩

theorem redirect_eq (hs : v.slot = 0) (hv : v.node ∈ t.removals)
    (hk : t.known v.node.index = some r) : t.redirect v = .fromNode r 0 := by
  rw [redirect_of hs hv, rep_eq, hk]
  rfl

theorem valueInputs_eq (hv : verify a = .ok ()) (hx : (x, n) ∈ a.liveNodes) :
    n.valueInputs = n.inputs :=
  ((verify_ok.mp hv).2.2 x n hx).valueInputs_eq

/-- What a node that stays reads afterwards: what it read, which stays too if
it was live, or the representative, which the verifier lets it read. -/
theorem reads (h : Outcome tree a t b) (hv : verify a = .ok ())
    (hh : ∀ x r, Handed tree a x r ↔ x ∈ t.removals ∧ t.known x.index = some r)
    (hred : Redirectable tree a) (hy : (y, n) ∈ a.liveNodes) (hkept : y ∉ t.removals)
    (hw : w ∈ n.valueInputs) :
    (t.redirect w = w ∧ (w.node.index ∈ a.liveSlots → w.node.index ∈ b.liveSlots)) ∨
    ∃ r d m, (r, d) ∈ a.liveNodes ∧ r ∉ t.removals ∧ t.redirect w = .fromNode r 0 ∧
      a.node w.node = .ok m ∧ d.ty = m.ty ∧ regionDominates a d.region n.region = true := by
  obtain ⟨m, hm⟩ := ((verify_ok.mp hv).2.2 y n hy).inputs w hw
  have hinput : w ∈ n.inputs := valueInputs_eq hv hy ▸ hw
  have hstays : ∀ r', ¬ Handed tree a y r' := fun r' hr' => hkept ((hh y r').mp hr').1
  by_cases hrem : w.node ∈ t.removals
  · obtain ⟨m', hm'⟩ := h.numbered.removals _ hrem
    cases Except.ok.inj (hm.def_eq.symm.trans (node_of_live hm'))
    obtain ⟨r, d, hd, hr, hk, -, hcong⟩ := h.represented hm' hrem
    refine .inr ⟨r, d, m, hd, hr, redirect_eq hm.slot_eq hrem hk, hm.def_eq, hcong.ty, ?_⟩
    exact (hred _ r ((hh _ r).mpr ⟨hrem, hk⟩) y n hy hstays).2 w hinput ⟨hm.slot_eq, rfl, rfl⟩ d
      (node_of_live hd)
  · refine .inl ⟨redirect_self fun _ => hrem, fun hlive => ?_⟩
    obtain ⟨x, hx, hxi, hxg⟩ := live_of_node hm.def_eq hlive
    rw [hxi, h.kept_iff hx]
    intro hxr
    obtain ⟨r, d, -, -, hk, -⟩ := h.represented hx hxr
    have hword := (hred x r ((hh x r).mpr ⟨hxr, hk⟩) y n hy hstays).1 w
      (List.mem_append_left _ hinput) ⟨hm.slot_eq, hxi, hxg⟩
    exact hrem (hword ▸ hxr)

theorem accepted (h : Outcome tree a t b) (hv : verify a = .ok ())
    (hh : ∀ x r, Handed tree a x r ↔ x ∈ t.removals ∧ t.known x.index = some r)
    (hl : LinksOk a) (hred : Redirectable tree a) : verify b = .ok () := by
  have hf := @redirectNode_inputsOnly t
  obtain ⟨htree, howners, hnodes⟩ := verify_ok.mp hv
  refine h.trimmed.verify_left (mapLive_linksOk hl hf) h.links
    ((regionTreeOk_congr mapLive_sameTree).trans htree)
    (fun r hr => (howners r hr).imp_right (ownerOk_mapLive hf).trans) (fun id n' hn' hlive => ?_)
    (fun id n' hn' hop => ?_) (fun id n' hn' hlive v' hv' hvl => ?_)
  · obtain ⟨n, hn, rfl⟩ := (mem_mapLive_liveNodes hf).mp hn'
    refine (hnodes id n hn).mapLive hf (fun v' hv' => ?_) fun hnone => ?_
    · rw [redirectNode_valueInputs] at hv'
      obtain ⟨v, hv₀, rfl⟩ := List.mem_map.mp hv'
      refine ⟨v, hv₀, fun d hd => ?_⟩
      rcases h.reads hv hh hred hn ((h.kept_iff hn).mp hlive) hv₀ with
        ⟨hself, -⟩ | ⟨r, e, m, he, -, hredir, hm, hty, hdom⟩
      · rw [hself]
        exact ⟨hd.not_none, hd.slot_eq, d, hd.def_eq, rfl, hd.dominates⟩
      · obtain ⟨hnode, hslot, hnone⟩ := fromNode_live he
        cases Except.ok.inj (hd.def_eq.symm.trans hm)
        rw [hredir]
        exact ⟨hnone, hslot, e, hnode.symm ▸ node_of_live he, hty, hdom⟩
    · by_contra hsome
      have hnone : (t.redirect n.effectIn).isNone = true := hnone
      by_cases hrem : n.effectIn.slot = 0 ∧ n.effectIn.node ∈ t.removals
      · obtain ⟨m, hm⟩ := h.numbered.removals _ hrem.2
        obtain ⟨r, d, hd, -, hk, -⟩ := h.represented hm hrem.2
        rw [redirect_eq hrem.1 hrem.2 hk, (fromNode_live hd).2.2] at hnone
        cases hnone
      · rw [redirect_self fun hs hr => hrem ⟨hs, hr⟩] at hnone
        exact hsome hnone
  · obtain ⟨n, hn, rfl⟩ := (mem_mapLive_liveNodes hf).mp hn'
    rw [h.kept_iff hn]
    intro hr
    obtain ⟨r, d, -, -, -, -, hcong⟩ := h.represented hn hr
    have hop : n.op = .ifOp := hop
    have hpure := hcong.pure
    rw [hop] at hpure
    cases hpure
  · obtain ⟨n, hn, rfl⟩ := (mem_mapLive_liveNodes hf).mp hn'
    rw [redirectNode_valueInputs] at hv'
    obtain ⟨v, hv₀, rfl⟩ := List.mem_map.mp hv'
    rcases h.reads hv hh hred hn ((h.kept_iff hn).mp hlive) hv₀ with
      ⟨hself, hstay⟩ | ⟨r, e, m, he, hr, hredir, -⟩
    · rw [hself] at hvl ⊢
      exact hstay (mapLive_liveSlots ▸ hvl)
    · rw [hredir, (fromNode_live he).1, h.kept_iff he]
      exact hr

/-- A use under the node's own handle is one that the walk redirects. -/
theorem redirect_use (hk : t.known x.index = some r) (hx : x ∈ t.removals) (hu : UsesOf x v)
    (hword : v.node = x) : t.redirect v = .fromNode r 0 :=
  redirect_eq hu.1 (hword ▸ hx) (hword ▸ hk)

theorem closed (h : Outcome tree a t b) (hv : verify a = .ok ())
    (hh : ∀ x r, Handed tree a x r ↔ x ∈ t.removals ∧ t.known x.index = some r)
    (hred : Redirectable tree a) : Closed t b := by
  rintro y d' hy hd' w' hw' ⟨r, hr⟩
  obtain ⟨id, hid, -⟩ := live_of_node hd' hy
  obtain ⟨n, hn, hkept, heq⟩ := h.of_kept hid
  rw [valueInputs_of_unlinked heq] at hw'
  obtain ⟨w, hw, rfl⟩ := List.mem_map.mp hw'
  have hland : ∀ z m, (z, m) ∈ a.liveNodes → z ∉ t.removals → ∀ u : NodeId, u.index = z.index →
      u.generation = z.generation → u.index ∈ b.liveSlots ∧ ∃ m, b.node u = .ok m := by
    intro z m hm hz u hi hg
    obtain ⟨m', hm', -⟩ := h.kept hm hz
    exact ⟨hi ▸ index_mem_liveSlots hm', m', node_respell (node_of_live hm') hi hg⟩
  rcases h.reads hv hh hred hn hkept hw with ⟨hself, hstay⟩ | ⟨z, e, m, he, hz, hredir, -⟩
  · rw [hself] at hr ⊢
    obtain ⟨m, hm⟩ := ((verify_ok.mp hv).2.2 id n hn).inputs w hw
    have hlive := h.numbered.known_live hr
    obtain ⟨z, hz, hi, hg⟩ := live_of_node hm.def_eq hlive
    exact hland z m hz ((h.kept_iff hz).mp (hi ▸ hstay hlive)) w.node hi hg
  · rw [hredir, (fromNode_live he).1]
    exact hland z e he hz z rfl rfl

theorem values (h : Outcome tree a t b) (hv : verify a = .ok ())
    (hh : ∀ x r, Handed tree a x r ↔ x ∈ t.removals ∧ t.known x.index = some r)
    (hred : Redirectable tree a) {V : Type} (m : Meaning V) (hid : b.IsLive id) (z : V) :
    Evaluates m a id z ↔ Evaluates m b id z := by
  have hlive : id.index ∈ b.liveSlots := hid.index_mem
  obtain ⟨n', hn'⟩ := hid.2
  obtain ⟨n, hn, -⟩ := h.view.node id n' hlive hn'
  constructor
  · exact .map (simulates h.numbered view_self h.view (h.closed hv hh hred)) ⟨rfl, hlive, n', hn'⟩
  · exact .map (simulates h.numbered h.view view_self (closed_self h.numbered hv))
      ⟨rfl, h.view.live _ hlive, n, hn⟩

theorem values_removed (h : Outcome tree a t b) (hv : verify a = .ok ())
    (hx : (x, n) ∈ a.liveNodes) (hr : (r, d) ∈ a.liveNodes)
    (hk : t.known x.index = t.known r.index) {V : Type} (m : Meaning V) (z : V) :
    Evaluates m a x z ↔ Evaluates m a r z := by
  have hsim := simulates h.numbered view_self view_self (closed_self h.numbered hv)
  constructor
  · exact .map hsim ⟨hk, index_mem_liveSlots hr, d, node_of_live hr⟩
  · exact .map hsim ⟨hk.symm, index_mem_liveSlots hx, n, node_of_live hx⟩

theorem sound (h : Outcome tree a t b) (hv : verify a = .ok ()) (hl : LinksOk a)
    (hh : ∀ x r, Handed tree a x r ↔ x ∈ t.removals ∧ t.known x.index = some r)
    (hred : Redirectable tree a) : Sound tree a b where
  accepted := h.accepted hv hh hl hred
  values V m id hid z := h.values hv hh hred m hid z
  removed x n hx hgone := by
    have hrem : x ∈ t.removals := by
      by_contra hkept
      exact hgone ((h.isLive_iff hx).mpr hkept)
    obtain ⟨r, d, hd, hkept, hk, hkr, hcong⟩ := h.represented hx hrem
    refine ⟨hcong.pure, r, d, hd, (h.isLive_iff hd).mpr hkept, hcong.ty, hcong.dominates,
      fun V m v => h.values_removed hv hx hd (hk.trans hkr.symm) m v,
      fun y p p' hy hy' => ?_⟩
    obtain ⟨p₀, hp₀, hykept, heq⟩ := h.of_kept hy'
    obtain rfl := (live_unique hp₀ hy rfl).2
    obtain ⟨-, -, -, hinputs, heffect⟩ := Node.unlinked_fields heq
    have huse := (hred x r ((hh x r).mpr ⟨hrem, hk⟩) y p₀ hy
      fun r' hr' => hykept ((hh y r').mp hr').1).1
    refine ⟨fun i v hv hu => ?_, fun hu => ?_⟩
    · rw [hinputs, Walk.redirectNode, List.getElem?_map, hv, Option.map_some,
        redirect_use hk hrem hu (huse v (List.mem_append_left _ (List.mem_of_getElem? hv)) hu)]
    · rw [heffect, Walk.redirectNode, redirect_use hk hrem hu (huse _ (by simp) hu)]
  impure x n hx hp := by
    refine (h.isLive_iff hx).mpr fun hr => ?_
    obtain ⟨r, d, -, -, -, -, hcong⟩ := h.represented hx hr
    rw [hcong.pure] at hp
    cases hp

/-- What a sound run leaves tells which uses were redirected. -/
theorem redirectable (h : Outcome tree a t b)
    (hh : ∀ x r, Handed tree a x r ↔ x ∈ t.removals ∧ t.known x.index = some r)
    (hs : Sound tree a b) : Redirectable tree a := by
  intro x r hxr y n hy hstays
  obtain ⟨hrem, hk⟩ := (hh x r).mp hxr
  obtain ⟨p, hx⟩ := h.numbered.removals x hrem
  obtain ⟨r₀, d₀, hd₀, hrkept, hk₀, -⟩ := h.represented hx hrem
  cases Option.some.inj (hk.symm.trans hk₀)
  have hykept : y ∉ t.removals := fun hyr => by
    obtain ⟨ry, dy, -, -, hky, -⟩ := h.represented hy hyr
    exact hstays ry ((hh y ry).mpr ⟨hyr, hky⟩)
  obtain ⟨n', hy', heq⟩ := h.kept hy hykept
  obtain ⟨-, -, hregion, hinputs, heffect⟩ := Node.unlinked_fields heq
  have hgone : ¬ b.IsLive x := fun hlive => (h.isLive_iff hx).mp hlive hrem
  obtain ⟨-, r', d', hr', hrlive, -, -, -, hredir⟩ := hs.removed x p hx hgone
  obtain ⟨hin, heff⟩ := hredir y n n' hy hy'
  -- a use that is written otherwise stays, and would name the removed slot
  have hword : ∀ v, UsesOf x v → t.redirect v = .fromNode r' 0 → v.node = x := by
    intro v hu hto
    by_contra hne
    have hself : t.redirect v = v := by
      refine redirect_self fun _ hvr => hne ?_
      obtain ⟨q, hq⟩ := h.numbered.removals _ hvr
      exact (live_unique hq hx hu.2.1).1
    rw [hself] at hto
    have hindex : r'.index = x.index := by
      rw [← (fromNode_live hr').1, ← hto]
      exact hu.2.1
    have hslot := hrlive.index_mem
    rw [hindex, h.kept_iff hx] at hslot
    exact hslot hrem
  refine ⟨fun v hv' hu => ?_, fun v hv' hu d hd => ?_⟩
  · rcases List.mem_append.mp hv' with hv' | hv'
    · obtain ⟨i, hi⟩ := List.getElem?_of_mem hv'
      have hto := hin i v hi hu
      rw [hinputs, Walk.redirectNode, List.getElem?_map, hi] at hto
      exact hword v hu (Option.some.inj hto)
    · obtain rfl := List.mem_singleton.mp hv'
      exact hword _ hu (heffect.symm.trans (heff hu))
  · have hinput : v ∈ n.inputs := hv'
    obtain ⟨i, hi⟩ := List.getElem?_of_mem hinput
    have hto := hin i v hi hu
    rw [hinputs, Walk.redirectNode, List.getElem?_map, hi] at hto
    have huse := redirect_use hk hrem hu (hword v hu (Option.some.inj hto))
    have hread : ValueId.fromNode r 0 ∈ n'.valueInputs := by
      rw [valueInputs_eq hs.accepted hy', hinputs, ← huse]
      exact List.mem_map_of_mem hinput
    obtain ⟨e, he⟩ := ((verify_ok.mp hs.accepted).2.2 y n' hy').inputs _ hread
    cases Except.ok.inj (hd.symm.trans (node_of_live hd₀))
    obtain ⟨e', he', heq'⟩ := h.kept hd₀ hrkept
    have hdef := he.def_eq
    rw [(fromNode_live hd₀).1, node_of_live he'] at hdef
    cases Except.ok.inj hdef
    obtain ⟨-, -, hregion', -, -⟩ := Node.unlinked_fields heq'
    have hdom := he.dominates
    rw [hregion, hregion',
      regionDominates_congr (mapLive_sameTree.trans h.trimmed.tree)] at hdom
    exact hdom

/-- Where every use has the handle of its node and the regions are a forest,
every use can be redirected. -/
theorem redirectable_of_own (h : Outcome tree a t b) (hv : verify a = .ok ())
    (hh : ∀ x r, Handed tree a x r ↔ x ∈ t.removals ∧ t.known x.index = some r)
    (htree : DominatorTree.build a = .ok tree) (hshape : TreeOk a)
    (hshallow : DominatorTree.Shallow a)
    (hregion : ∀ id n, (id, n) ∈ a.liveNodes → ∃ r, a.region n.region = .ok r)
    (hown : ∀ id n, (id, n) ∈ a.liveNodes → ∀ v ∈ n.inputs ++ [n.effectIn], ∀ x ∈ a.liveIds,
      UsesOf x v → v.node = x) : Redirectable tree a := by
  obtain ⟨tree', htree', hcomplete⟩ := DominatorTree.build_complete hshape hshallow
  cases Except.ok.inj (htree.symm.trans htree')
  have hdepth : ∀ id n, (id, n) ∈ a.liveNodes → ∃ k, HasDepth a n.region k := by
    intro id n hn
    obtain ⟨r, hr⟩ := hregion id n hn
    obtain ⟨k, -, hk⟩ := hshallow n.region r hr
    exact ⟨k, hk⟩
  intro x r hxr y n hy _
  obtain ⟨hrem, hk⟩ := (hh x r).mp hxr
  obtain ⟨p, hx⟩ := h.numbered.removals x hrem
  obtain ⟨r₀, d₀, hd₀, -, hk₀, -, hcong⟩ := h.represented hx hrem
  cases Option.some.inj (hk.symm.trans hk₀)
  have hword : ∀ v ∈ n.inputs ++ [n.effectIn], UsesOf x v → v.node = x := fun v hv' hu =>
    hown y n hy v hv' x (List.mem_map_of_mem hx) hu
  refine ⟨hword, fun v hv' hu d hd => ?_⟩
  cases Except.ok.inj (hd.symm.trans (node_of_live hd₀))
  obtain ⟨e, he⟩ := ((verify_ok.mp hv).2.2 y n hy).inputs v (valueInputs_eq hv hy ▸ hv')
  have hdef := he.def_eq
  rw [hword v (List.mem_append_left _ hv') hu, node_of_live hx] at hdef
  cases Except.ok.inj hdef
  obtain ⟨kr, hkr⟩ := hdepth r d₀ hd₀
  obtain ⟨kx, hkx⟩ := hdepth x p hx
  obtain ⟨ky, hky⟩ := hdepth y n hy
  have hup := (hcomplete.dominates_iff hshape hkr hkx).mp hcong.dominates
  have hdown := (regionDominates_iff hshape hkx.not_isNone hky).mp he.dominates
  exact (regionDominates_iff hshape hkr.not_isNone hky).mpr (hup.trans hdown)

end Outcome

end Gvn

open Gvn

/-- Value numbering is sound exactly where every use of a merged node can be
redirected. -/
theorem gvn_sound_iff {nodes regions : Nat} {a : IrArena} (h : Tended nodes regions a)
    (hv : verify a = .ok ()) :
    ∃ tree b k, DominatorTree.build a = .ok tree ∧ Gvn.run a = .ok (b, k) ∧
      (Sound tree a b ↔ Redirectable tree a) := by
  obtain ⟨tree, htree⟩ := DominatorTree.build_total a
  obtain ⟨t, b, hrun, hout, hhanded⟩ := run_outcome h.linksOk hv htree
  exact ⟨tree, b, t.changed, htree, hrun, hout.redirectable hhanded,
    hout.sound hv h.linksOk hhanded⟩

def firstParam : Node := .new (.param 0) (.pack 0 0) [] (.scalar .f64)

def product (op : Op) : Node :=
  .new op (.pack 0 0) [.fromNode (.pack 0 0 .graph) 0, .fromNode (.pack 0 0 .graph) 0]
    (.scalar .f64)

def negatedSecond : Node :=
  .new (.unary .neg) (.pack 0 0) [.fromNode (.pack 2 0 .graph) 0] (.scalar .f64)

/-- A parameter, two dot products of it, and the negation of the second. -/
def twoDots : IrArena := .built do
  let (_, a) ← (IrArena.withCapacity 4 1).insertNode (.pack 0 0) firstParam
  let (_, a) ← a.insertNode (.pack 0 0) (product .dot)
  let (_, a) ← a.insertNode (.pack 0 0) (product .dot)
  let (_, a) ← a.insertNode (.pack 0 0) negatedSecond
  return a

theorem tended_twoDots : Tended 4 1 twoDots :=
  @Tended.insert 4 1 _ _ (.pack 0 0) negatedSecond (.pack 3 0 .graph)
    (@Tended.insert 4 1 _ _ (.pack 0 0) (product .dot) (.pack 2 0 .graph)
      (@Tended.insert 4 1 _ _ (.pack 0 0) (product .dot) (.pack 1 0 .graph)
        (@Tended.insert 4 1 _ _ (.pack 0 0) firstParam (.pack 0 0 .graph) .start rfl) rfl) rfl) rfl

theorem gvn_sound_iff_twoDots :
    ∃ tree b k, DominatorTree.build twoDots = .ok tree ∧ Gvn.run twoDots = .ok (b, k) ∧
      (Sound tree twoDots b ↔ Redirectable tree twoDots) :=
  gvn_sound_iff tended_twoDots (by decide)

/-- Both dot products have become matrix products: their handles have another
level than those that their users hold. -/
def loweredDots : IrArena := .built do
  let a ← twoDots.modifyNode (.pack 1 0 .graph) fun n => { n with op := .matmul false false }
  a.modifyNode (.pack 2 0 .graph) fun n => { n with op := .matmul false false }

theorem tended_loweredDots : Tended 4 1 loweredDots :=
  @Tended.modify 4 1 _ _ (.pack 2 0 .graph) (fun n => { n with op := .matmul false false })
    (@Tended.modify 4 1 _ _ (.pack 1 0 .graph) (fun n => { n with op := .matmul false false })
      tended_twoDots (fun _ => rfl) rfl) (fun _ => rfl) rfl

/-- The second product goes, and the negation still reads it. -/
theorem loweredDots_not_sound : ¬ ∀ (nodes regions : Nat) (a : IrArena), Tended nodes regions a →
    verify a = .ok () → ValueAcyclic a → ∀ tree b k, DominatorTree.build a = .ok tree →
      Gvn.run a = .ok (b, k) → Sound tree a b := by
  intro hall
  have hschedule : schedule loweredDots =
      .ok [.pack 0 0 .graph, .pack 1 0 .tensor, .pack 2 0 .tensor, .pack 3 0 .graph] := by decide
  have hacyclic : ValueAcyclic loweredDots := (schedule_scheduled hschedule).acyclic
  obtain ⟨tree, htree⟩ := DominatorTree.build_total loweredDots
  have hrejects : (match Gvn.run loweredDots with
      | .ok (b, _) => (verify b).toBool
      | .error _ => true) = false := rfl
  cases hrun : Gvn.run loweredDots with
  | error e =>
    rw [hrun] at hrejects
    cases hrejects
  | ok r =>
    obtain ⟨b, k⟩ := r
    have hsound := hall 4 1 loweredDots tended_loweredDots (by decide) hacyclic tree b k htree hrun
    rw [hrun] at hrejects
    simp only [hsound.accepted, Except.toBool, Bool.true_eq_false] at hrejects

end Sxla
