import Sxla.Graph.ScheduleLaws
import Sxla.Ir.Handles

/-!
# The values of nodes

What the nodes of an arena evaluate to, for any meaning of their ops: a pure
node is a function of its op, its type and the values of its inputs, an
impure one a function of its own. A node that reads a freed slot, or
depends on itself, has no value.
-/

namespace Sxla

open IrArena Schedule

/-- The parameters, what each pure op computes, and what the impure node in
each slot does. -/
structure Meaning (V : Type) where
  param : UInt32 → V
  pure : Op → Ty → List V → V
  impure : Nat → List V → V

def Meaning.apply {V : Type} (m : Meaning V) (slot : Nat) (n : Node) (xs : List V) : V :=
  match n.op with
  | .param index => m.param index
  | op => if op.isPure then m.pure op n.ty xs else m.impure slot xs

inductive Evaluates {V : Type} (m : Meaning V) (a : IrArena) : NodeId → V → Prop
  | node {id : NodeId} {n : Node} {xs : List V} (hlive : id.index ∈ a.liveSlots)
      (hn : a.node id = .ok n) (hlen : xs.length = n.valueInputs.length)
      (hxs : ∀ (i : Nat) (v : ValueId) (x : V), n.valueInputs[i]? = some v → xs[i]? = some x →
        Evaluates m a v.node x) :
      Evaluates m a id (m.apply id.index n xs)

variable {V : Type} {m : Meaning V} {a b : IrArena} {id x y : NodeId} {n d : Node} {v w : V}

/-- Nodes related by `S` compute the same from inputs related by `S`. -/
def Simulates (S : NodeId → NodeId → Prop) (a b : IrArena) : Prop :=
  ∀ x y n, S x y → x.index ∈ a.liveSlots → a.node x = .ok n →
    (∀ v ∈ n.valueInputs, v.node.index ∈ a.liveSlots) →
    y.index ∈ b.liveSlots ∧ ∃ d, b.node y = .ok d ∧
      (∀ (V : Type) (m : Meaning V) xs, m.apply y.index d xs = m.apply x.index n xs) ∧
      d.valueInputs.length = n.valueInputs.length ∧
      ∀ (i : Nat) (v w : ValueId), n.valueInputs[i]? = some v → d.valueInputs[i]? = some w →
        S v.node w.node

theorem Evaluates.live (h : Evaluates m a id v) : id.index ∈ a.liveSlots := by
  cases h
  assumption

theorem Evaluates.map {S : NodeId → NodeId → Prop} (hS : Simulates S a b) (hxy : S x y)
    (h : Evaluates m a x v) : Evaluates m b y v := by
  induction h generalizing y with
  | @node id n xs hlive hn hlen hxs ih =>
    have hinputs : ∀ u ∈ n.valueInputs, u.node.index ∈ a.liveSlots := by
      intro u hu
      obtain ⟨i, hi⟩ := List.getElem?_of_mem hu
      have hlt : i < xs.length := hlen ▸ (List.getElem?_eq_some_iff.mp hi).1
      exact (hxs i u _ hi (List.getElem?_eq_getElem hlt)).live
    obtain ⟨hlive', d, hd, happly, hlen', hnext⟩ := hS id y n hxy hlive hn hinputs
    rw [← happly]
    refine .node hlive' hd (hlen.trans hlen'.symm) fun i u z hu hz => ?_
    have hlt : i < n.valueInputs.length := hlen ▸ (List.getElem?_eq_some_iff.mp hz).1
    have hget := List.getElem?_eq_getElem hlt
    exact ih i _ z hget hz (hnext i _ u hget hu)

/-- A handle matters by the node it resolves to. -/
theorem Evaluates.respell (hi : y.index = x.index) (hg : y.generation = x.generation)
    (h : Evaluates m a x v) : Evaluates m a y v := by
  have hnode : a.node y = a.node x := by simp only [IrArena.node, hi, hg]
  cases h with
  | node hlive hn hlen hxs =>
    rw [← hi]
    exact .node (hi ▸ hlive) (hnode.trans hn) hlen hxs

theorem Evaluates.unique (h : Evaluates m a x v) (h' : Evaluates m a x w) : v = w := by
  induction h generalizing w with
  | @node id n xs hlive hn hlen hxs ih =>
    cases h' with
    | @node _ n' ys _ hn' hlen' hys =>
      cases Except.ok.inj (hn.symm.trans hn')
      congr 1
      refine List.ext_getElem (hlen.trans hlen'.symm) fun i hx hy => ?_
      have hget := List.getElem?_eq_getElem (hlen ▸ hx : i < n.valueInputs.length)
      exact ih i _ _ hget (List.getElem?_eq_getElem hx)
        (hys i _ _ hget (List.getElem?_eq_getElem hy))

/-- A live node is evaluated on the values of its inputs. -/
theorem Evaluates.apply {xs : List V} (hn : (id, n) ∈ a.liveNodes)
    (hxs : List.Forall₂ (fun v x => Evaluates m a v.node x) n.valueInputs xs) :
    Evaluates m a id (m.apply id.index n xs) := by
  refine .node (index_mem_liveSlots hn) (node_of_live hn) hxs.length_eq.symm fun i v x hv hx => ?_
  obtain ⟨hlt, rfl⟩ := List.getElem?_eq_some_iff.mp hv
  obtain ⟨hlt', rfl⟩ := List.getElem?_eq_some_iff.mp hx
  exact hxs.get hlt hlt'

/-- A handle has the value of the live node in its slot when it resolves. -/
theorem Evaluates.of_live (hn : (x, n) ∈ a.liveNodes) (hv : Evaluates m a x v)
    (hi : y.index = x.index) (hy : a.node y = .ok d) : Evaluates m a y v := by
  have hslot := slot_of_node hy
  rw [hi, slot_of_node (node_of_live hn)] at hslot
  exact hv.respell hi (NodeSlot.mk.inj (Option.some.inj hslot)).2.symm

theorem exists_values {P : ValueId → V → Prop} {l : List ValueId} (h : ∀ v ∈ l, ∃ x, P v x) :
    ∃ xs : List V, xs.length = l.length ∧
      ∀ (i : Nat) (v : ValueId) (x : V), l[i]? = some v → xs[i]? = some x → P v x := by
  induction l with
  | nil => exact ⟨[], rfl, by simp⟩
  | cons v l ih =>
    obtain ⟨⟨x, hx⟩, hl⟩ := List.forall_mem_cons.mp h
    obtain ⟨xs, hlen, hxs⟩ := ih hl
    refine ⟨x :: xs, congrArg Nat.succ hlen, fun i u y hu hy => ?_⟩
    cases i with
    | zero =>
      cases hu
      cases hy
      exact hx
    | succ i => exact hxs i u y hu hy

/-- The value of a handle is that of the live node it resolves to. -/
theorem exists_value_of_live (hid : id ∈ a.liveIds) (hv : ∃ v, Evaluates m a id v)
    (hi : x.index = id.index) (hx : ∃ d, a.node x = .ok d) : ∃ v, Evaluates m a x v := by
  obtain ⟨v, hv⟩ := hv
  obtain ⟨⟨_, n⟩, hn, rfl⟩ := List.mem_map.mp hid
  obtain ⟨d, hd⟩ := hx
  have hslot := slot_of_node hd
  rw [hi, slot_of_node (node_of_live hn)] at hslot
  exact ⟨v, hv.respell hi (NodeSlot.mk.inj (Option.some.inj hslot)).2.symm⟩

/-- Every node of a closed acyclic graph whose inputs resolve has one value. -/
theorem exists_value (m : Meaning V) (hl : InputsLive a) (hac : ValueAcyclic a)
    (hok : ∀ id n, (id, n) ∈ a.liveNodes → ∀ v ∈ n.valueInputs, ∃ d, a.node v.node = .ok d)
    (hid : id ∈ a.liveIds) : ∃! v, Evaluates m a id v := by
  obtain ⟨order, horder⟩ := schedule_total hl hac
  have hs := schedule_scheduled horder
  have hprefix : ∀ l r, order = l ++ r → ∀ id ∈ l, ∃ v, Evaluates m a id v := by
    intro l
    induction l using List.reverseRecOn with
    | nil => simp
    | append_singleton l y ih =>
      intro r hr id hid
      have hr' : order = l ++ y :: r := by simpa using hr
      have hlive : ∀ z ∈ order, z ∈ a.liveIds := fun z => hs.perm.mem_iff.mp
      rcases List.mem_append.mp hid with hid | hid
      · exact ih _ hr' id hid
      · obtain rfl := List.mem_singleton.mp hid
        obtain ⟨⟨_, n⟩, hn, rfl⟩ := List.mem_map.mp (hlive id (by simp [hr']))
        obtain ⟨xs, hlen, hxs⟩ := exists_values (P := fun v x => Evaluates m a v.node x)
          fun v hv => by
            have hbefore := hs.ordered (l.map (·.index)) _ (r.map (·.index)) (by simp [hr']) _
              ⟨_, n, hn, rfl, v, hv, rfl⟩
            obtain ⟨z, hz, hzi⟩ := List.mem_map.mp hbefore
            exact exists_value_of_live (hlive z (by simp [hr', hz])) (ih _ hr' z hz) hzi.symm
              (hok _ _ hn v hv)
        exact ⟨_, .node (index_mem_liveSlots hn) (node_of_live hn) hlen hxs⟩
  obtain ⟨v, hv⟩ := hprefix order [] (by simp) id (hs.perm.mem_iff.mpr hid)
  exact ⟨v, hv, fun w hw => hw.unique hv⟩

end Sxla
