import Mathlib

/-!
# Cheapest terms

A graph in which a class is a choice between nodes and a node needs a term of
each of its child classes. A term of a class is a node of it over terms of its
children, and costs the sum of the weights of its nodes. Where the weights
are positive a cheapest term is made of cheapest terms, each of them cheaper
than the whole, so rounds that relax every node settle one more rank of
classes each.
-/

structure TermGraph (ι κ : Type) where
  nodes : Finset ι
  cls : ι → κ
  children : ι → List κ
  weight : ι → Nat

namespace TermGraph

variable {ι κ : Type} {G : TermGraph ι κ} {i : ι} {k : κ} {v w limit r : Nat} {vs ws : List Nat}
  {table table' : κ → Option Nat}

/-- The class has a finite term of this cost; the arguments of its top node
are terms of the child classes, position by position. -/
inductive Costs (G : TermGraph ι κ) : κ → Nat → Prop
  | node (i : ι) (vs : List Nat) (hi : i ∈ G.nodes) (hlen : (G.children i).length = vs.length)
    (h : ∀ p ∈ (G.children i).zip vs, Costs G p.1 p.2) : Costs G (G.cls i) (G.weight i + vs.sum)

def Cheapest (G : TermGraph ι κ) (k : κ) (v : Nat) : Prop := IsLeast {v | G.Costs k v} v

/-- A term with this node at its top. -/
def NodeCosts (G : TermGraph ι κ) (i : ι) (v : Nat) : Prop :=
  ∃ vs, List.Forall₂ G.Costs (G.children i) vs ∧ v = G.weight i + vs.sum

def Positive (G : TermGraph ι κ) : Prop := ∀ i ∈ G.nodes, 0 < G.weight i

-- ---------------------------------------------------------------------------
-- Cheapest terms are made of cheapest terms
-- ---------------------------------------------------------------------------

theorem NodeCosts.costs (h : G.NodeCosts i v) (hi : i ∈ G.nodes) : G.Costs (G.cls i) v := by
  obtain ⟨vs, hvs, rfl⟩ := h
  obtain ⟨hlen, hzip⟩ := List.forall₂_iff_zip.mp hvs
  exact .node i vs hi hlen fun p hp => hzip hp

theorem Costs.exists_node (h : G.Costs k v) : ∃ i ∈ G.nodes, G.cls i = k ∧ G.NodeCosts i v := by
  cases h with
  | node i vs hi hlen h =>
    exact ⟨i, hi, rfl, vs, List.forall₂_iff_zip.mpr ⟨hlen, fun hp => h _ hp⟩, rfl⟩

theorem Costs.exists_cheapest (h : G.Costs k v) : ∃ w ≤ v, G.Cheapest k w := by
  classical
  have hex : ∃ w, G.Costs k w := ⟨v, h⟩
  exact ⟨Nat.find hex, Nat.find_min' hex h, Nat.find_spec hex, fun w hw => Nat.find_min' hex hw⟩

theorem Cheapest.unique (hv : G.Cheapest k v) (hw : G.Cheapest k w) : v = w :=
  IsLeast.unique hv hw

/-- Lists of cheapest costs below lists of costs. -/
theorem exists_cheapest_children {cs : List κ} (h : List.Forall₂ G.Costs cs vs) :
    ∃ ws, List.Forall₂ G.Cheapest cs ws ∧ List.Forall₂ (· ≤ ·) ws vs := by
  induction h with
  | nil => exact ⟨[], .nil, .nil⟩
  | cons hc _ ih =>
    obtain ⟨w, hle, hw⟩ := hc.exists_cheapest
    obtain ⟨ws, hws, hles⟩ := ih
    exact ⟨w :: ws, .cons hw hws, .cons hle hles⟩

/-- A node at the top of a cheapest term has the cheapest arguments. -/
theorem Cheapest.children (h : G.Cheapest (G.cls i) v) (hi : i ∈ G.nodes)
    (hn : G.NodeCosts i v) :
    ∃ vs, List.Forall₂ G.Cheapest (G.children i) vs ∧ v = G.weight i + vs.sum := by
  obtain ⟨vs, hvs, rfl⟩ := hn
  obtain ⟨ws, hws, hle⟩ := exists_cheapest_children hvs
  have hsum := List.Forall₂.sum_le_sum hle
  have hcosts : G.NodeCosts i (G.weight i + ws.sum) := ⟨ws, hws.imp fun _ _ hc => hc.1, rfl⟩
  have hleast := h.2 (hcosts.costs hi)
  exact ⟨ws, hws, by omega⟩

theorem exists_le_sum {R : κ → Nat → Prop} {cs : List κ} (h : List.Forall₂ R cs vs)
    (hk : k ∈ cs) : ∃ w ≤ vs.sum, R k w := by
  induction h with
  | nil => exact nomatch hk
  | @cons c v cs vs hc _ ih =>
    rw [List.sum_cons]
    rcases List.mem_cons.mp hk with rfl | hk
    · exact ⟨v, Nat.le_add_right v _, hc⟩
    · obtain ⟨w, hw, hr⟩ := ih hk
      exact ⟨w, hw.trans (Nat.le_add_left _ v), hr⟩

/-- The arguments are cheaper than the whole. -/
theorem lt_of_mem (hpos : 0 < G.weight i) (hw : w ∈ vs) : w < G.weight i + vs.sum := by
  have hle := List.single_le_sum (fun _ _ => Nat.zero_le _) w hw
  omega

-- ---------------------------------------------------------------------------
-- Rounds
-- ---------------------------------------------------------------------------

open Classical in
/-- The number of classes with a term cheaper than `v`. -/
noncomputable def ahead (G : TermGraph ι κ) (v : Nat) : Nat :=
  ((G.nodes.image G.cls).filter fun k => ∃ w < v, G.Cheapest k w).card

theorem Cheapest.mem_classes [DecidableEq κ] (h : G.Cheapest k v) : k ∈ G.nodes.image G.cls := by
  obtain ⟨i, hi, hk, _⟩ := Costs.exists_node h.1
  exact Finset.mem_image.mpr ⟨i, hi, hk⟩

theorem Cheapest.ahead_lt (h : G.Cheapest k w) (hlt : w < v) : G.ahead w < G.ahead v := by
  classical
  apply Finset.card_lt_card
  refine Finset.ssubset_iff_subset_ne.mpr ⟨fun l hl => ?_, fun he => ?_⟩
  · simp only [Finset.mem_filter] at hl ⊢
    obtain ⟨hmem, u, hu, hc⟩ := hl
    exact ⟨hmem, u, hu.trans hlt, hc⟩
  · have hk : k ∈ (G.nodes.image G.cls).filter fun k => ∃ u < v, G.Cheapest k u := by
      simp only [Finset.mem_filter]
      exact ⟨h.mem_classes, w, hlt, h⟩
    rw [← he, Finset.mem_filter] at hk
    obtain ⟨-, u, hu, hc⟩ := hk
    exact hu.ne (hc.unique h)

theorem ahead_le : G.ahead v ≤ G.nodes.card := by
  classical
  exact (Finset.card_filter_le _ _).trans Finset.card_image_le

/-- Entries are costs of terms. -/
def Sound (G : TermGraph ι κ) (table : κ → Option Nat) : Prop :=
  ∀ k v, table k = some v → G.Costs k v

/-- The classes with fewer than `r` others ahead of them have their entries. -/
def Settled (G : TermGraph ι κ) (limit r : Nat) (table : κ → Option Nat) : Prop :=
  ∀ k v, G.Cheapest k v → v < limit → G.ahead v < r → table k = some v

/-- Every node whose children have entries was taken into account. -/
def Relaxes (G : TermGraph ι κ) (limit : Nat) (table table' : κ → Option Nat) : Prop :=
  ∀ i ∈ G.nodes, ∀ vs, List.Forall₂ (fun c v => table c = some v) (G.children i) vs →
    G.weight i + vs.sum < limit → ∃ w ≤ G.weight i + vs.sum, table' (G.cls i) = some w

theorem settled_zero : G.Settled limit 0 table := fun _ _ _ _ h => absurd h (Nat.not_lt_zero _)

theorem Settled.succ (hpos : G.Positive) (h : G.Settled limit r table) (hs : G.Sound table')
    (hr : G.Relaxes limit table table') : G.Settled limit (r + 1) table' := by
  intro k v hk hv hahead
  obtain ⟨i, hi, rfl, hn⟩ := Costs.exists_node hk.1
  obtain ⟨vs, hvs, rfl⟩ := hk.children hi hn
  -- the children are cheaper, so at most `r - 1` classes are ahead of them
  have hentries : List.Forall₂ (fun c w => table c = some w) (G.children i) vs := by
    rw [List.forall₂_iff_zip] at hvs ⊢
    refine ⟨hvs.1, fun {c w} hp => ?_⟩
    have hc := hvs.2 hp
    have hlt := lt_of_mem (hpos i hi) (List.of_mem_zip hp).2
    have hrank := hc.ahead_lt hlt
    exact h c w hc (hlt.trans hv) (by omega)
  obtain ⟨w, hle, hw⟩ := hr i hi vs hentries hv
  have hleast := hk.2 (hs _ _ hw)
  rw [hw, Nat.le_antisymm hle hleast]

/-- A table that a round leaves alone is settled. -/
theorem Settled.of_fixed (hpos : G.Positive) (hs : G.Sound table)
    (hr : G.Relaxes limit table table) (r : Nat) : G.Settled limit r table := by
  induction r with
  | zero => exact settled_zero
  | succ r ih => exact ih.succ hpos hs hr

/-- As many rounds as there are nodes settle every class, and one more does no harm. -/
theorem Settled.get (h : G.Settled limit r table) (hr : G.nodes.card < r) (hk : G.Cheapest k v)
    (hv : v < limit) : table k = some v :=
  h k v hk hv (ahead_le.trans_lt hr)

-- ---------------------------------------------------------------------------
-- Following the choices
-- ---------------------------------------------------------------------------

/-- Where every class on the way has its cheapest cost, no way leads back. -/
theorem acyclic {follows : κ → κ → Prop}
    (h : ∀ k l, follows k l → ∃ v w, G.Cheapest k v ∧ G.Cheapest l w ∧ w < v) (k : κ) :
    ¬ Relation.TransGen follows k k := by
  have hdecr : ∀ {k l}, Relation.TransGen follows k l →
      ∃ v w, G.Cheapest k v ∧ G.Cheapest l w ∧ w < v := by
    intro k l hkl
    induction hkl with
    | single hkl => exact h _ _ hkl
    | tail _ hlm ih =>
      obtain ⟨v, w, hv, hw, hlt⟩ := ih
      obtain ⟨w', u, hw', hu, hlt'⟩ := h _ _ hlm
      rw [hw'.unique hw] at hlt'
      exact ⟨v, u, hv, hu, hlt'.trans hlt⟩
  intro hcycle
  obtain ⟨v, w, hv, hw, hlt⟩ := hdecr hcycle
  exact hlt.ne (hw.unique hv)

end TermGraph
