import Sxla.Graph.Rewire
import Sxla.Ir.Snapshot

/-!
# Replacing the uses of a node

A use names its node by index and generation; the level bits of the word are
those of the op that the node had when the word was built. `ReplaceAllUses`
compares whole words, so it misses the uses of its node under another word.
-/

namespace Sxla

open Checked IrArena

/-- The value belongs to the node of the handle, whatever its level bits and
its output slot say. -/
def ValueId.Names (v : ValueId) (id : NodeId) : Prop :=
  v ≠ .NONE ∧ v.node.index = id.index ∧ v.node.generation = id.generation

instance (v : ValueId) (id : NodeId) : Decidable (v.Names id) :=
  inferInstanceAs (Decidable (_ ∧ _))

namespace Node

def uses (n : Node) : List ValueId := n.effectIn :: n.inputs

variable {n : Node} {source target : ValueId}

theorem replaceUses_inputsOnly : InputsOnly (replaceUses source target) :=
  ⟨fun _ => rfl, fun _ => rfl, fun _ => rfl, fun _ => rfl, fun _ => List.length_map _⟩

theorem replaceUses_uses : (n.replaceUses source target).uses =
    n.uses.map fun v => if v = source then target else v := rfl

end Node

namespace IrArena

/-- A live node has the value as an input or as its effect input. -/
def Reads (a : IrArena) (v : ValueId) : Prop := ∃ x m, (x, m) ∈ a.liveNodes ∧ v ∈ m.uses

def ResolvesTo (a : IrArena) (v : ValueId) (id : NodeId) : Prop :=
  v.Names id ∧ ∃ n, a.node v.node = .ok n

/-- No live node reads the node of the handle. -/
def Unused (a : IrArena) (id : NodeId) : Prop := ∀ v, a.Reads v → ¬ a.ResolvesTo v id

/-- Every use of the node is this very word. -/
def UsedAs (a : IrArena) (id : NodeId) (word : ValueId) : Prop :=
  ∀ v, a.Reads v → a.ResolvesTo v id → v = word

-- ---------------------------------------------------------------------------
-- One replacement
-- ---------------------------------------------------------------------------

variable {a b s m : IrArena} {id x : NodeId} {n : Node} {v source target : ValueId}

theorem applyEdit_replaceAllUses : applyEdit a (.replaceAllUses source target) =
    .ok (a.mapLive (Node.replaceUses source target)) := by
  rw [applyEdit, foldl_rewrite_liveIds]

theorem reads_replaceUses : (a.mapLive (Node.replaceUses source target)).Reads v ↔
    ∃ u, a.Reads u ∧ (if u = source then target else u) = v := by
  constructor
  · rintro ⟨x, n', hn', hv⟩
    obtain ⟨n, hn, rfl⟩ := (mem_mapLive_liveNodes Node.replaceUses_inputsOnly).mp hn'
    rw [Node.replaceUses_uses, List.mem_map] at hv
    obtain ⟨u, hu, huv⟩ := hv
    exact ⟨u, ⟨x, n, hn, hu⟩, huv⟩
  · rintro ⟨u, ⟨x, n, hn, hu⟩, rfl⟩
    refine ⟨x, n.replaceUses source target, ?_, ?_⟩
    · exact (mem_mapLive_liveNodes Node.replaceUses_inputsOnly).mpr ⟨n, hn, rfl⟩
    · rw [Node.replaceUses_uses]
      exact List.mem_map.mpr ⟨u, hu, rfl⟩

theorem resolvesTo_mapLive {f : Node → Node} :
    (a.mapLive f).ResolvesTo v id ↔ a.ResolvesTo v id := by
  simp only [ResolvesTo, mapLive_node]
  refine and_congr_right fun _ => ?_
  cases a.node v.node <;> simp [Except.map]

theorem resolvesTo_of_names (hv : v.Names id) (h : a.node id = .ok n) : a.ResolvesTo v id := by
  refine ⟨hv, n, ?_⟩
  rw [node, hv.2.1, hv.2.2]
  exact h

/-- Exactly the uses under other words stay. -/
theorem unused_replaceUses (htarget : ¬ target.Names id) :
    (a.mapLive (Node.replaceUses source target)).Unused id ↔ a.UsedAs id source := by
  constructor
  · intro h u hu hres
    by_contra hne
    refine h u (reads_replaceUses.mpr ⟨u, hu, if_neg hne⟩) ?_
    exact resolvesTo_mapLive.mpr hres
  · intro h v hv hres
    rw [resolvesTo_mapLive] at hres
    obtain ⟨u, hu, huv⟩ := reads_replaceUses.mp hv
    by_cases hsource : u = source
    · rw [if_pos hsource] at huv
      exact htarget (huv ▸ hres.1)
    · rw [if_neg hsource] at huv
      subst huv
      exact hsource (h u hu hres)

-- ---------------------------------------------------------------------------
-- Removals
-- ---------------------------------------------------------------------------

theorem unlinked_uses {s t : NodeSlot} (h : s.unlinked = t.unlinked) :
    s.node.uses = t.node.uses := by
  simp only [NodeSlot.unlinked, NodeSlot.mk.injEq, Node.mk.injEq] at h
  rw [Node.uses, Node.uses, h.1.2.2.2.2.1, h.1.2.2.2.2.2.1]

/-- The live nodes behind a removal were live before it, with the same uses. -/
theorem Removed.live (h : Removed a id b) (hx : (x, n) ∈ b.liveNodes) :
    ∃ m, (x, m) ∈ a.liveNodes ∧ m.uses = n.uses := by
  obtain ⟨hfree, g, hslot, hid⟩ := mem_liveNodes.mp hx
  rw [h.free, List.mem_cons, not_or] at hfree
  have hsame := h.others x.index hfree.1
  rw [hslot, Option.map_some, eq_comm, Option.map_eq_some_iff] at hsame
  obtain ⟨s, hs, heq⟩ := hsame
  have hgen : s.generation = g := (unlinked_eq heq).1
  have hop : s.node.op = n.op := (unlinked_eq heq).2.1
  refine ⟨s.node, mem_liveNodes.mpr ⟨hfree.2, g, ?_, ?_⟩, unlinked_uses heq⟩
  · rw [hs, ← hgen]
  · rw [hop]
    exact hid

theorem Removed.reads (h : Removed a id b) (hv : b.Reads v) : a.Reads v := by
  obtain ⟨x, n, hn, hvn⟩ := hv
  obtain ⟨m, hm, huses⟩ := h.live hn
  exact ⟨x, m, hm, huses ▸ hvn⟩

/-- A removal leaves nothing dangling where its node has no use. -/
theorem Removed.names (h : Removed a id b) (hunused : a.Unused id) (hv : b.Reads v) :
    ¬ v.Names id := by
  intro hnames
  obtain ⟨n, hn⟩ := h.node_ok
  exact hunused v (h.reads hv) (resolvesTo_of_names hnames hn)

/-- A live node of another slot stays live. -/
theorem Removed.live_of_ne (h : Removed a id b) (hx : (x, n) ∈ a.liveNodes)
    (hne : x.index ≠ id.index) : ∃ m, (x, m) ∈ b.liveNodes := by
  obtain ⟨hfree, g, hslot, hid⟩ := mem_liveNodes.mp hx
  have hsame := h.others x.index hne
  rw [hslot, Option.map_some, Option.map_eq_some_iff] at hsame
  obtain ⟨s, hs, heq⟩ := hsame
  have hgen : s.generation = g := (unlinked_eq heq).1
  have hop : s.node.op = n.op := (unlinked_eq heq).2.1
  refine ⟨s.node, mem_liveNodes.mpr ⟨?_, g, ?_, ?_⟩⟩
  · rw [h.free, List.mem_cons, not_or]
    exact ⟨hne, hfree⟩
  · rw [hs, ← hgen]
  · rw [hop]
    exact hid

-- ---------------------------------------------------------------------------
-- Edits that keep one word for each node
-- ---------------------------------------------------------------------------

theorem mem_liveIds : x ∈ a.liveIds ↔ ∃ n, (x, n) ∈ a.liveNodes := by
  rw [liveIds, List.mem_map]
  constructor
  · rintro ⟨⟨y, n⟩, hn, rfl⟩
    exact ⟨n, hn⟩
  · rintro ⟨n, hn⟩
    exact ⟨(x, n), hn, rfl⟩

/-- Output 0 of a node under the handle that `for_each_live_node` gives now,
or no value. -/
def IsCurrent (a : IrArena) (v : ValueId) : Prop :=
  v = .NONE ∨ ∃ x ∈ a.liveIds, v = .fromNode x 0

/-- The uses of live nodes are their current words. -/
def Current (a : IrArena) : Prop :=
  ∀ v, a.Reads v → ∀ x ∈ a.liveIds, v.Names x → v = .fromNode x 0

/-- What a tidy edit does to the live nodes and their uses. -/
structure Tidied (a b : IrArena) : Prop where
  live : ∀ x ∈ b.liveIds, x ∈ a.liveIds
  stays : ∀ x ∈ a.liveIds, x ∈ b.liveIds ∨ x.index ∈ b.nodeFree
  free : ∀ i ∈ a.nodeFree, i ∈ b.nodeFree
  reads : ∀ v, b.Reads v → a.Reads v ∨ a.IsCurrent v

/-- The node is live under this handle or gone, and its uses are the one word. -/
structure Kept (a : IrArena) (id : NodeId) : Prop where
  live : id ∈ a.liveIds ∨ id.index ∈ a.nodeFree
  reads : ∀ v, a.Reads v → v.Names id → v = .fromNode id 0

theorem Current.kept (h : a.Current) (hid : id ∈ a.liveIds) : Kept a id :=
  ⟨.inl hid, fun v hv hnames => h v hv id hid hnames⟩

theorem current_of_kept (h : ∀ x ∈ a.liveIds, Kept a x) : a.Current :=
  fun v hv x hx hnames => (h x hx).reads v hv hnames

theorem Kept.tidied (h : Kept a id) (ht : Tidied a b) : Kept b id := by
  refine ⟨?_, fun v hv hnames => ?_⟩
  · rcases h.live with hlive | hfree
    · exact ht.stays id hlive
    · exact .inr (ht.free _ hfree)
  · rcases ht.reads v hv with hold | rfl | ⟨x, hx, rfl⟩
    · exact h.reads v hold hnames
    · exact absurd rfl hnames.1
    · -- the handle that was written is the node's own
      have hindex : x.index = id.index := hnames.2.1
      obtain ⟨n, hn⟩ := mem_liveIds.mp hx
      rcases h.live with hlive | hfree
      · obtain ⟨m, hm⟩ := mem_liveIds.mp hlive
        rw [(live_unique hn hm hindex).1]
      · exact absurd (hindex ▸ hfree) (mem_liveNodes.mp hn).1

theorem Tidied.current (ht : Tidied a b) (h : a.Current) : b.Current :=
  current_of_kept fun x hx => (h.kept (ht.live x hx)).tidied ht

end IrArena

/-- The edit writes current words, and keeps the level of an op. -/
def Edit.Tidy (a : IrArena) : Edit → Prop
  | .replaceAllUses _ target => a.IsCurrent target
  | .removeNode _ => True
  | .setOp node op => ∀ n, a.node node = .ok n → op.level = n.op.level
  | .setEffectIn _ effect => a.IsCurrent effect

/-- Each edit of the log is tidy where it is applied. -/
def TidyLog (a : IrArena) : List Edit → Prop
  | [] => True
  | e :: log => e.Tidy a ∧ ∀ b, applyEdit a e = .ok b → TidyLog b log

/-- One commit after the other, each with its verifier. -/
def commits (a : IrArena) (logs : List (List Edit × (IrArena → Bool))) :
    Except CommitError IrArena :=
  logs.foldlM (fun a log => commit a log.1 log.2) a

def TidyCommits (a : IrArena) : List (List Edit × (IrArena → Bool)) → Prop
  | [] => True
  | log :: logs => TidyLog a log.1 ∧ ∀ b, commit a log.1 log.2 = .ok b → TidyCommits b logs

section Runs

variable {a b s m : IrArena} {id : NodeId} {n n' : Node} {x : NodeId} {v : ValueId} {e : Edit}
  {f : Node → Node} {log : List Edit} {verify : IrArena → Bool}
  {logs : List (List Edit × (IrArena → Bool))}

theorem commit_ok : commit a log verify = .ok b ↔
    log.foldlM applyEdit a = .ok b ∧ verify b = true := by
  rw [commit, bind_ok]
  constructor
  · rintro ⟨c, hc, h⟩
    split at h
    · next hv =>
      cases h
      exact ⟨hc, hv⟩
    · cases h
  · rintro ⟨hb, hv⟩
    exact ⟨b, hb, if_pos hv⟩

/-- A write that keeps the level of the op keeps the handles. -/
theorem modifyNode_live (h : a.modifyNode id f = .ok b)
    (hlevel : ∀ n, a.node id = .ok n → (f n).op.level = n.op.level) :
    (∀ x n', (x, n') ∈ b.liveNodes → ∃ n, (x, n) ∈ a.liveNodes ∧ (n' = n ∨ n' = f n)) ∧
      ∀ x n, (x, n) ∈ a.liveNodes → ∃ n', (x, n') ∈ b.liveNodes := by
  obtain ⟨k, hk, rfl⟩ := map_ok.mp h
  have hslot := slot_of_node hk
  refine ⟨fun x n' hx => ?_, fun x n hx => ?_⟩
  · obtain ⟨hfree, g, hs, hid⟩ := mem_liveNodes.mp hx
    dsimp only at hs
    by_cases hi : id.index = x.index
    · rw [← hi, List.getElem?_set_self (index_lt_of_node hk)] at hs
      cases hs
      refine ⟨k, mem_liveNodes.mpr ⟨hfree, id.generation, hi ▸ hslot, ?_⟩, .inr rfl⟩
      rw [← hlevel k hk]
      exact hid
    · rw [List.getElem?_set_ne hi] at hs
      exact ⟨n', mem_liveNodes.mpr ⟨hfree, g, hs, hid⟩, .inl rfl⟩
  · obtain ⟨hfree, g, hs, hid⟩ := mem_liveNodes.mp hx
    by_cases hi : id.index = x.index
    · rw [← hi, hslot] at hs
      cases hs
      refine ⟨f k, mem_liveNodes.mpr ⟨hfree, id.generation, ?_, ?_⟩⟩
      · rw [← hi]
        exact List.getElem?_set_self (index_lt_of_node hk)
      · rw [hlevel k hk]
        exact hid
    · refine ⟨n, mem_liveNodes.mpr ⟨hfree, g, ?_, hid⟩⟩
      exact (List.getElem?_set_ne hi).trans hs

theorem modifyNode_tidied (h : a.modifyNode id f = .ok b)
    (hlevel : ∀ n, a.node id = .ok n → (f n).op.level = n.op.level)
    (huses : ∀ n, ∀ v ∈ (f n).uses, v ∈ n.uses ∨ a.IsCurrent v) : Tidied a b := by
  obtain ⟨hback, hforth⟩ := modifyNode_live h hlevel
  refine ⟨fun x hx => ?_, fun x hx => ?_, fun i hi => ?_, ?_⟩
  · obtain ⟨n', hn'⟩ := mem_liveIds.mp hx
    obtain ⟨n, hn, -⟩ := hback x n' hn'
    exact mem_liveIds.mpr ⟨n, hn⟩
  · obtain ⟨n, hn⟩ := mem_liveIds.mp hx
    exact .inl (mem_liveIds.mpr (hforth x n hn))
  · rw [(modifyNode_sameHandles h).free]
    exact hi
  · rintro v ⟨x, n', hn', hv⟩
    obtain ⟨n, hn, rfl | rfl⟩ := hback x n' hn'
    · exact .inl ⟨x, n', hn, hv⟩
    · exact (huses n v hv).imp_left fun hold => ⟨x, n, hn, hold⟩

theorem IrArena.Removed.tidied (h : Removed a id b) : Tidied a b := by
  refine ⟨fun x hx => ?_, fun x hx => ?_, fun i hi => ?_, fun v hv => .inl (h.reads hv)⟩
  · obtain ⟨n, hn⟩ := mem_liveIds.mp hx
    obtain ⟨m, hm, -⟩ := h.live hn
    exact mem_liveIds.mpr ⟨m, hm⟩
  · obtain ⟨n, hn⟩ := mem_liveIds.mp hx
    by_cases hi : x.index = id.index
    · refine .inr ?_
      rw [h.free, hi]
      exact List.mem_cons_self
    · exact .inl (mem_liveIds.mpr (h.live_of_ne hn hi))
  · rw [h.free]
    exact List.mem_cons_of_mem _ hi

theorem replaceUses_tidied {source target : ValueId} (htarget : a.IsCurrent target) :
    Tidied a (a.mapLive (Node.replaceUses source target)) := by
  have hlive := fun x n' =>
    @mem_mapLive_liveNodes a (Node.replaceUses source target) x n' Node.replaceUses_inputsOnly
  refine ⟨fun x hx => ?_, fun x hx => ?_, fun i hi => hi, fun v hv => ?_⟩
  · obtain ⟨n', hn'⟩ := mem_liveIds.mp hx
    obtain ⟨n, hn, -⟩ := (hlive x n').mp hn'
    exact mem_liveIds.mpr ⟨n, hn⟩
  · obtain ⟨n, hn⟩ := mem_liveIds.mp hx
    exact .inl (mem_liveIds.mpr ⟨_, (hlive x _).mpr ⟨n, hn, rfl⟩⟩)
  · obtain ⟨u, hu, rfl⟩ := reads_replaceUses.mp hv
    split
    · exact .inr htarget
    · exact .inl hu

theorem Edit.Tidy.tidied (ht : e.Tidy a) (h : applyEdit a e = .ok b) : Tidied a b := by
  cases e with
  | replaceAllUses source target =>
    rw [applyEdit_replaceAllUses] at h
    cases h
    exact replaceUses_tidied ht
  | removeNode node =>
    simp only [applyEdit] at h
    split at h
    · next hb =>
      cases h
      exact (removeNode_ok hb).tidied
    · cases h
    · cases h
  | setOp node op =>
    exact modifyNode_tidied (mapError_ok.mp h) ht fun n v hv => .inl hv
  | setEffectIn node effect =>
    refine modifyNode_tidied (mapError_ok.mp h) (fun n _ => rfl) fun n v hv => ?_
    rcases List.mem_cons.mp hv with rfl | hin
    · exact .inr ht
    · exact .inl (List.mem_cons_of_mem _ hin)

theorem TidyLog.kept (ht : TidyLog a log) (h : log.foldlM applyEdit a = .ok b)
    (hkept : Kept a id) : Kept b id := by
  induction log generalizing a with
  | nil =>
    cases h
    exact hkept
  | cons e log ih =>
    obtain ⟨c, hc, h⟩ := bind_ok.mp h
    exact ih (ht.2 c hc) h (hkept.tidied (ht.1.tidied hc))

theorem TidyLog.current (ht : TidyLog a log) (h : log.foldlM applyEdit a = .ok b)
    (hcurrent : a.Current) : b.Current := by
  induction log generalizing a with
  | nil =>
    cases h
    exact hcurrent
  | cons e log ih =>
    obtain ⟨c, hc, h⟩ := bind_ok.mp h
    exact ih (ht.2 c hc) h ((ht.1.tidied hc).current hcurrent)

/-- Tidy commits keep one word for each live node. -/
theorem TidyCommits.current (ht : TidyCommits a logs) (h : commits a logs = .ok s)
    (hcurrent : a.Current) : s.Current := by
  induction logs generalizing a with
  | nil =>
    cases h
    exact hcurrent
  | cons log logs ih =>
    obtain ⟨c, hc, h⟩ := bind_ok.mp h
    exact ih (ht.2 c hc) h (ht.1.current (commit_ok.mp hc).1 hcurrent)

-- ---------------------------------------------------------------------------
-- The last edit of a log
-- ---------------------------------------------------------------------------

variable {pre : List Edit} {target : ValueId}

/-- No use of the node is left, and none dangles when its removal is appended. -/
structure UsesReplaced (s : IrArena) (pre : List Edit) (id : NodeId) (target : ValueId)
    (b : IrArena) : Prop where
  unused : b.Unused id
  removed : ∀ verify c,
    commit s (pre ++ [Edit.replaceAllUses (.fromNode id 0) target, .removeNode id]) verify = .ok c →
      ∀ v, c.Reads v → ¬ v.Names id

theorem foldlM_replaceAllUses {source : ValueId} {rest : List Edit}
    (hpre : pre.foldlM applyEdit s = .ok m) :
    (pre ++ .replaceAllUses source target :: rest).foldlM applyEdit s =
      rest.foldlM applyEdit (m.mapLive (Node.replaceUses source target)) := by
  rw [List.foldlM_append, hpre]
  show (Edit.replaceAllUses source target :: rest).foldlM applyEdit m = _
  rw [List.foldlM_cons, applyEdit_replaceAllUses]
  rfl

theorem usesReplaced_of_unused (hpre : pre.foldlM applyEdit s = .ok m)
    (h : (m.mapLive (Node.replaceUses (.fromNode id 0) target)).Unused id) :
    UsesReplaced s pre id target (m.mapLive (Node.replaceUses (.fromNode id 0) target)) := by
  refine ⟨h, fun verify c hc v hv => ?_⟩
  have hlog := (commit_ok.mp hc).1
  rw [foldlM_replaceAllUses hpre] at hlog
  obtain ⟨d, hd, hdc⟩ := bind_ok.mp hlog
  cases hdc
  simp only [applyEdit] at hd
  split at hd
  · next hrem =>
    cases hd
    exact (removeNode_ok hrem).names h hv
  · cases hd
  · cases hd

/-- The replacement is complete exactly when the arena it meets uses the node
under the one word. Tidy commits from an arena with current uses keep it so. -/
theorem usesReplaced_iff (hrun : commits a logs = .ok s) (htarget : ¬ target.Names id)
    (hpre : pre.foldlM applyEdit s = .ok m)
    (hb : commit s (pre ++ [.replaceAllUses (.fromNode id 0) target]) verify = .ok b) :
    (UsesReplaced s pre id target b ↔ m.UsedAs id (.fromNode id 0)) ∧
      (a.Current → TidyCommits a logs → id ∈ s.liveIds → TidyLog s pre →
        UsesReplaced s pre id target b) := by
  have hlog := (commit_ok.mp hb).1
  rw [foldlM_replaceAllUses hpre] at hlog
  cases hlog
  have hiff : UsesReplaced s pre id target
      (m.mapLive (Node.replaceUses (.fromNode id 0) target)) ↔ m.UsedAs id (.fromNode id 0) := by
    constructor
    · intro h
      exact (unused_replaceUses htarget).mp h.unused
    · intro h
      exact usesReplaced_of_unused hpre ((unused_replaceUses htarget).mpr h)
  refine ⟨hiff, fun hcurrent hcommits hid htidy => hiff.mpr ?_⟩
  have hkept := htidy.kept hpre ((hcommits.current hrun hcurrent).kept hid)
  exact fun v hv hres => hkept.reads v hv hres.1

/-- `neg (dot p p)` for a parameter `p`. -/
def negatedDot : IrArena := .built do
  let a := IrArena.withCapacity 4 1
  let (p, a) ← a.insertNode a.rootRegion (.new (.param 0) a.rootRegion [] (.scalar .f64))
  let (d, a) ← a.insertNode a.rootRegion
    (.new .dot a.rootRegion [.fromNode p 0, .fromNode p 0] (.scalar .f64))
  let (_, a) ← a.insertNode a.rootRegion
    (.new (.unary .neg) a.rootRegion [.fromNode d 0] (.scalar .f64))
  return a

/-- The dot lowered to the tensor level, where its user still holds the word
of the graph level. -/
def loweredDot : IrArena :=
  negatedDot.rewrite (.pack 1 0 .graph) fun n => { n with op := .matmul false false }

def verifies (a : IrArena) : Bool := (Sxla.verify a).toBool

theorem usesReplaced_iff_negatedDot :
    (UsesReplaced negatedDot [] (.pack 1 0 .graph) (.fromNode (.pack 0 0 .graph) 0)
        (negatedDot.mapLive (Node.replaceUses (.fromNode (.pack 1 0 .graph) 0)
          (.fromNode (.pack 0 0 .graph) 0))) ↔
      negatedDot.UsedAs (.pack 1 0 .graph) (.fromNode (.pack 1 0 .graph) 0)) ∧
    (negatedDot.Current → TidyCommits negatedDot [] → .pack 1 0 .graph ∈ negatedDot.liveIds →
      TidyLog negatedDot [] → UsesReplaced negatedDot [] (.pack 1 0 .graph)
        (.fromNode (.pack 0 0 .graph) 0)
        (negatedDot.mapLive (Node.replaceUses (.fromNode (.pack 1 0 .graph) 0)
          (.fromNode (.pack 0 0 .graph) 0)))) :=
  @usesReplaced_iff negatedDot _ negatedDot negatedDot (.pack 1 0 .graph) verifies [] [] _
    rfl (by decide) rfl rfl

/-- Two commits that the verifier accepts: the second one replaces nothing. -/
theorem loweredDot_not_usesReplaced :
    Sxla.verify negatedDot = .ok () ∧
      commits negatedDot [([.setOp (.pack 1 0 .graph) (.matmul false false)], verifies)] =
        .ok loweredDot ∧
      .pack 1 0 .tensor ∈ loweredDot.liveIds ∧
      commit loweredDot [.replaceAllUses (.fromNode (.pack 1 0 .tensor) 0)
        (.fromNode (.pack 0 0 .graph) 0)] verifies = .ok loweredDot ∧
      ¬ UsesReplaced loweredDot [] (.pack 1 0 .tensor) (.fromNode (.pack 0 0 .graph) 0)
        loweredDot := by
  refine ⟨rfl, rfl, by decide, rfl, fun h => ?_⟩
  refine h.unused (.fromNode (.pack 1 0 .graph) 0) ⟨.pack 2 0 .graph, ?_⟩ ?_
  · refine ⟨Node.mk (.unary .neg) (.scalar .f64) .none (.pack 0 0)
      [.fromNode (.pack 1 0 .graph) 0] .NONE (.pack 1 0 .graph), ?_, ?_⟩
    · decide
    · decide
  · refine ⟨by decide, Node.mk (.matmul false false) (.scalar .f64) .none (.pack 0 0)
      [.fromNode (.pack 0 0 .graph) 0, .fromNode (.pack 0 0 .graph) 0] .NONE (.pack 0 0 .graph),
      ?_⟩
    rfl

end Runs

end Sxla
