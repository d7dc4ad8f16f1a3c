import Sxla.Supertensor.PrefixBounds
import Sxla.Supertensor.Soundness

/-!
# The exhaustive search

What the workers send and what their stacks can still be completed to never
changes as long as no budget trips. The first op's domain is dealt out among
the workers, so together they send every complete schedule, and each once
where no domain repeats a choice. A domain does so if the sentinel for no
fusion stands among the fuse targets; and a row that names an op the polytope
lacks is never looked at.
-/

namespace Sxla

open Checked SchedulePolytope

-- ---------------------------------------------------------------------------
-- Lists in parts
-- ---------------------------------------------------------------------------

/-- Parts that a key tells apart have nothing in common. -/
theorem nodup_flatMap_of_key {l : List α} {f : α → List β} (key : β → γ) (code : α → γ)
    (hcode : ∀ x y, code x = code y → x = y) (hkey : ∀ x ∈ l, ∀ z ∈ f x, key z = code x)
    (hl : l.Nodup) (hf : ∀ x ∈ l, (f x).Nodup) : (l.flatMap f).Nodup := by
  refine List.nodup_flatMap.mpr ⟨hf, ?_⟩
  refine List.Pairwise.imp_of_mem (fun {x y} hx hy hne z hzx hzy => ?_) hl
  exact hne (hcode x y ((hkey x hx z hzx).symm.trans (hkey y hy z hzy)))

/-- Dealing a list out by a key loses nothing and repeats nothing. -/
theorem deal_perm {l : List α} {key : α → Nat} {n : Nat} (h : ∀ x ∈ l, key x < n) :
    ((List.range n).flatMap fun w => l.filter (key · = w)).Perm l := by
  have hcons : ∀ (x : α) (hand : Nat → List α) (ws : List Nat), ws.Nodup → key x ∈ ws →
      (ws.flatMap fun w => if key x = w then x :: hand w else hand w).Perm
        (x :: ws.flatMap hand) := by
    intro x hand ws hws hx
    induction ws with
    | nil => cases hx
    | cons w ws ih =>
      obtain ⟨hw, hws⟩ := List.nodup_cons.mp hws
      simp only [List.flatMap_cons]
      by_cases hkey : key x = w
      · have hrest : (ws.flatMap fun w => if key x = w then x :: hand w else hand w) =
            ws.flatMap hand := by
          refine List.flatMap_congr fun v hv => if_neg fun hv' => hw ?_
          rwa [← hkey, hv']
        rw [if_pos hkey, hrest]
        exact .refl _
      · have hmem : key x ∈ ws := (List.mem_cons.mp hx).resolve_left hkey
        rw [if_neg hkey]
        exact ((ih hws hmem).append_left (hand w)).trans List.perm_middle
  induction l with
  | nil => simp
  | cons x l ih =>
    have hdealt := ih fun y hy => h y (List.mem_cons_of_mem _ hy)
    have hx := hcons x (fun w => l.filter (key · = w)) (List.range n) List.nodup_range
      (List.mem_range.mpr (h x List.mem_cons_self))
    simp only [List.filter_cons, decide_eq_true_eq]
    exact hx.trans (hdealt.cons x)

-- ---------------------------------------------------------------------------
-- Domains
-- ---------------------------------------------------------------------------

namespace OpBounds

variable {b : OpBounds}

theorem divisorsFrom_nodup (lo hi : Nat) : (divisorsFrom lo hi).Nodup :=
  List.nodup_range.filter _

theorem mems_nodup : b.mems.Nodup := by
  apply List.Nodup.filter
  decide

theorem widths_nodup : b.widths.Nodup := by
  apply List.Nodup.map_on _ (List.nodup_range.filter _)
  intro x _ y _ h
  rw [Nat.one_shiftLeft, Nat.one_shiftLeft] at h
  exact Nat.pow_right_injective (Nat.le_refl 2) h

theorem tiles_nodup : b.tiles.Nodup := by
  apply nodup_flatMap_of_key Tile.t0 (fun t => t) (fun _ _ h => h) _ (divisorsFrom_nodup _ _)
  · intro t0 _
    apply nodup_flatMap_of_key Tile.t1 (fun t => t) (fun _ _ h => h) _ (divisorsFrom_nodup _ _)
    · intro t1 _
      apply List.Nodup.map_on _ (divisorsFrom_nodup _ _)
      rintro x _ y _ h
      cases h
      rfl
    · intro t1 _ t ht
      obtain ⟨_, _, rfl⟩ := List.mem_map.mp ht
      rfl
  · intro t0 _ t ht
    simp only [List.mem_flatMap, List.mem_map] at ht
    obtain ⟨_, _, _, _, rfl⟩ := ht
    rfl

/-- A domain repeats a choice only if the fuse targets do. -/
theorem domain_nodup (h : b.fuses.Nodup) : b.domain.Nodup := by
  have hcode : ∀ m m' : MemLevel, m.code = m'.code → m = m' := by
    intro m m'
    cases m <;> cases m' <;> decide
  apply nodup_flatMap_of_key PackedOpSched.memLevel MemLevel.code hcode _ mems_nodup
  · intro mem _
    apply nodup_flatMap_of_key PackedOpSched.tile (fun t => t) (fun _ _ h => h) _ tiles_nodup
    · intro tile _
      apply nodup_flatMap_of_key PackedOpSched.fuseTarget (fun t => t) (fun _ _ h => h) _ h
      · intro fuse _
        apply List.Nodup.map_on _ widths_nodup
        rintro x _ y _ h
        cases h
        rfl
      · intro fuse _ s hs
        obtain ⟨_, _, rfl⟩ := List.mem_map.mp hs
        rfl
    · intro tile _ s hs
      simp only [List.mem_flatMap, List.mem_map] at hs
      obtain ⟨_, _, _, _, rfl⟩ := hs
      rfl
  · intro mem _ s hs
    simp only [List.mem_flatMap, List.mem_map] at hs
    obtain ⟨_, _, _, _, _, _, rfl⟩ := hs
    rfl

end OpBounds

-- ---------------------------------------------------------------------------
-- Completions
-- ---------------------------------------------------------------------------

namespace SchedulePolytope

variable {poly : SchedulePolytope} {ops full : List PackedOpSched}

/-- The prefixes one choice longer that pass the check. -/
def extensions (poly : SchedulePolytope) (ops : List PackedOpSched) : List (List PackedOpSched) :=
  ((opDomain poly ops.length).map (ops ++ [·])).filter (feasiblePrefix poly · (ops.length + 1))

def completionsFrom (poly : SchedulePolytope) : Nat → List PackedOpSched →
    List (List PackedOpSched)
  | 0, ops => [ops]
  | more + 1, ops => (poly.extensions ops).flatMap (poly.completionsFrom more)

/-- The complete schedules that the search reaches from a prefix. -/
def completions (poly : SchedulePolytope) (ops : List PackedOpSched) : List (List PackedOpSched) :=
  poly.completionsFrom (poly.opCount - ops.length) ops

theorem completions_full (h : ops.length = poly.opCount) : poly.completions ops = [ops] := by
  rw [completions, h, Nat.sub_self]
  rfl

theorem mem_extensions {next : List PackedOpSched} : next ∈ poly.extensions ops ↔
    ∃ s ∈ opDomain poly ops.length, next = ops ++ [s] ∧
      feasiblePrefix poly next (ops.length + 1) = true := by
  simp only [extensions, List.mem_filter, List.mem_map]
  constructor
  · rintro ⟨⟨s, hs, rfl⟩, hc⟩
    exact ⟨s, hs, rfl, hc⟩
  · rintro ⟨s, hs, rfl, hc⟩
    exact ⟨⟨s, hs, rfl⟩, hc⟩

theorem completions_step (h : ops.length < poly.opCount) :
    poly.completions ops = (poly.extensions ops).flatMap poly.completions := by
  obtain ⟨more, hmore⟩ : ∃ more, poly.opCount - ops.length = more + 1 :=
    ⟨poly.opCount - ops.length - 1, by omega⟩
  rw [completions, hmore, completionsFrom]
  refine List.flatMap_congr fun next hnext => ?_
  obtain ⟨s, _, rfl, _⟩ := mem_extensions.mp hnext
  rw [completions, List.length_append, List.length_singleton]
  congr 1
  omega

/-- The completions are the schedules that extend the prefix by drawn and
checked ops. -/
theorem mem_completionsFrom {more : Nat} (h : Feasible poly ops) :
    full ∈ poly.completionsFrom more ops ↔
      ops <+: full ∧ Feasible poly full ∧ full.length = ops.length + more := by
  induction more generalizing ops with
  | zero =>
    simp only [completionsFrom, List.mem_singleton, Nat.add_zero]
    constructor
    · rintro rfl
      exact ⟨List.prefix_rfl, h, rfl⟩
    · rintro ⟨hpre, _, hlen⟩
      exact (hpre.eq_of_length hlen.symm).symm
  | succ more ih =>
    simp only [completionsFrom, List.mem_flatMap, mem_extensions]
    constructor
    · rintro ⟨_, ⟨s, hs, rfl, hc⟩, hmem⟩
      obtain ⟨hpre, hfull, hlen⟩ := (ih (h.append hs hc)).mp hmem
      refine ⟨(List.prefix_append ..).trans hpre, hfull, ?_⟩
      rw [hlen, List.length_append, List.length_singleton]
      omega
    · rintro ⟨hpre, hfull, hlen⟩
      have hlt : ops.length < full.length := by omega
      have hnext : ops ++ [full[ops.length]] = full.take (ops.length + 1) := by
        rw [List.take_succ_eq_append_getElem hlt, ← List.prefix_iff_eq_take.mp hpre]
      have hs := hfull.drawn _ _ (List.getElem?_eq_getElem hlt)
      have hc : feasiblePrefix poly (ops ++ [full[ops.length]]) (ops.length + 1) = true := by
        rw [hnext]
        exact hfull.checked _ (Nat.succ_pos _) hlt
      refine ⟨_, ⟨_, hs, rfl, hc⟩, (ih (h.append hs hc)).mpr ⟨?_, hfull, ?_⟩⟩
      · rw [hnext]
        exact List.take_prefix ..
      · rw [hlen, List.length_append, List.length_singleton]
        omega

theorem feasible_nil : Feasible poly [] :=
  ⟨by simp, fun d hd hle => absurd hd (by simpa using hle)⟩

theorem mem_completions_nil : full ∈ poly.completions [] ↔ Candidate poly full := by
  rw [completions, mem_completionsFrom feasible_nil]
  constructor
  · rintro ⟨_, hfull, hlen⟩
    exact ⟨hfull, by simpa using hlen⟩
  · intro h
    exact ⟨List.nil_prefix, h.toFeasible, by simpa using h.length⟩

theorem prefix_of_mem_completionsFrom {more : Nat} (h : full ∈ poly.completionsFrom more ops) :
    ops <+: full := by
  induction more generalizing ops with
  | zero =>
    rw [List.mem_singleton.mp h]
  | succ more ih =>
    obtain ⟨_, hnext, hmem⟩ := List.mem_flatMap.mp h
    obtain ⟨s, _, rfl, _⟩ := mem_extensions.mp hnext
    exact (List.prefix_append ..).trans (ih hmem)

/-- No schedule is completed to twice. -/
theorem completionsFrom_nodup (hdomain : ∀ i, (opDomain poly i).Nodup) (more : Nat)
    (ops : List PackedOpSched) : (poly.completionsFrom more ops).Nodup := by
  induction more generalizing ops with
  | zero => exact List.nodup_singleton ops
  | succ more ih =>
    refine nodup_flatMap_of_key (List.take (ops.length + 1)) (fun next => next)
      (fun _ _ h => h) (fun next hnext full hmem => ?_) ?_ fun next _ => ih next
    · obtain ⟨s, _, rfl, _⟩ := mem_extensions.mp hnext
      have htake := List.prefix_iff_eq_take.mp (prefix_of_mem_completionsFrom hmem)
      rw [List.length_append, List.length_singleton] at htake
      exact htake.symm
    · apply List.Nodup.filter
      exact (hdomain _).map fun x y h => by simpa using h

end SchedulePolytope

-- ---------------------------------------------------------------------------
-- One worker
-- ---------------------------------------------------------------------------

namespace Worker

variable {cfg : SearchConfig} {wk : Worker} {ops : List PackedOpSched}

/-- What the open prefixes can still be completed to. -/
def outstanding (cfg : SearchConfig) (wk : Worker) : List (List PackedOpSched) :=
  wk.openPrefixes.flatMap cfg.poly.completions

theorem children_eq (h : cfg.enablePrune = false) : wk.children cfg ops = cfg.poly.extensions ops := by
  refine List.filter_congr fun next _ => ?_
  simp [h]

/-- One pass through the loop turns a prefix into what it sends or leaves. -/
theorem work_outstanding (hprune : cfg.enablePrune = false) (hops : ops.length ≤ cfg.poly.opCount) :
    (wk.work cfg ops).1.budgetExhausted = true ∨
      ((wk.work cfg ops).2.toList.map (·.sched) ++ (wk.work cfg ops).1.outstanding cfg).Perm
        (cfg.poly.completions ops ++ wk.stack.flatMap cfg.poly.completions) := by
  rw [outstanding, openPrefixes_work]
  by_cases hlen : ops.length = cfg.poly.opCount
  · unfold work
    rw [if_pos hlen, completions_full hlen]
    split
    · exact .inl rfl
    · have hkeep : wk.anchored cfg (evaluate ops cfg.poly) = false := by simp [anchored, hprune]
      simp only [hkeep, Bool.false_eq_true, ↓reduceIte]
      exact .inr (.refl _)
  · unfold work
    rw [if_neg hlen, completions_step (lt_of_le_of_ne hops hlen)]
    simp only [children_eq hprune, Option.toList_none, List.map_nil, List.nil_append,
      List.flatMap_append]
    exact .inr (((List.reverse_perm _).flatMap_right _).append_right _)

theorem pop_outstanding (hprune : cfg.enablePrune = false) (hp : wk.phase = .looping)
    (hops : ∀ ops ∈ wk.openPrefixes, ops.length ≤ cfg.poly.opCount) :
    (wk.pop cfg).1.budgetExhausted = true ∨
      ((wk.pop cfg).2.toList.map (·.sched) ++ (wk.pop cfg).1.outstanding cfg).Perm
        (wk.outstanding cfg) := by
  have hstack : wk.openPrefixes = wk.stack := by simp [openPrefixes, hp]
  have hout : wk.outstanding cfg = wk.stack.flatMap cfg.poly.completions := by
    rw [outstanding, hstack]
  rw [hstack] at hops
  rw [hout]
  unfold pop
  split
  · next hnil =>
    rw [hnil]
    refine .inr ?_
    simp [outstanding, openPrefixes]
  · next ops stack hcons =>
    rw [hcons] at hops ⊢
    simp only
    split
    · exact .inl rfl
    · rw [hprune, Bool.false_and, if_neg Bool.false_ne_true, List.flatMap_cons]
      exact work_outstanding hprune (hops ops List.mem_cons_self)

end Worker

theorem Feasible.length_le {poly : SchedulePolytope} {ops : List PackedOpSched}
    (h : Feasible poly ops) : ops.length ≤ poly.opCount := by
  by_contra hlt
  have hpos : poly.opCount < ops.length := Nat.lt_of_not_le hlt
  obtain ⟨b, hb, _⟩ := mem_opDomain.mp (h.drawn _ _ (List.getElem?_eq_getElem hpos))
  exact Nat.lt_irrefl _ (List.getElem?_eq_some_iff.mp hb).1

-- ---------------------------------------------------------------------------
-- One lane
-- ---------------------------------------------------------------------------

namespace Lane

open Worker

variable {cfg : SearchConfig} {lane lane' : Lane} {word : Option Nat} {w : Nat}

/-- What is sent and what is outstanding make up the worker's share. -/
def Tallies (cfg : SearchConfig) (w : Nat) (lane : Lane) : Prop :=
  lane.worker.budgetExhausted = true ∨
    (lane.sent.map (·.sched) ++ lane.worker.outstanding cfg).Perm
      ((Worker.start cfg w).outstanding cfg)

theorem start_tallies : (start cfg w).Tallies cfg w := .inr (by simp [start])

theorem Tallies.put {r : Worker × Option FrontierPoint} (h : lane.Tallies cfg w)
    (hput : lane.put r = some lane')
    (hbudget : r.1.budgetExhausted = false → lane.worker.budgetExhausted = false)
    (hr : r.1.budgetExhausted = true ∨
      (r.2.toList.map (·.sched) ++ r.1.outstanding cfg).Perm (lane.worker.outstanding cfg)) :
    lane'.Tallies cfg w := by
  obtain ⟨hworker, hsent, _⟩ := put_fields hput
  unfold Tallies at h ⊢
  rw [hworker, hsent]
  rcases hr with hspent | hr
  · exact .inl hspent
  · rcases h with hspent | h
    · refine .inl ?_
      by_contra hb
      rw [hbudget (by simpa using hb)] at hspent
      cases hspent
    · refine .inr ?_
      rw [List.map_append, List.append_assoc]
      exact (hr.append_left _).trans h

theorem Tallies.step (hprune : cfg.enablePrune = false) (h : lane.Tallies cfg w)
    (hd : lane.Draws cfg) (hs : lane.step cfg word = some lane') : lane'.Tallies cfg w := by
  have hops : ∀ ops ∈ lane.worker.openPrefixes, ops.length ≤ cfg.poly.opCount := fun ops hops =>
    (hd.sound.feasible ops hops).1.length_le
  rcases step_cases hs with ⟨r, hput, _, ⟨hp, rfl⟩ | ⟨ops, x, hp, rfl, rfl⟩⟩ | ⟨hp, rfl⟩ | ⟨hp, rfl⟩
  · exact h.put hput pop_budget (pop_outstanding hprune hp hops)
  · refine h.put hput (@work_budget cfg { lane.worker with anchorWord := x } ops) ?_
    have hopen : lane.worker.openPrefixes = ops :: lane.worker.stack := by simp [openPrefixes, hp]
    have hout : lane.worker.outstanding cfg =
        cfg.poly.completions ops ++ lane.worker.stack.flatMap cfg.poly.completions := by
      rw [outstanding, hopen, List.flatMap_cons]
    rw [hout]
    exact @work_outstanding cfg { lane.worker with anchorWord := x } ops hprune
      (hops ops (hopen ▸ List.mem_cons_self))
  · unfold Tallies outstanding at h ⊢
    rw [openPrefixes_flush hp]
    simpa [enter, publish_sent] using h
  · unfold Tallies outstanding at h ⊢
    rwa [openPrefixes_mark hp]

end Lane

-- ---------------------------------------------------------------------------
-- All workers
-- ---------------------------------------------------------------------------

namespace Search

variable {cfg : SearchConfig} {s t : Search} {meets : Search → SearchAction → Prop}

def records (s : Search) : List FrontierPoint := s.lanes.flatMap (·.sent)

theorem Run.tallies (hprune : cfg.enablePrune = false) (h : Run cfg meets s) :
    ∀ (w : Nat) (lane : Lane), s.lanes[w]? = some lane → lane.Tallies cfg w := by
  induction h with
  | start =>
    intro w lane hl
    simp only [Search.start, List.getElem?_map, Option.map_eq_some_iff] at hl
    obtain ⟨v, hv, rfl⟩ := hl
    obtain ⟨hlt, rfl⟩ := List.getElem?_eq_some_iff.mp hv
    rw [List.getElem_range]
    exact Lane.start_tallies
  | step hrun _ hs ih =>
    rcases step_cases hs with ⟨w, seen, lane, lane', rfl, hl, hlane, rfl⟩ |
      ⟨rfl, ⟨k, _, rfl⟩ | ⟨_, rfl⟩ | ⟨_, rfl⟩⟩
    · intro v x hx
      simp only [setLane, List.getElem?_set] at hx
      split at hx
      · next hwv =>
        subst hwv
        split at hx
        · cases hx
          exact (ih w lane hl).step hprune (hrun.collects.lanes _ (List.mem_of_getElem? hl)) hlane
        · cases hx
      · exact ih v x hx
    · rcases @drain_cases _ k with ⟨_, hd⟩ | ⟨lane, phase, got, hl, hd⟩
      · rw [hd]
        exact ih
      · rw [hd]
        intro v x hx
        simp only [setLane, List.getElem?_set] at hx
        split at hx
        · next hkv =>
          subst hkv
          split at hx
          · cases hx
            exact ih k lane hl
          · cases hx
        · exact ih v x hx
    · exact ih
    · exact ih

/-- The workers' shares are dealt from the first op's domain. -/
theorem shares_perm (hpos : 0 < cfg.poly.opCount) :
    ((List.range cfg.nWorkers).flatMap fun w => (Worker.start cfg w).outstanding cfg).Perm
      (cfg.poly.completions []) := by
  have hheads : ∀ l : List PackedOpSched,
      ((l.map ([·])).filter (feasiblePrefix cfg.poly · 1)).flatMap cfg.poly.completions =
        l.flatMap fun s => if feasiblePrefix cfg.poly [s] 1 then cfg.poly.completions [s] else [] := by
    intro l
    induction l with
    | nil => rfl
    | cons s l ih =>
      simp only [List.map_cons, List.filter_cons, List.flatMap_cons]
      split <;> simp [ih]
  have hstart : ∀ w, ((Worker.start cfg w).outstanding cfg).Perm
      ((cfg.domain0.zipIdx.filter fun x => x.2 % cfg.nWorkers = w).flatMap fun x =>
        if feasiblePrefix cfg.poly [x.1] 1 then cfg.poly.completions [x.1] else []) := by
    intro w
    simp only [Worker.outstanding, Worker.openPrefixes, Worker.start]
    refine ((List.reverse_perm _).flatMap_right _).trans ?_
    rw [hheads, SearchConfig.slice, List.flatMap_map]
  refine (List.Perm.flatMap_left _ fun w _ => hstart w).trans ?_
  rw [← List.flatMap_assoc]
  refine ((deal_perm fun x _ => Nat.mod_lt x.2 nWorkers_pos).flatMap_right _).trans ?_
  have hnil : cfg.poly.completions [] =
      ((cfg.domain0.map ([·])).filter (feasiblePrefix cfg.poly · 1)).flatMap
        cfg.poly.completions := completions_step hpos
  have hzip : cfg.domain0 = cfg.domain0.zipIdx.map (·.1) := (List.zipIdx_map_fst ..).symm
  rw [hnil, hheads, hzip, List.flatMap_map, ← hzip]

/-- Together the workers send the completions of nothing. -/
theorem Run.records_perm (hprune : cfg.enablePrune = false) (hpos : 0 < cfg.poly.opCount)
    (h : Run cfg meets s) (hend : s.ended = true) (hbudget : s.outcome.budgetExhausted = false) :
    (s.records.map (·.sched)).Perm (cfg.poly.completions []) := by
  have hlane : ∀ x ∈ s.lanes.zipIdx,
      (x.1.sent.map (·.sched)).Perm ((Worker.start cfg x.2).outstanding cfg) := by
    intro x hx
    have hl := List.mem_zipIdx_iff_getElem?.mp hx
    have hmem := List.mem_of_getElem? hl
    have hfresh : x.1.worker.budgetExhausted = false := by
      simpa using List.any_eq_false.mp hbudget _ hmem
    have hphase := h.flow.all_ended hend _ hmem
    have hstack := (h.collects.lanes _ hmem).sound.empty hfresh
      (.inl fun hbusy => hbusy.2 hphase)
    have hnone : x.1.worker.outstanding cfg = [] := by
      simp [Worker.outstanding, Worker.openPrefixes, hphase, hstack]
    rcases h.tallies hprune x.2 x.1 hl with hspent | hperm
    · rw [hfresh] at hspent
      cases hspent
    · rwa [hnone, List.append_nil] at hperm
  have hlanes : s.records.map (·.sched) =
      s.lanes.zipIdx.flatMap fun x => x.1.sent.map (·.sched) := by
    rw [records, List.map_flatMap]
    conv_lhs => rw [← List.zipIdx_map_fst 0 s.lanes]
    rw [List.flatMap_map]
  have hworkers : (s.lanes.zipIdx.flatMap fun x => (Worker.start cfg x.2).outstanding cfg) =
      (List.range cfg.nWorkers).flatMap fun w => (Worker.start cfg w).outstanding cfg := by
    rw [← h.flow.length, List.range_eq_range', ← List.zipIdx_map_snd 0 s.lanes, List.flatMap_map]
  rw [hlanes]
  refine (List.Perm.flatMap_left _ hlane).trans ?_
  rw [hworkers]
  exact shares_perm hpos

end Search

-- ---------------------------------------------------------------------------
-- What a combination is checked for
-- ---------------------------------------------------------------------------

namespace SchedulePolytope

variable {poly : SchedulePolytope} {sched : List PackedOpSched}

/-- One choice of its domain for each op. -/
structure Combination (poly : SchedulePolytope) (sched : List PackedOpSched) : Prop where
  length : sched.length = poly.opCount
  drawn : ∀ i s, sched[i]? = some s → s ∈ opDomain poly i

/-- The checks of `check_full` but the one of the SRAM pressure. -/
structure Passes (poly : SchedulePolytope) (sched : List PackedOpSched) : Prop where
  bounds : poly.WithinBounds sched
  divs : poly.divisibilityConstraints.forM (checkDiv sched) = .ok ()
  rows : poly.globalConstraints.checkFull sched = true

theorem feasibleOp_of_checkOp {b : OpBounds} {s : PackedOpSched} {i : Nat}
    (h : checkOp b i s = .ok ()) : feasibleOp b s = true := by
  obtain ⟨hop, _, hmem, hwidth, hfuse⟩ := checkOp_ok_iff.mp h
  simp [feasibleOp, hop, hmem, hwidth, hfuse]

/-- A row's value is that of the prefix that binds it. -/
theorem lhs_take {row : LinearRow} {d : Nat} (h : row.bound d = true) :
    row.lhs (sched.take d) = row.lhs sched := by
  simp only [LinearRow.bound, List.all_eq_true, decide_eq_true_eq] at h
  unfold LinearRow.lhs
  apply List.foldl_ext
  rintro acc ⟨op, param, coeff⟩ he
  simp only [List.getElem?_take, if_pos (h _ he)]

/-- The prefix checks accept a combination exactly when the full ones do. -/
theorem candidate_iff (hpos : 0 < poly.opCount) (hnames : poly.NamesOps) :
    Candidate poly sched ↔ poly.Combination sched ∧ poly.Passes sched := by
  constructor
  · intro h
    have hne : sched ≠ [] := by
      rintro rfl
      exact absurd h.length (Nat.ne_of_lt hpos)
    exact ⟨⟨h.length, h.drawn⟩, ⟨h.length, h.opsOk⟩, h.divsOk hnames hne, h.rowsOk hnames hne⟩
  · rintro ⟨hcomb, hpass⟩
    refine ⟨⟨hcomb.drawn, fun d _ hle => ?_⟩, hcomb.length⟩
    simp only [feasiblePrefix, List.take_take, Nat.min_self, Bool.and_eq_true, List.all_eq_true,
      Prod.forall]
    refine ⟨⟨fun s i hmem => ?_, fun c hc => ?_⟩, List.all_eq_true.mpr fun row hrow => ?_⟩
    · have hs := List.mem_zipIdx_iff_getElem?.mp hmem
      rw [List.getElem?_take] at hs
      split at hs
      · obtain ⟨b, hb, _⟩ := mem_opDomain.mp (hcomb.drawn i s hs)
        simpa [hb] using feasibleOp_of_checkOp (hpass.bounds.checkOp hb hs)
      · cases hs
    · have hholds := unless_ok.mp (forM_ok.mp hpass.divs c hc)
      by_cases hlt : c.opIndex < d
      · simpa [hlt] using hholds
      · simp [hlt]
    · have hholds := List.all_eq_true.mp hpass.rows row hrow
      cases hbound : row.bound d with
      | false => rfl
      | true => simpa [LinearRow.holds, lhs_take hbound] using hholds

end SchedulePolytope

-- ---------------------------------------------------------------------------
-- The records sent
-- ---------------------------------------------------------------------------

namespace Search

variable {cfg : SearchConfig} {s : Search} {poly : SchedulePolytope} {workers : Nat}

/-- Every record is the evaluation of its schedule. -/
theorem Run.records_eq {meets : Search → SearchAction → Prop} (h : Run cfg meets s) :
    ∀ p ∈ s.records, p = pointOf cfg.poly p.sched := by
  intro p hp
  obtain ⟨lane, hl, hp⟩ := List.mem_flatMap.mp hp
  obtain ⟨full, _, _, rfl⟩ := (h.collects.lanes lane hl).sent p hp
  rfl

theorem opDomain_nodup (h : ∀ b ∈ poly.opBounds, b.validFuse.Nodup ∧
    PackedOpSched.NO_FUSE ∉ b.validFuse) (i : Nat) : (opDomain poly i).Nodup := by
  unfold opDomain
  split
  · exact List.nodup_nil
  · next b hb =>
    obtain ⟨hnodup, hnone⟩ := h b (List.mem_of_getElem? hb)
    exact OpBounds.domain_nodup (List.nodup_cons.mpr ⟨hnone, hnodup⟩)

/-- Whatever the number of workers, together they send every combination that
passes the checks, and each of them once. -/
theorem exhaustive_complete (hpos : 0 < poly.opCount)
    (hfuse : ∀ b ∈ poly.opBounds, b.validFuse.Nodup ∧ PackedOpSched.NO_FUSE ∉ b.validFuse)
    (hnames : poly.NamesOps) (h : Reachable ⟨poly, workers, false⟩ s) (hend : s.ended = true)
    (hbudget : s.outcome.budgetExhausted = false) :
    s.records.Nodup ∧ ∀ p, p ∈ s.records ↔
      ∃ sched, poly.Combination sched ∧ poly.Passes sched ∧ p = pointOf poly sched := by
  have hperm : (s.records.map (·.sched)).Perm (poly.completions []) :=
    h.records_perm rfl hpos hend hbudget
  have hrecords : ∀ p ∈ s.records, p = pointOf poly p.sched := h.records_eq
  have hsched : ∀ sched, sched ∈ s.records.map (·.sched) ↔
      poly.Combination sched ∧ poly.Passes sched := by
    intro sched
    rw [hperm.mem_iff, mem_completions_nil, candidate_iff hpos hnames]
  refine ⟨?_, fun p => ⟨fun hp => ?_, ?_⟩⟩
  · have hnodup := completionsFrom_nodup (opDomain_nodup hfuse) (poly.opCount - 0) []
    exact List.Nodup.of_map _ (hperm.nodup_iff.mpr hnodup)
  · obtain ⟨hcomb, hpass⟩ := (hsched p.sched).mp (List.mem_map_of_mem hp)
    exact ⟨p.sched, hcomb, hpass, hrecords p hp⟩
  · rintro ⟨sched, hcomb, hpass, rfl⟩
    obtain ⟨q, hq, rfl⟩ := List.mem_map.mp ((hsched sched).mpr ⟨hcomb, hpass⟩)
    rwa [← hrecords q hq]

/-- The state behind a run whose one worker ends before the merger begins. -/
def soleRun (poly : SchedulePolytope) (k : Nat) : Search :=
  let cfg : SearchConfig := ⟨poly, 1, false⟩
  ((start cfg).exec cfg (workerSteps 0 k ++ mergerSteps 8)).getD (start cfg)

theorem soleRun_reachable {k : Nat} (h : ((start ⟨poly, 1, false⟩).exec ⟨poly, 1, false⟩
    (workerSteps 0 k ++ mergerSteps 8)).isSome = true) :
    Reachable ⟨poly, 1, false⟩ (soleRun poly k) := by
  obtain ⟨t, ht⟩ := Option.isSome_iff_exists.mp h
  simp only [soleRun, ht, Option.getD_some]
  exact run_exec .start ht

theorem exhaustive_complete_unit : (soleRun unitPolytope 4).records ≠ [] ∧
    (soleRun unitPolytope 4).records.Nodup ∧ ∀ p, p ∈ (soleRun unitPolytope 4).records ↔
      ∃ sched, unitPolytope.Combination sched ∧ unitPolytope.Passes sched ∧
        p = pointOf unitPolytope sched :=
  ⟨by decide, exhaustive_complete (by decide) (by decide) ⟨by decide, by decide⟩
    (soleRun_reachable rfl) rfl rfl⟩

/-- The sentinel for no fusion is among the targets. -/
def sentinelPolytope : SchedulePolytope :=
  { unitPolytope with
    opBounds := [⟨.pack 0 0 .graph, ⟨1, 1, 1⟩, ⟨1, 1, 1⟩, .reg, .reg, [PackedOpSched.NO_FUSE], 1⟩] }

/-- A row about an op past the last one, which no schedule meets. -/
def strayRowPolytope : SchedulePolytope :=
  { unitPolytope with globalConstraints := ⟨[⟨[(1, .mem, 1)], -1⟩]⟩ }

/-- One record is sent twice, and one against a row. -/
theorem exhaustive_not_complete :
    (∀ b ∈ sentinelPolytope.opBounds ++ strayRowPolytope.opBounds, b.validFuse.Nodup) ∧
      (∃ s, Reachable ⟨sentinelPolytope, 1, false⟩ s ∧ s.ended = true ∧
        s.outcome.budgetExhausted = false ∧ ¬ s.records.Nodup) ∧
      ∃ s, Reachable ⟨strayRowPolytope, 1, false⟩ s ∧ s.ended = true ∧
        s.outcome.budgetExhausted = false ∧ ∃ p ∈ s.records, ¬ strayRowPolytope.Passes p.sched := by
  refine ⟨by decide, ⟨soleRun sentinelPolytope 5, soleRun_reachable rfl,
    by rfl, rfl, by decide⟩, soleRun strayRowPolytope 4,
    soleRun_reachable rfl, rfl, rfl, ?_⟩
  have hsent : ∃ p ∈ (soleRun strayRowPolytope 4).records,
      strayRowPolytope.globalConstraints.checkFull p.sched = false := by decide
  obtain ⟨p, hp, hrow⟩ := hsent
  refine ⟨p, hp, fun hpass => ?_⟩
  rw [hpass.rows] at hrow
  cases hrow

end Search

end Sxla
