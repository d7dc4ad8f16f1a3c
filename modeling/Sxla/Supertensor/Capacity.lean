import Sxla.Library.Rank
import Sxla.Supertensor.Coverage

/-!
# The frontier's capacity

A full frontier gives up its last point. That point is gone for good: a
later offer may clear away the points that crowded it out, and the frontier
ends with fewer points than it could hold. So the content depends on the
order of the offers exactly where enough offers, none better than another,
can crowd out a point that belongs to the first ones in the end.
-/

namespace Sxla

namespace ParetoFrontier

variable {f : ParetoFrontier} {p q x : FrontierPoint} {offers l : List FrontierPoint}

-- ---------------------------------------------------------------------------
-- What the frontier should hold
-- ---------------------------------------------------------------------------

/-- For each cost that no offer dominates, its least schedule. -/
def skyline (offers : List FrontierPoint) : List FrontierPoint :=
  offers.dedup.filter fun p => ∀ q ∈ offers, ¬ Before q p

/-- How many of the skyline come first in the total order. -/
def ahead (offers : List FrontierPoint) (p : FrontierPoint) : Nat :=
  ((skyline offers).filter fun q => totalOrder q p = .lt).length

/-- Among the first 64 points of the skyline. -/
def Belongs (offers : List FrontierPoint) (p : FrontierPoint) : Prop :=
  p ∈ skyline offers ∧ ahead offers p < 64

/-- What the offers leave in an empty frontier. -/
def content (offers : List FrontierPoint) : List FrontierPoint :=
  (offers.foldl insert new).points

/-- Offers that crowd a point out: no two of them or the point are better
than one another, and all come before it in the total order. -/
structure Crowd (offers : List FrontierPoint) (x : FrontierPoint) (crowd : List FrontierPoint) :
    Prop where
  size : crowd.length = 64
  nodup : crowd.Nodup
  offered : ∀ a ∈ crowd, a ∈ offers
  ahead : ∀ a ∈ crowd, totalOrder a x = .lt
  incomparable : ∀ a ∈ x :: crowd, ∀ b ∈ x :: crowd, ¬ Before a b

/-- No point that belongs to the frontier can be crowded out. -/
def Uncrowded (offers : List FrontierPoint) : Prop :=
  ∀ x, Belongs offers x → ¬ ∃ crowd, Crowd offers x crowd

theorem mem_skyline : p ∈ skyline offers ↔ p ∈ offers ∧ ∀ q ∈ offers, ¬ Before q p := by
  simp [skyline]

theorem skyline_nodup : (skyline offers).Nodup := (List.nodup_dedup _).filter _

-- ---------------------------------------------------------------------------
-- The total order on incomparable points
-- ---------------------------------------------------------------------------

theorem totalOrder_self : totalOrder p p = .eq := Std.ReflCmp.compare_self

/-- Equal in the total order, two points differ at most in their SRAM. -/
theorem eq_of_totalOrder (h : totalOrder p q = .eq) (hpq : ¬ Before p q) (hqp : ¬ Before q p) :
    p = q := by
  obtain ⟨⟨pc, ph, pm⟩, ps⟩ := p
  obtain ⟨⟨qc, qh, qm⟩, qs⟩ := q
  simp only [totalOrder, Ordering.then_eq_eq] at h
  obtain ⟨hc, hh, hs⟩ := h
  obtain rfl : pc = qc := Std.LawfulEqCmp.eq_of_compare hc
  obtain rfl : ph = qh := Std.LawfulEqCmp.eq_of_compare hh
  obtain rfl : ps = qs := Std.LawfulEqCmp.eq_of_compare hs
  have hpm : ¬ pm < qm := fun hlt => hpq (.inl (by simp [dominates, hlt, Nat.le_of_lt hlt]))
  have hqm : ¬ qm < pm := fun hlt => hqp (.inl (by simp [dominates, hlt, Nat.le_of_lt hlt]))
  obtain rfl : pm = qm := by omega
  rfl

theorem skyline_orders (offers : List FrontierPoint) :
    Rank.Orders (fun p q => totalOrder p q = .lt) (skyline offers).toFinset where
  irrefl p _ h := by
    rw [totalOrder_self] at h
    cases h
  trans p _ q _ r _ hpq hqr := Std.TransCmp.lt_trans hpq hqr
  total p hp q hq hne := by
    rw [List.mem_toFinset, mem_skyline] at hp hq
    cases h : totalOrder p q with
    | lt => exact .inl rfl
    | eq => exact absurd (eq_of_totalOrder h (hq.2 p hp.1) (hp.2 q hq.1)) hne
    | gt => exact .inr (Std.OrientedCmp.gt_iff_lt.mp h)

theorem ahead_eq_rank : ahead offers p =
    Rank.rank (fun p q => totalOrder p q = .lt) (skyline offers).toFinset p := by
  have hfilter : (skyline offers).toFinset.filter (fun q => totalOrder q p = .lt) =
      ((skyline offers).filter fun q => totalOrder q p = .lt).toFinset := by
    ext q
    simp
  rw [ahead, Rank.rank, hfilter, List.toFinset_card_of_nodup (skyline_nodup.filter _)]

/-- Where a skyline point comes too late, 64 others belong. -/
theorem exists_belonging (h : p ∈ skyline offers) (hlate : 64 ≤ ahead offers p) :
    ∃ l : List FrontierPoint, l.Nodup ∧ 64 ≤ l.length ∧ ∀ q ∈ l, Belongs offers q := by
  rw [ahead_eq_rank] at hlate
  have hcard := (skyline_orders offers).le_card_first (List.mem_toFinset.mpr h) hlate
  refine ⟨Finset.toList _, Finset.nodup_toList _, (Finset.length_toList _).symm ▸ hcard, ?_⟩
  intro q hq
  rw [Finset.mem_toList, Finset.mem_filter, List.mem_toFinset, ← ahead_eq_rank] at hq
  exact hq

-- ---------------------------------------------------------------------------
-- One insertion
-- ---------------------------------------------------------------------------

/-- The points that stay beside a new one. -/
def kept (f : ParetoFrontier) (q : FrontierPoint) : List FrontierPoint :=
  f.points.filter fun p => ¬ Before q p

theorem mem_kept : p ∈ f.kept q ↔ p ∈ f.points ∧ ¬ Before q p := by
  simp [kept]

/-- Clipping one point too many drops one that no other comes behind. -/
theorem clip_perm {points : List FrontierPoint} {cap : Nat} (h : points.length = cap + 1) :
    ∃ last, points.Perm (((points.mergeSort fun a b => totalOrder a b != .gt).take cap) ++ [last]) ∧
      ∀ p ∈ (points.mergeSort fun a b => totalOrder a b != .gt).take cap,
        totalOrder p last ≠ .gt := by
  have hperm := List.mergeSort_perm points fun a b => totalOrder a b != .gt
  have hsorted := sorted_points points
  generalize points.mergeSort (fun a b => totalOrder a b != .gt) = sorted at hperm hsorted
  have hlength : sorted.length = cap + 1 := hperm.length_eq.trans h
  have hcap : cap < sorted.length := by omega
  have hsplit : sorted = sorted.take cap ++ [sorted[cap]] := by
    rw [← List.take_succ_eq_append_getElem hcap, ← hlength, List.take_length]
  refine ⟨sorted[cap], hsplit ▸ hperm.symm, fun p hp => ?_⟩
  rw [hsplit] at hsorted
  have hle := (List.pairwise_append.mp hsorted).2.2 p hp sorted[cap] (List.mem_singleton_self _)
  simpa using hle

/-- An offer is turned down, or takes its place beside what it does not beat;
one point too many and the last goes. -/
theorem insert_cases (hlen : f.points.length ≤ f.cap) :
    (∃ e ∈ f.points, Before e q ∨ e = q) ∧ f.insert q = f ∨
    (∀ e ∈ f.points, ¬ Before e q ∧ e ≠ q) ∧
      ((f.kept q).length < f.cap ∧ (f.insert q).points = f.kept q ++ [q] ∨
        (f.kept q).length = f.cap ∧ ∃ last, (f.kept q ++ [q]).Perm ((f.insert q).points ++ [last]) ∧
          ∀ p ∈ (f.insert q).points, totalOrder p last ≠ .gt) := by
  have hkept : f.points.filter (!replaces q ·) = f.kept q := by
    refine List.filter_congr fun p _ => ?_
    simp [← replaces_iff]
  have hle : (f.kept q).length ≤ f.cap := (List.length_filter_le _ _).trans hlen
  unfold ParetoFrontier.insert
  simp only [hkept]
  split
  · next hrej =>
    simp only [List.any_eq_true, rejects_iff] at hrej
    exact .inl ⟨hrej, rfl⟩
  · next hrej =>
    simp only [List.any_eq_true, rejects_iff, not_exists, not_and, not_or] at hrej
    refine .inr ⟨hrej, ?_⟩
    rw [List.length_append, List.length_singleton]
    split
    · have hfull : (f.kept q).length = f.cap := by omega
      refine .inr ⟨hfull, ?_⟩
      have hclip : (f.kept q ++ [q]).length = f.cap + 1 := by simp [hfull]
      exact clip_perm hclip
    · exact .inl ⟨by omega, rfl⟩

/-- What a frontier that has seen the offers is like, in whatever order. -/
structure Sound (f : ParetoFrontier) (seen : List FrontierPoint) : Prop where
  cap : f.cap = 64
  size : f.points.length ≤ 64
  nodup : f.points.Nodup
  incomparable : ∀ a ∈ f.points, ∀ b ∈ f.points, ¬ Before a b
  offered : ∀ p ∈ f.points, p ∈ seen

theorem new_sound : Sound new [] := by
  constructor <;> simp [new]

/-- An accepted offer beside the points it leaves. -/
theorem Sound.accepted (h : Sound f l) (hq : ∀ e ∈ f.points, ¬ Before e q ∧ e ≠ q) :
    (f.kept q ++ [q]).Nodup ∧ ∀ a ∈ f.kept q ++ [q], ∀ b ∈ f.kept q ++ [q], ¬ Before a b := by
  constructor
  · refine List.nodup_append.mpr ⟨h.nodup.filter _, List.nodup_singleton q, fun p hp r hr he => ?_⟩
    rw [List.mem_singleton] at hr
    exact (hq p (mem_kept.mp hp).1).2 (he.trans hr)
  · intro a ha b hb
    rw [List.mem_append, mem_kept, List.mem_singleton] at ha hb
    rcases ha with ⟨ha, haq⟩ | rfl
    · rcases hb with ⟨hb, -⟩ | rfl
      · exact h.incomparable a ha b hb
      · exact (hq a ha).1
    · rcases hb with ⟨-, hb⟩ | rfl
      · exact hb
      · exact irrefl _

theorem Sound.insert (h : Sound f l) (q : FrontierPoint) : Sound (f.insert q) (q :: l) := by
  have hcap : (f.insert q).cap = 64 := insert_cap.trans h.cap
  have hoffered : ∀ p ∈ (f.insert q).points, p ∈ q :: l := by
    intro p hp
    rcases mem_insert hp with hp | rfl
    · exact List.mem_cons_of_mem _ (h.offered p hp)
    · exact List.mem_cons_self
  rcases insert_cases (f := f) (q := q) (h.cap ▸ h.size) with ⟨-, heq⟩ | ⟨hq, hins⟩
  · rw [heq] at hoffered ⊢
    exact ⟨h.cap, h.size, h.nodup, h.incomparable, hoffered⟩
  · obtain ⟨hnodup, hincomp⟩ := h.accepted hq
    rcases hins with ⟨hlt, heq⟩ | ⟨hfull, last, hperm, -⟩
    · refine ⟨hcap, ?_, heq ▸ hnodup, heq ▸ hincomp, hoffered⟩
      rw [heq, List.length_append, List.length_singleton, ← h.cap]
      exact hlt
    · have hsub : ∀ p ∈ (f.insert q).points, p ∈ f.kept q ++ [q] := fun p hp =>
        hperm.mem_iff.mpr (List.mem_append_left _ hp)
      refine ⟨hcap, ?_, ?_, fun a ha b hb => hincomp a (hsub a ha) b (hsub b hb), hoffered⟩
      · have hlength := hperm.length_eq
        simp only [List.length_append, List.length_singleton, hfull, h.cap] at hlength
        omega
      · exact (List.nodup_append.mp (hperm.nodup_iff.mp hnodup)).1

theorem Sound.foldl (h : Sound f l) (offers : List FrontierPoint) :
    Sound (offers.foldl ParetoFrontier.insert f) (offers.reverse ++ l) := by
  induction offers generalizing f l with
  | nil => exact h
  | cons q offers ih =>
    have hrest := ih (h.insert q)
    rwa [List.reverse_cons, List.append_assoc]

-- ---------------------------------------------------------------------------
-- Nothing that belongs is lost
-- ---------------------------------------------------------------------------

/-- Without a crowd, a point that belongs stays once it is there. -/
theorem Sound.keeps (h : Sound f l) (hun : Uncrowded offers) (hl : ∀ p ∈ l, p ∈ offers)
    (hq : q ∈ offers) (hx : Belongs offers x) (hmem : x ∈ f.points ∨ x = q) :
    x ∈ (f.insert q).points := by
  have hmin := (mem_skyline.mp hx.1).2
  rcases insert_cases (f := f) (q := q) (h.cap ▸ h.size) with ⟨⟨e, he, heq⟩, hsame⟩ | ⟨hnew, hins⟩
  · rw [hsame]
    rcases hmem with hmem | rfl
    · exact hmem
    · rcases heq with hbefore | rfl
      · exact absurd hbefore (hmin e (hl e (h.offered e he)))
      · exact he
  · have hstay : x ∈ f.kept q ++ [q] := by
      rw [List.mem_append, mem_kept, List.mem_singleton]
      exact hmem.imp_left fun hm => ⟨hm, hmin q hq⟩
    rcases hins with ⟨-, heq⟩ | ⟨hfull, last, hperm, hlast⟩
    · rwa [heq]
    · obtain ⟨hnodup, hincomp⟩ := h.accepted hnew
      rcases List.mem_append.mp (hperm.mem_iff.mp hstay) with hkeep | hgone
      · exact hkeep
      · -- The point is the last one, and the others crowd it out.
        rw [List.mem_singleton] at hgone
        subst hgone
        have hsub : ∀ p ∈ (f.insert q).points, p ∈ f.kept q ++ [q] := fun p hp =>
          hperm.mem_iff.mpr (List.mem_append_left _ hp)
        have hnodup' := List.nodup_append.mp (hperm.nodup_iff.mp hnodup)
        refine absurd ⟨(f.insert q).points, ?_, hnodup'.1, ?_, ?_, ?_⟩ (hun x hx)
        · have hlength := hperm.length_eq
          simp only [List.length_append, List.length_singleton, hfull, h.cap] at hlength
          omega
        · intro a ha
          rcases mem_insert ha with ha | rfl
          · exact hl a (h.offered a ha)
          · exact hq
        · intro a ha
          have hne : a ≠ x := fun he => hnodup'.2.2 a ha x (List.mem_singleton_self x) he
          cases horder : totalOrder a x with
          | lt => rfl
          | eq => exact absurd (eq_of_totalOrder horder (hincomp a (hsub a ha) x hstay)
              (hincomp x hstay a (hsub a ha))) hne
          | gt => exact absurd horder (hlast a ha)
        · intro a ha b hb
          have hin : ∀ c ∈ x :: (f.insert q).points, c ∈ f.kept q ++ [q] := by
            intro c hc
            rcases List.mem_cons.mp hc with rfl | hc
            · exact hstay
            · exact hsub c hc
          exact hincomp a (hin a ha) b (hin b hb)

theorem Sound.foldl_keeps (h : Sound f l) (hun : Uncrowded offers) (hl : ∀ p ∈ l, p ∈ offers)
    {rest : List FrontierPoint} (hrest : ∀ p ∈ rest, p ∈ offers) (hx : Belongs offers x)
    (hmem : x ∈ f.points ∨ x ∈ rest) : x ∈ (rest.foldl ParetoFrontier.insert f).points := by
  induction rest generalizing f l with
  | nil => simpa using hmem
  | cons q rest ih =>
    obtain ⟨hq, hrest⟩ := List.forall_mem_cons.mp hrest
    refine ih (h.insert q) (List.forall_mem_cons.mpr ⟨hq, hl⟩) hrest ?_
    rw [List.mem_cons, ← or_assoc] at hmem
    exact hmem.imp_left (h.keeps hun hl hq hx)

-- ---------------------------------------------------------------------------
-- A crowd
-- ---------------------------------------------------------------------------

theorem kept_eq (h : ∀ e ∈ f.points, ¬ Before q e) : f.kept q = f.points := by
  rw [kept, List.filter_eq_self]
  simpa using h

/-- Neither better nor worse than what is there, and there is room. -/
theorem insert_beside (hold : ∀ e ∈ f.points, ¬ Before e q ∧ e ≠ q)
    (hnew : ∀ e ∈ f.points, ¬ Before q e) (hroom : f.points.length < f.cap) :
    (f.insert q).points = f.points ++ [q] := by
  rcases insert_cases (f := f) (q := q) (Nat.le_of_lt hroom) with ⟨⟨e, he, hrej⟩, -⟩ | ⟨-, hins⟩
  · rcases hrej with hbefore | heq
    · exact absurd hbefore (hold e he).1
    · exact absurd heq (hold e he).2
  · rw [kept_eq hnew] at hins
    rcases hins with ⟨-, heq⟩ | ⟨hfull, -⟩
    · exact heq
    · omega

theorem foldl_insert_beside {crowd : List FrontierPoint} (hnodup : (f.points ++ crowd).Nodup)
    (hincomp : ∀ a ∈ f.points ++ crowd, ∀ b ∈ f.points ++ crowd, ¬ Before a b)
    (hroom : f.points.length + crowd.length ≤ f.cap) :
    (crowd.foldl insert f).points = f.points ++ crowd := by
  induction crowd generalizing f with
  | nil => simp
  | cons q crowd ih =>
    have hq : q ∈ f.points ++ q :: crowd := by simp
    have hleft : ∀ e ∈ f.points, e ∈ f.points ++ q :: crowd := fun e he =>
      List.mem_append_left _ he
    have hins : (f.insert q).points = f.points ++ [q] := by
      apply insert_beside
      · intro e he
        refine ⟨hincomp e (hleft e he) q hq, ?_⟩
        exact (List.nodup_append.mp hnodup).2.2 e he q List.mem_cons_self
      · exact fun e he => hincomp q hq e (hleft e he)
      · rw [List.length_cons] at hroom
        omega
    have happend : (f.insert q).points ++ crowd = f.points ++ q :: crowd := by simp [hins]
    rw [List.foldl_cons, ih (happend ▸ hnodup) (happend ▸ hincomp), happend]
    rw [hins, insert_cap, List.length_append, List.length_singleton]
    rw [List.length_cons] at hroom
    omega

/-- A frontier full of the crowd lets the point go. -/
theorem insert_crowded {crowd : List FrontierPoint} (h : Crowd offers x crowd)
    (hcap : f.cap = 64) (hf : f.points.Perm crowd) : (f.insert x).points.Perm crowd := by
  have hx : x ∉ crowd := fun hx => by
    have hself := h.ahead x hx
    rw [totalOrder_self] at hself
    cases hself
  have hmem : ∀ e ∈ f.points, e ∈ crowd := fun e he => hf.mem_iff.mp he
  have hlength : f.points.length = f.cap := hf.length_eq.trans (h.size.trans hcap.symm)
  have hnew : ∀ e ∈ f.points, ¬ Before x e := fun e he =>
    h.incomparable x List.mem_cons_self e (List.mem_cons_of_mem _ (hmem e he))
  rcases insert_cases (f := f) (q := x) (Nat.le_of_eq hlength) with
    ⟨-, hsame⟩ | ⟨-, hins⟩
  · rwa [hsame]
  · rw [kept_eq hnew] at hins
    rcases hins with ⟨hlt, -⟩ | ⟨-, last, hperm, hlast⟩
    · omega
    · -- The point itself comes last.
      have hnodup : (f.points ++ [x]).Nodup :=
        List.nodup_append.mpr ⟨hf.nodup_iff.mpr h.nodup, List.nodup_singleton x,
          fun e he y hy heq => hx (by
            rw [List.mem_singleton] at hy
            exact hy ▸ heq ▸ hmem e he)⟩
      have hgone : x ∉ (f.insert x).points := by
        intro hstay
        have hne := (List.nodup_append.mp (hperm.nodup_iff.mp hnodup)).2.2 x hstay last
          (List.mem_singleton_self last)
        have hin : last ∈ f.points ++ [x] := hperm.mem_iff.mpr (by simp)
        rw [List.mem_append, List.mem_singleton] at hin
        rcases hin with hin | hin
        · have hlt := h.ahead last (hmem last hin)
          exact hlast x hstay (Std.OrientedCmp.gt_iff_lt.mpr hlt)
        · exact hne hin.symm
      have hxlast : x = last := by
        have hin : x ∈ (f.insert x).points ++ [last] := hperm.mem_iff.mp (by simp)
        simpa [hgone] using hin
      subst hxlast
      exact ((List.perm_append_right_iff _).mp hperm).symm.trans hf

/-- However often the point is offered. -/
theorem foldl_insert_crowded {crowd copies : List FrontierPoint} (h : Crowd offers x crowd)
    (hcap : f.cap = 64) (hf : f.points.Perm crowd) (hcopies : ∀ y ∈ copies, y = x) :
    (copies.foldl insert f).points.Perm crowd := by
  induction copies generalizing f with
  | nil => exact hf
  | cons y copies ih =>
    obtain ⟨rfl, hcopies⟩ := List.forall_mem_cons.mp hcopies
    exact ih (insert_cap.trans hcap) (insert_crowded h hcap hf) hcopies

/-- Some order offers the crowd first and the point right behind it. -/
theorem exists_loss {crowd : List FrontierPoint} (h : Crowd offers x crowd) :
    ∃ l, l.Perm offers ∧ x ∉ content l := by
  have hx : x ∉ crowd := fun hx => by
    have hself := h.ahead x hx
    rw [totalOrder_self] at hself
    cases hself
  have hcrowd : (crowd ++ offers.diff crowd).Perm offers := by
    refine List.subperm_append_diff_self_of_count_le fun a ha => ?_
    rw [List.count_eq_one_of_mem h.nodup ha]
    exact List.one_le_count_iff.mpr (h.offered a ha)
  have hrest := List.filter_append_perm (· = x) (offers.diff crowd)
  refine ⟨_, (hrest.append_left crowd).trans hcrowd, fun hmem => ?_⟩
  rw [content, List.foldl_append, List.foldl_append] at hmem
  have hfull : (crowd.foldl insert new).points.Perm crowd := by
    have hbeside := @foldl_insert_beside new crowd (by simpa [new] using h.nodup) (by
      intro a ha b hb
      exact h.incomparable a (List.mem_cons_of_mem _ (by simpa [new] using ha)) b
        (List.mem_cons_of_mem _ (by simpa [new] using hb))) (by simp [new, h.size])
    rw [hbeside]
    exact .refl _
  have hcap : (crowd.foldl insert new).cap = 64 := foldl_insert_cap
  have hcopies := foldl_insert_crowded h hcap hfull
    fun y (hy : y ∈ (offers.diff crowd).filter (· = x)) =>
      of_decide_eq_true (List.mem_filter.mp hy).2
  rcases mem_foldl_insert hmem with hmem | hmem
  · exact hx (hcopies.mem_iff.mp hmem)
  · simpa using (List.mem_filter.mp hmem).2

-- ---------------------------------------------------------------------------
-- When the order does not matter
-- ---------------------------------------------------------------------------

theorem exists_minimal (h : p ∈ offers) : ∃ q ∈ skyline offers, Before q p ∨ q = p := by
  obtain ⟨pts, hpts⟩ := @Skyline.exists_isSkyline _ Before _ offers
  obtain ⟨q, hq, hqp⟩ := hpts.covers p h
  exact ⟨q, mem_skyline.mpr ((hpts.minimal q).mp hq), hqp⟩

/-- Without a crowd, every order ends with the points that belong. -/
theorem mem_content (hun : Uncrowded offers) (hl : l.Perm offers) :
    p ∈ content l ↔ Belongs offers p := by
  have hsound : Sound (l.foldl insert new) (l.reverse ++ []) := new_sound.foldl l
  have hbelongs : ∀ x, Belongs offers x → x ∈ content l := by
    intro x hx
    have hin : x ∈ l := hl.mem_iff.mpr (mem_skyline.mp hx.1).1
    exact new_sound.foldl_keeps hun (by simp) (fun y hy => hl.mem_iff.mp hy) hx (.inr hin)
  -- No room is left for a point beside 64 that belong.
  have hroom : ∀ z, z ∈ skyline offers → 64 ≤ ahead offers z → p ∈ content l →
      Belongs offers p := by
    intro z hz hlate hp
    obtain ⟨first, hnodup, hmany, hfirst⟩ := exists_belonging hz hlate
    by_contra hnot
    have hcons : (p :: first).Nodup := List.nodup_cons.mpr ⟨fun hin => hnot (hfirst p hin), hnodup⟩
    have hsub : p :: first ⊆ content l := by
      intro y hy
      rcases List.mem_cons.mp hy with rfl | hy
      · exact hp
      · exact hbelongs y (hfirst y hy)
    have hle := (hcons.subperm hsub).length_le
    have hsize : (content l).length ≤ 64 := hsound.size
    rw [List.length_cons] at hle
    omega
  refine ⟨fun hp => ?_, hbelongs p⟩
  have hoffer : p ∈ offers := hl.mem_iff.mp (by simpa using hsound.offered p hp)
  obtain ⟨z, hz, hzp⟩ := exists_minimal hoffer
  by_cases hlate : 64 ≤ ahead offers z
  · exact hroom z hz hlate hp
  · have hzb : Belongs offers z := ⟨hz, by omega⟩
    rcases hzp with hbefore | rfl
    · exact absurd hbefore (hsound.incomparable z (hbelongs z hzb) p hp)
    · exact hzb

/-- Every two orders of the offers leave the same points, the first 64 of the
skyline, exactly when no point that belongs can be crowded out. -/
theorem order_independent_iff (offers : List FrontierPoint) :
    (∀ l₁ l₂ : List FrontierPoint, l₁.Perm offers → l₂.Perm offers →
      (∀ p, p ∈ content l₁ ↔ p ∈ content l₂) ∧ ∀ p, p ∈ content l₁ ↔ Belongs offers p) ↔
      Uncrowded offers := by
  constructor
  · rintro h x hx ⟨crowd, hcrowd⟩
    obtain ⟨l, hl, hlost⟩ := exists_loss hcrowd
    exact hlost (((h l l hl hl).2 x).mpr hx)
  · intro hun l₁ l₂ h₁ h₂
    refine ⟨fun p => ?_, fun p => mem_content hun h₁⟩
    rw [mem_content hun h₁, mem_content hun h₂]

-- ---------------------------------------------------------------------------
-- A lost point
-- ---------------------------------------------------------------------------

/-- Each takes more cycles than the one before it and reads less. -/
def tradeOff (i : Nat) : FrontierPoint := ⟨⟨i, 1000 - i, 0⟩, []⟩

/-- As fast as the first of them, and it reads less than three. -/
def betterThanThree : FrontierPoint := ⟨⟨0, 998, 0⟩, []⟩

def crowdedOffers : List FrontierPoint := (List.range 65).map tradeOff ++ [betterThanThree]

theorem crowdedOffers_crowd :
    Crowd crowdedOffers (tradeOff 64) ((List.range 64).map tradeOff) where
  size := by simp
  nodup := by
    apply List.nodup_range.map
    intro i j h
    exact (CostPoint.mk.inj (FrontierPoint.mk.inj h).1).1
  offered := by
    intro a ha
    simp only [List.mem_map, List.mem_range] at ha
    obtain ⟨i, hi, rfl⟩ := ha
    simp only [crowdedOffers, List.mem_append, List.mem_map, List.mem_range]
    exact .inl ⟨i, by omega, rfl⟩
  ahead := by decide
  incomparable := by decide +kernel

/-- One order keeps a point that belongs and another one loses it. -/
theorem order_matters : ∃ l₁ l₂ : List FrontierPoint, l₁.Perm crowdedOffers ∧
    l₂.Perm crowdedOffers ∧ Belongs crowdedOffers (tradeOff 64) ∧
      tradeOff 64 ∈ content l₁ ∧ tradeOff 64 ∉ content l₂ := by
  obtain ⟨l, hl, hlost⟩ := exists_loss crowdedOffers_crowd
  have hfirst : ([betterThanThree] ++ (List.range 65).map tradeOff).Perm crowdedOffers :=
    List.perm_append_comm
  have hbelongs : Belongs crowdedOffers (tradeOff 64) := by
    unfold Belongs
    decide +kernel
  exact ⟨_, l, hfirst, hl, hbelongs, by decide +kernel, hlost⟩

end ParetoFrontier

end Sxla
