import Sxla.Anvil.ChaseLev

/-!
# What the slots of the deque hold

An element that is in the deque, or that a pop or steal has taken and not yet
released, holds the slot of its index. No two share a slot: a push writes a
slot only after it has seen it free.
-/

namespace Sxla

open Transition

namespace ChaseLev

/-- An element that holds the slot of an index. -/
structure Holder where
  index : Int
  id : Nat
  unread : Bool
deriving DecidableEq, Repr

/-- The elements of the deque, from index `top` on. -/
def lay (top : Int) : List Nat → List Holder
  | [] => []
  | id :: ids => ⟨top, id, true⟩ :: lay (top + 1) ids

/-- What an owner or a stealer has taken and not released. -/
def Owner.holders : Owner α → List Holder
  | .popRead b id _ => [⟨b, id, true⟩]
  | .popFree b id _ _ => [⟨b, id, false⟩]
  | _ => []

def Stealer.holders : Stealer α → List Holder
  | .stealState t id | .stealRead t id => [⟨t, id, true⟩]
  | .stealFree t id _ => [⟨t, id, false⟩]
  | _ => []

/-- The slot that a push has found free. -/
def Owner.claimed (mask : Nat) : Owner α → Option Nat
  | .pushWrite _ b | .pushFull _ b | .pushStore _ b | .panicked b => some (slotOf mask b)
  | _ => none

def Holder.slot (mask : Nat) (h : Holder) : Nat := slotOf mask h.index

theorem lay_append (top : Int) (ids : List Nat) (id : Nat) :
    lay top (ids ++ [id]) = lay top ids ++ [⟨top + ids.length, id, true⟩] := by
  induction ids generalizing top with
  | nil =>
    rw [List.nil_append, lay, lay, lay, List.length_nil]
    simp
  | cons first ids ih =>
    rw [List.cons_append, lay, lay, ih, List.cons_append, List.length_cons]
    have hindex : top + 1 + (ids.length : Int) = top + ((ids.length + 1 : Nat) : Int) := by omega
    rw [hindex]

theorem lay_getElem? {ids : List Nat} {j id : Nat} (top : Int) (h : ids[j]? = some id) :
    (⟨top + j, id, true⟩ : Holder) ∈ lay top ids := by
  induction ids generalizing top j with
  | nil => cases h
  | cons first ids ih =>
    cases j with
    | zero =>
      cases h
      rw [lay]
      simp
    | succ j =>
      have hrest := ih (top + 1) (j := j) h
      have hindex : top + 1 + (j : Int) = top + ((j + 1 : Nat) : Int) := by omega
      rw [hindex] at hrest
      exact List.mem_cons_of_mem _ hrest

-- ---------------------------------------------------------------------------
-- Slots and their holders
-- ---------------------------------------------------------------------------

/-- The holders have slots of their own, which are full and have their data;
all others are free, but for the one that a push has claimed. -/
structure Layout (mask : Nat) (cells : List (Cell α)) (pushed : List α) (holders : List Holder)
    (claimed : Option Nat) : Prop where
  nodup : (holders.map (·.slot mask)).Nodup
  held : ∀ h ∈ holders, cells[h.slot mask]? = some ⟨pushed[h.id]?, .full, h.unread⟩
  free : ∀ (j : Nat) (cell : Cell α), cells[j]? = some cell → j ∉ holders.map (·.slot mask) →
    claimed ≠ some j → cell.state = .free ∧ cell.unread = false
  apart : ∀ j, claimed = some j → j ∉ holders.map (·.slot mask)

namespace Layout

variable {mask : Nat} {cells : List (Cell α)} {pushed : List α} {holders : List Holder}
  {claimed : Option Nat} {h : Holder} {j : Nat}

theorem perm {holders' : List Holder} (hl : Layout mask cells pushed holders claimed)
    (hperm : holders.Perm holders') : Layout mask cells pushed holders' claimed := by
  have hslots := hperm.map (·.slot mask)
  refine ⟨hslots.nodup_iff.mp hl.nodup, ?_, ?_, ?_⟩
  · exact fun h hh => hl.held h (hperm.mem_iff.mpr hh)
  · exact fun j cell hj hnot => hl.free j cell hj (mt hslots.mem_iff.mp hnot)
  · exact fun j hj hmem => hl.apart j hj (hslots.mem_iff.mpr hmem)

/-- A slot that is seen free has no holder. -/
theorem claim (hl : Layout mask cells pushed holders none) {cell : Cell α}
    (hj : cells[j]? = some cell) (hfree : cell.state = .free) :
    Layout mask cells pushed holders (some j) := by
  refine ⟨hl.nodup, hl.held, fun i cell hi hnot _ => hl.free i cell hi hnot nofun, ?_⟩
  rintro i ⟨rfl⟩ hmem
  obtain ⟨h, hh, rfl⟩ := List.mem_map.mp hmem
  have hheld := hl.held h hh
  rw [hj] at hheld
  cases hheld
  cases hfree

/-- What is stored in the claimed slot does not matter to the others. -/
theorem modify_claimed (hl : Layout mask cells pushed holders (some j)) (f : Cell α → Cell α) :
    Layout mask (cells.modify j f) pushed holders (some j) := by
  have hother : ∀ i, i ≠ j → (cells.modify j f)[i]? = cells[i]? := by
    intro i hi
    rw [List.getElem?_modify]
    simp only [Ne.symm hi, if_false]
    exact id_map _
  refine ⟨hl.nodup, ?_, ?_, hl.apart⟩
  · intro h hh
    have hne : h.slot mask ≠ j := fun heq => hl.apart j rfl (heq ▸ List.mem_map_of_mem hh)
    rw [hother _ hne]
    exact hl.held h hh
  · intro i cell hi hnot hclaimed
    rw [hother i fun heq => hclaimed (heq ▸ rfl)] at hi
    exact hl.free i cell hi hnot hclaimed

/-- The push hands its slot to the element. -/
theorem hand (hl : Layout mask cells pushed holders (some (h.slot mask))) {value : α}
    (hcell : cells[h.slot mask]? = some ⟨some value, .full, true⟩) (hid : h.id = pushed.length)
    (hunread : h.unread = true) (hids : ∀ other ∈ holders, other.id < pushed.length) :
    Layout mask cells (pushed ++ [value]) (h :: holders) none := by
  refine ⟨?_, ?_, ?_, nofun⟩
  · exact List.nodup_cons.mpr ⟨hl.apart _ rfl, hl.nodup⟩
  · intro other ho
    rcases List.mem_cons.mp ho with rfl | ho
    · rw [hcell, hid, hunread, List.getElem?_append_right (Nat.le_refl _), Nat.sub_self]
      rfl
    · rw [hl.held other ho, List.getElem?_append_left (hids other ho)]
  · intro i cell hi hnot _
    rw [List.map_cons, List.mem_cons, not_or] at hnot
    exact hl.free i cell hi hnot.2 fun heq => hnot.1 (Option.some.inj heq).symm

theorem modify_other (hl : Layout mask cells pushed (h :: holders) claimed) (f : Cell α → Cell α)
    {other : Holder} (ho : other ∈ holders) :
    (cells.modify (h.slot mask) f)[other.slot mask]? = cells[other.slot mask]? := by
  have hne : h.slot mask ≠ other.slot mask := by
    intro heq
    refine (List.nodup_cons.mp hl.nodup).1 ?_
    show h.slot mask ∈ holders.map (·.slot mask)
    rw [heq]
    exact List.mem_map_of_mem ho
  rw [List.getElem?_modify]
  simp only [hne, if_false]
  exact id_map _

/-- A holder reads its data. -/
theorem read (hl : Layout mask cells pushed (h :: holders) claimed) :
    Layout mask (cells.modify (h.slot mask) ({ · with unread := false })) pushed
      ({ h with unread := false } :: holders) claimed := by
  refine ⟨hl.nodup, ?_, ?_, hl.apart⟩
  · intro other ho
    rcases List.mem_cons.mp ho with rfl | ho
    · show (cells.modify (h.slot mask) _)[h.slot mask]? = _
      rw [List.getElem?_modify_eq, hl.held h List.mem_cons_self]
      rfl
    · rw [hl.modify_other _ ho]
      exact hl.held other (List.mem_cons_of_mem _ ho)
  · intro i cell hi hnot hclaimed
    have hne : h.slot mask ≠ i := fun heq => hnot (heq ▸ List.mem_cons_self)
    rw [List.getElem?_modify_ne _ _ hne] at hi
    exact hl.free i cell hi hnot hclaimed

/-- A holder that has read its data frees its slot. -/
theorem release (hl : Layout mask cells pushed (h :: holders) claimed) (hread : h.unread = false) :
    Layout mask (cells.modify (h.slot mask) ({ · with state := .free })) pushed holders
      claimed := by
  refine ⟨(List.nodup_cons.mp hl.nodup).2, ?_, ?_, ?_⟩
  · intro other ho
    rw [hl.modify_other _ ho]
    exact hl.held other (List.mem_cons_of_mem _ ho)
  · intro i cell hi hnot hclaimed
    by_cases heq : h.slot mask = i
    · subst heq
      rw [List.getElem?_modify_eq, hl.held h List.mem_cons_self] at hi
      cases hi
      exact ⟨rfl, hread⟩
    · rw [List.getElem?_modify_ne _ _ heq] at hi
      refine hl.free i cell hi ?_ hclaimed
      rw [List.map_cons, List.mem_cons, not_or]
      exact ⟨Ne.symm heq, hnot⟩
  · exact fun j hj hmem => hl.apart j hj (List.mem_cons_of_mem _ hmem)

end Layout

-- ---------------------------------------------------------------------------
-- The invariant
-- ---------------------------------------------------------------------------

/-- How far the stored `bottom` is below the end of the deque: a pop lowers it
before it knows whether there is an element. -/
def Owner.gap : Owner α → Int
  | .popTop _ | .popExchange _ | .popRestore _ | .popLast _ _ _ => 1
  | .popRead _ _ last | .popFree _ _ _ last => if last then 1 else 0
  | _ => 0

theorem Owner.gap_nonneg (owner : Owner α) : 0 ≤ owner.gap := by
  cases owner <;> simp only [gap] <;> omega

/-- What a call has taken and not returned. -/
def Owner.taken : Owner α → List Nat
  | .popRead _ id _ | .popFree _ id _ _ | .popLast _ id _ => [id]
  | _ => []

def Stealer.taken : Stealer α → List Nat
  | .stealState _ id | .stealRead _ id | .stealFree _ id _ => [id]
  | _ => []

/-- The index of the owner's call, and the data it has written or read. -/
def Owner.Ok (d : Deque α) : Owner α → Prop
  | .pushTop _ b | .pushState _ b | .popTop b | .popExchange b | .popRestore b
  | .popRead b _ _ => b = d.bottom
  | .pushWrite _ b => b = d.bottom ∧ ∃ value, d.cells[d.slot b]? = some ⟨value, .free, false⟩
  | .pushFull value b => b = d.bottom ∧ d.cells[d.slot b]? = some ⟨some value, .free, true⟩
  | .pushStore value b => b = d.bottom ∧ d.cells[d.slot b]? = some ⟨some value, .full, true⟩
  | .popStore b => b + 1 = d.bottom
  | .popFree b id value _ | .popLast b id value => b = d.bottom ∧ value = d.pushed[id]?
  | .idle | .pushBottom _ | .popBottom | .panicked _ => True

/-- A stealer that has seen an element at index `t` finds it there as long as
`top` has not moved. -/
def Stealer.Ok (d : Deque α) : Stealer α → Prop
  | .stealBottom t => t ≤ d.top
  | .stealExchange t => t ≤ d.top ∧ (t = d.top → d.present ≠ [])
  | .stealFree _ id value => value = d.pushed[id]?
  | .idle | .stealState _ _ | .stealRead _ _ => True

theorem Owner.Ok.of_same {d d' : Deque α} {owner : Owner α} (h : owner.Ok d)
    (hbottom : d'.bottom = d.bottom) (hmask : d'.mask = d.mask) (hcells : d'.cells = d.cells)
    (hpushed : d'.pushed = d.pushed) : owner.Ok d' := by
  cases owner <;> simp only [Owner.Ok, Deque.slot, hbottom, hmask, hcells, hpushed] at h ⊢ <;> exact h

namespace Deque

def holders (d : Deque α) : List Holder :=
  d.owner.holders ++ d.stealers.flatMap (·.holders) ++ lay d.top d.present

def taken (d : Deque α) : List Nat := d.owner.taken ++ d.stealers.flatMap (·.taken)

structure Inv (d : Deque α) : Prop where
  room : d.cells.length = d.mask + 1
  nonneg : 0 ≤ d.top
  length : d.top + d.present.length = d.bottom + d.owner.gap
  owner : d.owner.Ok d
  stealers : ∀ stealer ∈ d.stealers, stealer.Ok d
  layout : Layout d.mask d.cells d.pushed d.holders (d.owner.claimed d.mask)
  ids : (d.returned.map (·.1) ++ d.taken ++ d.present).Perm (List.range d.pushed.length)
  sources : (d.stolen ++ d.popped.map (·.1) ++ d.present).Perm (List.range d.pushed.length)
  returned : ∀ r ∈ d.returned, r.2 = d.pushed[r.1]?
  sorted : d.present.Pairwise (· < ·)
  stolen : d.stolen.Pairwise (· < ·)
  older : ∀ i ∈ d.stolen, i < d.pushed.length ∧ ∀ j ∈ d.present, i < j
  popped : ∀ p ∈ d.popped, p.2.getLast? = some p.1 ∧ ∀ j ∈ p.2, j ≤ p.1
  stranded : d.stranded = []

variable {d d' : Deque α} {w : Nat} {old stealer' : Stealer α}

theorem new_inv {capacity : Nat} (n : Nat) (hcapacity : 0 < capacity) :
    (new capacity n : Deque α).Inv where
  room := by
    show (List.replicate capacity _).length = capacity - 1 + 1
    rw [List.length_replicate]
    omega
  nonneg := Int.le_refl 0
  length := rfl
  owner := trivial
  stealers := by
    intro stealer hs
    obtain rfl := List.eq_of_mem_replicate hs
    trivial
  layout := by
    have hnone : (new capacity n : Deque α).holders = [] := by
      simp [holders, new, Owner.holders, Stealer.holders, lay]
    rw [hnone]
    refine ⟨.nil, nofun, ?_, nofun⟩
    intro j cell hj _ _
    obtain rfl := List.eq_of_mem_replicate (List.mem_of_getElem? hj)
    exact ⟨rfl, rfl⟩
  ids := by
    have hnone : (new capacity n : Deque α).taken = [] := by
      simp [taken, new, Owner.taken, Stealer.taken]
    rw [hnone]
    exact .nil
  sources := .nil
  returned := nofun
  sorted := .nil
  stolen := .nil
  older := nofun
  popped := nofun
  stranded := rfl

/-- The owner goes on and touches at most `bottom`. -/
theorem Inv.moveTo (hd : d.Inv) (bottom : Int) {owner : Owner α}
    (hholders : owner.holders = d.owner.holders) (htaken : owner.taken = d.owner.taken)
    (hlength : d.bottom + d.owner.gap = bottom + owner.gap)
    (hok : owner.Ok { d with bottom })
    (hlayout : Layout d.mask d.cells d.pushed d.holders (owner.claimed d.mask)) :
    ({ d with bottom, owner } : Deque α).Inv := by
  refine
    { hd with
      length := hd.length.trans hlength
      owner := hok.of_same rfl rfl rfl rfl
      layout := ?_
      ids := ?_ }
  · have hsame : ({ d with bottom, owner } : Deque α).holders = d.holders := by
      rw [holders, holders, hholders]
    rw [hsame]
    exact hlayout
  · have hsame : ({ d with bottom, owner } : Deque α).taken = d.taken := by
      rw [taken, taken, htaken]
    rw [hsame]
    exact hd.ids

theorem Inv.move (hd : d.Inv) {owner : Owner α} (hholders : owner.holders = d.owner.holders)
    (htaken : owner.taken = d.owner.taken) (hgap : d.owner.gap = owner.gap) (hok : owner.Ok d)
    (hlayout : Layout d.mask d.cells d.pushed d.holders (owner.claimed d.mask)) :
    (d.move owner).Inv :=
  hd.moveTo d.bottom hholders htaken (congrArg (d.bottom + ·) hgap) hok hlayout

/-- A stealer goes on and touches nothing. -/
theorem Inv.moveStealer (hd : d.Inv) (hw : d.stealers[w]? = some old)
    (hholders : old.holders = stealer'.holders) (htaken : old.taken = stealer'.taken) (hok : stealer'.Ok d) :
    (d.moveStealer w stealer').Inv := by
  have hstealers : ((d.stealers.set w stealer').flatMap (·.holders)).Perm
      (d.stealers.flatMap (·.holders)) := by
    have hset := perm_flatMap_set (·.holders) hw stealer'
    rw [hholders] at hset
    exact (List.perm_append_left_iff _).mp hset
  have htakens : ((d.stealers.set w stealer').flatMap (·.taken)).Perm
      (d.stealers.flatMap (·.taken)) := by
    have hset := perm_flatMap_set (·.taken) hw stealer'
    rw [htaken] at hset
    exact (List.perm_append_left_iff _).mp hset
  refine { hd with owner := ?_, stealers := ?_, layout := ?_, ids := ?_ }
  · exact hd.owner.of_same rfl rfl rfl rfl
  · intro stealer hs
    have hall : ∀ s : Stealer α, s.Ok d → s.Ok (d.moveStealer w stealer') := by
      intro s hs
      cases s <;> exact hs
    rcases mem_set_cases hs with rfl | hs
    · exact hall _ hok
    · exact hall _ (hd.stealers stealer hs)
  · exact hd.layout.perm ((hstealers.symm.append_left _).append_right _)
  · refine .trans ?_ hd.ids
    exact ((htakens.append_left _).append_left _).append_right _

theorem Inv.id_lt (hd : d.Inv) {id : Nat}
    (h : id ∈ d.returned.map (·.1) ∨ id ∈ d.taken ∨ id ∈ d.present) : id < d.pushed.length := by
  refine List.mem_range.mp (hd.ids.mem_iff.mp ?_)
  rcases h with h | h | h
  · exact List.mem_append_left _ (List.mem_append_left _ h)
  · exact List.mem_append_left _ (List.mem_append_right _ h)
  · exact List.mem_append_right _ h

theorem mem_lay {top : Int} {ids : List Nat} {h : Holder} (hh : h ∈ lay top ids) :
    h.id ∈ ids := by
  induction ids generalizing top with
  | nil => cases hh
  | cons id ids ih =>
    rcases List.mem_cons.mp hh with rfl | hh
    · exact List.mem_cons_self
    · exact List.mem_cons_of_mem _ (ih hh)

/-- What holds a slot is in the deque or taken. -/
theorem Inv.holder_lt (hd : d.Inv) {h : Holder} (hh : h ∈ d.holders) :
    h.id < d.pushed.length := by
  rcases List.mem_append.mp hh with hh | hh
  · refine hd.id_lt (.inr (.inl ?_))
    rcases List.mem_append.mp hh with hh | hh
    · refine List.mem_append_left _ ?_
      cases howner : d.owner <;> rw [howner] at hh <;>
        first
          | cases hh
            done
          | (cases List.mem_singleton.mp hh; exact List.mem_singleton_self _)
    · refine List.mem_append_right _ ?_
      obtain ⟨stealer, hs, hh⟩ := List.mem_flatMap.mp hh
      refine List.mem_flatMap.mpr ⟨stealer, hs, ?_⟩
      cases stealer <;>
        first
          | cases hh
            done
          | (cases List.mem_singleton.mp hh; exact List.mem_singleton_self _)
  · exact hd.id_lt (.inr (.inr (mem_lay hh)))

-- ---------------------------------------------------------------------------
-- Push
-- ---------------------------------------------------------------------------

/-- A push goes on once it has seen its slot free. -/
theorem Inv.pushState (hd : d.Inv) {value : α} {b : Int} (howner : d.owner = .pushState value b) :
    (d.move (if d.state? b = some .free then .pushWrite value b else .idle)).Inv := by
  have hok := hd.owner
  have hlayout := hd.layout
  rw [howner] at hok hlayout
  split
  · next hfree =>
    obtain ⟨cell, hcell, hstate⟩ := Option.map_eq_some_iff.mp hfree
    have hclaim := hlayout.claim hcell hstate
    have hunread := (hlayout.free _ cell hcell (hclaim.apart _ rfl) nofun).2
    refine hd.move ?_ ?_ ?_ ⟨hok, cell.value, ?_⟩ hclaim
    · rw [howner]
      rfl
    · rw [howner]
      rfl
    · rw [howner]
      rfl
    · rw [hcell, ← hstate, ← hunread]
  · refine hd.move ?_ ?_ ?_ trivial hlayout <;> rw [howner] <;> rfl

/-- A store of a push in the slot it has claimed. -/
theorem Inv.pushCell (hd : d.Inv) {b : Int} {owner : Owner α} (f : Cell α → Cell α)
    (hold : d.owner.claimed d.mask = some (d.slot b))
    (hnew : owner.claimed d.mask = some (d.slot b)) (hholders : owner.holders = d.owner.holders)
    (htaken : owner.taken = d.owner.taken) (hgap : owner.gap = d.owner.gap)
    (hok : owner.Ok ((d.setCell b f).move owner)) : ((d.setCell b f).move owner).Inv := by
  have hlayout := hd.layout
  rw [hold] at hlayout
  have hsame : ((d.setCell b f).move owner).holders = d.holders := by
    show owner.holders ++ _ ++ _ = _
    rw [hholders]
    rfl
  have hsame' : ((d.setCell b f).move owner).taken = d.taken := by
    show owner.taken ++ _ = _
    rw [htaken]
    rfl
  refine
    { hd with
      room := (List.length_modify ..).trans hd.room
      length := hd.length.trans (congrArg (d.bottom + ·) hgap.symm)
      owner := hok
      layout := ?_
      ids := ?_ }
  · rw [hsame]
    show Layout d.mask (d.cells.modify (d.slot b) f) d.pushed d.holders (owner.claimed d.mask)
    rw [hnew]
    exact hlayout.modify_claimed f
  · rw [hsame']
    exact hd.ids

/-- The element is in the deque when `bottom` has passed it. -/
theorem Inv.pushStore (hd : d.Inv) {value : α} {b : Int} (howner : d.owner = .pushStore value b) :
    ({ d with
      bottom := b + 1
      owner := .idle
      pushed := d.pushed ++ [value]
      present := d.present ++ [d.pushed.length] } : Deque α).Inv := by
  have hok := hd.owner
  have hlayout := hd.layout
  have hlength := hd.length
  have hids := hd.ids
  rw [howner] at hok hlayout hlength
  obtain ⟨hb, hcell⟩ := hok
  simp only [Owner.gap] at hlength
  have hget : ∀ id, id < d.pushed.length → (d.pushed ++ [value])[id]? = d.pushed[id]? :=
    fun id hid => List.getElem?_append_left hid
  let h : Holder := ⟨b, d.pushed.length, true⟩
  have hperm : (h :: d.holders).Perm
      ([] ++ d.stealers.flatMap (·.holders) ++ lay d.top (d.present ++ [d.pushed.length])) := by
    have hindex : d.top + (d.present.length : Int) = b := by omega
    rw [lay_append, hindex, holders, howner, ← List.append_assoc]
    exact (List.perm_append_singleton h _).symm
  refine
    { hd with
      length := ?_
      owner := trivial
      stealers := ?_
      layout := ?_
      ids := ?_
      sources := ?_
      returned := ?_
      sorted := ?_
      older := ?_ }
  · show d.top + ((d.present ++ [d.pushed.length]).length : Int) = b + 1 + 0
    rw [List.length_append, List.length_singleton]
    omega
  · intro stealer hs
    have hold := hd.stealers stealer hs
    cases stealer with
    | stealExchange t => exact ⟨hold.1, fun _ => List.concat_ne_nil _ _⟩
    | stealFree t id v =>
      have hid : id < d.pushed.length := by
        refine hd.id_lt (.inr (.inl (List.mem_append_right _ ?_)))
        exact List.mem_flatMap.mpr ⟨_, hs, List.mem_singleton_self _⟩
      exact hold.trans (hget id hid).symm
    | _ => exact hold
  · exact (hlayout.hand (h := h) hcell rfl rfl fun _ => hd.holder_lt).perm hperm
  · have htaken : d.taken = d.stealers.flatMap (·.taken) := by
      rw [taken, howner]
      rfl
    rw [htaken] at hids
    show (_ ++ _ ++ (d.present ++ [d.pushed.length])).Perm
      (List.range (d.pushed ++ [value]).length)
    rw [← List.append_assoc, List.length_append, List.length_singleton, List.range_succ]
    exact hids.append_right _
  · show (_ ++ (d.present ++ [d.pushed.length])).Perm (List.range (d.pushed ++ [value]).length)
    rw [← List.append_assoc, List.length_append, List.length_singleton, List.range_succ]
    exact hd.sources.append_right _
  · intro r hr
    rw [hd.returned r hr, hget r.1 (hd.id_lt (.inl (List.mem_map_of_mem hr)))]
  · refine List.pairwise_append.mpr ⟨hd.sorted, List.pairwise_singleton _ _, ?_⟩
    intro i hi j hj
    cases List.mem_singleton.mp hj
    exact hd.id_lt (.inr (.inr hi))
  · intro i hi
    obtain ⟨hlt, hold⟩ := hd.older i hi
    refine ⟨?_, ?_⟩
    · show i < (d.pushed ++ [value]).length
      rw [List.length_append]
      omega
    · intro j hj
      rcases List.mem_append.mp hj with hj | hj
      · exact hold j hj
      · cases List.mem_singleton.mp hj
        exact hlt

-- ---------------------------------------------------------------------------
-- Pop
-- ---------------------------------------------------------------------------

/-- The newest of the elements, which are in the order of their pushes. -/
theorem le_last {ids : List Nat} {id : Nat} (h : (ids ++ [id]).Pairwise (· < ·)) :
    ∀ j ∈ ids ++ [id], j ≤ id := by
  intro j hj
  rcases List.mem_append.mp hj with hj | hj
  · exact Nat.le_of_lt ((List.pairwise_append.mp h).2.2 j hj id (List.mem_singleton_self id))
  · exact Nat.le_of_eq (List.mem_singleton.mp hj)

/-- The owner takes the newest element, and `top` passes it if it is the last. -/
theorem Inv.takeLast (hd : d.Inv) {b top : Int} (last : Bool) {rest : List Nat} {id : Nat}
    (hpresent : d.present = rest ++ [id]) (hholders : d.owner.holders = [])
    (htaken : d.owner.taken = []) (hclaimed : d.owner.claimed d.mask = none)
    (hb : b = d.bottom) (hindex : d.top + rest.length = b) (htop : d.top ≤ top)
    (hlast : if last then rest = [] ∧ top = b + 1 else rest ≠ [] ∧ top = d.top) :
    ({ d.takeLast b last with top } : Deque α).Inv := by
  have hid : d.present.getLast?.getD d.pushed.length = id := by
    rw [hpresent, List.getLast?_concat]
    rfl
  have hrest : d.present.dropLast = rest := by rw [hpresent, List.dropLast_concat]
  have hsorted := hd.sorted
  have hlayout := hd.layout
  have hids := hd.ids
  have hsources := hd.sources
  rw [hpresent] at hsorted hids hsources
  rw [hclaimed] at hlayout
  rw [Deque.takeLast, hid, hrest]
  refine
    { hd with
      nonneg := Int.le_trans hd.nonneg htop
      length := ?_
      owner := hb
      stealers := ?_
      layout := ?_
      ids := ?_
      sources := ?_
      sorted := (List.pairwise_append.mp hsorted).1
      older := ?_
      popped := ?_ }
  · cases last with
    | true =>
      obtain ⟨rfl, rfl⟩ := hlast
      show b + 1 + 0 = d.bottom + 1
      omega
    | false =>
      obtain ⟨-, rfl⟩ := hlast
      show d.top + (rest.length : Int) = d.bottom + 0
      omega
  · intro stealer hs
    have hold := hd.stealers stealer hs
    cases stealer with
    | stealBottom t => exact Int.le_trans hold htop
    | stealExchange t =>
      refine ⟨Int.le_trans hold.1 htop, ?_⟩
      intro ht
      have hle := hold.1
      cases last with
      | true =>
        obtain ⟨rfl, rfl⟩ := hlast
        rw [List.length_nil] at hindex
        change t = b + 1 at ht
        omega
      | false => exact hlast.1
    | _ => exact hold
  · have hlay : (⟨b, id, true⟩ :: lay top rest).Perm (lay d.top d.present) := by
      rw [hpresent, lay_append, hindex]
      refine (List.perm_append_singleton _ _).symm.trans ?_
      cases last with
      | true =>
        obtain ⟨rfl, -⟩ := hlast
        exact .refl _
      | false =>
        obtain ⟨-, rfl⟩ := hlast
        exact .refl _
    refine hlayout.perm ?_
    rw [holders, hholders]
    exact (hlay.symm.append_left _).trans List.perm_middle
  · have hold : d.taken = d.stealers.flatMap (·.taken) := by
      rw [taken, htaken]
      rfl
    rw [hold] at hids
    refine .trans ?_ hids
    show (d.returned.map (·.1) ++ (id :: d.stealers.flatMap (·.taken)) ++ rest).Perm _
    refine (List.perm_middle.append_right rest).trans ?_
    rw [← List.append_assoc]
    exact (List.perm_append_singleton id _).symm
  · refine .trans ?_ hsources
    show (d.stolen ++ (d.popped ++ [(id, d.present)]).map (·.1) ++ rest).Perm _
    rw [List.map_append, List.append_assoc, List.append_assoc, List.append_assoc]
    refine .append_left _ (.append_left _ ?_)
    exact (List.perm_append_singleton id rest).symm
  · intro i hi
    refine ⟨(hd.older i hi).1, fun j hj => (hd.older i hi).2 j ?_⟩
    rw [hpresent]
    exact List.mem_append_left _ hj
  · intro p hp
    rcases List.mem_append.mp hp with hp | hp
    · exact hd.popped p hp
    · cases List.mem_singleton.mp hp
      rw [hpresent]
      exact ⟨List.getLast?_concat, le_last hsorted⟩

/-- What a holder reads. -/
theorem value?_of_held {b : Int} {id : Nat} {unread : Bool}
    (h : d.cells[d.slot b]? = some ⟨d.pushed[id]?, .full, unread⟩) :
    d.value? b = d.pushed[id]? := by
  rw [value?, h]
  rfl

theorem Inv.popRead (hd : d.Inv) {b : Int} {id : Nat} {last : Bool}
    (howner : d.owner = .popRead b id last) :
    ((d.setCell b ({ · with unread := false })).move
      (.popFree b id (d.value? b) last)).Inv := by
  have hok := hd.owner
  have hlayout := hd.layout
  have hlength := hd.length
  have hids := hd.ids
  rw [howner] at hok hlayout hlength
  have hholders : d.holders = ⟨b, id, true⟩ :: (d.stealers.flatMap (·.holders) ++ lay d.top d.present) := by
    rw [holders, howner]
    rfl
  rw [hholders] at hlayout
  have hheld := hlayout.held _ List.mem_cons_self
  refine
    { hd with
      room := (List.length_modify ..).trans hd.room
      length := hlength
      owner := ⟨hok, value?_of_held hheld⟩
      layout := hlayout.read
      ids := ?_ }
  rw [taken, howner] at hids
  exact hids

/-- A call returns what it has taken. -/
theorem perm_return {returned taken taken' present all : List Nat} {id : Nat}
    (h : (returned ++ taken ++ present).Perm all) (htaken : taken.Perm (id :: taken')) :
    (returned ++ [id] ++ taken' ++ present).Perm all := by
  refine .trans ?_ h
  refine .append_right _ ?_
  rw [List.append_assoc]
  exact htaken.symm.append_left returned

theorem Inv.popFree (hd : d.Inv) {b : Int} {id : Nat} {value : Option α}
    (howner : d.owner = .popFree b id value false) :
    ({ d.setCell b ({ · with state := .free }) with
      owner := .idle, returned := d.returned ++ [(id, value)] } : Deque α).Inv := by
  have hok := hd.owner
  have hlayout := hd.layout
  have hlength := hd.length
  rw [howner] at hok hlayout hlength
  have hholders : d.holders = ⟨b, id, false⟩ :: (d.stealers.flatMap (·.holders) ++ lay d.top d.present) := by
    rw [holders, howner]
    rfl
  rw [hholders] at hlayout
  refine
    { hd with
      room := (List.length_modify ..).trans hd.room
      length := hlength
      owner := trivial
      layout := hlayout.release rfl
      ids := ?_
      returned := ?_ }
  · rw [List.map_append]
    refine perm_return hd.ids ?_
    rw [taken, howner]
    exact .refl _
  · intro r hr
    rcases List.mem_append.mp hr with hr | hr
    · exact hd.returned r hr
    · cases List.mem_singleton.mp hr
      exact hok.2

theorem Inv.popFreeLast (hd : d.Inv) {b : Int} {id : Nat} {value : Option α}
    (howner : d.owner = .popFree b id value true) :
    ((d.setCell b ({ · with state := .free })).move (.popLast b id value)).Inv := by
  have hok := hd.owner
  have hlayout := hd.layout
  have hlength := hd.length
  have hids := hd.ids
  rw [howner] at hok hlayout hlength
  have hholders : d.holders = ⟨b, id, false⟩ :: (d.stealers.flatMap (·.holders) ++ lay d.top d.present) := by
    rw [holders, howner]
    rfl
  rw [hholders] at hlayout
  refine
    { hd with
      room := (List.length_modify ..).trans hd.room
      length := hlength
      owner := hok
      layout := hlayout.release rfl
      ids := ?_ }
  rw [taken, howner] at hids
  exact hids

theorem Inv.popLast (hd : d.Inv) {b : Int} {id : Nat} {value : Option α}
    (howner : d.owner = .popLast b id value) :
    ({ d with bottom := b + 1, owner := .idle, returned := d.returned ++ [(id, value)] } :
      Deque α).Inv := by
  have hok := hd.owner
  have hlayout := hd.layout
  have hlength := hd.length
  rw [howner] at hok hlayout hlength
  obtain ⟨rfl, hvalue⟩ := hok
  have hholders : d.holders = d.stealers.flatMap (·.holders) ++ lay d.top d.present := by
    rw [holders, howner]
    rfl
  rw [hholders] at hlayout
  refine
    { hd with
      length := hlength.trans (Int.add_zero _).symm
      owner := trivial
      layout := hlayout
      ids := ?_
      returned := ?_ }
  · rw [List.map_append]
    refine perm_return hd.ids ?_
    rw [taken, howner]
    exact .refl _
  · intro r hr
    rcases List.mem_append.mp hr with hr | hr
    · exact hd.returned r hr
    · cases List.mem_singleton.mp hr
      exact hvalue

-- ---------------------------------------------------------------------------
-- Steal
-- ---------------------------------------------------------------------------

/-- The holders, with those of one stealer first. -/
theorem holders_split (hw : d.stealers[w]? = some old) :
    ∃ others, d.holders.Perm (old.holders ++ others) ∧ ∀ s' : Stealer α,
      (d.owner.holders ++ (d.stealers.set w s').flatMap (·.holders) ++ lay d.top d.present).Perm
        (s'.holders ++ others) := by
  obtain ⟨hold, hnew⟩ := flatMap_split (·.holders) (z := .idle) hw rfl
  refine ⟨d.owner.holders ++ (d.stealers.set w .idle).flatMap (·.holders) ++ lay d.top d.present,
    ?_, ?_⟩
  · rw [← List.append_assoc, ← List.append_assoc]
    refine .append_right _ ((hold.append_left _).trans ?_)
    rw [← List.append_assoc]
    exact List.perm_append_comm.append_right _
  · intro s'
    rw [← List.append_assoc, ← List.append_assoc]
    refine .append_right _ (((hnew s').append_left _).trans ?_)
    rw [← List.append_assoc]
    exact List.perm_append_comm.append_right _

theorem taken_split (hw : d.stealers[w]? = some old) :
    ∃ others, d.taken.Perm (old.taken ++ others) ∧ ∀ s' : Stealer α,
      (d.owner.taken ++ (d.stealers.set w s').flatMap (·.taken)).Perm (s'.taken ++ others) := by
  obtain ⟨hold, hnew⟩ := flatMap_split (·.taken) (z := .idle) hw rfl
  refine ⟨d.owner.taken ++ (d.stealers.set w .idle).flatMap (·.taken), ?_, ?_⟩
  · rw [← List.append_assoc]
    refine (hold.append_left _).trans ?_
    rw [← List.append_assoc]
    exact List.perm_append_comm.append_right _
  · intro s'
    rw [← List.append_assoc]
    refine ((hnew s').append_left _).trans ?_
    rw [← List.append_assoc]
    exact List.perm_append_comm.append_right _

/-- The winner of the exchange has the oldest element. -/
theorem Inv.win (hd : d.Inv) {t : Int} (hw : d.stealers[w]? = some (.stealExchange t))
    (ht : d.top = t) :
    let id := d.present.head?.getD d.pushed.length
    ({ d.moveStealer w (.stealState t id) with
      top := t + 1
      present := d.present.tail
      stolen := d.stolen ++ [id] } : Deque α).Inv := by
  obtain ⟨-, hne⟩ := hd.stealers _ (List.mem_of_getElem? hw)
  obtain ⟨id, rest, hpresent⟩ := List.exists_cons_of_ne_nil (hne ht.symm)
  have hsorted := hd.sorted
  have hlength := hd.length
  have hids := hd.ids
  have hsources := hd.sources
  rw [hpresent] at hsorted hlength hids hsources
  obtain ⟨hless, hsorted⟩ := List.pairwise_cons.mp hsorted
  obtain ⟨others, hold, hnew⟩ := holders_split hw
  obtain ⟨others', hold', hnew'⟩ := taken_split hw
  simp only [hpresent, List.head?_cons, Option.getD_some, List.tail_cons]
  refine
    { hd with
      nonneg := ?_
      length := ?_
      owner := hd.owner.of_same rfl rfl rfl rfl
      stealers := ?_
      layout := ?_
      ids := ?_
      sources := ?_
      sorted := hsorted
      stolen := ?_
      older := ?_ }
  · exact Int.le_add_one (ht ▸ hd.nonneg)
  · rw [List.length_cons] at hlength
    show t + 1 + (rest.length : Int) = d.bottom + d.owner.gap
    omega
  · intro stealer hs
    rcases mem_set_cases hs with rfl | hs
    · trivial
    · have hok := hd.stealers stealer hs
      cases stealer with
      | stealBottom u =>
        show u ≤ t + 1
        exact Int.le_add_one (ht ▸ hok)
      | stealExchange u =>
        have hu : u ≤ t := ht ▸ hok.1
        refine ⟨Int.le_add_one hu, ?_⟩
        intro heq
        change u = t + 1 at heq
        omega
      | _ => exact hok
  · refine hd.layout.perm ?_
    show d.holders.Perm (d.owner.holders ++
      (d.stealers.set w (.stealState t id)).flatMap (·.holders) ++ lay (t + 1) rest)
    rw [holders, hpresent, lay, ht]
    refine List.perm_middle.trans ?_
    rw [← List.cons_append]
    refine .append_right _ ?_
    have hset := (flatMap_split (·.holders) (z := Stealer.idle) hw rfl)
    have hsame : ((d.stealers.set w (.stealState t id)).flatMap (·.holders)).Perm
        (⟨t, id, true⟩ :: d.stealers.flatMap (·.holders)) :=
      (hset.2 _).trans (hset.1.symm.cons _)
    exact List.perm_middle.symm.trans (hsame.symm.append_left _)
  · have htaken : (d.owner.taken ++
        (d.stealers.set w (.stealState t id)).flatMap (·.taken)).Perm (id :: d.taken) :=
      (hnew' _).trans (hold'.symm.cons id)
    refine .trans ?_ hids
    refine ((htaken.append_left _).append_right rest).trans ?_
    rw [List.append_assoc, List.append_assoc]
    exact List.Perm.append_left _ List.perm_middle.symm
  · refine .trans ?_ hsources
    show (d.stolen ++ [id] ++ d.popped.map (·.1) ++ rest).Perm _
    rw [List.append_assoc, List.append_assoc, List.append_assoc]
    refine List.Perm.append_left _ ?_
    show (id :: (d.popped.map (·.1) ++ rest)).Perm _
    exact List.perm_middle.symm
  · refine List.pairwise_append.mpr ⟨hd.stolen, List.pairwise_singleton _ _, ?_⟩
    intro i hi j hj
    cases List.mem_singleton.mp hj
    exact (hd.older i hi).2 id (hpresent ▸ List.mem_cons_self)
  · intro i hi
    rcases List.mem_append.mp hi with hi | hi
    · exact ⟨(hd.older i hi).1, fun j hj =>
        (hd.older i hi).2 j (hpresent ▸ List.mem_cons_of_mem _ hj)⟩
    · cases List.mem_singleton.mp hi
      exact ⟨hd.id_lt (.inr (.inr (hpresent ▸ List.mem_cons_self))), hless⟩

/-- A stealer that has won finds its slot full. -/
theorem Inv.full_of_won (hd : d.Inv) {t : Int} {id : Nat}
    (hw : d.stealers[w]? = some (.stealState t id)) : d.state? t = some .full := by
  obtain ⟨others, hold, -⟩ := holders_split hw
  have hheld := (hd.layout.perm hold).held _ List.mem_cons_self
  rw [state?, show d.cells[d.slot t]? = _ from hheld]
  rfl

/-- A held slot is not the one of the push under way. -/
theorem Inv.owner_setCell (hd : d.Inv) {h : Holder} (hh : h ∈ d.holders) (f : Cell α → Cell α) :
    d.owner.Ok (d.setCell h.index f) := by
  have hok := hd.owner
  have hapart := hd.layout.apart
  have hother : ∀ b, d.owner.claimed d.mask = some (d.slot b) →
      (d.cells.modify (d.slot h.index) f)[d.slot b]? = d.cells[d.slot b]? := by
    intro b hb
    refine List.getElem?_modify_ne _ _ fun heq => hapart _ hb ?_
    rw [← heq]
    exact List.mem_map_of_mem hh
  cases howner : d.owner with
  | pushWrite value b =>
    rw [howner] at hok hother
    exact ⟨hok.1, hok.2.imp fun _ hcell => (hother b rfl).trans hcell⟩
  | pushFull value b =>
    rw [howner] at hok hother
    exact ⟨hok.1, (hother b rfl).trans hok.2⟩
  | pushStore value b =>
    rw [howner] at hok hother
    exact ⟨hok.1, (hother b rfl).trans hok.2⟩
  | _ =>
    rw [howner] at hok
    exact hok

theorem Inv.stealRead (hd : d.Inv) {t : Int} {id : Nat}
    (hw : d.stealers[w]? = some (.stealRead t id)) :
    ((d.setCell t ({ · with unread := false })).moveStealer w
      (.stealFree t id (d.value? t))).Inv := by
  obtain ⟨others, hold, hnew⟩ := holders_split hw
  obtain ⟨others', hold', hnew'⟩ := taken_split hw
  have hlayout := hd.layout.perm hold
  have hvalue : d.value? t = d.pushed[id]? := value?_of_held (hlayout.held _ List.mem_cons_self)
  have hmem : (⟨t, id, true⟩ : Holder) ∈ d.holders := hold.mem_iff.mpr List.mem_cons_self
  refine
    { hd with
      room := (List.length_modify ..).trans hd.room
      owner := (hd.owner_setCell hmem _).of_same rfl rfl rfl rfl
      stealers := ?_
      layout := hlayout.read.perm (hnew (.stealFree t id (d.value? t))).symm
      ids := ?_ }
  · intro stealer hs
    rcases mem_set_cases hs with rfl | hs
    · exact hvalue
    · exact hd.stealers stealer hs
  · refine .trans ?_ hd.ids
    have hsame := (hnew' (.stealFree t id (d.value? t))).trans hold'.symm
    exact (hsame.append_left _).append_right _

theorem Inv.stealFree (hd : d.Inv) {t : Int} {id : Nat} {value : Option α}
    (hw : d.stealers[w]? = some (.stealFree t id value)) :
    ({ (d.setCell t ({ · with state := .free })).moveStealer w .idle with
      returned := d.returned ++ [(id, value)] } : Deque α).Inv := by
  obtain ⟨others, hold, hnew⟩ := holders_split hw
  obtain ⟨others', hold', hnew'⟩ := taken_split hw
  have hlayout := hd.layout.perm hold
  have hvalue : value = d.pushed[id]? := hd.stealers _ (List.mem_of_getElem? hw)
  have hmem : (⟨t, id, false⟩ : Holder) ∈ d.holders := hold.mem_iff.mpr List.mem_cons_self
  refine
    { hd with
      room := (List.length_modify ..).trans hd.room
      owner := (hd.owner_setCell hmem _).of_same rfl rfl rfl rfl
      stealers := ?_
      layout := (hlayout.release rfl).perm (hnew .idle).symm
      ids := ?_
      returned := ?_ }
  · intro stealer hs
    rcases mem_set_cases hs with rfl | hs
    · trivial
    · exact hd.stealers stealer hs
  · rw [List.map_append]
    exact perm_return hd.ids (hold'.trans ((hnew' .idle).symm.cons id))
  · intro r hr
    rcases List.mem_append.mp hr with hr | hr
    · exact hd.returned r hr
    · cases List.mem_singleton.mp hr
      exact hvalue

-- ---------------------------------------------------------------------------
-- Runs
-- ---------------------------------------------------------------------------

theorem Inv.stepOwner (hd : d.Inv) (hstep : d.stepOwner = some d') : d'.Inv := by
  have hok := hd.owner
  have hlayout := hd.layout
  have hlength := hd.length
  rw [Deque.stepOwner] at hstep
  split at hstep
  · cases hstep
  · next value howner =>
    cases hstep
    rw [howner] at hlayout
    refine hd.move ?_ ?_ ?_ rfl hlayout <;> rw [howner] <;> rfl
  · next value b howner =>
    cases hstep
    rw [howner] at hok hlayout
    split
    · refine hd.move ?_ ?_ ?_ trivial hlayout <;> rw [howner] <;> rfl
    · refine hd.move ?_ ?_ ?_ hok hlayout <;> rw [howner] <;> rfl
  · next value b howner =>
    cases hstep
    exact hd.pushState howner
  · next value b howner =>
    cases hstep
    rw [howner] at hok
    obtain ⟨hb, old, hcell⟩ := hok
    refine hd.pushCell _ (by rw [howner]; rfl) rfl (by rw [howner]; rfl) (by rw [howner]; rfl)
      (by rw [howner]; rfl) ⟨hb, ?_⟩
    exact (List.getElem?_modify_eq ..).trans (by rw [hcell]; rfl)
  · next value b howner =>
    cases hstep
    rw [howner] at hok
    obtain ⟨hb, hcell⟩ := hok
    refine hd.pushCell _ (by rw [howner]; rfl) rfl (by rw [howner]; rfl) (by rw [howner]; rfl)
      (by rw [howner]; rfl) ⟨hb, ?_⟩
    exact (List.getElem?_modify_eq ..).trans (by rw [hcell]; rfl)
  · next value b howner =>
    split at hstep
    · cases hstep
      rw [howner] at hlayout
      refine hd.move ?_ ?_ ?_ trivial hlayout <;> rw [howner] <;> rfl
    · cases hstep
      exact hd.pushStore howner
  · next howner =>
    cases hstep
    rw [howner] at hlayout
    refine hd.move ?_ ?_ ?_ (Int.sub_add_cancel _ _) hlayout <;> rw [howner] <;> rfl
  · next b howner =>
    cases hstep
    rw [howner] at hok hlayout
    refine hd.moveTo b ?_ ?_ ?_ rfl hlayout
    · rw [howner]
      rfl
    · rw [howner]
      rfl
    · rw [howner]
      exact (Int.add_zero _).trans hok.symm
  · next b howner =>
    rw [howner] at hok hlayout hlength
    have hnonneg := hd.nonneg
    simp only [Owner.gap] at hlength
    change b = d.bottom at hok
    split at hstep
    · next hle =>
      split at hstep
      · omega
      split at hstep
      · cases hstep
        refine hd.move ?_ ?_ ?_ hok hlayout <;> rw [howner] <;> rfl
      · next hne =>
        cases hstep
        have hpos : d.present ≠ [] := by
          intro hnil
          rw [hnil, List.length_nil] at hlength
          omega
        obtain ⟨rest, id, hpresent⟩ : ∃ rest id, d.present = rest ++ [id] :=
          ⟨_, _, (List.dropLast_concat_getLast hpos).symm⟩
        rw [hpresent, List.length_append, List.length_singleton] at hlength
        refine hd.takeLast false hpresent ?_ ?_ ?_ hok ?_ (Int.le_refl _) ⟨?_, rfl⟩
        · rw [howner]
          rfl
        · rw [howner]
          rfl
        · rw [howner]
          rfl
        · omega
        · rintro rfl
          rw [List.length_nil] at hlength
          omega
    · cases hstep
      refine hd.move ?_ ?_ ?_ hok hlayout <;> rw [howner] <;> rfl
  · next b howner =>
    rw [howner] at hok hlayout hlength
    simp only [Owner.gap] at hlength
    change b = d.bottom at hok
    split at hstep
    · next htop =>
      cases hstep
      have hone : d.present.length = 1 := by omega
      obtain ⟨id, hpresent⟩ := List.length_eq_one_iff.mp hone
      refine hd.takeLast true (show d.present = [] ++ [id] from hpresent) ?_ ?_ ?_ hok ?_ ?_ ⟨rfl, rfl⟩
      · rw [howner]
        rfl
      · rw [howner]
        rfl
      · rw [howner]
        rfl
      · rw [List.length_nil]
        omega
      · omega
    · cases hstep
      refine hd.move ?_ ?_ ?_ hok hlayout <;> rw [howner] <;> rfl
  · next b howner =>
    cases hstep
    rw [howner] at hok hlayout
    refine hd.moveTo (b + 1) ?_ ?_ ?_ trivial hlayout
    · rw [howner]
      rfl
    · rw [howner]
      rfl
    · rw [howner]
      exact (congrArg (· + 1) hok.symm).trans (Int.add_zero _).symm
  · next b id last howner =>
    cases hstep
    exact hd.popRead howner
  · next b id value last howner =>
    cases last with
    | true =>
      cases hstep
      exact hd.popFreeLast howner
    | false =>
      cases hstep
      exact hd.popFree howner
  · next b id value howner =>
    cases hstep
    exact hd.popLast howner
  · cases hstep

theorem Inv.stepStealer (hd : d.Inv) (hw : d.stealers[w]? = some old)
    (hstep : d.stepStealer w old = some d') : d'.Inv := by
  cases old with
  | idle => cases hstep
  | stealBottom t =>
    cases hstep
    have hok : t ≤ d.top := hd.stealers _ (List.mem_of_getElem? hw)
    split
    · exact hd.moveStealer hw rfl rfl trivial
    · next hless =>
      refine hd.moveStealer hw rfl rfl ⟨hok, ?_⟩
      intro htop hnil
      have hlength := hd.length
      have hgap := d.owner.gap_nonneg
      rw [hnil, List.length_nil] at hlength
      omega
  | stealExchange t =>
    rw [Deque.stepStealer] at hstep
    split at hstep
    · next htop =>
      cases hstep
      exact hd.win hw htop
    · cases hstep
      exact hd.moveStealer hw rfl rfl trivial
  | stealState t id =>
    rw [Deque.stepStealer, if_pos (hd.full_of_won hw)] at hstep
    cases hstep
    exact hd.moveStealer hw rfl rfl trivial
  | stealRead t id =>
    cases hstep
    exact hd.stealRead hw
  | stealFree t id value =>
    cases hstep
    exact hd.stealFree hw

theorem step_inv {a : Action α} (hd : d.Inv) (hstep : d.step a = some d') : d'.Inv := by
  have hlayout := hd.layout
  cases a with
  | push value =>
    rw [step] at hstep
    split at hstep
    · next howner =>
      cases hstep
      rw [howner] at hlayout
      refine hd.move ?_ ?_ ?_ trivial hlayout <;> rw [howner] <;> rfl
    · cases hstep
  | pop =>
    rw [step] at hstep
    split at hstep
    · next howner =>
      cases hstep
      rw [howner] at hlayout
      refine hd.move ?_ ?_ ?_ trivial hlayout <;> rw [howner] <;> rfl
    · cases hstep
  | owner => exact hd.stepOwner hstep
  | steal w =>
    rw [step] at hstep
    split at hstep
    · next hw =>
      cases hstep
      exact hd.moveStealer hw rfl rfl (Int.le_refl _)
    · cases hstep
  | stealer w =>
    obtain ⟨stealer, hw, hstep⟩ := Option.bind_eq_some_iff.mp hstep
    exact hd.stepStealer hw hstep

/-- The states of all interleavings. -/
abbrev Reached (start d : Deque α) : Prop := Reachable step (fun _ _ => True) start d

theorem reached_inv {capacity n : Nat} (hcapacity : capacity.isPowerOfTwo)
    (h : Reached (new capacity n) d) : d.Inv :=
  h.invariant (new_inv n (Nat.pos_of_isPowerOfTwo hcapacity))
    fun _ _ _ hinv _ hstep => step_inv hinv hstep

/-- The elements of the deque are in the slots of the indices from `top` on. -/
theorem Inv.stored (hd : d.Inv) {j id : Nat} (hj : d.present[j]? = some id) :
    d.cells[d.slot (d.top + j)]? = some ⟨d.pushed[id]?, .full, true⟩ :=
  hd.layout.held _ (List.mem_append_right _ (lay_getElem? d.top hj))

/-- A push writes a slot whose data has been read. -/
theorem Inv.read_of_pushWrite (hd : d.Inv) {value : α} {b : Int}
    (howner : d.owner = .pushWrite value b) {cell : Cell α}
    (hcell : d.cells[d.slot b]? = some cell) : cell.unread = false := by
  have hok := hd.owner
  rw [howner] at hok
  obtain ⟨-, old, hold⟩ := hok
  rw [hcell] at hold
  cases hold
  rfl

/-- Every element pushed is returned once, taken by a call under way or still
in the deque, where its slot has it; each has been taken by one steal or pop,
which returns it; no steal is busy after it has won; the steals take the elements in the order of
their pushes, a pop the newest one; and no push writes over unread data. -/
theorem elements_once {capacity n : Nat} (hcapacity : capacity.isPowerOfTwo)
    (h : Reached (new capacity n) d) :
    (d.returned.map (·.1) ++ d.taken ++ d.present).Perm (List.range d.pushed.length) ∧
    (∀ (j id : Nat), d.present[j]? = some id →
      d.cells[d.slot (d.top + j)]? = some ⟨d.pushed[id]?, .full, true⟩) ∧
    (d.owner = .idle → d.bottom = d.top + d.present.length) ∧
    (d.returned.map (·.1) ++ d.taken).Perm (d.stolen ++ d.popped.map (·.1)) ∧
    (∀ r ∈ d.returned, ∃ value, d.pushed[r.1]? = some value ∧ r.2 = some value) ∧
    d.stranded = [] ∧
    d.stolen.Pairwise (· < ·) ∧
    (∀ p ∈ d.popped, p.2.getLast? = some p.1 ∧ ∀ j ∈ p.2, j ≤ p.1) ∧
    (∀ value b cell, d.owner = .pushWrite value b → d.cells[d.slot b]? = some cell →
      cell.unread = false) := by
  have hd := reached_inv hcapacity h
  refine ⟨hd.ids, fun j id hj => hd.stored hj, ?_,
    (List.perm_append_right_iff _).mp (hd.ids.trans hd.sources.symm), ?_, hd.stranded, hd.stolen,
    hd.popped,
    fun value b cell howner hcell => hd.read_of_pushWrite howner hcell⟩
  · intro howner
    have hlength := hd.length
    rw [howner] at hlength
    exact (Int.add_zero _).symm.trans hlength.symm
  · intro r hr
    have hlt := hd.id_lt (.inl (List.mem_map_of_mem hr))
    refine ⟨d.pushed[r.1], List.getElem?_eq_getElem hlt, ?_⟩
    rw [hd.returned r hr]
    exact List.getElem?_eq_getElem hlt

/-- Two pushes, then a pop and a steal at once. -/
def popAndSteal : List (Action Nat) :=
  (Action.push 7 :: List.replicate 6 .owner) ++ (Action.push 8 :: List.replicate 6 .owner) ++
    [Action.steal 0, .pop, .stealer 0, .owner, .owner, .stealer 0, .owner, .owner, .stealer 0,
      .stealer 0, .owner, .stealer 0, .owner, .owner]

/-- Element 0 has gone to the steal and element 1, the last, to the pop. -/
def bothTaken : Deque Nat where
  bottom := 2
  top := 2
  cells := [⟨some 7, .free, false⟩, ⟨some 8, .free, false⟩, ⟨none, .free, false⟩,
    ⟨none, .free, false⟩]
  mask := 3
  owner := .idle
  stealers := [.idle]
  pushed := [7, 8]
  present := []
  returned := [(0, some 7), (1, some 8)]
  stolen := [0]
  popped := [(1, [1])]
  stranded := []

theorem bothTaken_reached : Reached (new 4 1) bothTaken :=
  reachable_of_run (fun _ _ => trivial) .start (show run step (new 4 1) popAndSteal = _ by decide)

theorem elements_once_bothTaken : ([0, 1] : List Nat).Perm (List.range 2) :=
  (elements_once ⟨2, rfl⟩ bothTaken_reached).1

end Deque

end ChaseLev

end Sxla
