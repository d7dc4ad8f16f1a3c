import Sxla.Anvil.Sharded

/-!
# What the tables of a shard hold

A slot holds a key while it is full and has the key's value, or had it until
a resize moved it out. Every table that was ever published stays ordered for
search, with the keys it holds; the current one holds all that are in the map.
The holder of the lock knows what it has seen on its way.
-/

namespace Sxla

open Transition

namespace Sharded

open LinearProbe

variable {V : Type}

def Slot.Held (c : Slot) (key : Nat) : Prop :=
  c.state = .full ∧ c.key = key ∧ (c.value ≠ none ∨ c.moved = true)

/-- A probe for `key` goes past the slot. -/
def Slot.Passed (c : Slot) (key : Nat) : Prop := c.state ≠ .empty ∧ c.key ≠ key

/-- No call is at work on the slot. -/
structure Slot.Settled (c : Slot) : Prop where
  reserved : c.state ≠ .reserved
  moved : c.moved = false
  full : c.state = .full ↔ c.value ≠ none

theorem Slot.Passed.not_held {c : Slot} {key : Nat} (h : c.Passed key) : ¬ c.Held key :=
  fun hheld => h.2 hheld.2.1

namespace Table

abbrev Ordered (t : Table) : Prop := LinearProbe.Ordered Slot.Held Slot.Passed t.slots t.mask

abbrev Ahead (t : Table) (key n : Nat) : Prop := LinearProbe.Ahead Slot.Held t.slots t.mask key n

abbrev seen (t : Table) (key j : Nat) : Option Slot := LinearProbe.seen t.slots t.mask key j

def Settled (t : Table) : Prop := ∀ c ∈ t.slots, c.Settled

/-- All slots but one. -/
def SettledBut (t : Table) (i : Nat) : Prop :=
  ∀ (j : Nat) (c : Slot), j ≠ i → t.slots[j]? = some c → c.Settled

/-- The slot may take `key`: a probe for it goes past all before. -/
def Vacant (t : Table) (key i : Nat) : Prop :=
  ∃ m ≤ t.mask, position t.mask key m = i ∧ ∀ j < m, ∀ d, t.seen key j = some d → d.Passed key

structure Ok (t : Table) : Prop where
  ordered : t.Ordered
  size : 8 ≤ t.mask + 1

/-- Past the last step nothing is ahead. -/
theorem not_ahead_end {t : Table} {key n : Nat} (h : t.mask < n) : ¬ t.Ahead key n := by
  rintro ⟨m, c, hn, hm, -⟩
  omega

end Table

-- ---------------------------------------------------------------------------
-- The map that a history leaves
-- ---------------------------------------------------------------------------

section

variable {key : Nat} {history : List Event}

theorem latest_append (events : List Event) :
    latest key (history ++ events) = events.foldl (Event.effect key) (latest key history) :=
  List.foldl_append

theorem latest_stored (box : Nat) : latest key (history ++ [Event.stored box]) = latest key history :=
  latest_append _

theorem latest_inserted (k box : Nat) :
    latest key (history ++ [Event.inserted k box]) = if k = key then some box else latest key history :=
  latest_append _

/-- What an overwrite adds. -/
theorem latest_overwritten (k box : Nat) (old : Option Nat) :
    latest key (history ++ (Event.stored box :: (old.map .retired).toList ++ [Event.inserted k box])) =
      if k = key then some box else latest key history := by
  rw [latest_append]
  cases old <;> rfl

theorem latest_removed (k : Nat) (old : Option Nat) :
    latest key (history ++ ((old.map Event.retired).toList ++ [Event.removed k])) =
      if k = key then none else latest key history := by
  rw [latest_append]
  cases old <;> rfl

end

-- ---------------------------------------------------------------------------
-- The shard
-- ---------------------------------------------------------------------------

/-- A box in a slot was made for the slot's key and stored; while the slot is
full, it is the one that the map holds for the key. -/
structure Owned (boxes : List (Nat × V)) (history : List Event) (c : Slot) (box : Nat) : Prop where
  key : ∃ value, boxes[box]? = some (c.key, value)
  stored : .stored box ∈ history
  latest : c.state = .full → latest c.key history = some box

theorem Owned.log {boxes : List (Nat × V)} {history : List Event} {events : List Event} {c : Slot}
    {box : Nat} (h : Owned boxes history c box)
    (hlatest : c.state = .full →
      Sharded.latest c.key (history ++ events) = Sharded.latest c.key history) :
    Owned boxes (history ++ events) c box := by
  refine ⟨h.key, List.mem_append_left _ h.stored, fun hfull => ?_⟩
  rw [hlatest hfull, h.latest hfull]

theorem Owned.box {boxes : List (Nat × V)} {history : List Event} {c : Slot} {box : Nat}
    (h : Owned boxes history c box) (more : List (Nat × V)) :
    Owned (boxes ++ more) history c box := by
  obtain ⟨value, hvalue⟩ := h.key
  refine ⟨⟨value, ?_⟩, h.stored, h.latest⟩
  rw [List.getElem?_append_left (List.getElem?_eq_some_iff.mp hvalue).1, hvalue]

namespace Shard

/-- `t` is the current table. -/
structure Base (s : Shard V) (t : Table) : Prop where
  current : s.tables[s.table]? = some t
  tables : ∀ (T : Nat) (u : Table), s.tables[T]? = some u → u.Ok
  old : ∀ (T : Nat) (u : Table), s.tables[T]? = some u → T ≠ s.table →
    ∀ c ∈ u.slots, c.value = none
  owned : ∀ c ∈ t.slots, ∀ box, c.value = some box → Owned s.boxes s.history c box
  listed : ∀ key, latest key s.history ≠ none → t.Ahead key 0

theorem Base.ok {s : Shard V} {t : Table} (h : s.Base t) : t.Ok := h.tables _ _ h.current

/-- What others may rely on while the holder of the lock takes a step. -/
structure Evolves (s s' : Shard V) : Prop where
  boxes : s.boxes <+: s'.boxes
  history : s.history <+: s'.history
  tables : ∀ (T : Nat) (t : Table), s.tables[T]? = some t →
    ∃ t', s'.tables[T]? = some t' ∧ t'.mask = t.mask ∧
      ∀ (i : Nat) (c : Slot), t.slots[i]? = some c →
        ∃ c', t'.slots[i]? = some c' ∧
          ∀ key, c.Held key → c'.Held key ∨ latest key s'.history = none

theorem Evolves.refl (s : Shard V) : s.Evolves s := by
  refine ⟨List.prefix_refl _, List.prefix_refl _, ?_⟩
  exact fun T t ht => ⟨t, ht, rfl, fun i c hc => ⟨c, hc, fun key hheld => .inl hheld⟩⟩

theorem access_eq_some {β : Type} {s : Shard V} {T i : Nat} {f : Table → Slot → β} {b : β} :
    s.access T i f = some b ↔
      ∃ t c, s.tables[T]? = some t ∧ t.slots[i]? = some c ∧ f t c = b := by
  unfold access
  constructor
  · intro h
    obtain ⟨t, ht, h⟩ := Option.bind_eq_some_iff.mp h
    obtain ⟨c, hc, h⟩ := Option.bind_eq_some_iff.mp h
    exact ⟨t, c, ht, hc, Option.some.inj h⟩
  · rintro ⟨t, c, ht, hc, rfl⟩
    rw [ht, Option.bind_eq_bind, Option.bind_some, hc]
    rfl

theorem log_nil (s : Shard V) : s.log [] = s := by
  rw [log, List.append_nil]

end Shard

-- ---------------------------------------------------------------------------
-- A slot of the current table changes
-- ---------------------------------------------------------------------------

/-- Slot `i` of the current table goes from `c` to `c'`, which adds `events` to
the history. -/
structure Change (s : Shard V) (t : Table) (i : Nat) (c c' : Slot) (events : List Event) : Prop where
  slot : t.slots[i]? = some c
  passed : ∀ key, t.Ahead key 0 → c.Passed key → c'.Passed key
  holds : ∀ key m, m ≤ t.mask → position t.mask key m = i → c'.Held key →
    c.Held key ∨ ∀ j < m, ∀ d, t.seen key j = some d → d.Passed key
  kept : ∀ key, c.Held key → c'.Held key ∨ latest key (s.history ++ events) = none
  owned : ∀ box, c'.value = some box → Owned s.boxes (s.history ++ events) c' box
  other : ∀ (j : Nat) (d : Slot), j ≠ i → t.slots[j]? = some d → ∀ key, d.Held key →
    latest key (s.history ++ events) = latest key s.history
  listed : ∀ key, latest key (s.history ++ events) ≠ none →
    c'.Held key ∨ latest key s.history ≠ none

namespace Change

variable {s : Shard V} {t : Table} {i : Nat} {c c' : Slot} {events : List Event}

theorem base (h : Change s t i c c' events) (hs : s.Base t) :
    ((s.store s.table t i c').log events).Base { t with slots := t.slots.set i c' } := by
  have hordered := hs.ok.ordered.set h.slot h.passed h.holds
  refine ⟨getElem?_set_of hs.current _, ?_, ?_, ?_, ?_⟩
  · intro T u hu
    rcases getElem?_set_cases hu with ⟨-, rfl⟩ | ⟨-, hu⟩
    · exact ⟨hordered, hs.ok.size⟩
    · exact hs.tables T u hu
  · intro T u hu hne
    rcases getElem?_set_cases hu with ⟨rfl, -⟩ | ⟨-, hu⟩
    · exact absurd rfl hne
    · exact hs.old T u hu hne
  · intro d hd box hbox
    obtain ⟨j, hj⟩ := List.mem_iff_getElem?.mp hd
    rcases getElem?_set_cases hj with ⟨-, rfl⟩ | ⟨hne, hj⟩
    · exact h.owned box hbox
    · refine (hs.owned d (List.mem_of_getElem? hj) box hbox).log ?_
      intro hfull
      refine h.other j d hne hj d.key ⟨hfull, rfl, .inl ?_⟩
      rw [hbox]
      exact Option.some_ne_none box
  · intro key hkey
    rcases h.listed key hkey with hheld | hbefore
    · exact hordered.ahead_of_getElem? (getElem?_set_of h.slot c') hheld
    · refine (hs.listed key hbefore).set h.slot fun hheld => ?_
      exact (h.kept key hheld).resolve_right hkey

theorem evolves (h : Change s t i c c' events) (hs : s.Base t) :
    s.Evolves ((s.store s.table t i c').log events) := by
  refine ⟨List.prefix_refl _, List.prefix_append _ _, ?_⟩
  intro T u hu
  by_cases hT : T = s.table
  · subst hT
    rw [hs.current] at hu
    cases hu
    refine ⟨_, getElem?_set_of hs.current _, rfl, ?_⟩
    intro j d hd
    by_cases hj : j = i
    · subst hj
      rw [h.slot] at hd
      cases hd
      exact ⟨c', getElem?_set_of h.slot c', h.kept⟩
    · refine ⟨d, ?_, fun key hheld => .inl hheld⟩
      rw [List.getElem?_set_ne (Ne.symm hj)]
      exact hd
  · refine ⟨u, ?_, rfl, fun j d hd => ⟨d, hd, fun key hheld => .inl hheld⟩⟩
    rw [Shard.log, Shard.store, List.getElem?_set_ne (Ne.symm hT)]
    exact hu

end Change

-- ---------------------------------------------------------------------------
-- The writer's own table
-- ---------------------------------------------------------------------------

namespace Table

variable {t : Table} {key i : Nat}

theorem place_spec (ht : t.Ordered) {n fuel : Nat} (key value : Nat) (hi : i = position t.mask key n)
    (hfuel : n + fuel = t.mask + 1)
    (hbefore : ∀ j < n, ∀ d, t.seen key j = some d → d.state ≠ .empty)
    (hroom : ∃ c ∈ t.slots, c.state = .empty) :
    ∃ m ≤ t.mask, ∃ c, t.seen key m = some c ∧ c.state = .empty ∧
      (∀ j < m, ∀ d, t.seen key j = some d → d.state ≠ .empty) ∧
      t.place key value i fuel =
        { t with slots := t.slots.set (position t.mask key m) ⟨.full, key, some value, false⟩ } := by
  induction fuel generalizing i n with
  | zero =>
    obtain ⟨c, hc, hempty⟩ := hroom
    obtain ⟨j, hj⟩ := List.mem_iff_getElem?.mp hc
    obtain ⟨m, hm, -, hseen⟩ := ht.exists_position hj key
    exact absurd hempty (hbefore m (by omega) c hseen)
  | succ fuel ih =>
    obtain ⟨c, hc⟩ := ht.exists_seen key n
    have hslot : t.slots[i]? = some c := by
      rw [hi]
      exact hc
    rw [place, hslot, Option.map_some]
    by_cases hempty : c.state = .empty
    · rw [hempty, if_pos rfl, hi]
      exact ⟨n, by omega, c, hc, hempty, hbefore, rfl⟩
    · rw [if_neg (fun h => hempty (Option.some.inj h))]
      refine ih (n := n + 1) ?_ (by omega) ?_
      · rw [hi]
        exact position_succ ht.pow key n
      · intro j hj d hd
        by_cases hjn : j = n
        · subst hjn
          cases Option.some.inj (hc.symm.trans hd)
          exact hempty
        · exact hbefore j (by omega) d hd

theorem new_ok {capacity : Nat} {t : Table} (h : Table.new capacity = .ok t) :
    t.Ok ∧ t.slots = List.replicate capacity ⟨.empty, 0, none, false⟩ ∧
      t.mask + 1 = capacity := by
  unfold Table.new at h
  split at h
  · cases h
  next hvalid =>
  rw [not_or, not_not, Nat.not_lt] at hvalid
  cases h
  have hmask : capacity - 1 + 1 = capacity := by omega
  refine ⟨⟨⟨?_, ?_, ?_⟩, ?_⟩, rfl, hmask⟩
  · rw [List.length_replicate, hmask]
  · rw [hmask]
    exact hvalid.1
  · intro key m c _ hc hheld
    have hempty := List.eq_of_mem_replicate (List.mem_of_getElem? hc)
    rw [hempty] at hheld
    cases hheld.1
  · rw [hmask]
    exact hvalid.2

theorem new_double {t : Table} (h : t.Ok) : ∃ u, Table.new ((t.mask + 1) * 2) = .ok u := by
  refine ⟨_, if_neg ?_⟩
  rw [not_or, not_not]
  exact ⟨Nat.isPowerOfTwo_mul_two_of_isPowerOfTwo h.ordered.pow, by have := h.size; omega⟩

theorem Vacant.set (h : t.Vacant key i) (hpow : (t.mask + 1).isPowerOfTwo) (c : Slot) :
    Vacant { t with slots := t.slots.set i c } key i := by
  obtain ⟨m, hm, hpos, hpassed⟩ := h
  refine ⟨m, hm, hpos, ?_⟩
  intro j hj d hd
  rcases seen_set hd with ⟨hpos', -⟩ | ⟨-, hd⟩
  · have hjm := position_inj hpow (by omega) hm (hpos'.trans hpos.symm)
    omega
  · exact hpassed j hj d hd

theorem SettledBut.set (h : t.SettledBut i) (c : Slot) :
    SettledBut { t with slots := t.slots.set i c } i := by
  intro j d hj hd
  rcases getElem?_set_cases hd with ⟨rfl, -⟩ | ⟨-, hd⟩
  · exact absurd rfl hj
  · exact h j d hj hd

theorem SettledBut.settled (h : t.SettledBut i) {c : Slot} (hc : c.Settled) :
    Settled { t with slots := t.slots.set i c } := by
  intro d hd
  obtain ⟨j, hj⟩ := List.mem_iff_getElem?.mp hd
  rcases getElem?_set_cases hj with ⟨-, rfl⟩ | ⟨hne, hj⟩
  · exact hc
  · exact h j d hne hj

theorem Settled.but (h : t.Settled) (i : Nat) : t.SettledBut i :=
  fun _ c _ hc => h c (List.mem_of_getElem? hc)

end Table

-- ---------------------------------------------------------------------------
-- What the holder of the lock knows
-- ---------------------------------------------------------------------------

/-- A probe of a writer, at step `n` and slot `i`. -/
structure Probing (s : Shard V) (t : Table) (key table i n : Nat) : Prop where
  table : table = s.table
  settled : t.Settled
  step : n ≤ t.mask
  position : i = position t.mask key n
  ahead : t.Ahead key 0 → t.Ahead key n

/-- What an insert has seen: no slot it may take, or the first one. -/
def Scanned (t : Table) (key n : Nat) : Option Nat → Prop
  | none => ∀ j < n, ∀ d, t.seen key j = some d → d.state = .full ∧ d.key ≠ key
  | some i => t.Vacant key i ∧ ∃ c, t.slots[i]? = some c ∧ c.state = .tombstone

/-- The slot that the writer takes for `key`. -/
structure Occupying (s : Shard V) (t : Table) (key table i : Nat) (c : Slot) : Prop where
  table : table = s.table
  slot : t.slots[i]? = some c
  vacant : t.Vacant key i
  absent : ¬ t.Ahead key 0
  others : t.SettledBut i

/-- The new table has the first `entries` of the old one, and the first
`taken` values have been moved out. -/
structure Copied (s : Shard V) (t new : Table) (entries taken : Nat) : Prop where
  ok : new.Ok
  mask : new.mask + 1 = (t.mask + 1) * 2
  full : ∀ c ∈ t.slots, c.state = .full
  moved : ∀ (i : Nat) (c : Slot), i < taken → t.slots[i]? = some c →
    c.value = none ∧ c.moved = true
  rest : ∀ (i : Nat) (c : Slot), taken ≤ i → t.slots[i]? = some c →
    c.value ≠ none ∧ c.moved = false
  settled : ∀ c ∈ new.slots, c.Settled ∧ c.state ≠ .tombstone
  count : new.slots.countP (·.state = .full) = entries
  owned : ∀ c ∈ new.slots, ∀ box, c.value = some box → Owned s.boxes s.history c box
  into : ∀ (i : Nat) (c : Slot), i < entries → t.slots[i]? = some c → new.Ahead c.key 0
  only : ∀ key, new.Ahead key 0 → ∃ (i : Nat) (c : Slot), i < entries ∧ t.slots[i]? = some c ∧
    c.key = key

/-- The box was made for the key of the call. -/
def Shard.BoxOf (s : Shard V) (key box : Nat) : Prop := ∃ value, s.boxes[box]? = some (key, value)

def Vacated (st : SlotState) : Prop := st = .empty ∨ st = .tombstone

/-- What the holder of the lock knows in each phase; `t` is the current table. -/
def Shard.At (s : Shard V) (t : Table) (key : Nat) : Writer → Prop
  | .insertTable box => t.Settled ∧ s.BoxOf key box
  | .insertState box table i n tombstone =>
    Probing s t key table i n ∧ Scanned t key n tombstone ∧ s.BoxOf key box
  | .insertKey box table i n tombstone =>
    Probing s t key table i n ∧ Scanned t key n tombstone ∧ s.BoxOf key box ∧
      ∃ c, t.slots[i]? = some c ∧ c.state = .full
  | .insertSwap box table i =>
    table = s.table ∧ t.Settled ∧ s.BoxOf key box ∧
      ∃ c, t.slots[i]? = some c ∧ c.state = .full ∧ c.key = key
  | .occupyLoad box table i => s.BoxOf key box ∧
    ∃ st k, Vacated st ∧ Occupying s t key table i ⟨st, k, none, false⟩
  | .occupyReserve box table i expect => s.BoxOf key box ∧ Vacated expect ∧
    ∃ k, Occupying s t key table i ⟨expect, k, none, false⟩
  | .occupyKey box table i => s.BoxOf key box ∧
    ∃ k, Occupying s t key table i ⟨.reserved, k, none, false⟩
  | .occupyValue box table i => s.BoxOf key box ∧
    Occupying s t key table i ⟨.reserved, key, none, false⟩
  | .occupyFull box table i => s.BoxOf key box ∧ .stored box ∈ s.history ∧
    Occupying s t key table i ⟨.reserved, key, some box, false⟩
  | .occupyLen _ => t.Settled
  | .resizeTable box => t.Settled ∧ s.BoxOf key box ∧ ∀ c ∈ t.slots, c.state = .full
  | .resizeState box table j new | .resizeSwap box table j new =>
    table = s.table ∧ s.BoxOf key box ∧ j < t.slots.length ∧ Copied s t new j j
  | .resizePlace box table j new value =>
    table = s.table ∧ s.BoxOf key box ∧ Copied s t new j (j + 1) ∧
      ∃ c, t.slots[j]? = some c ∧ Owned s.boxes s.history c value
  | .resizePublish box _ new =>
    s.BoxOf key box ∧ Copied s t new t.slots.length t.slots.length
  | .removeTable => t.Settled
  | .removeState table i n => Probing s t key table i n
  | .removeKey table i n =>
    Probing s t key table i n ∧ ∃ c, t.slots[i]? = some c ∧ c.state = .full
  | .removeSwap table i => table = s.table ∧ t.Settled ∧
    ∃ c, t.slots[i]? = some c ∧ c.state = .full ∧ c.key = key
  | .removeTombstone table i => table = s.table ∧ t.SettledBut i ∧
    ∃ k, t.slots[i]? = some ⟨.full, k, none, false⟩
  | .removeLen => t.Settled
  | .unlock result => t.Settled ∧ result = .ok ()

section

variable {s s' : Shard V} {t : Table} {key table i n box : Nat} {c : Slot}

theorem Shard.Base.access {β : Type} (hs : s.Base t) {f : Table → Slot → β} {b : β}
    (h : s.access s.table i f = some b) : ∃ c, t.slots[i]? = some c ∧ f t c = b := by
  obtain ⟨u, c, hu, hc, hf⟩ := Shard.access_eq_some.mp h
  cases Option.some.inj (hs.current.symm.trans hu)
  exact ⟨c, hc, hf⟩

theorem Shard.Base.access_eq {β : Type} (hs : s.Base t) (hc : t.slots[i]? = some c)
    (f : Table → Slot → β) : s.access s.table i f = some (f t c) :=
  Shard.access_eq_some.mpr ⟨t, c, hs.current, hc, rfl⟩

theorem Shard.Base.exists_slot (hs : s.Base t) (hi : i ≤ t.mask) : ∃ c, t.slots[i]? = some c := by
  have hlt : i < t.slots.length := by
    rw [hs.ok.ordered.size]
    omega
  exact ⟨_, List.getElem?_eq_getElem hlt⟩

theorem Table.Settled.at (h : t.Settled) (hc : t.slots[i]? = some c) : c.Settled :=
  h c (List.mem_of_getElem? hc)

theorem Slot.Settled.value_none (h : c.Settled) (hfull : c.state ≠ .full) : c.value = none := by
  by_contra hvalue
  exact hfull (h.full.mpr hvalue)

theorem Slot.Settled.held (h : c.Settled) (hfull : c.state = .full) (hkey : c.key = key) :
    c.Held key := ⟨hfull, hkey, .inl (h.full.mp hfull)⟩

theorem Table.Settled.vacated (h : t.Settled) (hc : t.slots[i]? = some c)
    (hfull : c.state ≠ .full) :
    Vacated c.state ∧ t.slots[i]? = some ⟨c.state, c.key, none, false⟩ := by
  have hsettled := h.at hc
  constructor
  · cases hst : c.state with
    | empty => exact .inl rfl
    | tombstone => exact .inr rfl
    | full => exact absurd hst hfull
    | reserved => exact absurd hst hsettled.reserved
  · rw [hc, ← hsettled.moved, ← hsettled.value_none hfull]

namespace Probing

theorem seen (h : Probing s t key table i n) (hc : t.slots[i]? = some c) :
    t.seen key n = some c := by
  rw [h.position] at hc
  exact hc

theorem exists_slot (h : Probing s t key table i n) (hs : s.Base t) :
    ∃ c, t.slots[i]? = some c := by
  refine hs.exists_slot ?_
  rw [h.position]
  exact Nat.le_of_lt_succ (position_lt key n)

theorem start (hsettled : t.Settled) :
    Probing s t key s.table (key &&& t.mask) 0 :=
  ⟨rfl, hsettled, Nat.zero_le _, rfl, id⟩

theorem ahead_succ (h : Probing s t key table i n) (hc : t.slots[i]? = some c)
    (hheld : ¬ c.Held key) : t.Ahead key 0 → t.Ahead key (n + 1) :=
  fun hahead => (h.ahead hahead).step (h.seen hc) hheld

theorem next (h : Probing s t key table i n) (hs : s.Base t) (hc : t.slots[i]? = some c)
    (hheld : ¬ c.Held key) (hn : n < t.mask) :
    Probing s t key table ((i + 1) &&& t.mask) (n + 1) := by
  refine ⟨h.table, h.settled, hn, ?_, h.ahead_succ hc hheld⟩
  rw [h.position]
  exact position_succ hs.ok.ordered.pow key n

theorem absent_of_end (h : Probing s t key table i n) (hc : t.slots[i]? = some c)
    (hheld : ¬ c.Held key) (hn : ¬ n < t.mask) : ¬ t.Ahead key 0 :=
  fun hahead => Table.not_ahead_end (by omega) (h.ahead_succ hc hheld hahead)

theorem absent_of_empty (h : Probing s t key table i n) (hs : s.Base t)
    (hc : t.slots[i]? = some c) (hempty : c.state = .empty) : ¬ t.Ahead key 0 := by
  intro hahead
  refine hs.ok.ordered.not_ahead (h.seen hc) (fun hpassed => hpassed.1 hempty) ?_ (h.ahead hahead)
  rintro ⟨hfull, -⟩
  rw [hempty] at hfull
  cases hfull

end Probing

theorem Scanned.vacant (h : Scanned t key n none) (hn : n ≤ t.mask)
    (hi : i = position t.mask key n) : t.Vacant key i := by
  refine ⟨n, hn, hi.symm, ?_⟩
  intro j hj d hd
  obtain ⟨hfull, hkey⟩ := h j hj d hd
  refine ⟨?_, hkey⟩
  rw [hfull]
  nofun

/-- The slot at step `n` is full, with another key. -/
theorem Scanned.full {tombstone : Option Nat} (h : Scanned t key n tombstone)
    (hc : t.seen key n = some c) (hfull : c.state = .full) (hkey : c.key ≠ key) :
    Scanned t key (n + 1) tombstone := by
  cases tombstone with
  | some _ => exact h
  | none =>
    intro j hj d hd
    by_cases hjn : j = n
    · subst hjn
      cases Option.some.inj (hc.symm.trans hd)
      exact ⟨hfull, hkey⟩
    · exact h j (by omega) d hd

theorem Scanned.tombstone {tombstone : Option Nat} (h : Scanned t key n tombstone)
    (hp : Probing s t key table i n) (hc : t.slots[i]? = some c) (hst : c.state = .tombstone) :
    Scanned t key (n + 1) (tombstone.or (some i)) := by
  cases tombstone with
  | some _ => exact h
  | none => exact ⟨h.vacant hp.step hp.position, c, hc, hst⟩

/-- An insert that has seen that its key is absent, and a slot that it may take. -/
theorem at_occupyLoad (hsettled : t.Settled) (hbox : s.BoxOf key box)
    (habsent : ¬ t.Ahead key 0) (hvacant : t.Vacant key i) (hc : t.slots[i]? = some c)
    (hfull : c.state ≠ .full) : s.At t key (.occupyLoad box s.table i) := by
  obtain ⟨hvacated, hslot⟩ := hsettled.vacated hc hfull
  exact ⟨hbox, c.state, c.key, hvacated, rfl, hslot, hvacant, habsent, hsettled.but i⟩

theorem at_insertNext {tombstone : Option Nat} (hs : s.Base t) (hp : Probing s t key table i n)
    (hscan : Scanned t key (n + 1) tombstone) (hbox : s.BoxOf key box)
    (hc : t.slots[i]? = some c) (hheld : ¬ c.Held key) :
    s.At t key (t.insertNext box table i n tombstone) := by
  unfold Table.insertNext
  split
  · next hn => exact ⟨hp.next hs hc hheld hn, hscan, hbox⟩
  · next hn =>
    have habsent := hp.absent_of_end hc hheld hn
    cases tombstone with
    | some target =>
      obtain ⟨hvacant, d, hd, hst⟩ := hscan
      rw [hp.table]
      refine at_occupyLoad hp.settled hbox habsent hvacant hd ?_
      rw [hst]
      nofun
    | none =>
      refine ⟨hp.settled, hbox, ?_⟩
      intro d hd
      obtain ⟨j, hj⟩ := List.mem_iff_getElem?.mp hd
      obtain ⟨m, hm, -, hseen⟩ := hs.ok.ordered.exists_position hj key
      exact (hscan m (by omega) d hseen).1

theorem at_removeNext (hs : s.Base t) (hp : Probing s t key table i n)
    (hc : t.slots[i]? = some c) (hheld : ¬ c.Held key) :
    s.At t key (t.removeNext table i n) := by
  unfold Table.removeNext
  split
  · next hn => exact hp.next hs hc hheld hn
  · exact ⟨hp.settled, rfl⟩

end

-- ---------------------------------------------------------------------------
-- The writes
-- ---------------------------------------------------------------------------

namespace Change

variable {s : Shard V} {t : Table} {i box key : Nat} {c c' : Slot} {events : List Event}

/-- The slot holds no key, before or after. -/
theorem unheld (hc : t.slots[i]? = some c) (hpassed : ∀ key, t.Ahead key 0 → c.Passed key → c'.Passed key)
    (hold : ∀ key, ¬ c.Held key) (hnew : ∀ key, ¬ c'.Held key)
    (howned : ∀ box, c'.value = some box → Owned s.boxes (s.history ++ events) c' box)
    (hlatest : ∀ key, latest key (s.history ++ events) = latest key s.history) :
    Change s t i c c' events where
  slot := hc
  passed := hpassed
  holds := fun key _ _ _ hheld => absurd hheld (hnew key)
  kept := fun key hheld => absurd hheld (hold key)
  owned := howned
  other := fun _ _ _ _ key _ => hlatest key
  listed := fun key hkey => .inr (hlatest key ▸ hkey)

theorem not_held_of_state {c : Slot} (h : c.state ≠ .full) (key : Nat) : ¬ c.Held key :=
  fun hheld => h hheld.1

theorem not_held_of_null {k : Nat} {st : SlotState} (key : Nat) :
    ¬ Slot.Held ⟨st, k, none, false⟩ key := by
  rintro ⟨-, -, hvalue | hmoved⟩
  · exact hvalue rfl
  · cases hmoved

theorem reserve {k : Nat} {expect : SlotState} (hc : t.slots[i]? = some ⟨expect, k, none, false⟩) :
    Change s t i ⟨expect, k, none, false⟩ ⟨.reserved, k, none, false⟩ [] := by
  refine unheld hc ?_ not_held_of_null not_held_of_null nofun (by simp)
  exact fun key _ hpassed => ⟨nofun, hpassed.2⟩

theorem storeKey {k : Nat} (hc : t.slots[i]? = some ⟨.reserved, k, none, false⟩)
    (habsent : ¬ t.Ahead key 0) :
    Change s t i ⟨.reserved, k, none, false⟩ ⟨.reserved, key, none, false⟩ [] := by
  refine unheld hc ?_ not_held_of_null not_held_of_null nofun (by simp)
  intro key' hahead _
  refine ⟨nofun, ?_⟩
  rintro rfl
  exact habsent hahead

theorem storeValue (hc : t.slots[i]? = some ⟨.reserved, key, none, false⟩)
    (hbox : s.BoxOf key box) :
    Change s t i ⟨.reserved, key, none, false⟩ ⟨.reserved, key, some box, false⟩ [.stored box] := by
  refine unheld hc (fun _ _ hpassed => hpassed) not_held_of_null
    (not_held_of_state nofun) ?_ (fun _ => latest_stored box)
  rintro _ ⟨rfl⟩
  exact ⟨hbox, by simp, nofun⟩

theorem tombstone {k : Nat} (hc : t.slots[i]? = some ⟨.full, k, none, false⟩) :
    Change s t i ⟨.full, k, none, false⟩ ⟨.tombstone, k, none, false⟩ [] := by
  refine unheld hc ?_ not_held_of_null not_held_of_null nofun (by simp)
  exact fun key _ hpassed => ⟨nofun, hpassed.2⟩

theorem publish (hs : s.Base t) (hc : t.slots[i]? = some ⟨.reserved, key, some box, false⟩)
    (hbox : s.BoxOf key box) (hstored : .stored box ∈ s.history) (hvacant : t.Vacant key i)
    (habsent : ¬ t.Ahead key 0) :
    Change s t i ⟨.reserved, key, some box, false⟩ ⟨.full, key, some box, false⟩
      [.inserted key box] where
  slot := hc
  passed := fun _ _ hpassed => ⟨nofun, hpassed.2⟩
  holds := by
    rintro _ m hm hpos ⟨-, rfl, -⟩
    obtain ⟨m', hm', hpos', hpassed⟩ := hvacant
    cases position_inj hs.ok.ordered.pow hm hm' (hpos.trans hpos'.symm)
    exact .inr hpassed
  kept := fun _ hheld => nomatch hheld.1
  owned := by
    rintro _ ⟨rfl⟩
    refine ⟨hbox, List.mem_append_left _ hstored, fun _ => ?_⟩
    rw [latest_inserted, if_pos rfl]
  other := by
    intro j d _ hd k hheld
    rw [latest_inserted, if_neg]
    rintro rfl
    exact habsent (hs.ok.ordered.ahead_of_getElem? hd hheld)
  listed := by
    intro k hk
    rw [latest_inserted] at hk
    by_cases hkey : key = k
    · exact .inl ⟨rfl, hkey, .inl nofun⟩
    · rw [if_neg hkey] at hk
      exact .inr hk

/-- No other slot holds the key. -/
theorem other_key (hs : s.Base t) {j k : Nat} {d : Slot} (hc : t.slots[i]? = some c)
    (hheld : c.Held key) (hj : j ≠ i) (hd : t.slots[j]? = some d) (hdheld : d.Held k) : key ≠ k := by
  rintro rfl
  exact hj (hs.ok.ordered.unique (fun _ _ hpassed => hpassed.not_held) hd hc hdheld hheld)

theorem overwrite (hs : s.Base t) (hc : t.slots[i]? = some c) (hheld : c.Held key)
    (hbox : s.BoxOf key box) :
    Change s t i c { c with value := some box }
      (Event.stored box :: (c.value.map .retired).toList ++ [Event.inserted key box]) where
  slot := hc
  passed := fun _ _ hpassed => hpassed
  holds := fun _ _ _ _ hheld' => .inl ⟨hheld'.1, hheld'.2.1, hheld.2.2⟩
  kept := fun _ hheld' => .inl ⟨hheld'.1, hheld'.2.1, .inl (Option.some_ne_none box)⟩
  owned := by
    rintro _ ⟨rfl⟩
    have hkey : c.key = key := hheld.2.1
    refine ⟨hkey ▸ hbox, by simp, fun _ => ?_⟩
    rw [latest_overwritten, if_pos hkey.symm]
  other := by
    intro j d hj hd k hdheld
    rw [latest_overwritten, if_neg (other_key hs hc hheld hj hd hdheld)]
  listed := by
    intro k hk
    rw [latest_overwritten] at hk
    by_cases hkey : key = k
    · exact .inl ⟨hheld.1, hheld.2.1.trans hkey, .inl (Option.some_ne_none box)⟩
    · rw [if_neg hkey] at hk
      exact .inr hk

theorem remove (hs : s.Base t) (hc : t.slots[i]? = some c) (hheld : c.Held key)
    (hmoved : c.moved = false) :
    Change s t i c { c with value := none } ((c.value.map Event.retired).toList ++ [Event.removed key]) where
  slot := hc
  passed := fun _ _ hpassed => hpassed
  holds := by
    rintro k m _ _ ⟨-, -, hvalue | hm⟩
    · exact absurd rfl hvalue
    · rw [hmoved] at hm
      cases hm
  kept := by
    intro k hk
    have hkey : key = k := hheld.2.1.symm.trans hk.2.1
    rw [latest_removed, if_pos hkey]
    exact .inr rfl
  owned := nofun
  other := by
    intro j d hj hd k hdheld
    rw [latest_removed, if_neg (other_key hs hc hheld hj hd hdheld)]
  listed := by
    intro k hk
    rw [latest_removed] at hk
    by_cases hkey : key = k
    · rw [if_pos hkey] at hk
      exact absurd rfl hk
    · rw [if_neg hkey] at hk
      exact .inr hk

theorem moveOut (hc : t.slots[i]? = some c) (hvalue : c.value ≠ none) :
    Change s t i c { c with value := none, moved := true } [] where
  slot := hc
  passed := fun _ _ hpassed => hpassed
  holds := fun _ _ _ _ hheld => .inl ⟨hheld.1, hheld.2.1, .inl hvalue⟩
  kept := fun _ hheld => .inl ⟨hheld.1, hheld.2.1, .inr rfl⟩
  owned := nofun
  other := fun _ _ _ _ _ _ => by rw [List.append_nil]
  listed := fun key hkey => .inr (by rwa [List.append_nil] at hkey)

/-- A change that adds nothing to the history. -/
theorem base_of_nil (h : Change s t i c c' []) (hs : s.Base t) :
    (s.store s.table t i c').Base { t with slots := t.slots.set i c' } := by
  rw [← Shard.log_nil (s.store s.table t i c')]
  exact h.base hs

theorem evolves_of_nil (h : Change s t i c c' []) (hs : s.Base t) :
    s.Evolves (s.store s.table t i c') := by
  rw [← Shard.log_nil (s.store s.table t i c')]
  exact h.evolves hs

end Change

/-- The slot that is being taken changes, and still does not hold the key. -/
theorem Occupying.set {s s' : Shard V} {t : Table} {key table i : Nat} {c : Slot}
    (h : Occupying s t key table i c) (hs : s.Base t) (htable : s'.table = s.table) {c' : Slot}
    (hheld : ¬ c'.Held key) :
    Occupying s' { t with slots := t.slots.set i c' } key table i c' := by
  refine ⟨h.table.trans htable.symm, getElem?_set_of h.slot c', h.vacant.set hs.ok.ordered.pow c',
    ?_, h.others.set c'⟩
  exact fun hahead => h.absent (hahead.of_set h.slot fun hheld' => absurd hheld' hheld)

-- ---------------------------------------------------------------------------
-- A resize
-- ---------------------------------------------------------------------------

namespace Copied

variable {s : Shard V} {t new : Table} {j value : Nat} {c : Slot}

/-- The next value is moved out of the old table. -/
theorem moveOut (h : Copied s t new j j) (hc : t.slots[j]? = some c) :
    Copied (s.store s.table t j { c with value := none, moved := true })
      { t with slots := t.slots.set j { c with value := none, moved := true } } new j (j + 1) := by
  have hbelow : ∀ (i : Nat) (d : Slot), i < j →
      ((t.slots.set j { c with value := none, moved := true })[i]? = some d ↔
        t.slots[i]? = some d) := by
    intro i d hi
    rw [List.getElem?_set_ne (by omega)]
  refine ⟨h.ok, h.mask, ?_, ?_, ?_, h.settled, h.count, h.owned, ?_, ?_⟩
  · intro d hd
    rcases mem_set_cases hd with rfl | hd
    · exact h.full c (List.mem_of_getElem? hc)
    · exact h.full d hd
  · intro i d hi hd
    rcases getElem?_set_cases hd with ⟨-, rfl⟩ | ⟨hne, hd⟩
    · exact ⟨rfl, rfl⟩
    · exact h.moved i d (by omega) hd
  · intro i d hi hd
    rw [List.getElem?_set_ne (by omega)] at hd
    exact h.rest i d (by omega) hd
  · exact fun i d hi hd => h.into i d hi ((hbelow i d hi).mp hd)
  · intro key hahead
    obtain ⟨i, d, hi, hd, hkey⟩ := h.only key hahead
    exact ⟨i, d, hi, (hbelow i d hi).mpr hd, hkey⟩

theorem held (h : Copied s t new j (j + 1)) {i : Nat} {d : Slot} (hd : t.slots[i]? = some d) :
    d.Held d.key := by
  refine ⟨h.full d (List.mem_of_getElem? hd), rfl, ?_⟩
  by_cases hi : i < j + 1
  · exact .inr (h.moved i d hi hd).2
  · exact .inl (h.rest i d (by omega) hd).1

theorem full_of_used {entries taken : Nat} (h : Copied s t new entries taken) {d : Slot}
    (hd : d ∈ new.slots) (hempty : d.state ≠ .empty) : d.state = .full := by
  obtain ⟨hsettled, htombstone⟩ := h.settled d hd
  cases hst : d.state with
  | full => rfl
  | empty => exact absurd hst hempty
  | reserved => exact absurd hst hsettled.reserved
  | tombstone => exact absurd hst htombstone

/-- There is room for one more. -/
theorem place_eq (h : Copied s t new j (j + 1)) (hs : s.Base t) (hc : t.slots[j]? = some c)
    (key value : Nat) :
    ∃ m ≤ new.mask, ∃ d, new.seen key m = some d ∧ d.state = .empty ∧
      (∀ i < m, ∀ e, new.seen key i = some e → e.state ≠ .empty) ∧
      new.place key value (key &&& new.mask) (new.mask + 1) = { new with
        slots := new.slots.set (position new.mask key m) ⟨.full, key, some value, false⟩ } := by
  have hj : j < t.mask + 1 := by
    rw [← hs.ok.ordered.size]
    exact (List.getElem?_eq_some_iff.mp hc).1
  have hroom : ∃ d ∈ new.slots, d.state = .empty := by
    by_contra hnone
    have hall : new.slots.countP (·.state = .full) = new.slots.length := by
      refine List.countP_eq_length.mpr fun d hd => ?_
      exact decide_eq_true (h.full_of_used hd fun hempty => hnone ⟨d, hd, hempty⟩)
    rw [h.count, h.ok.ordered.size, h.mask] at hall
    omega
  have hstart : key &&& new.mask = position new.mask key 0 := rfl
  exact Table.place_spec h.ok.ordered key value hstart (Nat.zero_add _)
    (fun i hi => absurd hi (Nat.not_lt_zero i)) hroom

/-- The entry is placed in the new table. -/
theorem place (h : Copied s t new j (j + 1)) (hs : s.Base t) (hc : t.slots[j]? = some c)
    (howned : Owned s.boxes s.history c value) :
    Copied s t (new.place c.key value (c.key &&& new.mask) (new.mask + 1)) (j + 1) (j + 1) := by
  have habsent : ¬ new.Ahead c.key 0 := by
    intro hahead
    obtain ⟨i, d, hi, hd, hkey⟩ := h.only c.key hahead
    have hdheld := h.held hd
    rw [hkey] at hdheld
    have hij := hs.ok.ordered.unique (fun _ _ hpassed => hpassed.not_held) hd hc hdheld (h.held hc)
    omega
  obtain ⟨m, hm, d, hd, hempty, hbefore, hplace⟩ := h.place_eq hs hc c.key value
  rw [hplace]
  have hslot : new.slots[position new.mask c.key m]? = some d := hd
  have hdheld : ∀ key, ¬ d.Held key := fun key hheld => by
    rw [Slot.Held, hempty] at hheld
    cases hheld.1
  have hordered : LinearProbe.Ordered Slot.Held Slot.Passed
      (new.slots.set (position new.mask c.key m) ⟨.full, c.key, some value, false⟩) new.mask := by
    refine h.ok.ordered.set hslot ?_ ?_
    · exact fun key _ hpassed => absurd hempty hpassed.1
    · rintro key m' hm' hpos ⟨-, rfl, -⟩
      cases position_inj h.ok.ordered.pow hm' hm hpos
      refine .inr fun i hi e he => ⟨hbefore i hi e he, fun hkey => habsent ?_⟩
      have hmem := List.mem_of_getElem? he
      exact h.ok.ordered.ahead_of_getElem? he
        ((h.settled e hmem).1.held (h.full_of_used hmem (hbefore i hi e he)) hkey)
  refine ⟨⟨hordered, h.ok.size⟩, h.mask, h.full, h.moved, h.rest, ?_, ?_, ?_, ?_, ?_⟩
  · intro e he
    rcases mem_set_cases he with rfl | he
    · exact ⟨⟨nofun, rfl, ⟨fun _ => nofun, fun _ => rfl⟩⟩, nofun⟩
    · exact h.settled e he
  · have hcount := countP_set (·.state = .full) hslot ⟨.full, c.key, some value, false⟩
    simp [hempty, h.count] at hcount
    exact hcount
  · intro e he box hbox
    rcases mem_set_cases he with rfl | he
    · cases hbox
      exact ⟨howned.key, howned.stored, fun _ => howned.latest (h.full c (List.mem_of_getElem? hc))⟩
    · exact h.owned e he box hbox
  · intro i e hi he
    by_cases hij : i = j
    · subst hij
      cases Option.some.inj (hc.symm.trans he)
      exact hordered.ahead_of_getElem? (getElem?_set_of hslot _) ⟨rfl, rfl, .inl nofun⟩
    · exact (h.into i e (by omega) he).set hslot fun hheld => absurd hheld (hdheld _)
  · intro key hahead
    by_cases hkey : c.key = key
    · exact ⟨j, c, Nat.lt_succ_self j, hc, hkey⟩
    · have hbefore := hahead.of_set hslot fun hheld => absurd hheld.2.1 hkey
      obtain ⟨i, e, hi, he, hek⟩ := h.only key hbefore
      exact ⟨i, e, by omega, he, hek⟩

theorem settled_new {entries taken : Nat} (h : Copied s t new entries taken) : new.Settled :=
  fun d hd => (h.settled d hd).1

/-- Before the first entry. -/
theorem start (hsettled : t.Settled) (hfull : ∀ c ∈ t.slots, c.state = .full)
    (hnew : Table.new ((t.mask + 1) * 2) = .ok new) : Copied s t new 0 0 := by
  obtain ⟨hok, hslots, hmask⟩ := Table.new_ok hnew
  have hempty : ∀ c ∈ new.slots, c = ⟨.empty, 0, none, false⟩ := by
    rw [hslots]
    exact fun c hc => List.eq_of_mem_replicate hc
  refine ⟨hok, hmask, hfull, fun i c hi => absurd hi (Nat.not_lt_zero i), ?_, ?_, ?_, ?_,
    fun i c hi => absurd hi (Nat.not_lt_zero i), ?_⟩
  · intro i c _ hc
    have hc := List.mem_of_getElem? hc
    exact ⟨(hsettled c hc).full.mp (hfull c hc), (hsettled c hc).moved⟩
  · intro c hc
    rw [hempty c hc]
    exact ⟨⟨nofun, rfl, ⟨nofun, fun hvalue => absurd rfl hvalue⟩⟩, nofun⟩
  · rw [List.countP_eq_zero]
    intro c hc
    rw [hempty c hc]
    decide
  · intro c hc box hbox
    rw [hempty c hc] at hbox
    cases hbox
  · rintro key ⟨m, c, -, -, hc, hheld⟩
    rw [hempty c (List.mem_of_getElem? hc)] at hheld
    cases hheld.1

theorem next (h : Copied s t new (j + 1) (j + 1)) {key box : Nat} (hbox : s.BoxOf key box)
    (hc : t.slots[j]? = some c) :
    s.At t key (t.resizeNext box s.table j new) := by
  have hlt := (List.getElem?_eq_some_iff.mp hc).1
  unfold Table.resizeNext
  split
  · next hj => exact ⟨rfl, hbox, hj, h⟩
  · next hj =>
    have hlen : t.slots.length = j + 1 := by omega
    refine ⟨hbox, ?_⟩
    rw [hlen]
    exact h

end Copied

/-- The new table takes the place of the old one, which has no values left. -/
theorem Shard.Base.swap {s : Shard V} {t new : Table} (hs : s.Base t)
    (h : Copied s t new t.slots.length t.slots.length) :
    Shard.Base { s with tables := s.tables ++ [new], table := s.tables.length } new := by
  have hnew : (s.tables ++ [new])[s.tables.length]? = some new := by
    rw [List.getElem?_append_right (Nat.le_refl _), Nat.sub_self]
    rfl
  have hcases : ∀ (T : Nat) (u : Table), (s.tables ++ [new])[T]? = some u →
      (T = s.tables.length ∧ u = new) ∨ s.tables[T]? = some u := by
    intro T u hu
    rcases Nat.lt_trichotomy T s.tables.length with hT | rfl | hT
    · rw [List.getElem?_append_left hT] at hu
      exact .inr hu
    · rw [hnew] at hu
      exact .inl ⟨rfl, (Option.some.inj hu).symm⟩
    · rw [List.getElem?_eq_none (by rw [List.length_append, List.length_singleton]; omega)] at hu
      cases hu
  refine ⟨hnew, ?_, ?_, h.owned, ?_⟩
  · intro T u hu
    rcases hcases T u hu with ⟨-, rfl⟩ | hu
    · exact h.ok
    · exact hs.tables T u hu
  · intro T u hu hne c hc
    rcases hcases T u hu with ⟨hT, -⟩ | hu
    · exact absurd hT hne
    · by_cases hT : T = s.table
      · subst hT
        cases Option.some.inj (hs.current.symm.trans hu)
        obtain ⟨i, hi⟩ := List.mem_iff_getElem?.mp hc
        exact (h.moved i c (List.getElem?_eq_some_iff.mp hi).1 hi).1
      · exact hs.old T u hu hT c hc
  · intro key hkey
    obtain ⟨m, c, -, -, hc, hheld⟩ := hs.listed key hkey
    have hahead := h.into _ c (List.getElem?_eq_some_iff.mp hc).1 hc
    rwa [hheld.2.1] at hahead

theorem Shard.Evolves.publish (s : Shard V) (new : Table) :
    s.Evolves { s with tables := s.tables ++ [new], table := s.tables.length } := by
  refine ⟨List.prefix_refl _, List.prefix_refl _, ?_⟩
  intro T t ht
  refine ⟨t, ?_, rfl, fun i c hc => ⟨c, hc, fun key hheld => .inl hheld⟩⟩
  rw [List.getElem?_append_left (List.getElem?_eq_some_iff.mp ht).1]
  exact ht

-- ---------------------------------------------------------------------------
-- One access of the holder of the lock
-- ---------------------------------------------------------------------------

namespace Shard

/-- The accesses of the holder of the lock, with what each has found. -/
inductive Wrote (s : Shard V) (t : Table) (key : Nat) : Writer → Shard V → Writer → Prop
  | insertTable {box : Nat} (hsettled : t.Settled) (hbox : s.BoxOf key box) :
    Wrote s t key (.insertTable box) s (.insertState box s.table (key &&& t.mask) 0 none)
  | insertEmpty {box i n : Nat} {tombstone : Option Nat} {c : Slot}
    (hp : Probing s t key s.table i n) (hscan : Scanned t key n tombstone)
    (hbox : s.BoxOf key box) (hc : t.slots[i]? = some c) (hst : c.state = .empty) :
    Wrote s t key (.insertState box s.table i n tombstone) s
      (.occupyLoad box s.table (tombstone.getD i))
  | insertFull {box i n : Nat} {tombstone : Option Nat} {c : Slot}
    (hp : Probing s t key s.table i n) (hscan : Scanned t key n tombstone)
    (hbox : s.BoxOf key box) (hc : t.slots[i]? = some c) (hst : c.state = .full) :
    Wrote s t key (.insertState box s.table i n tombstone) s
      (.insertKey box s.table i n tombstone)
  | insertTombstone {box i n : Nat} {tombstone : Option Nat} {c : Slot}
    (hp : Probing s t key s.table i n) (hscan : Scanned t key n tombstone)
    (hbox : s.BoxOf key box) (hc : t.slots[i]? = some c) (hst : c.state = .tombstone) :
    Wrote s t key (.insertState box s.table i n tombstone) s
      (t.insertNext box s.table i n (tombstone.or (some i)))
  | insertSame {box i n : Nat} {tombstone : Option Nat} {c : Slot}
    (hp : Probing s t key s.table i n) (hbox : s.BoxOf key box) (hc : t.slots[i]? = some c)
    (hst : c.state = .full) (hkey : c.key = key) :
    Wrote s t key (.insertKey box s.table i n tombstone) s (.insertSwap box s.table i)
  | insertOther {box i n : Nat} {tombstone : Option Nat} {c : Slot}
    (hp : Probing s t key s.table i n) (hscan : Scanned t key n tombstone)
    (hbox : s.BoxOf key box) (hc : t.slots[i]? = some c) (hst : c.state = .full)
    (hkey : c.key ≠ key) :
    Wrote s t key (.insertKey box s.table i n tombstone) s
      (t.insertNext box s.table i n tombstone)
  | insertSwap {box i : Nat} {c : Slot} (hsettled : t.Settled) (hbox : s.BoxOf key box)
    (hc : t.slots[i]? = some c) (hst : c.state = .full) (hkey : c.key = key) :
    Wrote s t key (.insertSwap box s.table i)
      ((s.store s.table t i { c with value := some box }).log
        (Event.stored box :: (c.value.map .retired).toList ++ [Event.inserted key box]))
      (.unlock (.ok ()))
  | occupyLoad {box i k : Nat} {st : SlotState} (hbox : s.BoxOf key box) (hvacated : Vacated st)
    (ho : Occupying s t key s.table i ⟨st, k, none, false⟩) :
    Wrote s t key (.occupyLoad box s.table i) s (.occupyReserve box s.table i st)
  | occupyReserve {box i k : Nat} {st : SlotState} (hbox : s.BoxOf key box)
    (ho : Occupying s t key s.table i ⟨st, k, none, false⟩) :
    Wrote s t key (.occupyReserve box s.table i st)
      (s.store s.table t i ⟨.reserved, k, none, false⟩) (.occupyKey box s.table i)
  | occupyKey {box i k : Nat} (hbox : s.BoxOf key box)
    (ho : Occupying s t key s.table i ⟨.reserved, k, none, false⟩) :
    Wrote s t key (.occupyKey box s.table i)
      (s.store s.table t i ⟨.reserved, key, none, false⟩) (.occupyValue box s.table i)
  | occupyValue {box i : Nat} (hbox : s.BoxOf key box)
    (ho : Occupying s t key s.table i ⟨.reserved, key, none, false⟩) :
    Wrote s t key (.occupyValue box s.table i)
      ((s.store s.table t i ⟨.reserved, key, some box, false⟩).log [.stored box])
      (.occupyFull box s.table i)
  | occupyFull {box i : Nat} (hbox : s.BoxOf key box) (hstored : .stored box ∈ s.history)
    (ho : Occupying s t key s.table i ⟨.reserved, key, some box, false⟩) :
    Wrote s t key (.occupyFull box s.table i)
      ((s.store s.table t i ⟨.full, key, some box, false⟩).log [.inserted key box])
      (.occupyLen box)
  | occupyLen {box : Nat} (hsettled : t.Settled) :
    Wrote s t key (.occupyLen box) s (.unlock (.ok ()))
  | resizeTable {box : Nat} {new : Table} (hsettled : t.Settled) (hbox : s.BoxOf key box)
    (hfull : ∀ c ∈ t.slots, c.state = .full) (hnew : Table.new ((t.mask + 1) * 2) = .ok new) :
    Wrote s t key (.resizeTable box) s (.resizeState box s.table 0 new)
  | resizeState {box j : Nat} {new : Table} (hbox : s.BoxOf key box) (hj : j < t.slots.length)
    (hcopied : Copied s t new j j) :
    Wrote s t key (.resizeState box s.table j new) s (.resizeSwap box s.table j new)
  | resizeSwap {box j value : Nat} {new : Table} {c : Slot} (hbox : s.BoxOf key box)
    (hcopied : Copied s t new j j) (hc : t.slots[j]? = some c) (hvalue : c.value = some value) :
    Wrote s t key (.resizeSwap box s.table j new)
      (s.store s.table t j { c with value := none, moved := true })
      (.resizePlace box s.table j new value)
  | resizePlace {box j value : Nat} {new : Table} {c : Slot} (hbox : s.BoxOf key box)
    (hcopied : Copied s t new j (j + 1)) (hc : t.slots[j]? = some c)
    (howned : Owned s.boxes s.history c value) :
    Wrote s t key (.resizePlace box s.table j new value) s
      (t.resizeNext box s.table j (new.place c.key value (c.key &&& new.mask) (new.mask + 1)))
  | resizePublish {box table : Nat} {new : Table} (hbox : s.BoxOf key box)
    (hcopied : Copied s t new t.slots.length t.slots.length) :
    Wrote s t key (.resizePublish box table new)
      { s with tables := s.tables ++ [new], table := s.tables.length } (.insertTable box)
  | removeTable (hsettled : t.Settled) :
    Wrote s t key .removeTable s (.removeState s.table (key &&& t.mask) 0)
  | removeEmpty {i n : Nat} {c : Slot} (hp : Probing s t key s.table i n)
    (hc : t.slots[i]? = some c) (hst : c.state = .empty) :
    Wrote s t key (.removeState s.table i n) s (.unlock (.ok ()))
  | removeFull {i n : Nat} {c : Slot} (hp : Probing s t key s.table i n)
    (hc : t.slots[i]? = some c) (hst : c.state = .full) :
    Wrote s t key (.removeState s.table i n) s (.removeKey s.table i n)
  | removeVacated {i n : Nat} {c : Slot} (hp : Probing s t key s.table i n)
    (hc : t.slots[i]? = some c) (hst : c.state ≠ .full) :
    Wrote s t key (.removeState s.table i n) s (t.removeNext s.table i n)
  | removeSame {i n : Nat} {c : Slot} (hp : Probing s t key s.table i n)
    (hc : t.slots[i]? = some c) (hst : c.state = .full) (hkey : c.key = key) :
    Wrote s t key (.removeKey s.table i n) s (.removeSwap s.table i)
  | removeOther {i n : Nat} {c : Slot} (hp : Probing s t key s.table i n)
    (hc : t.slots[i]? = some c) (hkey : c.key ≠ key) :
    Wrote s t key (.removeKey s.table i n) s (t.removeNext s.table i n)
  | removeSwap {i : Nat} {c : Slot} (hsettled : t.Settled) (hc : t.slots[i]? = some c)
    (hst : c.state = .full) (hkey : c.key = key) :
    Wrote s t key (.removeSwap s.table i)
      ((s.store s.table t i { c with value := none }).log
        ((c.value.map .retired).toList ++ [.removed key]))
      (.removeTombstone s.table i)
  | removeTombstone {i k : Nat} (hothers : t.SettledBut i)
    (hc : t.slots[i]? = some ⟨.full, k, none, false⟩) :
    Wrote s t key (.removeTombstone s.table i)
      (s.store s.table t i ⟨.tombstone, k, none, false⟩) .removeLen
  | removeLen (hsettled : t.Settled) : Wrote s t key .removeLen s (.unlock (.ok ()))

variable {s s' : Shard V} {t : Table} {key : Nat} {writer writer' : Writer}

/-- The holder of the lock can take its next access, which is one of those. -/
theorem Base.exists_wrote (hs : s.Base t) (hat : s.At t key writer)
    (hne : ∀ result, writer ≠ .unlock result) :
    ∃ s' writer', s.write key writer = some (s', writer') ∧
      Wrote s t key writer s' writer' := by
  cases writer with
  | insertTable box =>
    refine ⟨_, _, ?_, .insertTable hat.1 hat.2⟩
    rw [write, hs.current]
  | insertState box table i n tombstone =>
    obtain ⟨hp, hscan, hbox⟩ := hat
    cases hp.table
    obtain ⟨c, hc⟩ := hp.exists_slot hs
    cases hst : c.state with
    | empty =>
      refine ⟨_, _, ?_, .insertEmpty hp hscan hbox hc hst⟩
      simp only [write, hs.access_eq hc, hst]
    | full =>
      refine ⟨_, _, ?_, .insertFull hp hscan hbox hc hst⟩
      simp only [write, hs.access_eq hc, hst]
    | tombstone =>
      refine ⟨_, _, ?_, .insertTombstone hp hscan hbox hc hst⟩
      simp only [write, hs.access_eq hc, hst]
    | reserved => exact absurd hst (hp.settled.at hc).reserved
  | insertKey box table i n tombstone =>
    obtain ⟨hp, hscan, hbox, c, hc, hst⟩ := hat
    cases hp.table
    by_cases hkey : c.key = key
    · refine ⟨_, _, ?_, .insertSame hp hbox hc hst hkey⟩
      simp only [write, hs.access_eq hc, if_pos hkey]
    · refine ⟨_, _, ?_, .insertOther hp hscan hbox hc hst hkey⟩
      simp only [write, hs.access_eq hc, if_neg hkey]
  | insertSwap box table i =>
    obtain ⟨rfl, hsettled, hbox, c, hc, hst, hkey⟩ := hat
    exact ⟨_, _, hs.access_eq hc _, .insertSwap hsettled hbox hc hst hkey⟩
  | occupyLoad box table i =>
    obtain ⟨hbox, st, k, hvacated, ho⟩ := hat
    cases ho.table
    refine ⟨_, _, ?_, .occupyLoad hbox hvacated ho⟩
    simp only [write, hs.access_eq ho.slot]
    rw [if_neg (by rintro ⟨hempty, htomb⟩; exact hvacated.elim hempty htomb)]
  | occupyReserve box table i expect =>
    obtain ⟨hbox, -, k, ho⟩ := hat
    cases ho.table
    refine ⟨_, _, ?_, .occupyReserve hbox ho⟩
    simp only [write, hs.access_eq ho.slot, if_true]
  | occupyKey box table i =>
    obtain ⟨hbox, k, ho⟩ := hat
    cases ho.table
    exact ⟨_, _, hs.access_eq ho.slot _, .occupyKey hbox ho⟩
  | occupyValue box table i =>
    obtain ⟨hbox, ho⟩ := hat
    cases ho.table
    exact ⟨_, _, hs.access_eq ho.slot _, .occupyValue hbox ho⟩
  | occupyFull box table i =>
    obtain ⟨hbox, hstored, ho⟩ := hat
    cases ho.table
    exact ⟨_, _, hs.access_eq ho.slot _, .occupyFull hbox hstored ho⟩
  | occupyLen box => exact ⟨_, _, rfl, .occupyLen hat⟩
  | resizeTable box =>
    obtain ⟨hsettled, hbox, hfull⟩ := hat
    obtain ⟨new, hnew⟩ := Table.new_double hs.ok
    refine ⟨_, _, ?_, .resizeTable hsettled hbox hfull hnew⟩
    simp only [write, hs.current, hnew]
  | resizeState box table j new =>
    obtain ⟨rfl, hbox, hj, hcopied⟩ := hat
    obtain ⟨c, hc⟩ := hs.exists_slot (Nat.le_of_lt_succ (hs.ok.ordered.size ▸ hj))
    refine ⟨_, _, ?_, .resizeState hbox hj hcopied⟩
    simp only [write, hs.access_eq hc, if_pos (hcopied.full c (List.mem_of_getElem? hc))]
  | resizeSwap box table j new =>
    obtain ⟨rfl, hbox, hj, hcopied⟩ := hat
    obtain ⟨c, hc⟩ := hs.exists_slot (Nat.le_of_lt_succ (hs.ok.ordered.size ▸ hj))
    obtain ⟨value, hvalue⟩ :=
      Option.ne_none_iff_exists'.mp (hcopied.rest j c (Nat.le_refl j) hc).1
    refine ⟨_, _, ?_, .resizeSwap hbox hcopied hc hvalue⟩
    simp only [write, hs.access_eq hc, hvalue]
  | resizePlace box table j new value =>
    obtain ⟨rfl, hbox, hcopied, c, hc, howned⟩ := hat
    exact ⟨_, _, hs.access_eq hc _, .resizePlace hbox hcopied hc howned⟩
  | resizePublish box table new => exact ⟨_, _, rfl, .resizePublish hat.1 hat.2⟩
  | removeTable =>
    refine ⟨_, _, ?_, .removeTable hat⟩
    rw [write, hs.current]
  | removeState table i n =>
    cases hat.table
    obtain ⟨c, hc⟩ := hat.exists_slot hs
    cases hst : c.state with
    | empty =>
      refine ⟨_, _, ?_, .removeEmpty hat hc hst⟩
      simp only [write, hs.access_eq hc, hst]
    | full =>
      refine ⟨_, _, ?_, .removeFull hat hc hst⟩
      simp only [write, hs.access_eq hc, hst]
    | reserved | tombstone =>
      refine ⟨_, _, ?_, .removeVacated hat hc (by rw [hst]; nofun)⟩
      simp only [write, hs.access_eq hc, hst]
  | removeKey table i n =>
    obtain ⟨hp, c, hc, hst⟩ := hat
    cases hp.table
    by_cases hkey : c.key = key
    · refine ⟨_, _, ?_, .removeSame hp hc hst hkey⟩
      simp only [write, hs.access_eq hc, if_pos hkey]
    · refine ⟨_, _, ?_, .removeOther hp hc hkey⟩
      simp only [write, hs.access_eq hc, if_neg hkey]
  | removeSwap table i =>
    obtain ⟨rfl, hsettled, c, hc, hst, hkey⟩ := hat
    exact ⟨_, _, hs.access_eq hc _, .removeSwap hsettled hc hst hkey⟩
  | removeTombstone table i =>
    obtain ⟨rfl, hothers, k, hc⟩ := hat
    exact ⟨_, _, hs.access_eq hc _, .removeTombstone hothers hc⟩
  | removeLen => exact ⟨_, _, rfl, .removeLen hat⟩
  | unlock result => exact absurd rfl (hne result)

theorem Base.wrote (hs : s.Base t) (hat : s.At t key writer)
    (hw : s.write key writer = some (s', writer')) : Wrote s t key writer s' writer' := by
  have hne : ∀ result, writer ≠ .unlock result := by
    rintro result rfl
    cases hw
  obtain ⟨_, _, hw', hwrote⟩ := hs.exists_wrote hat hne
  cases Option.some.inj (hw.symm.trans hw')
  exact hwrote

/-- The table that the access leaves, with what the holder knows of it. -/
theorem Wrote.sound (h : Wrote s t key writer s' writer') (hs : s.Base t) :
    s.Evolves s' ∧ ∃ t', s'.Base t' ∧ s'.At t' key writer' := by
  cases h with
  | insertTable hsettled hbox =>
    exact ⟨.refl s, t, hs, .start hsettled, fun j hj => absurd hj (Nat.not_lt_zero j), hbox⟩
  | @insertEmpty _ _ _ tombstone _ hp hscan hbox hc hst =>
    refine ⟨.refl s, t, hs, ?_⟩
    have habsent := hp.absent_of_empty hs hc hst
    cases tombstone with
    | none =>
      refine at_occupyLoad hp.settled hbox habsent (hscan.vacant hp.step hp.position) hc ?_
      rw [hst]
      nofun
    | some target =>
      obtain ⟨hvacant, d, hd, hdst⟩ := hscan
      refine at_occupyLoad hp.settled hbox habsent hvacant hd ?_
      rw [hdst]
      nofun
  | insertFull hp hscan hbox hc hst => exact ⟨.refl s, t, hs, hp, hscan, hbox, _, hc, hst⟩
  | insertTombstone hp hscan hbox hc hst =>
    refine ⟨.refl s, t, hs, at_insertNext hs hp (hscan.tombstone hp hc hst) hbox hc ?_⟩
    exact Change.not_held_of_state (by rw [hst]; nofun) key
  | insertSame hp hbox hc hst hkey =>
    exact ⟨.refl s, t, hs, rfl, hp.settled, hbox, _, hc, hst, hkey⟩
  | insertOther hp hscan hbox hc hst hkey =>
    refine ⟨.refl s, t, hs, ?_⟩
    exact at_insertNext hs hp (hscan.full (hp.seen hc) hst hkey) hbox hc (fun hheld => hkey hheld.2.1)
  | @insertSwap _ i _ hsettled hbox hc hst hkey =>
    have hchange := Change.overwrite hs hc ((hsettled.at hc).held hst hkey) hbox
    refine ⟨hchange.evolves hs, _, hchange.base hs, ?_, rfl⟩
    exact (hsettled.but i).settled
      ⟨(hsettled.at hc).reserved, (hsettled.at hc).moved, ⟨fun _ => nofun, fun _ => hst⟩⟩
  | occupyLoad hbox hvacated ho => exact ⟨.refl s, t, hs, hbox, hvacated, _, ho⟩
  | occupyReserve hbox ho =>
    have hchange := Change.reserve (s := s) ho.slot
    refine ⟨hchange.evolves_of_nil hs, _, hchange.base_of_nil hs, hbox, _, ho.set hs ?_ ?_⟩
    · rfl
    · exact Change.not_held_of_null key
  | occupyKey hbox ho =>
    have hchange := Change.storeKey (s := s) ho.slot ho.absent
    refine ⟨hchange.evolves_of_nil hs, _, hchange.base_of_nil hs, hbox, ho.set hs ?_ ?_⟩
    · rfl
    · exact Change.not_held_of_null key
  | occupyValue hbox ho =>
    have hchange := Change.storeValue ho.slot hbox
    refine ⟨hchange.evolves hs, _, hchange.base hs, hbox, ?_, ho.set hs ?_ ?_⟩
    · exact List.mem_append_right _ (List.mem_singleton_self _)
    · rfl
    · exact fun hheld => nomatch hheld.1
  | occupyFull hbox hstored ho =>
    have hchange := Change.publish hs ho.slot hbox hstored ho.vacant ho.absent
    refine ⟨hchange.evolves hs, _, hchange.base hs, ho.others.settled ?_⟩
    exact ⟨nofun, rfl, ⟨fun _ => nofun, fun _ => rfl⟩⟩
  | occupyLen hsettled => exact ⟨.refl s, t, hs, hsettled, rfl⟩
  | resizeTable hsettled hbox hfull hnew =>
    refine ⟨.refl s, t, hs, rfl, hbox, ?_, .start hsettled hfull hnew⟩
    rw [hs.ok.ordered.size]
    exact Nat.succ_pos t.mask
  | resizeState hbox hj hcopied => exact ⟨.refl s, t, hs, rfl, hbox, hj, hcopied⟩
  | @resizeSwap _ _ value _ c hbox hcopied hc hvalue =>
    have hchange := Change.moveOut (s := s) hc (hvalue ▸ Option.some_ne_none value)
    have howned := hs.owned c (List.mem_of_getElem? hc) value hvalue
    exact ⟨hchange.evolves_of_nil hs, _, hchange.base_of_nil hs, rfl, hbox, hcopied.moveOut hc,
      _, getElem?_set_of hc _, howned.key, howned.stored, howned.latest⟩
  | resizePlace hbox hcopied hc howned =>
    exact ⟨.refl s, t, hs, (hcopied.place hs hc howned).next hbox hc⟩
  | @resizePublish _ _ new hbox hcopied =>
    exact ⟨.publish s new, new, hs.swap hcopied, hcopied.settled_new, hbox⟩
  | removeTable hsettled => exact ⟨.refl s, t, hs, .start hsettled⟩
  | removeEmpty hp hc hst => exact ⟨.refl s, t, hs, hp.settled, rfl⟩
  | removeFull hp hc hst => exact ⟨.refl s, t, hs, hp, _, hc, hst⟩
  | removeVacated hp hc hst =>
    exact ⟨.refl s, t, hs, at_removeNext hs hp hc (Change.not_held_of_state hst key)⟩
  | removeSame hp hc hst hkey => exact ⟨.refl s, t, hs, rfl, hp.settled, _, hc, hst, hkey⟩
  | removeOther hp hc hkey =>
    exact ⟨.refl s, t, hs, at_removeNext hs hp hc fun hheld => hkey hheld.2.1⟩
  | @removeSwap i c hsettled hc hst hkey =>
    have hmoved := (hsettled.at hc).moved
    have hchange := Change.remove hs hc ((hsettled.at hc).held hst hkey) hmoved
    refine ⟨hchange.evolves hs, _, hchange.base hs, rfl, (hsettled.but i).set _, c.key, ?_⟩
    rw [getElem?_set_of hc, ← hst, ← hmoved]
  | removeTombstone hothers hc =>
    have hchange := Change.tombstone (s := s) hc
    refine ⟨hchange.evolves_of_nil hs, _, hchange.base_of_nil hs, hothers.settled ?_⟩
    exact ⟨nofun, rfl, ⟨nofun, fun hvalue => absurd rfl hvalue⟩⟩
  | removeLen hsettled => exact ⟨.refl s, t, hs, hsettled, rfl⟩

def Sound (s : Shard V) (key : Nat) (writer : Writer) : Prop := ∃ t, s.Base t ∧ s.At t key writer

theorem write_sound (h : s.Sound key writer) (hw : s.write key writer = some (s', writer')) :
    s.Evolves s' ∧ s'.Sound key writer' := by
  obtain ⟨t, hs, hat⟩ := h
  exact (hs.wrote hat hw).sound hs

end Shard

end Sharded

end Sxla
