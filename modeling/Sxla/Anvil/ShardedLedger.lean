import Sxla.Anvil.ShardedLaws
import Mathlib.Data.List.Dedup
import Mathlib.Data.List.Induction

/-!
# What becomes of the boxes of a shard

Each box is in a slot, or with the writer that made it or moves it, or has
been retired, and never in two places. A call takes effect on the map in one
step, and the shared counter follows it before the lock is released.
-/

namespace Sxla

open Transition

namespace Sharded

open LinearProbe

variable {V : Type}

def Event.retired? : Event → Option Nat
  | .retired box => some box
  | _ => none

def Event.keys (keys : List Nat) : Event → List Nat
  | .inserted k _ => keys.insert k
  | .removed k => keys.erase k
  | _ => keys

/-- The keys that are in the map. -/
def present (history : List Event) : List Nat := history.foldl Event.keys []

def Table.boxes (t : Table) : List Nat := t.slots.filterMap (·.value)

def Shard.retired (s : Shard V) : List Nat := s.history.filterMap (·.retired?)

namespace Writer

/-- The boxes that the holder of the lock has, outside of the published tables. -/
def boxes : Writer → List Nat
  | .insertTable box | .insertState box .. | .insertKey box .. | .insertSwap box ..
  | .occupyLoad box .. | .occupyReserve box .. | .occupyKey box .. | .occupyValue box ..
  | .resizeTable box => [box]
  | .resizeState box _ _ new | .resizeSwap box _ _ new | .resizePublish box _ new =>
    box :: new.boxes
  | .resizePlace box _ _ new value => box :: value :: new.boxes
  | _ => []

/-- What the map will hold for the key of the call. -/
def box : Writer → Option Nat
  | .insertTable box | .insertState box .. | .insertKey box .. | .insertSwap box ..
  | .occupyLoad box .. | .occupyReserve box .. | .occupyKey box .. | .occupyValue box ..
  | .occupyFull box .. | .occupyLen box | .resizeTable box | .resizeState box ..
  | .resizeSwap box .. | .resizePlace box .. | .resizePublish box .. => some box
  | _ => none

/-- The call has taken effect. -/
def done : Writer → Bool
  | .occupyLen _ | .removeTombstone .. | .removeLen | .unlock _ => true
  | _ => false

/-- By how much the shared counter is behind. -/
def owed : Writer → Int
  | .occupyLen _ => 1
  | .removeTombstone .. | .removeLen => -1
  | _ => 0

end Writer

-- ---------------------------------------------------------------------------
-- The keys in the map
-- ---------------------------------------------------------------------------

theorem present_append (history events : List Event) :
    present (history ++ events) = events.foldl Event.keys (present history) :=
  List.foldl_append

theorem present_spec (history : List Event) :
    (present history).Nodup ∧ ∀ key, key ∈ present history ↔ latest key history ≠ none := by
  induction history using List.reverseRecOn with
  | nil => exact ⟨List.nodup_nil, fun key => ⟨(fun h => by cases h), fun h => absurd rfl h⟩⟩
  | append_singleton history event ih =>
    obtain ⟨hnodup, hmem⟩ := ih
    simp only [present_append, latest_append, List.foldl_cons, List.foldl_nil]
    cases event with
    | stored box => exact ⟨hnodup, hmem⟩
    | retired box => exact ⟨hnodup, hmem⟩
    | inserted k box =>
      refine ⟨hnodup.insert, fun key => ?_⟩
      simp only [Event.keys, Event.effect, List.mem_insert_iff, hmem]
      by_cases hkey : k = key
      · simp [hkey]
      · simp [hkey, Ne.symm hkey]
    | removed k =>
      refine ⟨hnodup.erase k, fun key => ?_⟩
      simp only [Event.keys, Event.effect, hnodup.mem_erase_iff, hmem]
      by_cases hkey : k = key
      · simp [hkey]
      · simp [hkey, Ne.symm hkey]

section

variable {key : Nat} {history : List Event}

theorem length_present_inserted (box : Nat) (h : latest key history = none) :
    (present (history ++ [Event.inserted key box])).length = (present history).length + 1 := by
  have hmem : key ∉ present history := fun hmem => ((present_spec history).2 key).mp hmem h
  rw [present_append]
  exact List.length_insert_of_not_mem hmem

theorem length_present_overwritten (box : Nat) (old : Option Nat) (h : latest key history ≠ none) :
    (present (history ++
        (Event.stored box :: (old.map .retired).toList ++ [Event.inserted key box]))).length =
      (present history).length := by
  have hmem := ((present_spec history).2 key).mpr h
  rw [present_append]
  cases old <;> exact List.length_insert_of_mem hmem

theorem length_present_removed (old : Option Nat) (h : latest key history ≠ none) :
    (present (history ++ ((old.map Event.retired).toList ++ [Event.removed key]))).length + 1 =
      (present history).length := by
  have hmem := ((present_spec history).2 key).mpr h
  have hpos := List.length_pos_of_mem hmem
  have herase := List.length_erase_of_mem hmem
  rw [present_append]
  cases old with
  | none =>
    show ((present history).erase key).length + 1 = _
    omega
  | some old =>
    show ((present history).erase key).length + 1 = _
    omega

end

-- ---------------------------------------------------------------------------
-- Boxes in slots
-- ---------------------------------------------------------------------------

section

variable {s : Shard V} {t : Table} {i : Nat} {c c' : Slot}

theorem boxes_set (hc : t.slots[i]? = some c) (c' : Slot) :
    (c.value.toList ++ Table.boxes { t with slots := t.slots.set i c' }).Perm
      (c'.value.toList ++ t.boxes) := by
  have hperm := (perm_set hc c').filterMap (·.value)
  have hcons : ∀ (d : Slot) (l : List Slot),
      (d :: l).filterMap (·.value) = d.value.toList ++ l.filterMap (·.value) := by
    intro d l
    rw [List.filterMap_cons]
    cases d.value <;> rfl
  rwa [hcons, hcons] at hperm

theorem dropped_store (ht : s.tables[s.table]? = some t) (hc : t.slots[i]? = some c) (c' : Slot) :
    (c.value.toList ++ (s.store s.table t i c').dropped).Perm (c'.value.toList ++ s.dropped) := by
  refine List.perm_iff_count.mpr fun box => ?_
  have htables := (perm_flatMap_set Table.boxes ht { t with slots := t.slots.set i c' }).count_eq box
  have hslots := (boxes_set hc c').count_eq box
  rw [List.count_append, List.count_append] at htables hslots
  have hbefore : s.dropped = s.tables.flatMap Table.boxes := rfl
  have hafter : (s.store s.table t i c').dropped =
      (s.tables.set s.table { t with slots := t.slots.set i c' }).flatMap Table.boxes := rfl
  rw [List.count_append, List.count_append, hbefore, hafter]
  omega

end

-- ---------------------------------------------------------------------------
-- One access of the holder of the lock
-- ---------------------------------------------------------------------------

/-- All boxes, each where it is. -/
def Shard.accounts (s : Shard V) (writer : Writer) : List Nat :=
  s.dropped ++ (writer.boxes ++ s.retired)

structure Ledger (s s' : Shard V) (key : Nat) (writer writer' : Writer) : Prop where
  locked : s'.locked = s.locked
  boxes : s'.boxes = s.boxes
  accounts : (s'.accounts writer').Perm (s.accounts writer)
  box : writer'.done = false → writer'.box = writer.box
  done : writer.done = true → writer'.done = true
  effect : ∀ k, latest k s'.history =
    if key = k ∧ writer.done = false ∧ writer'.done = true then writer.box else latest k s.history
  count : ∀ len, (writer = .removeLen → 0 < len) →
    (ShardedMap.count len writer : Int) + writer'.owed - (present s'.history).length =
      len + writer.owed - (present s.history).length

section

variable {s s' : Shard V} {t : Table} {key table i n box : Nat} {c c' : Slot} {writer writer' : Writer}

/-- An access that changes nothing. -/
theorem Ledger.look (hboxes : writer'.boxes.Perm writer.boxes) (hbox : writer'.box = writer.box)
    (hdone : writer.done = writer'.done) (howed : writer'.owed = writer.owed)
    (hcount : ∀ len, ShardedMap.count len writer = len) : Ledger s s key writer writer' where
  locked := rfl
  boxes := rfl
  accounts := (hboxes.append_right _).append_left _
  box := fun _ => hbox
  done := fun h => hdone.symm.trans h
  effect := by
    intro k
    rw [if_neg]
    rintro ⟨-, hfalse, htrue⟩
    rw [hdone, htrue] at hfalse
    cases hfalse
  count := fun len _ => by rw [hcount, howed]

/-- A remove that has not found its key ends. -/
theorem Ledger.absent (hs : s.Base t) (hboxes : writer.boxes = []) (hbox : writer.box = none)
    (howed : writer.owed = 0)
    (hcount : ∀ len, ShardedMap.count len writer = len) (habsent : ¬ t.Ahead key 0) :
    Ledger s s key writer (.unlock (.ok ())) where
  locked := rfl
  boxes := rfl
  accounts := by
    rw [Shard.accounts, Shard.accounts, hboxes]
    rfl
  box := fun h => by cases h
  done := fun _ => rfl
  effect := by
    intro k
    split
    · next h =>
      obtain ⟨rfl, -⟩ := h
      by_contra hne
      rw [hbox] at hne
      exact habsent (hs.listed key hne)
    · rfl
  count := fun len _ => by
    rw [hcount, howed]
    rfl

theorem accounts_store (hs : s.Base t) (hc : t.slots[i]? = some c) {events : List Event}
    (hboxes : (c'.value.toList ++ (writer'.boxes ++ events.filterMap (·.retired?))).Perm
      (c.value.toList ++ writer.boxes)) :
    (((s.store s.table t i c').log events).accounts writer').Perm (s.accounts writer) := by
  refine List.perm_iff_count.mpr fun box => ?_
  have hdropped := (dropped_store hs.current hc c').count_eq box
  have hmoved := hboxes.count_eq box
  have hretired : ((s.store s.table t i c').log events).retired =
      s.retired ++ events.filterMap (·.retired?) := List.filterMap_append
  have hstore : ((s.store s.table t i c').log events).dropped = (s.store s.table t i c').dropped :=
    rfl
  simp only [Shard.accounts, hretired, hstore, List.count_append] at hdropped hmoved ⊢
  omega

/-- A slot changes and nothing is added to the history. -/
theorem Ledger.change (hs : s.Base t) (hc : t.slots[i]? = some c)
    (hboxes : (c'.value.toList ++ writer'.boxes).Perm (c.value.toList ++ writer.boxes))
    (hbox : writer'.done = false → writer'.box = writer.box) (hdone : writer'.done = writer.done)
    (howed : writer'.owed = writer.owed) (hcount : ∀ len, ShardedMap.count len writer = len) :
    Ledger s (s.store s.table t i c') key writer writer' where
  locked := rfl
  boxes := rfl
  accounts := by
    rw [← Shard.log_nil (s.store s.table t i c')]
    refine accounts_store hs hc ?_
    rw [List.filterMap_nil, List.append_nil]
    exact hboxes
  box := hbox
  done := fun h => hdone.trans h
  effect := by
    intro k
    rw [if_neg]
    · rfl
    · rw [hdone]
      rintro ⟨-, hfalse, htrue⟩
      rw [hfalse] at htrue
      cases htrue
  count := fun len _ => by
    rw [hcount, howed]
    rfl

theorem Ledger.insertNext {tombstone : Option Nat} (hboxes : writer.boxes = [box])
    (hbox : writer.box = some box) (hdone : writer.done = false) (howed : writer.owed = 0)
    (hcount : ∀ len, ShardedMap.count len writer = len) :
    Ledger s s key writer (t.insertNext box table i n tombstone) := by
  unfold Table.insertNext
  split
  · exact .look (hboxes ▸ .refl _) hbox.symm hdone howed.symm hcount
  · cases tombstone with
    | none => exact .look (hboxes ▸ .refl _) hbox.symm hdone howed.symm hcount
    | some target => exact .look (hboxes ▸ .refl _) hbox.symm hdone howed.symm hcount

theorem Ledger.resizeNext {new : Table} {j : Nat} (hboxes : (box :: new.boxes).Perm writer.boxes)
    (hbox : writer.box = some box) (hdone : writer.done = false) (howed : writer.owed = 0)
    (hcount : ∀ len, ShardedMap.count len writer = len) :
    Ledger s s key writer (t.resizeNext box table j new) := by
  unfold Table.resizeNext
  split
  · exact .look hboxes hbox.symm hdone howed.symm hcount
  · exact .look hboxes hbox.symm hdone howed.symm hcount

theorem Ledger.removeNext (hs : s.Base t) (hp : Probing s t key table i n)
    (hc : t.slots[i]? = some c) (hheld : ¬ c.Held key) (hboxes : writer.boxes = [])
    (hbox : writer.box = none) (hdone : writer.done = false) (howed : writer.owed = 0)
    (hcount : ∀ len, ShardedMap.count len writer = len) :
    Ledger s s key writer (t.removeNext table i n) := by
  unfold Table.removeNext
  split
  · exact .look (hboxes ▸ .refl _) hbox.symm hdone howed.symm hcount
  · next hn => exact .absent hs hboxes hbox howed hcount (hp.absent_of_end hc hheld hn)

theorem Copied.boxes_place {new : Table} {j : Nat} (h : Copied s t new j (j + 1)) (hs : s.Base t)
    (hc : t.slots[j]? = some c) (key value : Nat) :
    (new.place key value (key &&& new.mask) (new.mask + 1)).boxes.Perm (value :: new.boxes) := by
  obtain ⟨m, -, d, hd, hempty, -, hplace⟩ := h.place_eq hs hc key value
  have hnone : d.value = none := by
    refine (h.settled d (List.mem_of_getElem? hd)).1.value_none ?_
    rw [hempty]
    intro h
    cases h
  have hperm := boxes_set hd ⟨.full, key, some value, false⟩
  rw [hnone] at hperm
  rw [hplace]
  exact hperm

theorem Shard.Base.latest_of_full (hs : s.Base t) (hsettled : t.Settled)
    (hc : t.slots[i]? = some c) (hst : c.state = .full) (hkey : c.key = key) :
    latest key s.history ≠ none := by
  obtain ⟨value, hvalue⟩ := Option.ne_none_iff_exists'.mp ((hsettled.at hc).full.mp hst)
  have howned := (hs.owned c (List.mem_of_getElem? hc) value hvalue).latest hst
  rw [hkey] at howned
  rw [howned]
  exact Option.some_ne_none value

/-- What one access does to the accounts, the history and the length. -/
theorem Shard.Wrote.ledger (h : s.Wrote t key writer s' writer') (hs : s.Base t) :
    Ledger s s' key writer writer' := by
  cases h with
  | insertTable => exact .look (.refl _) rfl rfl rfl fun _ => rfl
  | insertEmpty => exact .look (.refl _) rfl rfl rfl fun _ => rfl
  | insertFull => exact .look (.refl _) rfl rfl rfl fun _ => rfl
  | insertTombstone => exact .insertNext rfl rfl rfl rfl fun _ => rfl
  | insertSame => exact .look (.refl _) rfl rfl rfl fun _ => rfl
  | insertOther => exact .insertNext rfl rfl rfl rfl fun _ => rfl
  | @insertSwap box i c hsettled _ hc hst hkey =>
    have hpresent := hs.latest_of_full hsettled hc hst hkey
    refine ⟨rfl, rfl, accounts_store hs hc ?_, (fun h => by cases h), fun _ => rfl, ?_, ?_⟩
    · cases c.value with
      | none => exact .refl _
      | some old => exact .swap _ _ _
    · intro k
      show latest k (s.history ++ _) = _
      rw [latest_overwritten]
      simp [Writer.done, Writer.box]
    · intro len _
      have hlength := length_present_overwritten box c.value hpresent
      simp only [Shard.log, Shard.store, hlength]
      rfl
  | occupyLoad => exact .look (.refl _) rfl rfl rfl fun _ => rfl
  | occupyReserve _ ho => exact .change hs ho.slot (.refl _) (fun _ => rfl) rfl rfl fun _ => rfl
  | occupyKey _ ho => exact .change hs ho.slot (.refl _) (fun _ => rfl) rfl rfl fun _ => rfl
  | @occupyValue box _ _ ho =>
    refine ⟨rfl, rfl, accounts_store hs ho.slot (.refl _), fun _ => rfl, (fun h => by cases h), ?_, ?_⟩
    · intro k
      rw [if_neg (by rintro ⟨-, -, htrue⟩; cases htrue)]
      exact latest_stored box
    · intro len _
      have hpresent : present (s.history ++ [.stored box]) = present s.history := present_append _ _
      simp only [Shard.log, Shard.store, hpresent]
      rfl
  | @occupyFull box _ _ _ ho =>
    have habsent : latest key s.history = none := by
      by_contra hne
      exact ho.absent (hs.listed key hne)
    refine ⟨rfl, rfl, accounts_store hs ho.slot (.refl _), (fun h => by cases h), fun _ => rfl, ?_, ?_⟩
    · intro k
      show latest k (s.history ++ _) = _
      rw [latest_inserted]
      simp [Writer.done, Writer.box]
    · intro len _
      have hlength := length_present_inserted box habsent
      simp only [Shard.log, Shard.store, hlength, ShardedMap.count, Writer.owed]
      omega
  | occupyLen =>
    refine ⟨rfl, rfl, .refl _, (fun h => by cases h), fun _ => rfl, fun k => ?_, fun len _ => ?_⟩
    · rw [if_neg (by rintro ⟨-, hfalse, -⟩; cases hfalse)]
    · simp only [ShardedMap.count, Writer.owed]
      omega
  | @resizeTable box new _ _ _ hnew =>
    refine .look ?_ rfl rfl rfl fun _ => rfl
    have hempty : new.boxes = [] := by
      rw [Table.boxes, (Table.new_ok hnew).2.1, List.filterMap_eq_nil_iff]
      intro c hc
      rw [List.eq_of_mem_replicate hc]
    show (box :: new.boxes).Perm [box]
    rw [hempty]
  | resizeState => exact .look (.refl _) rfl rfl rfl fun _ => rfl
  | resizeSwap _ _ hc hvalue =>
    refine .change hs hc ?_ (fun _ => rfl) rfl rfl fun _ => rfl
    rw [hvalue]
    exact .swap _ _ _
  | @resizePlace box _ value _ c _ hcopied hc _ =>
    exact .resizeNext ((hcopied.boxes_place hs hc c.key value).cons box) rfl rfl rfl fun _ => rfl
  | @resizePublish _ _ new =>
    refine ⟨rfl, rfl, ?_, fun _ => rfl, (fun h => by cases h), fun k => ?_, fun _ _ => rfl⟩
    · refine List.perm_iff_count.mpr fun b => ?_
      have hdropped : Shard.dropped { s with tables := s.tables ++ [new], table := s.tables.length } =
          s.dropped ++ new.boxes := by
        rw [Shard.dropped, List.flatMap_append, List.flatMap_singleton]
        rfl
      have hretired : Shard.retired
          { s with tables := s.tables ++ [new], table := s.tables.length } = s.retired := rfl
      simp only [Shard.accounts, hdropped, hretired, Writer.boxes, List.count_append,
        List.count_cons, List.count_nil]
      omega
    · rw [if_neg (by rintro ⟨-, -, htrue⟩; cases htrue)]
  | removeTable => exact .look (.refl _) rfl rfl rfl fun _ => rfl
  | removeEmpty hp hc hst =>
    exact .absent hs rfl rfl rfl (fun _ => rfl) (hp.absent_of_empty hs hc hst)
  | removeFull => exact .look (.refl _) rfl rfl rfl fun _ => rfl
  | removeVacated hp hc hst =>
    exact .removeNext hs hp hc (Change.not_held_of_state hst key) rfl rfl rfl rfl fun _ => rfl
  | removeSame => exact .look (.refl _) rfl rfl rfl fun _ => rfl
  | removeOther hp hc hkey =>
    exact .removeNext hs hp hc (fun hheld => hkey hheld.2.1) rfl rfl rfl rfl fun _ => rfl
  | @removeSwap i c hsettled hc hst hkey =>
    have hpresent := hs.latest_of_full hsettled hc hst hkey
    refine ⟨rfl, rfl, accounts_store hs hc ?_, (fun h => by cases h), fun _ => rfl, ?_, ?_⟩
    · cases c.value with
      | none => exact .refl _
      | some old => exact .refl _
    · intro k
      show latest k (s.history ++ _) = _
      rw [latest_removed]
      simp [Writer.done, Writer.box]
    · intro len _
      have hlength := length_present_removed c.value hpresent
      simp only [Shard.log, Shard.store, ShardedMap.count, Writer.owed]
      omega
  | removeTombstone _ hc =>
    exact .change hs hc (.refl _) (fun _ => rfl) rfl rfl fun _ => rfl
  | removeLen =>
    refine ⟨rfl, rfl, .refl _, (fun h => by cases h), fun _ => rfl, fun k => ?_, fun len hlen => ?_⟩
    · rw [if_neg (by rintro ⟨-, hfalse, -⟩; cases hfalse)]
    · have hpos := hlen rfl
      simp only [ShardedMap.count, Writer.owed]
      omega

theorem Shard.write_ledger (h : s.Sound key writer) (hw : s.write key writer = some (s', writer')) :
    Ledger s s' key writer writer' := by
  obtain ⟨t, hs, hat⟩ := h
  exact (hs.wrote hat hw).ledger hs

end

end Sharded

end Sxla
