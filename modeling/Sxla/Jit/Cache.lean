import Sxla.Anvil.Partition
import Sxla.Anvil.Sharded

/-!
# The kernel cache

Writers of the cache call `insert` and `remove`. An insert checks the length,
then tries the lock of its key's shard, updates the shard with the length, and
unlocks; each is one step, and so are the last three of a remove. A call that
fails ends in the step that fails.

The cache keeps, for every insert that failed with `Capacity`, whether it held
the key then, and how many entries it had.
-/

namespace Sxla.Jit

open Transition

def MAX_EBR_SLOTS : Nat := MAX_WORKERS + 4

inductive EbrError where
  | notRegistered
deriving DecidableEq, Repr

inductive JitCacheError where
  | shard (e : Sharded.ShardError)
  | ebr (e : EbrError)
  | capacity
deriving DecidableEq, Repr

inductive CacheOp (V : Type) where
  | insert (key : UInt64) (entry : V)
  | remove (key : UInt64)
deriving DecidableEq, Repr

def CacheOp.key {V : Type} : CacheOp V → UInt64
  | .insert key _ => key
  | .remove key => key

structure CacheShard (V : Type) where
  locked : Bool
  entries : List (UInt64 × V)
deriving DecidableEq, Repr

/-- Where a writer stands, before the step of that name. -/
inductive Writing (V : Type) where
  | idle
  | lock (op : CacheOp V)
  | update (op : CacheOp V)
  | unlock (op : CacheOp V)
deriving DecidableEq, Repr

/-- An insert that failed with `Capacity`. -/
structure Refusal where
  key : UInt64
  held : Bool
  entries : Nat
deriving DecidableEq, Repr

structure JitCache (V : Type) where
  shards : List (CacheShard V)
  len : Nat
  capacity : Nat
  writers : List (Writing V)
  returned : List (CacheOp V × Except JitCacheError Unit)
  refused : List Refusal
deriving DecidableEq, Repr

inductive CacheAction (V : Type) where
  | call (w : Nat) (op : CacheOp V) (slot : Nat)
  | advance (w : Nat)
deriving DecidableEq, Repr

variable {V : Type}

/-- `Collector::pin`. -/
def pin (slot : Nat) : Except JitCacheError Unit :=
  if slot ≥ MAX_EBR_SLOTS then .error (.ebr .notRegistered) else .ok ()

namespace CacheShard

def holds (s : CacheShard V) (key : UInt64) : Bool := s.entries.any fun e => e.1 == key

/-- `ShardedMap::insert_locked`: the entry of the key is overwritten, or a slot
is occupied. -/
def insert (s : CacheShard V) (key : UInt64) (entry : V) : CacheShard V :=
  { s with
    entries := if s.holds key then s.entries.map fun e => if e.1 == key then (key, entry) else e
      else s.entries ++ [(key, entry)] }

def remove (s : CacheShard V) (key : UInt64) : CacheShard V :=
  { s with entries := s.entries.eraseP fun e => e.1 == key }

end CacheShard

namespace JitCache

def new (capacity writers : Nat) : JitCache V where
  shards := List.replicate Sharded.SHARD_COUNT ⟨false, []⟩
  len := 0
  capacity := capacity
  writers := List.replicate writers .idle
  returned := []
  refused := []

def shardOf (key : UInt64) : Nat := Sharded.ShardedMap.shardOf key.toNat

def shard? (m : JitCache V) (key : UInt64) : Option (CacheShard V) := m.shards[shardOf key]?

def holds (m : JitCache V) (key : UInt64) : Bool := ((m.shard? key).map (·.holds key)).getD false

/-- The number of entries in the map. -/
def entryCount (m : JitCache V) : Nat := (m.shards.map (·.entries.length)).sum

def move (m : JitCache V) (w : Nat) (writing : Writing V) : JitCache V :=
  { m with writers := m.writers.set w writing }

def setShard (m : JitCache V) (key : UInt64) (s : CacheShard V) : JitCache V :=
  { m with shards := m.shards.set (shardOf key) s }

def finish (m : JitCache V) (w : Nat) (op : CacheOp V) (result : Except JitCacheError Unit) :
    JitCache V :=
  { m.move w .idle with returned := m.returned ++ [(op, result)] }

/-- What pins the epoch goes on to the lock. -/
def begin (m : JitCache V) (w : Nat) (op : CacheOp V) (slot : Nat) : JitCache V :=
  match pin slot with
  | .error e => m.finish w op (.error e)
  | .ok () => m.move w (.lock op)

/-- The length check of an insert. -/
def call (m : JitCache V) (w : Nat) (op : CacheOp V) (slot : Nat) : JitCache V :=
  match op with
  | .insert key _ =>
    if m.len ≥ m.capacity then
      { m.finish w op (.error .capacity) with
        refused := m.refused ++ [⟨key, m.holds key, m.entryCount⟩] }
    else m.begin w op slot
  | .remove _ => m.begin w op slot

/-- The update under the lock, with the length. -/
def update (m : JitCache V) (s : CacheShard V) : CacheOp V → JitCache V
  | .insert key entry =>
    { m.setShard key (s.insert key entry) with
      len := if s.holds key then m.len else m.len + 1 }
  | .remove key =>
    { m.setShard key (s.remove key) with len := if s.holds key then m.len - 1 else m.len }

def stepWriter (m : JitCache V) (w : Nat) : Writing V → Option (JitCache V)
  | .idle => none
  | .lock op => do
    let s ← m.shard? op.key
    return if s.locked then m.finish w op (.error (.shard .busy))
      else (m.setShard op.key { s with locked := true }).move w (.update op)
  | .update op => do
    let s ← m.shard? op.key
    return (m.update s op).move w (.unlock op)
  | .unlock op => do
    let s ← m.shard? op.key
    return (m.setShard op.key { s with locked := false }).finish w op (.ok ())

def step (m : JitCache V) : CacheAction V → Option (JitCache V)
  | .call w op slot => match m.writers[w]? with
    | some .idle => some (m.call w op slot)
    | _ => none
  | .advance w => do m.stepWriter w (← m.writers[w]?)

-- ---------------------------------------------------------------------------
-- The capacity
-- ---------------------------------------------------------------------------

/-- The cache is within its capacity, and what was refused was new and found
the cache full. -/
structure Respects (m : JitCache V) : Prop where
  within : m.entryCount ≤ m.capacity
  refused : ∀ r ∈ m.refused, r.held = false ∧ m.capacity ≤ r.entries

/-- An insert adds its key while there is room, and is not refused for a key
that is there. -/
def Meets (m : JitCache V) : CacheAction V → Prop
  | .call _ (.insert key _) _ => m.len ≥ m.capacity → m.holds key = false
  | .advance w =>
    ∀ key entry, m.writers[w]? = some (.update (.insert key entry)) → m.holds key = false →
      m.len < m.capacity
  | _ => True

/-- The length counts the entries. -/
structure Counted (capacity : Nat) (m : JitCache V) : Prop where
  capacity : m.capacity = capacity
  len : m.len = m.entryCount

variable {m m' : JitCache V} {s : CacheShard V} {capacity w slot : Nat} {key : UInt64} {entry : V}
  {op : CacheOp V} {a : CacheAction V}

theorem holds_eq (hs : m.shard? key = some s) : m.holds key = s.holds key := by
  rw [holds, hs]
  rfl

theorem entryCount_setShard (hs : m.shard? key = some s) (s' : CacheShard V) :
    (m.setShard key s').entryCount + s.entries.length = m.entryCount + s'.entries.length :=
  sum_map_set (fun s : CacheShard V => s.entries.length) hs s'

theorem length_insert (s : CacheShard V) (key : UInt64) (entry : V) :
    (s.insert key entry).entries.length =
      if s.holds key then s.entries.length else s.entries.length + 1 := by
  unfold CacheShard.insert
  split
  · exact List.length_map _
  · exact List.length_append

theorem length_remove (s : CacheShard V) (key : UInt64) :
    (s.remove key).entries.length + (if s.holds key then 1 else 0) = s.entries.length := by
  unfold CacheShard.remove CacheShard.holds
  rw [List.length_eraseP]
  split
  · next h =>
    obtain ⟨e, he, -⟩ := List.any_eq_true.mp h
    have hpos := List.length_pos_of_mem he
    omega
  · rfl

theorem insert_count (hs : m.shard? key = some s) (entry : V) :
    (m.update s (.insert key entry)).entryCount =
      if s.holds key then m.entryCount else m.entryCount + 1 := by
  have hsum := entryCount_setShard hs (s.insert key entry)
  rw [length_insert] at hsum
  show (m.setShard key (s.insert key entry)).entryCount = _
  cases hheld : s.holds key <;> simp only [hheld, Bool.false_eq_true, ↓reduceIte] at hsum ⊢ <;> omega

theorem remove_count (hs : m.shard? key = some s) :
    (m.update s (.remove key)).entryCount =
      if s.holds key then m.entryCount - 1 else m.entryCount := by
  have hsum := entryCount_setShard hs (s.remove key)
  have hlength := length_remove s key
  show (m.setShard key (s.remove key)).entryCount = _
  cases hheld : s.holds key <;>
    simp only [hheld, Bool.false_eq_true, ↓reduceIte] at hlength ⊢ <;> omega

/-- An update counts what it does to the map. -/
theorem update_len (hs : m.shard? op.key = some s) (h : m.len = m.entryCount) :
    (m.update s op).len = (m.update s op).entryCount := by
  cases op with
  | insert key entry =>
    rw [@insert_count _ m s key hs, ← h]
    rfl
  | remove key =>
    rw [@remove_count _ m s key hs, ← h]
    rfl

/-- Taking or releasing a lock leaves the entries. -/
theorem entryCount_lock (hs : m.shard? key = some s) (locked : Bool) :
    (m.setShard key { s with locked }).entryCount = m.entryCount := by
  have hsum := entryCount_setShard hs { s with locked }
  exact Nat.add_right_cancel hsum

/-- Steps that touch neither the entries nor the refusals. -/
theorem quiet (h : Counted capacity m) (hcapacity : m'.capacity = m.capacity)
    (hlen : m'.len = m.len) (hentries : m'.entryCount = m.entryCount)
    (hrefused : m'.refused = m.refused) (ha : m.Meets a) :
    Counted capacity m' ∧ (m.Respects → (m'.Respects ↔ m.Meets a)) := by
  refine ⟨⟨hcapacity.trans h.capacity, hlen.trans (h.len.trans hentries.symm)⟩, fun hm => ?_⟩
  refine iff_of_true ⟨?_, ?_⟩ ha
  · rw [hentries, hcapacity]
    exact hm.within
  · rw [hrefused, hcapacity]
    exact hm.refused

theorem begin_quiet (w : Nat) (op : CacheOp V) (slot : Nat) :
    (m.begin w op slot).capacity = m.capacity ∧ (m.begin w op slot).len = m.len ∧
      (m.begin w op slot).entryCount = m.entryCount ∧
      (m.begin w op slot).refused = m.refused := by
  unfold begin
  cases pin slot <;> exact ⟨rfl, rfl, rfl, rfl⟩

theorem call_spec (h : Counted capacity m) :
    Counted capacity (m.call w op slot) ∧
      (m.Respects → ((m.call w op slot).Respects ↔ m.Meets (.call w op slot))) := by
  obtain ⟨hcapacity, hlen, hentries, hrefused⟩ := @begin_quiet _ m w op slot
  cases op with
  | remove key => exact quiet h hcapacity hlen hentries hrefused trivial
  | insert key entry =>
    rw [call]
    split
    · next hfull =>
      refine ⟨⟨h.capacity, h.len⟩, fun hm => ⟨fun hm' _ => ?_, fun hmeets => ⟨hm.within, ?_⟩⟩⟩
      · exact (hm'.refused ⟨key, m.holds key, m.entryCount⟩ (by simp)).1
      · intro r hr
        rcases List.mem_append.mp hr with hr | hr
        · exact hm.refused r hr
        · obtain rfl := List.mem_singleton.mp hr
          exact ⟨hmeets hfull, h.len ▸ hfull⟩
    · next hroom =>
      exact quiet h hcapacity hlen hentries hrefused fun hfull => absurd hfull hroom

theorem stepWriter_spec {writing : Writing V} (h : Counted capacity m)
    (hw : m.writers[w]? = some writing) (hstep : m.stepWriter w writing = some m') :
    Counted capacity m' ∧ (m.Respects → (m'.Respects ↔ m.Meets (.advance w))) := by
  have hother : (∀ key entry, writing ≠ .update (.insert key entry)) →
      m.Meets (.advance w) := fun hne key entry heq _ =>
    absurd (Option.some.inj (hw.symm.trans heq)) (hne key entry)
  cases writing with
  | idle => cases hstep
  | lock op =>
    obtain ⟨s, hs, hstep⟩ := Option.bind_eq_some_iff.mp hstep
    split at hstep <;> cases hstep
    · exact quiet h rfl rfl rfl rfl (hother fun _ _ => by simp)
    · exact quiet h rfl rfl (entryCount_lock hs true) rfl (hother fun _ _ => by simp)
  | unlock op =>
    obtain ⟨s, hs, hstep⟩ := Option.bind_eq_some_iff.mp hstep
    cases hstep
    exact quiet h rfl rfl (entryCount_lock hs false) rfl (hother fun _ _ => by simp)
  | update op =>
    obtain ⟨s, hs, hstep⟩ := Option.bind_eq_some_iff.mp hstep
    cases hstep
    have hcapacity : (m.update s op).capacity = m.capacity := by cases op <;> rfl
    refine ⟨⟨hcapacity.trans h.capacity, update_len hs h.len⟩, fun hm => ?_⟩
    cases op with
    | remove key =>
      refine iff_of_true ⟨?_, hm.refused⟩ (hother fun _ _ => by simp)
      show (m.update s (.remove key)).entryCount ≤ m.capacity
      rw [@remove_count _ m s key hs]
      have hwithin := hm.within
      split <;> omega
    | insert key entry =>
      have hcount := @insert_count _ m s key hs entry
      have hheld : m.holds key = s.holds key := holds_eq hs
      constructor
      · rintro hm' key' entry' heq hnew
        cases Option.some.inj (hw.symm.trans heq)
        have hwithin : (m.update s (.insert key entry)).entryCount ≤ m.capacity := hm'.within
        rw [hcount, ← hheld, hnew] at hwithin
        rw [h.len]
        exact hwithin
      · intro hmeets
        refine ⟨?_, hm.refused⟩
        show (m.update s (.insert key entry)).entryCount ≤ m.capacity
        rw [hcount]
        cases hnew : s.holds key with
        | true => exact hm.within
        | false =>
          have hroom := hmeets key entry hw (hheld.trans hnew)
          rw [h.len] at hroom
          exact hroom

theorem step_spec (h : Counted capacity m) (hstep : m.step a = some m') :
    Counted capacity m' ∧ (m.Respects → (m'.Respects ↔ m.Meets a)) := by
  cases a with
  | call w op slot =>
    simp only [step] at hstep
    split at hstep
    · cases hstep
      exact call_spec h
    · cases hstep
  | advance w =>
    obtain ⟨writing, hw, hstep⟩ := Option.bind_eq_some_iff.mp hstep
    exact stepWriter_spec h hw hstep

theorem new_counted (capacity writers : Nat) :
    Counted capacity (new (V := V) capacity writers) ∧
      (new (V := V) capacity writers).Respects := by
  have hcount : (new (V := V) capacity writers).entryCount = 0 := by
    simp [entryCount, new]
  refine ⟨⟨rfl, hcount.symm⟩, ?_, fun r hr => ?_⟩
  · rw [hcount]
    exact Nat.zero_le _
  · cases hr

/-- A run keeps to the capacity exactly when no insert adds its key after the
room is gone, and none of a key that is there begins when the cache is full. -/
theorem capacity_respected_iff {capacity writers : Nat} {as : List (CacheAction V)}
    {m : JitCache V} (hrun : run step (.new capacity writers) as = some m) :
    (∀ pre m', pre <+: as → run step (.new capacity writers) pre = some m' → m'.Respects) ↔
      ∀ pre a rest m', as = pre ++ a :: rest →
        run step (.new capacity writers) pre = some m' → m'.Meets a := by
  obtain ⟨hcounted, hrespects⟩ := @new_counted V capacity writers
  exact (run_forall_iff hcounted hrespects (fun _ _ _ h hstep => step_spec h hstep) hrun).2

/-- One insert and one remove of a key, one after the other. -/
def insertRemove : List (CacheAction Nat) :=
  [.call 0 (.insert 7 1) 0, .advance 0, .advance 0, .advance 0, .call 0 (.remove 7) 0, .advance 0]

theorem capacity_respected_iff_insertRemove :
    (∀ pre m', pre <+: insertRemove → run step (.new 1 1) pre = some m' → m'.Respects) ↔
      ∀ pre a rest m', insertRemove = pre ++ a :: rest →
        run step (.new 1 1) pre = some m' → m'.Meets a :=
  @capacity_respected_iff Nat 1 1 insertRemove
    ((run step (.new 1 1) insertRemove).getD (.new 1 1)) rfl

/-- Two inserts check the length before either has counted its key. -/
def racingInserts : List (CacheAction Nat) :=
  [.call 0 (.insert 0 1) 0, .call 1 (.insert 1 2) 1, .advance 0, .advance 0, .advance 1,
    .advance 1]

/-- A key is inserted again when the cache is full. -/
def insertTwice : List (CacheAction Nat) :=
  [.call 0 (.insert 7 1) 0, .advance 0, .advance 0, .advance 0, .call 0 (.insert 7 2) 0]

/-- Both halves fail. -/
theorem capacity_not_respected :
    (¬ ∀ (capacity writers : Nat) (as : List (CacheAction Nat)) (m : JitCache Nat),
      run step (.new capacity writers) as = some m → m.entryCount ≤ m.capacity) ∧
    ¬ ∀ (capacity writers : Nat) (as : List (CacheAction Nat)) (m : JitCache Nat),
      run step (.new capacity writers) as = some m →
        ∀ r ∈ m.refused, r.held = false ∧ m.capacity ≤ r.entries := by
  constructor
  · intro hall
    have hover : ((run step (.new 1 2) racingInserts).map fun m =>
        decide (m.entryCount ≤ m.capacity)) = some false := rfl
    obtain ⟨m, hm, hcount⟩ := Option.map_eq_some_iff.mp hover
    exact of_decide_eq_false hcount (hall 1 2 racingInserts m hm)
  · intro hall
    have hheld : ((run step (.new 1 1) insertTwice).map (·.refused)) = some [⟨7, true, 1⟩] := by
      rfl
    obtain ⟨m, hm, hrefused⟩ := Option.map_eq_some_iff.mp hheld
    have hfalse := (hall 1 1 insertTwice m hm ⟨7, true, 1⟩ (by simp [hrefused])).1
    cases hfalse

-- ---------------------------------------------------------------------------
-- Inserts in flight
-- ---------------------------------------------------------------------------

/-- An insert that has passed the check and has yet to update. -/
def inserting : Writing V → Bool
  | .lock (.insert ..) | .update (.insert ..) => true
  | _ => false

def inFlight (m : JitCache V) : Nat := m.writers.countP inserting

/-- A check counts the inserts in flight, and the key where it finds no room. -/
def Room (m : JitCache V) : CacheAction V → Prop
  | .call _ (.insert key _) _ =>
    m.len + m.inFlight < m.capacity ∨ m.len = m.capacity ∧ m.holds key = false
  | _ => True

/-- What is there and what is under way fit. -/
structure Reserved (capacity : Nat) (m : JitCache V) : Prop extends Counted capacity m where
  respects : m.Respects
  fits : m.len + m.inFlight ≤ m.capacity

theorem inFlight_set {writing : Writing V} (hw : m.writers[w]? = some writing)
    (next : Writing V) : (m.writers.set w next).countP inserting +
      (if inserting writing then 1 else 0) = m.inFlight + if inserting next then 1 else 0 :=
  countP_set inserting hw next

theorem Reserved.meets (h : Reserved capacity m) (ha : m.Room a) : m.Meets a := by
  cases a with
  | call w op slot =>
    cases op with
    | remove key => trivial
    | insert key entry =>
      intro hfull
      rcases ha with hroom | hheld
      · omega
      · exact hheld.2
  | advance w =>
    intro key entry hw _
    have hone := inFlight_set hw .idle
    have hfits := h.fits
    simp only [inserting, ↓reduceIte, Bool.false_eq_true] at hone
    omega

/-- A call takes at most the room that its check leaves. -/
theorem call_fits (hw : m.writers[w]? = some .idle) (h : m.len + m.inFlight ≤ m.capacity)
    (ha : m.Room (.call w op slot)) :
    (m.call w op slot).len + (m.call w op slot).inFlight ≤ m.capacity := by
  have hidle : (m.writers.set w .idle).countP inserting = m.inFlight := inFlight_set hw .idle
  have hend : m.len + (m.writers.set w .idle).countP inserting ≤ m.capacity := hidle ▸ h
  have hlock : m.len + (m.writers.set w (.lock op)).countP inserting ≤ m.capacity →
      (m.begin w op slot).len + (m.begin w op slot).inFlight ≤ m.capacity := by
    intro hlock
    unfold begin
    cases pin slot with
    | error e => exact hend
    | ok u => exact hlock
  cases op with
  | remove key =>
    have hsame : (m.writers.set w (.lock (.remove key))).countP inserting = m.inFlight :=
      inFlight_set hw (.lock (.remove key))
    exact hlock (hsame ▸ h)
  | insert key entry =>
    have hmore : (m.writers.set w (.lock (.insert key entry))).countP inserting =
      m.inFlight + 1 := inFlight_set hw (.lock (.insert key entry))
    rw [call]
    split
    · exact hend
    · next hroom =>
      refine hlock ?_
      rw [hmore]
      rcases ha with ha | ha
      · exact ha
      · omega

theorem Reserved.step (h : Reserved capacity m) (ha : m.Room a) (hstep : m.step a = some m') :
    Reserved capacity m' := by
  obtain ⟨hcounted, hrespects⟩ := step_spec h.toCounted hstep
  refine ⟨hcounted, (hrespects h.respects).mpr (h.meets ha), ?_⟩
  rw [hcounted.capacity, ← h.capacity]
  have hfits := h.fits
  cases a with
  | call w op slot =>
    simp only [JitCache.step] at hstep
    split at hstep
    · next hw =>
      cases hstep
      exact call_fits hw hfits ha
    · cases hstep
  | advance w =>
    obtain ⟨writing, hw, hstep⟩ := Option.bind_eq_some_iff.mp hstep
    have hset := inFlight_set hw
    cases writing with
    | idle => cases hstep
    | lock op =>
      obtain ⟨s, hs, hstep⟩ := Option.bind_eq_some_iff.mp hstep
      have hidle := hset .idle
      have hupdate : (m.writers.set w (.update op)).countP inserting = m.inFlight := by
        have hupdate := hset (.update op)
        cases op with
        | insert key entry => exact Nat.add_right_cancel hupdate
        | remove key => exact hupdate
      split at hstep <;> cases hstep
      · show m.len + (m.writers.set w .idle).countP inserting ≤ m.capacity
        simp only [inserting, Bool.false_eq_true, ↓reduceIte] at hidle
        omega
      · show m.len + (m.writers.set w (.update op)).countP inserting ≤ m.capacity
        omega
    | unlock op =>
      obtain ⟨s, hs, hstep⟩ := Option.bind_eq_some_iff.mp hstep
      cases hstep
      have hidle : (m.writers.set w .idle).countP inserting = m.inFlight := hset .idle
      show m.len + (m.writers.set w .idle).countP inserting ≤ m.capacity
      omega
    | update op =>
      obtain ⟨s, hs, hstep⟩ := Option.bind_eq_some_iff.mp hstep
      cases hstep
      cases op with
      | remove key =>
        have hsame : (m.writers.set w (.unlock (.remove key))).countP inserting = m.inFlight :=
          hset (.unlock (.remove key))
        show (if s.holds key then m.len - 1 else m.len) +
          (m.writers.set w (.unlock (.remove key))).countP inserting ≤ m.capacity
        split <;> omega
      | insert key entry =>
        have hless : (m.writers.set w (.unlock (.insert key entry))).countP inserting + 1 =
          m.inFlight := hset (.unlock (.insert key entry))
        show (if s.holds key then m.len else m.len + 1) +
          (m.writers.set w (.unlock (.insert key entry))).countP inserting ≤ m.capacity
        split <;> omega

/-- Writers that count the inserts in flight, and look the key up before they
give up, keep to the capacity. -/
theorem respects_of_room {capacity writers : Nat}
    (h : Reachable step Room (.new capacity writers) m) : m.Respects := by
  have hreserved : Reserved capacity m := by
    induction h with
    | start =>
      obtain ⟨hcounted, hrespects⟩ := @new_counted V capacity writers
      refine ⟨hcounted, hrespects, ?_⟩
      have hnone : (List.replicate writers (.idle : Writing V)).countP inserting = 0 :=
        List.countP_eq_zero.mpr fun x hx => by simp [List.eq_of_mem_replicate hx, inserting]
      show 0 + (List.replicate writers (.idle : Writing V)).countP inserting ≤ capacity
      omega
    | step _ ha hstep ih => exact ih.step ha hstep
  exact hreserved.respects

end JitCache

end Sxla.Jit
