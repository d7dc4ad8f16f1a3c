import Sxla.Library.LinearProbe

/-!
# The sharded map

Sixty-four open-addressing tables, each with a try-lock for its writers.
Threads call `get`, `insert` and `remove`, and one step is one access to
memory that other threads may see. A table under construction is its
writer's own until it is published, so an entry is placed in it in one step.

The memory behind a table pointer or a box is never used again: tables and
boxes are numbered in the order of their allocation. Each shard keeps what
has become of them. The counter `used` of a table is never read, and is left
out.
-/

namespace Sxla

open Transition

namespace Sharded

def SHARD_COUNT : Nat := 64

inductive ShardError where
  | busy
  | tableCorrupted
  | invalidCapacity
deriving DecidableEq, Repr

inductive SlotState where
  | empty
  | reserved
  | full
  | tombstone
deriving DecidableEq, Repr

/-- `moved` records that a resize has taken the value out. -/
structure Slot where
  state : SlotState
  key : Nat
  value : Option Nat
  moved : Bool
deriving DecidableEq, Repr

structure Table where
  slots : List Slot
  mask : Nat
deriving DecidableEq, Repr

/-- What becomes of a box, and what a call does to the map. -/
inductive Event where
  | stored (box : Nat)
  | retired (box : Nat)
  | inserted (key box : Nat)
  | removed (key : Nat)
deriving DecidableEq, Repr

def Event.effect (key : Nat) (held : Option Nat) : Event → Option Nat
  | .inserted k box => if k = key then some box else held
  | .removed k => if k = key then none else held
  | _ => held

/-- The box that the map holds for `key`. -/
def latest (key : Nat) (history : List Event) : Option Nat := history.foldl (Event.effect key) none

/-- `tables` are all that were ever published, `boxes` all with their keys. -/
structure Shard (V : Type) where
  table : Nat
  locked : Bool
  tables : List Table
  boxes : List (Nat × V)
  history : List Event
deriving DecidableEq, Repr

inductive Op (V : Type) where
  | get (key : Nat)
  | insert (key : Nat) (value : V)
  | remove (key : Nat)
deriving DecidableEq, Repr

def Op.key {V : Type} : Op V → Nat
  | .get key => key
  | .insert key _ => key
  | .remove key => key

/-- Where a `get` stands, before the access of that name. -/
inductive Reader where
  | table
  | state (table i n : Nat)
  | key (table i n : Nat)
  | value (table i n : Nat)
deriving DecidableEq, Repr

/-- Where the holder of the lock stands. -/
inductive Writer where
  | insertTable (box : Nat)
  | insertState (box table i n : Nat) (tombstone : Option Nat)
  | insertKey (box table i n : Nat) (tombstone : Option Nat)
  | insertSwap (box table i : Nat)
  | occupyLoad (box table i : Nat)
  | occupyReserve (box table i : Nat) (expect : SlotState)
  | occupyKey (box table i : Nat)
  | occupyValue (box table i : Nat)
  | occupyFull (box table i : Nat)
  | occupyLen (box : Nat)
  | resizeTable (box : Nat)
  | resizeState (box table j : Nat) (new : Table)
  | resizeSwap (box table j : Nat) (new : Table)
  | resizePlace (box table j : Nat) (new : Table) (value : Nat)
  | resizePublish (box table : Nat) (new : Table)
  | removeTable
  | removeState (table i n : Nat)
  | removeKey (table i n : Nat)
  | removeSwap (table i : Nat)
  | removeTombstone (table i : Nat)
  | removeLen
  | unlock (result : Except ShardError Unit)
deriving DecidableEq, Repr

inductive Phase (V : Type) where
  | idle
  | get (key began : Nat) (reader : Reader)
  | lock (op : Op V)
  | write (op : Op V) (writer : Writer)
deriving DecidableEq, Repr

/-- A `get` keeps the lengths of its shard's history at its call and at its
return, and whether it loaded null from an entry of its key that a resize had
moved out. -/
inductive Call (V : Type) where
  | got (key began ended : Nat) (value : Option V) (movedOut : Bool)
  | wrote (op : Op V) (result : Except ShardError Unit)
deriving DecidableEq, Repr

structure ShardedMap (V : Type) where
  shards : List (Shard V)
  len : Nat
  threads : List (Phase V)
  calls : List (Call V)
deriving DecidableEq, Repr

inductive Action (V : Type) where
  | call (t : Nat) (op : Op V)
  | advance (t : Nat)
deriving DecidableEq, Repr

-- ---------------------------------------------------------------------------
-- Tables
-- ---------------------------------------------------------------------------

namespace Table

def new (capacity : Nat) : Except ShardError Table :=
  if ¬ capacity.isPowerOfTwo ∨ capacity < 8 then .error .invalidCapacity
  else .ok ⟨List.replicate capacity ⟨.empty, 0, none, false⟩, capacity - 1⟩

/-- The inner loop of `resize_locked`, from slot `i` for `fuel` slots. -/
def place (t : Table) (key value : Nat) : Nat → Nat → Table
  | _, 0 => t
  | i, fuel + 1 =>
    if (t.slots[i]?).map (·.state) = some .empty then
      { t with slots := t.slots.set i ⟨.full, key, some value, false⟩ }
    else t.place key value ((i + 1) &&& t.mask) fuel

/-- The ends of an iteration of the three probe loops and of the copy loop. -/
def getNext {β : Type} (t : Table) (table i n : Nat) : Reader ⊕ (Option β × Bool) :=
  if n < t.mask then .inl (.state table ((i + 1) &&& t.mask) (n + 1)) else .inr (none, false)

def insertNext (t : Table) (box table i n : Nat) (tombstone : Option Nat) : Writer :=
  if n < t.mask then .insertState box table ((i + 1) &&& t.mask) (n + 1) tombstone
  else match tombstone with
    | some target => .occupyLoad box table target
    | none => .resizeTable box

def removeNext (t : Table) (table i n : Nat) : Writer :=
  if n < t.mask then .removeState table ((i + 1) &&& t.mask) (n + 1) else .unlock (.ok ())

def resizeNext (t : Table) (box table j : Nat) (new : Table) : Writer :=
  if j + 1 < t.slots.length then .resizeState box table (j + 1) new
  else .resizePublish box table new

end Table

-- ---------------------------------------------------------------------------
-- Accesses
-- ---------------------------------------------------------------------------

variable {V : Type}

namespace Shard

/-- An access to one slot of a table, and what follows from what is there. -/
def access {β : Type} (s : Shard V) (table i : Nat) (f : Table → Slot → β) : Option β := do
  let t ← s.tables[table]?
  return f t (← t.slots[i]?)

def store (s : Shard V) (table : Nat) (t : Table) (i : Nat) (c : Slot) : Shard V :=
  { s with tables := s.tables.set table { t with slots := t.slots.set i c } }

def log (s : Shard V) (events : List Event) : Shard V :=
  { s with history := s.history ++ events }

/-- The next access of a `get`, or its result. -/
def read (s : Shard V) (key : Nat) : Reader → Option (Reader ⊕ (Option V × Bool))
  | .table => do
    let t ← s.tables[s.table]?
    return .inl (.state s.table (key &&& t.mask) 0)
  | .state table i n => s.access table i fun t c =>
    match c.state with
    | .empty => .inr (none, false)
    | .full => .inl (.key table i n)
    | .reserved | .tombstone => t.getNext table i n
  | .key table i n => s.access table i fun t c =>
    if c.key = key then .inl (.value table i n) else t.getNext table i n
  | .value table i _ => do
    let c ← s.access table i fun _ c => c
    match c.value with
    | none => return .inr (none, c.moved && c.key == key)
    | some box =>
      let (_, value) ← s.boxes[box]?
      return .inr (some value, false)

/-- The next access of `insert_locked`, `occupy_slot`, `resize_locked` or `remove`. -/
def write (s : Shard V) (key : Nat) : Writer → Option (Shard V × Writer)
  | .insertTable box => match s.tables[s.table]? with
    | none => some (s, .unlock (.error .tableCorrupted))
    | some t => some (s, .insertState box s.table (key &&& t.mask) 0 none)
  | .insertState box table i n tombstone => s.access table i fun t c =>
    match c.state with
    | .empty => (s, .occupyLoad box table (tombstone.getD i))
    | .full => (s, .insertKey box table i n tombstone)
    | .tombstone => (s, t.insertNext box table i n (tombstone.or (some i)))
    | .reserved => (s, .unlock (.error .tableCorrupted))
  | .insertKey box table i n tombstone => s.access table i fun t c =>
    if c.key = key then (s, .insertSwap box table i) else (s, t.insertNext box table i n tombstone)
  | .insertSwap box table i => s.access table i fun t c =>
    ((s.store table t i { c with value := some box }).log
      (.stored box :: (c.value.map .retired).toList ++ [.inserted key box]), .unlock (.ok ()))
  | .occupyLoad box table i => s.access table i fun _ c =>
    if c.state ≠ .empty ∧ c.state ≠ .tombstone then (s, .unlock (.error .tableCorrupted))
    else (s, .occupyReserve box table i c.state)
  | .occupyReserve box table i expect => s.access table i fun t c =>
    if c.state = expect then
      (s.store table t i { c with state := .reserved }, .occupyKey box table i)
    else (s, .unlock (.error .tableCorrupted))
  | .occupyKey box table i => s.access table i fun t c =>
    (s.store table t i { c with key }, .occupyValue box table i)
  | .occupyValue box table i => s.access table i fun t c =>
    ((s.store table t i { c with value := some box }).log [.stored box], .occupyFull box table i)
  | .occupyFull box table i => s.access table i fun t c =>
    ((s.store table t i { c with state := .full }).log [.inserted key box], .occupyLen box)
  | .occupyLen _ => some (s, .unlock (.ok ()))
  | .resizeTable box => match s.tables[s.table]? with
    | none => some (s, .unlock (.error .tableCorrupted))
    | some t => match Table.new ((t.mask + 1) * 2) with
      | .error e => some (s, .unlock (.error e))
      | .ok new => some (s, .resizeState box s.table 0 new)
  | .resizeState box table j new => s.access table j fun t c =>
    (s, if c.state = .full then .resizeSwap box table j new else t.resizeNext box table j new)
  | .resizeSwap box table j new => s.access table j fun t c =>
    match c.value with
    | none => (s, t.resizeNext box table j new)
    | some value =>
      (s.store table t j { c with value := none, moved := true },
        .resizePlace box table j new value)
  | .resizePlace box table j new value => s.access table j fun t c =>
    (s, t.resizeNext box table j (new.place c.key value (c.key &&& new.mask) (new.mask + 1)))
  | .resizePublish box _ new =>
    some ({ s with tables := s.tables ++ [new], table := s.tables.length }, .insertTable box)
  | .removeTable => match s.tables[s.table]? with
    | none => some (s, .unlock (.error .tableCorrupted))
    | some t => some (s, .removeState s.table (key &&& t.mask) 0)
  | .removeState table i n => s.access table i fun t c =>
    match c.state with
    | .empty => (s, .unlock (.ok ()))
    | .full => (s, .removeKey table i n)
    | .reserved | .tombstone => (s, t.removeNext table i n)
  | .removeKey table i n => s.access table i fun t c =>
    if c.key = key then (s, .removeSwap table i) else (s, t.removeNext table i n)
  | .removeSwap table i => s.access table i fun t c =>
    ((s.store table t i { c with value := none }).log
      ((c.value.map .retired).toList ++ [.removed key]), .removeTombstone table i)
  | .removeTombstone table i => s.access table i fun t c =>
    (s.store table t i { c with state := .tombstone }, .removeLen)
  | .removeLen => some (s, .unlock (.ok ()))
  | .unlock _ => none

/-- The try-lock is taken, and an insert then boxes its value. -/
def lock (s : Shard V) : Op V → Shard V × Writer
  | .insert key value =>
    ({ s with locked := true, boxes := s.boxes ++ [(key, value)] }, .insertTable s.boxes.length)
  | _ => ({ s with locked := true }, .removeTable)

/-- The boxes that the destructors of the map and of its tables free. -/
def dropped (s : Shard V) : List Nat := s.tables.flatMap (·.slots.filterMap (·.value))

end Shard

namespace ShardedMap

def new (capacity threads : Nat) : Except ShardError (ShardedMap V) := do
  if ¬ capacity.isPowerOfTwo ∨ capacity < 8 then throw .invalidCapacity
  let table ← Table.new capacity
  return {
    shards := List.replicate SHARD_COUNT ⟨0, false, [table], [], []⟩
    len := 0
    threads := List.replicate threads .idle
    calls := [] }

def shardOf (key : Nat) : Nat := key &&& (SHARD_COUNT - 1)

def shard? (m : ShardedMap V) (key : Nat) : Option (Shard V) := m.shards[shardOf key]?

def move (m : ShardedMap V) (t : Nat) (phase : Phase V) : ShardedMap V :=
  { m with threads := m.threads.set t phase }

def setShard (m : ShardedMap V) (key : Nat) (s : Shard V) : ShardedMap V :=
  { m with shards := m.shards.set (shardOf key) s }

def finish (m : ShardedMap V) (t : Nat) (call : Call V) : ShardedMap V :=
  { m.move t .idle with calls := m.calls ++ [call] }

/-- The shared counter after an access. -/
def count (len : Nat) : Writer → Nat
  | .occupyLen _ => len + 1
  | .removeLen => len - 1
  | _ => len

def stepThread (m : ShardedMap V) (t : Nat) : Phase V → Option (ShardedMap V)
  | .idle => none
  | .get key began reader => do
    let s ← m.shard? key
    match ← s.read key reader with
    | .inl reader => return m.move t (.get key began reader)
    | .inr (value, movedOut) =>
      return m.finish t (.got key began s.history.length value movedOut)
  | .lock op => do
    let s ← m.shard? op.key
    if s.locked then return m.finish t (.wrote op (.error .busy))
    return (m.setShard op.key (s.lock op).1).move t (.write op (s.lock op).2)
  | .write op (.unlock result) => do
    let s ← m.shard? op.key
    return (m.setShard op.key { s with locked := false }).finish t (.wrote op result)
  | .write op writer => do
    let s ← m.shard? op.key
    let (s', writer') ← s.write op.key writer
    return { (m.setShard op.key s').move t (.write op writer') with len := count m.len writer }

/-- The phase in which a call begins. -/
def begin? (m : ShardedMap V) : Op V → Option (Phase V)
  | .get key => do return .get key (← m.shard? key).history.length .table
  | op => some (.lock op)

def step (m : ShardedMap V) : Action V → Option (ShardedMap V)
  | .call t op => match m.threads[t]? with
    | some .idle => do return m.move t (← m.begin? op)
    | _ => none
  | .advance t => do m.stepThread t (← m.threads[t]?)

end ShardedMap

end Sharded

end Sxla
