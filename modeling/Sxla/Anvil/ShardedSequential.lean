import Sxla.Anvil.ShardedGet

/-!
# One thread

A call of a single thread ends: every access lowers its rank, and a resize
leaves an empty slot, so that it is not repeated. The results are those of a
finite map.
-/

namespace Sxla

open Transition

namespace Sharded

open LinearProbe

variable {V : Type}

-- ---------------------------------------------------------------------------
-- Every access lowers the rank
-- ---------------------------------------------------------------------------

namespace Table

/-- What an insert pays for a resize, with the retry on twice the slots. -/
def resizing (t : Table) : Nat :=
  if t.slots.all (·.state = .full) then 7 * (t.mask + 1) + 14 else 0

theorem resizing_of_full {t : Table} (h : ∀ c ∈ t.slots, c.state = .full) :
    t.resizing = 7 * (t.mask + 1) + 14 :=
  if_pos (List.all_eq_true.mpr fun c hc => decide_eq_true (h c hc))

theorem resizing_of_used {t : Table} (h : t.slots.countP (·.state = .full) < t.slots.length) :
    t.resizing = 0 := by
  refine if_neg fun hall => Nat.ne_of_lt h ?_
  exact List.countP_eq_length.mpr fun c hc => List.all_eq_true.mp hall c hc

end Table

/-- How many accesses the holder of the lock has before it at most; `t` is the
current table. -/
def Writer.rank (t : Table) : Writer → Nat
  | .insertTable _ => 2 * t.mask + 12 + t.resizing
  | .insertState _ _ _ n _ => 2 * (t.mask - n) + 11 + t.resizing
  | .insertKey _ _ _ n _ => 2 * (t.mask - n) + 10 + t.resizing
  | .insertSwap .. => 2
  | .occupyLoad .. => 8
  | .occupyReserve .. => 7
  | .occupyKey .. => 6
  | .occupyValue .. => 5
  | .occupyFull .. => 4
  | .occupyLen _ => 3
  | .resizeTable _ => 7 * (t.mask + 1) + 13
  | .resizeState _ _ j _ => 3 * (t.mask + 1 - j) + 4 * (t.mask + 1) + 12
  | .resizeSwap _ _ j _ => 3 * (t.mask + 1 - j) + 4 * (t.mask + 1) + 11
  | .resizePlace _ _ j _ _ => 3 * (t.mask + 1 - j) + 4 * (t.mask + 1) + 10
  | .resizePublish .. => 4 * (t.mask + 1) + 11
  | .removeTable => 2 * t.mask + 8
  | .removeState _ _ n => 2 * (t.mask - n) + 7
  | .removeKey _ _ n => 2 * (t.mask - n) + 6
  | .removeSwap .. => 5
  | .removeTombstone .. => 4
  | .removeLen => 3
  | .unlock _ => 1

def Reader.rank (t : Table) : Reader → Nat
  | .table => 2 * t.mask + 4
  | .state _ _ n => 2 * (t.mask - n) + 3
  | .key _ _ n => 2 * (t.mask - n) + 2
  | .value .. => 1

def Phase.rank (t : Table) : Phase V → Nat
  | .idle => 0
  | .get _ _ reader => reader.rank t
  | .lock _ => 2 * t.mask + 13 + t.resizing
  | .write _ writer => writer.rank t

section

attribute [local simp] Writer.rank Reader.rank Phase.rank

variable {s s' : Shard V} {t : Table} {key table i n box : Nat} {writer writer' : Writer}

theorem rank_insertNext {tombstone : Option Nat} (hfull : tombstone = none → ¬ n < t.mask →
    ∀ c ∈ t.slots, c.state = .full) :
    (t.insertNext box table i n tombstone).rank t < 2 * (t.mask - n) + 10 + t.resizing := by
  unfold Table.insertNext
  split
  · simp only [Writer.rank]
    omega
  · next hn =>
    cases tombstone with
    | some target =>
      simp only [Writer.rank]
      omega
    | none =>
      have hresizing := Table.resizing_of_full (hfull rfl hn)
      simp only [Writer.rank]
      omega

theorem rank_removeNext : (t.removeNext table i n).rank t < 2 * (t.mask - n) + 6 := by
  unfold Table.removeNext
  split
  · simp only [Writer.rank]
    omega
  · simp only [Writer.rank]
    omega

theorem rank_resizeNext {new : Table} {j : Nat} (hsize : t.slots.length = t.mask + 1)
    (hj : j < t.mask + 1) :
    (t.resizeNext box table j new).rank t < 3 * (t.mask + 1 - j) + 4 * (t.mask + 1) + 10 := by
  unfold Table.resizeNext
  split
  · simp only [Writer.rank]
    omega
  · simp only [Writer.rank]
    omega

/-- One access lowers the rank, in the table that it leaves. -/
theorem Shard.Wrote.rank_lt (h : s.Wrote t key writer s' writer') (hs : s.Base t) :
    ∃ t', s'.tables[s'.table]? = some t' ∧ writer'.rank t' < writer.rank t := by
  have hlook : s' = s → writer'.rank t < writer.rank t →
      ∃ t', s'.tables[s'.table]? = some t' ∧ writer'.rank t' < writer.rank t := by
    rintro rfl hrank
    exact ⟨t, hs.current, hrank⟩
  cases h with
  | insertTable =>
    refine hlook rfl ?_
    simp only [Writer.rank]
    omega
  | insertEmpty =>
    refine hlook rfl ?_
    simp only [Writer.rank]
    omega
  | insertFull =>
    refine hlook rfl ?_
    simp only [Writer.rank]
    omega
  | @insertTombstone box i n tombstone =>
    have hrank : (t.insertNext box s.table i n (tombstone.or (some i))).rank t <
        2 * (t.mask - n) + 10 + t.resizing :=
      rank_insertNext (by cases tombstone <;> intro h <;> cases h)
    refine hlook rfl ?_
    simp only [Writer.rank] at hrank ⊢
    omega
  | insertSame =>
    refine hlook rfl ?_
    simp only [Writer.rank]
    omega
  | insertOther hp hscan _ hc hst hkey =>
    refine hlook rfl (rank_insertNext ?_)
    rintro rfl hn d hd
    obtain ⟨j, hj⟩ := List.mem_iff_getElem?.mp hd
    obtain ⟨m, hm, -, hseen⟩ := hs.ok.ordered.exists_position hj key
    exact (hscan.full (hp.seen hc) hst hkey m (by omega) d hseen).1
  | insertSwap => exact ⟨_, getElem?_set_of hs.current _, Nat.lt_succ_self 1⟩
  | occupyLoad => exact hlook rfl (Nat.lt_succ_self 7)
  | occupyReserve => exact ⟨_, getElem?_set_of hs.current _, Nat.lt_succ_self 6⟩
  | occupyKey => exact ⟨_, getElem?_set_of hs.current _, Nat.lt_succ_self 5⟩
  | occupyValue => exact ⟨_, getElem?_set_of hs.current _, Nat.lt_succ_self 4⟩
  | occupyFull => exact ⟨_, getElem?_set_of hs.current _, Nat.lt_succ_self 3⟩
  | occupyLen => exact hlook rfl (Nat.lt_of_sub_eq_succ rfl)
  | resizeTable =>
    refine hlook rfl ?_
    simp only [Writer.rank]
    omega
  | resizeState =>
    refine hlook rfl ?_
    simp only [Writer.rank]
    omega
  | resizeSwap =>
    refine ⟨_, getElem?_set_of hs.current _, ?_⟩
    simp only [Writer.rank]
    omega
  | resizePlace _ _ hc _ =>
    have hj := (List.getElem?_eq_some_iff.mp hc).1
    rw [hs.ok.ordered.size] at hj
    exact hlook rfl (rank_resizeNext hs.ok.ordered.size hj)
  | @resizePublish _ _ new _ hcopied =>
    refine ⟨new, ?_, ?_⟩
    · rw [List.getElem?_append_right (Nat.le_refl _), Nat.sub_self]
      rfl
    · have hroom : new.resizing = 0 := by
        refine Table.resizing_of_used ?_
        rw [hcopied.count, hs.ok.ordered.size, hcopied.ok.ordered.size, hcopied.mask]
        omega
      have hmask := hcopied.mask
      simp only [Writer.rank, hroom]
      omega
  | removeTable =>
    refine hlook rfl ?_
    simp only [Writer.rank]
    omega
  | removeEmpty =>
    refine hlook rfl ?_
    simp only [Writer.rank]
    omega
  | removeFull =>
    refine hlook rfl ?_
    simp only [Writer.rank]
    omega
  | @removeVacated i n =>
    have hnext : (t.removeNext s.table i n).rank t < 2 * (t.mask - n) + 6 := rank_removeNext
    refine hlook rfl ?_
    simp only [Writer.rank] at hnext ⊢
    omega
  | removeSame =>
    refine hlook rfl ?_
    simp only [Writer.rank]
    omega
  | removeOther => exact hlook rfl rank_removeNext
  | removeSwap => exact ⟨_, getElem?_set_of hs.current _, Nat.lt_succ_self 4⟩
  | removeTombstone => exact ⟨_, getElem?_set_of hs.current _, Nat.lt_succ_self 3⟩
  | removeLen => exact hlook rfl (Nat.lt_of_sub_eq_succ rfl)

/-- The holder of the lock can take its next access, which lowers its rank. -/
theorem Shard.write_progress (hs : s.Base t) (hat : s.At t key writer)
    (hne : ∀ result, writer ≠ .unlock result) :
    ∃ s' writer' t', s.write key writer = some (s', writer') ∧ s'.tables[s'.table]? = some t' ∧
      writer'.rank t' < writer.rank t := by
  obtain ⟨s', writer', hw, hwrote⟩ := hs.exists_wrote hat hne
  obtain ⟨t', ht', hrank⟩ := hwrote.rank_lt hs
  exact ⟨s', writer', t', hw, ht', hrank⟩

end

-- ---------------------------------------------------------------------------
-- The finite map
-- ---------------------------------------------------------------------------

def Op.effect (key : Nat) (held : Option V) : Op V → Option V
  | .get _ => held
  | .insert k value => if k = key then some value else held
  | .remove k => if k = key then none else held

/-- The last value inserted for `key` since its last remove. -/
def lastValue (key : Nat) (ops : List (Op V)) : Option V := ops.foldl (Op.effect key) none

def Call.op : Call V → Op V
  | .got key .. => .get key
  | .wrote op _ => op

/-- The call returned what a finite map would, after the calls before it. -/
def Call.Right (before : List (Op V)) : Call V → Prop
  | .got key _ _ value _ => value = lastValue key before
  | .wrote _ result => result = .ok ()

/-- The box that the map holds for `key` has the key and this value. -/
inductive Matches (boxes : List (Nat × V)) (key : Nat) : Option Nat → Option V → Prop
  | absent : Matches boxes key none none
  | held {box : Nat} {value : V} (h : boxes[box]? = some (key, value)) :
      Matches boxes key (some box) (some value)

namespace Phase

def op : Phase V → Option (Op V)
  | .idle => none
  | .get key .. => some (.get key)
  | .lock op | .write op _ => some op

/-- The call has taken effect and not returned. -/
def taken : Phase V → List (Op V)
  | .write op writer => if writer.done then [op] else []
  | _ => []

def owed : Phase V → Int
  | .write _ writer => writer.owed
  | _ => 0

end Phase

/-- A probe is in the current table, and a value it is to load is of its key. -/
def Shard.Current (s : Shard V) (key : Nat) : Reader → Prop
  | .table => True
  | .state table .. | .key table .. => table = s.table
  | .value table i _ => table = s.table ∧ ∃ c, s.access table i (fun _ c => c) = some c ∧ c.key = key

/-- The box of an insert has its value. -/
def Fits (boxes : List (Nat × V)) (held : Option Nat) : Op V → Prop
  | .get _ => False
  | .insert key value => ∃ box, held = some box ∧ boxes[box]? = some (key, value)
  | .remove _ => held = none

/-- What the only thread knows in each phase. -/
def ShardedMap.Knows (m : ShardedMap V) : Phase V → Prop
  | .idle => True
  | .get key began reader => ∃ s, m.shard? key = some s ∧ began = s.history.length ∧
    s.Current key reader
  | .lock op => ∀ key, op ≠ .get key
  | .write op writer => ∃ s, m.shard? op.key = some s ∧
    (writer.done = false → Fits s.boxes writer.box op)

/-- The only thread is in `phase`, and every call returned what it should. -/
structure Alone (m : ShardedMap V) (phase : Phase V) : Prop where
  thread : m.threads = [phase]
  inv : Inv m.shards m.threads
  right : ∀ (n : Nat) (call : Call V), m.calls[n]? = some call →
    call.Right ((m.calls.take n).map Call.op)
  agrees : ∀ (σ : Nat) (s : Shard V), m.shards[σ]? = some s → ∀ key,
    Matches s.boxes key (latest key s.history)
      (if ShardedMap.shardOf key = σ then lastValue key (m.calls.map Call.op ++ phase.taken)
        else none)
  len : (m.len : Int) + phase.owed = (m.shards.map fun s => (present s.history).length).sum
  knows : m.Knows phase

section

variable {key : Nat} {ops : List (Op V)}

theorem lastValue_append (op : Op V) :
    lastValue key (ops ++ [op]) = op.effect key (lastValue key ops) := by
  rw [lastValue, List.foldl_append]
  rfl

/-- A call for another key. -/
theorem lastValue_taken {op : Op V} (hkey : op.key ≠ key) (writer : Writer) :
    lastValue key (ops ++ Phase.taken (.write op writer)) = lastValue key ops := by
  rw [Phase.taken]
  split
  · rw [lastValue_append]
    cases op with
    | get => rfl
    | remove k => exact if_neg hkey
    | insert k value => exact if_neg hkey
  · rw [List.append_nil]

theorem Matches.grow {boxes : List (Nat × V)} {held : Option Nat} {value : Option V}
    (h : Matches boxes key held value) (more : List (Nat × V)) :
    Matches (boxes ++ more) key held value := by
  cases h with
  | absent => exact .absent
  | held h => exact .held (by rw [List.getElem?_append_left (List.getElem?_eq_some_iff.mp h).1, h])

theorem Matches.isSome {boxes : List (Nat × V)} {held : Option Nat} {value : Option V}
    (h : Matches boxes key held value) : held ≠ none ↔ value.isSome = true := by
  cases h with
  | absent => simp
  | held => simp

end

namespace Alone

variable {m m' : ShardedMap V} {phase : Phase V} {a : Action V}

/-- A log that gets one more right call is right. -/
theorem right_append (h : Alone m phase) {call : Call V} (hcall : call.Right (m.calls.map Call.op)) :
    ∀ (n : Nat) (c : Call V), (m.calls ++ [call])[n]? = some c →
      c.Right (((m.calls ++ [call]).take n).map Call.op) := by
  intro n c hc
  rcases Nat.lt_trichotomy n m.calls.length with hn | rfl | hn
  · rw [List.getElem?_append_left hn] at hc
    rw [List.take_append_of_le_length hn.le]
    exact h.right n c hc
  · rw [List.getElem?_append_right (Nat.le_refl _), Nat.sub_self] at hc
    cases hc
    rw [List.take_append_of_le_length (Nat.le_refl _), List.take_length]
    exact hcall
  · rw [List.getElem?_eq_none (by rw [List.length_append, List.length_singleton]; omega)] at hc
    cases hc

/-- No shard is locked while the only thread does not write. -/
theorem unlocked (h : Alone m phase) (hphase : ∀ op writer, phase ≠ .write op writer) {σ : Nat}
    {s : Shard V} (hs : m.shards[σ]? = some s) : s.locked = false := by
  by_contra hlocked
  rw [Bool.not_eq_false] at hlocked
  obtain ⟨t, op, writer, ht, -⟩ := h.inv.held σ s hs hlocked
  rw [h.thread] at ht
  exact hphase op writer (List.mem_singleton.mp (List.mem_of_getElem? ht)).symm

theorem phase_eq (h : Alone m phase) {t : Nat} {p : Phase V} (ht : m.threads[t]? = some p) :
    t = 0 ∧ p = phase := by
  rw [h.thread] at ht
  cases t with
  | zero => exact ⟨rfl, (Option.some.inj ht).symm⟩
  | succ t => cases ht

/-- A `get` returns the last value. -/
theorem got_right {key began : Nat} {reader : Reader} (h : Alone m (.get key began reader))
    {s : Shard V} (hs : m.shard? key = some s) {value : Option V} {movedOut : Bool}
    (hread : s.read key reader = some (.inr (value, movedOut))) :
    value = lastValue key (m.calls.map Call.op) := by
  have hagrees := h.agrees _ s hs key
  have htaken : Phase.taken (.get key began reader : Phase V) = [] := rfl
  rw [if_pos rfl, htaken, List.append_nil] at hagrees
  obtain ⟨r, hr, hbegan, hcurrent⟩ := h.knows
  cases Option.some.inj (hs.symm.trans hr)
  obtain ⟨⟨t, hbase, hsettled, -⟩, -⟩ := h.inv.rest _ s hs (h.unlocked (fun _ _ h => by cases h) hs) key
  cases value with
  | none =>
    have hmissed : s.Missed key began := by
      obtain ⟨q, hq, hle, hreading⟩ := h.inv.readers 0 key began reader (by rw [h.thread]; rfl)
      cases Option.some.inj (hs.symm.trans hq)
      rcases Shard.read_ok hbase hreading hle hread rfl with hmoved | hmissed
      · rcases Shard.read_end hread with ⟨-, hfalse⟩ | ⟨table, i, n, c, rfl, hc, hcases⟩
        · rw [hfalse] at hmoved
          cases hmoved
        · obtain ⟨rfl, -⟩ := hcurrent
          obtain ⟨c', hslot, rfl⟩ := hbase.access hc
          rcases hcases with ⟨-, -, hflag⟩ | ⟨box, k, v, -, -, hv⟩
          · rw [hmoved, (hsettled.at hslot).moved] at hflag
            cases hflag
          · cases hv
      · exact hmissed
    obtain ⟨moment, hle, hlen, hnone⟩ := hmissed
    rw [hbegan] at hle
    cases Nat.le_antisymm hle hlen
    rw [List.take_length] at hnone
    rw [hnone] at hagrees
    generalize lastValue key (m.calls.map Call.op) = last at hagrees ⊢
    cases hagrees
    rfl
  | some value =>
    obtain ⟨_, _, hkept⟩ := h.inv.kept _ s hs
    obtain ⟨table, i, n, c, box, rfl, hc, hvalue, hbox, -, -⟩ := hkept.read_value hread
    obtain ⟨rfl, c', hc', hkey⟩ := hcurrent
    cases Option.some.inj (hc.symm.trans hc')
    obtain ⟨d, hslot, rfl⟩ := hbase.access hc
    have hfull : d.state = .full := by
      refine (hsettled.at hslot).full.mpr ?_
      rw [hvalue]
      exact Option.some_ne_none box
    have hlatest := (hbase.owned d (List.mem_of_getElem? hslot) box hvalue).latest hfull
    rw [hkey] at hlatest hbox
    rw [hlatest] at hagrees
    generalize lastValue key (m.calls.map Call.op) = last at hagrees ⊢
    cases hagrees with
    | held h =>
      rw [hbox] at h
      cases h
      rfl

/-- A `get` goes on in the current table. -/
theorem current_next {s : Shard V} {t : Table} (hs : s.Base t) {key : Nat} {reader reader' : Reader}
    (h : s.Current key reader) (hread : s.read key reader = some (.inl reader')) :
    s.Current key reader' := by
  have hnext : ∀ {t : Table} {i n : Nat} {r : Reader},
      t.getNext s.table i n = (.inl r : Reader ⊕ (Option V × Bool)) → s.Current key r := by
    intro t i n r h
    unfold Table.getNext at h
    split at h
    · cases h
      rfl
    · cases h
  cases reader with
  | table =>
    rw [Shard.read, hs.current] at hread
    cases hread
    rfl
  | state table i n =>
    cases h
    obtain ⟨c, hc, hread⟩ := hs.access hread
    cases hst : c.state with
    | empty =>
      rw [hst] at hread
      cases hread
    | full =>
      rw [hst] at hread
      cases hread
      rfl
    | reserved | tombstone =>
      rw [hst] at hread
      exact hnext hread
  | key table i n =>
    cases h
    obtain ⟨c, hc, hread⟩ := hs.access hread
    split at hread
    · next hkey =>
      cases hread
      exact ⟨rfl, c, Shard.access_eq_some.mpr ⟨t, c, hs.current, hc, rfl⟩, hkey⟩
    · exact hnext hread
  | value table i n =>
    obtain ⟨c, -, hread⟩ := Option.bind_eq_some_iff.mp hread
    cases hvalue : c.value with
    | none =>
      rw [hvalue] at hread
      cases hread
    | some box =>
      rw [hvalue] at hread
      obtain ⟨_, -, hread⟩ := Option.bind_eq_some_iff.mp hread
      cases hread

theorem rank_getNext {t : Table} {table i n : Nat} {reader : Reader}
    (h : t.getNext table i n = (.inl reader : Reader ⊕ (Option V × Bool))) :
    reader.rank t < 2 * (t.mask - n) + 2 := by
  unfold Table.getNext at h
  split at h
  · cases h
    simp only [Reader.rank]
    omega
  · cases h

/-- A `get` can take its next access, which ends it or lowers its rank. -/
theorem read_progress {s : Shard V} {t : Table} (hs : s.Base t) {key began : Nat} {reader : Reader}
    (hcurrent : s.Current key reader) (hreading : s.Reading key began reader) :
    ∃ result, s.read key reader = some result ∧
      ∀ reader', result = .inl reader' → reader'.rank t < reader.rank t := by
  have hslot : ∀ {i n : Nat}, s.Seeks key began s.table i n → ∃ c, t.slots[i]? = some c := by
    rintro i n ⟨u, hu, -, rfl, -⟩
    cases Option.some.inj (hs.current.symm.trans hu)
    exact hs.exists_slot (Nat.le_of_lt_succ (position_lt key n))
  cases reader with
  | table =>
    refine ⟨.inl (.state s.table (key &&& t.mask) 0), ?_, ?_⟩
    · rw [Shard.read, hs.current]
      rfl
    · rintro _ ⟨⟩
      simp only [Reader.rank]
      omega
  | state table i n =>
    cases hcurrent
    obtain ⟨c, hc⟩ := hslot hreading
    refine ⟨_, hs.access_eq hc _, ?_⟩
    intro reader' h
    cases hst : c.state with
    | empty =>
      rw [hst] at h
      cases h
    | full =>
      rw [hst] at h
      cases h
      exact Nat.lt_succ_self _
    | reserved | tombstone =>
      rw [hst] at h
      exact Nat.lt_succ_of_lt (rank_getNext h)
  | key table i n =>
    cases hcurrent
    obtain ⟨c, hc⟩ := hslot hreading
    refine ⟨_, hs.access_eq hc _, ?_⟩
    intro reader' h
    split at h
    · cases h
      simp only [Reader.rank]
      omega
    · exact rank_getNext h
  | value table i n =>
    obtain ⟨rfl, c, hc, hkey⟩ := hcurrent
    obtain ⟨d, hslot', rfl⟩ := hs.access hc
    cases hvalue : d.value with
    | none =>
      refine ⟨.inr (none, d.moved && d.key == key), ?_, (fun _ h => by cases h)⟩
      simp only [Shard.read, hc, Option.bind_eq_bind, Option.bind_some, hvalue]
      rfl
    | some box =>
      obtain ⟨value, hbox⟩ := (hs.owned d (List.mem_of_getElem? hslot') box hvalue).key
      refine ⟨.inr (some value, false), ?_, (fun _ h => by cases h)⟩
      simp only [Shard.read, hc, Option.bind_eq_bind, Option.bind_some, hvalue, hbox]
      rfl

/-- The current table of the shard of a key. -/
def HasTable (m : ShardedMap V) (key : Nat) (t : Table) : Prop :=
  ∃ s, m.shard? key = some s ∧ s.tables[s.table]? = some t

/-- The only thread has gone on, or its call has returned. -/
inductive Advanced (m m' : ShardedMap V) (phase phase' : Phase V) : Prop
  | returned {call : Call V} (hidle : phase' = .idle) (hcalls : m'.calls = m.calls ++ [call])
      (hop : phase.op = some call.op)
  | advanced (hcalls : m'.calls = m.calls) (hop : phase'.op = phase.op)
      (hrank : ∀ op t, phase.op = some op → HasTable m op.key t →
        ∃ t', HasTable m' op.key t' ∧ phase'.rank t' < phase.rank t)

theorem exists_shard (h : Alone m phase) (key : Nat) : ∃ s, m.shard? key = some s := by
  have hlt : ShardedMap.shardOf key < m.shards.length := by
    rw [h.inv.size]
    exact Nat.lt_succ_of_le Nat.and_le_right
  exact ⟨_, List.getElem?_eq_getElem hlt⟩

/-- The call returns, and had taken effect if it has one. -/
theorem finish (h : Alone m phase) {m' : ShardedMap V} {call : Call V}
    (hinv : Inv m'.shards m'.threads) (hthreads : m'.threads = [.idle])
    (hcalls : m'.calls = m.calls ++ [call]) (hcall : call.Right (m.calls.map Call.op))
    (hlen : m'.len = m.len) (howed : phase.owed = 0)
    (hshards : ∀ (σ : Nat) (s' : Shard V), m'.shards[σ]? = some s' → ∃ s, m.shards[σ]? = some s ∧
      s'.boxes = s.boxes ∧ s'.history = s.history)
    (hsum : (m'.shards.map fun s => (present s.history).length).sum =
      (m.shards.map fun s => (present s.history).length).sum)
    (heffect : ∀ key, lastValue key (m.calls.map Call.op ++ [call.op]) =
      lastValue key (m.calls.map Call.op ++ phase.taken)) : Alone m' .idle where
  thread := hthreads
  inv := hinv
  right := by
    rw [hcalls]
    exact h.right_append hcall
  agrees := by
    intro σ s' hs' key
    obtain ⟨s, hs, hboxes, hhistory⟩ := hshards σ s' hs'
    have hagrees := h.agrees σ s hs key
    have htaken : Phase.taken (.idle : Phase V) = [] := rfl
    rw [hcalls, List.map_append, List.map_singleton, htaken, List.append_nil, heffect, hboxes,
      hhistory]
    exact hagrees
  len := by
    have hlen' := h.len
    rw [howed] at hlen'
    rw [hlen, hsum]
    exact hlen'
  knows := trivial

theorem advance_get {key began : Nat} {reader : Reader} (h : Alone m (.get key began reader)) :
    ∃ m' phase', m.step (.advance 0) = some m' ∧ Alone m' phase' ∧
      Advanced m m' (.get key began reader) phase' := by
  obtain ⟨s, hs, hbegan, hcurrent⟩ := h.knows
  obtain ⟨r, hr, -, hreading⟩ := h.inv.readers 0 key began reader (by rw [h.thread]; rfl)
  cases Option.some.inj (hs.symm.trans hr)
  obtain ⟨_, _, ⟨t, hbase, -⟩, -⟩ := h.inv.kept _ s hs
  obtain ⟨result, hread, hrank⟩ := read_progress hbase hcurrent hreading
  have hthread : m.threads[0]? = some (.get key began reader) := by
    rw [h.thread]
    rfl
  cases result with
  | inl reader' =>
    have hstep : m.step (.advance 0) = some (m.move 0 (.get key began reader')) := by
      simp only [ShardedMap.step, ShardedMap.stepThread, hthread, hs, hread, Option.bind_eq_bind,
        Option.bind_some]
      rfl
    refine ⟨_, .get key began reader', hstep, ?_, .advanced rfl rfl ?_⟩
    · refine ⟨?_, (ShardedMap.step_spec h.inv hstep).inv, h.right, h.agrees, h.len, s, hs, hbegan,
        current_next hbase hcurrent hread⟩
      rw [ShardedMap.move, h.thread]
      rfl
    · rintro _ u ⟨rfl⟩ ⟨q, hq, hu⟩
      refine ⟨u, ⟨q, hq, hu⟩, ?_⟩
      cases Option.some.inj (hs.symm.trans hq)
      cases Option.some.inj (hbase.current.symm.trans hu)
      exact hrank reader' rfl
  | inr answer =>
    obtain ⟨value, movedOut⟩ := answer
    have hstep : m.step (.advance 0) =
        some (m.finish 0 (.got key began s.history.length value movedOut)) := by
      simp only [ShardedMap.step, ShardedMap.stepThread, hthread, hs, hread, Option.bind_eq_bind,
        Option.bind_some]
      rfl
    refine ⟨_, .idle, hstep, ?_, .returned rfl rfl rfl⟩
    refine h.finish (ShardedMap.step_spec h.inv hstep).inv ?_ rfl (h.got_right hs hread) rfl rfl
      (fun σ s' hs' => ⟨s', hs', rfl, rfl⟩) rfl ?_
    · rw [ShardedMap.finish, ShardedMap.move, h.thread]
      rfl
    · intro k
      rw [lastValue_append]
      exact (congrArg _ (List.append_nil _)).symm

theorem sum_present_set {shards : List (Shard V)} {σ : Nat} {s : Shard V}
    (hs : shards[σ]? = some s) (s' : Shard V) :
    ((shards.set σ s').map fun s => (present s.history).length).sum + (present s.history).length =
      (shards.map fun s => (present s.history).length).sum + (present s'.history).length :=
  sum_map_set (fun s : Shard V => (present s.history).length) hs s'

theorem advance_lock {op : Op V} (h : Alone m (.lock op)) :
    ∃ m' phase', m.step (.advance 0) = some m' ∧ Alone m' phase' ∧
      Advanced m m' (.lock op) phase' := by
  obtain ⟨s, hs⟩ := h.exists_shard op.key
  have hs' : m.shards[ShardedMap.shardOf op.key]? = some s := hs
  have hfree := h.unlocked (fun _ _ h => by cases h) hs
  have hthread : m.threads[0]? = some (.lock op) := by
    rw [h.thread]
    rfl
  have hstep : m.step (.advance 0) =
      some ((m.setShard op.key (s.lock op).1).move 0 (.write op (s.lock op).2)) := by
    simp only [ShardedMap.step, ShardedMap.stepThread, hthread, hs, hfree, Option.bind_eq_bind,
      Option.bind_some]
    rfl
  obtain ⟨more, hboxes, hhistory, htables, hnot, howed, hfits⟩ : ∃ more,
      (s.lock op).1.boxes = s.boxes ++ more ∧ (s.lock op).1.history = s.history ∧
      ((s.lock op).1.tables = s.tables ∧ (s.lock op).1.table = s.table) ∧
      (s.lock op).2.done = false ∧ (s.lock op).2.owed = 0 ∧
      Fits (s.lock op).1.boxes (s.lock op).2.box op := by
    cases op with
    | get key => exact absurd rfl (h.knows key)
    | remove key => exact ⟨[], (List.append_nil _).symm, rfl, ⟨rfl, rfl⟩, rfl, rfl, rfl⟩
    | insert key value =>
      refine ⟨[(key, value)], rfl, rfl, ⟨rfl, rfl⟩, rfl, rfl, s.boxes.length, rfl, ?_⟩
      show (s.boxes ++ [(key, value)])[s.boxes.length]? = _
      rw [List.getElem?_append_right (Nat.le_refl _), Nat.sub_self]
      rfl
  have htaken : Phase.taken (.write op (s.lock op).2) = [] := by
    rw [Phase.taken, hnot]
    rfl
  refine ⟨_, .write op (s.lock op).2, hstep, ?_, .advanced rfl rfl ?_⟩
  · refine ⟨?_, (ShardedMap.step_spec h.inv hstep).inv, h.right, ?_, ?_, (s.lock op).1, ?_,
      fun _ => hfits⟩
    · show m.threads.set 0 _ = _
      rw [h.thread]
      rfl
    · intro σ r hr key
      rw [htaken]
      rcases getElem?_set_cases hr with ⟨rfl, rfl⟩ | ⟨-, hr⟩
      · rw [hhistory, hboxes]
        exact (h.agrees _ s hs' key).grow more
      · exact h.agrees σ r hr key
    · have hsum := sum_present_set hs' (s.lock op).1
      rw [hhistory] at hsum
      have hlen := h.len
      have howed' : Phase.owed (.lock op : Phase V) = 0 := rfl
      have howed'' : Phase.owed (.write op (s.lock op).2) = 0 := howed
      rw [howed'] at hlen
      rw [howed'']
      show (m.len : Int) + 0 =
        (((m.shards.set _ (s.lock op).1).map fun s => (present s.history).length).sum : Nat)
      omega
    · exact getElem?_set_of hs' _
  · rintro _ u ⟨rfl⟩ ⟨q, hq, hu⟩
    cases Option.some.inj (hs.symm.trans hq)
    refine ⟨u, ⟨(s.lock op).1, getElem?_set_of hs' _, ?_⟩, ?_⟩
    · rw [htables.1, htables.2]
      exact hu
    · cases op with
      | get key => exact absurd rfl (h.knows key)
      | remove key =>
        simp only [Phase.rank, Shard.lock, Writer.rank]
        omega
      | insert key value =>
        simp only [Phase.rank, Shard.lock, Writer.rank]
        omega

theorem advance_unlock {op : Op V} {result : Except ShardError Unit}
    (h : Alone m (.write op (.unlock result))) :
    ∃ m' phase', m.step (.advance 0) = some m' ∧ Alone m' phase' ∧
      Advanced m m' (.write op (.unlock result)) phase' := by
  have hthread : m.threads[0]? = some (.write op (.unlock result)) := by
    rw [h.thread]
    rfl
  obtain ⟨s, hs, -, hkept⟩ := h.inv.writers 0 op _ hthread
  have hshard : m.shard? op.key = some s := hs
  obtain ⟨-, -, hok⟩ := hkept.unlock
  have hstep : m.step (.advance 0) = some ((m.setShard op.key { s with locked := false }).finish 0
      (.wrote op result)) := by
    simp only [ShardedMap.step, ShardedMap.stepThread, hthread, hshard, Option.bind_eq_bind,
      Option.bind_some]
    rfl
  refine ⟨_, .idle, hstep, ?_, .returned rfl rfl rfl⟩
  refine h.finish (ShardedMap.step_spec h.inv hstep).inv ?_ rfl hok rfl rfl ?_ ?_ fun _ => rfl
  · show m.threads.set 0 _ = _
    rw [h.thread]
    rfl
  · intro σ s' hs'
    rcases getElem?_set_cases hs' with ⟨rfl, rfl⟩ | ⟨-, hs'⟩
    · exact ⟨s, hs, rfl, rfl⟩
    · exact ⟨s', hs', rfl, rfl⟩
  · have hsum := sum_present_set hs { s with locked := false }
    exact Nat.add_right_cancel hsum

/-- What the call of a writer does to the map, in the step in which it takes effect. -/
theorem matches_effect {s s' : Shard V} {op : Op V} {writer writer' : Writer} {key : Nat}
    {ops : List (Op V)} (hledger : Ledger s s' op.key writer writer')
    (hfits : writer.done = false → Fits s.boxes writer.box op)
    (h : Matches s.boxes key (latest key s.history)
      (lastValue key (ops ++ Phase.taken (.write op writer)))) :
    Matches s'.boxes key (latest key s'.history)
      (lastValue key (ops ++ Phase.taken (.write op writer'))) := by
  rw [hledger.boxes, hledger.effect key]
  by_cases hkey : op.key = key
  · cases hdone : writer.done with
    | true =>
      rw [if_neg (by rintro ⟨-, hfalse, -⟩; cases hfalse)]
      simpa only [Phase.taken, hdone, hledger.done hdone] using h
    | false =>
      cases hdone' : writer'.done with
      | false =>
        rw [if_neg (by rintro ⟨-, -, htrue⟩; cases htrue)]
        simpa only [Phase.taken, hdone, hdone'] using h
      | true =>
        rw [if_pos ⟨hkey, rfl, rfl⟩, Phase.taken, hdone', if_pos rfl, lastValue_append]
        have hfit := hfits hdone
        cases op with
        | get => exact hfit.elim
        | remove k =>
          have hnone : writer.box = none := hfit
          have hk : k = key := hkey
          rw [hnone, Op.effect, if_pos hk]
          exact .absent
        | insert k value =>
          obtain ⟨box, hbox, hvalue⟩ := hfit
          have hk : k = key := hkey
          rw [hbox, Op.effect, if_pos hk]
          exact .held (hk ▸ hvalue)
  · rw [if_neg fun hand => hkey hand.1, lastValue_taken hkey]
    rwa [lastValue_taken hkey] at h

theorem advance_write {op : Op V} {writer : Writer} (h : Alone m (.write op writer))
    (hne : ∀ result, writer ≠ .unlock result) :
    ∃ m' phase', m.step (.advance 0) = some m' ∧ Alone m' phase' ∧
      Advanced m m' (.write op writer) phase' := by
  have hthread : m.threads[0]? = some (.write op writer) := by
    rw [h.thread]
    rfl
  obtain ⟨s, hs, -, hkept⟩ := h.inv.writers 0 op _ hthread
  have hshard : m.shard? op.key = some s := hs
  obtain ⟨t, hbase, hat⟩ := hkept.sound
  obtain ⟨s', writer', t', hw, ht', hrank⟩ := Shard.write_progress hbase hat hne
  have hledger := Shard.write_ledger hkept.sound hw
  obtain ⟨r, hr, hfits⟩ := h.knows
  cases Option.some.inj (hshard.symm.trans hr)
  have hstep : m.step (.advance 0) = some { (m.setShard op.key s').move 0 (.write op writer') with
      len := ShardedMap.count m.len writer } := by
    simp only [ShardedMap.step, hthread, Option.bind_eq_bind, Option.bind_some,
      ShardedMap.stepThread_write 0 op hne, hshard, hw]
    rfl
  have hset : (m.shards.set (ShardedMap.shardOf op.key) s')[ShardedMap.shardOf op.key]? = some s' :=
    getElem?_set_of hs s'
  refine ⟨_, .write op writer', hstep, ?_, .advanced rfl rfl ?_⟩
  · refine ⟨?_, (ShardedMap.step_spec h.inv hstep).inv, h.right, ?_, ?_, s', hset, ?_⟩
    · show m.threads.set 0 _ = _
      rw [h.thread]
      rfl
    · intro σ q hq key
      rcases getElem?_set_cases hq with ⟨rfl, rfl⟩ | ⟨hne', hq⟩
      · have hagrees := h.agrees _ s hs key
        split_ifs at hagrees ⊢ with hσ
        · exact matches_effect hledger hfits hagrees
        · -- The key belongs elsewhere, so the step does not touch it.
          have hkey : ¬ op.key = key := by
            rintro rfl
            exact hσ rfl
          rw [hledger.boxes, hledger.effect key, if_neg fun hand => hkey hand.1]
          exact hagrees
      · have hagrees := h.agrees σ q hq key
        split_ifs at hagrees ⊢ with hσ
        · have hkey : op.key ≠ key := by
            rintro rfl
            exact hne' hσ.symm
          rw [lastValue_taken hkey] at hagrees ⊢
          exact hagrees
        · exact hagrees
    · have hcount := hledger.count m.len ?_
      · have hsum := sum_present_set hs s'
        have hlen := h.len
        show (ShardedMap.count m.len writer : Int) + writer'.owed =
          (((m.shards.set _ s').map fun s => (present s.history).length).sum : Nat)
        have howed : Phase.owed (.write op writer) = writer.owed := rfl
        omega
      · rintro rfl
        have hlen := h.len
        have howed : Phase.owed (.write op .removeLen) = -1 := rfl
        omega
    · intro hdone'
      rw [hledger.boxes, hledger.box hdone']
      refine hfits ?_
      by_contra hdone
      rw [Bool.not_eq_false] at hdone
      rw [hledger.done hdone] at hdone'
      cases hdone'
  · rintro _ u ⟨rfl⟩ ⟨q, hq, hu⟩
    cases Option.some.inj (hshard.symm.trans hq)
    cases Option.some.inj (hbase.current.symm.trans hu)
    exact ⟨t', ⟨s', hset, ht'⟩, hrank⟩

theorem advance (h : Alone m phase) (hphase : phase ≠ .idle) :
    ∃ m' phase', m.step (.advance 0) = some m' ∧ Alone m' phase' ∧ Advanced m m' phase phase' := by
  cases phase with
  | idle => exact absurd rfl hphase
  | get key began reader => exact h.advance_get
  | lock op => exact h.advance_lock
  | write op writer =>
    by_cases hunlock : ∃ result, writer = .unlock result
    · obtain ⟨result, rfl⟩ := hunlock
      exact h.advance_unlock
    · exact h.advance_write fun result heq => hunlock ⟨result, heq⟩

theorem call (h : Alone m .idle) (op : Op V) :
    ∃ m' phase', m.step (.call 0 op) = some m' ∧ Alone m' phase' ∧ phase'.op = some op ∧
      m'.calls = m.calls := by
  have hthread : m.threads[0]? = some .idle := by
    rw [h.thread]
    rfl
  obtain ⟨s, hs⟩ := h.exists_shard op.key
  have hmove : ∀ phase', m.begin? op = some phase' → m.step (.call 0 op) = some (m.move 0 phase') := by
    intro phase' hbegin
    simp only [ShardedMap.step, hthread, hbegin, Option.bind_eq_bind, Option.bind_some]
    rfl
  have halone : ∀ phase', m.step (.call 0 op) = some (m.move 0 phase') → phase'.taken = [] →
      phase'.owed = 0 → m.Knows phase' → Alone (m.move 0 phase') phase' := by
    intro phase' hstep htaken howed hknows
    refine ⟨?_, (ShardedMap.step_spec h.inv hstep).inv, h.right, ?_, ?_, ?_⟩
    · show m.threads.set 0 _ = _
      rw [h.thread]
      rfl
    · rw [htaken]
      exact h.agrees
    · rw [howed]
      exact h.len
    · cases phase' with
      | idle => trivial
      | get => exact hknows
      | lock => exact hknows
      | write => exact hknows
  cases op with
  | get key =>
    have hs' : m.shard? key = some s := hs
    have hstep := hmove (.get key s.history.length .table) (by rw [ShardedMap.begin?, hs']; rfl)
    exact ⟨_, _, hstep, halone _ hstep rfl rfl ⟨s, hs, rfl, trivial⟩, rfl, rfl⟩
  | insert key value =>
    have hstep := hmove (.lock (.insert key value)) rfl
    exact ⟨_, _, hstep, halone _ hstep rfl rfl (fun _ h => by cases h), rfl, rfl⟩
  | remove key =>
    have hstep := hmove (.lock (.remove key)) rfl
    exact ⟨_, _, hstep, halone _ hstep rfl rfl (fun _ h => by cases h), rfl, rfl⟩

/-- Whatever the thread does, it stays as it should be. -/
theorem step (h : Alone m phase) (hstep : m.step a = some m') : ∃ phase', Alone m' phase' := by
  cases a with
  | call t op =>
    have hthread : t = 0 ∧ phase = .idle := by
      simp only [ShardedMap.step] at hstep
      split at hstep
      next ht => exact (h.phase_eq ht).imp_right Eq.symm
      · cases hstep
    obtain ⟨rfl, rfl⟩ := hthread
    obtain ⟨m'', phase', hstep', halone, -⟩ := h.call op
    cases Option.some.inj (hstep.symm.trans hstep')
    exact ⟨phase', halone⟩
  | advance t =>
    have hthread : t = 0 ∧ phase ≠ .idle := by
      obtain ⟨p, ht, hp⟩ := Option.bind_eq_some_iff.mp hstep
      obtain ⟨rfl, rfl⟩ := h.phase_eq ht
      refine ⟨rfl, ?_⟩
      rintro rfl
      cases hp
    obtain ⟨rfl, hphase⟩ := hthread
    obtain ⟨m'', phase', hstep', halone, -⟩ := h.advance hphase
    cases Option.some.inj (hstep.symm.trans hstep')
    exact ⟨phase', halone⟩

/-- A call ends. -/
theorem completes {op : Op V} (h : Alone m phase) (hop : phase.op = some op) :
    ∃ m', Reachable ShardedMap.step (fun _ _ => True) m m' ∧ Alone m' .idle ∧
      m'.calls.map Call.op = m.calls.map Call.op ++ [op] := by
  obtain ⟨s, hs⟩ := h.exists_shard op.key
  obtain ⟨_, _, ⟨t, hbase, -⟩, -⟩ := h.inv.kept _ s hs
  have htable : HasTable m op.key t := ⟨s, hs, hbase.current⟩
  clear hbase hs
  -- Induction on the rank of the phase.
  induction hn : phase.rank t using Nat.strong_induction_on generalizing m phase t with
  | _ n ih =>
    have hphase : phase ≠ .idle := by
      rintro rfl
      cases hop
    obtain ⟨m', phase', hstep, halone, hadvanced⟩ := h.advance hphase
    have hfirst : Reachable ShardedMap.step (fun _ _ => True) m m' := .step .start trivial hstep
    cases hadvanced with
    | returned hidle hcalls hcall =>
      subst hidle
      refine ⟨m', hfirst, halone, ?_⟩
      rw [hcalls, List.map_append, List.map_singleton]
      cases Option.some.inj (hop.symm.trans hcall)
      rfl
    | advanced hcalls hop' hrank =>
      obtain ⟨t', htable', hlt⟩ := hrank op t hop htable
      obtain ⟨m'', hreach, hidle, hcalls'⟩ := ih _ (hn ▸ hlt) halone (hop'.trans hop) t' htable' rfl
      refine ⟨m'', hfirst.trans hreach, hidle, ?_⟩
      rw [hcalls', hcalls]

theorem start {capacity : Nat} {m : ShardedMap V} (h : ShardedMap.new capacity 1 = .ok m) :
    Alone m .idle := by
  obtain ⟨hinv, -⟩ := ShardedMap.new_spec h
  obtain ⟨table, -, rfl⟩ := ShardedMap.new_eq h
  refine ⟨rfl, hinv, (fun _ _ h => by cases h), ?_, ?_, trivial⟩
  · intro σ s hs key
    rw [List.eq_of_mem_replicate (List.mem_of_getElem? hs)]
    split_ifs
    · exact .absent
    · exact .absent
  · rw [List.map_replicate, List.sum_replicate]
    rfl

/-- The keys that are in the map are as many as its counter says. -/
theorem len_eq (h : Alone m .idle) {keys : List Nat} (hnodup : keys.Nodup)
    (hkeys : ∀ key, key ∈ keys ↔ (lastValue key (m.calls.map Call.op)).isSome = true) :
    m.len = keys.length := by
  have hcount : ∀ (σ : Nat) (s : Shard V), m.shards[σ]? = some s →
      (present s.history).length = keys.countP (ShardedMap.shardOf · = σ) := by
    intro σ s hs
    obtain ⟨hpresent, hmem⟩ := present_spec s.history
    rw [List.countP_eq_length_filter]
    refine ((List.perm_ext_iff_of_nodup hpresent (hnodup.filter _)).mpr ?_).length_eq
    intro key
    have hagrees := (h.agrees σ s hs key).isSome
    have htaken : Phase.taken (.idle : Phase V) = [] := rfl
    rw [htaken, List.append_nil] at hagrees
    rw [hmem key, hagrees, List.mem_filter, hkeys, decide_eq_true_eq]
    split_ifs with hσ
    · simp [hσ]
    · simp [hσ]
  have hmap : (m.shards.map fun s => (present s.history).length) =
      (List.range SHARD_COUNT).map fun σ => keys.countP (ShardedMap.shardOf · = σ) := by
    refine List.ext_getElem? fun σ => ?_
    rw [List.getElem?_map, List.getElem?_map]
    rcases Nat.lt_or_ge σ SHARD_COUNT with hσ | hσ
    · have hlt : σ < m.shards.length := h.inv.size.symm ▸ hσ
      have hs := List.getElem?_eq_getElem hlt
      rw [hs, List.getElem?_range hσ, Option.map_some, Option.map_some, hcount σ _ hs]
    · rw [List.getElem?_eq_none (h.inv.size.symm ▸ hσ), List.getElem?_eq_none (by simpa using hσ)]
      rfl
  have hall : keys.countP (ShardedMap.shardOf · < SHARD_COUNT) = keys.length := by
    refine List.countP_eq_length.mpr fun key _ => decide_eq_true ?_
    exact Nat.lt_succ_of_le Nat.and_le_right
  have hlen := h.len
  rw [hmap, sum_countP_range, hall] at hlen
  exact Int.ofNat_inj.mp ((Int.add_zero _).symm.trans hlen)

end Alone

-- ---------------------------------------------------------------------------
-- Every run
-- ---------------------------------------------------------------------------

namespace ShardedMap

/-- From `start` on, one thread has a finite map: no write fails, every `get`
returns the last value, the counter is the number of keys, each box is retired
or freed by a destructor once, and every sequence of calls can be made. -/
structure IsFiniteMap (start : ShardedMap V) : Prop where
  right : ∀ m, Reachable step (fun _ _ => True) start m → ∀ (n : Nat) (call : Call V),
    m.calls[n]? = some call → call.Right ((m.calls.take n).map Call.op)
  len : ∀ m, Reachable step (fun _ _ => True) start m → m.threads = [.idle] →
    ∀ keys : List Nat, keys.Nodup →
      (∀ key, key ∈ keys ↔ (lastValue key (m.calls.map Call.op)).isSome = true) →
      m.len = keys.length
  boxes : ∀ m, Reachable step (fun _ _ => True) start m → m.threads = [.idle] →
    ∀ s ∈ m.shards, (s.dropped ++ s.retired).Perm (List.range s.boxes.length)
  calls : ∀ ops : List (Op V), ∃ m, Reachable step (fun _ _ => True) start m ∧
    m.threads = [.idle] ∧ m.calls.map Call.op = ops

theorem alone_of_reachable {start m : ShardedMap V} (h : Alone start .idle)
    (hreach : Reachable step (fun _ _ => True) start m) : ∃ phase, Alone m phase := by
  induction hreach with
  | start => exact ⟨.idle, h⟩
  | step _ _ hstep ih =>
    obtain ⟨phase, halone⟩ := ih
    exact halone.step hstep

theorem sequential {capacity : Nat} {start : ShardedMap V} (hnew : new capacity 1 = .ok start) :
    start.IsFiniteMap := by
  have hstart := Alone.start hnew
  have hidle : ∀ m, Reachable step (fun _ _ => True) start m → m.threads = [.idle] →
      Alone m .idle := by
    intro m hreach hthreads
    obtain ⟨phase, halone⟩ := alone_of_reachable hstart hreach
    have hphase : phase = .idle := by
      have hthread := halone.thread
      rw [hthreads] at hthread
      exact (List.singleton_inj.mp hthread).symm
    exact hphase ▸ halone
  refine ⟨?_, fun m hreach hthreads keys => (hidle m hreach hthreads).len_eq, ?_, ?_⟩
  · intro m hreach
    obtain ⟨phase, halone⟩ := alone_of_reachable hstart hreach
    exact halone.right
  · intro m hreach hthreads s hs
    obtain ⟨σ, hσ⟩ := List.mem_iff_getElem?.mp hs
    have halone := hidle m hreach hthreads
    exact (halone.inv.rest σ s hσ (halone.unlocked (fun _ _ h => by cases h) hσ) 0).accounts
  · intro ops
    induction ops using List.reverseRecOn with
    | nil =>
      refine ⟨start, .start, hstart.thread, ?_⟩
      obtain ⟨-, hcalls⟩ := new_spec hnew
      rw [hcalls]
      rfl
    | append_singleton ops op ih =>
      obtain ⟨m, hreach, hthreads, hcalls⟩ := ih
      obtain ⟨m', phase, hstep, halone, hop, hcalls'⟩ := (hidle m hreach hthreads).call op
      obtain ⟨m'', hreach', hidle', hcalls''⟩ := halone.completes hop
      refine ⟨m'', (hreach.step trivial hstep).trans hreach', hidle'.thread, ?_⟩
      rw [hcalls'', hcalls', hcalls]

end ShardedMap

/-- A map of Nat values with one thread and tables of eight slots. -/
def single : ShardedMap Nat := { pair with threads := [.idle] }

theorem ShardedMap.sequential_eight :
    ShardedMap.new 8 1 = .ok single ∧ single.IsFiniteMap :=
  ⟨rfl, sequential (show ShardedMap.new 8 1 = .ok single from rfl)⟩

end Sharded

end Sxla
