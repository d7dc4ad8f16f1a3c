import Sxla.Library.Checked
import Sxla.Library.Interleave

/-!
# Static partitioning

The scoped executor zips the chunks of the inputs with those of the outputs,
one worker for each pair; the pool has worker `w` take the chunks `w`,
`w + n` and so on by index arithmetic on raw pointers. A region that returns
`Ok` is described by the stores each of its workers makes, in order.

A slice has elements that take space, so it holds fewer than `2^63` of them.
-/

namespace Sxla

open Checked Interleave

def MAX_WORKERS : Nat := 64

inductive PoolError where
  | jobPanicked
  | spawnFailed
deriving DecidableEq, Repr

inductive ExecError where
  | dequeFull
  | tooManyWorkers
  | zeroWorkers
  | lengthMismatch
  | pool (e : PoolError)
deriving DecidableEq, Repr

structure Slice (α : Type) where
  items : List α
  sized : items.length < 0x8000000000000000

/-- How a region ends other than with `Ok`. -/
inductive Fault where
  | error (e : ExecError)
  | panic
  | diverges
deriving DecidableEq, Repr

/-- `outputs[i] = value`. -/
abbrev Store (β : Type) := Nat × β

namespace Partition

/-- A `usize` result; an overflow panics. -/
def usize (n : Nat) : Except Fault Nat := if n < 0x10000000000000000 then .ok n else .error .panic

def divCeil (n d : Nat) : Nat := if n % d > 0 then n / d + 1 else n / d

def checkWorkerCount (n : Nat) : Except Fault Unit :=
  if n = 0 then .error (.error .zeroWorkers)
  else if n > MAX_WORKERS then .error (.error .tooManyWorkers)
  else .ok ()

/-- `slice.chunks(size)`; no size of 0. -/
def chunks (size : Nat) (l : List α) : Except Fault (List (List α)) :=
  if size = 0 then .error .panic
  else .ok ((List.range (divCeil l.length size)).map fun k => (l.drop (k * size)).take size)

/-- `slice.chunks_mut(size)`: where each chunk starts and its length. -/
def chunksMut (size len : Nat) : Except Fault (List (Nat × Nat)) :=
  if size = 0 then .error .panic
  else .ok ((List.range (divCeil len size)).map fun k => (k * size, min size (len - k * size)))

/-- `for (i, item) in cin.iter().enumerate() { cout[i] = f(item) }`, with
`cout` at `base`. -/
def fill (f : α → β) (base len : Nat) (cin : List α) : Except Fault (List (Store β)) :=
  cin.zipIdx.mapM fun (item, i) => if i < len then .ok (base + i, f item) else .error .panic

end Partition

open Partition

def runPartitionedScoped (f : α → β) (inputs : Slice α) (outputs : Slice β) (numWorkers : Nat) :
    Except Fault (List (List (Store β))) := do
  checkWorkerCount numWorkers
  if inputs.items.length ≠ outputs.items.length then throw (.error .lengthMismatch)
  if inputs.items = [] then return []
  let chunk := divCeil inputs.items.length numWorkers
  let cins ← chunks chunk inputs.items
  let couts ← chunksMut chunk outputs.items.length
  (cins.zip couts).mapM fun (cin, base, len) => fill f base len cin

/-- `Pool::new` accepts no more helpers. -/
structure Pool where
  helpers : Nat
  bounded : helpers + 1 ≤ MAX_WORKERS

namespace Pool

def workers (pool : Pool) : Nat := pool.helpers + 1

/-- `&inputs[start..end]`. -/
def slice (inputs : List α) (start stop : Nat) : Except Fault (List α) :=
  if start ≤ stop ∧ stop ≤ inputs.length then .ok ((inputs.drop start).take (stop - start))
  else .error .panic

/-- The loop of a worker, from chunk `c` on. A panic of the body is reported
and becomes an error of the region. -/
def partitionTrampoline (f : α → β) (inputs : List α) (n chunk : Nat) :
    Nat → Nat → Except Fault (List (Store β))
  | 0, _ => .error .diverges
  | fuel + 1, c => do
    let start ← usize (c * chunk)
    if start ≥ inputs.length then return []
    let stop := min (← usize (start + chunk)) inputs.length
    let inChunk ← slice inputs start stop
    let stores ← (fill f start (stop - start) inChunk).mapError fun _ =>
      .error (.pool .jobPanicked)
    let next ← usize (c + n)
    return stores ++ (← partitionTrampoline f inputs n chunk fuel next)

def runPartitioned (pool : Pool) (f : α → β) (inputs : Slice α) (outputs : Slice β) :
    Except Fault (List (List (Store β))) := do
  if inputs.items.length ≠ outputs.items.length then throw (.error .lengthMismatch)
  let n := pool.workers
  let chunk := divCeil inputs.items.length n
  (List.range n).mapM (partitionTrampoline f inputs.items n chunk (inputs.items.length + 2))

end Pool

/-- The routing of the free function: the global pool where the caller is in
no region and the worker counts agree. -/
def runPartitioned (inPooledRegion : Bool) (globalPool : Pool) (f : α → β) (inputs : Slice α)
    (outputs : Slice β) (numWorkers : Nat) : Except Fault (List (List (Store β))) :=
  if !inPooledRegion && globalPool.workers == numWorkers then
    globalPool.runPartitioned f inputs outputs
  else
    runPartitionedScoped f inputs outputs numWorkers

-- ---------------------------------------------------------------------------
-- The stores of the chunks
-- ---------------------------------------------------------------------------

namespace Partition

variable {f : α → β} {l : List α} {len n size base m : Nat}

/-- What a region has to store. -/
def allStores (f : α → β) (l : List α) : List (Store β) := l.zipIdx.map fun (x, i) => (i, f x)

def chunkStores (f : α → β) (l : List α) (size k : Nat) : List (Store β) :=
  ((allStores f l).drop (k * size)).take size

theorem length_allStores : (allStores f l).length = l.length := by simp [allStores]

theorem getElem?_allStores {i : Nat} : (allStores f l)[i]? = l[i]?.map fun x => (i, f x) := by
  simp [allStores, Function.comp_def]

theorem map_fst_allStores : (allStores f l).map (·.1) = List.range l.length := by
  simp [allStores, Function.comp_def, List.range_eq_range']

theorem fill_eq {cin : List α} (h : cin.length ≤ len) :
    fill f base len cin = .ok (cin.zipIdx.map fun (x, i) => (base + i, f x)) := by
  suffices hfrom : ∀ k, k + cin.length ≤ len → (cin.zipIdx k).mapM
      (fun (item, i) => if i < len then .ok (base + i, f item) else .error .panic) =
      (.ok ((cin.zipIdx k).map fun (x, i) => (base + i, f x)) : Except Fault (List (Store β))) from
    hfrom 0 (by simpa using h)
  clear h
  induction cin with
  | nil => exact fun _ _ => rfl
  | cons x cin ih =>
    intro k hk
    rw [List.length_cons] at hk
    have hlt : k < len := by omega
    rw [List.zipIdx_cons, List.mapM_cons, ih (k + 1) (by omega), List.map_cons]
    simp only [hlt, ↓reduceIte]
    rfl

theorem zipIdx_chunk (a : Nat) : ((l.drop a).take size).zipIdx.map (fun (x, i) => (a + i, f x)) =
    ((allStores f l).drop a).take size := by
  refine List.ext_getElem? fun i => ?_
  by_cases hi : i < size
  · simp [hi, getElem?_allStores, Function.comp_def]
  · simp [List.getElem?_take, hi]

/-- Chunks that reach the end are all of a list. -/
theorem flatten_chunks {L : List γ} (h : L.length ≤ m * size) :
    ((List.range m).map fun k => (L.drop (k * size)).take size).flatten = L := by
  have htake : ∀ m, ((List.range m).map fun k => (L.drop (k * size)).take size).flatten =
      L.take (m * size) := by
    intro m
    induction m with
    | zero => simp
    | succ m ih =>
      rw [List.range_succ, List.map_append, List.flatten_append, ih, Nat.succ_mul, List.take_add]
      simp
  rw [htake, List.take_of_length_le h]

theorem le_mul_divCeil (h : 0 < n) : len ≤ n * divCeil len n := by
  have hdiv := Nat.div_add_mod len n
  unfold divCeil
  split
  · have hmod := Nat.mod_lt len h
    rw [Nat.mul_add]
    omega
  · omega

theorem mul_divCeil_le (h : 0 < n) : n * divCeil len n ≤ len + (n - 1) := by
  have hdiv := Nat.div_add_mod len n
  unfold divCeil
  split
  · rw [Nat.mul_add]
    omega
  · omega

theorem divCeil_pos (hn : 0 < n) (hlen : 0 < len) : 0 < divCeil len n := by
  have h := @le_mul_divCeil len n hn
  refine Nat.pos_of_ne_zero fun h0 => ?_
  rw [h0] at h
  omega

/-- A region that gives every index to exactly one worker, stores nowhere
else, and leaves `f` of each input whatever the schedule. -/
def IsMap (f : α → β) (inputs : Slice α) (outputs : Slice β)
    (region : Except Fault (List (List (Store β)))) : Prop :=
  ∃ workers, region = .ok workers ∧
    (workers.flatten.map (·.1)).Perm (List.range outputs.items.length) ∧
    ∀ schedule, Merges workers schedule →
      write outputs.items schedule = inputs.items.map f

theorem isMap_of_flatten {inputs : Slice α} {outputs : Slice β}
    {region : Except Fault (List (List (Store β)))} (workers : List (List (Store β)))
    (hok : region = .ok workers)
    (hlen : inputs.items.length = outputs.items.length)
    (h : workers.flatten = allStores f inputs.items) : IsMap f inputs outputs region := by
  refine ⟨workers, hok, ?_, fun schedule hs => List.ext_getElem? fun i => ?_⟩
  · rw [h, map_fst_allStores, hlen]
  have hperm : schedule.Perm (allStores f inputs.items) := h ▸ hs.perm
  have hnodup : (schedule.map (·.1)).Nodup := by
    rw [(hperm.map _).nodup_iff, map_fst_allStores]
    exact List.nodup_range
  by_cases hi : i < inputs.items.length
  · have hmem : (i, f inputs.items[i]) ∈ schedule := by
      rw [hperm.mem_iff]
      refine List.mem_of_getElem? (i := i) ?_
      rw [getElem?_allStores, List.getElem?_eq_getElem hi]
      rfl
    rw [write_store hnodup (hlen ▸ hi) hmem, List.getElem?_map, List.getElem?_eq_getElem hi]
    rfl
  · rw [List.getElem?_eq_none, List.getElem?_eq_none]
    · simpa using Nat.le_of_not_lt hi
    · rw [length_write]
      omega

-- ---------------------------------------------------------------------------
-- Both paths
-- ---------------------------------------------------------------------------

theorem scoped_stores {inputs : Slice α} {outputs : Slice β}
    (hlen : inputs.items.length = outputs.items.length) (hn : 1 ≤ n) (hmax : n ≤ MAX_WORKERS) :
    ∃ workers, runPartitionedScoped f inputs outputs n = .ok workers ∧
      workers.flatten = allStores f inputs.items := by
  have hcount : checkWorkerCount n = .ok () := by
    rw [checkWorkerCount, if_neg (by omega), if_neg (by omega)]
  by_cases hempty : inputs.items = []
  · refine ⟨[], ?_, by simp [hempty, allStores]⟩
    simp [runPartitionedScoped, hcount, ← hlen, hempty, bind, Except.bind, pure, Except.pure]
  have hpos : 0 < inputs.items.length := List.length_pos_of_ne_nil hempty
  let chunk := divCeil inputs.items.length n
  have hchunk : 0 < chunk := divCeil_pos hn hpos
  let count := divCeil inputs.items.length chunk
  have hreach : inputs.items.length ≤ count * chunk := by
    rw [Nat.mul_comm]
    exact le_mul_divCeil hchunk
  refine ⟨(List.range count).map (chunkStores f inputs.items chunk), ?_,
    flatten_chunks (by rwa [length_allStores])⟩
  have hfills : (((List.range count).map fun k => (inputs.items.drop (k * chunk)).take chunk).zip
      ((List.range count).map fun k => (k * chunk, min chunk (inputs.items.length - k * chunk)))).mapM
        (fun (cin, base, len) => fill f base len cin) =
      .ok ((List.range count).map (chunkStores f inputs.items chunk)) := by
    rw [List.zip_map', List.mapM_map]
    refine mapM_eq fun k _ => ?_
    have hfill := @fill_eq _ _ f (min chunk (inputs.items.length - k * chunk)) (k * chunk)
      ((inputs.items.drop (k * chunk)).take chunk) (by simp)
    exact hfill.trans (congrArg _ (zipIdx_chunk _))
  have hcins : chunks chunk inputs.items =
      .ok ((List.range count).map fun k => (inputs.items.drop (k * chunk)).take chunk) :=
    if_neg (Nat.ne_of_gt hchunk)
  have hcouts : chunksMut chunk inputs.items.length =
      .ok ((List.range count).map fun k => (k * chunk, min chunk (inputs.items.length - k * chunk))) :=
    if_neg (Nat.ne_of_gt hchunk)
  simp only [runPartitionedScoped, hcount, ← hlen, ne_eq, not_true_eq_false, ↓reduceIte, hempty,
    bind, Except.bind]
  rw [hcins, hcouts]
  exact hfills

theorem trampoline_eq {fuel k : Nat} (hl : l.length < 0x8000000000000000) (hn : n ≤ MAX_WORKERS)
    (hk : k < n) : Pool.partitionTrampoline f l n (divCeil l.length n) (fuel + 2) k =
      .ok (chunkStores f l (divCeil l.length n) k) := by
  have hpos : 0 < n := Nat.lt_of_le_of_lt (Nat.zero_le k) hk
  have hreach := @le_mul_divCeil l.length n hpos
  have hle := @mul_divCeil_le l.length n hpos
  generalize divCeil l.length n = chunk at *
  have hmax : n * chunk ≤ 64 * chunk := Nat.mul_le_mul_right chunk hn
  have hn : n ≤ 64 := hn
  have hmul : k * chunk + chunk ≤ n * chunk := by
    rw [← Nat.succ_mul]
    exact Nat.mul_le_mul_right chunk hk
  have hstart : usize (k * chunk) = .ok (k * chunk) := if_pos (by omega)
  simp only [Pool.partitionTrampoline, hstart, bind, Except.bind]
  split
  · next hend =>
    rw [chunkStores, List.drop_eq_nil_of_le (by rwa [length_allStores])]
    simp [pure, Except.pure]
  · next hend =>
    have hstop : usize (k * chunk + chunk) = .ok (k * chunk + chunk) := if_pos (by omega)
    have hnext : usize (k + n) = .ok (k + n) := if_pos (by omega)
    have hlast : usize ((k + n) * chunk) = .ok ((k + n) * chunk) :=
      if_pos (by rw [Nat.add_mul]; omega)
    have hover : (k + n) * chunk ≥ l.length := by rw [Nat.add_mul]; omega
    have hslice : Pool.slice l (k * chunk) (min (k * chunk + chunk) l.length) =
        .ok ((l.drop (k * chunk)).take chunk) := by
      rw [Pool.slice, if_pos (by omega)]
      congr 1
      rw [List.take_eq_take_iff, List.length_drop]
      omega
    simp only [hstop, hslice, hnext, hlast, hover, ↓reduceIte, pure, Except.pure,
      fill_eq (show ((l.drop (k * chunk)).take chunk).length ≤
        min (k * chunk + chunk) l.length - k * chunk by simp; omega), Except.mapError,
      zipIdx_chunk, List.append_nil]
    rfl

theorem pool_stores (pool : Pool) {inputs : Slice α} {outputs : Slice β}
    (hlen : inputs.items.length = outputs.items.length) :
    ∃ workers, pool.runPartitioned f inputs outputs = .ok workers ∧
      workers.flatten = allStores f inputs.items := by
  let chunk := divCeil inputs.items.length pool.workers
  have hreach : inputs.items.length ≤ pool.workers * chunk := le_mul_divCeil (Nat.succ_pos _)
  refine ⟨(List.range pool.workers).map (chunkStores f inputs.items chunk), ?_,
    flatten_chunks (by rwa [length_allStores])⟩
  have hruns : (List.range pool.workers).mapM
      (Pool.partitionTrampoline f inputs.items pool.workers chunk (inputs.items.length + 2)) =
      .ok ((List.range pool.workers).map (chunkStores f inputs.items chunk)) :=
    mapM_eq fun k hk => trampoline_eq inputs.sized pool.bounded (List.mem_range.mp hk)
  simp only [Pool.runPartitioned, hlen, ne_eq, not_true_eq_false, ↓reduceIte]
  exact hlen ▸ hruns

/-- Where the region starts, its stores are all there are to make. -/
theorem stores {inPooledRegion : Bool} {globalPool : Pool} {inputs : Slice α} {outputs : Slice β}
    (hlen : inputs.items.length = outputs.items.length) (hn : 1 ≤ n) (hmax : n ≤ MAX_WORKERS) :
    ∃ workers, runPartitioned inPooledRegion globalPool f inputs outputs n = .ok workers ∧
      workers.flatten = allStores f inputs.items := by
  rw [runPartitioned]
  split
  · exact pool_stores globalPool hlen
  · exact scoped_stores hlen hn hmax

end Partition

/-- Both paths, and the routing between them, are `map`. -/
theorem partition_isMap (f : α → β) (inputs : Slice α) (outputs : Slice β)
    (hlen : inputs.items.length = outputs.items.length) :
    (∀ n, 1 ≤ n → n ≤ MAX_WORKERS →
      IsMap f inputs outputs (runPartitionedScoped f inputs outputs n)) ∧
    (∀ pool : Pool, IsMap f inputs outputs (pool.runPartitioned f inputs outputs)) ∧
    ∀ inPooledRegion globalPool n, 1 ≤ n → n ≤ MAX_WORKERS →
      IsMap f inputs outputs (runPartitioned inPooledRegion globalPool f inputs outputs n) := by
  refine ⟨fun n hn hmax => ?_, fun pool => ?_, fun inPooledRegion globalPool n hn hmax => ?_⟩
  · obtain ⟨workers, hok, hflat⟩ := scoped_stores hlen hn hmax
    exact isMap_of_flatten workers hok hlen hflat
  · obtain ⟨workers, hok, hflat⟩ := pool_stores pool hlen
    exact isMap_of_flatten workers hok hlen hflat
  · obtain ⟨workers, hok, hflat⟩ := stores hlen hn hmax
    exact isMap_of_flatten workers hok hlen hflat

def fiveInputs : Slice Nat := ⟨[10, 20, 30, 40, 50], by decide⟩

def fiveOutputs : Slice Nat := ⟨[0, 0, 0, 0, 0], by decide⟩

def oneHelper : Pool := ⟨1, by decide⟩

/-- The second of two workers gets the shorter chunk. -/
theorem partition_isMap_five : IsMap (· + 1) fiveInputs fiveOutputs
    (runPartitioned false oneHelper (· + 1) fiveInputs fiveOutputs 2) :=
  (partition_isMap (· + 1) fiveInputs fiveOutputs rfl).2.2 false oneHelper 2 (by decide)
    (by decide)

end Sxla
