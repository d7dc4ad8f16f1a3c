import Sxla.Library.RingCounter
import Sxla.Library.Transition

/-!
# The SPSC ring

Each side owns one index and loads the other's. One step is one access to an
index or to a slot, and a side keeps what it has loaded until it decides.
Reading a slot leaves its memory as it is.

`accepted` are the values of the pushes that have succeeded, `returned` those
that pops of either kind have returned.
-/

namespace Sxla

open Transition RingCounter

namespace Spsc

inductive QueueError where
  | full
  | empty
deriving DecidableEq, Repr

/-- A slot that was never written holds nothing. -/
structure SpscRing (α : Type) where
  head : UInt64
  tail : UInt64
  buffer : List (Option α)
  mask : UInt64
deriving DecidableEq, Repr

namespace SpscRing

variable {α : Type}

def new (capacity : UInt64) : SpscRing α :=
  ⟨0, 0, List.replicate capacity.toNat none, capacity - 1⟩

def slot (r : SpscRing α) (index : UInt64) : Nat := (index &&& r.mask).toNat

def write (r : SpscRing α) (index : UInt64) (value : α) : SpscRing α :=
  { r with buffer := r.buffer.set (r.slot index) (some value) }

def read (r : SpscRing α) (index : UInt64) : Option α := r.buffer[r.slot index]?.join

end SpscRing

/-- Where a push stands, before the access of that name; `t` is the tail that
it has loaded. -/
inductive Pushing (α : Type) where
  | idle
  | loadHead (value : α) (t : UInt64)
  | write (value : α) (t : UInt64)
  | publish (value : α) (t : UInt64)
deriving DecidableEq, Repr

/-- Where a pop stands. A batch has read `out` and wants `n` values. -/
inductive Popping (α : Type) where
  | idle
  | loadHead (t : UInt64)
  | read (h : UInt64)
  | publish (h : UInt64) (value : Option α)
  | batchHead (len : Nat) (t : UInt64)
  | batch (h : UInt64) (n : Nat) (out : List (Option α))
deriving DecidableEq, Repr

structure State (α : Type) where
  ring : SpscRing α
  pushing : Pushing α
  popping : Popping α
  accepted : List α
  returned : List (Option α)
deriving DecidableEq, Repr

/-- A call begins with its load of the tail, or a side goes on. -/
inductive Action (α : Type) where
  | push (value : α)
  | pop
  | popBatch (len : Nat)
  | producer
  | consumer
deriving DecidableEq, Repr

namespace State

variable {α : Type}

def start (capacity : UInt64) : State α := ⟨.new capacity, .idle, .idle, [], []⟩

/-- The load of the head in `push`, and its check. -/
def pushHead (s : State α) (value : α) (t : UInt64) : Except QueueError (State α) :=
  if t - s.ring.head > s.ring.mask then .error .full
  else .ok { s with pushing := .write value t }

/-- The store of the tail in `push`. -/
def pushTail (s : State α) (value : α) (t : UInt64) : State α :=
  { s with
    ring := { s.ring with tail := t + 1 }
    pushing := .idle
    accepted := s.accepted ++ [value] }

/-- The load of the head in `pop`, and its check. -/
def popHead (s : State α) (t : UInt64) : Except QueueError (State α) :=
  if s.ring.head = t then .error .empty else .ok { s with popping := .read s.ring.head }

/-- The load of the head in `pop_batch`. -/
def batchHead (s : State α) (len : Nat) (t : UInt64) : State α :=
  let available := t - s.ring.head
  if available = 0 ∨ len = 0 then { s with popping := .idle }
  else { s with popping := .batch s.ring.head (min available.toNat len) [] }

/-- The store of the head, behind the last value returned. -/
def popTail (s : State α) (h : UInt64) (values : List (Option α)) : State α :=
  { s with
    ring := { s.ring with head := h + UInt64.ofNat values.length }
    popping := .idle
    returned := s.returned ++ values }

def stepProducer (s : State α) : Option (State α) :=
  match s.pushing with
  | .idle => none
  | .loadHead value t =>
    match s.pushHead value t with
    | .ok s' => some s'
    | .error _ => some { s with pushing := .idle }
  | .write value t => some { s with ring := s.ring.write t value, pushing := .publish value t }
  | .publish value t => some (s.pushTail value t)

def stepConsumer (s : State α) : Option (State α) :=
  match s.popping with
  | .idle => none
  | .loadHead t =>
    match s.popHead t with
    | .ok s' => some s'
    | .error _ => some { s with popping := .idle }
  | .read h => some { s with popping := .publish h (s.ring.read h) }
  | .publish h value => some (s.popTail h [value])
  | .batchHead len t => some (s.batchHead len t)
  | .batch h n out =>
    if out.length < n then
      let value := s.ring.read (h + UInt64.ofNat out.length)
      some { s with popping := .batch h n (out ++ [value]) }
    else some (s.popTail h out)

def step (s : State α) : Action α → Option (State α)
  | .push value =>
    match s.pushing with
    | .idle => some { s with pushing := .loadHead value s.ring.tail }
    | _ => none
  | .pop =>
    match s.popping with
    | .idle => some { s with popping := .loadHead s.ring.tail }
    | _ => none
  | .popBatch len =>
    match s.popping with
    | .idle => some { s with popping := .batchHead len s.ring.tail }
    | _ => none
  | .producer => s.stepProducer
  | .consumer => s.stepConsumer

end State

/-- A pop without a step of the producer in between. -/
def single (α : Type) : List (Action α) := [.pop, .consumer, .consumer, .consumer]

/-- So many single pops. -/
def singles (α : Type) (n : Nat) : List (Action α) := (List.replicate n (single α)).flatten

-- ---------------------------------------------------------------------------
-- The invariant
-- ---------------------------------------------------------------------------

namespace State

variable {α : Type} {s s' : State α} {capacity : UInt64} {value : α} {t h : UInt64} {len n : Nat}
  {out : List (Option α)}

/-- What a push has loaded, checked and written. -/
def PushOk (cap : Nat) (s : State α) : Prop :=
  match s.pushing with
  | .idle => True
  | .loadHead _ t => t = s.ring.tail
  | .write _ t => t = s.ring.tail ∧ s.accepted.length < s.returned.length + cap
  | .publish value t => t = s.ring.tail ∧ s.accepted.length < s.returned.length + cap ∧
      s.ring.buffer[s.accepted.length % cap]? = some (some value)

/-- The next `n` values. -/
def next (s : State α) (n : Nat) : List (Option α) :=
  ((s.accepted.drop s.returned.length).take n).map some

/-- What a pop has loaded, checked and read. A loaded tail may be old. -/
def PopOk (s : State α) : Prop :=
  match s.popping with
  | .idle => True
  | .loadHead t | .batchHead _ t => ∃ k, t = .ofNat k ∧ s.returned.length ≤ k ∧
      k ≤ s.accepted.length
  | .read h => h = s.ring.head ∧ s.returned.length < s.accepted.length
  | .publish h value => h = s.ring.head ∧ s.returned.length < s.accepted.length ∧
      [value] = s.next 1
  | .batch h n out => h = s.ring.head ∧ s.returned.length + n ≤ s.accepted.length ∧
      out.length ≤ n ∧ out = s.next out.length

/-- The slots between the two indices hold the values that are accepted and
not returned, each in the slot of its number. -/
structure Inv (cap : Nat) (s : State α) : Prop where
  mask : s.ring.mask = .ofNat (cap - 1)
  tail : s.ring.tail = .ofNat s.accepted.length
  head : s.ring.head = .ofNat s.returned.length
  size : s.ring.buffer.length = cap
  fifo : s.returned = (s.accepted.take s.returned.length).map some
  room : s.accepted.length ≤ s.returned.length + cap
  present : ∀ i, s.returned.length ≤ i → i < s.accepted.length →
    s.ring.buffer[i % cap]? = some s.accepted[i]?
  push : s.PushOk cap
  pop : s.PopOk

namespace Inv

variable {cap : Nat}

theorem returned_le (hi : Inv cap s) : s.returned.length ≤ s.accepted.length := by
  have hlen := congrArg List.length hi.fifo
  rw [List.length_map, List.length_take] at hlen
  omega

theorem slot_ofNat (hpow : cap.isPowerOfTwo) (hcap : cap < UInt64.size) (hi : Inv cap s) (i : Nat) :
    s.ring.slot (.ofNat i) = i % cap := by
  rw [SpscRing.slot, hi.mask]
  exact slot_eq hpow hcap i

/-- A slot between the two indices gives the value of its number. -/
theorem read_eq (hpow : cap.isPowerOfTwo) (hcap : cap < UInt64.size) (hi : Inv cap s) {i : Nat}
    (hlo : s.returned.length ≤ i) (hlt : i < s.accepted.length) :
    s.ring.read (.ofNat i) = some s.accepted[i] := by
  rw [SpscRing.read, hi.slot_ofNat hpow hcap, hi.present i hlo hlt, List.getElem?_eq_getElem hlt]
  rfl

/-- A push fails just where the ring is full. -/
theorem pushHead_error_iff (hpos : 0 < cap) (hcap : cap < UInt64.size) (hi : Inv cap s) :
    s.ring.tail - s.ring.head > s.ring.mask ↔
      s.accepted.length = s.returned.length + cap := by
  have hle := hi.returned_le
  have hroom := hi.room
  rw [gt_iff_lt, UInt64.lt_iff_toNat_lt, hi.mask, hi.tail, hi.head,
    toNat_sub hle (Nat.lt_of_le_of_lt hroom (Nat.add_lt_add_left hcap _)),
    UInt64.toNat_ofNat_of_lt' (Nat.lt_of_le_of_lt (Nat.sub_le ..) hcap)]
  omega

theorem start (hpos : 0 < capacity.toNat) : Inv capacity.toNat (.start capacity : State α) := by
  refine ⟨?_, rfl, rfl, List.length_replicate, rfl, Nat.zero_le _, ?_, trivial, trivial⟩
  · have hsub : UInt64.ofNat (capacity.toNat - 1) = .ofNat capacity.toNat - .ofNat 1 :=
      UInt64.ofNat_sub hpos
    rw [hsub, UInt64.ofNat_toNat]
    rfl
  · intro i _ hlt
    exact absurd hlt (Nat.not_lt_zero i)

end Inv

-- ---------------------------------------------------------------------------
-- The producer
-- ---------------------------------------------------------------------------

theorem next_pushTail (h : s.returned.length + n ≤ s.accepted.length) :
    (s.pushTail value t).next n = s.next n := by
  have hdrop : n ≤ (s.accepted.drop s.returned.length).length := by
    rw [List.length_drop]
    omega
  have hle : s.returned.length ≤ s.accepted.length := by omega
  rw [next, next, pushTail, List.drop_append_of_le_length hle,
    List.take_append_of_le_length hdrop]

/-- What a pop knows stays true when a value is accepted. -/
theorem PopOk.pushTail (hp : s.PopOk) :
    (s.pushTail value t).PopOk := by
  have hlen : (s.pushTail value t).accepted.length = s.accepted.length + 1 := List.length_append
  unfold PopOk at hp ⊢
  rw [hlen]
  cases hpop : s.popping with
  | idle =>
    simp only [State.pushTail, hpop]
  | loadHead | batchHead =>
    simp only [hpop] at hp
    simp only [State.pushTail, hpop]
    obtain ⟨k, rfl, hlo, hhi⟩ := hp
    exact ⟨k, rfl, hlo, Nat.le_succ_of_le hhi⟩
  | read =>
    simp only [hpop] at hp
    simp only [State.pushTail, hpop]
    exact ⟨hp.1, Nat.lt_succ_of_lt hp.2⟩
  | publish =>
    simp only [hpop] at hp
    obtain ⟨hhead, hlt, hval⟩ := hp
    rw [← @next_pushTail α s value t 1 hlt] at hval
    simp only [State.pushTail, hpop] at hval ⊢
    exact ⟨hhead, Nat.lt_succ_of_lt hlt, hval⟩
  | batch =>
    simp only [hpop] at hp
    obtain ⟨hhead, hroom, hlen', hout⟩ := hp
    rw [← @next_pushTail α s value t _ (by omega)] at hout
    simp only [State.pushTail, hpop] at hout ⊢
    exact ⟨hhead, Nat.le_succ_of_le hroom, hlen', hout⟩

namespace Inv

variable {cap : Nat}

theorem write (hpow : cap.isPowerOfTwo) (hcap : cap < UInt64.size) (hi : Inv cap s)
    (ht : t = s.ring.tail) (hroom : s.accepted.length < s.returned.length + cap) :
    Inv cap { s with ring := s.ring.write t value, pushing := .publish value t } := by
  have hslot : s.ring.slot t = s.accepted.length % cap := by
    rw [ht, hi.tail, hi.slot_ofNat hpow hcap]
  have hmod : s.accepted.length % cap < s.ring.buffer.length := by
    rw [hi.size]
    exact Nat.mod_lt _ (Nat.pos_of_isPowerOfTwo hpow)
  refine ⟨hi.mask, hi.tail, hi.head, ?_, hi.fifo, hi.room, ?_, ?_, hi.pop⟩
  · exact List.length_set.trans hi.size
  · intro i hlo hlt
    -- the slot written is that of no value still in the ring
    have hne : s.accepted.length % cap ≠ i % cap := fun heq =>
      absurd (mod_inj hi.returned_le hroom hlo (hlt.trans hroom) heq) (Nat.ne_of_gt hlt)
    change (s.ring.buffer.set (s.ring.slot t) (some value))[i % cap]? = _
    rw [hslot, List.getElem?_set_ne hne]
    exact hi.present i hlo hlt
  · refine ⟨ht, hroom, ?_⟩
    change (s.ring.buffer.set (s.ring.slot t) (some value))[s.accepted.length % cap]? = _
    rw [hslot, List.getElem?_set_self hmod]

theorem pushTail (hi : Inv cap s) (ht : t = s.ring.tail)
    (hroom : s.accepted.length < s.returned.length + cap)
    (hslot : s.ring.buffer[s.accepted.length % cap]? = some (some value)) :
    Inv cap (s.pushTail value t) := by
  have hlen : (s.pushTail value t).accepted.length = s.accepted.length + 1 := List.length_append
  refine ⟨hi.mask, ?_, hi.head, hi.size, ?_, ?_, ?_, trivial, hi.pop.pushTail⟩
  · rw [hlen, UInt64.ofNat_add, ← hi.tail, ← ht]
    rfl
  · have htake : (s.accepted ++ [value]).take s.returned.length =
        s.accepted.take s.returned.length := List.take_append_of_le_length hi.returned_le
    change s.returned = ((s.accepted ++ [value]).take s.returned.length).map some
    rw [htake]
    exact hi.fifo
  · rw [hlen]
    exact hroom
  · intro i hlo hlt
    change s.ring.buffer[i % cap]? = some (s.accepted ++ [value])[i]?
    rw [hlen] at hlt
    rcases Nat.lt_succ_iff_lt_or_eq.mp hlt with hlt | rfl
    · rw [List.getElem?_append_left hlt]
      exact hi.present i hlo hlt
    · rw [hslot, List.getElem?_concat_length]

theorem stepProducer (hpow : cap.isPowerOfTwo) (hcap : cap < UInt64.size) (hi : Inv cap s)
    (hs : s.stepProducer = some s') : Inv cap s' := by
  have hpush := hi.push
  unfold PushOk at hpush
  unfold State.stepProducer at hs
  cases hp : s.pushing with
  | idle =>
    simp only [hp] at hs
    cases hs
  | loadHead value t =>
    simp only [hp] at hs hpush
    unfold pushHead at hs
    by_cases hfull : t - s.ring.head > s.ring.mask
    · rw [if_pos hfull] at hs
      cases hs
      exact { hi with push := trivial }
    · rw [if_neg hfull] at hs
      cases hs
      rw [hpush, hi.pushHead_error_iff (Nat.pos_of_isPowerOfTwo hpow) hcap] at hfull
      exact { hi with push := ⟨hpush, Nat.lt_of_le_of_ne hi.room hfull⟩ }
  | write value t =>
    simp only [hp] at hs hpush
    cases hs
    exact hi.write hpow hcap hpush.1 hpush.2
  | publish value t =>
    simp only [hp] at hs hpush
    cases hs
    exact hi.pushTail hpush.1 hpush.2.1 hpush.2.2

end Inv

-- ---------------------------------------------------------------------------
-- The consumer
-- ---------------------------------------------------------------------------

/-- The state behind `n` more values returned. -/
def advance (s : State α) (n : Nat) : State α :=
  { s with
    ring := { s.ring with head := .ofNat (s.returned.length + n) }
    popping := .idle
    returned := s.returned ++ s.next n }

theorem next_length (h : s.returned.length + n ≤ s.accepted.length) : (s.next n).length = n := by
  rw [next, List.length_map, List.length_take, List.length_drop]
  omega

theorem returned_advance (h : s.returned.length + n ≤ s.accepted.length) :
    (s.advance n).returned.length = s.returned.length + n := by
  rw [advance, List.length_append, next_length h]

theorem next_succ (hlt : s.returned.length + n < s.accepted.length) :
    s.next (n + 1) = s.next n ++ [some s.accepted[s.returned.length + n]] := by
  rw [next, next, List.take_add_one, List.getElem?_drop, List.getElem?_eq_getElem hlt,
    Option.toList_some, List.map_append, List.map_singleton]

/-- Values returned in two goes. -/
theorem advance_one (hlt : s.returned.length + n < s.accepted.length) :
    (s.advance n).advance 1 = s.advance (n + 1) := by
  have hlen := returned_advance hlt.le
  have hone : (s.advance n).next 1 = [some s.accepted[s.returned.length + n]] := by
    rw [next, hlen]
    change ((s.accepted.drop (s.returned.length + n)).take 1).map some = _
    rw [List.drop_eq_getElem_cons hlt]
    rfl
  rw [advance, hlen, hone, advance, advance, next_succ hlt, List.append_assoc, Nat.add_assoc]

namespace Inv

variable {cap : Nat}

theorem advance (hi : Inv cap s) (h : s.returned.length + n ≤ s.accepted.length) :
    Inv cap (s.advance n) := by
  have hlen := returned_advance h
  have hroom := hi.room
  refine ⟨hi.mask, hi.tail, ?_, hi.size, ?_, ?_, ?_, ?_, trivial⟩
  · rw [hlen]
    rfl
  · have htake : s.accepted.take (s.returned.length + n) =
        s.accepted.take s.returned.length ++ (s.accepted.drop s.returned.length).take n :=
      List.take_add
    rw [hlen]
    change s.returned ++ s.next n = (s.accepted.take (s.returned.length + n)).map some
    rw [htake, List.map_append, ← hi.fifo, next]
  · rw [hlen]
    exact hroom.trans (by omega)
  · rw [hlen]
    intro i hlo hlt
    exact hi.present i (by omega) hlt
  · have hpush := hi.push
    unfold PushOk at hpush ⊢
    rw [hlen]
    cases hp : s.pushing with
    | idle => simp only [State.advance, hp]
    | loadHead =>
      simp only [hp] at hpush
      simp only [State.advance, hp]
      exact hpush
    | write =>
      simp only [hp] at hpush
      simp only [State.advance, hp]
      exact ⟨hpush.1, hpush.2.trans_le (by omega)⟩
    | publish =>
      simp only [hp] at hpush
      simp only [State.advance, hp]
      exact ⟨hpush.1, hpush.2.1.trans_le (by omega), hpush.2.2⟩

/-- A store of the head returns the next values. -/
theorem popTail_eq (hi : Inv cap s) (hh : h = s.ring.head) (hout : out = s.next out.length) :
    s.popTail h out = s.advance out.length := by
  rw [State.popTail, State.advance, ← hout, UInt64.ofNat_add, ← hi.head, hh]

theorem popHead_empty_iff (hcap : cap < UInt64.size) (hi : Inv cap s) {k : Nat}
    (hlo : s.returned.length ≤ k) (hhi : k ≤ s.accepted.length) :
    s.ring.head = .ofNat k ↔ k = s.returned.length := by
  have hroom := hi.room
  rw [hi.head, eq_comm]
  exact ofNat_inj hlo (by omega)

theorem batchHead (hcap : cap < UInt64.size) (hi : Inv cap s) (hidle : s.popping = .batchHead len t) :
    Inv cap (s.batchHead len t) := by
  have hpop := hi.pop
  simp only [PopOk, hidle] at hpop
  obtain ⟨k, rfl, hlo, hhi⟩ := hpop
  have havailable : (UInt64.ofNat k - s.ring.head).toNat = k - s.returned.length := by
    have hroom := hi.room
    rw [hi.head]
    exact toNat_sub hlo (by omega)
  unfold State.batchHead
  dsimp only
  rw [havailable]
  by_cases hnone : UInt64.ofNat k - s.ring.head = 0 ∨ len = 0
  · rw [if_pos hnone]
    exact { hi with pop := trivial }
  · rw [if_neg hnone]
    have hmin := Nat.min_le_left (k - s.returned.length) len
    have hn : s.returned.length + min (k - s.returned.length) len ≤ s.accepted.length := by omega
    exact { hi with pop := ⟨rfl, hn, Nat.zero_le _, rfl⟩ }

theorem stepConsumer (hpow : cap.isPowerOfTwo) (hcap : cap < UInt64.size) (hi : Inv cap s)
    (hs : s.stepConsumer = some s') : Inv cap s' := by
  have hpop := hi.pop
  unfold PopOk at hpop
  unfold State.stepConsumer at hs
  cases hp : s.popping with
  | idle =>
    simp only [hp] at hs
    cases hs
  | loadHead t =>
    simp only [hp] at hs hpop
    obtain ⟨k, rfl, hlo, hhi⟩ := hpop
    unfold popHead at hs
    by_cases hempty : s.ring.head = .ofNat k
    · rw [if_pos hempty] at hs
      cases hs
      exact { hi with pop := trivial }
    · rw [if_neg hempty] at hs
      cases hs
      rw [hi.popHead_empty_iff hcap hlo hhi] at hempty
      have hlt : s.returned.length < s.accepted.length := by omega
      exact { hi with pop := ⟨rfl, hlt⟩ }
  | read h =>
    simp only [hp] at hs hpop
    cases hs
    obtain ⟨rfl, hlt⟩ := hpop
    refine { hi with pop := ⟨rfl, hlt, ?_⟩ }
    have hone := next_succ (s := s) (n := 0) hlt
    rw [hi.head, hi.read_eq hpow hcap (Nat.le_refl _) hlt]
    exact hone.symm
  | publish h value =>
    simp only [hp] at hs hpop
    cases hs
    obtain ⟨hh, hlt, hval⟩ := hpop
    have hone : s.popTail h [value] = s.advance 1 := hi.popTail_eq hh hval
    rw [hone]
    exact hi.advance hlt
  | batchHead len t =>
    simp only [hp] at hs
    cases hs
    exact hi.batchHead hcap hp
  | batch h n out =>
    simp only [hp] at hs hpop
    obtain ⟨rfl, hroom, hlen, hout⟩ := hpop
    by_cases hmore : out.length < n
    · rw [if_pos hmore] at hs
      cases hs
      have hlt : s.returned.length + out.length < s.accepted.length := by omega
      refine { hi with pop := ⟨rfl, hroom, ?_, ?_⟩ }
      · rw [List.length_append]
        exact hmore
      · rw [hi.head, ← UInt64.ofNat_add, hi.read_eq hpow hcap (Nat.le_add_right ..) hlt,
          List.length_append]
        refine Eq.trans ?_ (next_succ hlt).symm
        rw [← hout]
    · rw [if_neg hmore] at hs
      cases hs
      have hall : s.returned.length + out.length ≤ s.accepted.length := by omega
      rw [hi.popTail_eq rfl hout]
      exact hi.advance hall

theorem step (hpow : cap.isPowerOfTwo) (hcap : cap < UInt64.size) {a : Action α} (hi : Inv cap s)
    (hs : s.step a = some s') : Inv cap s' := by
  have hle := hi.returned_le
  unfold State.step at hs
  cases a with
  | push value =>
    cases hp : s.pushing with
    | idle =>
      simp only [hp] at hs
      cases hs
      exact { hi with push := rfl }
    | loadHead | write | publish =>
      simp only [hp] at hs
      cases hs
  | pop =>
    cases hp : s.popping with
    | idle =>
      simp only [hp] at hs
      cases hs
      exact { hi with pop := ⟨s.accepted.length, hi.tail, hle, Nat.le_refl _⟩ }
    | loadHead | read | publish | batchHead | batch =>
      simp only [hp] at hs
      cases hs
  | popBatch len =>
    cases hp : s.popping with
    | idle =>
      simp only [hp] at hs
      cases hs
      exact { hi with pop := ⟨s.accepted.length, hi.tail, hle, Nat.le_refl _⟩ }
    | loadHead | read | publish | batchHead | batch =>
      simp only [hp] at hs
      cases hs
  | producer => exact hi.stepProducer hpow hcap hs
  | consumer => exact hi.stepConsumer hpow hcap hs

end Inv

-- ---------------------------------------------------------------------------
-- Single pops
-- ---------------------------------------------------------------------------

theorem run_single (hpow : cap.isPowerOfTwo) (hcap : cap < UInt64.size) (hi : Inv cap s)
    (hidle : s.popping = .idle) (hlt : s.returned.length < s.accepted.length) :
    run step s (single α) = some (s.advance 1) := by
  have hempty : s.ring.head ≠ s.ring.tail := by
    rw [hi.tail, Ne, hi.popHead_empty_iff hcap hlt.le (Nat.le_refl _)]
    exact Nat.ne_of_gt hlt
  have hnext : s.next 1 = [s.ring.read s.ring.head] := by
    rw [hi.head, hi.read_eq hpow hcap (Nat.le_refl _) hlt]
    exact next_succ (n := 0) hlt
  have hlast : s.popTail s.ring.head [s.ring.read s.ring.head] = s.advance 1 :=
    hi.popTail_eq rfl hnext.symm
  simp only [single, run, List.foldlM_cons, List.foldlM_nil, step, hidle, stepConsumer, popHead,
    if_neg hempty, Option.bind_eq_bind, Option.bind_some]
  exact congrArg some hlast

/-- Single pops return the next values one by one. -/
theorem run_singles (hpow : cap.isPowerOfTwo) (hcap : cap < UInt64.size) (hi : Inv cap s)
    (hidle : s.popping = .idle) (h : s.returned.length + n ≤ s.accepted.length) :
    run step s (singles α n) = some (s.advance n) := by
  induction n with
  | zero =>
    have hnone : s.advance 0 = s := by
      rw [advance, Nat.add_zero, ← hi.head, ← hidle]
      exact congrArg (fun l => ({ s with returned := l } : State α)) (List.append_nil _)
    rw [hnone]
    rfl
  | succ n ih =>
    have hsplit : singles α (n + 1) = singles α n ++ single α := by
      rw [singles, List.replicate_succ', List.flatten_append, List.flatten_singleton, singles]
    have hle : s.returned.length + n ≤ s.accepted.length := Nat.le_of_succ_le h
    have hlt : (s.advance n).returned.length < (s.advance n).accepted.length := by
      rw [returned_advance hle]
      exact h
    rw [hsplit, run_append, ih hle, Option.bind_some,
      run_single hpow hcap (hi.advance hle) rfl hlt, advance_one h]

end State

/-- What the two sides reach from a new ring. -/
def Reached {α : Type} (capacity : UInt64) (s : State α) : Prop :=
  Reachable State.step (fun _ _ => True) (.start capacity) s

/-- The ring is a queue: what is returned is what was accepted, in its order. A
push fails only where `capacity` values are accepted and not returned, and a
batch returns what as many single pops in its place would. -/
theorem ring_fifo {α : Type} {capacity : UInt64} {s : State α} (hpow : capacity.toNat.isPowerOfTwo)
    (h : Reached capacity s) :
    s.returned <+: s.accepted.map some ∧
    (∀ value t e, s.pushing = .loadHead value t → s.pushHead value t = .error e →
      s.accepted.length = s.returned.length + capacity.toNat) ∧
    ∀ first n out, s.popping = .batch first n out → out.length = n →
      run State.step { s with popping := .idle } (singles α n) = s.step .consumer := by
  have hcap : capacity.toNat < UInt64.size := capacity.toNat_lt_size
  have hi : State.Inv capacity.toNat s :=
    Reachable.invariant h (.start (Nat.pos_of_isPowerOfTwo hpow))
      fun _ _ _ hi _ hs => hi.step hpow hcap hs
  refine ⟨?_, ?_, ?_⟩
  · rw [hi.fifo]
    exact (List.take_prefix ..).map some
  · intro value t e hpush hfull
    have ht := hi.push
    simp only [State.PushOk, hpush] at ht
    rw [← hi.pushHead_error_iff (Nat.pos_of_isPowerOfTwo hpow) hcap, ← ht]
    by_contra hroom
    rw [State.pushHead, if_neg hroom] at hfull
    cases hfull
  · intro first n out hpop hall
    have hout := hi.pop
    simp only [State.PopOk, hpop] at hout
    obtain ⟨hfirst, hroom, -, hout⟩ := hout
    rw [← hall] at hroom ⊢
    have hidle : State.Inv capacity.toNat { s with popping := .idle } := { hi with pop := trivial }
    rw [State.run_singles hpow hcap hidle rfl hroom]
    simp only [State.step, State.stepConsumer, hpop, ← hall, Nat.lt_irrefl, if_false]
    rw [hi.popTail_eq hfirst hout]
    rfl

/-- Two values are in a ring of two, and a batch has read both. -/
theorem ring_fifo_two :
    let s : State Nat :=
      ⟨⟨0, 2, [some 7, some 8], 1⟩, .loadHead 9 2, .batch 0 2 [some 7, some 8], [7, 8], []⟩
    Reached 2 s ∧ s.pushHead 9 2 = .error .full ∧ s.accepted.length = s.returned.length + 2 ∧
      Transition.run State.step { s with popping := .idle } (singles Nat 2) = s.step .consumer := by
  intro s
  have hrun : Transition.run State.step (.start 2) [.push 7, .producer, .producer, .producer,
      .push 8, .producer, .producer, .producer, .popBatch 5, .consumer, .consumer, .consumer,
      .push 9] = some s := rfl
  have hs : Reached 2 s := reachable_of_run (fun _ _ => trivial) .start hrun
  have hfull : s.pushHead 9 2 = .error .full := by decide
  have hall := ring_fifo ⟨1, rfl⟩ hs
  exact ⟨hs, hfull, hall.2.1 9 2 .full rfl hfull, hall.2.2 0 2 _ rfl rfl⟩

end Spsc

end Sxla
