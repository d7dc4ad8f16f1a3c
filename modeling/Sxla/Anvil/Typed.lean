import Sxla.Library.Transition

/-!
# The typed channel

One producer, one consumer, and a ring of slots between them. Each side counts
ahead of the counter it has published, and publishes when its batch is full,
when it is flushed and when it is dropped. One step is one access to a
published counter or to a slot, with what the code does to its own fields
behind it.

Each slot keeps whether its value has been read since it was written.
-/

namespace Sxla

open Transition

namespace Typed

/-- `config::SPSC_BATCH_OPS`. -/
def TYPED_BATCH_THRESHOLD : Nat := 32

def effectiveThreshold (capacity : Nat) : Nat :=
  let half := capacity / 2
  if half = 0 then 1
  else if half < TYPED_BATCH_THRESHOLD then half
  else TYPED_BATCH_THRESHOLD

inductive QueueError where
  | full
  | empty
deriving DecidableEq, Repr

/-- `value` is `none` for memory that was never initialised. -/
structure Slot (α : Type) where
  value : Option α
  unread : Bool
deriving DecidableEq, Repr

structure ChannelShared (α : Type) where
  head : UInt64
  tail : UInt64
  buffer : List (Slot α)
  mask : UInt64
deriving DecidableEq, Repr

/-- Where the producer stands, before the access of that name. -/
inductive Sending (α : Type) where
  | idle
  | write (value : α)
  | publish
  | dropped
deriving DecidableEq, Repr

/-- Where the consumer stands. A batch has read `out` and wants `n` values. -/
inductive Receiving (α : Type) where
  | idle
  | read
  | publish
  | batch (n : Nat) (out : List (Option α))
  | dropped
deriving DecidableEq, Repr

structure TypedProducer (α : Type) where
  nextWrite : UInt64
  pending : Nat
  threshold : Nat
  phase : Sending α
deriving DecidableEq, Repr

structure TypedConsumer (α : Type) where
  nextRead : UInt64
  pending : Nat
  threshold : Nat
  phase : Receiving α
deriving DecidableEq, Repr

/-- Both halves, what the sends that did not fail wrote and what the receives
returned. -/
structure Channel (α : Type) where
  shared : ChannelShared α
  producer : TypedProducer α
  consumer : TypedConsumer α
  accepted : List α
  received : List (Option α)
deriving DecidableEq, Repr

/-- A call begins, or the half takes the next access of its call. -/
inductive Action (α : Type) where
  | trySend (value : α)
  | flushProducer
  | dropProducer
  | producer
  | tryRecv
  | tryRecvBatch (len : Nat)
  | flushConsumer
  | dropConsumer
  | consumer
deriving DecidableEq, Repr

variable {α : Type}

namespace ChannelShared

def slot (s : ChannelShared α) (index : UInt64) : Nat := (index &&& s.mask).toNat

def write (s : ChannelShared α) (index : UInt64) (value : α) : ChannelShared α :=
  { s with buffer := s.buffer.set (s.slot index) ⟨some value, true⟩ }

def value? (s : ChannelShared α) (index : UInt64) : Option α :=
  (s.buffer[s.slot index]?).bind (·.value)

def read (s : ChannelShared α) (index : UInt64) : ChannelShared α :=
  { s with buffer := s.buffer.modify (s.slot index) ({ · with unread := false }) }

end ChannelShared

namespace Channel

/-- `TypedSpsc::new` and `split`. A capacity request that has no next power of
two wraps to zero. -/
def new (capacity : Nat) : Channel α :=
  let cap := max (capacity.nextPowerOfTwo % UInt64.size) 2
  { shared := ⟨0, 0, List.replicate cap ⟨none, false⟩, UInt64.ofNat (cap - 1)⟩
    producer := ⟨0, 0, effectiveThreshold cap, .idle⟩
    consumer := ⟨0, 0, effectiveThreshold cap, .idle⟩
    accepted := []
    received := [] }

def moveProducer (c : Channel α) (phase : Sending α) : Channel α :=
  { c with producer := { c.producer with phase } }

def moveConsumer (c : Channel α) (phase : Receiving α) : Channel α :=
  { c with consumer := { c.consumer with phase } }

/-- `TypedProducer::flush`. -/
def flushProducer (c : Channel α) : Channel α :=
  if 0 < c.producer.pending then
    { c with
      shared := { c.shared with tail := c.producer.nextWrite }
      producer := { c.producer with pending := 0 } }
  else c

/-- `TypedConsumer::flush`. -/
def flushConsumer (c : Channel α) : Channel α :=
  if 0 < c.consumer.pending then
    { c with
      shared := { c.shared with head := c.consumer.nextRead }
      consumer := { c.consumer with pending := 0 } }
  else c

/-- The check of `try_send`. -/
def trySend (c : Channel α) (value : α) : Except QueueError (Channel α) :=
  if c.producer.nextWrite - c.shared.head > c.shared.mask then .error .full
  else .ok (c.moveProducer (.write value))

/-- The write of `try_send`, and what it counts. -/
def writeSlot (c : Channel α) (value : α) : Channel α :=
  { c with
    shared := c.shared.write c.producer.nextWrite value
    producer :=
      { c.producer with
        nextWrite := c.producer.nextWrite + 1
        pending := c.producer.pending + 1
        phase := if c.producer.pending + 1 ≥ c.producer.threshold then .publish else .idle }
    accepted := c.accepted ++ [value] }

/-- The check of `try_recv`. -/
def tryRecv (c : Channel α) : Except QueueError (Channel α) :=
  if c.consumer.nextRead = c.shared.tail then .error .empty
  else .ok (c.moveConsumer .read)

/-- The read of `try_recv`, and what it counts. -/
def readSlot (c : Channel α) : Channel α :=
  { c with
    shared := c.shared.read c.consumer.nextRead
    consumer :=
      { c.consumer with
        nextRead := c.consumer.nextRead + 1
        pending := c.consumer.pending + 1
        phase := if c.consumer.pending + 1 ≥ c.consumer.threshold then .publish else .idle }
    received := c.received ++ [c.shared.value? c.consumer.nextRead] }

/-- The check of `try_recv_batch`, for a destination of `len` values. -/
def tryRecvBatch (c : Channel α) (len : Nat) : Channel α :=
  let available := c.shared.tail - c.consumer.nextRead
  if available = 0 ∨ len = 0 then c
  else c.moveConsumer (.batch (min available.toNat len) [])

/-- The next read of `try_recv_batch`. -/
def readBatch (c : Channel α) (n : Nat) (out : List (Option α)) : Channel α :=
  let index := c.consumer.nextRead + UInt64.ofNat out.length
  { c.moveConsumer (.batch n (out ++ [c.shared.value? index])) with
    shared := c.shared.read index }

/-- The publication of `try_recv_batch`. -/
def publishBatch (c : Channel α) (n : Nat) (out : List (Option α)) : Channel α :=
  let newHead := c.consumer.nextRead + UInt64.ofNat n
  { c with
    shared := { c.shared with head := newHead }
    consumer := { c.consumer with nextRead := newHead, pending := 0, phase := .idle }
    received := c.received ++ out }

/-- The next access of the producer's call. -/
def stepProducer (c : Channel α) : Option (Channel α) :=
  match c.producer.phase with
  | .write value => some (c.writeSlot value)
  | .publish => some (c.flushProducer.moveProducer .idle)
  | .idle | .dropped => none

/-- The next access of the consumer's call. -/
def stepConsumer (c : Channel α) : Option (Channel α) :=
  match c.consumer.phase with
  | .read => some c.readSlot
  | .publish => some (c.flushConsumer.moveConsumer .idle)
  | .batch n out => some (if out.length < n then c.readBatch n out else c.publishBatch n out)
  | .idle | .dropped => none

/-- A call that fails leaves the channel as it is. -/
def settled (c : Channel α) : Except QueueError (Channel α) → Channel α
  | .ok c' => c'
  | .error _ => c

def callProducer (c : Channel α) (next : Channel α) : Option (Channel α) :=
  match c.producer.phase with
  | .idle => some next
  | _ => none

def callConsumer (c : Channel α) (next : Channel α) : Option (Channel α) :=
  match c.consumer.phase with
  | .idle => some next
  | _ => none

def step (c : Channel α) : Action α → Option (Channel α)
  | .trySend value => c.callProducer (c.settled (c.trySend value))
  | .flushProducer => c.callProducer c.flushProducer
  | .dropProducer => c.callProducer (c.flushProducer.moveProducer .dropped)
  | .producer => c.stepProducer
  | .tryRecv => c.callConsumer (c.settled c.tryRecv)
  | .tryRecvBatch len => c.callConsumer (c.tryRecvBatch len)
  | .flushConsumer => c.callConsumer c.flushConsumer
  | .dropConsumer => c.callConsumer (c.flushConsumer.moveConsumer .dropped)
  | .consumer => c.stepConsumer

/-- The producer is about to write to a slot that has not been read. -/
def Overwrites (c : Channel α) : Prop :=
  ∃ value s, c.producer.phase = .write value ∧
    c.shared.buffer[c.shared.slot c.producer.nextWrite]? = some s ∧ s.unread = true

end Channel

end Typed

end Sxla
