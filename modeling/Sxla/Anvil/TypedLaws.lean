import Sxla.Anvil.Typed
import Sxla.Library.RingCounter

/-!
# The typed channel is a FIFO that cannot stall

A side that is between two calls has published all but fewer than a batch of
what it counted, and a batch is at most half the ring. So a ring that is full
to the producer holds values that the consumer sees.
-/

namespace Sxla

open Transition RingCounter

namespace Typed

variable {α : Type}

-- ---------------------------------------------------------------------------
-- Capacity and threshold
-- ---------------------------------------------------------------------------

/-- What `new` and `split` make of any capacity request. -/
structure Shape (cap threshold : Nat) : Prop where
  pow : cap.isPowerOfTwo
  size : cap < UInt64.size
  pos : 0 < threshold
  half : 2 * threshold ≤ cap

/-- The ring that a capacity request gets. -/
def ringSize (capacity : Nat) : Nat := max (capacity.nextPowerOfTwo % UInt64.size) 2

theorem ringSize_pow (capacity : Nat) : (ringSize capacity).isPowerOfTwo := by
  have htwo : Nat.isPowerOfTwo 2 := ⟨1, rfl⟩
  unfold ringSize
  obtain ⟨k, hk⟩ := Nat.isPowerOfTwo_nextPowerOfTwo capacity
  rcases Nat.lt_or_ge k 64 with hlt | hge
  · have hmod : capacity.nextPowerOfTwo % UInt64.size = 2 ^ k := by
      rw [hk]
      exact Nat.mod_eq_of_lt (Nat.pow_lt_pow_right Nat.one_lt_two hlt)
    rw [hmod]
    rcases max_choice (2 ^ k) 2 with h | h <;> rw [h]
    · exact ⟨k, rfl⟩
    · exact htwo
  · have hmod : capacity.nextPowerOfTwo % UInt64.size = 0 := by
      rw [hk]
      exact Nat.mod_eq_zero_of_dvd (pow_dvd_pow 2 hge)
    rw [hmod]
    exact htwo

theorem effectiveThreshold_eq (cap : Nat) :
    effectiveThreshold cap = max 1 (min (cap / 2) 32) := by
  unfold effectiveThreshold TYPED_BATCH_THRESHOLD
  dsimp only
  split_ifs <;> omega

theorem effectiveThreshold_pos (cap : Nat) : 0 < effectiveThreshold cap := by
  rw [effectiveThreshold_eq]
  omega

theorem effectiveThreshold_half {cap : Nat} (h : 2 ≤ cap) : 2 * effectiveThreshold cap ≤ cap := by
  rw [effectiveThreshold_eq]
  omega

theorem shape_of_request (capacity : Nat) :
    Shape (ringSize capacity) (effectiveThreshold (ringSize capacity)) where
  pow := ringSize_pow capacity
  size := by
    refine Nat.max_lt.mpr ⟨Nat.mod_lt _ size_pos, by decide⟩
  pos := effectiveThreshold_pos _
  half := effectiveThreshold_half (Nat.le_max_right ..)

-- ---------------------------------------------------------------------------
-- The ring
-- ---------------------------------------------------------------------------

/-- The slots hold what was accepted and not read, each value in the slot of
its number, and nothing else is unread. -/
structure Contents (cap : Nat) (accepted : List α) (reads : List (Option α))
    (buffer : List (Slot α)) : Prop where
  size : buffer.length = cap
  fifo : reads <+: accepted.map some
  present : ∀ i, reads.length ≤ i → i < accepted.length →
    buffer[i % cap]? = some ⟨accepted[i]?, true⟩
  unread : ∀ j s, buffer[j]? = some s → s.unread = true →
    ∃ i, reads.length ≤ i ∧ i < accepted.length ∧ i % cap = j

namespace Contents

variable {cap : Nat} {accepted : List α} {reads : List (Option α)} {buffer : List (Slot α)}

theorem start : Contents cap ([] : List α) [] (List.replicate cap ⟨none, false⟩) where
  size := List.length_replicate
  fifo := List.nil_prefix
  present i _ hi := absurd hi (Nat.not_lt_zero i)
  unread j s hs hu := by
    rw [List.eq_of_mem_replicate (List.mem_of_getElem? hs)] at hu
    cases hu

/-- The slot of the next number holds nothing unread while there is room. -/
theorem free (h : Contents cap accepted reads buffer)
    (hroom : accepted.length < reads.length + cap) {s : Slot α}
    (hs : buffer[accepted.length % cap]? = some s) : s.unread = false := by
  by_contra hu
  obtain ⟨i, hi, hlt, hmod⟩ := h.unread _ s hs (by simpa using hu)
  have heq := @mod_inj cap _ _ reads.length hi (by omega) (by omega) hroom hmod
  omega

theorem write (h : Contents cap accepted reads buffer) (hle : reads.length ≤ accepted.length)
    (hroom : accepted.length < reads.length + cap) (value : α) :
    Contents cap (accepted ++ [value]) reads
      (buffer.set (accepted.length % cap) ⟨some value, true⟩) where
  size := by rw [List.length_set, h.size]
  fifo := by
    refine h.fifo.trans ?_
    rw [List.map_append]
    exact List.prefix_append ..
  present i hi hlt := by
    rw [List.length_append, List.length_singleton] at hlt
    rcases Nat.lt_succ_iff_lt_or_eq.mp hlt with hlt | rfl
    · rw [List.getElem?_set_ne, h.present i hi hlt, List.getElem?_append_left hlt]
      intro hmod
      have heq := @mod_inj cap _ _ reads.length hle hroom hi (by omega) hmod
      omega
    · have hslot : accepted.length % cap < buffer.length := by
        rw [h.size]
        exact Nat.mod_lt _ (by omega)
      rw [List.getElem?_set_self hslot]
      simp
  unread j s hj hu := by
    rw [List.length_append, List.length_singleton]
    rw [List.getElem?_set] at hj
    split at hj
    · next heq => exact ⟨accepted.length, hle, Nat.lt_succ_self _, heq⟩
    · obtain ⟨i, hi, hlt, hmod⟩ := h.unread j s hj hu
      exact ⟨i, hi, Nat.lt_succ_of_lt hlt, hmod⟩

theorem read (h : Contents cap accepted reads buffer) (hlt : reads.length < accepted.length)
    (hroom : accepted.length ≤ reads.length + cap) :
    Contents cap accepted (reads ++ [accepted[reads.length]?])
      (buffer.modify (reads.length % cap) ({ · with unread := false })) where
  size := by rw [List.length_modify, h.size]
  fifo := by
    obtain ⟨rest, hrest⟩ := h.fifo
    have hget : (accepted.map some)[reads.length]? = rest[0]? := by
      rw [← hrest, List.getElem?_append_right (Nat.le_refl _), Nat.sub_self]
    cases rest with
    | nil =>
      have hlength := congrArg List.length hrest
      rw [List.append_nil, List.length_map] at hlength
      omega
    | cons x rest =>
      rw [List.getElem?_map, List.getElem?_eq_getElem hlt, List.getElem?_cons_zero] at hget
      rw [List.getElem?_eq_getElem hlt, Option.some.inj hget]
      exact ⟨rest, by rw [← hrest]; simp⟩
  present i hi hi' := by
    rw [List.length_append, List.length_singleton] at hi
    rw [List.getElem?_modify_ne, h.present i (by omega) hi']
    intro hmod
    have heq := @mod_inj cap _ _ reads.length (Nat.le_refl _) (by omega) (by omega) (by omega) hmod
    omega
  unread j s hj hu := by
    rw [List.length_append, List.length_singleton]
    by_cases heq : reads.length % cap = j
    · rw [heq, List.getElem?_modify_eq] at hj
      obtain ⟨t, -, rfl⟩ := Option.map_eq_some_iff.mp hj
      cases hu
    · rw [List.getElem?_modify_ne _ _ heq] at hj
      obtain ⟨i, hi, hlt, hmod⟩ := h.unread j s hj hu
      refine ⟨i, ?_, hlt, hmod⟩
      rcases Nat.lt_or_eq_of_le hi with hi | rfl
      · exact hi
      · exact absurd hmod heq

end Contents

-- ---------------------------------------------------------------------------
-- The invariant
-- ---------------------------------------------------------------------------

namespace Channel

/-- What a batch has read and not yet returned. -/
def held (c : Channel α) : List (Option α) :=
  match c.consumer.phase with
  | .batch _ out => out
  | _ => []

/-- All that was read. -/
def reads (c : Channel α) : List (Option α) := c.received ++ c.held

/-- How many writes the consumer can see, and how many reads the producer. -/
def published (c : Channel α) : Nat := c.accepted.length - c.producer.pending

def freed (c : Channel α) : Nat := c.received.length - c.consumer.pending

/-- The producer keeps less than a batch to itself between two calls, and has
room where it is about to write. -/
def SendOk (c : Channel α) (cap threshold : Nat) : Prop :=
  match c.producer.phase with
  | .idle | .dropped => c.producer.pending < threshold
  | .write _ => c.producer.pending < threshold ∧ c.accepted.length < c.freed + cap
  | .publish => c.producer.pending ≤ threshold

/-- Likewise the consumer, which has something to read where it is about to. -/
def ReceiveOk (c : Channel α) (threshold : Nat) : Prop :=
  match c.consumer.phase with
  | .idle | .dropped => c.consumer.pending < threshold
  | .read => c.consumer.pending < threshold ∧ c.received.length < c.published
  | .publish => c.consumer.pending ≤ threshold
  | .batch n out => c.consumer.pending < threshold ∧ out.length ≤ n ∧
      c.received.length + n ≤ c.published

structure Inv (cap threshold : Nat) (c : Channel α) : Prop where
  mask : c.shared.mask = .ofNat (cap - 1)
  producer : c.producer.threshold = threshold
  consumer : c.consumer.threshold = threshold
  nextWrite : c.producer.nextWrite = .ofNat c.accepted.length
  nextRead : c.consumer.nextRead = .ofNat c.received.length
  tail : c.shared.tail = .ofNat c.published
  head : c.shared.head = .ofNat c.freed
  sending : c.producer.pending ≤ c.accepted.length
  receiving : c.consumer.pending ≤ c.received.length
  sends : c.SendOk cap threshold
  receives : c.ReceiveOk threshold
  order : c.reads.length ≤ c.published
  room : c.accepted.length ≤ c.freed + cap
  contents : Contents cap c.accepted c.reads c.shared.buffer

variable {c c' : Channel α} {cap threshold n : Nat} {value : α} {out : List (Option α)}

theorem new_inv (capacity : Nat) :
    Inv (ringSize capacity) (effectiveThreshold (ringSize capacity)) (new (α := α) capacity) where
  mask := rfl
  producer := rfl
  consumer := rfl
  nextWrite := rfl
  nextRead := rfl
  tail := rfl
  head := rfl
  sending := Nat.le_refl 0
  receiving := Nat.le_refl 0
  sends := effectiveThreshold_pos _
  receives := effectiveThreshold_pos _
  order := Nat.le_refl 0
  room := Nat.zero_le _
  contents := .start

theorem freed_le : c.freed ≤ c.reads.length := by
  unfold freed reads
  rw [List.length_append]
  omega

theorem published_le (c : Channel α) : c.published ≤ c.accepted.length := Nat.sub_le ..

theorem writeSlot_published (c : Channel α) (value : α) :
    (c.writeSlot value).published = c.published := by
  have hlength : (c.writeSlot value).accepted.length = c.accepted.length + 1 :=
    List.length_append
  unfold published
  rw [hlength]
  exact Nat.add_sub_add_right ..

theorem readSlot_phase (c : Channel α) :
    c.readSlot.consumer.phase = .publish ∨ c.readSlot.consumer.phase = .idle := by
  unfold readSlot
  dsimp only
  split_ifs
  · exact .inl rfl
  · exact .inr rfl

theorem reads_of_held (h : c.held = []) : c.reads = c.received := by
  rw [reads, h, List.append_nil]

namespace Inv

theorem slot (h : Inv cap threshold c) (hs : Shape cap threshold) (n : Nat) :
    c.shared.slot (.ofNat n) = n % cap := by
  rw [ChannelShared.slot, h.mask, slot_eq hs.pow hs.size]

/-- The check of `try_send` compares counts. -/
theorem full_iff (h : Inv cap threshold c) (hs : Shape cap threshold) :
    c.producer.nextWrite - c.shared.head > c.shared.mask ↔ c.accepted.length = c.freed + cap := by
  have hle := freed_le.trans (h.order.trans (published_le c))
  have hroom := h.room
  have hcap := hs.size
  have hpos := hs.pos
  have hhalf := hs.half
  rw [h.nextWrite, h.head, h.mask, gt_iff_lt, UInt64.lt_iff_toNat_lt, toNat_sub hle (by omega),
    UInt64.toNat_ofNat_of_lt' (by omega)]
  omega

/-- What the consumer sees. -/
theorem available (h : Inv cap threshold c) :
    c.received.length ≤ c.published ∧ c.published ≤ c.received.length + cap := by
  have hread : c.received.length ≤ c.reads.length := by simp [reads]
  have hroom := h.room
  have hfreed : c.freed ≤ c.received.length := Nat.sub_le ..
  have hpublished := published_le c
  exact ⟨hread.trans h.order, by omega⟩

theorem empty_iff (h : Inv cap threshold c) (hs : Shape cap threshold) :
    c.consumer.nextRead = c.shared.tail ↔ c.received.length = c.published := by
  obtain ⟨hle, hlt⟩ := h.available
  have hcap := hs.size
  rw [h.nextRead, h.tail, eq_comm, ofNat_inj hle (by omega), eq_comm]

/-- A producer that is about to write has room. -/
theorem write_room (h : Inv cap threshold c) (hw : c.producer.phase = .write value) :
    c.producer.pending < threshold ∧ c.accepted.length < c.freed + cap := by
  have hsends := h.sends
  rw [SendOk, hw] at hsends
  exact hsends

theorem not_overwrites (h : Inv cap threshold c) (hs : Shape cap threshold) : ¬ c.Overwrites := by
  rintro ⟨value, s, hw, hslot, hunread⟩
  have hroom := (h.write_room hw).2
  have hfreed : c.freed ≤ c.reads.length := freed_le
  rw [h.nextWrite, h.slot hs] at hslot
  rw [h.contents.free (by omega) hslot] at hunread
  cases hunread

-- ---------------------------------------------------------------------------
-- The producer
-- ---------------------------------------------------------------------------

theorem trySend (h : Inv cap threshold c) (hs : Shape cap threshold)
    (hidle : c.producer.phase = .idle) : Inv cap threshold (c.settled (c.trySend value)) := by
  unfold Channel.trySend
  split
  · exact h
  · next hfull =>
    rw [h.full_iff hs] at hfull
    have hsends := h.sends
    rw [SendOk, hidle] at hsends
    have hroom : c.accepted.length < c.freed + cap := Nat.lt_of_le_of_ne h.room hfull
    exact { h with sends := ⟨hsends, hroom⟩ }

theorem writeSlot (h : Inv cap threshold c) (hs : Shape cap threshold)
    (hw : c.producer.phase = .write value) : Inv cap threshold (c.writeSlot value) := by
  obtain ⟨hpending, hroom⟩ := h.write_room hw
  have hfreed : c.freed ≤ c.reads.length := freed_le
  have hlength : (c.writeSlot value).accepted.length = c.accepted.length + 1 :=
    List.length_append
  have hpub := writeSlot_published c value
  exact {
    mask := h.mask
    producer := h.producer
    consumer := h.consumer
    nextWrite := by
      rw [hlength, UInt64.ofNat_add, ← h.nextWrite]
      rfl
    nextRead := h.nextRead
    tail := by
      rw [hpub]
      exact h.tail
    head := h.head
    sending := by
      rw [hlength]
      exact Nat.succ_le_succ h.sending
    receiving := h.receiving
    sends := by
      unfold SendOk Channel.writeSlot
      rw [h.producer]
      dsimp only
      split_ifs with hfull
      · exact hpending
      · exact Nat.lt_of_not_le hfull
    receives := by
      have hreceives := h.receives
      unfold ReceiveOk at hreceives ⊢
      rw [hpub]
      exact hreceives
    order := by
      rw [hpub]
      exact h.order
    room := by
      rw [hlength]
      exact hroom
    contents := by
      have hbuffer : (c.writeSlot value).shared.buffer =
          c.shared.buffer.set (c.accepted.length % cap) ⟨some value, true⟩ := by
        rw [Channel.writeSlot, ChannelShared.write, h.nextWrite, h.slot hs]
      rw [hbuffer]
      exact h.contents.write (h.order.trans (published_le c)) (by omega) value }

/-- Publishing everything, from wherever the producer stands. -/
theorem flushProducer (h : Inv cap threshold c) (hs : Shape cap threshold) {phase : Sending α}
    (hphase : phase = .idle ∨ phase = .dropped) :
    Inv cap threshold (c.flushProducer.moveProducer phase) ∧
      (c.flushProducer.moveProducer phase).published = c.accepted.length := by
  unfold Channel.flushProducer
  split
  · refine ⟨{ h with
      tail := h.nextWrite
      sending := Nat.zero_le _
      sends := by rcases hphase with rfl | rfl <;> exact hs.pos
      receives := ?_
      order := h.order.trans (published_le c) }, rfl⟩
    have hreceives := h.receives
    have hpublished := published_le c
    unfold ReceiveOk at hreceives ⊢
    show match c.consumer.phase with
      | .idle | .dropped => c.consumer.pending < threshold
      | .read => c.consumer.pending < threshold ∧ c.received.length < c.accepted.length
      | .publish => c.consumer.pending ≤ threshold
      | .batch n out => c.consumer.pending < threshold ∧ out.length ≤ n ∧
        c.received.length + n ≤ c.accepted.length
    cases hphase : c.consumer.phase <;> simp only [hphase] at hreceives ⊢ <;> omega
  · next hpending =>
    have hzero : c.producer.pending = 0 := Nat.eq_zero_of_not_pos hpending
    have hsends : c.producer.pending < threshold := hzero ▸ hs.pos
    refine ⟨{ h with sends := by rcases hphase with rfl | rfl <;> exact hsends }, ?_⟩
    show c.published = _
    rw [published, hzero, Nat.sub_zero]

-- ---------------------------------------------------------------------------
-- The consumer
-- ---------------------------------------------------------------------------

theorem tryRecv (h : Inv cap threshold c) (hs : Shape cap threshold)
    (hidle : c.consumer.phase = .idle) : Inv cap threshold (c.settled c.tryRecv) := by
  unfold Channel.tryRecv
  split
  · exact h
  · next hempty =>
    rw [h.empty_iff hs] at hempty
    have hreceives := h.receives
    rw [ReceiveOk, hidle] at hreceives
    have hreads : c.reads = c.received := reads_of_held (by rw [held, hidle])
    have hreads' : (c.settled (.ok (c.moveConsumer .read))).reads = c.reads := by
      rw [hreads]
      exact List.append_nil _
    have horder := h.order
    exact { h with
      receives := ⟨hreceives, Nat.lt_of_le_of_ne (hreads ▸ horder) hempty⟩
      order := by
        rw [hreads']
        exact horder
      contents := by
        rw [hreads']
        exact h.contents }

/-- The next value, and the ring behind its read. -/
theorem read_next (h : Inv cap threshold c) (hs : Shape cap threshold)
    (hlt : c.reads.length < c.published) :
    Contents cap c.accepted (c.reads ++ [c.shared.value? (.ofNat c.reads.length)])
      (c.shared.read (.ofNat c.reads.length)).buffer := by
  have hpublished := published_le c
  have hfreed : c.freed ≤ c.reads.length := freed_le
  have hroom := h.room
  have hvalue : c.shared.value? (.ofNat c.reads.length) = c.accepted[c.reads.length]? := by
    rw [ChannelShared.value?, h.slot hs, h.contents.present _ (Nat.le_refl _) (by omega)]
    rfl
  rw [hvalue, ChannelShared.read, h.slot hs]
  exact h.contents.read (by omega) (by omega)

theorem readSlot_reads (h : Inv cap threshold c) (hr : c.consumer.phase = .read) :
    c.readSlot.reads = c.reads ++ [c.shared.value? (.ofNat c.reads.length)] := by
  have hreads : c.reads = c.received := reads_of_held (by rw [held, hr])
  have hheld : c.readSlot.held = [] := by
    rcases readSlot_phase c with hphase | hphase <;> rw [held, hphase]
  rw [reads_of_held hheld, hreads, ← h.nextRead]
  rfl

theorem readSlot (h : Inv cap threshold c) (hs : Shape cap threshold)
    (hr : c.consumer.phase = .read) : Inv cap threshold c.readSlot := by
  have hreceives := h.receives
  rw [ReceiveOk, hr] at hreceives
  obtain ⟨hpending, hlt⟩ := hreceives
  have hreads : c.reads = c.received := reads_of_held (by rw [held, hr])
  have hreads' := h.readSlot_reads hr
  have hlength : c.readSlot.received.length = c.received.length + 1 := List.length_append
  have hfreed : c.readSlot.freed = c.freed := by
    unfold freed
    rw [hlength]
    exact Nat.add_sub_add_right ..
  exact {
    mask := h.mask
    producer := h.producer
    consumer := h.consumer
    nextWrite := h.nextWrite
    nextRead := by
      rw [hlength, UInt64.ofNat_add, ← h.nextRead]
      rfl
    tail := h.tail
    head := by
      rw [hfreed]
      exact h.head
    sending := h.sending
    receiving := by
      rw [hlength]
      exact Nat.succ_le_succ h.receiving
    sends := by
      have hsends := h.sends
      unfold SendOk at hsends ⊢
      rw [hfreed]
      exact hsends
    receives := by
      unfold ReceiveOk Channel.readSlot
      rw [h.consumer]
      dsimp only
      split_ifs with hfull
      · exact hpending
      · exact Nat.lt_of_not_le hfull
    order := by
      rw [hreads', List.length_append, hreads]
      exact hlt
    room := by
      rw [hfreed]
      exact h.room
    contents := by
      rw [hreads']
      have hnext := h.read_next hs (hreads ▸ hlt)
      rw [Channel.readSlot, h.nextRead, ← hreads]
      exact hnext }

theorem flushConsumer (h : Inv cap threshold c) (hs : Shape cap threshold)
    (hheld : c.held = []) {phase : Receiving α} (hphase : phase = .idle ∨ phase = .dropped) :
    Inv cap threshold (c.flushConsumer.moveConsumer phase) := by
  have hheld' : ∀ c' : Channel α, (c'.moveConsumer phase).held = [] := by
    intro c'
    rcases hphase with rfl | rfl <;> rfl
  have hreads : c.reads = c.received := reads_of_held hheld
  have hreads' : ∀ c' : Channel α, (c'.moveConsumer phase).reads = c'.received := fun c' =>
    reads_of_held (hheld' c')
  have hfreed : c.freed ≤ c.received.length := Nat.sub_le ..
  have hroom := h.room
  unfold Channel.flushConsumer
  split
  · exact { h with
      head := h.nextRead
      receiving := Nat.zero_le _
      sends := by
        have hsends := h.sends
        unfold SendOk at hsends ⊢
        show match c.producer.phase with
          | .idle | .dropped => c.producer.pending < threshold
          | .write _ => c.producer.pending < threshold ∧
            c.accepted.length < c.received.length + cap
          | .publish => c.producer.pending ≤ threshold
        cases hphase : c.producer.phase <;> simp only [hphase] at hsends ⊢ <;> omega
      receives := by rcases hphase with rfl | rfl <;> exact hs.pos
      order := by
        rw [hreads', ← hreads]
        exact h.order
      room := by
        show c.accepted.length ≤ c.received.length + cap
        omega
      contents := by
        rw [hreads', ← hreads]
        exact h.contents }
  · next hpending =>
    have hzero : c.consumer.pending = 0 := Nat.eq_zero_of_not_pos hpending
    have hreceives : c.consumer.pending < threshold := hzero ▸ hs.pos
    exact { h with
      receives := by rcases hphase with rfl | rfl <;> exact hreceives
      order := by
        rw [hreads', ← hreads]
        exact h.order
      contents := by
        rw [hreads', ← hreads]
        exact h.contents }

theorem tryRecvBatch (h : Inv cap threshold c) (hs : Shape cap threshold)
    (hidle : c.consumer.phase = .idle) (len : Nat) :
    Inv cap threshold (c.tryRecvBatch len) := by
  unfold Channel.tryRecvBatch
  dsimp only
  split
  · exact h
  · have hreceives := h.receives
    rw [ReceiveOk, hidle] at hreceives
    obtain ⟨hle, hlt⟩ := h.available
    have hcap := hs.size
    have havailable : (c.shared.tail - c.consumer.nextRead).toNat =
        c.published - c.received.length := by
      rw [h.tail, h.nextRead, toNat_sub hle (by omega)]
    have hreads : c.reads = c.received := reads_of_held (by rw [held, hidle])
    rw [havailable]
    have hreads' : (c.moveConsumer
        (.batch (min (c.published - c.received.length) len) [])).reads = c.reads := by
      rw [hreads]
      exact List.append_nil _
    exact { h with
      receives := ⟨hreceives, Nat.zero_le _, by
        show c.received.length + min (c.published - c.received.length) len ≤ c.published
        omega⟩
      order := by
        rw [hreads']
        exact h.order
      contents := by
        rw [hreads']
        exact h.contents }

theorem readBatch_reads (hb : c.consumer.phase = .batch n out) :
    (c.readBatch n out).reads = c.reads ++
      [c.shared.value? (c.consumer.nextRead + UInt64.ofNat out.length)] := by
  rw [reads, reads, held, held, hb, List.append_assoc]
  rfl

theorem publishBatch_reads (hb : c.consumer.phase = .batch n out) :
    (c.publishBatch n out).reads = c.reads := by
  rw [reads, reads, held, held, hb]
  exact List.append_nil _

theorem readBatch (h : Inv cap threshold c) (hs : Shape cap threshold)
    (hb : c.consumer.phase = .batch n out) (hn : out.length < n) :
    Inv cap threshold (c.readBatch n out) := by
  have hreceives := h.receives
  rw [ReceiveOk, hb] at hreceives
  obtain ⟨hpending, -, hle⟩ := hreceives
  have hlength : c.reads.length = c.received.length + out.length := by
    rw [reads, held, hb, List.length_append]
  have hindex : c.consumer.nextRead + UInt64.ofNat out.length = .ofNat c.reads.length := by
    rw [h.nextRead, hlength, UInt64.ofNat_add]
  have hreads' : (c.readBatch n out).reads =
      c.reads ++ [c.shared.value? (.ofNat c.reads.length)] := by
    rw [← hindex]
    exact readBatch_reads hb
  exact { h with
    receives := by
      refine ⟨hpending, ?_, hle⟩
      rw [List.length_append]
      exact hn
    order := by
      rw [hreads', List.length_append, hlength]
      show c.received.length + out.length + 1 ≤ c.published
      omega
    contents := by
      rw [hreads', Channel.readBatch]
      dsimp only
      rw [hindex]
      exact h.read_next hs (by omega) }

theorem publishBatch (h : Inv cap threshold c) (hs : Shape cap threshold)
    (hb : c.consumer.phase = .batch n out) (hn : ¬ out.length < n) :
    Inv cap threshold (c.publishBatch n out) := by
  have hreceives := h.receives
  rw [ReceiveOk, hb] at hreceives
  obtain ⟨-, hout, hle⟩ := hreceives
  have hlen : out.length = n := by omega
  have hreads' := @publishBatch_reads _ c n out hb
  have hlength : (c.publishBatch n out).received.length = c.received.length + n := by
    rw [← hlen]
    exact List.length_append
  have hnext : c.consumer.nextRead + UInt64.ofNat n =
      .ofNat (c.publishBatch n out).received.length := by
    rw [h.nextRead, hlength, UInt64.ofNat_add]
  have hfreed : (c.publishBatch n out).freed = c.received.length + n := by
    rw [freed, hlength]
    exact Nat.sub_zero _
  have hold : c.freed ≤ c.received.length := Nat.sub_le ..
  have hroom := h.room
  exact { h with
    nextRead := hnext
    head := hnext
    receiving := Nat.zero_le _
    sends := by
      have hsends := h.sends
      unfold SendOk at hsends ⊢
      rw [hfreed]
      show match c.producer.phase with
        | .idle | .dropped => c.producer.pending < threshold
        | .write _ => c.producer.pending < threshold ∧
          c.accepted.length < c.received.length + n + cap
        | .publish => c.producer.pending ≤ threshold
      cases hphase : c.producer.phase <;> simp only [hphase] at hsends ⊢ <;> omega
    receives := hs.pos
    order := by
      rw [hreads']
      exact h.order
    room := by
      rw [hfreed]
      show c.accepted.length ≤ c.received.length + n + cap
      omega
    contents := by
      rw [hreads']
      exact h.contents }

end Inv

-- ---------------------------------------------------------------------------
-- Steps
-- ---------------------------------------------------------------------------

theorem callProducer_eq_some {next : Channel α} :
    c.callProducer next = some c' ↔ c.producer.phase = .idle ∧ next = c' := by
  unfold callProducer
  cases c.producer.phase <;> simp

theorem callConsumer_eq_some {next : Channel α} :
    c.callConsumer next = some c' ↔ c.consumer.phase = .idle ∧ next = c' := by
  unfold callConsumer
  cases c.consumer.phase <;> simp

theorem flushProducer_idle (h : c.producer.phase = .idle) :
    c.flushProducer.moveProducer .idle = c.flushProducer := by
  unfold flushProducer moveProducer
  split <;> simp only [← h]

theorem flushConsumer_idle (h : c.consumer.phase = .idle) :
    c.flushConsumer.moveConsumer .idle = c.flushConsumer := by
  unfold flushConsumer moveConsumer
  split <;> simp only [← h]

theorem Inv.step {a : Action α} (h : Inv cap threshold c) (hs : Shape cap threshold)
    (hstep : c.step a = some c') : Inv cap threshold c' := by
  cases a with
  | trySend value =>
    obtain ⟨hidle, rfl⟩ := callProducer_eq_some.mp hstep
    exact h.trySend hs hidle
  | flushProducer =>
    obtain ⟨hidle, rfl⟩ := callProducer_eq_some.mp hstep
    exact flushProducer_idle hidle ▸ (h.flushProducer hs (.inl rfl)).1
  | dropProducer =>
    obtain ⟨-, rfl⟩ := callProducer_eq_some.mp hstep
    exact (h.flushProducer hs (.inr rfl)).1
  | producer =>
    change c.stepProducer = some c' at hstep
    unfold stepProducer at hstep
    cases hphase : c.producer.phase with
    | write value =>
      rw [hphase] at hstep
      cases hstep
      exact h.writeSlot hs hphase
    | publish =>
      rw [hphase] at hstep
      cases hstep
      exact (h.flushProducer hs (.inl rfl)).1
    | idle | dropped =>
      rw [hphase] at hstep
      cases hstep
  | tryRecv =>
    obtain ⟨hidle, rfl⟩ := callConsumer_eq_some.mp hstep
    exact h.tryRecv hs hidle
  | tryRecvBatch len =>
    obtain ⟨hidle, rfl⟩ := callConsumer_eq_some.mp hstep
    exact h.tryRecvBatch hs hidle len
  | flushConsumer =>
    obtain ⟨hidle, rfl⟩ := callConsumer_eq_some.mp hstep
    exact flushConsumer_idle hidle ▸ h.flushConsumer hs (by rw [held, hidle]) (.inl rfl)
  | dropConsumer =>
    obtain ⟨hidle, rfl⟩ := callConsumer_eq_some.mp hstep
    exact h.flushConsumer hs (by rw [held, hidle]) (.inr rfl)
  | consumer =>
    change c.stepConsumer = some c' at hstep
    unfold stepConsumer at hstep
    cases hphase : c.consumer.phase with
    | read =>
      rw [hphase] at hstep
      cases hstep
      exact h.readSlot hs hphase
    | publish =>
      rw [hphase] at hstep
      cases hstep
      exact h.flushConsumer hs (by rw [held, hphase]) (.inl rfl)
    | batch n out =>
      rw [hphase] at hstep
      dsimp only at hstep
      split at hstep
      · next hn =>
        cases hstep
        exact h.readBatch hs hphase hn
      · next hn =>
        cases hstep
        exact h.publishBatch hs hphase hn
    | idle | dropped =>
      rw [hphase] at hstep
      cases hstep

/-- What has been published stays published. -/
structure Before (c c' : Channel α) : Prop where
  accepted : c.accepted <+: c'.accepted
  published : c.published ≤ c'.published

theorem Before.refl : Before c c := ⟨List.prefix_rfl, Nat.le_refl _⟩

theorem Before.trans {d : Channel α} (h : Before c c') (h' : Before c' d) : Before c d :=
  ⟨h.accepted.trans h'.accepted, h.published.trans h'.published⟩

theorem flushConsumer_producer (c : Channel α) (phase : Receiving α) :
    (c.flushConsumer.moveConsumer phase).accepted = c.accepted ∧
      (c.flushConsumer.moveConsumer phase).producer = c.producer := by
  unfold flushConsumer
  split <;> exact ⟨rfl, rfl⟩

theorem flushProducer_accepted (c : Channel α) (phase : Sending α) :
    (c.flushProducer.moveProducer phase).accepted = c.accepted := by
  unfold flushProducer
  split <;> rfl

/-- The next access of the consumer is its own. -/
theorem stepConsumer_producer (hstep : c.stepConsumer = some c') :
    c'.accepted = c.accepted ∧ c'.producer = c.producer := by
  unfold stepConsumer at hstep
  cases hphase : c.consumer.phase with
  | read =>
    rw [hphase] at hstep
    cases hstep
    exact ⟨rfl, rfl⟩
  | publish =>
    rw [hphase] at hstep
    cases hstep
    exact flushConsumer_producer c .idle
  | batch n out =>
    rw [hphase] at hstep
    dsimp only at hstep
    split at hstep <;> cases hstep <;> exact ⟨rfl, rfl⟩
  | idle | dropped =>
    rw [hphase] at hstep
    cases hstep

theorem Before.of_producer (h : c'.accepted = c.accepted ∧ c'.producer = c.producer) :
    Before c c' := by
  refine ⟨h.1 ▸ List.prefix_rfl, ?_⟩
  simp only [Channel.published, h.1, h.2, Nat.le_refl]

theorem Inv.before {a : Action α} (h : Inv cap threshold c) (hs : Shape cap threshold)
    (hstep : c.step a = some c') : Before c c' := by
  have hflush : ∀ phase, phase = .idle ∨ phase = .dropped →
      Before c (c.flushProducer.moveProducer phase) := by
    intro phase hphase
    refine ⟨(flushProducer_accepted c phase).symm ▸ List.prefix_rfl, ?_⟩
    rw [(h.flushProducer hs hphase).2]
    exact published_le c
  cases a with
  | trySend value =>
    obtain ⟨-, rfl⟩ := callProducer_eq_some.mp hstep
    unfold Channel.trySend
    split <;> exact ⟨List.prefix_rfl, Nat.le_refl _⟩
  | flushProducer =>
    obtain ⟨hidle, rfl⟩ := callProducer_eq_some.mp hstep
    exact flushProducer_idle hidle ▸ hflush .idle (.inl rfl)
  | dropProducer =>
    obtain ⟨-, rfl⟩ := callProducer_eq_some.mp hstep
    exact hflush .dropped (.inr rfl)
  | producer =>
    change c.stepProducer = some c' at hstep
    unfold stepProducer at hstep
    cases hphase : c.producer.phase with
    | write value =>
      rw [hphase] at hstep
      cases hstep
      exact ⟨List.prefix_append .., (writeSlot_published c value).ge⟩
    | publish =>
      rw [hphase] at hstep
      cases hstep
      exact hflush .idle (.inl rfl)
    | idle | dropped =>
      rw [hphase] at hstep
      cases hstep
  | tryRecv =>
    obtain ⟨-, rfl⟩ := callConsumer_eq_some.mp hstep
    unfold Channel.tryRecv
    split <;> exact ⟨List.prefix_rfl, Nat.le_refl _⟩
  | tryRecvBatch len =>
    obtain ⟨-, rfl⟩ := callConsumer_eq_some.mp hstep
    unfold Channel.tryRecvBatch
    dsimp only
    split <;> exact ⟨List.prefix_rfl, Nat.le_refl _⟩
  | flushConsumer =>
    obtain ⟨hidle, rfl⟩ := callConsumer_eq_some.mp hstep
    exact flushConsumer_idle hidle ▸ .of_producer (flushConsumer_producer c .idle)
  | dropConsumer =>
    obtain ⟨-, rfl⟩ := callConsumer_eq_some.mp hstep
    exact .of_producer (flushConsumer_producer c .dropped)
  | consumer => exact .of_producer (stepConsumer_producer hstep)

-- ---------------------------------------------------------------------------
-- The consumer on its own
-- ---------------------------------------------------------------------------

/-- The consumer finishes its call, and begins nothing but `try_recv`. -/
def Receives (_ : Channel α) (a : Action α) : Prop := a = .tryRecv ∨ a = .consumer

/-- How far the current call is from its end. -/
def ahead (c : Channel α) : Nat :=
  match c.consumer.phase with
  | .idle => 2
  | .read => 1
  | .publish | .batch .. => 3
  | .dropped => 0

/-- The steps left until everything published has been received. -/
def left (c : Channel α) : Nat := 4 * (c.published - c.reads.length) + c.ahead

/-- The consumer gets on. -/
theorem Inv.progress (h : Inv cap threshold c) (hs : Shape cap threshold)
    (hlive : c.consumer.phase ≠ .dropped)
    (hmore : c.consumer.phase = .idle → c.received.length ≠ c.published) :
    ∃ a, c.Receives a ∧ ∃ c', c.step a = some c' ∧ c'.left < c.left ∧
      c'.consumer.phase ≠ .dropped ∧ c'.accepted = c.accepted ∧ c'.producer = c.producer := by
  have hreceives := h.receives
  have hcall : ∀ c', c.stepConsumer = some c' → c'.left < c.left →
      c'.consumer.phase ≠ .dropped → ∃ a, c.Receives a ∧ ∃ c', c.step a = some c' ∧
        c'.left < c.left ∧ c'.consumer.phase ≠ .dropped ∧ c'.accepted = c.accepted ∧
        c'.producer = c.producer := fun c' hstep hleft hphase =>
    ⟨.consumer, .inr rfl, c', hstep, hleft, hphase, stepConsumer_producer hstep⟩
  cases hphase : c.consumer.phase with
  | dropped => exact absurd hphase hlive
  | idle =>
    have hsome := mt (h.empty_iff hs).mp (hmore hphase)
    refine ⟨.tryRecv, .inl rfl, c.moveConsumer .read, ?_, ?_, by simp [moveConsumer], rfl, rfl⟩
    · refine callConsumer_eq_some.mpr ⟨hphase, ?_⟩
      rw [Channel.tryRecv, if_neg hsome]
      rfl
    · have hreads : (c.moveConsumer .read).reads = c.reads := by
        rw [@reads_of_held _ c (by rw [held, hphase])]
        exact List.append_nil _
      have hahead : c.ahead = 2 := by rw [ahead, hphase]
      rw [left, left, hreads, hahead]
      exact Nat.lt_succ_self _
  | read =>
    rw [ReceiveOk, hphase] at hreceives
    have hreads : c.reads = c.received := reads_of_held (by rw [held, hphase])
    have hahead : c.ahead = 1 := by rw [ahead, hphase]
    have hahead' : c.readSlot.ahead ≤ 3 := by
      rcases readSlot_phase c with hnext | hnext <;> rw [ahead, hnext]
      exact Nat.le_succ 2
    refine hcall c.readSlot (by rw [stepConsumer, hphase]) ?_ ?_
    · have hlt := hreceives.2
      have hpub : c.readSlot.published = c.published := rfl
      rw [left, left, h.readSlot_reads hphase, List.length_append, hahead, hpub, hreads]
      simp only [List.length_singleton]
      omega
    · rcases readSlot_phase c with hnext | hnext <;> rw [hnext] <;> simp
  | publish =>
    have hreads : c.reads = c.received := reads_of_held (by rw [held, hphase])
    have hahead : c.ahead = 3 := by rw [ahead, hphase]
    refine hcall (c.flushConsumer.moveConsumer .idle) (by rw [stepConsumer, hphase]) ?_
      (by simp [moveConsumer])
    have hreads' : (c.flushConsumer.moveConsumer .idle).reads = c.reads := by
      rw [hreads]
      unfold Channel.flushConsumer
      split <;> exact List.append_nil _
    have hpub : (c.flushConsumer.moveConsumer .idle).published = c.published := by
      obtain ⟨haccepted, hproducer⟩ := flushConsumer_producer c .idle
      rw [published, published, haccepted, hproducer]
    rw [left, left, hreads', hpub, hahead]
    exact Nat.lt_succ_self _
  | batch n out =>
    rw [ReceiveOk, hphase] at hreceives
    have hahead : c.ahead = 3 := by rw [ahead, hphase]
    have hlength : c.reads.length = c.received.length + out.length := by
      rw [reads, held, hphase, List.length_append]
    by_cases hn : out.length < n
    · refine hcall (c.readBatch n out) (by simp only [stepConsumer, hphase, if_pos hn]) ?_
        (by simp [Channel.readBatch, moveConsumer])
      have hpub : (c.readBatch n out).published = c.published := rfl
      have hahead' : (c.readBatch n out).ahead = 3 := rfl
      rw [left, left, readBatch_reads hphase, List.length_append, hahead, hahead', hpub]
      simp only [List.length_singleton]
      omega
    · refine hcall (c.publishBatch n out) (by simp only [stepConsumer, hphase, if_neg hn]) ?_
        (by simp [Channel.publishBatch])
      have hpub : (c.publishBatch n out).published = c.published := rfl
      rw [left, left, publishBatch_reads hphase, hahead, hpub]
      exact Nat.lt_succ_self _

/-- Everything published can be received. -/
theorem Inv.drain (h : Inv cap threshold c) (hs : Shape cap threshold)
    (hlive : c.consumer.phase ≠ .dropped) :
    ∃ c', Reachable Channel.step Receives c c' ∧ c'.accepted = c.accepted ∧
      c'.received.length = c.published ∧ Inv cap threshold c' := by
  induction hleft : c.left using Nat.strong_induction_on generalizing c with
  | h k ih =>
    subst hleft
    by_cases hdone : c.consumer.phase = .idle ∧ c.received.length = c.published
    · exact ⟨c, .start, rfl, hdone.2, h⟩
    · obtain ⟨a, ha, c', hstep, hlt, hlive', haccepted, hproducer⟩ :=
        h.progress hs hlive fun hidle heq => hdone ⟨hidle, heq⟩
      obtain ⟨d, hd, haccepted', hreceived, hinv⟩ := ih _ hlt (h.step hs hstep) hlive' rfl
      have hpub : c'.published = c.published := by rw [published, published, haccepted, hproducer]
      exact ⟨d, Reachable.trans (.step .start ha hstep) hd, haccepted'.trans haccepted,
        hreceived.trans hpub, hinv⟩

end Channel

-- ---------------------------------------------------------------------------
-- Runs
-- ---------------------------------------------------------------------------

open Channel

/-- What calls of both sides, interleaved, make of a new channel. -/
def Reached (capacity : Nat) (c : Channel α) : Prop :=
  Reachable Channel.step (fun _ _ => True) (.new capacity) c

variable {c : Channel α} {capacity : Nat}

theorem reached_inv (h : Reached capacity c) :
    Inv (ringSize capacity) (effectiveThreshold (ringSize capacity)) c :=
  h.invariant (new_inv capacity) fun _ _ _ hinv _ hstep =>
    hinv.step (shape_of_request capacity) hstep

theorem run_before {cap threshold : Nat} {d : Channel α} (hs : Shape cap threshold)
    (h : Inv cap threshold c) (hd : Reachable Channel.step (fun _ _ => True) c d) :
    Inv cap threshold d ∧ Before c d := by
  induction hd with
  | start => exact ⟨h, .refl⟩
  | step _ _ hstep ih => exact ⟨ih.1.step hs hstep, ih.2.trans (ih.1.before hs hstep)⟩

/-- A side between two calls keeps less than a batch to itself, so a full ring
is not empty. -/
theorem Channel.Inv.not_stalled {cap threshold : Nat} (h : Inv cap threshold c)
    (hs : Shape cap threshold) (hidle : c.producer.phase = .idle) {value : α}
    (hfull : c.trySend value = .error .full) : c.consumer.nextRead ≠ c.shared.tail := by
  have hsent : c.accepted.length = c.freed + cap := by
    rw [← h.full_iff hs]
    by_contra hroom
    rw [Channel.trySend, if_neg hroom] at hfull
    cases hfull
  have hsends := h.sends
  rw [SendOk, hidle] at hsends
  have hreceives : c.consumer.pending ≤ threshold := by
    have hreceives := h.receives
    unfold ReceiveOk at hreceives
    cases hphase : c.consumer.phase <;> simp only [hphase] at hreceives <;> omega
  rw [ne_eq, h.empty_iff hs, published]
  rw [freed] at hsent
  have hhalf := hs.half
  have hsending := h.sending
  have hreceiving := h.receiving
  omega

/-- The typed channel: what is received is a prefix of what was accepted, no
unread slot is overwritten, everything accepted before a flush or the drop of
the producer can be received, and a send does not find the ring full while
the consumer sees nothing. -/
theorem channel_fifo (h : Reached capacity c) :
    c.received <+: c.accepted.map some ∧ ¬ c.Overwrites ∧
      (∀ c₁, c.step .flushProducer = some c₁ ∨ c.step .dropProducer = some c₁ →
        ∀ c₂, Reachable Channel.step (fun _ _ => True) c₁ c₂ → c₂.consumer.phase ≠ .dropped →
          ∃ c₃, Reachable Channel.step Receives c₂ c₃ ∧ c₁.accepted.map some <+: c₃.received) ∧
      ∀ value, c.producer.phase = .idle → c.trySend value = .error .full →
        c.consumer.nextRead ≠ c.shared.tail := by
  have hs := shape_of_request capacity
  have hinv := reached_inv h
  refine ⟨(List.prefix_append ..).trans hinv.contents.fifo, hinv.not_overwrites hs,
    fun c₁ hflush c₂ hrun hlive => ?_, fun value hidle hfull => hinv.not_stalled hs hidle hfull⟩
  have hall : Inv (ringSize capacity) (effectiveThreshold (ringSize capacity)) c₁ ∧
      c₁.published = c₁.accepted.length := by
    rcases hflush with hstep | hstep
    · obtain ⟨hidle, rfl⟩ := callProducer_eq_some.mp hstep
      have hflush := hinv.flushProducer hs (.inl rfl)
      have haccepted := flushProducer_accepted c .idle
      rw [flushProducer_idle hidle] at hflush haccepted
      exact ⟨hflush.1, haccepted.symm ▸ hflush.2⟩
    · obtain ⟨-, rfl⟩ := callProducer_eq_some.mp hstep
      have hflush := hinv.flushProducer hs (.inr rfl)
      exact ⟨hflush.1, (flushProducer_accepted c .dropped).symm ▸ hflush.2⟩
  obtain ⟨hinv₂, hbefore⟩ := run_before hs hall.1 hrun
  obtain ⟨c₃, hdrain, haccepted, hreceived, hinv₃⟩ := hinv₂.drain hs hlive
  refine ⟨c₃, hdrain, ?_⟩
  have hprefix : c₁.accepted.map some <+: c₃.accepted.map some :=
    haccepted.symm ▸ hbefore.accepted.map some
  have hprefix' : c₃.received <+: c₃.accepted.map some :=
    (List.prefix_append ..).trans hinv₃.contents.fifo
  refine List.prefix_of_prefix_length_le hprefix hprefix' ?_
  rw [List.length_map, ← hall.2, hreceived]
  exact hbefore.published

def sendReadSend : List (Action Nat) :=
  [.trySend 7, .producer, .producer, .tryRecv, .consumer, .consumer, .trySend 8, .producer,
    .producer]

/-- Two values are sent through a ring of two slots, and one is received. -/
def halfRead : Channel Nat := (run Channel.step (.new 2) sendReadSend).getD (.new 2)

theorem reached_halfRead : Reached 2 halfRead :=
  @reachable_of_run _ _ _ _ _ _ sendReadSend _ (fun _ _ => trivial) .start (by decide +kernel)

theorem channel_fifo_halfRead :
    halfRead.received <+: halfRead.accepted.map some ∧ ¬ halfRead.Overwrites ∧
      (∀ c₁, halfRead.step .flushProducer = some c₁ ∨ halfRead.step .dropProducer = some c₁ →
        ∀ c₂, Reachable Channel.step (fun _ _ => True) c₁ c₂ → c₂.consumer.phase ≠ .dropped →
          ∃ c₃, Reachable Channel.step Receives c₂ c₃ ∧ c₁.accepted.map some <+: c₃.received) ∧
      ∀ value, halfRead.producer.phase = .idle → halfRead.trySend value = .error .full →
        halfRead.consumer.nextRead ≠ halfRead.shared.tail :=
  channel_fifo reached_halfRead

end Typed

end Sxla
