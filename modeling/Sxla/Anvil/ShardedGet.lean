import Sxla.Anvil.ShardedLedger

/-!
# What `get` returns

Any number of threads read and write. While a probe for a key has not seen it,
the key is ahead of it in the table that the probe reads, or has been absent
at some moment since the call. A value that is loaded belongs to the key that
the slot has at that moment.
-/

namespace Sxla

open Transition

namespace Sharded

open LinearProbe

variable {V : Type}

namespace Shard

/-- What holds of a shard with the holder of its lock; one at rest is as after `unlock`. -/
structure Kept (s : Shard V) (key : Nat) (writer : Writer) : Prop where
  sound : s.Sound key writer
  accounts : (s.accounts writer).Perm (List.range s.boxes.length)

/-- At some moment since `began` the map did not have `key`. -/
def Missed (s : Shard V) (key began : Nat) : Prop :=
  ∃ m, began ≤ m ∧ m ≤ s.history.length ∧ latest key (s.history.take m) = none

/-- A probe at step `n` and slot `i` has its key ahead. -/
def Seeks (s : Shard V) (key began table i n : Nat) : Prop :=
  ∃ t, s.tables[table]? = some t ∧ n ≤ t.mask ∧ i = position t.mask key n ∧
    (s.Missed key began ∨ t.Ahead key n)

/-- What a `get` knows of its key. -/
def Reading (s : Shard V) (key began : Nat) : Reader → Prop
  | .table => True
  | .state table i n | .key table i n => s.Seeks key began table i n
  | .value table i _ => ∃ t c, s.tables[table]? = some t ∧ t.slots[i]? = some c ∧
    (s.Missed key began ∨ c.Held key)

variable {s s' : Shard V} {t : Table} {key began : Nat} {reader : Reader}

theorem missed_now (hbegan : began ≤ s.history.length) (h : latest key s.history = none) :
    s.Missed key began := by
  refine ⟨s.history.length, hbegan, Nat.le_refl _, ?_⟩
  rw [List.take_length]
  exact h

theorem take_grown {α : Type} {l l' : List α} {m : Nat} (h : l <+: l') (hm : m ≤ l.length) :
    l'.take m = l.take m := by
  obtain ⟨more, rfl⟩ := h
  rw [List.take_append_of_le_length hm]

theorem Missed.evolves (h : s.Missed key began) (hev : s.Evolves s') : s'.Missed key began := by
  obtain ⟨m, hbegan, hm, hnone⟩ := h
  refine ⟨m, hbegan, hm.trans hev.history.length_le, ?_⟩
  rw [take_grown hev.history hm, hnone]

theorem Seeks.evolves {table i n : Nat} (h : s.Seeks key began table i n)
    (hbegan : began ≤ s'.history.length) (hev : s.Evolves s') :
    s'.Seeks key began table i n := by
  obtain ⟨t, ht, hn, hi, hahead⟩ := h
  obtain ⟨t', ht', hmask, hslots⟩ := hev.tables table t ht
  refine ⟨t', ht', hmask ▸ hn, hmask ▸ hi, ?_⟩
  rcases hahead with hmissed | ⟨m, c, hnm, hm, hc, hheld⟩
  · exact .inl (hmissed.evolves hev)
  · obtain ⟨c', hc', hkept⟩ := hslots _ c hc
    rcases hkept key hheld with hheld' | hnone
    · refine .inr ⟨m, c', hnm, hmask ▸ hm, ?_, hheld'⟩
      rw [seen, hmask]
      exact hc'
    · exact .inl (missed_now hbegan hnone)

theorem Reading.evolves (h : s.Reading key began reader) (hbegan : began ≤ s.history.length)
    (hev : s.Evolves s') : s'.Reading key began reader := by
  have hbegan' := hbegan.trans hev.history.length_le
  cases reader with
  | table => trivial
  | state table i n => exact Seeks.evolves h hbegan' hev
  | key table i n => exact Seeks.evolves h hbegan' hev
  | value table i n =>
    obtain ⟨t, c, ht, hc, hheld⟩ := h
    obtain ⟨t', ht', -, hslots⟩ := hev.tables table t ht
    obtain ⟨c', hc', hkept⟩ := hslots i c hc
    refine ⟨t', c', ht', hc', ?_⟩
    rcases hheld with hmissed | hheld
    · exact .inl (hmissed.evolves hev)
    · rcases hkept key hheld with hheld' | hnone
      · exact .inr hheld'
      · exact .inl (missed_now hbegan' hnone)

/-- What a `get` that goes on knows, and what one that ends without a value has seen. -/
def ReadOk (s : Shard V) (key began : Nat) : Reader ⊕ (Option V × Bool) → Prop
  | .inl reader => s.Reading key began reader
  | .inr (value, movedOut) => value = none → movedOut = true ∨ s.Missed key began

theorem readOk_getNext {table i n : Nat} {c : Slot} (ht : s.tables[table]? = some t) (hok : t.Ok)
    (hn : n ≤ t.mask) (hi : i = position t.mask key n) (hc : t.seen key n = some c)
    (hahead : s.Missed key began ∨ t.Ahead key n) (hheld : ¬ c.Held key) :
    s.ReadOk key began (t.getNext table i n) := by
  have hnext : s.Missed key began ∨ t.Ahead key (n + 1) := hahead.imp_right (·.step hc hheld)
  unfold Table.getNext
  split
  · next hlt =>
    refine ⟨t, ht, hlt, ?_, hnext⟩
    rw [hi]
    exact position_succ hok.ordered.pow key n
  · next hlt => exact fun _ => .inr (hnext.resolve_right (Table.not_ahead_end (by omega)))

theorem read_ok (hs : s.Base t) (h : s.Reading key began reader) (hbegan : began ≤ s.history.length)
    {result : Reader ⊕ (Option V × Bool)} (hread : s.read key reader = some result) :
    s.ReadOk key began result := by
  cases reader with
  | table =>
    rw [read, hs.current] at hread
    cases hread
    refine ⟨t, hs.current, Nat.zero_le _, rfl, ?_⟩
    by_cases hnone : latest key s.history = none
    · exact .inl (missed_now hbegan hnone)
    · exact .inr (hs.listed key hnone)
  | state table i n =>
    obtain ⟨u, hu, hn, hi, hahead⟩ := h
    obtain ⟨_, c, hu', hc, rfl⟩ := access_eq_some.mp hread
    cases Option.some.inj (hu.symm.trans hu')
    have hseen : u.seen key n = some c := by
      rw [hi] at hc
      exact hc
    have hnext : c.state ≠ .full → s.ReadOk key began (u.getNext table i n) := fun hst =>
      readOk_getNext hu (hs.tables table u hu) hn hi hseen hahead (Change.not_held_of_state hst key)
    cases hst : c.state with
    | empty =>
      refine fun _ => .inr (hahead.resolve_right ?_)
      refine (hs.tables table u hu).ordered.not_ahead hseen (fun hpassed => hpassed.1 hst) ?_
      refine Change.not_held_of_state ?_ key
      rw [hst]
      nofun
    | full => exact ⟨u, hu, hn, hi, hahead⟩
    | reserved | tombstone => exact hnext (by rw [hst]; nofun)
  | key table i n =>
    obtain ⟨u, hu, hn, hi, hahead⟩ := h
    obtain ⟨_, c, hu', hc, rfl⟩ := access_eq_some.mp hread
    cases Option.some.inj (hu.symm.trans hu')
    have hseen : u.seen key n = some c := by
      rw [hi] at hc
      exact hc
    split
    · next hkey =>
      refine ⟨u, c, hu, hc, hahead.imp_right fun hahead => ?_⟩
      -- A key that is further ahead would have passed this slot.
      by_contra hheld
      obtain ⟨m, d, hm, hmask, hd, hdheld⟩ := hahead.step hseen hheld
      have hpath := (hs.tables table u hu).ordered.path key m d hmask hd hdheld
      exact (hpath n (by omega) c hseen).2 hkey
    · next hkey =>
      exact readOk_getNext hu (hs.tables table u hu) hn hi hseen hahead fun hheld => hkey hheld.2.1
  | value table i n =>
    obtain ⟨u, c, hu, hc, hheld⟩ := h
    obtain ⟨d, hd, hread⟩ := Option.bind_eq_some_iff.mp hread
    obtain ⟨_, _, hu', hc', rfl⟩ := access_eq_some.mp hd
    cases Option.some.inj (hu.symm.trans hu')
    cases Option.some.inj (hc.symm.trans hc')
    cases hvalue : c.value with
    | none =>
      rw [hvalue] at hread
      cases hread
      intro _
      rcases hheld with hmissed | ⟨-, hkey, hnull | hmoved⟩
      · exact .inr hmissed
      · exact absurd hvalue hnull
      · left
        rw [hmoved, hkey, beq_self_eq_true]
        rfl
    | some box =>
      rw [hvalue] at hread
      obtain ⟨⟨k, value⟩, -, hread⟩ := Option.bind_eq_some_iff.mp hread
      cases hread
      nofun

end Shard

-- ---------------------------------------------------------------------------
-- All threads
-- ---------------------------------------------------------------------------

/-- The shards at rest and the ones being written, each writer alone in its shard. -/
structure Inv (shards : List (Shard V)) (threads : List (Phase V)) : Prop where
  size : shards.length = SHARD_COUNT
  kept : ∀ (σ : Nat) (s : Shard V), shards[σ]? = some s → ∃ key writer, s.Kept key writer
  rest : ∀ (σ : Nat) (s : Shard V), shards[σ]? = some s → s.locked = false →
    ∀ key, s.Kept key (.unlock (.ok ()))
  writers : ∀ (t : Nat) (op : Op V) (writer : Writer), threads[t]? = some (.write op writer) →
    ∃ s, shards[ShardedMap.shardOf op.key]? = some s ∧ s.locked = true ∧ s.Kept op.key writer
  alone : ∀ (t u : Nat) (op op' : Op V) (writer writer' : Writer),
    threads[t]? = some (.write op writer) → threads[u]? = some (.write op' writer') →
    ShardedMap.shardOf op.key = ShardedMap.shardOf op'.key → t = u
  held : ∀ (σ : Nat) (s : Shard V), shards[σ]? = some s → s.locked = true →
    ∃ (t : Nat) (op : Op V) (writer : Writer),
      threads[t]? = some (.write op writer) ∧ ShardedMap.shardOf op.key = σ
  readers : ∀ (t key began : Nat) (reader : Reader), threads[t]? = some (.get key began reader) →
    ∃ s, shards[ShardedMap.shardOf key]? = some s ∧ began ≤ s.history.length ∧
      s.Reading key began reader

/-- Boxes and histories only grow. -/
def Grows (shards shards' : List (Shard V)) : Prop :=
  ∀ (σ : Nat) (s : Shard V), shards[σ]? = some s →
    ∃ s', shards'[σ]? = some s' ∧ s.boxes <+: s'.boxes ∧ s.history <+: s'.history

namespace Inv

variable {shards : List (Shard V)} {threads : List (Phase V)} {t σ : Nat} {old phase : Phase V}
  {s s' : Shard V}

/-- A thread that does not write goes on, and does not begin to write. -/
theorem move (h : Inv shards threads) (ht : threads[t]? = some old)
    (hold : ∀ op writer, old ≠ .write op writer) (hphase : ∀ op writer, phase ≠ .write op writer)
    (hread : ∀ key began reader, phase = .get key began reader →
      ∃ s, shards[ShardedMap.shardOf key]? = some s ∧ began ≤ s.history.length ∧
        s.Reading key began reader) :
    Inv shards (threads.set t phase) := by
  have hwriter : ∀ (u : Nat) (op : Op V) (writer : Writer),
      (threads.set t phase)[u]? = some (.write op writer) → threads[u]? = some (.write op writer) := by
    intro u op writer hu
    rcases getElem?_set_cases hu with ⟨-, heq⟩ | ⟨-, hu⟩
    · exact absurd heq.symm (hphase op writer)
    · exact hu
  refine ⟨h.size, h.kept, h.rest, fun u op writer hu => h.writers u op writer (hwriter u op writer hu),
    ?_, ?_, ?_⟩
  · intro u v op op' writer writer' hu hv
    exact h.alone u v op op' writer writer' (hwriter u op writer hu) (hwriter v op' writer' hv)
  · intro σ s hs hlocked
    obtain ⟨u, op, writer, hu, hσ⟩ := h.held σ s hs hlocked
    refine ⟨u, op, writer, ?_, hσ⟩
    rw [List.getElem?_set_ne]
    · exact hu
    · rintro rfl
      rw [ht] at hu
      exact hold op writer (Option.some.inj hu)
  · intro u key began reader hu
    rcases getElem?_set_cases hu with ⟨-, heq⟩ | ⟨-, hu⟩
    · exact hread key began reader heq.symm
    · exact h.readers u key began reader hu

/-- The holder of a shard's lock takes a step, or a thread takes the lock. -/
theorem write (h : Inv shards threads) (hs : shards[σ]? = some s) (hev : s.Evolves s')
    (ht : threads[t]? = some old)
    (hold : ∀ op writer, old = .write op writer → ShardedMap.shardOf op.key = σ)
    (hothers : ∀ (u : Nat) (op : Op V) (writer : Writer), u ≠ t →
      threads[u]? = some (.write op writer) → ShardedMap.shardOf op.key ≠ σ)
    (hkept : ∃ key writer, s'.Kept key writer)
    (hrest : s'.locked = false → ∀ key, s'.Kept key (.unlock (.ok ())))
    (hwrite : ∀ op writer, phase = .write op writer →
      ShardedMap.shardOf op.key = σ ∧ s'.locked = true ∧ s'.Kept op.key writer)
    (hget : ∀ key began reader, phase ≠ .get key began reader)
    (hheld : s'.locked = true → ∃ op writer, phase = .write op writer) :
    Inv (shards.set σ s') (threads.set t phase) := by
  refine ⟨?_, ?_, ?_, ?_, ?_, ?_, ?_⟩
  · rw [List.length_set, h.size]
  · intro τ r hr
    rcases getElem?_set_cases hr with ⟨-, rfl⟩ | ⟨-, hr⟩
    · exact hkept
    · exact h.kept τ r hr
  · intro τ r hr hlocked
    rcases getElem?_set_cases hr with ⟨-, rfl⟩ | ⟨-, hr⟩
    · exact hrest hlocked
    · exact h.rest τ r hr hlocked
  · intro u op writer hu
    rcases getElem?_set_cases hu with ⟨-, heq⟩ | ⟨hne, hu⟩
    · obtain ⟨hσ, hlocked, hk⟩ := hwrite op writer heq.symm
      refine ⟨s', ?_, hlocked, hk⟩
      rw [hσ]
      exact getElem?_set_of hs s'
    · obtain ⟨r, hr, hlocked, hk⟩ := h.writers u op writer hu
      refine ⟨r, ?_, hlocked, hk⟩
      rw [List.getElem?_set_ne (Ne.symm (hothers u op writer hne hu))]
      exact hr
  · intro u v op op' writer writer' hu₀ hv₀ hσ
    rcases getElem?_set_cases hu₀ with ⟨hu, heq⟩ | ⟨hu', hu⟩
    · rcases getElem?_set_cases hv₀ with ⟨hv, -⟩ | ⟨hv', hv⟩
      · exact hu.trans hv.symm
      · exact absurd (hσ.symm.trans (hwrite op writer heq.symm).1) (hothers v op' writer' hv' hv)
    · rcases getElem?_set_cases hv₀ with ⟨-, heq⟩ | ⟨hv', hv⟩
      · exact absurd (hσ.trans (hwrite op' writer' heq.symm).1) (hothers u op writer hu' hu)
      · exact h.alone u v op op' writer writer' hu hv hσ
  · intro τ r hr hlocked
    rcases getElem?_set_cases hr with ⟨rfl, rfl⟩ | ⟨hne, hr⟩
    · obtain ⟨op, writer, rfl⟩ := hheld hlocked
      exact ⟨t, op, writer, getElem?_set_of ht _, (hwrite op writer rfl).1⟩
    · obtain ⟨u, op, writer, hu, hσ⟩ := h.held τ r hr hlocked
      refine ⟨u, op, writer, ?_, hσ⟩
      rw [List.getElem?_set_ne]
      · exact hu
      · rintro rfl
        rw [ht] at hu
        exact hne (hσ.symm.trans (hold op writer (Option.some.inj hu)))
  · intro u key began reader hu
    rcases getElem?_set_cases hu with ⟨-, heq⟩ | ⟨-, hu⟩
    · exact absurd heq.symm (hget key began reader)
    · obtain ⟨r, hr, hbegan, hreading⟩ := h.readers u key began reader hu
      by_cases hσ : ShardedMap.shardOf key = σ
      · subst hσ
        cases Option.some.inj (hs.symm.trans hr)
        exact ⟨s', getElem?_set_of hs s', hbegan.trans hev.history.length_le,
          hreading.evolves hbegan hev⟩
      · refine ⟨r, ?_, hbegan, hreading⟩
        rw [List.getElem?_set_ne (Ne.symm hσ)]
        exact hr

end Inv

namespace Grows

theorem refl (shards : List (Shard V)) : Grows shards shards :=
  fun _ s hs => ⟨s, hs, List.prefix_refl _, List.prefix_refl _⟩

theorem set {shards : List (Shard V)} {σ : Nat} {s s' : Shard V} (hs : shards[σ]? = some s)
    (hev : s.Evolves s') : Grows shards (shards.set σ s') := by
  intro τ r hr
  by_cases hσ : τ = σ
  · subst hσ
    cases Option.some.inj (hs.symm.trans hr)
    exact ⟨s', getElem?_set_of hs s', hev.boxes, hev.history⟩
  · refine ⟨r, ?_, List.prefix_refl _, List.prefix_refl _⟩
    rw [List.getElem?_set_ne (Ne.symm hσ)]
    exact hr

end Grows

-- ---------------------------------------------------------------------------
-- The lock
-- ---------------------------------------------------------------------------

namespace Shard

variable {s : Shard V} {t : Table}

/-- Boxes are added, and nothing else that matters to the tables. -/
theorem Base.box (hs : s.Base t) (locked : Bool) (more : List (Nat × V)) :
    Base { s with locked, boxes := s.boxes ++ more } t :=
  ⟨hs.current, hs.tables, hs.old, fun c hc box hbox => (hs.owned c hc box hbox).box more, hs.listed⟩

theorem Evolves.box (s : Shard V) (locked : Bool) (more : List (Nat × V)) :
    s.Evolves { s with locked, boxes := s.boxes ++ more } :=
  ⟨List.prefix_append _ _, List.prefix_refl _, (Evolves.refl s).tables⟩

theorem Kept.lock {key : Nat} (h : s.Kept key (.unlock (.ok ()))) (op : Op V)
    (hkey : op.key = key) :
    (s.lock op).1.Kept key (s.lock op).2 ∧ s.Evolves (s.lock op).1 := by
  obtain ⟨⟨t, hs, hsettled, -⟩, haccounts⟩ := h
  have hremove : Kept { s with locked := true } key .removeTable ∧
      s.Evolves { s with locked := true } := by
    refine ⟨⟨⟨t, ⟨hs.current, hs.tables, hs.old, hs.owned, hs.listed⟩, hsettled⟩, haccounts⟩, ?_⟩
    exact ⟨List.prefix_refl _, List.prefix_refl _, (Evolves.refl s).tables⟩
  cases op with
  | get => exact hremove
  | remove => exact hremove
  | insert k value =>
    cases hkey
    refine ⟨⟨⟨t, hs.box true _, hsettled, value, ?_⟩, ?_⟩, .box s true _⟩
    · show (s.boxes ++ [(k, value)])[s.boxes.length]? = _
      rw [List.getElem?_append_right (Nat.le_refl _), Nat.sub_self]
      rfl
    · show List.Perm _ (List.range (s.boxes ++ [(k, value)]).length)
      rw [List.length_append, List.length_singleton, List.range_succ]
      refine List.perm_iff_count.mpr fun box => ?_
      have hcount := haccounts.count_eq box
      simp only [Shard.accounts, Writer.boxes, Shard.lock, List.count_append, List.count_nil]
        at hcount ⊢
      have hdropped : Shard.dropped { s with locked := true, boxes := s.boxes ++ [(k, value)] } =
          s.dropped := rfl
      have hretired : Shard.retired { s with locked := true, boxes := s.boxes ++ [(k, value)] } =
          s.retired := rfl
      rw [hdropped, hretired]
      omega

theorem Kept.unlock {key : Nat} {result : Except ShardError Unit} (h : s.Kept key (.unlock result)) :
    (∀ k, Kept { s with locked := false } k (.unlock (.ok ()))) ∧
      s.Evolves { s with locked := false } ∧ result = .ok () := by
  obtain ⟨⟨t, hs, hsettled, hok⟩, haccounts⟩ := h
  refine ⟨fun k => ⟨⟨t, ⟨hs.current, hs.tables, hs.old, hs.owned, hs.listed⟩, hsettled, rfl⟩,
    haccounts⟩, ?_, hok⟩
  exact ⟨List.prefix_refl _, List.prefix_refl _, (Evolves.refl s).tables⟩

theorem Kept.write {s' : Shard V} {key : Nat} {writer writer' : Writer} (h : s.Kept key writer)
    (hw : s.write key writer = some (s', writer')) : s'.Kept key writer' ∧ s.Evolves s' := by
  obtain ⟨hev, hsound⟩ := write_sound h.sound hw
  have hledger := write_ledger h.sound hw
  refine ⟨⟨hsound, ?_⟩, hev⟩
  rw [hledger.boxes]
  exact hledger.accounts.trans h.accounts

end Shard

-- ---------------------------------------------------------------------------
-- Steps of the map
-- ---------------------------------------------------------------------------

namespace ShardedMap

variable {m m' : ShardedMap V} {a : Action V}

/-- How a call comes to be logged. -/
def Returns (m : ShardedMap V) (a : Action V) : Call V → Prop
  | .got key began ended value movedOut => ∃ t reader s, a = .advance t ∧
    m.threads[t]? = some (.get key began reader) ∧ m.shard? key = some s ∧
    ended = s.history.length ∧ s.read key reader = some (.inr (value, movedOut))
  | .wrote .. => True

theorem stepThread_write (t : Nat) (op : Op V) {writer : Writer}
    (h : ∀ result, writer ≠ .unlock result) :
    m.stepThread t (.write op writer) = do
      let s ← m.shard? op.key
      let (s', writer') ← s.write op.key writer
      return { (m.setShard op.key s').move t (.write op writer') with
        len := count m.len writer } := by
  cases writer with
  | unlock result => exact absurd rfl (h result)
  | _ => rfl

theorem begin_spec {op : Op V} {phase : Phase V} (h : m.begin? op = some phase) :
    (∃ s, m.shard? op.key = some s ∧ phase = .get op.key s.history.length .table) ∨
      phase = .lock op := by
  cases op with
  | get key =>
    obtain ⟨s, hs, h⟩ := Option.bind_eq_some_iff.mp h
    exact .inl ⟨s, hs, (Option.some.inj h).symm⟩
  | insert key value => exact .inr (Option.some.inj h).symm
  | remove key => exact .inr (Option.some.inj h).symm

/-- What a step does: the invariant holds after it, boxes and histories grow,
and at most one call is logged. -/
structure Stepped (m : ShardedMap V) (a : Action V) (m' : ShardedMap V) : Prop where
  inv : Inv m'.shards m'.threads
  grows : Grows m.shards m'.shards
  calls : m'.calls = m.calls ∨ ∃ call, m'.calls = m.calls ++ [call] ∧ m.Returns a call

variable {t : Nat}

theorem begin_stepped {op : Op V} {phase : Phase V} (h : Inv m.shards m.threads)
    (ht : m.threads[t]? = some .idle) (hphase : m.begin? op = some phase) :
    Stepped m a (m.move t phase) := by
  refine ⟨?_, .refl _, .inl rfl⟩
  rcases begin_spec hphase with ⟨s, hs, rfl⟩ | rfl
  · refine h.move ht nofun nofun ?_
    rintro _ _ _ ⟨⟩
    exact ⟨s, hs, Nat.le_refl _, trivial⟩
  · exact h.move ht nofun nofun nofun

theorem get_stepped {key began : Nat} {reader : Reader} (h : Inv m.shards m.threads)
    (ht : m.threads[t]? = some (.get key began reader))
    (hstep : m.stepThread t (.get key began reader) = some m') :
    Stepped m (.advance t) m' := by
  obtain ⟨s, hs, hstep⟩ := Option.bind_eq_some_iff.mp hstep
  obtain ⟨result, hread, hstep⟩ := Option.bind_eq_some_iff.mp hstep
  obtain ⟨r, hr, hbegan, hreading⟩ := h.readers t key began reader ht
  cases Option.some.inj (hs.symm.trans hr)
  obtain ⟨_, _, ⟨u, hbase, -⟩, -⟩ := h.kept _ s hs
  have hok := Shard.read_ok hbase hreading hbegan hread
  cases result with
  | inl reader' =>
    cases hstep
    refine ⟨h.move ht nofun nofun ?_, .refl _, .inl rfl⟩
    rintro _ _ _ ⟨⟩
    exact ⟨s, hs, hbegan, hok⟩
  | inr answer =>
    cases hstep
    refine ⟨h.move ht nofun nofun nofun, .refl _, .inr ⟨_, rfl, ?_⟩⟩
    exact ⟨t, reader, s, rfl, ht, hs, rfl, hread⟩

/-- The try-lock fails, or the writer starts on a shard that nobody holds. -/
theorem lock_stepped {op : Op V} (h : Inv m.shards m.threads)
    (ht : m.threads[t]? = some (.lock op)) (hstep : m.stepThread t (.lock op) = some m') :
    Stepped m (.advance t) m' := by
  obtain ⟨s, hs, hstep⟩ := Option.bind_eq_some_iff.mp hstep
  split at hstep
  · cases hstep
    exact ⟨h.move ht nofun nofun nofun, .refl _, .inr ⟨_, rfl, trivial⟩⟩
  · next hlocked =>
    rw [Bool.not_eq_true] at hlocked
    cases hstep
    obtain ⟨hkept, hev⟩ := (h.rest _ s hs hlocked op.key).lock op rfl
    have htaken : (s.lock op).1.locked = true := by cases op <;> rfl
    refine ⟨h.write hs hev ht nofun ?_ ⟨_, _, hkept⟩ ?_ ?_ nofun fun _ => ⟨_, _, rfl⟩, .set hs hev,
      .inl rfl⟩
    · intro u op' writer _ hu hσ
      obtain ⟨r, hr, hrlocked, -⟩ := h.writers u op' writer hu
      rw [hσ] at hr
      cases Option.some.inj (hs.symm.trans hr)
      rw [hlocked] at hrlocked
      cases hrlocked
    · intro hfree
      rw [htaken] at hfree
      cases hfree
    · rintro _ _ ⟨⟩
      exact ⟨rfl, htaken, hkept⟩

/-- The holder of the lock takes its next access, or gives the lock back. -/
theorem write_stepped {op : Op V} {writer : Writer} (h : Inv m.shards m.threads)
    (ht : m.threads[t]? = some (.write op writer))
    (hstep : m.stepThread t (.write op writer) = some m') : Stepped m (.advance t) m' := by
  have hothers : ∀ (u : Nat) (op' : Op V) (writer' : Writer), u ≠ t →
      m.threads[u]? = some (.write op' writer') → shardOf op'.key ≠ shardOf op.key :=
    fun u op' writer' hne hu hσ => hne (h.alone u t op' op writer' writer hu ht hσ)
  have hold : ∀ op' writer', Phase.write op writer = .write op' writer' →
      shardOf op'.key = shardOf op.key := by
    rintro _ _ ⟨⟩
    rfl
  obtain ⟨s, hs, hlocked, hkept⟩ := h.writers t op writer ht
  by_cases hunlock : ∃ result, writer = .unlock result
  · obtain ⟨result, rfl⟩ := hunlock
    obtain ⟨r, hr, hstep⟩ := Option.bind_eq_some_iff.mp hstep
    cases Option.some.inj (hs.symm.trans hr)
    cases hstep
    obtain ⟨hrest, hev, -⟩ := hkept.unlock
    refine ⟨h.write hs hev ht hold hothers ⟨op.key, _, hrest op.key⟩ (fun _ => hrest) nofun nofun
      nofun, .set hs hev, .inr ⟨_, rfl, trivial⟩⟩
  · rw [stepThread_write t op fun result heq => hunlock ⟨result, heq⟩] at hstep
    obtain ⟨r, hr, hstep⟩ := Option.bind_eq_some_iff.mp hstep
    cases Option.some.inj (hs.symm.trans hr)
    obtain ⟨⟨s', writer'⟩, hw, hstep⟩ := Option.bind_eq_some_iff.mp hstep
    cases hstep
    obtain ⟨hkept', hev⟩ := hkept.write hw
    have htaken := (Shard.write_ledger hkept.sound hw).locked.trans hlocked
    refine ⟨h.write hs hev ht hold hothers ⟨_, _, hkept'⟩ ?_ ?_ nofun fun _ => ⟨_, _, rfl⟩,
      .set hs hev, .inl rfl⟩
    · intro hfree
      rw [htaken] at hfree
      cases hfree
    · rintro _ _ ⟨⟩
      exact ⟨rfl, htaken, hkept'⟩

theorem step_spec (h : Inv m.shards m.threads) (hstep : m.step a = some m') : Stepped m a m' := by
  cases a with
  | call t op =>
    simp only [step] at hstep
    split at hstep
    next ht =>
      obtain ⟨phase, hphase, hstep⟩ := Option.bind_eq_some_iff.mp hstep
      cases hstep
      exact begin_stepped h ht hphase
    · cases hstep
  | advance t =>
    obtain ⟨phase, ht, hstep⟩ := Option.bind_eq_some_iff.mp hstep
    cases phase with
    | idle => cases hstep
    | get key began reader => exact get_stepped h ht hstep
    | lock op => exact lock_stepped h ht hstep
    | write op writer => exact write_stepped h ht hstep

theorem new_eq {capacity threads : Nat} (h : new capacity threads = .ok m) :
    ∃ table, Table.new capacity = .ok table ∧ m = {
      shards := List.replicate SHARD_COUNT ⟨0, false, [table], [], []⟩
      len := 0
      threads := List.replicate threads .idle
      calls := [] } := by
  unfold new at h
  split at h
  · cases h
  cases hnew : Table.new capacity with
  | error e =>
    rw [hnew] at h
    cases h
  | ok table =>
    rw [hnew] at h
    exact ⟨table, rfl, (Except.ok.inj h).symm⟩

theorem new_spec {capacity threads : Nat} (h : new capacity threads = .ok m) :
    Inv m.shards m.threads ∧ m.calls = [] := by
  obtain ⟨table, htable, rfl⟩ := new_eq h
  obtain ⟨hok, hslots, -⟩ := Table.new_ok htable
  have hempty : ∀ c ∈ table.slots, c = ⟨.empty, 0, none, false⟩ := by
    rw [hslots]
    exact fun c hc => List.eq_of_mem_replicate hc
  have hkept : ∀ key, Shard.Kept (⟨0, false, [table], [], []⟩ : Shard V) key (.unlock (.ok ())) := by
    intro key
    refine ⟨⟨table, ⟨rfl, ?_, ?_, ?_, fun key hkey => absurd rfl hkey⟩, ?_, rfl⟩, ?_⟩
    · intro T u hu
      cases List.mem_singleton.mp (List.mem_of_getElem? hu)
      exact hok
    · intro T u hu hne
      cases T with
      | zero => exact absurd rfl hne
      | succ T => cases hu
    · intro c hc box hbox
      rw [hempty c hc] at hbox
      cases hbox
    · intro c hc
      rw [hempty c hc]
      exact ⟨(fun h => by cases h), rfl, ⟨(fun h => by cases h), fun hvalue => absurd rfl hvalue⟩⟩
    · have hboxes : table.slots.filterMap (·.value) = [] := by
        rw [List.filterMap_eq_nil_iff]
        intro c hc
        rw [hempty c hc]
      have hdropped : Shard.dropped (⟨0, false, [table], [], []⟩ : Shard V) = [] := by
        rw [Shard.dropped, List.flatMap_singleton, hboxes]
      rw [Shard.accounts, hdropped]
      exact .refl _
  have hidle : ∀ (t : Nat) (phase : Phase V), (List.replicate threads Phase.idle)[t]? = some phase →
      phase = .idle := fun t phase ht => List.eq_of_mem_replicate (List.mem_of_getElem? ht)
  have hshard : ∀ (σ : Nat) (s : Shard V),
      (List.replicate SHARD_COUNT (⟨0, false, [table], [], []⟩ : Shard V))[σ]? = some s →
      s = ⟨0, false, [table], [], []⟩ :=
    fun σ s hs => List.eq_of_mem_replicate (List.mem_of_getElem? hs)
  refine ⟨⟨List.length_replicate, ?_, ?_, ?_, ?_, ?_, ?_⟩, rfl⟩
  · intro σ s hs
    rw [hshard σ s hs]
    exact ⟨0, _, hkept 0⟩
  · intro σ s hs _
    rw [hshard σ s hs]
    exact hkept
  · intro t op writer ht
    cases hidle t _ ht
  · intro t u op op' writer writer' ht
    cases hidle t _ ht
  · intro σ s hs hlocked
    rw [hshard σ s hs] at hlocked
    cases hlocked
  · intro t key began reader ht
    cases hidle t _ ht

/-- What holds of each call as it returns holds of all. -/
theorem calls_of_reachable {capacity threads : Nat} {start : ShardedMap V}
    {ok : ShardedMap V → Action V → Prop} {P : List (Shard V) → Call V → Prop}
    (hnew : new capacity threads = .ok start) (h : Reachable step ok start m)
    (hgrows : ∀ shards shards' call, Grows shards shards' → P shards call → P shards' call)
    (hreturns : ∀ m a call, Inv m.shards m.threads → ok m a → m.Returns a call →
      P m.shards call) : ∀ call ∈ m.calls, P m.shards call := by
  obtain ⟨hinv, hempty⟩ := new_spec hnew
  have hboth : Inv m.shards m.threads ∧ ∀ call ∈ m.calls, P m.shards call := by
    induction h with
    | start =>
      rw [hempty]
      exact ⟨hinv, nofun⟩
    | step _ hok hstep ih =>
      obtain ⟨hinv, hcalls⟩ := ih
      obtain ⟨hinv', hgrown, hcases⟩ := step_spec hinv hstep
      have hold := fun call hcall => hgrows _ _ call hgrown (hcalls call hcall)
      refine ⟨hinv', ?_⟩
      rcases hcases with heq | ⟨last, heq, hlast⟩
      · rw [heq]
        exact hold
      · rw [heq]
        intro call hcall
        rcases List.mem_append.mp hcall with hcall | hcall
        · exact hold call hcall
        · rw [List.mem_singleton.mp hcall]
          exact hgrows _ _ last hgrown (hreturns _ _ last hinv hok hlast)
  exact hboth.2

end ShardedMap

/-- A map of Nat values with two threads and tables of eight slots. -/
def pair : ShardedMap Nat where
  shards := List.replicate SHARD_COUNT
    ⟨0, false, [⟨List.replicate 8 ⟨.empty, 0, none, false⟩, 7⟩], [], []⟩
  len := 0
  threads := [.idle, .idle]
  calls := []

def advance (t n : Nat) : List (Action Nat) := List.replicate n (.advance t)

theorem new_pair : ShardedMap.new 8 2 = .ok pair := rfl

-- ---------------------------------------------------------------------------
-- A miss
-- ---------------------------------------------------------------------------

/-- The key of a `get` that returned nothing was absent at some moment of the
call, or a resize had moved out the entry of its key that the call loaded. -/
def AbsentOrMoved (shards : List (Shard V)) : Call V → Prop
  | .got key began ended none movedOut => movedOut = true ∨
    ∃ s, shards[ShardedMap.shardOf key]? = some s ∧ ended ≤ s.history.length ∧
      ∃ moment, began ≤ moment ∧ moment ≤ ended ∧ latest key (s.history.take moment) = none
  | _ => True

theorem AbsentOrMoved.grows {shards shards' : List (Shard V)} {call : Call V}
    (hgrows : Grows shards shards') (h : AbsentOrMoved shards call) :
    AbsentOrMoved shards' call := by
  cases call with
  | wrote => trivial
  | got key began ended value movedOut =>
    cases value with
    | some => trivial
    | none =>
      refine h.imp_right ?_
      rintro ⟨s, hs, hended, moment, hbegan, hmoment, hnone⟩
      obtain ⟨s', hs', -, hhistory⟩ := hgrows _ s hs
      refine ⟨s', hs', hended.trans hhistory.length_le, moment, hbegan, hmoment, ?_⟩
      rw [Shard.take_grown hhistory (hmoment.trans hended), hnone]

theorem ShardedMap.get_none_absent_or_moved {capacity threads : Nat} {start m : ShardedMap V}
    (hnew : new capacity threads = .ok start)
    (h : Reachable step (fun _ _ => True) start m) :
    ∀ call ∈ m.calls, AbsentOrMoved m.shards call := by
  refine calls_of_reachable hnew h (fun _ _ _ => AbsentOrMoved.grows) ?_
  intro m a call hinv _ hreturns
  cases call with
  | wrote => trivial
  | got key began ended value movedOut =>
    cases value with
    | some => trivial
    | none =>
      obtain ⟨t, reader, s, -, ht, hs, rfl, hread⟩ := hreturns
      obtain ⟨r, hr, hbegan, hreading⟩ := hinv.readers t key began reader ht
      cases Option.some.inj (hs.symm.trans hr)
      obtain ⟨_, _, ⟨u, hbase, -⟩, -⟩ := hinv.kept _ s hs
      have hok := Shard.read_ok hbase hreading hbegan hread rfl
      exact hok.imp_right fun hmissed => ⟨s, hs, Nat.le_refl _, hmissed⟩

theorem ShardedMap.get_none_absent_or_moved_absent : ∃ m : ShardedMap Nat,
    .got 64 2 2 none false ∈ m.calls ∧ ∀ call ∈ m.calls, AbsentOrMoved m.shards call := by
  have hfacts : (run step pair
      (.call 1 (.insert 0 1) :: advance 1 10 ++ .call 0 (.get 64) :: advance 0 4)).map
        (·.calls.getLast?) = some (some (.got 64 2 2 none false)) := rfl
  obtain ⟨m, hrun, hlast⟩ := Option.map_eq_some_iff.mp hfacts
  exact ⟨m, List.mem_of_getLast? hlast,
    get_none_absent_or_moved new_pair (reachable_of_run (fun _ _ => trivial) .start hrun)⟩

/-- Eight entries fill a table, and the ninth makes a resize move the first one out. -/
def fill : List (Action Nat) :=
  (List.range 8).flatMap (fun j => .call 1 (.insert (64 * j) j) :: advance 1 (10 + 2 * j)) ++
    .call 1 (.insert 512 8) :: advance 1 21 ++ .call 0 (.get 0) :: advance 0 4

theorem ShardedMap.resized_entry_missed :
    ∃ m, Reachable step (fun _ _ => True) pair m ∧
      ∃ key began ended movedOut s, Call.got key began ended none movedOut ∈ m.calls ∧
        m.shard? key = some s ∧
        ∀ moment, began ≤ moment → moment ≤ ended → latest key (s.history.take moment) ≠ none := by
  have hfacts : (run step pair fill).map (fun m => (m.calls.getLast?,
      (m.shards[shardOf 0]?).map fun s => latest 0 (s.history.take 16))) =
        some (some (.got 0 16 16 none true), some (some 0)) := by decide +kernel
  obtain ⟨m, hrun, hm⟩ := Option.map_eq_some_iff.mp hfacts
  obtain ⟨hlast, hlatest⟩ := Prod.mk.inj hm
  obtain ⟨s, hs, hbox⟩ := Option.map_eq_some_iff.mp hlatest
  refine ⟨m, reachable_of_run (fun _ _ => trivial) .start hrun, 0, 16, 16, true, s,
    List.mem_of_getLast? hlast, hs, fun moment hbegan hended => ?_⟩
  cases Nat.le_antisymm hended hbegan
  rw [hbox]
  nofun

-- ---------------------------------------------------------------------------
-- A value
-- ---------------------------------------------------------------------------

namespace ShardedMap

/-- A `get` is about to load a value from a slot that by now has another key. -/
def stale (m : ShardedMap V) : Action V → Bool
  | .call .. => false
  | .advance t => match m.threads[t]? with
    | some (.get key _ (.value table i _)) =>
      match (m.shard? key).bind fun s => s.access table i fun _ c => c with
      | some c => c.value.isSome && c.key != key
      | none => false
    | _ => false

end ShardedMap

/-- The value was inserted for the key, and not yet removed or overwritten when
the call began. -/
def OwnValue (shards : List (Shard V)) : Call V → Prop
  | .got key began ended (some value) _ => ∃ s box, shards[ShardedMap.shardOf key]? = some s ∧
    began ≤ ended ∧ ended ≤ s.history.length ∧ s.boxes[box]? = some (key, value) ∧
    .stored box ∈ s.history.take ended ∧ .retired box ∉ s.history.take began
  | _ => True

theorem OwnValue.grows {shards shards' : List (Shard V)} {call : Call V}
    (hgrows : Grows shards shards') (h : OwnValue shards call) : OwnValue shards' call := by
  cases call with
  | wrote => trivial
  | got key began ended value movedOut =>
    cases value with
    | none => trivial
    | some value =>
      obtain ⟨s, box, hs, hbegan, hended, hbox, hstored, hretired⟩ := h
      obtain ⟨s', hs', ⟨more, hboxes⟩, hhistory⟩ := hgrows _ s hs
      refine ⟨s', box, hs', hbegan, hended.trans hhistory.length_le, ?_, ?_, ?_⟩
      · rw [← hboxes, List.getElem?_append_left (List.getElem?_eq_some_iff.mp hbox).1, hbox]
      · rwa [Shard.take_grown hhistory hended]
      · rwa [Shard.take_grown hhistory (hbegan.trans hended)]

/-- A box that a slot has is not retired. -/
theorem Shard.Kept.not_retired {s : Shard V} {key table i box : Nat} {writer : Writer} {t : Table}
    {c : Slot} (h : s.Kept key writer) (ht : s.tables[table]? = some t)
    (hc : t.slots[i]? = some c) (hbox : c.value = some box) : .retired box ∉ s.history := by
  intro hretired
  have hnodup := h.accounts.nodup_iff.mpr List.nodup_range
  have hslot : box ∈ s.dropped := by
    refine List.mem_flatMap.mpr ⟨t, List.mem_of_getElem? ht, ?_⟩
    exact List.mem_filterMap.mpr ⟨c, List.mem_of_getElem? hc, hbox⟩
  have hgone : box ∈ s.retired := List.mem_filterMap.mpr ⟨.retired box, hretired, rfl⟩
  exact List.disjoint_of_nodup_append hnodup hslot (List.mem_append_right _ hgone)

theorem Table.getNext_end {t : Table} {table i n : Nat} {value : Option V} {movedOut : Bool}
    (h : t.getNext table i n = .inr (value, movedOut)) : value = none ∧ movedOut = false := by
  unfold getNext at h
  split at h
  · cases h
  · cases h
    exact ⟨rfl, rfl⟩

/-- A `get` that returns has come to the end of its probe, or has loaded a value pointer. -/
theorem Shard.read_end {s : Shard V} {key : Nat} {reader : Reader} {value : Option V}
    {movedOut : Bool} (hread : s.read key reader = some (.inr (value, movedOut))) :
    (value = none ∧ movedOut = false) ∨
    ∃ table i n c, reader = .value table i n ∧ s.access table i (fun _ c => c) = some c ∧
      ((c.value = none ∧ value = none ∧ movedOut = (c.moved && c.key == key)) ∨
        ∃ box k v, c.value = some box ∧ s.boxes[box]? = some (k, v) ∧ value = some v) := by
  cases reader with
  | table =>
    obtain ⟨u, -, hread⟩ := Option.bind_eq_some_iff.mp hread
    cases hread
  | state table i n =>
    obtain ⟨u, c, -, -, hread⟩ := access_eq_some.mp hread
    left
    cases hst : c.state with
    | empty =>
      rw [hst] at hread
      cases hread
      exact ⟨rfl, rfl⟩
    | full =>
      rw [hst] at hread
      cases hread
    | reserved | tombstone =>
      rw [hst] at hread
      exact Table.getNext_end hread
  | key table i n =>
    obtain ⟨u, c, -, -, hread⟩ := access_eq_some.mp hread
    left
    split at hread
    · cases hread
    · exact Table.getNext_end hread
  | value table i n =>
    obtain ⟨c, hc, hread⟩ := Option.bind_eq_some_iff.mp hread
    refine .inr ⟨table, i, n, c, rfl, hc, ?_⟩
    cases hvalue : c.value with
    | none =>
      rw [hvalue] at hread
      cases hread
      exact .inl ⟨rfl, rfl, rfl⟩
    | some box =>
      rw [hvalue] at hread
      obtain ⟨⟨k, v⟩, hbox, hread⟩ := Option.bind_eq_some_iff.mp hread
      cases hread
      exact .inr ⟨box, k, v, rfl, hbox, rfl⟩

/-- What a `get` that returns a value has loaded. -/
theorem Shard.Kept.read_value {s : Shard V} {key k : Nat} {writer : Writer} {reader : Reader}
    {value : V} {movedOut : Bool} (h : s.Kept k writer)
    (hread : s.read key reader = some (.inr (some value, movedOut))) :
    ∃ table i n c box, reader = .value table i n ∧ s.access table i (fun _ c => c) = some c ∧
      c.value = some box ∧ s.boxes[box]? = some (c.key, value) ∧ .stored box ∈ s.history ∧
      .retired box ∉ s.history := by
  rcases read_end hread with ⟨hnone, -⟩ | ⟨table, i, n, c, rfl, hc, hcases⟩
  · cases hnone
  rcases hcases with ⟨-, hnone, -⟩ | ⟨box, k', v, hvalue, hbox, hv⟩
  · cases hnone
  cases hv
  obtain ⟨u, _, hu, hslot, rfl⟩ := access_eq_some.mp hc
  obtain ⟨t, hs, -⟩ := h.sound
  have hmem := List.mem_of_getElem? hslot
  -- Only the current table has values.
  have hcurrent : table = s.table := by
    by_contra hne
    rw [hs.old table u hu hne _ hmem] at hvalue
    cases hvalue
  subst hcurrent
  cases Option.some.inj (hs.current.symm.trans hu)
  have howned := hs.owned _ hmem box hvalue
  obtain ⟨v', hv'⟩ := howned.key
  rw [hbox] at hv'
  cases hv'
  exact ⟨s.table, i, n, _, box, rfl, hc, hvalue, hbox, howned.stored,
    h.not_retired hs.current hslot hvalue⟩

theorem ShardedMap.get_own_value {capacity threads : Nat} {start m : ShardedMap V}
    (hnew : new capacity threads = .ok start)
    (h : Reachable step (fun m a => m.stale a = false) start m) :
    ∀ call ∈ m.calls, OwnValue m.shards call := by
  refine calls_of_reachable hnew h (fun _ _ _ => OwnValue.grows) ?_
  intro m a call hinv hfresh hreturns
  cases call with
  | wrote => trivial
  | got key began ended value movedOut =>
    cases value with
    | none => trivial
    | some value =>
      obtain ⟨t, reader, s, rfl, ht, hs, rfl, hread⟩ := hreturns
      obtain ⟨r, hr, hbegan, -⟩ := hinv.readers t key began reader ht
      cases Option.some.inj (hs.symm.trans hr)
      obtain ⟨_, _, hkept⟩ := hinv.kept _ s hs
      obtain ⟨table, i, n, c, box, rfl, hc, hvalue, hbox, hstored, hretired⟩ :=
        hkept.read_value hread
      have hkey : c.key = key := by
        rw [stale, ht] at hfresh
        simp only [hs, Option.bind_some, hc, hvalue] at hfresh
        simpa using hfresh
      rw [hkey] at hbox
      refine ⟨s, box, hs, hbegan, Nat.le_refl _, hbox, ?_, ?_⟩
      · rwa [List.take_length]
      · exact fun hmem => hretired (List.mem_of_mem_take hmem)

/-- A value that was inserted is found. -/
theorem ShardedMap.get_own_value_found : ∃ m : ShardedMap Nat,
    .got 0 2 2 (some 1) false ∈ m.calls ∧ ∀ call ∈ m.calls, OwnValue m.shards call := by
  have hfacts : (runMeeting step (fun m a => m.stale a = false) pair
      (.call 1 (.insert 0 1) :: advance 1 10 ++ .call 0 (.get 0) :: advance 0 4)).map
        (·.calls.getLast?) = some (some (.got 0 2 2 (some 1) false)) := rfl
  obtain ⟨m, hrun, hlast⟩ := Option.map_eq_some_iff.mp hfacts
  exact ⟨m, List.mem_of_getLast? hlast, get_own_value new_pair (reachable_of_runMeeting .start hrun)⟩

/-- A `get` finds its key; the slot is removed and taken again; the `get` loads. -/
def reuse : List (Action Nat) :=
  .call 1 (.insert 0 1) :: advance 1 10 ++ .call 0 (.get 0) :: advance 0 3 ++
    .call 1 (.remove 0) :: advance 1 8 ++ .call 1 (.insert 64 2) :: advance 1 8 ++ advance 0 1

theorem ShardedMap.reused_slot_other_value :
    ∃ m, Reachable step (fun _ _ => True) pair m ∧ ∃ call ∈ m.calls, ¬ OwnValue m.shards call := by
  have hfacts : (run step pair reuse).map
      (fun m => (m.calls.getLast?, (m.shards[shardOf 0]?).map (·.boxes))) =
        some (some (.got 0 2 5 (some 2) false), some [(0, 1), (64, 2)]) := rfl
  obtain ⟨m, hrun, hm⟩ := Option.map_eq_some_iff.mp hfacts
  obtain ⟨hlast, hboxes⟩ := Prod.mk.inj hm
  refine ⟨m, reachable_of_run (fun _ _ => trivial) .start hrun, _, List.mem_of_getLast? hlast, ?_⟩
  rintro ⟨s, box, hs, -, -, hbox, -⟩
  rw [hs] at hboxes
  have hmem : (0, 2) ∈ [(0, 1), (64, 2)] := Option.some.inj hboxes ▸ List.mem_of_getElem? hbox
  revert hmem
  decide

end Sharded

end Sxla
