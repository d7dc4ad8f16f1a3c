import Sxla.Runtime.Interp

/-!
# Streams

A stream runs programs one after the other and hands out events between them.
An event is the number of the record that made it and of the launches before
it, each in 32 bits. A launch that fails is not counted.
-/

namespace Sxla

inductive StreamError where
  | unknownEvent
  | exec (e : Stop)
deriving DecidableEq, Repr

structure StreamEvent where
  id : UInt32
  afterLaunch : UInt32
deriving DecidableEq, Repr

structure CpuStream where
  launches : UInt32
  events : List StreamEvent
deriving DecidableEq, Repr

namespace CpuStream

def new : CpuStream := ⟨0, []⟩

/-- A program that panics unwinds through here and leaves the stream as it was. -/
def launch (libm : Libm) (s : CpuStream) (program : TargetProgram) (args : List Value) :
    Except StreamError (List Value) × CpuStream :=
  match execute libm program args with
  | .error e => (.error (.exec e), s)
  | .ok out => (.ok out, { s with launches := s.launches + 1 })

def record (s : CpuStream) : StreamEvent × CpuStream :=
  let ev : StreamEvent := ⟨.ofNat s.events.length, s.launches⟩
  (ev, { s with events := s.events ++ [ev] })

def waitFor (s : CpuStream) (ev : StreamEvent) : Except StreamError Unit :=
  if s.events[ev.id.toNat]? = some ev then .ok () else .error .unknownEvent

-- ---------------------------------------------------------------------------
-- Runs
-- ---------------------------------------------------------------------------

inductive Command where
  | launch (program : TargetProgram) (args : List Value)
  | record

def step (libm : Libm) (s : CpuStream) : Command → CpuStream
  | .launch program args => (s.launch libm program args).2
  | .record => s.record.2

def run (libm : Libm) (cmds : List Command) : CpuStream := cmds.foldl (step libm) new

def Command.isRecord : Command → Bool
  | .record => true
  | .launch .. => false

/-- A launch whose program executes. -/
def Command.succeeds (libm : Libm) : Command → Bool
  | .record => false
  | .launch program args => (execute libm program args).toOption.isSome

def records (cmds : List Command) : Nat := cmds.countP Command.isRecord

def launched (libm : Libm) (cmds : List Command) : Nat := cmds.countP (Command.succeeds libm)

variable {libm : Libm} {cmds : List Command} {cmd : Command} {s : CpuStream} {ev : StreamEvent}

theorem run_concat : run libm (cmds ++ [cmd]) = step libm (run libm cmds) cmd := by
  rw [run, List.foldl_append]
  rfl

/-- The counter has the launches that succeeded, and the table an entry for
each record. -/
theorem run_counts : (run libm cmds).launches = .ofNat (launched libm cmds) ∧
    (run libm cmds).events.length = records cmds := by
  induction cmds using List.reverseRecOn with
  | nil => exact ⟨rfl, rfl⟩
  | append_singleton cmds cmd ih =>
    obtain ⟨hlaunches, hevents⟩ := ih
    rw [run_concat, launched, records, List.countP_append, List.countP_append]
    cases cmd with
    | launch program args =>
      rw [step, launch]
      cases hx : execute libm program args with
      | error e =>
        have hfails : Command.succeeds libm (.launch program args) = false := by
          rw [Command.succeeds, hx]
          rfl
        rw [List.countP_singleton, List.countP_singleton, hfails]
        exact ⟨hlaunches, hevents⟩
      | ok out =>
        have hok : Command.succeeds libm (.launch program args) = true := by
          rw [Command.succeeds, hx]
          rfl
        rw [List.countP_singleton, List.countP_singleton, hok]
        refine ⟨?_, hevents⟩
        change (run libm cmds).launches + 1 = _
        rw [hlaunches, launched, if_pos rfl, UInt32.ofNat_add]
        rfl
    | record =>
      rw [List.countP_singleton, List.countP_singleton]
      refine ⟨hlaunches, ?_⟩
      change ((run libm cmds).events ++ [_]).length = _
      rw [List.length_append, hevents]
      rfl

/-- An entry of the table is what the record of its number handed out. -/
theorem getElem?_events {i : Nat} : (run libm cmds).events[i]? = some ev ↔
    ∃ before after, cmds = before ++ .record :: after ∧ records before = i ∧
      (run libm before).record.1 = ev := by
  induction cmds using List.reverseRecOn with
  | nil =>
    constructor
    · intro h
      cases h
    · rintro ⟨before, after, hnil, -⟩
      cases before <;> cases hnil
  | append_singleton cmds cmd ih =>
    -- a split of the longer run is one of the shorter, or ends in its record
    have hsplit : (∃ before after, cmds ++ [cmd] = before ++ .record :: after ∧
        records before = i ∧ (run libm before).record.1 = ev) ↔
        (run libm cmds).events[i]? = some ev ∨
          cmd = .record ∧ records cmds = i ∧ (run libm cmds).record.1 = ev := by
      rw [ih]
      constructor
      · rintro ⟨before, after, heq, hi, hev⟩
        induction after using List.reverseRecOn with
        | nil =>
          obtain ⟨rfl, hcmd⟩ := List.append_inj' heq rfl
          exact .inr ⟨List.head_eq_of_cons_eq hcmd, hi, hev⟩
        | append_singleton after last _ =>
          rw [← List.cons_append, ← List.append_assoc] at heq
          obtain ⟨heq, -⟩ := List.append_inj' heq rfl
          exact .inl ⟨before, after, heq, hi, hev⟩
      · rintro (⟨before, after, rfl, hi, hev⟩ | ⟨rfl, hi, hev⟩)
        · exact ⟨before, after ++ [cmd], by simp, hi, hev⟩
        · exact ⟨cmds, [], rfl, hi, hev⟩
    rw [hsplit, run_concat]
    cases cmd with
    | launch program args =>
      have hsame : (step libm (run libm cmds) (.launch program args)).events =
          (run libm cmds).events := by
        rw [step, launch]
        cases execute libm program args <;> rfl
      rw [hsame]
      constructor
      · exact .inl
      · rintro (h | ⟨h, -⟩)
        · exact h
        · cases h
    | record =>
      change ((run libm cmds).events ++ [(run libm cmds).record.1])[i]? = _ ↔ _
      rw [List.getElem?_append, run_counts.2]
      split
      · next hlt =>
        constructor
        · exact .inl
        · rintro (h | ⟨-, rfl, -⟩)
          · exact h
          · exact absurd hlt (Nat.lt_irrefl _)
      · next hge =>
        have hnone : (run libm cmds).events[i]? = none :=
          List.getElem?_eq_none (run_counts.2 ▸ Nat.le_of_not_lt hge)
        rw [hnone]
        constructor
        · intro h
          obtain ⟨hzero, hev⟩ := List.getElem?_eq_some_iff.mp h
          rw [List.length_singleton] at hzero
          refine .inr ⟨rfl, by omega, ?_⟩
          rwa [List.getElem_singleton] at hev
        · rintro (h | ⟨-, rfl, hev⟩)
          · cases h
          · rw [Nat.sub_self, ← hev]
            rfl

/-- An event is accepted exactly when one of the first `2 ^ 32` records of the
run has handed it out; it fences the launches that had succeeded by then. -/
theorem waitFor_iff : (run libm cmds).waitFor ev = .ok () ↔
    ∃ before after, cmds = before ++ .record :: after ∧ records before < 2 ^ 32 ∧
      (run libm before).record.1 = ev ∧ ev.afterLaunch = .ofNat (launched libm before) := by
  have hok : (run libm cmds).waitFor ev = .ok () ↔
      (run libm cmds).events[ev.id.toNat]? = some ev := by
    rw [waitFor]
    split
    · next h => exact ⟨fun _ => h, fun _ => rfl⟩
    · next h => exact ⟨fun herr => (by cases herr), fun hev => absurd hev h⟩
  rw [hok, getElem?_events]
  constructor
  · rintro ⟨before, after, hcmds, hi, hev⟩
    refine ⟨before, after, hcmds, hi ▸ ev.id.toNat_lt, hev, ?_⟩
    rw [← hev, ← run_counts.1]
    rfl
  · rintro ⟨before, after, hcmds, hlt, hev, -⟩
    refine ⟨before, after, hcmds, ?_, hev⟩
    rw [← hev]
    change _ = (UInt32.ofNat (run libm before).events.length).toNat
    rw [run_counts.2, UInt32.toNat_ofNat_of_lt' hlt]

end CpuStream

end Sxla
