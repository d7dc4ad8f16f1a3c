import Sxla.Anvil.Spsc
import Sxla.Jit.CacheKey

/-!
# The boundary of the compiler

Two rings between two threads. The execution thread pushes requests and pops
responses, the worker pops requests and pushes responses. A thread is in one
call at a time, and one step is one access of a call.

What the worker answers stays open: a `serve` that gives each request its
response. Such a worker answers what it has popped before it pops again.
-/

namespace Sxla

open Transition
open Jit (Tier)

-- ---------------------------------------------------------------------------
-- A call of a ring
-- ---------------------------------------------------------------------------

namespace Spsc

variable {α : Type}

/-- The value of the push that is under way. -/
def Pushing.value : Pushing α → Option α
  | .idle => none
  | .loadHead value _ | .write value _ | .publish value _ => some value

/-- The consumer is in no batch. -/
def Popping.Single : Popping α → Prop
  | .batchHead .. | .batch .. => False
  | _ => True

namespace State

variable {s s' : State α}

/-- A step of a push ends the call or keeps its value, and accepts that value
at most. -/
theorem stepProducer_cases (h : s.stepProducer = some s') :
    s'.returned = s.returned ∧ s'.popping = s.popping ∧ ∃ v, s.pushing.value = some v ∧
      ((s'.accepted = s.accepted ∧ (s'.pushing = .idle ∨ s'.pushing.value = some v)) ∨
        (s'.accepted = s.accepted ++ [v] ∧ s'.pushing = .idle)) := by
  unfold stepProducer at h
  cases hp : s.pushing with
  | idle =>
    simp only [hp] at h
    cases h
  | loadHead v t =>
    simp only [hp] at h
    cases hh : s.pushHead v t with
    | error e =>
      simp only [hh] at h
      cases h
      exact ⟨rfl, rfl, v, rfl, .inl ⟨rfl, .inl rfl⟩⟩
    | ok r =>
      simp only [hh] at h
      cases h
      unfold pushHead at hh
      split at hh
      · cases hh
      · cases hh
        exact ⟨rfl, rfl, v, rfl, .inl ⟨rfl, .inr rfl⟩⟩
  | write v t =>
    simp only [hp] at h
    cases h
    exact ⟨rfl, rfl, v, rfl, .inl ⟨rfl, .inr rfl⟩⟩
  | publish v t =>
    simp only [hp] at h
    cases h
    exact ⟨rfl, rfl, v, rfl, .inr ⟨rfl, rfl⟩⟩

/-- A step of a single pop returns one value at most, and then ends the call. -/
theorem stepConsumer_cases (hs : s.popping.Single) (h : s.stepConsumer = some s') :
    s.popping ≠ .idle ∧ s'.accepted = s.accepted ∧ s'.pushing = s.pushing ∧ s'.popping.Single ∧
      (s'.returned = s.returned ∨ ∃ v, s'.returned = s.returned ++ [v] ∧ s'.popping = .idle) := by
  unfold stepConsumer at h
  cases hp : s.popping with
  | idle =>
    simp only [hp] at h
    cases h
  | loadHead t =>
    simp only [hp] at h
    cases hh : s.popHead t with
    | error e =>
      simp only [hh] at h
      cases h
      exact ⟨nofun, rfl, rfl, trivial, .inl rfl⟩
    | ok r =>
      simp only [hh] at h
      cases h
      unfold popHead at hh
      split at hh
      · cases hh
      · cases hh
        exact ⟨nofun, rfl, rfl, trivial, .inl rfl⟩
  | read t =>
    simp only [hp] at h
    cases h
    exact ⟨nofun, rfl, rfl, trivial, .inl rfl⟩
  | publish t v =>
    simp only [hp] at h
    cases h
    exact ⟨nofun, rfl, rfl, trivial, .inr ⟨v, rfl, rfl⟩⟩
  | batchHead | batch =>
    rw [hp] at hs
    exact hs.elim

theorem step_push {v : α} (h : s.step (.push v) = some s') :
    s'.accepted = s.accepted ∧ s'.returned = s.returned ∧ s'.popping = s.popping ∧
      s'.pushing.value = some v := by
  unfold step at h
  cases hp : s.pushing <;> simp only [hp] at h <;> cases h
  exact ⟨rfl, rfl, rfl, rfl⟩

theorem step_pop (h : s.step .pop = some s') :
    s'.accepted = s.accepted ∧ s'.returned = s.returned ∧ s'.pushing = s.pushing ∧
      s'.popping.Single := by
  unfold step at h
  cases hp : s.popping <;> simp only [hp] at h <;> cases h
  exact ⟨rfl, rfl, rfl, trivial⟩

end State

end Spsc

-- ---------------------------------------------------------------------------
-- The boundary
-- ---------------------------------------------------------------------------

structure CompileRequest where
  fingerprint : UInt64
  shapeLayout : UInt64
  tier : Tier
  pad : UInt32
deriving DecidableEq, Repr

structure CompileResponse where
  kernelKey : UInt64
  tier : Tier
  failed : Bool
  pad : UInt32
deriving DecidableEq, Repr

structure JitBoundary where
  requests : Spsc.State CompileRequest
  responses : Spsc.State CompileResponse
deriving DecidableEq, Repr

namespace JitBoundary

def new (capacity : UInt64) : JitBoundary := ⟨.start capacity, .start capacity⟩

/-- A thread begins a call, or goes on with the one it is in. -/
inductive Action where
  | pushRequest (req : CompileRequest)
  | popRequest
  | pushResponse (resp : CompileResponse)
  | popResponse
  | execution
  | worker
deriving DecidableEq, Repr

def onRequests (b : JitBoundary) (a : Spsc.Action CompileRequest) : Option JitBoundary :=
  (b.requests.step a).map fun r => { b with requests := r }

def onResponses (b : JitBoundary) (a : Spsc.Action CompileResponse) : Option JitBoundary :=
  (b.responses.step a).map fun r => { b with responses := r }

def step (b : JitBoundary) : Action → Option JitBoundary
  | .pushRequest req =>
    if b.responses.popping = .idle then b.onRequests (.push req) else none
  | .popResponse =>
    if b.requests.pushing = .idle then b.onResponses .pop else none
  | .execution =>
    if b.requests.pushing = .idle then b.onResponses .consumer else b.onRequests .producer
  | .popRequest =>
    if b.responses.pushing = .idle then b.onRequests .pop else none
  | .pushResponse resp =>
    if b.requests.popping = .idle then b.onResponses (.push resp) else none
  | .worker =>
    if b.requests.popping = .idle then b.onResponses .producer else b.onRequests .consumer

/-- The worker pops when it has answered everything, and answers the request
that it has not answered yet; a refused answer it may push again. -/
def Serves (serve : CompileRequest → CompileResponse) (b : JitBoundary) : Action → Prop
  | .popRequest => b.requests.returned.length = b.responses.accepted.length
  | .pushResponse resp =>
    b.requests.returned[b.responses.accepted.length]?.join.map serve = some resp
  | _ => True

instance (serve : CompileRequest → CompileResponse) (b : JitBoundary) (a : Action) :
    Decidable (Serves serve b a) := by
  cases a <;> unfold Serves <;> infer_instance

-- ---------------------------------------------------------------------------
-- The invariant
-- ---------------------------------------------------------------------------

/-- The answers are those to the requests popped, and at most one popped
request has none yet. -/
structure Answering (serve : CompileRequest → CompileResponse) (b : JitBoundary) : Prop where
  answers : b.responses.accepted.map some =
    (b.requests.returned.take b.responses.accepted.length).map (Option.map serve)
  hand : b.requests.returned.length ≤ b.responses.accepted.length + 1
  popping : b.requests.popping ≠ .idle →
    b.requests.returned.length = b.responses.accepted.length
  pushing : ∀ v, b.responses.pushing.value = some v →
    b.requests.popping = .idle ∧
      b.requests.returned[b.responses.accepted.length]?.join.map serve = some v
  single : b.requests.popping.Single ∧ b.responses.popping.Single

variable {serve : CompileRequest → CompileResponse} {b b' : JitBoundary} {a : Action}
  {capacity : UInt64}

theorem onRequests_eq {x : Spsc.Action CompileRequest} (h : b.onRequests x = some b') :
    b.requests.step x = some b'.requests ∧ b'.responses = b.responses := by
  obtain ⟨r, hr, rfl⟩ := Option.map_eq_some_iff.mp h
  exact ⟨hr, rfl⟩

theorem onResponses_eq {x : Spsc.Action CompileResponse} (h : b.onResponses x = some b') :
    b.responses.step x = some b'.responses ∧ b'.requests = b.requests := by
  obtain ⟨r, hr, rfl⟩ := Option.map_eq_some_iff.mp h
  exact ⟨hr, rfl⟩

namespace Answering

theorem start : Answering serve (.new capacity) :=
  ⟨rfl, Nat.zero_le _, fun h => absurd rfl h, nofun, trivial, trivial⟩

/-- Nothing that the worker knows changes with the other thread's steps. -/
theorem frame (h : Answering serve b) (hreturned : b'.requests.returned = b.requests.returned)
    (haccepted : b'.responses.accepted = b.responses.accepted)
    (hpopping : b'.requests.popping = b.requests.popping)
    (hpushing : b'.responses.pushing = b.responses.pushing)
    (hsingle : b'.responses.popping.Single) : Answering serve b' := by
  refine ⟨?_, ?_, ?_, ?_, hpopping ▸ h.single.1, hsingle⟩
  · rw [hreturned, haccepted]
    exact h.answers
  · rw [hreturned, haccepted]
    exact h.hand
  · rw [hreturned, haccepted, hpopping]
    exact h.popping
  · rw [hreturned, haccepted, hpopping, hpushing]
    exact h.pushing

/-- The answer to the request in hand is accepted. -/
theorem answered (h : Answering serve b) {v : CompileResponse}
    (hv : b.responses.pushing.value = some v) (hreq : b'.requests = b.requests)
    (hacc : b'.responses.accepted = b.responses.accepted ++ [v])
    (hidle : b'.responses.pushing = .idle)
    (hpopping : b'.responses.popping = b.responses.popping) : Answering serve b' := by
  obtain ⟨hquiet, hnext⟩ := h.pushing v hv
  obtain ⟨req, hreq', hv⟩ := Option.map_eq_some_iff.mp hnext
  have hget : b.requests.returned[b.responses.accepted.length]? = some (some req) :=
    Option.join_eq_some_iff.mp hreq'
  have hlen : b'.responses.accepted.length = b.responses.accepted.length + 1 := by
    rw [hacc, List.length_append, List.length_singleton]
  refine ⟨?_, ?_, ?_, ?_, hreq ▸ h.single.1, hpopping ▸ h.single.2⟩
  · rw [hlen, hreq, hacc, List.take_add_one, hget, List.map_append, List.map_append, h.answers]
    simp [hv]
  · rw [hlen, hreq]
    exact h.hand.trans (Nat.le_succ _)
  · intro hpop
    rw [hreq] at hpop
    exact absurd hquiet hpop
  · rw [hidle]
    nofun

/-- The worker has popped a request, or none. -/
theorem popped (h : Answering serve b) (hbusy : b.requests.popping ≠ .idle)
    (hresp : b'.responses = b.responses) (hsingle : b'.requests.popping.Single)
    (hret : b'.requests.returned = b.requests.returned ∨
      ∃ v, b'.requests.returned = b.requests.returned ++ [v] ∧ b'.requests.popping = .idle) :
    Answering serve b' := by
  have hall := h.popping hbusy
  have hnone : ∀ v, b.responses.pushing.value ≠ some v := fun v hv =>
    hbusy (h.pushing v hv).1
  obtain hsame | ⟨v, hone, hidle⟩ := hret
  · refine ⟨?_, ?_, ?_, ?_, hsingle, hresp ▸ h.single.2⟩
    · rw [hsame, hresp]
      exact h.answers
    · rw [hsame, hresp]
      exact h.hand
    · rw [hsame, hresp]
      exact fun _ => hall
    · rw [hresp]
      exact fun v hv => absurd hv (hnone v)
  · refine ⟨?_, ?_, ?_, ?_, hsingle, hresp ▸ h.single.2⟩
    · rw [hone, hresp, List.take_append_of_le_length hall.ge]
      exact h.answers
    · rw [hone, hresp, List.length_append, hall]
      exact le_rfl
    · exact fun hpop => absurd hidle hpop
    · rw [hresp]
      exact fun v hv => absurd hv (hnone v)

theorem step (h : Answering serve b) (hok : Serves serve b a) (hs : b.step a = some b') :
    Answering serve b' := by
  cases a with
  | pushRequest req =>
    obtain ⟨-, hs⟩ := Option.ite_none_right_eq_some.mp hs
    obtain ⟨hr, hresp⟩ := onRequests_eq hs
    obtain ⟨-, hret, hpop, -⟩ := Spsc.State.step_push hr
    exact h.frame hret (hresp ▸ rfl) hpop (hresp ▸ rfl) (hresp ▸ h.single.2)
  | popResponse =>
    obtain ⟨-, hs⟩ := Option.ite_none_right_eq_some.mp hs
    obtain ⟨hr, hreq⟩ := onResponses_eq hs
    obtain ⟨hacc, -, hpush, hsingle⟩ := Spsc.State.step_pop hr
    exact h.frame (hreq ▸ rfl) hacc (hreq ▸ rfl) hpush hsingle
  | execution =>
    unfold JitBoundary.step at hs
    dsimp only at hs
    split at hs
    · obtain ⟨hr, hreq⟩ := onResponses_eq hs
      obtain ⟨-, hacc, hpush, hsingle, -⟩ := Spsc.State.stepConsumer_cases h.single.2 hr
      exact h.frame (hreq ▸ rfl) hacc (hreq ▸ rfl) hpush hsingle
    · obtain ⟨hr, hresp⟩ := onRequests_eq hs
      obtain ⟨hret, hpop, -⟩ := Spsc.State.stepProducer_cases hr
      exact h.frame hret (hresp ▸ rfl) hpop (hresp ▸ rfl) (hresp ▸ h.single.2)
  | popRequest =>
    obtain ⟨hidle, hs⟩ := Option.ite_none_right_eq_some.mp hs
    obtain ⟨hr, hresp⟩ := onRequests_eq hs
    obtain ⟨-, hret, -, hsingle⟩ := Spsc.State.step_pop hr
    have hnone : b'.responses.pushing.value = none := by
      rw [hresp, hidle]
      rfl
    refine ⟨?_, ?_, ?_, ?_, hsingle, hresp ▸ h.single.2⟩
    · rw [hret, hresp]
      exact h.answers
    · rw [hret, hresp]
      exact h.hand
    · rw [hret, hresp]
      exact fun _ => hok
    · rw [hnone]
      nofun
  | pushResponse resp =>
    obtain ⟨hidle, hs⟩ := Option.ite_none_right_eq_some.mp hs
    obtain ⟨hr, hreq⟩ := onResponses_eq hs
    obtain ⟨hacc, -, hpop, hval⟩ := Spsc.State.step_push hr
    refine ⟨?_, ?_, ?_, ?_, hreq ▸ h.single.1, hpop ▸ h.single.2⟩
    · rw [hacc, hreq]
      exact h.answers
    · rw [hacc, hreq]
      exact h.hand
    · rw [hacc, hreq]
      exact h.popping
    · intro v hv
      obtain rfl := Option.some.inj (hval.symm.trans hv)
      rw [hacc, hreq]
      exact ⟨hidle, hok⟩
  | worker =>
    unfold JitBoundary.step at hs
    dsimp only at hs
    split at hs
    · next hidle =>
      obtain ⟨hr, hreq⟩ := onResponses_eq hs
      obtain ⟨-, hpop, v, hv, ⟨hacc, hpush⟩ | ⟨hacc, hpush⟩⟩ := Spsc.State.stepProducer_cases hr
      · refine ⟨?_, ?_, ?_, ?_, hreq ▸ h.single.1, hpop ▸ h.single.2⟩
        · rw [hacc, hreq]
          exact h.answers
        · rw [hacc, hreq]
          exact h.hand
        · rw [hacc, hreq]
          exact h.popping
        · intro w hw
          obtain hpush | hpush := hpush
          · rw [hpush] at hw
            cases hw
          · obtain rfl := Option.some.inj (hpush.symm.trans hw)
            rw [hacc, hreq]
            exact h.pushing v hv
      · exact h.answered hv hreq hacc hpush hpop
    · obtain ⟨hr, hresp⟩ := onRequests_eq hs
      obtain ⟨hbusy, -, -, hsingle, hret⟩ := Spsc.State.stepConsumer_cases h.single.1 hr
      exact h.popped hbusy hresp hsingle hret

end Answering

-- ---------------------------------------------------------------------------
-- The rings
-- ---------------------------------------------------------------------------

/-- Both rings are queues of the capacity. -/
structure Rings (cap : Nat) (b : JitBoundary) : Prop where
  requests : b.requests.Inv cap
  responses : b.responses.Inv cap

theorem Rings.step {cap : Nat} (hpow : cap.isPowerOfTwo) (hcap : cap < UInt64.size)
    (h : Rings cap b) (hs : b.step a = some b') : Rings cap b' := by
  have hreq : ∀ {x}, b.onRequests x = some b' → Rings cap b' := by
    intro x hx
    obtain ⟨hr, hresp⟩ := onRequests_eq hx
    exact ⟨h.requests.step hpow hcap hr, hresp ▸ h.responses⟩
  have hresp : ∀ {x}, b.onResponses x = some b' → Rings cap b' := by
    intro x hx
    obtain ⟨hr, hreq⟩ := onResponses_eq hx
    exact ⟨hreq ▸ h.requests, h.responses.step hpow hcap hr⟩
  cases a with
  | pushRequest | popRequest => exact hreq (Option.ite_none_right_eq_some.mp hs).2
  | popResponse | pushResponse => exact hresp (Option.ite_none_right_eq_some.mp hs).2
  | execution =>
    unfold JitBoundary.step at hs
    dsimp only at hs
    split at hs
    · exact hresp hs
    · exact hreq hs
  | worker =>
    unfold JitBoundary.step at hs
    dsimp only at hs
    split at hs
    · exact hresp hs
    · exact hreq hs

/-- The responses that the execution thread has popped are the answers to the
requests it has pushed, one each and in their order. No request is lost: all
but those in the two rings and one in the worker's hand are answered. -/
theorem answered_in_order (hpow : capacity.toNat.isPowerOfTwo)
    (h : Reachable step (Serves serve) (.new capacity) b) :
    b.responses.returned <+: (b.requests.accepted.map serve).map some ∧
      b.requests.accepted.length ≤ b.responses.returned.length + 2 * capacity.toNat + 1 := by
  have hcap : capacity.toNat < UInt64.size := capacity.toNat_lt_size
  have hpos := Nat.pos_of_isPowerOfTwo hpow
  have hrings : Rings capacity.toNat b :=
    h.invariant ⟨.start hpos, .start hpos⟩ fun _ _ _ hi _ hs => hi.step hpow hcap hs
  have hanswers : Answering serve b :=
    h.invariant .start fun _ _ _ hi hok hs => hi.step hok hs
  refine ⟨?_, ?_⟩
  · have hpopped : b.requests.returned <+: b.requests.accepted.map some := by
      rw [hrings.requests.fifo]
      exact (List.take_prefix ..).map some
    have hserved : b.responses.accepted.map some <+: (b.requests.accepted.map serve).map some := by
      rw [hanswers.answers]
      have hmapped := ((List.take_prefix b.responses.accepted.length _).trans hpopped).map
        (Option.map serve)
      simpa only [List.map_map, Function.comp_def, Option.map_some] using hmapped
    rw [hrings.responses.fifo]
    exact ((List.take_prefix ..).map some).trans hserved
  · have hroom := hrings.requests.room
    have hroom' := hrings.responses.room
    have hhand := hanswers.hand
    omega

def keyOf (req : CompileRequest) : CompileResponse :=
  ⟨req.fingerprint ^^^ req.shapeLayout, req.tier, false, 0⟩

/-- One request, served and answered. -/
theorem answered_in_order_one : ∃ b : JitBoundary,
    Reachable step (Serves keyOf) (.new 2) b ∧ b.requests.accepted = [⟨11, 3, .tier1, 0⟩] ∧
      b.responses.returned = [some ⟨8, .tier1, false, 0⟩] ∧
      b.responses.returned <+: (b.requests.accepted.map keyOf).map some := by
  have hrun : ∃ b, runMeeting step (Serves keyOf) (.new 2)
      [.pushRequest ⟨11, 3, .tier1, 0⟩, .execution, .execution, .execution,
        .popRequest, .popResponse, .worker, .worker, .execution, .worker,
        .pushResponse ⟨8, .tier1, false, 0⟩, .worker, .worker, .worker,
        .popResponse, .execution, .execution, .execution] = some b ∧
      b.requests.accepted = [⟨11, 3, .tier1, 0⟩] ∧
      b.responses.returned = [some ⟨8, .tier1, false, 0⟩] := ⟨_, rfl, rfl, rfl⟩
  obtain ⟨b, hrun, haccepted, hreturned⟩ := hrun
  have hreached := reachable_of_runMeeting .start hrun
  exact ⟨b, hreached, haccepted, hreturned, (answered_in_order ⟨1, rfl⟩ hreached).1⟩

end JitBoundary

end Sxla
