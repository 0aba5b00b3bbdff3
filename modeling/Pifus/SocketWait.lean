import Pifus.Operation
import Pifus.RingBuffer
import Pifus.Util.Counter
import Pifus.Util.Transition

/-!
# Waiting for a result

In poll mode an app waits for a result in `pifus_socket_wait`. It reads
`cqueue_futex` once, tries to dequeue, and then alternates between a
`futex_wait` for the value it has read and another try. The stack appends
results in `enqueue_in_cqueue` – a put, an increment of the futex, a wake-up –
and does so in another process, between any two of these steps.

The value read is never refreshed. Once the futex has moved on, `futex_wait`
no longer blocks and the loop spins until there is a result; it would block
again, without a result having been missed, only if the futex came around to
the same value. The cqueue is too short for that: a call dequeues nothing
before it returns, and a put is refused when the cqueue is full.
-/

/-- Where the stack stands in `enqueue_in_cqueue`. -/
inductive NotifyPc
  /-- Outside. -/
  | outside
  /-- In front of `socket->cqueue_futex++`. -/
  | announcing
  /-- In front of `futex_wake`. -/
  | waking
  deriving DecidableEq

/-- Where the app stands in `pifus_socket_wait`. `shadow` is
`shadow_cqueue`. -/
inductive WaitPc
  /-- Outside. -/
  | outside
  /-- In front of `dequeue_operation`. -/
  | dequeuing (shadow : UInt32)
  /-- In front of `futex_wait`. -/
  | waiting (shadow : UInt32)
  /-- Blocked in `futex_wait`. -/
  | blocked (shadow : UInt32)
  deriving DecidableEq

variable {δ : Type*}

/-- One socket between the stack and an app that waits, and the history of its
results. -/
structure WaitState (δ : Type*) where
  cqueue : RingBuffer (PifusOperationResult δ)
  /-- `cqueue_futex`. -/
  cqueueFutex : UInt32
  stackPc : NotifyPc
  pc : WaitPc
  /-- The results put into the cqueue, oldest first. -/
  appended : List (PifusOperationResult δ)
  /-- The results that calls of `pifus_socket_wait` returned, oldest first. -/
  returned : List (PifusOperationResult δ)
  /-- The number of increments of the futex. -/
  increments : ℕ
  /-- The number of increments in front of the last read of the futex. -/
  seen : ℕ

/-- What can happen next. -/
inductive WaitEvent (δ : Type*)
  /-- The stack calls `enqueue_in_cqueue`, up to the increment. -/
  | complete (result : PifusOperationResult δ)
  /-- The stack increments the futex. -/
  | announce
  /-- The stack calls `futex_wake`. -/
  | wake
  /-- The app calls `pifus_socket_wait`, up to its first try. -/
  | call
  /-- The app tries to dequeue. -/
  | dequeue
  /-- The app calls `futex_wait`. -/
  | wait
  /-- `futex_wait` returns without a wake-up. -/
  | interrupt

namespace WaitState

/-- The `put` of `enqueue_in_cqueue`; a full cqueue refuses it. -/
def complete (s : WaitState δ) (result : PifusOperationResult δ) :
    WaitState δ :=
  match s.cqueue.put result with
  | some ring => { s with
      cqueue := ring
      stackPc := .announcing
      appended := s.appended ++ [result] }
  | none => s

/-- A try to dequeue. -/
def dequeue (s : WaitState δ) (shadow : UInt32) : WaitState δ :=
  match s.cqueue.get with
  | some (result, ring) => { s with
      cqueue := ring
      pc := .outside
      returned := s.returned ++ [result] }
  | none => { s with pc := .waiting shadow }

/-- `futex_wake`: whoever is blocked goes on. -/
def wake (s : WaitState δ) : WaitState δ :=
  { s with
    stackPc := .outside
    pc := match s.pc with
      | .blocked shadow => .dequeuing shadow
      | pc => pc }

end WaitState

open WaitState

/-- **A step of the stack or of the app.** -/
def waitStep (s : WaitState δ) : WaitEvent δ → Option (WaitState δ)
  | .complete result =>
    match s.stackPc with
    | .outside => some (s.complete result)
    | _ => none
  | .announce =>
    match s.stackPc with
    | .announcing => some { s with
        cqueueFutex := s.cqueueFutex + 1
        stackPc := .waking
        increments := s.increments + 1 }
    | _ => none
  | .wake =>
    match s.stackPc with
    | .waking => some s.wake
    | _ => none
  | .call =>
    match s.pc with
    | .outside => some { s with
        pc := .dequeuing s.cqueueFutex, seen := s.increments }
    | _ => none
  | .dequeue =>
    match s.pc with
    | .dequeuing shadow => some (s.dequeue shadow)
    | _ => none
  | .wait =>
    match s.pc with
    | .waiting shadow =>
      if s.cqueueFutex = shadow then some { s with pc := .blocked shadow }
      else some { s with pc := .dequeuing shadow }
    | _ => none
  | .interrupt =>
    match s.pc with
    | .blocked shadow => some { s with pc := .dequeuing shadow }
    | _ => none

/-- The steps as a relation. -/
def WaitStep (s : WaitState δ) (e : WaitEvent δ) (t : WaitState δ) : Prop :=
  waitStep s e = some t

namespace WaitState

/-- A socket that has just been created. -/
structure Initial (s : WaitState δ) : Prop where
  contents : s.cqueue.contents = []
  cqueueEnd : s.cqueue.endIndex = cqueueSize
  stackPc : s.stackPc = .outside
  pc : s.pc = .outside
  appended : s.appended = []
  returned : s.returned = []
  increments : s.increments = 0

/-- The puts in front of their increment. -/
def unannounced (s : WaitState δ) : ℕ :=
  match s.stackPc with
  | .announcing => 1
  | _ => 0

/-- The futex was read when it had been incremented `seen` times, and at most
one of the results returned had not been announced by then. -/
def Read (s : WaitState δ) (shadow : UInt32) : Prop :=
  (∃ k, s.increments = s.seen + k ∧ s.cqueueFutex - shadow = UInt32.ofNat k)
    ∧ s.returned.length ≤ s.seen + 1

/-- The app found the cqueue empty after it had read the futex. -/
def FoundEmpty (s : WaitState δ) (shadow : UInt32) : Prop :=
  s.Read shadow ∧ s.seen ≤ s.returned.length

/-- What the app knows where it stands. -/
def PcInv (s : WaitState δ) : Prop :=
  match s.pc with
  | .outside => True
  | .dequeuing shadow => s.Read shadow
  | .waiting shadow => s.FoundEmpty shadow
  | .blocked shadow => s.FoundEmpty shadow
      ∧ (s.stackPc = .waking ∨ s.increments = s.seen)

end WaitState

/-- **The invariant**: the results returned and those in the cqueue are those
appended, and the increments follow the puts. -/
structure WaitInv (s : WaitState δ) : Prop where
  results : s.appended = s.returned ++ s.cqueue.contents
  cqueueEnd : s.cqueue.endIndex = cqueueSize
  calls : s.increments + s.unannounced = s.appended.length
  pc : s.PcInv

variable {start s t : WaitState δ}

/-- A full cqueue is a turn short of the futex. -/
theorem WaitInv.contents_lt (h : WaitInv s) :
    s.cqueue.contents.length < cqueueSize := by
  rw [RingBuffer.length_contents, ← h.cqueueEnd]
  exact s.cqueue.count_lt

/-- **The futex does not come around during a call.** -/
theorem WaitInv.increments_eq {shadow : UInt32} (h : WaitInv s)
    (hread : s.Read shadow) (heq : s.cqueueFutex = shadow) :
    s.increments = s.seen := by
  obtain ⟨⟨k, hk, hfutex⟩, hreturned⟩ := hread
  have hlt := h.contents_lt
  have hcalls := h.calls
  rw [h.results, List.length_append] at hcalls
  have hsmall : k < 2 ^ 32 := by
    unfold cqueueSize at hlt
    omega
  rw [heq, UInt32.sub_self] at hfutex
  have hzero := congrArg UInt32.toNat hfutex
  rw [UInt32.toNat_ofNat', Nat.mod_eq_of_lt hsmall] at hzero
  rw [hk, ← hzero]
  rfl

/-! ## The steps -/

theorem WaitInv.complete {result : PifusOperationResult δ} (h : WaitInv s)
    (hpc : s.stackPc = .outside) : WaitInv (s.complete result) := by
  unfold WaitState.complete
  split
  · rename_i ring hput
    obtain ⟨hresults, hend, hcalls, happ⟩ := h
    have hzero : s.unannounced = 0 := by rw [unannounced, hpc]
    refine ⟨?_, ?_, ?_, ?_⟩
    · show s.appended ++ [result] = s.returned ++ ring.contents
      rw [hresults, RingBuffer.contents_put hput, List.append_assoc]
    · exact (RingBuffer.endIndex_put hput).trans hend
    · show s.increments + 1 = (s.appended ++ [result]).length
      rw [List.length_append, ← hcalls, hzero]
      rfl
    · unfold PcInv at happ ⊢
      cases hcase : s.pc with
      | blocked shadow =>
        rw [hcase] at happ
        refine ⟨happ.1, Or.inr (happ.2.resolve_left ?_)⟩
        rw [hpc]
        simp
      | _ => rw [hcase] at happ; exact happ
  · exact h

theorem WaitInv.announce (h : WaitInv s) (hpc : s.stackPc = .announcing) :
    WaitInv { s with
      cqueueFutex := s.cqueueFutex + 1
      stackPc := .waking
      increments := s.increments + 1 } := by
  obtain ⟨hresults, hend, hcalls, happ⟩ := h
  have hone : s.unannounced = 1 := by rw [unannounced, hpc]
  refine ⟨hresults, hend, ?_, ?_⟩
  · show s.increments + 1 + 0 = s.appended.length
    rw [← hcalls, hone]
  · have hread : ∀ {shadow}, s.Read shadow → WaitState.Read { s with
        cqueueFutex := s.cqueueFutex + 1
        stackPc := .waking
        increments := s.increments + 1 } shadow := by
      rintro shadow ⟨⟨k, hk, hfutex⟩, hreturned⟩
      refine ⟨⟨k + 1, ?_, Counter.sub_ahead hfutex⟩, hreturned⟩
      show s.increments + 1 = s.seen + (k + 1)
      rw [hk, Nat.add_assoc]
    unfold PcInv at happ ⊢
    cases hcase : s.pc with
    | outside => trivial
    | dequeuing shadow => rw [hcase] at happ; exact hread happ
    | waiting shadow => rw [hcase] at happ; exact ⟨hread happ.1, happ.2⟩
    | blocked shadow =>
      rw [hcase] at happ
      exact ⟨⟨hread happ.1.1, happ.1.2⟩, Or.inl rfl⟩

theorem WaitInv.wake (h : WaitInv s) (hpc : s.stackPc = .waking) :
    WaitInv s.wake := by
  obtain ⟨hresults, hend, hcalls, happ⟩ := h
  have hzero : s.unannounced = 0 := by rw [unannounced, hpc]
  rw [hzero] at hcalls
  refine ⟨hresults, hend, hcalls, ?_⟩
  unfold PcInv at happ
  unfold PcInv WaitState.wake
  cases hcase : s.pc with
  | blocked shadow => rw [hcase] at happ; exact happ.1.1
  | _ => rw [hcase] at happ; exact happ

theorem WaitInv.goto {pc : WaitPc} (h : WaitInv s)
    (hpc : ({ s with pc := pc } : WaitState δ).PcInv) :
    WaitInv { s with pc := pc } :=
  ⟨h.results, h.cqueueEnd, h.calls, hpc⟩

theorem WaitInv.call (h : WaitInv s) :
    WaitInv { s with pc := .dequeuing s.cqueueFutex, seen := s.increments } := by
  obtain ⟨hresults, hend, hcalls, -⟩ := h
  refine ⟨hresults, hend, hcalls, ⟨0, rfl, UInt32.sub_self _⟩, ?_⟩
  have hone : s.unannounced ≤ 1 := by
    unfold unannounced
    split <;> simp
  rw [hresults, List.length_append] at hcalls
  show s.returned.length ≤ s.increments + 1
  omega

theorem WaitInv.dequeue {shadow : UInt32} (h : WaitInv s)
    (hread : s.Read shadow) : WaitInv (s.dequeue shadow) := by
  obtain ⟨hresults, hend, hcalls, -⟩ := h
  unfold WaitState.dequeue
  split
  · rename_i result ring hget
    refine ⟨?_, (RingBuffer.endIndex_get hget).trans hend, hcalls, trivial⟩
    show s.appended = (s.returned ++ [result]) ++ ring.contents
    rw [hresults, RingBuffer.contents_get hget, List.append_assoc]
    rfl
  · rename_i hget
    refine ⟨hresults, hend, hcalls, hread, ?_⟩
    rw [RingBuffer.get_eq_none_iff.mp hget, List.append_nil] at hresults
    obtain ⟨⟨k, hk, -⟩, -⟩ := hread
    show s.seen ≤ s.returned.length
    rw [← hresults, ← hcalls, hk, Nat.add_assoc]
    exact Nat.le_add_right _ _

/-- **Every step keeps the invariant.** -/
theorem WaitInv.step {e : WaitEvent δ} (h : WaitInv s)
    (hs : waitStep s e = some t) : WaitInv t := by
  have happ := h.pc
  rw [PcInv] at happ
  cases e with
  | complete result =>
    rw [waitStep] at hs
    split at hs
    · rename_i hpc
      obtain rfl := Option.some.inj hs
      exact h.complete hpc
    · exact absurd hs (by simp)
  | announce =>
    rw [waitStep] at hs
    split at hs
    · rename_i hpc
      obtain rfl := Option.some.inj hs
      exact h.announce hpc
    · exact absurd hs (by simp)
  | wake =>
    rw [waitStep] at hs
    split at hs
    · rename_i hpc
      obtain rfl := Option.some.inj hs
      exact h.wake hpc
    · exact absurd hs (by simp)
  | call =>
    rw [waitStep] at hs
    split at hs
    · obtain rfl := Option.some.inj hs
      exact h.call
    · exact absurd hs (by simp)
  | dequeue =>
    rw [waitStep] at hs
    split at hs
    · rename_i shadow hpc
      rw [hpc] at happ
      obtain rfl := Option.some.inj hs
      exact h.dequeue happ
    · exact absurd hs (by simp)
  | wait =>
    rw [waitStep] at hs
    split at hs
    · rename_i shadow hpc
      rw [hpc] at happ
      split at hs
      · rename_i heq
        obtain rfl := Option.some.inj hs
        exact h.goto ⟨happ, Or.inr (h.increments_eq happ.1 heq)⟩
      · obtain rfl := Option.some.inj hs
        exact h.goto happ.1
    · exact absurd hs (by simp)
  | interrupt =>
    rw [waitStep] at hs
    split at hs
    · rename_i shadow hpc
      rw [hpc] at happ
      obtain rfl := Option.some.inj hs
      exact h.goto happ.1.1
    · exact absurd hs (by simp)

theorem waitInv_initial (h : start.Initial) : WaitInv start := by
  refine ⟨?_, h.cqueueEnd, ?_, ?_⟩
  · rw [h.appended, h.returned, h.contents]
    rfl
  · rw [h.increments, unannounced, h.stackPc, h.appended]
    rfl
  · rw [PcInv, h.pc]
    trivial

/-! ## Runs -/

/-- A call returns in this step. -/
def Returns (s t : WaitState δ) : Prop := s.pc ≠ .outside ∧ t.pc = .outside

/-- The call returns with the oldest of the results in the cqueue. -/
def PopsOldest (s t : WaitState δ) : Prop :=
  ∃ result, s.cqueue.contents = result :: t.cqueue.contents
    ∧ t.returned = s.returned ++ [result]

/-- **A call returns with the oldest result, and only a call that returns
takes one.** -/
theorem WaitState.pops_iff_returns {e : WaitEvent δ}
    (hs : waitStep s e = some t) :
    (Returns s t → PopsOldest s t)
    ∧ (¬ Returns s t → t.returned = s.returned) := by
  cases e with
  | dequeue =>
    rw [waitStep] at hs
    split at hs
    · rename_i shadow hpc
      obtain rfl := Option.some.inj hs
      unfold Returns PopsOldest dequeue
      split
      · rename_i result ring hget
        refine ⟨fun _ => ⟨result, RingBuffer.contents_get hget, rfl⟩,
          fun hnot => absurd ⟨?_, rfl⟩ hnot⟩
        rw [hpc]
        simp
      · exact ⟨fun hret => absurd hret.2 (by simp), fun _ => rfl⟩
    · exact absurd hs (by simp)
  | complete result =>
    rw [waitStep] at hs
    split at hs
    · obtain rfl := Option.some.inj hs
      unfold Returns complete
      split <;> exact ⟨fun hret => absurd hret.2 hret.1, fun _ => rfl⟩
    · exact absurd hs (by simp)
  | announce =>
    rw [waitStep] at hs
    split at hs
    · obtain rfl := Option.some.inj hs
      exact ⟨fun hret => absurd hret.2 hret.1, fun _ => rfl⟩
    · exact absurd hs (by simp)
  | wake =>
    rw [waitStep] at hs
    split at hs
    · obtain rfl := Option.some.inj hs
      refine ⟨fun hret => absurd hret.2 ?_, fun _ => rfl⟩
      unfold wake
      dsimp only
      split
      · simp
      · exact hret.1
    · exact absurd hs (by simp)
  | call | interrupt =>
    rw [waitStep] at hs
    split at hs
    · obtain rfl := Option.some.inj hs
      exact ⟨fun hret => absurd hret.2 (by simp), fun _ => rfl⟩
    · exact absurd hs (by simp)
  | wait =>
    rw [waitStep] at hs
    split at hs
    · split at hs <;> obtain rfl := Option.some.inj hs <;>
        exact ⟨fun hret => absurd hret.2 (by simp), fun _ => rfl⟩
    · exact absurd hs (by simp)

/-- **No wake-up is lost.** While the app is blocked and the stack is not on
its way from a put to its wake-up, the cqueue is empty. And a call returns
with the oldest of the results that no call has returned before. -/
theorem wait_loses_no_wake_up {es : List (WaitEvent δ)}
    (hstart : start.Initial) (h : Run WaitStep start es s) :
    (∀ shadow, s.pc = .blocked shadow → s.stackPc = .outside →
      s.cqueue.contents = [])
    ∧ s.appended = s.returned ++ s.cqueue.contents
    ∧ ∀ e t, WaitStep s e t →
      (Returns s t → PopsOldest s t)
      ∧ (¬ Returns s t → t.returned = s.returned) := by
  have hinv : WaitInv s := h.invariant WaitInv (waitInv_initial hstart)
    (fun _ _ _ hI hs => hI.step hs)
  refine ⟨fun shadow hpc hstack => ?_, hinv.results,
    fun e t hs => pops_iff_returns hs⟩
  have happ := hinv.pc
  rw [PcInv, hpc] at happ
  obtain ⟨⟨-, hseen⟩, hblocked⟩ := happ
  have heq : s.increments = s.seen :=
    hblocked.resolve_left (by rw [hstack]; simp)
  have hzero : s.unannounced = 0 := by rw [unannounced, hstack]
  have hcalls := hinv.calls
  rw [hinv.results, List.length_append, hzero, heq] at hcalls
  exact List.length_eq_zero_iff.mp (by omega)

/-- A result that is appended while the app blocks. -/
theorem wait_loses_no_wake_up_blocked :
    ∃ s : WaitState ℕ, s.returned = [⟨.tcpRecv, .ok, 7⟩]
      ∧ s.appended = s.returned ++ s.cqueue.contents := by
  let start : WaitState ℕ :=
    ⟨.create (fun _ => ⟨.nop, .ok, 0⟩) cqueueSize cqueueSize_pos cqueueSize_lt, 0,
      .outside, .outside, [], [], 0, 0⟩
  have hstart : start.Initial := ⟨rfl, rfl, rfl, rfl, rfl, rfl, rfl⟩
  have hs : ([.call, .dequeue, .wait, .complete ⟨.tcpRecv, .ok, 7⟩, .announce,
      .wake, .dequeue].foldlM waitStep start).map (fun s => s.returned)
      = some [⟨.tcpRecv, .ok, 7⟩] := rfl
  obtain ⟨s, hrun, hreturned⟩ := Option.map_eq_some_iff.mp hs
  exact ⟨s, hreturned, (wait_loses_no_wake_up hstart
    (Run.of_foldlM hrun)).2.1⟩
