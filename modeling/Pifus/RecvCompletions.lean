import Mathlib.Algebra.BigOperators.Group.List.Basic
import Pifus.RecvRuns

/-!
# When a recv operation completes

A recv operation is to complete when its bytes have arrived: the bytes lwIP
has handed out serve the operations in the order they were submitted, each with
its size. The history of `Pifus.RecvRuns` is extended by the numbers of the
operations completed, in the order their `TCP_RECV` results were handed over.

The size of an operation is a `size_t`, and `len_needed_recv` holds its low
half-word. Below 2^16 the two are the same. Then the operations are always a
completed part in front of a pending one (`CompletionInv`): of the pending
ones only the first has got bytes, and while there is one the byte buffer is
empty.
-/

/-- The receive path and the numbers of the operations that completed with
`PIFUS_OK`, in the order they did. -/
structure RecvHistory where
  path : RecvState
  completed : List ℕ

/-- The operations that a step completes. -/
def completedIn (s : RecvState) : RecvInput → List ℕ
  | .recv recvBlockOffset size =>
    if (txTcpRecv s.socket recvBlockOffset size).1.resultCode = .ok
    then [s.ops.length] else []
  | .deliver p =>
    match tcpRecvCallback (some s.socket) (some p) .ok with
    | some r => completedBy s.ops r.2.2
    | none => []

/-- A step of the receive path. -/
def recvHistoryStep (h : RecvHistory) (i : RecvInput) : Option RecvHistory :=
  (recvStep h.path i).map (fun path =>
    ⟨path, h.completed ++ completedIn h.path i⟩)

/-- The steps as a relation. -/
def RecvHistoryStep (h : RecvHistory) (i : RecvInput) (h' : RecvHistory) :
    Prop :=
  recvHistoryStep h i = some h'

namespace RecvHistory

/-- A socket that has just been set up. -/
def initial (queue : ℕ → PifusRecvQueueEntry) (buffer : Memory) : RecvHistory :=
  ⟨.initial queue buffer, []⟩

/-- A recv operation asks for at least one byte, and does not end in
`PIFUS_ERR`. -/
def Accepted (h : RecvHistory) : RecvInput → Prop
  | .recv recvBlockOffset size => 1 ≤ size
    ∧ (txTcpRecv h.path.socket recvBlockOffset size).1.resultCode ≠ .err
  | .deliver _ => True

/-- The requested size fits `len_needed_recv`. -/
def ShortRequest : RecvInput → Prop
  | .recv _ size => size < 2 ^ 16
  | .deliver _ => True

instance (h : RecvHistory) (i : RecvInput) : Decidable (h.Accepted i) := by
  cases i <;> unfold Accepted <;> infer_instance

instance (i : RecvInput) : Decidable (ShortRequest i) := by
  cases i <;> unfold ShortRequest <;> infer_instance

/-- The bytes that the operations up to number `i` ask for. -/
def requested (h : RecvHistory) (i : ℕ) : ℕ :=
  ((h.path.ops.take (i + 1)).map RecvOp.size).sum

/-- **The bytes taken from lwIP complete the operations in order**: the
operation number `i` is completed as soon as the bytes taken are what is asked
for up to it, and it has got its size. -/
structure CompletesExactly (h : RecvHistory) : Prop where
  inOrder : h.completed = List.range h.completed.length
  arrived : ∀ i, i < h.path.ops.length →
    (i ∈ h.completed ↔ h.requested i ≤ h.path.recved)
  bytes : ∀ i ∈ h.completed, ∃ op, h.path.ops[i]? = some op
    ∧ op.bytes.length = op.size

end RecvHistory

/-- **The invariant**: the operations completed are those in front of the
pending ones. -/
structure CompletionInv (ops : List RecvOp) (completed : List ℕ) : Prop where
  split : ∃ done later, ops = done ++ later
    ∧ completed = List.range done.length
    ∧ (∀ op ∈ done, op.pending = false ∧ op.bytes.length = op.size)
    ∧ ∀ op ∈ later, op.pending = true ∧ op.bytes.length < op.size
      ∧ op.size < 2 ^ 16

/-! ## The steps -/

/-- The completed operations in front of the first pending one. -/
theorem CompletionInv.split_at {done later : List RecvOp} {op : RecvOp}
    {completed : List ℕ} (h : CompletionInv (done ++ op :: later) completed)
    (hdone : ∀ o ∈ done, o.pending = false) (hop : op.pending = true) :
    completed = List.range done.length
    ∧ (∀ o ∈ done, o.pending = false ∧ o.bytes.length = o.size)
    ∧ ∀ o ∈ op :: later, o.pending = true ∧ o.bytes.length < o.size
      ∧ o.size < 2 ^ 16 := by
  obtain ⟨done', later', hops, hcompleted, hfull, hpending⟩ := h.split
  rcases List.append_eq_append_iff.mp hops with ⟨c, rfl, hc⟩ | ⟨c, rfl, rfl⟩
  · cases c with
    | nil =>
      rw [List.append_nil] at hcompleted hfull
      rw [hc]
      exact ⟨hcompleted, hfull, hpending⟩
    | cons o c =>
      obtain ⟨rfl, -⟩ := List.cons.inj hc
      have hnot := (hfull op (by simp)).1
      exact absurd (hop.symm.trans hnot) (by simp)
  · cases c with
    | nil =>
      rw [List.append_nil]
      exact ⟨hcompleted, hfull, hpending⟩
    | cons o c =>
      have hpend := (hpending o (by simp)).1
      exact absurd (hpend.symm.trans (hdone o (by simp))) (by simp)

/-- **A turn of the matching loop keeps the invariant.** What the operation
needs is what is missing of its size. -/
theorem CompletionInv.serve {a b : List RecvOp × List ℕ}
    {available : List UInt8} (h : CompletionInv a.1 a.2)
    (hs : ServeStep a available b) : CompletionInv b.1 b.2 := by
  obtain ⟨done, op, later, hsplit, hdone, hop, rfl⟩ := hs
  rw [hsplit] at h
  obtain ⟨hcompleted, hfull, hpending⟩ := h.split_at hdone hop
  obtain ⟨hopInv, hlater⟩ := List.forall_mem_cons.mp hpending
  obtain ⟨-, hlt, hsize⟩ := hopInv
  have hneeded : op.needed = op.size - op.bytes.length := by
    unfold RecvOp.needed
    exact Nat.mod_eq_of_lt (by omega)
  have hlength : (op.bytes ++ available.take op.needed).length
      = op.bytes.length + min op.needed available.length := by
    rw [List.length_append, List.length_take]
  by_cases hall : op.needed ≤ available.length
  · -- it completes
    refine ⟨done ++ [_], later, (List.append_assoc _ [_] later).symm, ?_, ?_,
      hlater⟩
    · rw [hcompleted, if_pos hall, List.length_append, List.length_singleton,
        List.range_succ]
    · rw [List.forall_mem_append]
      refine ⟨hfull, fun o ho => ?_⟩
      obtain rfl := List.mem_singleton.mp ho
      refine ⟨decide_eq_false (Nat.not_lt.mpr hall), hlength.trans ?_⟩
      show _ = op.size
      omega
  · refine ⟨done, _ :: later, rfl, ?_, hfull, ?_⟩
    · rw [hcompleted, if_neg hall, List.append_nil]
    · rw [List.forall_mem_cons]
      refine ⟨⟨decide_eq_true (Nat.not_le.mp hall), hlength.trans_lt ?_, hsize⟩,
        hlater⟩
      show _ < op.size
      omega

/-- **A new operation keeps the invariant**: it gets bytes from the buffer only
if none is pending, and what it gets completes it or is less than it asks
for. -/
theorem CompletionInv.submit {ops : List RecvOp} {completed : List ℕ}
    {queue : RingBuffer PifusRecvQueueEntry} {buffer : PifusByteBuffer}
    {rest stream popped : List UInt8} {off size : ℕ} {result : PifusResultCode}
    (h : CompletionInv ops completed)
    (hinv : RecvInv ops queue buffer rest stream)
    (hpos : 1 ≤ size) (hsize : size < 2 ^ 16)
    (hpre : popped <+: buffer.contents) (hle : popped.length ≤ size % 2 ^ 16)
    (hresult : result = .ok ∧ 0 < popped.length ∧ popped.length = size
      ∨ result = .async ∧ ¬ (0 < popped.length ∧ popped.length = size)) :
    CompletionInv (ops ++ [⟨off, size, popped, decide (result = .async)⟩])
      (completed ++ if result = .ok then [ops.length] else []) := by
  obtain ⟨done, later, rfl, hcompleted, hfull, hpending⟩ := h.split
  rw [Nat.mod_eq_of_lt hsize] at hle
  rcases hresult with ⟨rfl, hgot, hall⟩ | ⟨rfl, hnot⟩
  · -- the buffer was not empty, so no operation waits
    have hne : buffer.contents ≠ [] := by
      intro hnil
      rw [hnil] at hpre
      have hlen := hpre.length_le
      rw [List.length_nil] at hlen
      omega
    have hlater : later = [] := by
      refine List.eq_nil_iff_forall_not_mem.mpr (fun o ho => ?_)
      obtain ⟨hpend, hlt, hsmall⟩ := hpending o ho
      have hneeded := hinv.satisfied hne o (List.mem_append_right _ ho) hpend
      rw [RecvOp.needed, Nat.mod_eq_of_lt (by omega)] at hneeded
      omega
    subst hlater
    rw [List.append_nil]
    refine ⟨done ++ [_], [], (List.append_nil _).symm, ?_, ?_, by simp⟩
    · rw [if_pos rfl, hcompleted, List.length_append, List.length_singleton,
        List.range_succ]
    · rw [List.forall_mem_append]
      refine ⟨hfull, fun o ho => ?_⟩
      obtain rfl := List.mem_singleton.mp ho
      exact ⟨rfl, hall⟩
  · refine ⟨done, later ++ [_], List.append_assoc _ _ _, ?_, hfull, ?_⟩
    · rw [if_neg (by simp), List.append_nil, hcompleted]
    · rw [List.forall_mem_append]
      refine ⟨hpending, fun o ho => ?_⟩
      obtain rfl := List.mem_singleton.mp ho
      refine ⟨rfl, ?_, hsize⟩
      show popped.length < size
      omega

/-- **Every step keeps the invariant**, as long as the requested sizes are
short. -/
theorem CompletionInv.step {h h' : RecvHistory} {i : RecvInput}
    (hc : CompletionInv h.path.ops h.completed) (hinv : RecvRunInv h.path)
    (haccepted : h.Accepted i) (hshort : RecvHistory.ShortRequest i)
    (hs : RecvHistoryStep h i h') :
    CompletionInv h'.path.ops h'.completed := by
  obtain ⟨path, hpath, rfl⟩ := Option.map_eq_some_iff.mp hs
  cases i with
  | recv off size =>
    obtain ⟨r, s', popped, heq, -, -, hpre, hle, hresult⟩ :=
      txTcpRecv_spec hinv.inv off size
    obtain ⟨hpos, herr⟩ := haccepted
    rw [recvStep] at hpath
    rw [heq] at hpath herr
    obtain rfl := Option.some.inj hpath
    have hin : completedIn h.path (.recv off size)
        = if r.resultCode = .ok then [h.path.ops.length] else [] := by
      rw [completedIn, heq]
    show CompletionInv (h.path.ops ++ [_]) (h.completed ++ completedIn h.path _)
    rw [hin]
    refine hc.submit hinv.inv hpos hshort hpre hle
      (hresult.imp_right (fun hr => ⟨hr.1.resolve_right herr, hr.2⟩))
  | deliver p =>
    obtain ⟨err, s', events, served, hcallback, hops, hserved⟩ :=
      hinv.served hpath
    have hin : completedIn h.path (.deliver p)
        = completedBy h.path.ops events := by
      rw [completedIn, hcallback]
    show CompletionInv path.ops (h.completed ++ completedIn h.path _)
    rw [hin]
    exact (hserved h.completed).invariant
      (fun a => CompletionInv a.1 a.2) hc (fun _ _ _ ha hserve => ha.serve hserve)

/-! ## Runs -/

theorem RecvRunInv.recved_eq {s : RecvState} (h : RecvRunInv s) :
    s.recved = (s.ops.map (fun op => op.bytes.length)).sum
      + s.socket.recvBuffer.contents.length := by
  have hlength := congrArg List.length h.inv.lossless
  rw [List.length_append, List.length_append, List.length_flatMap,
    ← h.recved] at hlength
  omega

theorem sum_size_eq {done : List RecvOp}
    (h : ∀ op ∈ done, op.pending = false ∧ op.bytes.length = op.size) :
    (done.map RecvOp.size).sum
      = (done.map (fun op => op.bytes.length)).sum :=
  congrArg List.sum (List.map_congr_left (fun op hop => (h op hop).2.symm))

/-- **What the invariant says about the bytes**: the first pending operation
misses some, and those behind it have none. -/
theorem CompletionInv.completesExactly {h : RecvHistory}
    (hc : CompletionInv h.path.ops h.completed) (hinv : RecvRunInv h.path) :
    h.CompletesExactly := by
  obtain ⟨done, later, hops, hcompleted, hfull, hpending⟩ := hc.split
  have hrecved := hinv.recved_eq
  rw [hops, List.map_append, List.sum_append] at hrecved
  refine ⟨?_, fun i hi => ?_, fun i hi => ?_⟩
  · rw [hcompleted, List.length_range]
  · rw [hcompleted, List.mem_range]
    unfold RecvHistory.requested
    constructor
    · intro hlt
      have hsum := congrArg List.sum (congrArg (List.map RecvOp.size)
        (List.take_append_drop (i + 1) done))
      rw [List.map_append, List.sum_append, sum_size_eq hfull] at hsum
      rw [hops, List.take_append_of_le_length (i := i + 1) hlt, hrecved]
      omega
    · intro hle
      by_contra hge
      rw [hops, List.length_append] at hi
      obtain ⟨op, rest, rfl⟩ := List.exists_cons_of_length_pos
        (show 0 < later.length by omega)
      obtain ⟨hop, hlt, hsmall⟩ := hpending op List.mem_cons_self
      have hneeded : op.needed ≠ 0 := by
        rw [RecvOp.needed, Nat.mod_eq_of_lt (by omega)]
        omega
      have hbuffer : h.path.socket.recvBuffer.contents = [] := by
        by_contra hne
        exact hneeded (hinv.inv.satisfied hne op (by rw [hops]; simp) hop)
      have hordered := hinv.inv.ordered
      rw [hops] at hordered
      have hnone : (rest.map (fun op => op.bytes.length)).sum = 0 := by
        refine List.sum_eq_zero (fun n hn => ?_)
        obtain ⟨b, hb, rfl⟩ := List.mem_map.mp hn
        rw [(List.pairwise_cons.mp (List.pairwise_append.mp hordered).2.1).1 b
          hb hop hneeded]
        rfl
      have htake : (done ++ op :: rest).take (i + 1)
          = done ++ op :: rest.take (i - done.length) := by
        rw [List.take_append, List.take_of_length_le (by omega),
          Nat.succ_sub (by omega), List.take_succ_cons]
      rw [hops, htake, List.map_append, List.sum_append, List.map_cons,
        List.sum_cons, sum_size_eq hfull] at hle
      rw [hbuffer, List.map_cons, List.sum_cons, hnone, List.length_nil]
        at hrecved
      omega
  · rw [hcompleted, List.mem_range] at hi
    refine ⟨done[i], ?_, (hfull _ (List.getElem_mem hi)).2⟩
    rw [hops, List.getElem?_append_left hi, List.getElem?_eq_getElem hi]

/-- **Recv operations complete exactly when their bytes have arrived**, in
every run in which no requested size is cut off: in the order of submission,
each with its size, and as soon as lwIP has handed out the bytes. -/
theorem recv_completes_exactly {queue : ℕ → PifusRecvQueueEntry}
    {buffer : Memory} {h : RecvHistory} {is : List RecvInput}
    (hrun : Run (Guarded (fun h i => h.Accepted i
        ∧ RecvHistory.ShortRequest i) RecvHistoryStep)
      (RecvHistory.initial queue buffer) is h) :
    h.CompletesExactly := by
  have hinv : RecvRunInv h.path ∧ CompletionInv h.path.ops h.completed := by
    refine hrun.invariant (fun h => RecvRunInv h.path
      ∧ CompletionInv h.path.ops h.completed)
      ⟨recvRunInv_initial queue buffer, ⟨[], [], rfl, rfl, by simp, by simp⟩⟩ ?_
    rintro h i h' ⟨hinv, hc⟩ ⟨⟨haccepted, hshort⟩, hs⟩
    refine ⟨?_, hc.step hinv haccepted hshort hs⟩
    obtain ⟨path, hpath, rfl⟩ := Option.map_eq_some_iff.mp hs
    exact hinv.step hpath
  exact hinv.2.completesExactly hinv.1

/-- Operations of three and of two bytes, and a chain of four. -/
theorem recv_completes_exactly_two :
    ∃ h : RecvHistory, h.completed = [0] ∧ h.path.recved = 4
      ∧ h.CompletesExactly := by
  have hs : ([.recv 0 3, .recv 40 2, .deliver ⟨[[1, 2], [], [3, 4]], by decide⟩
      ].foldlM (guardedStep (fun h i => h.Accepted i
        ∧ RecvHistory.ShortRequest i) recvHistoryStep)
      (RecvHistory.initial (fun _ => ⟨0, 0, 0⟩) (fun _ => 0))).any
      (fun h => h.completed = [0] ∧ h.path.recved = 4) = true := by
    decide +kernel
  obtain ⟨h, hrun, hp⟩ := (Option.any_eq_true _ _).mp hs
  obtain ⟨hcompleted, hrecved⟩ := of_decide_eq_true hp
  exact ⟨h, hcompleted, hrecved,
    recv_completes_exactly (Run.guarded_of_foldlM hrun)⟩

/-- **A request of 2^16 + 1 bytes completes with the first byte**, because
`len_needed_recv` is one. -/
theorem long_request_completes_early :
    ∃ (is : List RecvInput) (h : RecvHistory),
      Run (Guarded RecvHistory.Accepted RecvHistoryStep)
        (RecvHistory.initial (fun _ => ⟨0, 0, 0⟩) (fun _ => 0)) is h
      ∧ is.length = 2 ∧ h.completed = [0] ∧ h.path.recved = 1
      ∧ h.requested 0 = 65537 ∧ ¬ h.CompletesExactly := by
  have hs : ([.recv 0 65537, .deliver ⟨[[7]], by decide⟩].foldlM
      (guardedStep RecvHistory.Accepted recvHistoryStep)
      (RecvHistory.initial (fun _ => ⟨0, 0, 0⟩) (fun _ => 0))).any
      (fun h => h.completed = [0] ∧ h.path.recved = 1
        ∧ h.requested 0 = 65537 ∧ h.path.ops.length = 1) = true := by
    decide +kernel
  obtain ⟨h, hrun, hp⟩ := (Option.any_eq_true _ _).mp hs
  obtain ⟨hcompleted, hrecved, hrequested, hlength⟩ := of_decide_eq_true hp
  refine ⟨_, h, Run.guarded_of_foldlM hrun, rfl, hcompleted, hrecved,
    hrequested, fun hexact => ?_⟩
  have hle := (hexact.arrived 0 (by omega)).mp (by rw [hcompleted]; simp)
  omega
