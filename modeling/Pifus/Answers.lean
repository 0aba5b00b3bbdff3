import Pifus.BlockOwners
import Pifus.Pipeline
import Pifus.Util.AnswerQueue

/-!
# The answers of the stack

`pifus_socket_recv` and `pifus_socket_write` return before the stack has seen the
operation, and hand out no number by which its result could be told from that of
another one. An app can only count. This works for what succeeds: of each kind,
the results with `PIFUS_OK` come in the order of the calls
(`answers_come_in_order`), although operations wait in the squeue, in `tx_queue`
and in the recv or the write queue, and one that is refused is answered at once,
past those in front of it.

With its offset a result does say which block it is about, and which operation
that is. The history of the app is kept beside the data path (`Pifus.DataPath`):
the operations it has submitted to each socket, and the results it has popped.
-/

/-! ## The data path with the history of its app -/

/-- The data path, and what its app has submitted and popped. -/
structure CallHistory where
  state : DataState
  /-- The operations submitted to a socket, in the order of the calls. -/
  calls : ℕ → List DataOperation
  /-- The results popped from a socket, oldest first. -/
  answers : ℕ → List (PifusOperationResult ℕ)

/-- The socket with a number. One that is not open yet is as it will be. -/
def DataState.socketAt (s : DataState) (k : ℕ) : DataSocket :=
  (s.sockets[k]?).getD .initial

/-- The operations that a step submits, when it takes the socket from `c` to
`c'`. -/
def DataSocket.submitted (c : DataSocket) (e : DataEvent) (c' : DataSocket) :
    List DataOperation :=
  match e with
  | .recv _ _ | .write _ _ => c'.ops.drop c.ops.length
  | _ => []

/-- The result that a step pops. -/
def DataSocket.poppedBy (c : DataSocket) (e : DataEvent) :
    List (PifusOperationResult ℕ) :=
  match e with
  | .pop _ => (c.cqueue.get.map Prod.fst).toList
  | _ => []

namespace CallHistory

/-- Nothing has happened. -/
def initial : CallHistory := ⟨.initial, fun _ => [], fun _ => []⟩

/-- The history after a step that leads to the state `t`. -/
def record (h : CallHistory) (e : DataEvent) (t : DataState) : CallHistory where
  state := t
  calls := fun k => h.calls k ++
    if e.on = some k then (h.state.socketAt k).submitted e (t.socketAt k) else []
  answers := fun k => h.answers k ++
    if e.on = some k then (h.state.socketAt k).poppedBy e else []

end CallHistory

/-- A step of the data path. -/
def callHistoryStep (app : AppRegion) (h : CallHistory) (e : DataEvent) :
    Option CallHistory :=
  (dataStep app h.state e).map (h.record e)

/-- The steps as a relation. -/
def CallHistoryStep (app : AppRegion) (h : CallHistory) (e : DataEvent)
    (h' : CallHistory) : Prop :=
  callHistoryStep app h e = some h'

/-! ## Operations that wait for an answer -/

/-- The kinds of operations on the data path. -/
inductive DataKind
  | recv | write
  deriving DecidableEq

namespace DataKind

/-- The operation code. -/
def code : DataKind → PifusOperationCode
  | recv => .tcpRecv
  | write => .tcpWrite

/-- The block offset of an operation of the kind. -/
def offset : DataKind → DataOperation → Option ℕ
  | recv, .recv recvBlockOffset _ => some recvBlockOffset
  | write, .write blockOffset => some blockOffset
  | _, _ => none

/-- What a call is for the operations of the kind. -/
def call (kind : DataKind) (op : DataOperation) : AnswerEvent ℕ :=
  match kind.offset op with
  | some blockOffset => .call blockOffset
  | none => .stay

/-- What a result is for the operations of the kind. -/
def answer (kind : DataKind) (result : PifusOperationResult ℕ) :
    AnswerEvent ℕ :=
  if result.code = kind.code then
    if result.resultCode = .ok then .serve result.data else .refuse result.data
  else .stay

@[simp] theorem offset_recv (kind : DataKind) (recvBlockOffset size : ℕ) :
    kind.offset (.recv recvBlockOffset size)
      = if kind = .recv then some recvBlockOffset else none := by
  cases kind <;> rfl

@[simp] theorem offset_write (kind : DataKind) (blockOffset : ℕ) :
    kind.offset (.write blockOffset)
      = if kind = .write then some blockOffset else none := by
  cases kind <;> rfl

theorem answer_code (kind : DataKind) (resultCode : PifusResultCode)
    (blockOffset : ℕ) : kind.answer ⟨kind.code, resultCode, blockOffset⟩
      = if resultCode = .ok then .serve blockOffset else .refuse blockOffset :=
  if_pos rfl

/-- What calls and then results are. -/
def events (kind : DataKind) (calls : List DataOperation)
    (results : List (PifusOperationResult ℕ)) : List (AnswerEvent ℕ) :=
  calls.map kind.call ++ results.map kind.answer

/-- The block offset of a result with `PIFUS_OK`. -/
def served (kind : DataKind) (result : PifusOperationResult ℕ) : Option ℕ :=
  (kind.answer result).served

/-- The block offset of a result. -/
def answered (kind : DataKind) (result : PifusOperationResult ℕ) : Option ℕ :=
  (kind.answer result).answered

end DataKind

namespace DataSocket

/-- The operations that the stack has taken and not answered. -/
def queued (c : DataSocket) : DataKind → List ℕ
  | .recv => c.recv.path.socket.recvQueue.contents.map
      PifusRecvQueueEntry.recvBlockOffset
  | .write => c.writeQueue.contents.map PifusWriteQueueEntry.writeBlockOffset

/-- **The operations of a kind that have no answer yet.** -/
def unanswered (c : DataSocket) (kind : DataKind) : List ℕ :=
  c.queued kind ++ c.ops.filterMap kind.offset

end DataSocket

namespace DataKind

variable {kind : DataKind} {calls : List DataOperation}
  {results : List (PifusOperationResult ℕ)}

theorem called_events : (kind.events calls results).filterMap AnswerEvent.called
    = calls.filterMap kind.offset := by
  have hcall : ∀ op, (kind.call op).called = kind.offset op := by
    intro op
    unfold call
    cases kind.offset op <;> rfl
  have hanswer : ∀ result, (kind.answer result).called = none := by
    intro result
    unfold answer
    split
    · split <;> rfl
    · rfl
  rw [events, List.filterMap_append, List.filterMap_map, List.filterMap_map]
  simp only [Function.comp_def, hcall, hanswer, List.filterMap_none,
    List.append_nil]

theorem answers_events {f : AnswerEvent ℕ → Option ℕ}
    (hcall : ∀ blockOffset, f (.call blockOffset) = none) (hstay : f .stay = none) :
    (kind.events calls results).filterMap f
      = results.filterMap (fun result => f (kind.answer result)) := by
  have hnone : ∀ op, f (kind.call op) = none := by
    intro op
    unfold call
    cases kind.offset op with
    | none => exact hstay
    | some blockOffset => exact hcall blockOffset
  rw [events, List.filterMap_append, List.filterMap_map, List.filterMap_map]
  simp only [Function.comp_def, hnone, List.filterMap_none, List.nil_append]

end DataKind

/-! ## Results -/

section Results

variable {c c' : DataSocket} {results : List (PifusOperationResult ℕ)}
  {kind : DataKind}

/-- **Results are handed over**: some go to the completion queue, in their order,
and the others are dropped. -/
def DataSocket.HandsOver (c c' : DataSocket)
    (results : List (PifusOperationResult ℕ)) : Prop :=
  ∃ kept lost, c'.cqueue.contents = c.cqueue.contents ++ kept
    ∧ c'.dropped = c.dropped ++ lost ∧ kept.Sublist results
    ∧ (kept ++ lost).Perm results

theorem DataSocket.HandsOver.nil (hcqueue : c'.cqueue = c.cqueue)
    (hdropped : c'.dropped = c.dropped) : c.HandsOver c' [] :=
  ⟨[], [], by rw [hcqueue, List.append_nil], by rw [hdropped, List.append_nil],
    List.Sublist.refl _, List.Perm.refl _⟩

theorem DataSocket.handsOver_enqueueInCqueue (c : DataSocket)
    (result : PifusOperationResult ℕ) :
    c.HandsOver (c.enqueueInCqueue result) [result] := by
  unfold enqueueInCqueue
  split
  · rename_i queue hput
    exact ⟨[result], [], RingBuffer.contents_put hput, (List.append_nil _).symm,
      List.Sublist.refl _, List.Perm.refl _⟩
  · exact ⟨[], [result], (List.append_nil _).symm, rfl, List.nil_sublist _,
      List.Perm.refl _⟩

/-- The results of completed operations. -/
theorem DataSocket.handsOver_complete (c : DataSocket) (code : PifusOperationCode)
    (offsets : List ℕ) : c.HandsOver (c.complete code offsets)
      (offsets.map (fun offset => ⟨code, .ok, offset⟩)) := by
  induction offsets generalizing c with
  | nil => exact .nil rfl rfl
  | cons offset offsets ih =>
    obtain ⟨kept, lost, hcqueue, hdropped, hsub, hperm⟩ :=
      c.handsOver_enqueueInCqueue ⟨code, .ok, offset⟩
    obtain ⟨kept', lost', hcqueue', hdropped', hsub', hperm'⟩ :=
      ih (c.enqueueInCqueue ⟨code, .ok, offset⟩)
    refine ⟨kept ++ kept', lost ++ lost', ?_, ?_, hsub.append hsub', ?_⟩
    · rw [← List.append_assoc, ← hcqueue]
      exact hcqueue'
    · rw [← List.append_assoc, ← hdropped]
      exact hdropped'
    · refine List.Perm.trans ?_ (hperm.append hperm')
      simp only [List.append_assoc]
      exact List.Perm.append_left _ (List.perm_append_comm_assoc _ _ _)

theorem DataSocket.unanswered_enqueueInCqueue (c : DataSocket)
    (result : PifusOperationResult ℕ) :
    (c.enqueueInCqueue result).unanswered kind = c.unanswered kind := by
  unfold enqueueInCqueue
  cases kind <;> split <;> rfl

theorem DataSocket.unanswered_complete (c : DataSocket) (code : PifusOperationCode)
    (offsets : List ℕ) :
    (c.complete code offsets).unanswered kind = c.unanswered kind := by
  induction offsets generalizing c with
  | nil => rfl
  | cons offset offsets ih =>
    exact (ih _).trans (c.unanswered_enqueueInCqueue _)

end Results

/-! ## Requests that fit `len_needed_recv` -/

section Short

variable {app : AppRegion} {c c' : DataSocket} {h h' : HeapState} {e : DataEvent}

/-- An operation that waits lacks some of its bytes. -/
def Lacking (op : RecvOp) : Prop :=
  op.pending = true → op.bytes.length < op.size ∧ op.size < 2 ^ 16

/-- **The recv operations of a socket are short**, those that were submitted and
those that wait. -/
structure ShortInv (c : DataSocket) : Prop where
  path : RecvRunInv c.recv.path
  submitted : ∀ off size, .recv off size ∈ c.ops → 0 < size ∧ size < 2 ^ 16
  waiting : ∀ op ∈ c.recv.path.ops, Lacking op

/-- What a turn of the matching loop does not complete lacks more. -/
theorem lacking_serve {a b : List RecvOp × List ℕ} {available : List UInt8}
    (hs : ServeStep a available b) (h : ∀ op ∈ a.1, Lacking op) :
    ∀ op ∈ b.1, Lacking op := by
  obtain ⟨done, op, later, hsplit, -, hop, rfl⟩ := hs
  rw [hsplit] at h
  obtain ⟨hdone, hrest⟩ := List.forall_mem_append.mp h
  obtain ⟨hlacks, hlater⟩ := List.forall_mem_cons.mp hrest
  refine List.forall_mem_append.mpr
    ⟨hdone, List.forall_mem_cons.mpr ⟨fun hpending => ?_, hlater⟩⟩
  obtain ⟨hlt, hsize⟩ := hlacks hop
  have hneeded : op.needed = op.size - op.bytes.length :=
    Nat.mod_eq_of_lt (by omega)
  have hmore : available.length < op.needed := of_decide_eq_true hpending
  refine ⟨?_, hsize⟩
  show (op.bytes ++ available.take op.needed).length < op.size
  rw [List.length_append, List.length_take]
  omega

/-- **What is filled from the buffer does not overtake**: where `tx_tcp_recv`
returns `PIFUS_OK`, no operation waits. -/
theorem ShortInv.queue_nil (h : ShortInv c) {off size : ℕ}
    (hok : (txTcpRecv c.recv.path.socket off size).1.resultCode = .ok) :
    c.recv.path.socket.recvQueue.contents = [] := by
  obtain ⟨r, socket', popped, heq, -, -, hpre, -, hresult⟩ :=
    txTcpRecv_spec h.path.inv off size
  rw [heq] at hok
  have hgot : 0 < popped.length := by
    rcases hresult with ⟨-, hgot, -⟩ | ⟨hasync | herr, -⟩
    · exact hgot
    · exact absurd (hok.symm.trans hasync) (by simp)
    · exact absurd (hok.symm.trans herr) (by simp)
  have hbuffer : c.recv.path.socket.recvBuffer.contents ≠ [] := by
    intro hnil
    rw [hnil] at hpre
    exact absurd hpre.length_le (Nat.not_le_of_lt hgot)
  rw [h.path.inv.queue, List.map_eq_nil_iff, List.filter_eq_nil_iff]
  intro op hop hpending
  obtain ⟨hlt, hsize⟩ := h.waiting op hop hpending
  have hneeded := h.path.inv.satisfied hbuffer op hop hpending
  rw [RecvOp.needed, Nat.mod_eq_of_lt (by omega)] at hneeded
  omega

/-- A step of the receive path keeps the invariant. -/
theorem ShortInv.recv_step {i : RecvInput} {recv : RecvHistory}
    (h : ShortInv c) (hi : ∀ off size, i = .recv off size → 0 < size ∧ size < 2 ^ 16)
    (hs : recvHistoryStep c.recv i = some recv) :
    RecvRunInv recv.path ∧ ∀ op ∈ recv.path.ops, Lacking op := by
  obtain ⟨path, hpath, rfl⟩ := Option.map_eq_some_iff.mp hs
  refine ⟨h.path.step hpath, ?_⟩
  cases i with
  | recv off size =>
    obtain ⟨hpos, hshort⟩ := hi off size rfl
    obtain ⟨r, socket', popped, heq, -, -, -, hle, hresult⟩ :=
      txTcpRecv_spec h.path.inv off size
    rw [recvStep, heq] at hpath
    obtain rfl := Option.some.inj hpath
    refine List.forall_mem_append.mpr ⟨h.waiting, List.forall_mem_singleton.mpr
      (fun hpending => ⟨?_, hshort⟩)⟩
    have hasync : r.resultCode = .async := of_decide_eq_true hpending
    rw [Nat.mod_eq_of_lt hshort] at hle
    show popped.length < size
    rcases hresult with ⟨hok, -⟩ | ⟨-, hnot⟩
    · exact absurd (hasync.symm.trans hok) (by simp)
    · omega
  | deliver p =>
    obtain ⟨err, s', events, served, -, -, hserved⟩ := h.path.served hpath
    exact (hserved []).invariant (fun a => ∀ op ∈ a.1, Lacking op) h.waiting
      (fun _ _ _ ha hserve => lacking_serve hserve ha)

theorem ShortInv.enqueueInCqueue (h : ShortInv c)
    (result : PifusOperationResult ℕ) : ShortInv (c.enqueueInCqueue result) := by
  obtain ⟨queue, dropped, heq, -⟩ := c.enqueueInCqueue_eq result
  rw [heq]
  exact ⟨h.path, h.submitted, h.waiting⟩

theorem ShortInv.complete (h : ShortInv c) (code : PifusOperationCode)
    (offsets : List ℕ) : ShortInv (c.complete code offsets) := by
  induction offsets generalizing c with
  | nil => exact h
  | cons offset offsets ih => exact ih (h.enqueueInCqueue _)

/-- **Every step of a socket keeps its requests short**, if those of the app
are. -/
theorem SocketStep.short (hs : SocketStep app h c e h' c') (hc : ShortInv c)
    (hshort : ∀ k size, e = .recv k size → size < 2 ^ 16) : ShortInv c' := by
  cases hs with
  | @recv k size _ _ _ hsize hcall =>
    refine ⟨hc.path, fun off size' hop => ?_, hc.waiting⟩
    rcases List.mem_append.mp hop with hop | hop
    · exact hc.submitted off size' hop
    · obtain ⟨-, rfl⟩ := DataOperation.recv.inj (List.mem_singleton.mp hop)
      exact ⟨hsize.1, hshort k _ rfl⟩
  | write hsize hcall =>
    refine ⟨hc.path, fun off size hop => ?_, hc.waiting⟩
    rcases List.mem_append.mp hop with hop | hop
    · exact hc.submitted off size hop
    · exact absurd (List.mem_singleton.mp hop) (by simp)
  | @processRecv _ off size recvScan _ _ hop hs =>
    unfold DataSocket.processRecv at hs
    obtain ⟨recv, hrecv, rfl⟩ := Option.map_eq_some_iff.mp hs
    have hsubmitted := hc.submitted off size (List.mem_of_getElem? hop)
    obtain ⟨hpath, hwaiting⟩ := hc.recv_step (fun off' size' hi => by
      obtain ⟨-, rfl⟩ := RecvInput.recv.inj hi
      exact hsubmitted) hrecv
    have hrest : ShortInv { c with
        ops := c.ops.eraseIdx (c.next recvScan), recv := recv } :=
      ⟨hpath, fun off size hmem => hc.submitted off size
        (List.mem_of_mem_eraseIdx hmem), hwaiting⟩
    dsimp only
    split
    · exact hrest.enqueueInCqueue _
    · exact hrest
  | processWrite hop hs =>
    unfold DataSocket.processWrite
    split
    · exact hc
    · have hrest : ∀ off size, .recv off size ∈ c.ops.tail → 0 < size ∧ size < 2 ^ 16 :=
        fun off size hmem => hc.submitted off size (List.mem_of_mem_tail hmem)
      dsimp only
      split
      · refine ShortInv.enqueueInCqueue ?_ _
        exact ⟨hc.path, hrest, hc.waiting⟩
      · exact ⟨hc.path, hrest, hc.waiting⟩
  | deliver hs =>
    obtain ⟨hpath, hwaiting⟩ := hc.recv_step (fun _ _ hi => absurd hi (by simp)) hs
    refine ShortInv.complete ?_ _ _
    exact ⟨hpath, hc.submitted, hwaiting⟩
  | sent hs =>
    unfold DataSocket.sent at hs
    split at hs
    · obtain ⟨r, -, hs⟩ := Option.bind_eq_some_iff.mp hs
      split at hs
      · exact absurd hs (by simp)
      · obtain rfl := Option.some.inj hs
        refine ShortInv.complete ?_ _ _
        exact ⟨hc.path, hc.submitted, hc.waiting⟩
    · exact absurd hs (by simp)
  | result hnone => exact hc.enqueueInCqueue _
  | popWrite hget hcode => exact ⟨hc.path, hc.submitted, hc.waiting⟩
  | popRecv hget hcode => exact ⟨hc.path, hc.submitted, hc.waiting⟩
  | popOther hget hnone => exact ⟨hc.path, hc.submitted, hc.waiting⟩

theorem shortInv_initial : ShortInv .initial :=
  ⟨recvRunInv_initial _ _, by simp [DataSocket.initial],
    fun op hop => absurd hop (by
      simp [DataSocket.initial, RecvHistory.initial, RecvState.initial])⟩

end Short

/-! ## A step of a socket -/

section Socket

variable {app : AppRegion} {c c' : DataSocket} {h h' : HeapState} {e : DataEvent}
  {kind : DataKind} {results : List (PifusOperationResult ℕ)}

/-- **What a step comes to for the app**: operations are submitted, results are
handed over, and one is popped. -/
def Answers (kind : DataKind) (c : DataSocket) (e : DataEvent) (c' : DataSocket) :
    Prop :=
  ∃ results kept lost,
    Run AnswerStep (c.unanswered kind) (kind.events (c.submitted e c') results)
      (c'.unanswered kind)
    ∧ c.cqueue.contents ++ kept = c.poppedBy e ++ c'.cqueue.contents
    ∧ c'.dropped = c.dropped ++ lost ∧ kept.Sublist results
    ∧ (kept ++ lost).Perm results

theorem Answers.of_handsOver (hsubmitted : c.submitted e c' = [])
    (hpopped : c.poppedBy e = []) (hresults : c.HandsOver c' results)
    (hrun : Run AnswerStep (c.unanswered kind) (results.map kind.answer)
      (c'.unanswered kind)) : Answers kind c e c' := by
  obtain ⟨kept, lost, hcqueue, hdropped, hsub, hperm⟩ := hresults
  refine ⟨results, kept, lost, ?_, ?_, hdropped, hsub, hperm⟩
  · rw [hsubmitted]
    exact hrun
  · rw [hpopped]
    exact hcqueue.symm

/-- A step that submits an operation. -/
theorem Answers.of_submit {op : DataOperation} (hsubmits : c.submitted e c' = [op])
    (hpopped : c.poppedBy e = []) (hops : c'.ops = c.ops ++ [op])
    (hqueued : c'.queued kind = c.queued kind) (hcqueue : c'.cqueue = c.cqueue)
    (hdropped : c'.dropped = c.dropped) : Answers kind c e c' := by
  refine ⟨[], [], [], ?_, by rw [hpopped, hcqueue, List.append_nil]; rfl,
    by rw [hdropped, List.append_nil], List.Sublist.refl _, List.Perm.refl _⟩
  have hrun : Run AnswerStep (c.unanswered kind) [kind.call op]
      (c'.unanswered kind) := by
    refine Run.single ?_
    unfold DataSocket.unanswered DataKind.call
    rw [hqueued, hops, filterMap_snoc]
    cases kind.offset op with
    | none =>
      rw [Option.toList_none, List.append_nil]
      exact .stay
    | some blockOffset =>
      rw [← List.append_assoc]
      exact .call
  rw [hsubmits]
  exact hrun

theorem Answers.of_pop {result : PifusOperationResult ℕ}
    {queue : RingBuffer (PifusOperationResult ℕ)} {k : ℕ}
    (hget : c.cqueue.get = some (result, queue)) (hcqueue : c'.cqueue = queue)
    (hunanswered : c'.unanswered kind = c.unanswered kind)
    (hdropped : c'.dropped = c.dropped) : Answers kind c (.pop k) c' := by
  refine ⟨[], [], [], ?_, ?_, by rw [hdropped, List.append_nil],
    List.Sublist.refl _, List.Perm.refl _⟩
  · rw [hunanswered]
    exact Run.nil
  · rw [DataSocket.poppedBy, hget, hcqueue, RingBuffer.contents_get hget,
      List.append_nil]
    rfl

theorem run_others (hcode : ∀ result ∈ results, result.code ≠ kind.code)
    (Q : List ℕ) : Run AnswerStep Q (results.map kind.answer) Q := by
  refine run_stays (fun event hevent => ?_)
  obtain ⟨result, hresult, rfl⟩ := List.mem_map.mp hevent
  exact if_neg (hcode result hresult)

theorem run_completes (kind : DataKind) (offsets Q : List ℕ) : Run AnswerStep (offsets ++ Q)
    ((offsets.map (fun offset =>
      (⟨kind.code, .ok, offset⟩ : PifusOperationResult ℕ))).map kind.answer) Q := by
  have hserves : (offsets.map (fun offset =>
        (⟨kind.code, .ok, offset⟩ : PifusOperationResult ℕ))).map kind.answer
      = offsets.map AnswerEvent.serve := by
    rw [List.map_map]
    refine List.map_congr_left (fun offset _ => ?_)
    show kind.answer ⟨kind.code, .ok, offset⟩ = _
    rw [DataKind.answer_code, if_pos rfl]
  rw [hserves]
  exact run_serves _ _

/-- The `TCP_RECV` operation that the stack takes is the first one of the
socket. -/
theorem filterMap_recv_front {l : List DataOperation} {op : DataOperation}
    {recvScan : Bool} (hfirst : if recvScan then
      op.isRecvOp = true ∧ ∀ y ∈ l, y.isRecvOp = false else l = []) :
    l.filterMap (DataKind.offset .recv) = [] := by
  refine List.filterMap_eq_nil_iff.mpr (fun y hy => ?_)
  cases recvScan with
  | true =>
    cases y with
    | recv off size => exact absurd (hfirst.2 _ hy) (by simp [DataOperation.isRecvOp])
    | write off => rfl
  | false =>
    obtain rfl := hfirst
    exact absurd hy (by simp)

/-- **What `tx_tcp_recv` comes to for the operations that wait**: the first one of
the socket is filled, refused, or waits on. -/
theorem ShortInv.run_recv {l r : List DataOperation} {off size : ℕ}
    {recv : RecvHistory} (hc : ShortInv c) (hops : c.ops = l ++ .recv off size :: r)
    (hnone : l.filterMap (DataKind.offset .recv) = [])
    (hrecv : recvHistoryStep c.recv (.recv off size) = some recv) :
    Run AnswerStep (c.unanswered .recv)
      ((if (txTcpRecv c.recv.path.socket off size).1.resultCode ≠ .async then
        [(⟨.tcpRecv, (txTcpRecv c.recv.path.socket off size).1.resultCode, off⟩ :
          PifusOperationResult ℕ)] else []).map (DataKind.answer .recv))
      (DataSocket.unanswered { c with ops := l ++ r, recv := recv } .recv) := by
  obtain ⟨hqueue, -, -⟩ := txTcpRecv_queue hc.path hrecv
  have hbefore : c.unanswered .recv
      = c.queued .recv ++ off :: r.filterMap (DataKind.offset .recv) := by
    rw [DataSocket.unanswered, hops, List.filterMap_append, hnone,
      List.filterMap_cons_some (DataKind.recv.offset_recv off size)]
    rfl
  have hafter : DataSocket.unanswered { c with ops := l ++ r, recv := recv } .recv
      = recv.path.socket.recvQueue.contents.map PifusRecvQueueEntry.recvBlockOffset
        ++ r.filterMap (DataKind.offset .recv) := by
    rw [DataSocket.unanswered, List.filterMap_append, hnone]
    rfl
  rw [hbefore, hafter, hqueue, List.map_append]
  unfold DataSocket.queued
  by_cases hasync : (txTcpRecv c.recv.path.socket off size).1.resultCode = .async
  · rw [if_neg (not_not.mpr hasync), if_pos hasync, List.append_assoc]
    exact Run.nil
  · rw [if_pos hasync, if_neg hasync, List.map_nil, List.append_nil]
    refine Run.single ?_
    show AnswerStep _ (DataKind.recv.answer ⟨DataKind.recv.code, _, off⟩) _
    rw [DataKind.answer_code]
    by_cases hok : (txTcpRecv c.recv.path.socket off size).1.resultCode = .ok
    · rw [if_pos hok, hc.queue_nil hok]
      exact .serve
    · rw [if_neg hok]
      exact .refuse

/-- **`handle_operation` on a `TCP_RECV` operation.** -/
theorem answers_processRecv {k off size : ℕ} {recvScan : Bool} {err : ErrT}
    (hshort : kind = .recv → ShortInv c)
    (hop : c.ops[c.next recvScan]? = some (.recv off size))
    (hs : c.processRecv (c.next recvScan) off size = some c') :
    Answers kind c (.process k recvScan err) c' := by
  obtain ⟨l, r, hops, hlen, hfirst⟩ := DataSocket.next_cases hop
  have herase : c.ops.eraseIdx (c.next recvScan) = l ++ r := by
    rw [hops, ← hlen, List.eraseIdx_append_of_length_le (Nat.le_refl _),
      Nat.sub_self, List.eraseIdx_cons_zero]
  unfold DataSocket.processRecv at hs
  rw [herase] at hs
  obtain ⟨recv, hrecv, rfl⟩ := Option.map_eq_some_iff.mp hs
  dsimp only
  have hrun : Run AnswerStep (c.unanswered kind)
      ((if (txTcpRecv c.recv.path.socket off size).1.resultCode ≠ .async then
        [(⟨.tcpRecv, (txTcpRecv c.recv.path.socket off size).1.resultCode, off⟩ :
          PifusOperationResult ℕ)] else []).map kind.answer)
      (DataSocket.unanswered { c with ops := l ++ r, recv := recv } kind) := by
    cases kind with
    | recv => exact (hshort rfl).run_recv hops (filterMap_recv_front hfirst) hrecv
    | write =>
      have hsame : DataSocket.unanswered { c with ops := l ++ r, recv := recv } .write
          = c.unanswered .write := by
        unfold DataSocket.unanswered
        rw [hops, List.filterMap_append, List.filterMap_append,
          List.filterMap_cons_none (DataKind.write.offset_recv off size)]
        rfl
      rw [hsame]
      refine run_others (fun result hresult => ?_) _
      split at hresult
      · rw [List.mem_singleton.mp hresult]
        simp [DataKind.code]
      · exact absurd hresult (by simp)
  split
  · rename_i hne
    rw [if_pos hne] at hrun
    refine .of_handsOver rfl rfl
      ({ c with ops := l ++ r, recv := recv }.handsOver_enqueueInCqueue _) ?_
    rw [DataSocket.unanswered_enqueueInCqueue]
    exact hrun
  · rename_i hasync
    rw [if_neg hasync] at hrun
    exact .of_handsOver rfl rfl (.nil rfl rfl) hrun

/-- **`handle_operation` on a `TCP_WRITE` operation.** -/
theorem answers_processWrite {k off size : ℕ} {recvScan : Bool} {err : ErrT}
    {r : TxTcpWrite} (hop : c.ops[c.next recvScan]? = some (.write off))
    (hs : txTcpWrite c.writeQueue off size err = some r) :
    Answers kind c (.process k recvScan err) (c.processWrite app off r) := by
  obtain ⟨l, rest, hops, -, hfirst⟩ := DataSocket.next_cases hop
  obtain rfl : l = [] := by
    cases recvScan with
    | true => exact absurd hfirst.1 (by simp [DataOperation.isRecvOp])
    | false => exact hfirst
  have htail : c.ops.tail = rest := by
    rw [hops]
    rfl
  unfold DataSocket.processWrite
  rw [htail]
  rcases txTcpWrite_cases hs with hagain | ⟨herr, hqueue, -⟩ | ⟨hasync, -, hqueue⟩
  · rw [if_pos hagain]
    exact .of_handsOver rfl rfl (.nil rfl rfl) Run.nil
  · rw [if_neg (by simp [herr]), if_pos (by simp [herr]), hqueue, herr]
    refine .of_handsOver rfl rfl (DataSocket.handsOver_enqueueInCqueue _ _) ?_
    rw [DataSocket.unanswered_enqueueInCqueue]
    cases kind with
    | recv =>
      have hsame : c.ops.filterMap (DataKind.offset .recv)
          = rest.filterMap (DataKind.offset .recv) := by
        rw [hops, List.nil_append,
          List.filterMap_cons_none (DataKind.recv.offset_write off)]
      unfold DataSocket.unanswered
      rw [hsame]
      exact run_others (fun result hresult => by
        rw [List.mem_singleton.mp hresult]
        simp [DataKind.code]) _
    | write =>
      unfold DataSocket.unanswered
      rw [hops, List.nil_append,
        List.filterMap_cons_some (DataKind.write.offset_write off)]
      exact Run.single .refuse
  · rw [if_neg (by simp [hasync]), if_neg (by simp [hasync])]
    refine .of_handsOver rfl rfl (.nil rfl rfl) ?_
    have hsame : DataSocket.unanswered { c with
        ops := rest
        writeQueue := r.writeQueue
        unprocessed := c.unprocessed.tail
        accepted := if r.accepted.isSome then c.accepted ++ c.unprocessed.head?.toList
          else c.accepted
        referenced := c.referenced
          ++ List.range' (app.dataPtr off) (r.accepted.getD 0) } kind
        = c.unanswered kind := by
      unfold DataSocket.unanswered DataSocket.queued
      cases kind with
      | recv =>
        rw [hops, List.nil_append,
          List.filterMap_cons_none (DataKind.recv.offset_write off)]
      | write =>
        dsimp only
        rw [hops, hqueue, List.map_append, List.nil_append,
          List.filterMap_cons_some (DataKind.write.offset_write off),
          List.append_assoc]
        rfl
    rw [hsame]
    exact Run.nil

/-- **`tcp_sent_callback` takes the first entries off the write queue.** -/
theorem tcpSentCallback_offsets {fuel : ℕ} {len : UInt16}
    {queue : RingBuffer PifusWriteQueueEntry} {r : TcpSent}
    (hs : tcpSentCallback fuel queue len = some r) :
    queue.contents.map PifusWriteQueueEntry.writeBlockOffset
      = r.completed
        ++ r.writeQueue.contents.map PifusWriteQueueEntry.writeBlockOffset := by
  induction fuel generalizing queue len r with
  | zero => exact absurd hs (by simp [tcpSentCallback])
  | succ fuel ih =>
    rw [tcpSentCallback] at hs
    cases hpeek : queue.peek with
    | none =>
      rw [hpeek] at hs
      obtain rfl := Option.some.inj hs
      rfl
    | some cell =>
      have hne : queue.contents ≠ [] := by
        rw [Ne, ← RingBuffer.peek_eq_none_iff, hpeek]
        simp
      obtain ⟨queue', herase, hcontents⟩ := RingBuffer.exists_eraseFirst hne
      obtain ⟨hcell, -⟩ := RingBuffer.peek_eq_some hpeek
      rw [← RingBuffer.cell_zero, ← hcell] at hcontents
      rw [hpeek] at hs
      dsimp only at hs
      rw [herase, Option.getD_some] at hs
      split at hs
      · split at hs
        · obtain ⟨r', hr', rfl⟩ := Option.map_eq_some_iff.mp hs
          rw [hcontents, List.map_cons, ih hr']
          rfl
        · obtain rfl := Option.some.inj hs
          rw [hcontents]
          rfl
      · obtain rfl := Option.some.inj hs
        dsimp only
        rw [hcell, RingBuffer.contents_store (List.length_pos_iff.mpr hne), hcontents,
          ← hcell, List.set_cons_zero]
        rfl

/-- **Every step of a socket.** -/
theorem SocketStep.answers (hs : SocketStep app h c e h' c')
    (hshort : kind = .recv → ShortInv c) : Answers kind c e c' := by
  cases hs with
  | recv hsize hcall =>
    refine .of_submit ?_ rfl rfl (by cases kind <;> rfl) rfl rfl
    exact List.drop_left
  | write hsize hcall =>
    refine .of_submit ?_ rfl rfl (by cases kind <;> rfl) rfl rfl
    exact List.drop_left
  | processRecv hop hs => exact answers_processRecv hshort hop hs
  | processWrite hop hs => exact answers_processWrite hop hs
  | @deliver _ p recv hs =>
    refine .of_handsOver rfl rfl
      ({ c with recv := recv }.handsOver_complete .tcpRecv _) ?_
    rw [DataSocket.unanswered_complete]
    cases kind with
    | recv =>
      unfold DataSocket.unanswered DataSocket.queued
      dsimp only
      rw [map_offset_of_entries (deliver_entries hs), List.append_assoc]
      exact run_completes .recv _ _
    | write =>
      refine run_others (fun result hresult => ?_) _
      obtain ⟨off, -, rfl⟩ := List.mem_map.mp hresult
      simp [DataKind.code]
  | sent hs =>
    unfold DataSocket.sent at hs
    split at hs
    · obtain ⟨r, hr, hs⟩ := Option.bind_eq_some_iff.mp hs
      split at hs
      · exact absurd hs (by simp)
      · obtain rfl := Option.some.inj hs
        refine .of_handsOver rfl rfl (DataSocket.handsOver_complete { c with
          writeQueue := r.writeQueue, acked := c.acked + _ } .tcpWrite _) ?_
        rw [DataSocket.unanswered_complete]
        cases kind with
        | write =>
          unfold DataSocket.unanswered DataSocket.queued
          dsimp only
          rw [tcpSentCallback_offsets hr, List.append_assoc]
          exact run_completes .write _ _
        | recv =>
          refine run_others (fun result hresult => ?_) _
          obtain ⟨off, -, rfl⟩ := List.mem_map.mp hresult
          simp [DataKind.code]
    · exact absurd hs (by simp)
  | result hnone =>
    refine .of_handsOver rfl rfl (c.handsOver_enqueueInCqueue _) ?_
    rw [DataSocket.unanswered_enqueueInCqueue]
    refine run_others (fun result' hresult => ?_) _
    rw [List.mem_singleton.mp hresult]
    unfold resultBlock at hnone
    split at hnone
    · exact absurd hnone (by simp)
    · rename_i hcode
      obtain ⟨hwrite, hrecv⟩ := not_or.mp hcode
      cases kind
      exacts [hrecv, hwrite]
  | popWrite hget hcode => exact .of_pop hget rfl (by cases kind <;> rfl) rfl
  | popRecv hget hcode => exact .of_pop hget rfl (by cases kind <;> rfl) rfl
  | popOther hget hnone => exact .of_pop hget rfl (by cases kind <;> rfl) rfl

end Socket

/-! ## Runs -/

section Runs

variable {app : AppRegion} {s t : DataState} {e : DataEvent} {c c' : DataSocket}
  {kind : DataKind} {calls : List DataOperation}
  {answers : List (PifusOperationResult ℕ)}

/-- **A step takes one socket on**, or leaves all as they are. -/
theorem dataStep_socketAt (hs : DataStep app s e t) :
    (∃ k h h', e.on = some k ∧ SocketStep app h (s.socketAt k) e h' (t.socketAt k)
      ∧ ∀ j, j ≠ k → t.socketAt j = s.socketAt j)
    ∨ (∀ j, t.socketAt j = s.socketAt j) ∧ ∀ c : DataSocket, c.poppedBy e = [] := by
  have hone : ∀ {k : ℕ} {c c' : DataSocket} {h h' : HeapState}, e.on = some k →
      s.sockets[k]? = some c → t.sockets = s.sockets.set k c' →
      SocketStep app h c e h' c' → ∃ k h h', e.on = some k
        ∧ SocketStep app h (s.socketAt k) e h' (t.socketAt k)
        ∧ ∀ j, j ≠ k → t.socketAt j = s.socketAt j := by
    intro k c c' h h' hk hc hset hstep
    have hbefore : s.socketAt k = c := by rw [DataState.socketAt, hc]; rfl
    have hafter : t.socketAt k = c' := by
      rw [DataState.socketAt, hset,
        List.getElem?_set_self (List.getElem?_eq_some_iff.mp hc).1]
      rfl
    refine ⟨k, h, h', hk, hbefore ▸ hafter ▸ hstep, fun j hj => ?_⟩
    rw [DataState.socketAt, hset, List.getElem?_set_ne (Ne.symm hj)]
    rfl
  have hall : (∃ k c c', e.on = some k ∧ s.sockets[k]? = some c
        ∧ t.sockets = s.sockets.set k c' ∧ SocketStep app s.heap c e t.heap c')
      ∨ (∀ j, t.socketAt j = s.socketAt j)
        ∧ ∀ c : DataSocket, c.poppedBy e = [] := by
    by_cases hpop : ∃ k, e = .pop k
    · obtain ⟨k, rfl⟩ := hpop
      obtain ⟨c, c', hc, hset, hstep⟩ := pop_cases hs
      exact Or.inl ⟨k, c, c', rfl, hc, hset, hstep⟩
    · have hnone : ∀ c : DataSocket, c.poppedBy e = [] := by
        intro c
        cases e with
        | pop k => exact absurd ⟨k, rfl⟩ hpop
        | _ => rfl
      rcases dataStep_cases hs with hstep | ⟨-, rfl⟩ | ⟨hsame, -⟩
      · exact Or.inl hstep
      · refine Or.inr ⟨fun j => ?_, hnone⟩
        -- a new socket is as it was taken to be
        unfold DataState.socketAt
        dsimp only
        rw [List.getElem?_append]
        split
        · rfl
        · rename_i hlt
          rw [List.getElem?_eq_none (Nat.le_of_not_lt hlt), List.getElem?_singleton]
          split <;> rfl
      · refine Or.inr ⟨fun j => ?_, hnone⟩
        rw [DataState.socketAt, hsame]
        rfl
  rcases hall with ⟨k, c, c', hk, hc, hset, hstep⟩ | hquiet
  · exact Or.inl (hone hk hc hset hstep)
  · exact Or.inr hquiet

/-- **The invariant**: the calls and the answers of a socket are a run of requests
that are served in order or refused. What was handed over is with the app, in the
completion queue or lost. -/
def AnswerInv (kind : DataKind) (calls : List DataOperation)
    (answers : List (PifusOperationResult ℕ)) (c : DataSocket) : Prop :=
  ∃ handed ls, Run AnswerStep [] ls (c.unanswered kind)
    ∧ ls.filterMap AnswerEvent.called = calls.filterMap kind.offset
    ∧ ls.filterMap AnswerEvent.served = handed.filterMap kind.served
    ∧ ls.filterMap AnswerEvent.answered = handed.filterMap kind.answered
    ∧ (answers ++ c.cqueue.contents).Sublist handed
    ∧ (answers ++ c.cqueue.contents ++ c.dropped).Perm handed

/-- **Every step keeps the invariant.** -/
theorem AnswerInv.step (h : AnswerInv kind calls answers c)
    (hs : Answers kind c e c') : AnswerInv kind (calls ++ c.submitted e c')
      (answers ++ c.poppedBy e) c' := by
  obtain ⟨handed, ls, hrun, hcalled, hserved, hanswered, hsub, hperm⟩ := h
  obtain ⟨results, kept, lost, hnew, hcqueue, hdropped, hkept, hresults⟩ := hs
  have happ : answers ++ c.poppedBy e ++ c'.cqueue.contents
      = answers ++ c.cqueue.contents ++ kept := by
    rw [List.append_assoc, ← hcqueue, List.append_assoc]
  refine ⟨handed ++ results, _, hrun.trans hnew, ?_, ?_, ?_, ?_, ?_⟩
  · rw [List.filterMap_append, List.filterMap_append, hcalled,
      DataKind.called_events]
  · rw [List.filterMap_append, List.filterMap_append, hserved,
      DataKind.answers_events (fun _ => rfl) rfl]
    rfl
  · rw [List.filterMap_append, List.filterMap_append, hanswered,
      DataKind.answers_events (fun _ => rfl) rfl]
    rfl
  · rw [happ]
    exact hsub.append hkept
  · rw [happ, hdropped]
    refine List.Perm.trans ?_ (hperm.append hresults)
    simp only [List.append_assoc]
    exact List.Perm.append_left _ (List.Perm.append_left _
      (List.perm_append_comm_assoc _ _ _))

theorem AnswerInv.order (h : AnswerInv kind calls answers c) :
    ((answers ++ c.cqueue.contents).filterMap kind.served
        ++ c.unanswered kind).Sublist (calls.filterMap kind.offset)
    ∧ ((answers ++ c.cqueue.contents ++ c.dropped).filterMap kind.answered
        ++ c.unanswered kind).Perm (calls.filterMap kind.offset) := by
  obtain ⟨handed, ls, hrun, hcalled, hserved, hanswered, hsub, hperm⟩ := h
  obtain ⟨horder, hall⟩ := hrun.answers_in_order
  rw [hcalled, hserved] at horder
  rw [hcalled, hanswered] at hall
  exact ⟨((hsub.filterMap _).append_right _).trans horder,
    ((hperm.filterMap _).append_right _).trans hall⟩

theorem answerInv_initial : AnswerInv kind [] [] .initial := by
  refine ⟨[], [], ?_, rfl, rfl, rfl, List.Sublist.refl _, List.Perm.refl _⟩
  cases kind <;> exact Run.nil

/-- **The app tells its operations by counting.** In every run of an app, of the
stack and of lwIP, whatever the memory holds: the operations of a kind that a
socket was given are requests of which the first one is served each time, or any
one refused. So the results with `PIFUS_OK`, those popped and those in the
completion queue, and then the operations without an answer are in the order of the
calls; and each call has exactly one answer, or none yet. Of `TCP_RECV` this holds
for requests below 2^16 bytes. -/
theorem answers_come_in_order {es : List DataEvent} {s : CallHistory}
    (kind : DataKind) (k : ℕ)
    (h : Run (CallHistoryStep app) CallHistory.initial es s)
    (hshort : kind = .recv → ∀ size, .recv k size ∈ es → size < 2 ^ 16) :
    AnswerInv kind (s.calls k) (s.answers k) (s.state.socketAt k)
    ∧ ((s.answers k ++ (s.state.socketAt k).cqueue.contents).filterMap kind.served
        ++ (s.state.socketAt k).unanswered kind).Sublist
          ((s.calls k).filterMap kind.offset)
    ∧ ((s.answers k ++ (s.state.socketAt k).cqueue.contents
          ++ (s.state.socketAt k).dropped).filterMap kind.answered
        ++ (s.state.socketAt k).unanswered kind).Perm
          ((s.calls k).filterMap kind.offset) := by
  have hinv : (kind = .recv → ShortInv (s.state.socketAt k))
      ∧ AnswerInv kind (s.calls k) (s.answers k) (s.state.socketAt k) := by
    induction h with
    | nil => exact ⟨fun _ => shortInv_initial, answerInv_initial⟩
    | @snoc es u e _ _ hs ih =>
      obtain ⟨hc, hI⟩ := ih (fun hkind size hmem =>
        hshort hkind size (List.mem_append_left _ hmem))
      obtain ⟨t, ht, rfl⟩ := Option.map_eq_some_iff.mp hs
      unfold CallHistory.record
      dsimp only
      rcases dataStep_socketAt ht with ⟨j, h, h', hj, hstep, hothers⟩ |
        ⟨hsame, hpopped⟩
      · by_cases hk : e.on = some k
        · obtain rfl := Option.some.inj (hj.symm.trans hk)
          rw [if_pos hk, if_pos hk]
          refine ⟨fun hkind => hstep.short (hc hkind) (fun i size he => ?_),
            hI.step (hstep.answers hc)⟩
          subst he
          obtain rfl := Option.some.inj hj
          exact hshort hkind size (List.mem_append_right _ List.mem_cons_self)
        · have hne : k ≠ j := fun he => hk (he ▸ hj)
          rw [if_neg hk, if_neg hk, hothers k hne, List.append_nil, List.append_nil]
          exact ⟨hc, hI⟩
      · have hsubmitted : ∀ c : DataSocket, c.submitted e c = [] := by
          intro c
          unfold DataSocket.submitted
          split <;> simp
        rw [hsame k, hsubmitted, hpopped, ite_self, ite_self, List.append_nil,
          List.append_nil]
        exact ⟨hc, hI⟩
  exact ⟨hinv.2, hinv.2.order⟩

/-- Two receives and a write: the first receive is filled, the second waits, and the
write is refused. -/
theorem answers_come_in_order_refused :
    ∃ s : CallHistory, (s.calls 0).filterMap (DataKind.offset .recv) = [0, 27]
      ∧ (s.answers 0).filterMap (DataKind.served .recv) = [0]
      ∧ (s.state.socketAt 0).unanswered .recv = [27]
      ∧ ((s.answers 0 ++ (s.state.socketAt 0).cqueue.contents).filterMap
          (DataKind.served .recv)
        ++ (s.state.socketAt 0).unanswered .recv).Sublist [0, 27] := by
  have hs : ([.socket, .recv 0 3, .recv 0 4, .write 0 [7, 8],
      .process 0 false .ok, .process 0 false .ok, .process 0 false (.other (-1)),
      .deliver 0 ⟨[[1, 2], [3, 4, 5]], by decide⟩, .pop 0, .pop 0].foldlM
      (callHistoryStep exampleRegion) CallHistory.initial).any
      (fun s => (s.calls 0).filterMap (DataKind.offset .recv) = [0, 27]
        ∧ (s.answers 0).filterMap (DataKind.served .recv) = [0]
        ∧ (s.state.socketAt 0).unanswered .recv = [27]) = true := by
    decide +kernel
  obtain ⟨s, hrun, hp⟩ := (Option.any_eq_true _ _).mp hs
  obtain ⟨hcalls, hserved, hwaiting⟩ := of_decide_eq_true hp
  have horder := (answers_come_in_order .recv 0 (Run.of_foldlM hrun)
    (fun _ size hmem => by simp at hmem; omega)).2.1
  rw [hcalls] at horder
  exact ⟨s, hcalls, hserved, hwaiting, horder⟩

end Runs
