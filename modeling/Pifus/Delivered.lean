import Pifus.DataRuns

/-!
# The app reads what lwIP has delivered

The receive path accounts for every byte that lwIP delivers, with a history of
what was written into which block (`recv_path_lossless`). What the app gets is
not the history but a block, some time later, with what is then in it. That the
two agree rests on the blocks having one owner, and on the results coming in
the order of the operations: the operations are those the app has the bytes of,
those whose results are in the completion queue and those that still wait
(`StreamInv`), and the blocks of the last two hold what the history says.

Three things are left to the surroundings. A request is below 2^16 bytes, no
recv operation is rejected, and no `TCP_RECV` result is dropped.
-/

variable {app : AppRegion} {B B' : BlockStore Ptr UInt8} {c c' : DataSocket}
  {s t : DataState} {e : DataEvent}

/-- The results of recv operations. -/
def recvResults (results : List (PifusOperationResult ℕ)) :
    List (PifusOperationResult ℕ) :=
  results.filter (fun result => result.code = .tcpRecv)

/-- The result of an operation that has got all its bytes. -/
def RecvOp.result (op : RecvOp) : PifusOperationResult ℕ :=
  ⟨.tcpRecv, .ok, op.recvBlockOffset⟩

/-- The block of a recv operation holds the bytes that the operation has got. -/
def OpHolds (app : AppRegion) (B : BlockStore Ptr UInt8) (op : RecvOp) : Prop :=
  B.Holds (app.blockPtr op.recvBlockOffset) op.size op.bytes

/-- **Where the bytes of a socket's recv operations are**: with the app, in the
blocks of the results that wait for it, and in the blocks of the operations
that wait for more. -/
structure StreamInv (app : AppRegion) (B : BlockStore Ptr UInt8)
    (c : DataSocket) : Prop where
  submitted : ∀ off size, .recv off size ∈ c.ops → 1 ≤ size ∧ size < 2 ^ 16
  completion : CompletionInv c.recv.path.ops c.recv.completed
  order : ∃ given ready waiting, c.recv.path.ops = given ++ ready ++ waiting
    ∧ (∀ op ∈ given ++ ready, op.pending = false)
    ∧ (∀ op ∈ waiting, op.pending = true)
    ∧ c.read = given.flatMap RecvOp.bytes
    ∧ recvResults c.cqueue.contents = ready.map RecvOp.result
    ∧ ∀ op ∈ ready ++ waiting, OpHolds app B op

/-! ## Operations and results -/

theorem CompletionInv.full {ops : List RecvOp} {completed : List ℕ} {op : RecvOp}
    (h : CompletionInv ops completed) (hop : op ∈ ops)
    (hdone : op.pending = false) : op.bytes.length = op.size := by
  obtain ⟨done, later, rfl, -, hfull, hpending⟩ := h.split
  rcases List.mem_append.mp hop with hop | hop
  · exact (hfull op hop).2
  · exact absurd ((hpending op hop).1.symm.trans hdone) (by simp)

/-- Behind an operation that waits all do. -/
theorem CompletionInv.ordered {ops : List RecvOp} {completed : List ℕ}
    (h : CompletionInv ops completed) :
    ops.Pairwise (fun a b => a.pending = true → b.pending = true) := by
  obtain ⟨done, later, rfl, -, hfull, hpending⟩ := h.split
  refine List.pairwise_append.mpr ⟨?_, ?_, fun a ha b hb _ => (hpending b hb).1⟩
  · refine List.pairwise_of_forall_mem_list (fun a ha b _ hwait => ?_)
    exact absurd ((hfull a ha).1.symm.trans hwait) (by simp)
  · exact List.pairwise_of_forall_mem_list (fun _ _ b hb _ => (hpending b hb).1)

theorem mem_owned_of_result {result : PifusOperationResult ℕ}
    (h : result ∈ recvResults c.cqueue.contents) :
    app.blockPtr result.data ∈ c.owned app := by
  obtain ⟨hmem, hcode⟩ := List.mem_filter.mp h
  refine List.mem_map_of_mem ?_
  rw [DataSocket.offsets_eq]
  refine List.mem_append_right _ (List.mem_append_left _ ?_)
  exact List.mem_filterMap.mpr
    ⟨result, hmem, if_pos (Or.inr (of_decide_eq_true hcode))⟩

/-- The blocks of the operations that are not with the app belong to the
socket. -/
theorem mem_owned_of_recvOp {ready waiting : List RecvOp} {op : RecvOp}
    (hpath : RecvRunInv c.recv.path)
    (hresults : recvResults c.cqueue.contents = ready.map RecvOp.result)
    (hsub : ∀ op ∈ waiting, op ∈ c.recv.path.ops)
    (hpending : ∀ op ∈ waiting, op.pending = true) (hop : op ∈ ready ++ waiting) :
    app.blockPtr op.recvBlockOffset ∈ c.owned app := by
  rcases List.mem_append.mp hop with hop | hop
  · have hresult : op.result ∈ recvResults c.cqueue.contents := by
      rw [hresults]
      exact List.mem_map_of_mem hop
    exact mem_owned_of_result hresult
  · have hentry : op.entry ∈ c.recv.path.socket.recvQueue.contents := by
      rw [hpath.inv.queue]
      exact List.mem_map_of_mem
        (List.mem_filter.mpr ⟨hsub op hop, hpending op hop⟩)
    exact mem_owned_of_entry hentry

/-! ## Frames -/

/-- **The bytes are kept with the blocks.** -/
theorem StreamInv.mono (h : StreamInv app B c) (hpath : RecvRunInv c.recv.path)
    (hB : ∀ p ∈ c.owned app, ∀ l, B p = some l → B' p = some l) :
    StreamInv app B' c := by
  obtain ⟨given, ready, waiting, hops, hdone, hpending, hread, hresults, hholds⟩ :=
    h.order
  refine ⟨h.submitted, h.completion, given, ready, waiting, hops, hdone,
    hpending, hread, hresults, fun op hop => (hholds op hop).mono (hB _ ?_)⟩
  refine mem_owned_of_recvOp hpath hresults (fun o ho => ?_) hpending hop
  rw [hops]
  exact List.mem_append_right _ ho

/-- What else a socket has does not matter. -/
theorem StreamInv.congr (h : StreamInv app B c)
    (hsubmitted : ∀ off size, .recv off size ∈ c'.ops →
      1 ≤ size ∧ size < 2 ^ 16)
    (hrecv : c'.recv = c.recv) (hread : c'.read = c.read)
    (hresults : recvResults c'.cqueue.contents
      = recvResults c.cqueue.contents) : StreamInv app B c' := by
  refine ⟨hsubmitted, ?_, ?_⟩
  · rw [hrecv]
    exact h.completion
  · rw [hrecv, hread, hresults]
    exact h.order

/-- A result joins those of the queue, unless it is dropped. -/
theorem recvResults_enqueueInCqueue (c : DataSocket)
    (result : PifusOperationResult ℕ)
    (hnone : recvResults (c.enqueueInCqueue result).dropped = []) :
    recvResults c.dropped = []
    ∧ recvResults (c.enqueueInCqueue result).cqueue.contents
      = recvResults c.cqueue.contents ++ recvResults [result] := by
  unfold DataSocket.enqueueInCqueue at hnone ⊢
  cases hput : c.cqueue.put result with
  | some queue =>
    rw [hput] at hnone
    refine ⟨hnone, ?_⟩
    dsimp only
    rw [RingBuffer.contents_put hput, recvResults, List.filter_append]
    rfl
  | none =>
    rw [hput] at hnone
    dsimp only at hnone ⊢
    rw [recvResults, List.filter_append] at hnone
    obtain ⟨hold, hnew⟩ := List.append_eq_nil_iff.mp hnone
    refine ⟨hold, ?_⟩
    have hnew' : recvResults [result] = [] := hnew
    rw [hnew', List.append_nil]

/-- Results join those of the queue, unless one is dropped. -/
theorem recvResults_complete (c : DataSocket) (code : PifusOperationCode)
    (offsets : List ℕ)
    (hnone : recvResults (c.complete code offsets).dropped = []) :
    recvResults c.dropped = []
    ∧ recvResults (c.complete code offsets).cqueue.contents
      = recvResults c.cqueue.contents
        ++ recvResults (offsets.map (fun off => ⟨code, .ok, off⟩)) := by
  induction offsets generalizing c with
  | nil => exact ⟨hnone, (List.append_nil _).symm⟩
  | cons off offsets ih =>
    obtain ⟨hrest, hqueue⟩ := ih (c.enqueueInCqueue ⟨code, .ok, off⟩) hnone
    obtain ⟨hold, hqueue'⟩ := recvResults_enqueueInCqueue c ⟨code, .ok, off⟩ hrest
    refine ⟨hold, ?_⟩
    have hcons : recvResults ((off :: offsets).map (fun off =>
          (⟨code, .ok, off⟩ : PifusOperationResult ℕ)))
        = recvResults [⟨code, .ok, off⟩]
          ++ recvResults (offsets.map (fun off => ⟨code, .ok, off⟩)) := by
      rw [List.map_cons, ← List.singleton_append, recvResults,
        List.filter_append]
      rfl
    rw [hcons, ← List.append_assoc, ← hqueue']
    exact hqueue

/-! ## A delivery -/

theorem exists_waiting {waiting : List RecvOp} {entry : PifusRecvQueueEntry}
    {entries : List PifusRecvQueueEntry}
    (h : entry :: entries = waiting.map RecvOp.entry) :
    ∃ op rest, waiting = op :: rest ∧ op.entry = entry
      ∧ rest.map RecvOp.entry = entries := by
  cases waiting with
  | nil => exact absurd h (by simp)
  | cons op rest =>
    obtain ⟨hentry, hentries⟩ := List.cons.inj h
    exact ⟨op, rest, rfl, hentry.symm, hentries.symm⟩

/-- **A copy behind what an operation has got** is what it has got, and the blocks of
the other operations are apart. -/
theorem opHolds_copied {ended rest : List RecvOp} {op : RecvOp} {bytes : List UInt8}
    (hstore : BlockStore.Step 0 B
      (.overwrite (app.blockPtr op.recvBlockOffset) op.bytes.length bytes) B')
    (hnodup : ((ended ++ op :: rest).map
      (fun op => app.blockPtr op.recvBlockOffset)).Nodup)
    (hholds : ∀ o ∈ ended ++ op :: rest, OpHolds app B o) :
    ∀ o ∈ ended ++ { op with bytes := op.bytes ++ bytes } :: rest,
      OpHolds app B' o := by
  rw [(List.perm_middle.map _).nodup_iff, List.map_cons] at hnodup
  have hother : ∀ o ∈ ended ++ rest, OpHolds app B o → OpHolds app B' o := by
    intro o ho h
    refine h.mono (fun l hl => hstore.other (fun he => ?_) hl)
    exact (List.nodup_cons.mp hnodup).1
      (List.mem_map.mpr ⟨o, ho, (Option.some.inj he).symm⟩)
  obtain ⟨hended, hrest⟩ := List.forall_mem_append.mp hholds
  obtain ⟨hop, hrest⟩ := List.forall_mem_cons.mp hrest
  refine List.forall_mem_append.mpr
    ⟨fun o ho => hother o (List.mem_append_left _ ho) (hended o ho),
      List.forall_mem_cons.mpr ⟨hop.extend hstore, fun o ho =>
        hother o (List.mem_append_right _ ho) (hrest o ho)⟩⟩

/-- **The copies of a delivery are the bytes of the history**: the first of the
operations that wait are ended, in their order, and the blocks of all of them
hold what they have got. -/
theorem HeapInv.deliver_holds {h : HeapState}
    {entries entries' : List PifusRecvQueueEntry} {events : List RecvEvent}
    {done waiting : List RecvOp} (hI : HeapInv app h)
    (hrun : Run EntryStep entries events entries')
    (hentries : entries = waiting.map RecvOp.entry)
    (hdone : ∀ op ∈ done, op.pending = false)
    (hpending : ∀ op ∈ waiting, op.pending = true)
    (hnodup : (waiting.map (fun op => app.blockPtr op.recvBlockOffset)).Nodup)
    (hholds : ∀ op ∈ waiting, OpHolds app h.store op) :
    HeapInv app ⟨events.foldl (copyEvent app) h.mem, h.live⟩
    ∧ ∃ ended rest, events.foldl applyEvent (done ++ waiting)
        = done ++ ended ++ rest
      ∧ entries' = rest.map RecvOp.entry
      ∧ (∀ op ∈ ended, op.pending = false) ∧ (∀ op ∈ rest, op.pending = true)
      ∧ ended.map RecvOp.recvBlockOffset = completedOffsets events
      ∧ (ended ++ rest).map (fun op => app.blockPtr op.recvBlockOffset)
        = waiting.map (fun op => app.blockPtr op.recvBlockOffset)
      ∧ ∀ op ∈ ended ++ rest, OpHolds app
        (HeapState.store ⟨events.foldl (copyEvent app) h.mem, h.live⟩) op := by
  induction hrun with
  | nil =>
    exact ⟨hI, [], waiting, by rw [List.append_nil]; rfl, hentries, by simp,
      hpending, rfl, rfl, hholds⟩
  | @snoc taken _ _ _ hrun hs ih =>
    obtain ⟨hI', ended, rest, hops, hrest, hended, hwait, hoffsets, hblocks,
      hkept⟩ := ih
    have hdone' : ∀ op ∈ done ++ ended, op.pending = false :=
      List.forall_mem_append.mpr ⟨hdone, hended⟩
    rw [List.foldl_append, List.foldl_append]
    cases hs with
    | @copied entry es bytes hle =>
      obtain ⟨op, rest, rfl, rfl, rfl⟩ := exists_waiting hrest
      have hop := hwait op List.mem_cons_self
      have hopHolds := hkept op (List.mem_append_right _ List.mem_cons_self)
      have hgot : op.bytes.length ≤ op.size := hopHolds.length_le
      have hroom : op.bytes.length + bytes.length ≤ op.size := by
        have hle' : bytes.length ≤ op.size - op.bytes.length := hle
        omega
      have hlive := hI'.holds_nil_iff.mp (hopHolds.of_prefix List.nil_prefix)
      obtain ⟨hstep, hI''⟩ := hI'.copy_step op.bytes.length bytes hlive hroom
      have hstore := hI'.refines hstep
      refine ⟨hI'', ended, { op with bytes := op.bytes ++ bytes } :: rest,
        ?_, ?_, hended, ?_, ?_, ?_, ?_⟩
      · rw [hops]
        exact credit_eq hdone' hop rfl rfl
      · have hsize : op.size - op.bytes.length - bytes.length
            = op.size - (op.bytes ++ bytes).length := by
          rw [List.length_append, Nat.sub_sub]
        have hdata : op.bytes.length + bytes.length
            = (op.bytes ++ bytes).length := List.length_append.symm
        simp only [RecvOp.entry, List.map_cons, hsize, hdata]
      · exact List.forall_mem_cons.mpr
          ⟨hop, fun o ho => hwait o (List.mem_cons_of_mem _ ho)⟩
      · rw [completedOffsets, List.filterMap_append]
        exact hoffsets.trans (List.append_nil _).symm
      · rw [← hblocks]
        simp only [List.map_append, List.map_cons]
      · rw [← hblocks] at hnodup
        exact opHolds_copied hstore hnodup hkept
    | recved =>
      refine ⟨hI', ended, rest, hops, hrest, hended, hwait, ?_, hblocks, hkept⟩
      rw [completedOffsets, List.filterMap_append]
      exact hoffsets.trans (List.append_nil _).symm
    | @completed entry es =>
      obtain ⟨op, rest, rfl, rfl, rfl⟩ := exists_waiting hrest
      have hop := hwait op List.mem_cons_self
      refine ⟨hI', ended ++ [{ op with pending := false }], rest, ?_, rfl, ?_,
        fun o ho => hwait o (List.mem_cons_of_mem _ ho), ?_, ?_, ?_⟩
      · rw [hops]
        refine (finish_eq hdone' hop).trans ?_
        simp only [List.append_assoc, List.cons_append, List.nil_append]
      · refine List.forall_mem_append.mpr ⟨hended, fun o ho => ?_⟩
        obtain rfl := List.mem_singleton.mp ho
        rfl
      · rw [completedOffsets, List.filterMap_append, List.map_append, hoffsets]
        rfl
      · rw [← hblocks]
        simp only [List.map_append, List.map_cons, List.append_assoc,
          List.cons_append, List.nil_append]
      · intro o ho
        rw [List.append_assoc] at ho
        rcases List.mem_append.mp ho with ho | ho
        · exact hkept o (List.mem_append_left _ ho)
        rcases List.mem_cons.mp ho with rfl | ho
        · exact hkept op (List.mem_append_right _ List.mem_cons_self)
        · exact hkept o (List.mem_append_right _ (List.mem_cons_of_mem _ ho))

/-! ## Steps of a socket -/

/-- A step that is served: the request is short, and the recv operation is not
rejected. -/
def DataSocket.Serves (c : DataSocket) : DataEvent → Prop
  | .recv _ size => size < 2 ^ 16
  | .process _ recvScan _ =>
    match c.ops[c.next recvScan]? with
    | some (.recv off size) =>
      (txTcpRecv c.recv.path.socket off size).1.resultCode ≠ .err
    | _ => True
  | _ => True

instance (c : DataSocket) (e : DataEvent) : Decidable (c.Serves e) := by
  cases e with
  | process k recvScan err =>
    unfold DataSocket.Serves
    dsimp only
    split <;> infer_instance
  | _ => unfold DataSocket.Serves; infer_instance

section Steps

variable {h h' : HeapState} {k : ℕ}

theorem recvResults_other {result : PifusOperationResult ℕ}
    (hcode : result.code ≠ .tcpRecv) : recvResults [result] = [] :=
  List.filter_cons_of_neg (by simpa using hcode)

theorem recvResults_cons {result : PifusOperationResult ℕ}
    {results : List (PifusOperationResult ℕ)} :
    recvResults (result :: results)
      = recvResults [result] ++ recvResults results := by
  rw [← List.singleton_append, recvResults, List.filter_append]
  rfl

theorem code_of_resultBlock {result : PifusOperationResult ℕ}
    (hnone : resultBlock result = none) : result.code ≠ .tcpRecv := by
  intro hcode
  rw [resultBlock, if_pos (Or.inr hcode)] at hnone
  exact absurd hnone (by simp)

/-- **A write that is processed** does not concern the recv operations. -/
theorem StreamInv.processWrite {off : ℕ} {r : TxTcpWrite}
    (hstream : recvResults c.dropped = [] → StreamInv app B c)
    (hnone : recvResults (c.processWrite app off r).dropped = []) :
    StreamInv app B (c.processWrite app off r) := by
  have htail : ∀ l : List DataOperation, ∀ op ∈ l.tail, op ∈ l :=
    fun l op hop => List.mem_of_mem_tail hop
  unfold DataSocket.processWrite at hnone ⊢
  split at hnone
  · rename_i hagain
    rw [if_pos hagain]
    exact hstream hnone
  · rename_i hagain
    rw [if_neg hagain]
    dsimp only at hnone ⊢
    split at hnone
    · rename_i hdone
      rw [if_pos hdone]
      obtain ⟨hold, hqueue⟩ := recvResults_enqueueInCqueue _ _ hnone
      rw [recvResults_other (by simp), List.append_nil] at hqueue
      obtain ⟨queue, dropped, heq, -⟩ := DataSocket.enqueueInCqueue_eq { c with
        ops := c.ops.tail
        writeQueue := r.writeQueue
        unprocessed := c.unprocessed.tail
        accepted := if r.accepted.isSome = true
          then c.accepted ++ c.unprocessed.head?.toList else c.accepted
        referenced := c.referenced
          ++ List.range' (app.dataPtr off) (r.accepted.getD 0) }
        ⟨.tcpWrite, r.resultCode, off⟩
      have hinv := hstream hold
      refine hinv.congr (fun off' size hop => ?_) ?_ ?_ hqueue
      · rw [heq] at hop
        exact hinv.submitted off' size (htail _ _ hop)
      · rw [heq]
      · rw [heq]
    · rename_i hdone
      rw [if_neg hdone]
      have hinv := hstream hnone
      exact hinv.congr (fun off' size hop =>
        hinv.submitted off' size (htail _ _ hop)) rfl rfl rfl

/-- **Acknowledged writes** do not concern the recv operations. -/
theorem StreamInv.sent {len : ℕ}
    (hstream : recvResults c.dropped = [] → StreamInv app B c)
    (hs : c.sent len = some c') (hnone : recvResults c'.dropped = []) :
    StreamInv app B c' := by
  unfold DataSocket.sent at hs
  split at hs
  · obtain ⟨r, -, hs⟩ := Option.bind_eq_some_iff.mp hs
    split at hs
    · exact absurd hs (by simp)
    · obtain rfl := Option.some.inj hs
      obtain ⟨hold, hqueue⟩ := recvResults_complete _ _ _ hnone
      have hwrites : recvResults (r.completed.map (fun off =>
          (⟨.tcpWrite, .ok, off⟩ : PifusOperationResult ℕ))) = [] := by
        refine List.filter_eq_nil_iff.mpr (fun result hresult => ?_)
        obtain ⟨off, -, rfl⟩ := List.mem_map.mp hresult
        simp
      rw [hwrites, List.append_nil] at hqueue
      obtain ⟨queue, dropped, heq, -⟩ := DataSocket.complete_eq { c with
        writeQueue := r.writeQueue, acked := c.acked + len }
        (Or.inl rfl) r.completed
      have hinv := hstream hold
      refine hinv.congr (fun off size hop => ?_) ?_ ?_ hqueue
      · rw [heq] at hop
        exact hinv.submitted off size hop
      · rw [heq]
      · rw [heq]
  · exact absurd hs (by simp)

/-- **A result of another operation** does not concern the recv operations. -/
theorem StreamInv.result {result : PifusOperationResult ℕ}
    (hstream : recvResults c.dropped = [] → StreamInv app B c)
    (hcode : result.code ≠ .tcpRecv)
    (hnone : recvResults (c.enqueueInCqueue result).dropped = []) :
    StreamInv app B (c.enqueueInCqueue result) := by
  obtain ⟨hold, hqueue⟩ := recvResults_enqueueInCqueue c result hnone
  rw [recvResults_other hcode, List.append_nil] at hqueue
  obtain ⟨queue, dropped, heq, -⟩ := c.enqueueInCqueue_eq result
  have hinv := hstream hold
  refine hinv.congr (fun off size hop => ?_) ?_ ?_ hqueue
  · rw [heq] at hop
    exact hinv.submitted off size hop
  · rw [heq]
  · rw [heq]

theorem HeapInv.bytes_of_holds {q n : ℕ} {bytes : List UInt8}
    (hI : HeapInv app h) (hholds : h.store.Holds q n bytes)
    (hfull : bytes.length = n) :
    h.mem.bytes (shmDataGetDataPtr q) (PifusMemoryBlock.size h.mem q) = bytes := by
  obtain ⟨n', hmem, hdata⟩ :=
    hI.store_eq_some_iff.mp (hholds.eq_of_length hfull)
  rw [(hI.size_eq hmem).1]
  exact hdata

/-- **A `TCP_RECV` result is popped**: the app finds the bytes of the
operation. -/
theorem StreamInv.popRecv {result : PifusOperationResult ℕ}
    {queue : RingBuffer (PifusOperationResult ℕ)} {popped : ℕ}
    (hI : HeapInv app h) (hstream : StreamInv app h.store c)
    (hget : c.cqueue.get = some (result, queue)) (hcode : result.code = .tcpRecv) :
    StreamInv app h.store { c with
      cqueue := queue
      popped := popped
      read := if result.resultCode = .ok then c.read
          ++ h.mem.bytes (app.dataPtr result.data)
            (PifusMemoryBlock.size h.mem (app.blockPtr result.data))
        else c.read } := by
  obtain ⟨given, ready, waiting, hops, hdone, hpending, hread, hresults, hholds⟩ :=
    hstream.order
  have hself : recvResults [result] = [result] :=
    List.filter_cons_of_pos (by simpa using hcode)
  rw [RingBuffer.contents_get hget, recvResults_cons, hself,
    List.singleton_append] at hresults
  cases ready with
  | nil => exact absurd hresults (by simp)
  | cons op ready =>
    obtain ⟨rfl, hrest⟩ := List.cons.inj hresults
    have hop : op.bytes.length = op.size := by
      refine hstream.completion.full ?_ (hdone op (by simp))
      rw [hops]
      simp
    have hfound := hI.bytes_of_holds (hholds op (by simp)) hop
    refine ⟨hstream.submitted, hstream.completion, given ++ [op], ready, waiting,
      ?_, ?_, hpending, ?_, hrest, fun o ho => hholds o ?_⟩
    · dsimp only
      rw [hops, List.append_assoc given [op]]
      rfl
    · rw [List.append_assoc]
      exact hdone
    · rw [List.flatMap_append, List.flatMap_singleton, ← hread]
      have hok : op.result.resultCode = .ok := rfl
      dsimp only
      rw [if_pos hok]
      exact congrArg (c.read ++ ·) hfound
    · exact List.mem_cons_of_mem _ ho

/-- An operation that has got all it asks for is ready, its result being handed
over. -/
theorem StreamInv.of_filled {ops : List DataOperation} {recv : RecvHistory}
    {op : RecvOp} (hinv : StreamInv app B { c with ops := ops })
    (hops : recv.path.ops = c.recv.path.ops ++ [op])
    (hcompletion : CompletionInv recv.path.ops recv.completed)
    (hop : op.pending = false) (hnew : OpHolds app B op)
    (hnone : recvResults ({ c with ops := ops, recv := recv }.enqueueInCqueue
      op.result).dropped = []) :
    StreamInv app B ({ c with ops := ops, recv := recv }.enqueueInCqueue
      op.result) := by
  obtain ⟨-, hqueue⟩ := recvResults_enqueueInCqueue _ _ hnone
  obtain ⟨queue, dropped, henqueue, -⟩ :=
    DataSocket.enqueueInCqueue_eq { c with ops := ops, recv := recv } op.result
  obtain ⟨given, ready, waiting, hsplit, hdone, hpending, hread, hresults,
    hholds⟩ := hinv.order
  -- behind an operation that waits all do
  have hnobody : waiting = [] := by
    refine List.eq_nil_iff_forall_not_mem.mpr (fun o ho => ?_)
    have hordered := hcompletion.ordered
    rw [hops] at hordered
    have hlater := (List.pairwise_append.mp hordered).2.2 o
      (by rw [hsplit]; exact List.mem_append_right _ ho) _
      (List.mem_singleton_self _) (hpending o ho)
    exact absurd (hlater.symm.trans hop) (by simp)
  subst hnobody
  rw [List.append_nil] at hsplit hholds
  refine ⟨?_, ?_, given, ready ++ [op], [], ?_, ?_, by simp, ?_, ?_, ?_⟩
  · rw [henqueue]
    exact hinv.submitted
  · rw [henqueue]
    exact hcompletion
  · rw [henqueue, List.append_nil, ← List.append_assoc, ← hsplit]
    exact hops
  · rw [← List.append_assoc]
    exact List.forall_mem_append.mpr ⟨hdone, List.forall_mem_singleton.mpr hop⟩
  · rw [henqueue]
    exact hread
  · rw [List.map_append]
    exact hqueue.trans (congrArg (· ++ [_]) hresults)
  · rw [List.append_nil]
    exact List.forall_mem_append.mpr ⟨hholds, List.forall_mem_singleton.mpr hnew⟩

/-- An operation that has not got all it asks for waits behind the others. -/
theorem StreamInv.of_waiting {ops : List DataOperation} {recv : RecvHistory}
    {op : RecvOp} (hinv : StreamInv app B { c with ops := ops })
    (hops : recv.path.ops = c.recv.path.ops ++ [op])
    (hcompletion : CompletionInv recv.path.ops recv.completed)
    (hop : op.pending = true) (hnew : OpHolds app B op) :
    StreamInv app B { c with ops := ops, recv := recv } := by
  obtain ⟨given, ready, waiting, hsplit, hdone, hpending, hread, hresults,
    hholds⟩ := hinv.order
  refine ⟨hinv.submitted, hcompletion, given, ready, waiting ++ [op], ?_, hdone, ?_,
    hread, hresults, ?_⟩
  · rw [← List.append_assoc, ← hsplit]
    exact hops
  · exact List.forall_mem_append.mpr ⟨hpending, List.forall_mem_singleton.mpr hop⟩
  · rw [← List.append_assoc]
    exact List.forall_mem_append.mpr ⟨hholds, List.forall_mem_singleton.mpr hnew⟩

/-- **A `TCP_RECV` operation is processed**: it waits, with what the byte buffer
had for it, or its result waits for the app. -/
theorem StreamInv.processRecv {i off size : ℕ} (hI : HeapInv app h)
    (hblocks : BlocksInv app h.store c) (hnodup : (c.owned app).Nodup)
    (hstream : recvResults c.dropped = [] → StreamInv app h.store c)
    (hop : c.ops[i]? = some (.recv off size))
    (hserves : (txTcpRecv c.recv.path.socket off size).1.resultCode ≠ .err)
    (hs : c.processRecv i off size = some c')
    (hnone : recvResults c'.dropped = []) :
    StreamInv app (HeapState.store ⟨h.mem.copy (app.dataPtr off)
      (txTcpRecv c.recv.path.socket off size).2.2, h.live⟩) c' := by
  have hmem := List.mem_of_getElem? hop
  have hfits : h.store.Holds (app.blockPtr off) size [] := hblocks.ops _ hmem
  obtain ⟨r, s', bytes, heq, -, -, -, hle, hresult⟩ :=
    txTcpRecv_spec hblocks.path.inv off size
  unfold DataSocket.processRecv at hs
  obtain ⟨recv, hrecv, hs⟩ := Option.map_eq_some_iff.mp hs
  rw [heq] at hserves hs ⊢
  dsimp only at hserves hs ⊢
  -- the copy leaves the blocks of the other operations
  obtain ⟨hcopy, -⟩ := hI.copy_step 0 bytes (hI.holds_nil_iff.mp hfits)
    (by have := Nat.mod_le size (2 ^ 16); omega)
  have hstore := hI.refines hcopy
  obtain ⟨hrest, hperm⟩ := hblocks.eraseIdx hop
  have hnodup' := (hperm.map app.blockPtr).nodup_iff.mp hnodup
  rw [List.map_cons] at hnodup'
  have hkept : StreamInv app h.store c → StreamInv app (HeapState.store
      ⟨h.mem.copy (shmDataGetDataPtr (app.blockPtr off) + 0) bytes, h.live⟩)
      { c with ops := c.ops.eraseIdx i } := by
    intro hinv
    have hsmall : StreamInv app h.store { c with ops := c.ops.eraseIdx i } :=
      hinv.congr (fun off' size' hop' =>
        hinv.submitted off' size' (List.mem_of_mem_eraseIdx hop')) rfl rfl rfl
    refine hsmall.mono hrest.path (fun p hp l hl => hstore.other ?_ hl)
    intro he
    obtain rfl := Option.some.inj he
    exact (List.nodup_cons.mp hnodup').1 hp
  have hnew : OpHolds app (HeapState.store
      ⟨h.mem.copy (shmDataGetDataPtr (app.blockPtr off) + 0) bytes, h.live⟩)
      ⟨off, size, bytes, decide (r.resultCode = .async)⟩ := hfits.extend hstore
  -- the history has one more operation
  have hops : recv.path.ops = c.recv.path.ops
      ++ [⟨off, size, bytes, decide (r.resultCode = .async)⟩] := by
    obtain ⟨path, hpath, rfl⟩ := Option.map_eq_some_iff.mp hrecv
    rw [recvStep, heq] at hpath
    obtain rfl := Option.some.inj hpath
    rfl
  have hcompletion : StreamInv app h.store c →
      CompletionInv recv.path.ops recv.completed := by
    intro hinv
    obtain ⟨hpos, hlt⟩ := hinv.submitted off size hmem
    have haccepted : c.recv.Accepted (.recv off size) := by
      refine ⟨hpos, ?_⟩
      rw [heq]
      exact hserves
    exact hinv.completion.step hblocks.path haccepted hlt hrecv
  rcases hresult with ⟨hok, -, -⟩ | ⟨hwait, -⟩
  · rw [if_pos (by simp [hok]), hok] at hs
    subst hs
    have hinv := hstream (recvResults_enqueueInCqueue _ _ hnone).1
    exact (hkept hinv).of_filled hops (hcompletion hinv) (by rw [hok]; rfl) hnew
      hnone
  · have hasync : r.resultCode = .async := hwait.resolve_right hserves
    rw [if_neg (by simp [hasync])] at hs
    subst hs
    have hinv := hstream hnone
    exact (hkept hinv).of_waiting hops (hcompletion hinv) (decide_eq_true hasync)
      hnew

/-- The blocks of the recv operations that wait and those of the results, each
once. -/
theorem nodup_recvOps {ready waiting : List RecvOp}
    (hnodup : (c.owned app).Nodup)
    (hqueue : c.recv.path.socket.recvQueue.contents = waiting.map RecvOp.entry)
    (hresults : recvResults c.cqueue.contents = ready.map RecvOp.result) :
    ((waiting ++ ready).map (fun op => app.blockPtr op.recvBlockOffset)).Nodup := by
  have hready : (ready.map RecvOp.recvBlockOffset).Sublist
      (c.cqueue.contents.filterMap resultBlock) := by
    have hblock : ∀ l : List RecvOp, (l.map RecvOp.result).filterMap resultBlock
        = l.map RecvOp.recvBlockOffset := by
      intro l
      rw [List.filterMap_map, ← List.filterMap_eq_map]
      rfl
    rw [← hblock, ← hresults]
    exact List.Sublist.filterMap _ List.filter_sublist
  have hwaiting : waiting.map RecvOp.recvBlockOffset
      = c.recv.path.socket.recvQueue.contents.map
        PifusRecvQueueEntry.recvBlockOffset := by
    rw [hqueue, List.map_map]
    rfl
  have hsub : ((waiting ++ ready).map RecvOp.recvBlockOffset).Sublist c.offsets := by
    rw [DataSocket.offsets_eq, List.map_append, hwaiting]
    refine List.Sublist.append ?_ ?_
    · exact (List.sublist_append_right _ _).trans (List.sublist_append_left _ _)
    · exact hready.trans (List.sublist_append_left _ _)
  have hmap : (waiting ++ ready).map (fun op => app.blockPtr op.recvBlockOffset)
      = ((waiting ++ ready).map RecvOp.recvBlockOffset).map app.blockPtr := by
    rw [List.map_map]
    rfl
  rw [hmap]
  exact (hsub.map app.blockPtr).nodup hnodup

/-- **A chain is delivered**: the results of the operations that it completes
wait for the app. -/
theorem StreamInv.deliver {p : PbufChain} {recv : RecvHistory}
    (hI : HeapInv app h) (hblocks : BlocksInv app h.store c)
    (hnodup : (c.owned app).Nodup)
    (hstream : recvResults c.dropped = [] → StreamInv app h.store c)
    (hframe : ∀ q ∉ c.touched app (.deliver k p), ∀ l, h.store q = some l →
      HeapState.store ⟨(recvEvents c.recv.path.socket p).foldl (copyEvent app)
        h.mem, h.live⟩ q = some l)
    (hs : recvHistoryStep c.recv (.deliver p) = some recv)
    (hnone : recvResults ({ c with recv := recv }.complete .tcpRecv
      (completedOffsets (recvEvents c.recv.path.socket p))).dropped = []) :
    StreamInv app (HeapState.store ⟨(recvEvents c.recv.path.socket p).foldl
      (copyEvent app) h.mem, h.live⟩) ({ c with recv := recv }.complete .tcpRecv
      (completedOffsets (recvEvents c.recv.path.socket p))) := by
  obtain ⟨hold, hqueue⟩ := recvResults_complete _ _ _ hnone
  have hinv := hstream hold
  obtain ⟨given, ready, waiting, hsplit, hdone, hpending, hread, hresults,
    hholds⟩ := hinv.order
  have hentries : c.recv.path.socket.recvQueue.contents
      = waiting.map RecvOp.entry := by
    rw [hblocks.path.inv.queue, hsplit, filter_pending_eq hdone,
      List.filter_eq_self.mpr hpending]
  have hdistinct := nodup_recvOps hnodup hentries hresults
  rw [List.map_append] at hdistinct
  obtain ⟨-, ended, rest, hfold, -, hended, hrest, hoffsets, -, hkept⟩ :=
    hI.deliver_holds (deliver_entries hs) hentries hdone hpending
      hdistinct.of_append_left
      (fun op hop => hholds op (List.mem_append_right _ hop))
  -- the history is that of the events
  have hops : recv.path.ops = given ++ ready ++ ended ++ rest := by
    obtain ⟨path, hpath, rfl⟩ := Option.map_eq_some_iff.mp hs
    obtain ⟨err, s', events, served, hcallback, hops, -⟩ :=
      hblocks.path.served hpath
    have hevents : recvEvents c.recv.path.socket p = events := by
      rw [recvEvents, hcallback]
    rw [← hfold, hevents, ← hsplit]
    exact hops
  have hcompletion := hinv.completion.step hblocks.path
    (show c.recv.Accepted (.deliver p) from True.intro) True.intro hs
  obtain ⟨queue, dropped, heq, -⟩ := DataSocket.complete_eq { c with
    recv := recv } (Or.inr rfl)
    (completedOffsets (recvEvents c.recv.path.socket p))
  have hnew : recvResults ((completedOffsets (recvEvents c.recv.path.socket p)).map
      (fun off => (⟨.tcpRecv, .ok, off⟩ : PifusOperationResult ℕ)))
      = ended.map RecvOp.result := by
    rw [← hoffsets, List.map_map]
    refine List.filter_eq_self.mpr (fun result hresult => ?_)
    obtain ⟨op, -, rfl⟩ := List.mem_map.mp hresult
    rfl
  rw [hnew] at hqueue
  refine ⟨?_, ?_, given, ready ++ ended, rest, ?_, ?_, hrest, ?_, ?_, ?_⟩
  · rw [heq]
    exact hinv.submitted
  · rw [heq]
    exact hcompletion
  · rw [heq, ← List.append_assoc]
    exact hops
  · rw [← List.append_assoc]
    exact List.forall_mem_append.mpr ⟨hdone, hended⟩
  · rw [heq]
    exact hread
  · rw [List.map_append]
    exact hqueue.trans (congrArg (· ++ _) hresults)
  · rw [List.append_assoc]
    refine List.forall_mem_append.mpr ⟨fun op hop => ?_, hkept⟩
    -- the blocks of the results are not those of operations that wait
    refine (hholds op (List.mem_append_left _ hop)).mono (hframe _ ?_)
    intro htouched
    rw [DataSocket.touched, hentries, List.map_map, List.map_map] at htouched
    exact (List.disjoint_of_nodup_append hdistinct) htouched
      (List.mem_map_of_mem hop)

/-- **A step of a socket keeps the invariant**, if the other blocks of the
socket are as they were. -/
theorem StreamInv.step (hI : HeapInv app h) (hblocks : BlocksInv app h.store c)
    (hnodup : (c.owned app).Nodup)
    (hstream : recvResults c.dropped = [] → StreamInv app h.store c)
    (hframe : ∀ q ∉ c.touched app e, ∀ l, h.store q = some l →
      h'.store q = some l)
    (hserves : c.Serves e) (hs : SocketStep app h c e h' c')
    (hnone : recvResults c'.dropped = []) : StreamInv app h'.store c' := by
  -- what a step touches nothing of is kept
  have hmono : c.touched app e = [] → StreamInv app h.store c →
      StreamInv app h'.store c := fun htouched hinv =>
    hinv.mono hblocks.path (fun q _ => hframe q (by rw [htouched]; simp))
  cases hs with
  | recv hsize hcall =>
    have hinv := hmono rfl (hstream hnone)
    refine hinv.congr (fun off size hop => ?_) rfl rfl rfl
    rcases List.mem_append.mp hop with hop | hop
    · exact hinv.submitted off size hop
    · obtain ⟨-, rfl⟩ := DataOperation.recv.inj (List.mem_singleton.mp hop)
      exact ⟨hsize.1, hserves⟩
  | write hsize hcall =>
    have hinv := hmono rfl (hstream hnone)
    refine hinv.congr (fun off size hop => ?_) rfl rfl rfl
    rcases List.mem_append.mp hop with hop | hop
    · exact hinv.submitted off size hop
    · exact absurd (List.mem_singleton.mp hop) (by simp)
  | processRecv hop hs =>
    simp only [DataSocket.Serves, hop] at hserves
    exact StreamInv.processRecv hI hblocks hnodup hstream hop hserves hs hnone
  | processWrite hop hs => exact StreamInv.processWrite hstream hnone
  | deliver hs =>
    exact StreamInv.deliver hI hblocks hnodup hstream hframe hs hnone
  | sent hs => exact StreamInv.sent hstream hs hnone
  | result hcode =>
    exact StreamInv.result hstream (code_of_resultBlock hcode) hnone
  | @popWrite _ result queue hget hcode =>
    have hinv := hstream hnone
    have hrest : StreamInv app h.store { c with cqueue := queue } := by
      refine hinv.congr hinv.submitted rfl rfl ?_
      rw [RingBuffer.contents_get hget, recvResults_cons,
        recvResults_other (by rw [hcode]; simp), List.nil_append]
    have howned := (DataSocket.owned_pop_block app c.popped c.read hget
      (if_pos (Or.inl hcode))).nodup_iff.mp hnodup
    refine hrest.mono hblocks.path (fun q hq l hl => hframe q ?_ l hl)
    intro htouched
    rw [DataSocket.touched, hget, Option.bind_some, if_pos hcode] at htouched
    obtain rfl := List.mem_singleton.mp htouched
    exact (List.nodup_cons.mp howned).1 hq
  | popRecv hget hcode => exact (hstream hnone).popRecv hI hget hcode
  | popOther hget hcode =>
    have hinv := hstream hnone
    refine hinv.congr hinv.submitted rfl rfl ?_
    rw [RingBuffer.contents_get hget, recvResults_cons,
      recvResults_other (code_of_resultBlock hcode), List.nil_append]

end Steps

/-! ## Steps of the data path -/

theorem DataState.UsesHeap.frame {p : Ptr} {l : List UInt8}
    (hu : s.UsesHeap app e t) (hI : HeapInv app s.heap)
    (hp : p ∉ s.touched app e) (hl : s.heap.store p = some l) :
    t.heap.store p = some l := by
  obtain ⟨ops, hrun, htarget⟩ := hu
  refine BlockStore.run_other (hI.refines_run hrun).2 (fun op hop he => ?_) hl
  obtain ⟨op', hop', rfl⟩ := List.mem_map.mp hop
  rcases htarget op' hop' p he with htouched | hnew
  · exact hp htouched
  · obtain ⟨n, hmem, -⟩ := hI.store_eq_some_iff.mp hl
    exact hnew (List.mem_map_of_mem hmem)

theorem DataInv.disjoint_owned {j k : ℕ} (h : DataInv app s)
    (hc : s.sockets[j]? = some c) (hc' : s.sockets[k]? = some c') (hjk : j ≠ k) :
    List.Disjoint (c.owned app) (c'.owned app) := by
  have hnodup := h.owners.nodup_iff.mp h.heap.nodup_ptr
  have hpairwise := (List.nodup_flatMap.mp hnodup.of_append_left).2
  rw [List.pairwise_iff_getElem] at hpairwise
  obtain ⟨hj, rfl⟩ := List.getElem?_eq_some_iff.mp hc
  obtain ⟨hk, rfl⟩ := List.getElem?_eq_some_iff.mp hc'
  rcases Nat.lt_or_gt_of_ne hjk with hlt | hlt
  · exact hpairwise j k hj hk hlt
  · exact fun p hp hp' => hpairwise k j hk hj hlt hp' hp

/-- **A step does not touch the blocks of the other sockets.** -/
theorem DataInv.apart {j : ℕ} {p : Ptr} (h : DataInv app s)
    (hc : s.sockets[j]? = some c) (hs : DataStep app s e t)
    (hother : e.on ≠ some j ∨ ∀ c : DataSocket, c.touched app e = [])
    (hp : p ∈ c.owned app) : p ∉ s.touched app e := by
  cases hon : e.on with
  | none =>
    cases e with
    | free block =>
      have hheld : block ∈ s.held.map Prod.fst := by
        by_contra hnot
        rw [DataStep] at hs
        change s.free app block = some t at hs
        rw [DataState.free, if_neg hnot] at hs
        exact absurd hs (by simp)
      have hnodup := h.owners.nodup_iff.mp h.heap.nodup_ptr
      intro hmem
      obtain rfl := List.mem_singleton.mp hmem
      exact (List.disjoint_of_nodup_append hnodup)
        (List.mem_flatMap.mpr ⟨c, List.mem_of_getElem? hc, hp⟩) hheld
    | socket => simp [DataState.touched, DataEvent.on]
    | _ => exact absurd hon (by simp [DataEvent.on])
  | some k =>
    cases hk : s.sockets[k]? with
    | none =>
      have hnothing : s.touched app e = [] := by
        cases e with
        | free block => exact absurd hon (by simp [DataEvent.on])
        | _ =>
          simp only [DataState.touched]
          rw [hon, Option.bind_some, hk]
          rfl
      rw [hnothing]
      exact List.not_mem_nil
    | some c' =>
      rw [s.touched_eq hon hk]
      rcases hother with hne | hnothing
      · have hjk : j ≠ k := fun he => hne (by rw [hon, he])
        exact fun htouched => (h.disjoint_owned hc hk hjk) hp
          (DataSocket.touched_owned htouched)
      · rw [hnothing]
        exact List.not_mem_nil

/-- A step that is served, at whichever socket. -/
def DataState.Serves (s : DataState) (e : DataEvent) : Prop :=
  ∀ c ∈ e.on.bind (fun k => s.sockets[k]?), c.Serves e

instance (s : DataState) (e : DataEvent) : Decidable (s.Serves e) :=
  inferInstanceAs (Decidable (∀ c ∈ e.on.bind _, DataSocket.Serves c e))

/-- **The invariant of all sockets** of which no `TCP_RECV` result is dropped. -/
def DataState.Streams (app : AppRegion) (s : DataState) : Prop :=
  ∀ c ∈ s.sockets, recvResults c.dropped = [] → StreamInv app s.heap.store c

theorem streamInv_initial : StreamInv app B .initial where
  submitted := by simp [DataSocket.initial]
  completion := ⟨⟨[], [], rfl, rfl, by simp, by simp⟩⟩
  order := ⟨[], [], [], rfl, by simp, by simp, rfl, rfl, by simp⟩

/-- **Every step keeps the invariant.** -/
theorem DataState.Streams.step (h : DataInv app s) (hstreams : s.Streams app)
    (hok : s.FreesIntact app e) (hserves : s.Serves e)
    (hs : DataStep app s e t) : t.Streams app := by
  obtain ⟨huse, -⟩ := h.step hok hs
  -- a socket that the step is not about
  have hother : ∀ j c, s.sockets[j]? = some c →
      (e.on ≠ some j ∨ ∀ c : DataSocket, c.touched app e = []) →
      recvResults c.dropped = [] → StreamInv app t.heap.store c := by
    intro j c hc hapart hnone
    have hmem := List.mem_of_getElem? hc
    exact (hstreams c hmem hnone).mono (h.sockets c hmem).path
      (fun p hp l hl => huse.frame h.heap (h.apart hc hs hapart hp) hl)
  intro c₀ hc₀ hnone
  obtain ⟨j, hj⟩ := List.mem_iff_getElem?.mp hc₀
  rcases dataStep_cases hs with
    ⟨k, c, c', hk, hc, hset, hstep⟩ | ⟨hsocket, ht⟩ | ⟨hsame, hnothing⟩
  · rw [hset] at hj
    by_cases hjk : k = j
    · subst hjk
      rw [List.getElem?_set_self (List.getElem?_eq_some_iff.mp hc).1] at hj
      obtain rfl := Option.some.inj hj
      have hmem := List.mem_of_getElem? hc
      have hserves' : c.Serves e := hserves c (by rw [hk]; exact hc)
      refine StreamInv.step h.heap (h.sockets c hmem) (h.nodup_owned hmem)
        (hstreams c hmem) (fun q hq l hl => huse.frame h.heap ?_ hl) hserves'
        hstep hnone
      rw [s.touched_eq hk hc]
      exact hq
    · rw [List.getElem?_set_ne hjk] at hj
      refine hother j c₀ hj (Or.inl (fun he => hjk ?_)) hnone
      rw [hk] at he
      exact Option.some.inj he
  · subst hsocket
    subst ht
    rw [List.getElem?_append] at hj
    split at hj
    · exact hstreams c₀ (List.mem_of_getElem? hj) hnone
    · obtain rfl := List.mem_singleton.mp (List.mem_of_getElem? hj)
      exact streamInv_initial
  · rw [hsame] at hj
    exact hother j c₀ hj (Or.inr hnothing) hnone

/-! ## Runs -/

namespace DataSocket

/-- The data of the results that wait for the app, as the region has it. -/
def readyBytes (app : AppRegion) (m : Memory) (c : DataSocket) : List UInt8 :=
  (recvResults c.cqueue.contents).flatMap (fun result =>
    m.bytes (app.dataPtr result.data)
      (PifusMemoryBlock.size m (app.blockPtr result.data)))

/-- The bytes that the waiting operations have got, as the region has them. -/
def partBytes (app : AppRegion) (m : Memory) (c : DataSocket) : List UInt8 :=
  c.recv.path.socket.recvQueue.contents.flatMap (fun entry =>
    m.bytes (app.dataPtr entry.recvBlockOffset) entry.dataOffset)

end DataSocket

/-- **What the invariant says about the region.** -/
theorem StreamInv.bytes {h : HeapState} (hI : HeapInv app h)
    (hpath : RecvRunInv c.recv.path) (hstream : StreamInv app h.store c) :
    c.read ++ c.readyBytes app h.mem ++ c.partBytes app h.mem
      = c.recv.path.written := by
  obtain ⟨given, ready, waiting, hops, hdone, hpending, hread, hresults, hholds⟩ :=
    hstream.order
  have hready : c.readyBytes app h.mem = ready.flatMap RecvOp.bytes := by
    rw [DataSocket.readyBytes, hresults, List.flatMap_map]
    refine List.flatMap_congr (fun op hop => ?_)
    have hmem : op ∈ c.recv.path.ops := by
      rw [hops]
      exact List.mem_append_left _ (List.mem_append_right _ hop)
    exact hI.bytes_of_holds (hholds op (List.mem_append_left _ hop))
      (hstream.completion.full hmem (hdone op (List.mem_append_right _ hop)))
  have hpart : c.partBytes app h.mem = waiting.flatMap RecvOp.bytes := by
    rw [DataSocket.partBytes, hpath.inv.queue, hops, filter_pending_eq hdone,
      List.filter_eq_self.mpr hpending, List.flatMap_map]
    refine List.flatMap_congr (fun op hop => ?_)
    obtain ⟨l, hl, hlen, hpre⟩ := hholds op (List.mem_append_right _ hop)
    obtain ⟨n, hmem, rfl⟩ := hI.store_eq_some_iff.mp hl
    have hle := hpre.length_le
    rw [HeapState.data, Memory.length_bytes] at hle
    have htake : h.mem.bytes (app.dataPtr op.recvBlockOffset) op.bytes.length
        = (h.mem.bytes (app.dataPtr op.recvBlockOffset) n).take
          op.bytes.length := by
      rw [Memory.bytes, Memory.bytes, ← List.map_take, List.take_range,
        Nat.min_eq_left hle]
    exact htake.trans (List.prefix_iff_eq_take.mp hpre).symm
  rw [hread, hready, hpart, RecvState.written, hops, List.flatMap_append,
    List.flatMap_append]

/-- **The app reads the stream that lwIP delivers.** In every run in which each
freed block has its back offset intact, requests are below 2^16 bytes and no
recv operation is rejected: if no `TCP_RECV` result of a socket was dropped,
what the app has read from it, the bytes in the blocks whose results wait for
the app, those in the blocks of the operations that wait, those in the byte
buffer and the unread rest of a refused chain are together the stream that lwIP
has delivered. What the app holds is still what it found there. -/
theorem app_reads_the_stream {es : List DataEvent}
    (h : Run (Guarded (fun s e => s.FreesIntact app e ∧ s.Serves e)
      (DataStep app)) DataState.initial es s)
    (hc : c ∈ s.sockets) (hnone : recvResults c.dropped = []) :
    c.read ++ c.readyBytes app s.mem ++ c.partBytes app s.mem
        ++ c.recv.path.socket.recvBuffer.contents ++ c.recv.path.refusedRest
      = c.recv.path.stream
    ∧ ∀ b ∈ s.held, s.mem.bytes (shmDataGetDataPtr b.1)
        (PifusMemoryBlock.size s.mem b.1) = b.2 := by
  have hinv : DataInv app s ∧ s.Streams app := by
    refine h.invariant (fun s => DataInv app s ∧ s.Streams app)
      ⟨dataInv_initial, by simp [DataState.Streams, DataState.initial]⟩ ?_
    rintro s e t ⟨hinv, hstreams⟩ ⟨⟨hok, hserves⟩, hs⟩
    exact ⟨(hinv.step hok hs).2, hstreams.step hinv hok hserves hs⟩
  obtain ⟨hinv, hstreams⟩ := hinv
  have hpath := (hinv.sockets c hc).path
  refine ⟨?_, fun b hb => ?_⟩
  · have hbytes := (hstreams c hc hnone).bytes hinv.heap hpath
    rw [s.heap_mem] at hbytes
    rw [hbytes]
    exact hpath.inv.lossless
  · obtain ⟨n, hmem, hdata⟩ := hinv.heap.store_eq_some_iff.mp (hinv.held b hb)
    have hsize := (hinv.heap.size_eq hmem).1
    rw [s.heap_mem] at hsize
    rw [hsize]
    exact hdata

/-- Operations of three and of four bytes, and a chain of five; the first result
is popped. -/
theorem app_reads_the_stream_five :
    ∃ (s : DataState) (c : DataSocket), c ∈ s.sockets ∧ c.read = [1, 2, 3]
      ∧ c.recv.path.stream = [1, 2, 3, 4, 5]
      ∧ c.read ++ c.readyBytes exampleRegion s.mem
          ++ c.partBytes exampleRegion s.mem
          ++ c.recv.path.socket.recvBuffer.contents ++ c.recv.path.refusedRest
        = c.recv.path.stream := by
  have hs : ([.socket, .recv 0 3, .recv 0 4, .process 0 false .ok,
      .process 0 false .ok, .deliver 0 ⟨[[1, 2], [3, 4, 5]], by decide⟩,
      .pop 0].foldlM (guardedStep (fun s e => s.FreesFirst exampleRegion e
        ∧ s.Serves e) (dataStep exampleRegion)) DataState.initial).any
      (fun s => s.sockets[0]?.any (fun c => c.read = [1, 2, 3]
        ∧ c.recv.path.stream = [1, 2, 3, 4, 5]
        ∧ recvResults c.dropped = [])) = true := by
    decide +kernel
  obtain ⟨s, hrun, hp⟩ := (Option.any_eq_true _ _).mp hs
  obtain ⟨c, hc, hp⟩ := (Option.any_eq_true _ _).mp hp
  obtain ⟨hread, hstream, hnone⟩ := of_decide_eq_true hp
  have hintact := (Run.guarded_of_foldlM hrun).mono
    (fun s e t hs => And.intro (And.intro hs.1.1.intact hs.1.2) hs.2)
  have hmem := List.mem_of_getElem? hc
  exact ⟨s, c, hmem, hread, hstream,
    (app_reads_the_stream hintact hmem hnone).1⟩
