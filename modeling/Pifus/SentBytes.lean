import Pifus.DataRuns

/-!
# lwIP sends what the app has written

`tcp_write` is told to take no copy: what lwIP sends, and sends again, it reads
from the write block at that time. So the bytes have to stay where they are
until they are acknowledged. They do, because the block belongs to the write
queue until then (`SendInv`), and a block that belongs to someone is changed by
nobody else.
-/

variable {app : AppRegion} {s t : DataState} {c c' : DataSocket}

/-! ## The memory that lwIP refers to -/

theorem Memory.map_range' (m : Memory) {a k n : ℕ} (h : k ≤ n) :
    (List.range' a k).map m = (m.bytes a n).take k := by
  rw [Memory.bytes, ← List.map_take, List.take_range, Nat.min_eq_left h,
    List.range'_eq_map_range, List.map_map]
  rfl

/-- The memory at the addresses that lwIP was given for writes that wait. -/
theorem map_references {h : HeapState} (hI : HeapInv app h)
    {entries : List PifusWriteQueueEntry} {datas : List (List UInt8)}
    (hsends : List.Forall₂ (Sends app h.store) entries datas) :
    (references app entries datas).map h.mem
      = datas.flatMap (fun data => data.take (data.length % 2 ^ 16)) := by
  induction hsends with
  | nil => rfl
  | @cons entry data entries datas hfirst _ ih =>
    obtain ⟨n, hmem, hdata⟩ :=
      hI.store_eq_some_iff.mp (hfirst.1.eq_of_length rfl)
    have hn : data.length = n := by
      rw [← hdata, HeapState.data, Memory.length_bytes]
    have hbytes : h.mem.bytes (app.dataPtr entry.writeBlockOffset) data.length
        = data := by
      rw [hn]
      exact hdata
    rw [references, List.map_append, ih, List.flatMap_cons,
      Memory.map_range' _ (Nat.mod_le _ _), hbytes]

theorem length_flatMap_take (datas : List (List UInt8)) :
    (datas.flatMap (fun data => data.take (data.length % 2 ^ 16))).length
      = (datas.map (fun data => data.length % 2 ^ 16)).sum := by
  rw [List.length_flatMap]
  refine congrArg List.sum (List.map_congr_left (fun data _ => ?_))
  rw [List.length_take]
  exact Nat.min_eq_left (Nat.mod_le _ _)

/-- **The memory lwIP still refers to** is what it was given. -/
theorem SendInv.map_referenced {h : HeapState} (hI : HeapInv app h)
    (hc : SendInv app h.store c) :
    c.referenced.length = c.sentBytes.length
    ∧ (c.referenced.drop c.acked).map h.mem = c.sentBytes.drop c.acked := by
  obtain ⟨done, waiting, refs, hacc, hsends, hrefs, hlen⟩ := hc.order
  have hbooks := hc.books
  have hqueued := bytesOf_le_of_sends hsends
  have hdone := sum_mod_le done
  rw [hacc, List.map_append, List.sum_append] at hbooks
  refine ⟨hc.length_referenced.trans (length_flatMap_take _).symm, ?_⟩
  have hdoneLen := length_flatMap_take done
  -- what is completed is acknowledged
  have hacked : refs.length ≤ c.acked := by omega
  have haddresses : c.referenced.drop c.acked
      = (references app c.writeQueue.contents waiting).drop
        (c.acked - refs.length) := by
    rw [hrefs, List.drop_append, List.drop_eq_nil_of_le hacked, List.nil_append]
  have hbytes : c.sentBytes.drop c.acked
      = (waiting.flatMap (fun data => data.take (data.length % 2 ^ 16))).drop
        (c.acked - refs.length) := by
    unfold DataSocket.sentBytes
    rw [hacc, List.flatMap_append, List.drop_append,
      List.drop_eq_nil_of_le (by omega), List.nil_append, hdoneLen, hlen]
  rw [haddresses, hbytes, List.map_drop, map_references hI hsends]

/-! ## What the app has written -/

/-- The data of the `pifus_socket_write` calls on a socket. -/
def writtenTo (k : ℕ) (es : List DataEvent) : List (List UInt8) :=
  es.filterMap (fun e =>
    match e with
    | .write k' data => if k' = k then some data else none
    | _ => none)

/-- The writes of a socket that lwIP has accepted or that are not processed. -/
def DataSocket.writes (c : DataSocket) : List (List UInt8) :=
  c.accepted ++ c.unprocessed

/-- The same, by the number of the socket. -/
def DataState.writes (s : DataState) (k : ℕ) : List (List UInt8) :=
  s.sockets[k]?.elim [] DataSocket.writes

theorem writes_enqueueInCqueue (c : DataSocket)
    (result : PifusOperationResult ℕ) :
    (c.enqueueInCqueue result).writes = c.writes := by
  obtain ⟨queue, dropped, heq, -⟩ := c.enqueueInCqueue_eq result
  rw [heq]
  rfl

theorem writes_complete (c : DataSocket) (code : PifusOperationCode)
    (offsets : List ℕ) : (c.complete code offsets).writes = c.writes := by
  induction offsets generalizing c with
  | nil => rfl
  | cons offset offsets ih =>
    exact (ih _).trans (writes_enqueueInCqueue _ _)

/-- A write that is processed is accepted or gone. -/
theorem writes_processWrite {off : ℕ} {r : TxTcpWrite} :
    (c.processWrite app off r).writes.Sublist c.writes := by
  have hsub : ((if r.accepted.isSome then c.accepted ++ c.unprocessed.head?.toList
      else c.accepted) ++ c.unprocessed.tail).Sublist c.writes := by
    unfold DataSocket.writes
    split
    · rw [List.append_assoc]
      cases c.unprocessed <;> exact List.Sublist.refl _
    · exact List.Sublist.append_left (List.tail_sublist _) _
  unfold DataSocket.processWrite
  split
  · exact List.Sublist.refl _
  · dsimp only
    split
    · rw [writes_enqueueInCqueue]
      exact hsub
    · exact hsub

/-- **A step adds to the writes of its socket** what the app has written. -/
theorem SocketStep.writes {h h' : HeapState} {e : DataEvent} {k : ℕ}
    (hs : SocketStep app h c e h' c') (hk : e.on = some k) :
    c'.writes.Sublist (c.writes ++ writtenTo k [e]) := by
  have hsame : c'.writes.Sublist c.writes →
      c'.writes.Sublist (c.writes ++ writtenTo k [e]) :=
    fun hsub => hsub.trans (List.sublist_append_left _ _)
  cases hs with
  | write hsize hcall =>
    obtain rfl := Option.some.inj hk
    rename_i j data _ _ _
    have hself : writtenTo j [.write j data] = [data] := by
      simp [writtenTo]
    have hassoc : c.accepted ++ (c.unprocessed ++ [data])
        = c.accepted ++ c.unprocessed ++ [data] :=
      (List.append_assoc _ _ _).symm
    rw [hself]
    exact hassoc ▸ List.Sublist.refl _
  | processRecv hop hs =>
    refine hsame ?_
    unfold DataSocket.processRecv at hs
    obtain ⟨recv, -, rfl⟩ := Option.map_eq_some_iff.mp hs
    dsimp only
    split
    · rw [writes_enqueueInCqueue]
      exact List.Sublist.refl _
    · exact List.Sublist.refl _
  | processWrite hop hs => exact hsame writes_processWrite
  | deliver hs =>
    refine hsame ?_
    rw [writes_complete]
    exact List.Sublist.refl _
  | sent hs =>
    refine hsame ?_
    unfold DataSocket.sent at hs
    split at hs
    · obtain ⟨r, -, hs⟩ := Option.bind_eq_some_iff.mp hs
      split at hs
      · exact absurd hs (by simp)
      · obtain rfl := Option.some.inj hs
        rw [writes_complete]
        exact List.Sublist.refl _
    · exact absurd hs (by simp)
  | result hnone =>
    refine hsame ?_
    rw [writes_enqueueInCqueue]
  | recv hsize hcall => exact hsame (List.Sublist.refl _)
  | popWrite hget hcode => exact hsame (List.Sublist.refl _)
  | popRecv hget hcode => exact hsame (List.Sublist.refl _)
  | popOther hget hnone => exact hsame (List.Sublist.refl _)

/-- **A step adds to the writes what the app has written**, at the end. -/
theorem writes_step {e : DataEvent} (hs : DataStep app s e t) (k : ℕ) :
    (t.writes k).Sublist (s.writes k ++ writtenTo k [e]) := by
  unfold DataState.writes
  rcases dataStep_cases hs with
    ⟨j, c, c', hj, hc, hset, hstep⟩ | ⟨-, rfl⟩ | ⟨hsame, -⟩
  · rw [hset]
    by_cases hk : j = k
    · subst hk
      rw [List.getElem?_set_self (List.getElem?_eq_some_iff.mp hc).1, hc]
      exact hstep.writes hj
    · rw [List.getElem?_set_ne hk]
      exact List.sublist_append_left _ _
  · dsimp only
    rw [List.getElem?_append]
    split
    · exact List.sublist_append_left _ _
    · cases hk : k - s.sockets.length with
      | zero => exact List.nil_sublist _
      | succ n => exact List.nil_sublist _
  · rw [hsame]
    exact List.sublist_append_left _ _

theorem writes_of_run {es : List DataEvent}
    (h : Run (IntactDataStep app) DataState.initial es s) (k : ℕ) :
    (s.writes k).Sublist (writtenTo k es) := by
  induction h with
  | nil => exact List.nil_sublist _
  | snoc _ hs ih =>
    have happend : ∀ es e, writtenTo k (es ++ [e])
        = writtenTo k es ++ writtenTo k [e] := fun es e =>
      List.filterMap_append
    rw [happend]
    exact (writes_step hs.2 k).trans (List.Sublist.append_right ih _)

/-- **lwIP sends what the app has written.** In every run in which each freed
block has its back offset intact: lwIP has been given the bytes of some of the
app's writes, in the order of the calls (of one of 2^16 bytes or more, as many as
the low half-word of its length says), and as long as one of these bytes is not
acknowledged it is in the memory at the address that lwIP was given for it.
Acknowledged bytes always find their writes. -/
theorem lwip_sends_what_was_written {es : List DataEvent} {k : ℕ}
    (h : Run (IntactDataStep app) DataState.initial es s)
    (hc : s.sockets[k]? = some c) :
    c.accepted.Sublist (writtenTo k es)
    ∧ c.referenced.length = c.sentBytes.length
    ∧ (c.referenced.drop c.acked).map s.mem = c.sentBytes.drop c.acked
    ∧ ∀ len, 0 < len → len < 2 ^ 16 → c.acked + len ≤ c.referenced.length →
        (c.sent len).isSome := by
  obtain ⟨-, hinv⟩ := dataInv_of_run h
  have hsends := (hinv.sockets c (List.mem_of_getElem? hc)).sends
  obtain ⟨hlength, hmap⟩ := hsends.map_referenced hinv.heap
  have hwrites := writes_of_run h k
  unfold DataState.writes at hwrites
  rw [hc] at hwrites
  refine ⟨(List.sublist_append_left _ _).trans hwrites, hlength, hmap,
    fun len hpos hlt hle => ?_⟩
  obtain ⟨r, hr, hexited, -⟩ := hsends.acknowledge hpos hlt hle
  rw [DataSocket.sent, if_pos ⟨hpos, hlt, hle⟩, hr, Option.bind_some, hexited]
  rfl

/-- A write of three bytes, of which two are acknowledged. -/
theorem lwip_sends_what_was_written_three :
    ∃ (s : DataState) (c : DataSocket), s.sockets[0]? = some c ∧ c.acked = 2
      ∧ c.sentBytes = [7, 8, 9]
      ∧ (c.referenced.drop c.acked).map s.mem = c.sentBytes.drop c.acked := by
  have hs : ([.socket, .write 0 [7, 8, 9], .recv 0 2, .process 0 false .ok,
      .process 0 false .ok, .sent 0 2].foldlM
      (guardedStep (DataState.FreesFirst exampleRegion)
        (dataStep exampleRegion)) DataState.initial).any
      (fun s => s.sockets[0]?.any (fun c => c.acked = 2
        ∧ c.sentBytes = [7, 8, 9])) = true := by
    decide +kernel
  obtain ⟨s, hrun, hp⟩ := (Option.any_eq_true _ _).mp hs
  obtain ⟨c, hc, hp⟩ := (Option.any_eq_true _ _).mp hp
  obtain ⟨hacked, hbytes⟩ := of_decide_eq_true hp
  exact ⟨s, c, hc, hacked, hbytes,
    (lwip_sends_what_was_written (DataState.run_of_freesFirst hrun) hc).2.2.1⟩
