import Pifus.Acknowledgements
import Pifus.DataPath

/-!
# Every block has one owner

A block changes hands without a word: an operation carries it to the stack, a
queue entry keeps it there, a result brings it back, and then the app has it.
What has to hold is that these are all the blocks there are, each in one place
(`DataInv.owners`). Then an offset that someone finds in an operation, an entry
or a result is that of a live block, the one who found it is the only one to
have it, and every call of the allocator and every `memcpy` on the data path is
a step that the heap allows. So a run of the data path is a run of the heap
(`DataInv.step`), and what the heap is shown to do for such runs, it does here.

What is known of the blocks of a socket (`BlocksInv`) speaks of no other block.
It is therefore kept by whatever the other sockets do.
-/

variable {app : AppRegion} {B B' : BlockStore Ptr UInt8} {c c' : DataSocket}
  {s t : DataState}

/-! ## What is known of a socket's blocks -/

/-- The block of an entry of the write queue has the data of its write. -/
def Sends (app : AppRegion) (B : BlockStore Ptr UInt8)
    (entry : PifusWriteQueueEntry) (data : List UInt8) : Prop :=
  B.Holds (app.blockPtr entry.writeBlockOffset) data.length data
    ∧ 0 < entry.size ∧ entry.size ≤ data.length

/-- The addresses that `tcp_write` was given for entries of the write queue. -/
def references (app : AppRegion) :
    List PifusWriteQueueEntry → List (List UInt8) → List Ptr
  | entry :: entries, data :: datas =>
    List.range' (app.dataPtr entry.writeBlockOffset) (data.length % 2 ^ 16)
      ++ references app entries datas
  | _, _ => []

/-- **The send path of a socket**: the writes that lwIP has accepted and that
are not completed are those of the write queue. -/
structure SendInv (app : AppRegion) (B : BlockStore Ptr UInt8)
    (c : DataSocket) : Prop where
  order : ∃ done waiting refs, c.accepted = done ++ waiting
    ∧ List.Forall₂ (Sends app B) c.writeQueue.contents waiting
    ∧ c.referenced = refs ++ references app c.writeQueue.contents waiting
    ∧ refs.length = (done.map (fun data => data.length % 2 ^ 16)).sum
  books : bytesOf c.writeQueue.contents + c.acked
    = (c.accepted.map List.length).sum

/-- The block of an operation has the size that was asked for. -/
def OperationFits (app : AppRegion) (B : BlockStore Ptr UInt8) :
    DataOperation → Prop
  | .recv recvBlockOffset size =>
    B.Holds (app.blockPtr recvBlockOffset) size []
  | .write _ => True

/-- The block of an entry of the recv queue has room for what is missing. -/
def EntryFits (app : AppRegion) (B : BlockStore Ptr UInt8)
    (entry : PifusRecvQueueEntry) : Prop :=
  B.Holds (app.blockPtr entry.recvBlockOffset) (entry.dataOffset + entry.size) []

/-- A write that is not processed has its data in its block. -/
def WriteFits (app : AppRegion) (B : BlockStore Ptr UInt8) (blockOffset : ℕ)
    (data : List UInt8) : Prop :=
  B.Holds (app.blockPtr blockOffset) data.length data ∧ 0 < data.length

/-- **What is known of the blocks of a socket.** -/
structure BlocksInv (app : AppRegion) (B : BlockStore Ptr UInt8)
    (c : DataSocket) : Prop where
  ops : ∀ op ∈ c.ops, OperationFits app B op
  writes : List.Forall₂ (WriteFits app B)
    (c.ops.filterMap DataOperation.writeOffset) c.unprocessed
  entries : ∀ entry ∈ c.recv.path.socket.recvQueue.contents,
    EntryFits app B entry
  path : RecvRunInv c.recv.path
  sends : SendInv app B c

/-! ## Frames -/

theorem forall₂_imp_of_mem {α β : Type*} {R S : α → β → Prop} {l : List α}
    {l' : List β} (h : List.Forall₂ R l l')
    (himp : ∀ a ∈ l, ∀ b, R a b → S a b) : List.Forall₂ S l l' := by
  induction h with
  | nil => exact List.Forall₂.nil
  | cons hab _ ih =>
    exact List.Forall₂.cons (himp _ List.mem_cons_self _ hab)
      (ih (fun a ha => himp a (List.mem_cons_of_mem _ ha)))

theorem mem_owned_of_op {op : DataOperation} (h : op ∈ c.ops) :
    app.blockPtr op.offset ∈ c.owned app := by
  refine List.mem_map_of_mem ?_
  simp only [DataSocket.offsets, List.mem_append]
  exact Or.inl (Or.inl (Or.inl (Or.inl (List.mem_map_of_mem h))))

theorem mem_owned_of_entry {entry : PifusRecvQueueEntry}
    (h : entry ∈ c.recv.path.socket.recvQueue.contents) :
    app.blockPtr entry.recvBlockOffset ∈ c.owned app := by
  refine List.mem_map_of_mem ?_
  simp only [DataSocket.offsets, List.mem_append]
  exact Or.inl (Or.inl (Or.inl (Or.inr (List.mem_map_of_mem h))))

theorem mem_owned_of_write {entry : PifusWriteQueueEntry}
    (h : entry ∈ c.writeQueue.contents) :
    app.blockPtr entry.writeBlockOffset ∈ c.owned app := by
  refine List.mem_map_of_mem ?_
  simp only [DataSocket.offsets, List.mem_append]
  exact Or.inl (Or.inl (Or.inr (List.mem_map_of_mem h)))

theorem SendInv.mono (h : SendInv app B c)
    (hB : ∀ entry ∈ c.writeQueue.contents, ∀ l,
      B (app.blockPtr entry.writeBlockOffset) = some l →
      B' (app.blockPtr entry.writeBlockOffset) = some l) :
    SendInv app B' c := by
  obtain ⟨done, waiting, refs, hacc, hsends, hrefs, hlen⟩ := h.order
  refine ⟨⟨done, waiting, refs, hacc, ?_, hrefs, hlen⟩, h.books⟩
  refine forall₂_imp_of_mem hsends ?_
  intro entry hentry data ⟨hholds, hsize⟩
  exact ⟨hholds.mono (hB entry hentry), hsize⟩

/-- What is known of a socket's blocks, when those of the recv queue change. -/
theorem BlocksInv.change (B' : BlockStore Ptr UInt8) (h : BlocksInv app B c)
    (hops : ∀ op ∈ c.ops, ∀ l, B (app.blockPtr op.offset) = some l →
      B' (app.blockPtr op.offset) = some l)
    (hqueue : ∀ entry ∈ c.writeQueue.contents, ∀ l,
      B (app.blockPtr entry.writeBlockOffset) = some l →
      B' (app.blockPtr entry.writeBlockOffset) = some l)
    (hentries : ∀ entry ∈ c.recv.path.socket.recvQueue.contents,
      EntryFits app B' entry) : BlocksInv app B' c where
  ops := by
    intro op hop
    have hfits := h.ops op hop
    cases op with
    | recv off size => exact hfits.mono (hops _ hop)
    | write off => exact True.intro
  writes := by
    refine forall₂_imp_of_mem h.writes ?_
    intro off hoff data ⟨hholds, hpos⟩
    obtain ⟨op, hop, hwrite⟩ := List.mem_filterMap.mp hoff
    cases op with
    | recv off' size => exact absurd hwrite (by simp [DataOperation.writeOffset])
    | write off' =>
      obtain rfl := Option.some.inj hwrite
      exact ⟨hholds.mono (hops _ hop), hpos⟩
  entries := hentries
  path := h.path
  sends := h.sends.mono hqueue

/-- **What is known of a socket's blocks is kept with them.** -/
theorem BlocksInv.mono (h : BlocksInv app B c)
    (hB : ∀ p ∈ c.owned app, ∀ l, B p = some l → B' p = some l) :
    BlocksInv app B' c :=
  h.change B' (fun _ hop => hB _ (mem_owned_of_op hop))
    (fun _ hentry => hB _ (mem_owned_of_write hentry))
    (fun entry hentry => (h.entries entry hentry).mono
      (hB _ (mem_owned_of_entry hentry)))

/-! ## Results -/

namespace DataSocket

/-- The offsets of the blocks of all results. -/
def resultOffsets (c : DataSocket) : List ℕ :=
  c.cqueue.contents.filterMap resultBlock ++ c.dropped.filterMap resultBlock

/-- **A result goes to the completion queue**, or is dropped. -/
theorem enqueueInCqueue_eq (c : DataSocket) (result : PifusOperationResult ℕ) :
    ∃ queue dropped, c.enqueueInCqueue result
        = { c with cqueue := queue, dropped := dropped }
      ∧ (c.enqueueInCqueue result).resultOffsets.Perm
          ((resultBlock result).toList ++ c.resultOffsets) := by
  have hone : [result].filterMap resultBlock = (resultBlock result).toList := by
    cases h : resultBlock result with
    | none => exact List.filterMap_cons_none h
    | some off => exact List.filterMap_cons_some h
  unfold enqueueInCqueue
  cases hput : c.cqueue.put result with
  | some queue =>
    refine ⟨queue, c.dropped, rfl, ?_⟩
    unfold resultOffsets
    rw [RingBuffer.contents_put hput, List.filterMap_append, hone,
      List.append_assoc]
    exact List.perm_append_comm_assoc _ _ _
  | none =>
    refine ⟨c.cqueue, c.dropped ++ [result], rfl, ?_⟩
    unfold resultOffsets
    rw [List.filterMap_append, hone, ← List.append_assoc]
    exact List.perm_append_comm

theorem enqueueInCqueue_block (c : DataSocket)
    (result : PifusOperationResult ℕ) {off : ℕ} (h : resultBlock result = some off) :
    ∃ queue dropped, c.enqueueInCqueue result
        = { c with cqueue := queue, dropped := dropped }
      ∧ (c.enqueueInCqueue result).resultOffsets.Perm
          (off :: c.resultOffsets) := by
  obtain ⟨queue, dropped, heq, hperm⟩ := c.enqueueInCqueue_eq result
  rw [h] at hperm
  exact ⟨queue, dropped, heq, hperm⟩

/-- Results go to the completion queue, or are dropped. -/
theorem complete_eq (c : DataSocket) {code : PifusOperationCode}
    (hcode : code = .tcpWrite ∨ code = .tcpRecv) (offsets : List ℕ) :
    ∃ queue dropped, c.complete code offsets
        = { c with cqueue := queue, dropped := dropped }
      ∧ (c.complete code offsets).resultOffsets.Perm
          (offsets ++ c.resultOffsets) := by
  induction offsets generalizing c with
  | nil => exact ⟨c.cqueue, c.dropped, rfl, List.Perm.refl _⟩
  | cons offset offsets ih =>
    obtain ⟨queue, dropped, heq, hperm⟩ :=
      c.enqueueInCqueue_block ⟨code, .ok, offset⟩ (if_pos hcode)
    obtain ⟨queue', dropped', heq', hperm'⟩ :=
      ih (c.enqueueInCqueue ⟨code, .ok, offset⟩)
    refine ⟨queue', dropped', ?_, ?_⟩
    · rw [complete, List.foldl_cons]
      refine heq'.trans ?_
      rw [heq]
    · rw [complete, List.foldl_cons]
      exact hperm'.trans ((hperm.append_left _).trans List.perm_middle)

theorem offsets_eq (c : DataSocket) :
    c.offsets = c.ops.map DataOperation.offset
      ++ c.recv.path.socket.recvQueue.contents.map
        PifusRecvQueueEntry.recvBlockOffset
      ++ c.writeQueue.contents.map PifusWriteQueueEntry.writeBlockOffset
      ++ c.resultOffsets := by
  rw [offsets, resultOffsets,
    List.append_assoc _ (c.cqueue.contents.filterMap _)]

end DataSocket

theorem BlocksInv.results (h : BlocksInv app B c)
    (queue : RingBuffer (PifusOperationResult ℕ))
    (dropped : List (PifusOperationResult ℕ)) :
    BlocksInv app B { c with cqueue := queue, dropped := dropped } :=
  ⟨h.ops, h.writes, h.entries, h.path, ⟨h.sends.order, h.sends.books⟩⟩

/-! ## Steps of a socket -/

theorem exists_split_of_getElem? {α : Type*} {l : List α} {i : ℕ} {a : α}
    (h : l[i]? = some a) :
    ∃ pre post, l = pre ++ a :: post ∧ pre.length = i
      ∧ l.eraseIdx i = pre ++ post ∧ ∀ b, l.set i b = pre ++ b :: post := by
  obtain ⟨hi, rfl⟩ := List.getElem?_eq_some_iff.mp h
  refine ⟨l.take i, l.drop (i + 1), ?_, ?_, ?_, fun b => ?_⟩
  · rw [List.getElem_cons_drop, List.take_append_drop]
  · rw [List.length_take]
    omega
  · exact List.eraseIdx_eq_take_drop_succ l i
  · exact List.set_eq_take_append_cons_drop.trans (if_pos hi)

/-- What the recv queue holds after `tx_tcp_recv`, and how much was copied. -/
theorem txTcpRecv_queue {recv recv' : RecvHistory} {off size : ℕ}
    (hpath : RecvRunInv recv.path)
    (hs : recvHistoryStep recv (.recv off size) = some recv') :
    recv'.path.socket.recvQueue.contents = recv.path.socket.recvQueue.contents
      ++ (if (txTcpRecv recv.path.socket off size).1.resultCode = .async then
          [⟨size - (txTcpRecv recv.path.socket off size).2.2.length, off,
            (txTcpRecv recv.path.socket off size).2.2.length⟩] else [])
    ∧ (txTcpRecv recv.path.socket off size).2.2.length ≤ size
    ∧ RecvRunInv recv'.path := by
  obtain ⟨path, hstep, rfl⟩ := Option.map_eq_some_iff.mp hs
  obtain ⟨r, socket', popped, heq, hinv, -, -, hle, -⟩ :=
    txTcpRecv_spec hpath.inv off size
  have hpath' := hpath.step hstep
  rw [recvStep] at hstep
  obtain rfl := Option.some.inj hstep
  rw [heq] at hpath' ⊢
  refine ⟨?_, Nat.le_trans hle (Nat.mod_le _ _), hpath'⟩
  dsimp only
  rw [hinv.queue, hpath.inv.queue, List.filter_append, List.map_append]
  by_cases hasync : r.resultCode = .async
  · rw [if_pos hasync, decide_eq_true hasync]
    rfl
  · rw [if_neg hasync, decide_eq_false hasync]
    rfl

/-- **A `TCP_RECV` operation is processed**: its block goes to the recv queue or
to a result. -/
theorem BlocksInv.processRecv {i off size : ℕ}
    (h : BlocksInv app B { c with ops := c.ops.eraseIdx i })
    (hop : c.ops[i]? = some (.recv off size))
    (hfits : B.Holds (app.blockPtr off) size [])
    (hs : c.processRecv i off size = some c') :
    BlocksInv app B c' ∧ c'.offsets.Perm c.offsets := by
  unfold DataSocket.processRecv at hs
  obtain ⟨recv, hrecv, rfl⟩ := Option.map_eq_some_iff.mp hs
  have hold : RecvRunInv c.recv.path := h.path
  obtain ⟨hqueue, hle, hpath⟩ := txTcpRecv_queue hold hrecv
  obtain ⟨pre, post, hops, -, herase, -⟩ := exists_split_of_getElem? hop
  have hfront : (c.ops.map DataOperation.offset).Perm
      (off :: (c.ops.eraseIdx i).map DataOperation.offset) := by
    rw [herase, hops, List.map_append, List.map_append, List.map_cons]
    exact List.perm_middle
  dsimp only
  by_cases hasync : (txTcpRecv c.recv.path.socket off size).1.resultCode = .async
  · rw [if_neg (by simp [hasync])]
    rw [if_pos hasync] at hqueue
    refine ⟨⟨h.ops, h.writes, fun entry hentry => ?_, hpath,
      ⟨h.sends.order, h.sends.books⟩⟩, ?_⟩
    · rw [hqueue] at hentry
      rcases List.mem_append.mp hentry with hold | hnew
      · exact h.entries entry hold
      · obtain rfl := List.mem_singleton.mp hnew
        show B.Holds _ (_ + (size - _)) []
        rw [Nat.add_sub_cancel' hle]
        exact hfits
    · rw [DataSocket.offsets_eq, DataSocket.offsets_eq]
      refine List.Perm.append_right _ (List.Perm.append_right _ ?_)
      dsimp only
      rw [hqueue, List.map_append, ← List.append_assoc]
      exact (List.perm_append_singleton _ _).trans (hfront.symm.append_right _)
  · rw [if_pos (by simpa using hasync)]
    rw [if_neg hasync, List.append_nil] at hqueue
    obtain ⟨queue, dropped, heq, hperm⟩ :=
      { c with ops := c.ops.eraseIdx i, recv := recv }.enqueueInCqueue_block
        ⟨.tcpRecv, (txTcpRecv c.recv.path.socket off size).1.resultCode, off⟩ rfl
    refine ⟨?_, ?_⟩
    · rw [heq]
      refine BlocksInv.results (c := { c with
        ops := c.ops.eraseIdx i, recv := recv }) ⟨h.ops, h.writes, ?_, hpath,
        ⟨h.sends.order, h.sends.books⟩⟩ queue dropped
      dsimp only
      rw [hqueue]
      exact h.entries
    · rw [DataSocket.offsets_eq, DataSocket.offsets_eq]
      refine (List.Perm.append_left _ hperm).trans ?_
      rw [heq]
      dsimp only
      rw [hqueue]
      exact List.perm_middle.trans
        (((hfront.symm.append_right _).append_right _).append_right _)

/-- What `tx_tcp_write` comes to. -/
theorem txTcpWrite_cases {queue : RingBuffer PifusWriteQueueEntry}
    {off size : ℕ} {err : ErrT} {r : TxTcpWrite}
    (hs : txTcpWrite queue off size err = some r) :
    (r.resultCode = .tryAgain)
    ∨ (r.resultCode = .err ∧ r.writeQueue = queue ∧ r.accepted = none)
    ∨ (r.resultCode = .async ∧ r.accepted = some (size % 2 ^ 16)
      ∧ r.writeQueue.contents = queue.contents ++ [⟨size, off⟩]) := by
  unfold txTcpWrite at hs
  split at hs
  · obtain rfl := Option.some.inj hs
    exact Or.inr (Or.inl ⟨rfl, rfl, rfl⟩)
  · cases err with
    | ok =>
      obtain ⟨queue', hput, rfl⟩ := Option.map_eq_some_iff.mp hs
      exact Or.inr (Or.inr ⟨rfl, rfl, RingBuffer.contents_put hput⟩)
    | mem =>
      obtain rfl := Option.some.inj hs
      exact Or.inl rfl
    | other code =>
      obtain rfl := Option.some.inj hs
      exact Or.inr (Or.inl ⟨rfl, rfl, rfl⟩)

theorem references_append {entries entries' : List PifusWriteQueueEntry}
    {datas datas' : List (List UInt8)} (h : entries.length = datas.length) :
    references app (entries ++ entries') (datas ++ datas')
      = references app entries datas ++ references app entries' datas' := by
  induction entries generalizing datas with
  | nil =>
    obtain rfl := List.length_eq_zero_iff.mp h.symm
    rfl
  | cons entry entries ih =>
    cases datas with
    | nil => exact absurd h (by simp)
    | cons data datas =>
      rw [List.cons_append, List.cons_append, references, references,
        ih (Nat.succ.inj h), List.append_assoc]

/-- lwIP was given as many addresses as the lengths say. -/
theorem length_references {entries : List PifusWriteQueueEntry}
    {datas : List (List UInt8)} (h : entries.length = datas.length) :
    (references app entries datas).length
      = (datas.map (fun data => data.length % 2 ^ 16)).sum := by
  induction entries generalizing datas with
  | nil =>
    obtain rfl := List.length_eq_zero_iff.mp h.symm
    rfl
  | cons entry entries ih =>
    cases datas with
    | nil => exact absurd h (by simp)
    | cons data datas =>
      rw [references, List.length_append, List.length_range',
        ih (Nat.succ.inj h), List.map_cons, List.sum_cons]

/-- **A `TCP_WRITE` operation is processed**: its block stays, or goes to the
write queue or to a result. -/
theorem BlocksInv.processWrite {off : ℕ} {rest : List DataOperation} {err : ErrT}
    {size : ℕ} {r : TxTcpWrite} (h : BlocksInv app B c)
    (hop : c.ops = .write off :: rest)
    (hsize : ∀ n, B.Holds (app.blockPtr off) n [] → size = n)
    (hs : txTcpWrite c.writeQueue off size err = some r) :
    BlocksInv app B (c.processWrite app off r)
    ∧ (c.processWrite app off r).offsets.Perm c.offsets := by
  have hwrites := h.writes
  have hoff : DataOperation.writeOffset (.write off) = some off := rfl
  rw [hop, List.filterMap_cons_some hoff] at hwrites
  obtain ⟨data, datas, ⟨hholds, hpos⟩, hdatas, hunprocessed⟩ :=
    List.forall₂_cons_left_iff.mp hwrites
  have hlen : size = data.length := hsize _ (hholds.of_prefix (List.nil_prefix))
  have hrest : ∀ op ∈ rest, OperationFits app B op := fun op hmem =>
    h.ops op (by rw [hop]; exact List.mem_cons_of_mem _ hmem)
  unfold DataSocket.processWrite
  rcases txTcpWrite_cases hs with hagain | ⟨herr, hqueue, hacc⟩ | ⟨hasync, hacc, hqueue⟩
  · rw [if_pos hagain]
    exact ⟨h, List.Perm.refl _⟩
  · -- refused: the block goes back with the result
    rw [if_neg (by simp [herr]), if_pos (by simp [herr]), hqueue, hacc, hop,
      hunprocessed]
    obtain ⟨queue, dropped, heq, hperm⟩ := { c with
      ops := rest, unprocessed := datas }.enqueueInCqueue_block
      ⟨.tcpWrite, r.resultCode, off⟩ rfl
    have hsame : { c with
        ops := (DataOperation.write off :: rest).tail
        writeQueue := c.writeQueue
        unprocessed := (data :: datas).tail
        accepted := if (none : Option ℕ).isSome = true
          then c.accepted ++ (data :: datas).head?.toList else c.accepted
        referenced := c.referenced
          ++ List.range' (app.dataPtr off) ((none : Option ℕ).getD 0) }
        = { c with ops := rest, unprocessed := datas } := by
      simp
    rw [hsame]
    refine ⟨?_, ?_⟩
    · rw [heq]
      exact BlocksInv.results (c := { c with ops := rest, unprocessed := datas })
        ⟨hrest, hdatas, h.entries, h.path, ⟨h.sends.order, h.sends.books⟩⟩
        queue dropped
    · rw [DataSocket.offsets_eq, DataSocket.offsets_eq]
      refine (List.Perm.append_left _ hperm).trans ?_
      rw [heq, hop]
      exact List.perm_middle
  · -- accepted: the block goes to the write queue
    rw [if_neg (by simp [hasync]), if_neg (by simp [hasync]), hacc, hop,
      hunprocessed]
    obtain ⟨done, waiting, refs, haccepted, hsends, hrefs, hrefsLen⟩ :=
      h.sends.order
    refine ⟨⟨hrest, hdatas, h.entries, h.path, ⟨⟨done, waiting ++ [data], refs,
      ?_, ?_, ?_, hrefsLen⟩, ?_⟩⟩, ?_⟩
    · dsimp only
      rw [haccepted, Option.isSome_some, if_pos rfl, List.append_assoc]
      rfl
    · dsimp only
      rw [hqueue]
      refine List.rel_append hsends (List.Forall₂.cons ⟨hholds, ?_, ?_⟩
        List.Forall₂.nil)
      · exact hlen ▸ hpos
      · exact Nat.le_of_eq hlen
    · dsimp only
      rw [hqueue, references_append hsends.length_eq, hrefs, hlen,
        List.append_assoc, Option.getD_some]
      simp only [references, List.append_nil]
    · have hbooks := h.sends.books
      dsimp only
      rw [hqueue, Option.isSome_some, if_pos rfl]
      simp only [bytesOf, List.map_append, List.map_cons, List.map_nil,
        List.sum_append, List.sum_cons, List.sum_nil, List.head?_cons,
        Option.toList_some] at hbooks ⊢
      omega
    · rw [DataSocket.offsets_eq, DataSocket.offsets_eq]
      refine List.Perm.append_right _ ?_
      dsimp only
      rw [hqueue, hop, List.map_append, ← List.append_assoc]
      exact List.perm_append_singleton _ _

/-- The copies of a delivery, and the recv queue after it. -/
theorem deliver_entries {recv recv' : RecvHistory} {p : PbufChain}
    (hs : recvHistoryStep recv (.deliver p) = some recv') :
    Run EntryStep recv.path.socket.recvQueue.contents
      (recvEvents recv.path.socket p)
      recv'.path.socket.recvQueue.contents := by
  obtain ⟨path, hstep, rfl⟩ := Option.map_eq_some_iff.mp hs
  rw [recvStep] at hstep
  split at hstep
  · obtain ⟨r, hr, hpath⟩ := Option.bind_eq_some_iff.mp hstep
    obtain ⟨socket, hsocket, rfl⟩ := Option.map_eq_some_iff.mp hpath
    unfold recvEvents
    rw [hr]
    rw [tcpRecvCallback] at hr
    simp only [if_true] at hr
    obtain ⟨⟨err, socket', events⟩, hchain, rfl⟩ := Option.map_eq_some_iff.mp hr
    obtain rfl := Option.some.inj hsocket
    exact recvChain_entries hchain
  · exact absurd hstep (by simp)

/-- Entries keep their blocks and what they need in all. -/
theorem entryFits_of_entries {entries entries' : List PifusRecvQueueEntry}
    {events : List RecvEvent} (hrun : Run EntryStep entries events entries')
    (h : ∀ entry ∈ entries, EntryFits app B entry) :
    ∀ entry ∈ entries', EntryFits app B entry := by
  refine hrun.invariant (fun entries => ∀ entry ∈ entries, EntryFits app B entry)
    h ?_
  intro es event es' hes hs
  cases hs with
  | copied hle =>
    obtain ⟨hfirst, hrest⟩ := List.forall_mem_cons.mp hes
    refine List.forall_mem_cons.mpr ⟨?_, hrest⟩
    unfold EntryFits at hfirst ⊢
    dsimp only
    rw [Nat.add_assoc, Nat.add_sub_cancel' hle]
    exact hfirst
  | recved => exact hes
  | completed => exact (List.forall_mem_cons.mp hes).2

/-- **A chain is delivered**: the blocks of what completes go to results. -/
theorem BlocksInv.deliver {p : PbufChain} {recv : RecvHistory}
    (h : BlocksInv app B c)
    (hs : recvHistoryStep c.recv (.deliver p) = some recv) :
    BlocksInv app B ({ c with recv := recv }.complete .tcpRecv
      (completedOffsets (recvEvents c.recv.path.socket p)))
    ∧ ({ c with recv := recv }.complete .tcpRecv
      (completedOffsets (recvEvents c.recv.path.socket p))).offsets.Perm
        c.offsets := by
  have hentries := deliver_entries hs
  obtain ⟨path, hstep, rfl⟩ := Option.map_eq_some_iff.mp hs
  obtain ⟨queue, dropped, heq, hperm⟩ := { c with recv := ⟨path,
    c.recv.completed ++ completedIn c.recv.path (.deliver p)⟩ }.complete_eq
    (Or.inr rfl) (completedOffsets (recvEvents c.recv.path.socket p))
  refine ⟨?_, ?_⟩
  · rw [heq]
    exact BlocksInv.results (c := { c with recv := ⟨path,
      c.recv.completed ++ completedIn c.recv.path (.deliver p)⟩ })
      ⟨h.ops, h.writes, entryFits_of_entries hentries h.entries,
        h.path.step hstep, ⟨h.sends.order, h.sends.books⟩⟩ queue dropped
  · rw [DataSocket.offsets_eq, DataSocket.offsets_eq]
    refine (List.Perm.append_left _ hperm).trans ?_
    rw [heq, map_offset_of_entries hentries]
    dsimp only
    -- the completed ones go from the recv queue to the results
    simp only [List.append_assoc]
    refine List.Perm.append_left _ ?_
    exact (List.Perm.append_left _ (List.perm_append_comm_assoc _ _ _)).trans
      (List.perm_append_comm_assoc _ _ _)

theorem bytesOf_le_of_sends {entries : List PifusWriteQueueEntry}
    {datas : List (List UInt8)} (h : List.Forall₂ (Sends app B) entries datas) :
    bytesOf entries ≤ (datas.map List.length).sum := by
  induction h with
  | nil => exact Nat.le_refl _
  | cons hfirst _ ih =>
    rw [bytesOf_cons, List.map_cons, List.sum_cons]
    exact Nat.add_le_add hfirst.2.2 ih

theorem sum_mod_le (datas : List (List UInt8)) :
    (datas.map (fun data => data.length % 2 ^ 16)).sum
      ≤ (datas.map List.length).sum :=
  List.sum_le_sum (fun _ _ => Nat.mod_le _ _)

theorem SendInv.length_referenced (h : SendInv app B c) :
    c.referenced.length
      = (c.accepted.map (fun data => data.length % 2 ^ 16)).sum := by
  obtain ⟨done, waiting, refs, hacc, hsends, hrefs, hlen⟩ := h.order
  rw [hrefs, hacc, List.length_append, length_references hsends.length_eq, hlen,
    List.map_append, List.sum_append]

theorem references_resize {entries : List PifusWriteQueueEntry} {n : ℕ}
    {datas : List (List UInt8)} :
    references app (resize n entries) datas = references app entries datas := by
  cases entries with
  | nil => rfl
  | cons entry entries =>
    cases datas with
    | nil => rfl
    | cons data datas => rfl

/-- **An acknowledgement** of bytes that lwIP was given finds them in the write
queue. -/
theorem SendInv.acknowledge {len : ℕ} (h : SendInv app B c) (hlen : 0 < len)
    (hhalf : len < 2 ^ 16) (hle : c.acked + len ≤ c.referenced.length) :
    ∃ r, tcpSentCallback (c.writeQueue.count + 1) c.writeQueue
        (UInt16.ofNat len) = some r
      ∧ r.exited = false
      ∧ SendInv app B { c with
          writeQueue := r.writeQueue, acked := c.acked + len }
      ∧ c.writeQueue.contents.map PifusWriteQueueEntry.writeBlockOffset
        = r.completed
          ++ r.writeQueue.contents.map PifusWriteQueueEntry.writeBlockOffset := by
  obtain ⟨done, waiting, refs, hacc, hsends, hrefs, hrefsLen⟩ := h.order
  have hbooks := h.books
  have hgiven := sum_mod_le c.accepted
  rw [← h.length_referenced] at hgiven
  have hpos : Positive c.writeQueue.contents := by
    intro entry hentry
    obtain ⟨i, hi, rfl⟩ := List.mem_iff_getElem.mp hentry
    exact (hsends.get hi (hsends.length_eq ▸ hi)).2.1
  have hfuel : c.writeQueue.contents.length < c.writeQueue.count + 1 := by
    rw [RingBuffer.length_contents]
    exact Nat.lt_succ_self _
  have hnat : (UInt16.ofNat len).toNat = len :=
    UInt16.toNat_ofNat_of_lt' hhalf
  obtain ⟨r, hr, hexited, hqueue, hcompleted⟩ :=
    @tcpSentCallback_acknowledge _ _ (UInt16.ofNat len) hpos
      (Or.inl (by omega)) (by omega) hfuel
  rw [hnat] at hqueue hcompleted
  obtain ⟨first, rest, hsplit, hfirst, hhead, hoffsets, hrest⟩ :=
    acknowledge_prefix c.writeQueue.contents len
  have hpos' := @positive_acknowledge c.writeQueue.contents len hpos
  have hbytes := @bytesOf_acknowledge c.writeQueue.contents len (by omega)
  rw [hrest] at hqueue hpos' hbytes
  rw [hoffsets] at hcompleted
  have hrestOffsets : (resize (remaining (bytesOf first) len rest) rest).map
      PifusWriteQueueEntry.writeBlockOffset
      = rest.map PifusWriteQueueEntry.writeBlockOffset := by
    cases rest with
    | nil => rfl
    | cons entry rest => rfl
  rw [hsplit] at hsends hrefs
  obtain ⟨datas, datas', hdatas, hdatas', rfl⟩ : ∃ datas datas',
      List.Forall₂ (Sends app B) first datas
      ∧ List.Forall₂ (Sends app B) rest datas' ∧ waiting = datas ++ datas' := by
    refine ⟨waiting.take first.length, waiting.drop first.length, ?_, ?_,
      (List.take_append_drop _ _).symm⟩
    · have htake := List.forall₂_take first.length hsends
      rwa [List.take_left] at htake
    · have hdrop := List.forall₂_drop first.length hsends
      rwa [List.drop_left] at hdrop
  refine ⟨r, hr, hexited, ⟨⟨done ++ datas, datas',
    refs ++ references app first datas, ?_, ?_, ?_, ?_⟩, ?_⟩, ?_⟩
  · dsimp only
    rw [hacc, List.append_assoc]
  · dsimp only
    rw [hqueue]
    cases hdatas' with
    | nil => exact List.Forall₂.nil
    | cons hentry hentries =>
      refine List.Forall₂.cons ⟨hentry.1, (positive_cons.mp hpos').1, ?_⟩ hentries
      refine Nat.le_trans ?_ hentry.2.2
      dsimp only [remaining]
      omega
  · dsimp only
    rw [hqueue, references_resize, hrefs, references_append hdatas.length_eq,
      List.append_assoc]
  · rw [List.length_append, hrefsLen, length_references hdatas.length_eq,
      List.map_append, List.sum_append]
  · dsimp only
    rw [hqueue]
    omega
  · rw [hqueue, hcompleted, hrestOffsets, hsplit, List.map_append]

/-- **Bytes are acknowledged**: the blocks of what completes go to results. -/
theorem BlocksInv.sent {len : ℕ} (h : BlocksInv app B c)
    (hs : c.sent len = some c') :
    BlocksInv app B c' ∧ c'.offsets.Perm c.offsets := by
  unfold DataSocket.sent at hs
  split at hs
  · rename_i hcond
    obtain ⟨hlen, hhalf, hle⟩ := hcond
    obtain ⟨r, hr, hexited, hsends, hoffsets⟩ :=
      h.sends.acknowledge hlen hhalf hle
    rw [hr, Option.bind_some, hexited, if_neg (by simp)] at hs
    obtain rfl := Option.some.inj hs
    obtain ⟨queue, dropped, heq, hperm⟩ := { c with
      writeQueue := r.writeQueue, acked := c.acked + len }.complete_eq
      (Or.inl rfl) r.completed
    refine ⟨?_, ?_⟩
    · rw [heq]
      exact BlocksInv.results (c := { c with
        writeQueue := r.writeQueue, acked := c.acked + len })
        ⟨h.ops, h.writes, h.entries, h.path, hsends⟩ queue dropped
    · rw [DataSocket.offsets_eq, DataSocket.offsets_eq]
      refine (List.Perm.append_left _ hperm).trans ?_
      rw [heq, hoffsets]
      dsimp only
      simp only [List.append_assoc]
      exact List.Perm.append_left _ (List.Perm.append_left _
        (List.perm_append_comm_assoc _ _ _))
  · exact absurd hs (by simp)
