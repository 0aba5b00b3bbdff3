import Pifus.DataPath
import Pifus.RateLimit
import Pifus.Util.SkipQueue

/-!
# One queue per socket

On its way from `enqueue_operation` to `process_tx_op` an operation is put into
a squeue and announced, copied into one of the three rings of `tx_queue`, erased
from the squeue, and found at the front of the ring or by the recv scan; and
after a scan its entry stays in the ring until it reaches the front. All of it
comes to one queue per socket from which the first operation is taken, or the
first `TCP_RECV` (`pipeline_is_a_queue_per_socket`). That is how the data path
(`Pifus.DataPath`) has it.

What a queue holds can be read off at any moment: the entries of the socket in
its ring that have not taken effect, and what the prio thread has left to move.
-/

/-- `is_recv_op`, of an operation code. -/
def isRecvCode (code : PifusOperationCode) : Bool := code = .tcpRecv

/-- The operations of a socket in a ring, those that took effect left out. -/
def waitingIn (eff : List PifusInternalOperation) (k : ℕ)
    (contents : List TxEntry) : List PifusOperationCode :=
  (contents.filter (fun e => e.op.socket = k && e.origin ∉ eff)).map
    (fun e => e.op.code)

namespace StackState

/-- The operations of a socket that wait in a ring of `tx_queue`. -/
def waiting (s : StackState) (q : TxPrio) (k : ℕ) : List PifusOperationCode :=
  waitingIn (s.effects q) k (s.queue q).contents

/-- The operations of a socket that were executed. -/
def executed (s : StackState) (k : ℕ) : List PifusOperationCode :=
  (s.processed.filter (fun r => r.counts && r.entry.op.socket = k)).map
    (fun r => r.entry.op.code)

/-- The operation that a step of the stack takes. -/
def takes (s : StackState) : StackEvent → SkipEvent ℕ PifusOperationCode
  | .process result =>
    match s.pc with
    | .handling prio cell recvScan _ =>
      let op := ((s.queue prio).buf cell).op
      if result = .tryAgain ∨ op.code = .nop then .stay
      else if recvScan then .skip op.socket op.code
      else .pop op.socket op.code
    | _ => .stay
  | _ => .stay

end StackState

namespace RateState

/-- **The operations of a socket that are on their way.** -/
def pending (prio : ℕ → TxPrio) (s : RateState) (k : ℕ) :
    List PifusOperationCode :=
  s.stack.waiting (prio k) k ++ (s.sockets k).rest

/-- What a step means for the queues. -/
def label (s : RateState) : RateEvent → SkipEvent ℕ PifusOperationCode
  | .enqueue k code =>
    match (s.sockets k).squeue.put code with
    | some _ => .push k code
    | none => .stay
  | .stack e => s.stack.takes e
  | _ => .stay

/-- Every operation is in the ring of its socket. -/
def Placed (prio : ℕ → TxPrio) (s : RateState) : Prop :=
  ∀ q, ∀ op ∈ s.stack.log q, prio op.socket = q

end RateState

/-! ## The operations in a ring -/

section Waiting

variable {eff : List PifusInternalOperation} {k : ℕ} {e : TxEntry}
  {l r : List TxEntry}

theorem waitingIn_append (l r : List TxEntry) :
    waitingIn eff k (l ++ r) = waitingIn eff k l ++ waitingIn eff k r := by
  rw [waitingIn, List.filter_append, List.map_append]
  rfl

theorem waitingIn_cons_of_pos (hk : e.op.socket = k) (he : e.origin ∉ eff) :
    waitingIn eff k (e :: l) = e.op.code :: waitingIn eff k l := by
  rw [waitingIn, List.filter_cons_of_pos (by simp [hk, he])]
  rfl

theorem waitingIn_cons_of_neg (h : e.op.socket = k → e.origin ∈ eff) :
    waitingIn eff k (e :: l) = waitingIn eff k l := by
  rw [waitingIn, List.filter_cons_of_neg (by simpa using h)]
  rfl

theorem waitingIn_effect {o : PifusInternalOperation}
    (h : ∀ y ∈ l, y.origin ≠ o) :
    waitingIn (eff ++ [o]) k l = waitingIn eff k l := by
  unfold waitingIn
  congr 1
  refine List.filter_congr (fun y hy => ?_)
  simp [h y hy]

/-- **An operation takes effect**: it is taken out of what waits. -/
theorem waitingIn_take (hnodup : ((l ++ e :: r).map TxEntry.origin).Nodup)
    (he : e.origin ∉ eff) :
    (∃ b, waitingIn eff e.op.socket (l ++ e :: r)
        = waitingIn eff e.op.socket l ++ e.op.code :: b
      ∧ waitingIn (eff ++ [e.origin]) e.op.socket (l ++ e :: r)
        = waitingIn eff e.op.socket l ++ b)
    ∧ ∀ j, j ≠ e.op.socket → waitingIn (eff ++ [e.origin]) j (l ++ e :: r)
        = waitingIn eff j (l ++ e :: r) := by
  rw [List.map_append, List.map_cons, List.nodup_middle, List.nodup_cons,
    ← List.map_append] at hnodup
  have hne : ∀ y ∈ l ++ r, y.origin ≠ e.origin := fun y hy heq =>
    hnodup.1 (heq ▸ List.mem_map_of_mem hy)
  have hl : ∀ j, waitingIn (eff ++ [e.origin]) j l = waitingIn eff j l :=
    fun j => waitingIn_effect (fun y hy => hne y (List.mem_append_left r hy))
  have hr : ∀ j, waitingIn (eff ++ [e.origin]) j r = waitingIn eff j r :=
    fun j => waitingIn_effect (fun y hy => hne y (List.mem_append_right l hy))
  refine ⟨⟨waitingIn eff e.op.socket r, ?_, ?_⟩, fun j hj => ?_⟩
  · rw [waitingIn_append, waitingIn_cons_of_pos rfl he]
  · rw [waitingIn_append, waitingIn_cons_of_neg (by simp), hl, hr]
  · rw [waitingIn_append, waitingIn_append, waitingIn_cons_of_neg (by simp),
      waitingIn_cons_of_neg (fun hsocket => absurd hsocket.symm hj), hl, hr]

end Waiting

section Ring

variable {log eff : List PifusInternalOperation} {contents erased : List TxEntry}
  {mid : Option PifusInternalOperation}

/-- No two entries of a ring were put as the same operation. -/
theorem QueueInv.nodup_origins (h : QueueInv log eff contents erased mid) :
    (contents.map TxEntry.origin).Nodup := by
  have hnodup := h.nodup
  obtain ⟨rest, hlog, hcontents, -⟩ := h.split
  have horigins : contents.map TxEntry.origin = rest := by
    rw [hcontents, List.map_map]
    refine (List.map_congr_left (fun op _ => ?_)).trans (List.map_id rest)
    show (entryOf eff mid op).origin = op
    unfold entryOf
    split <;> rfl
  rw [horigins]
  rw [hlog] at hnodup
  exact (List.nodup_append.mp hnodup).2.1

end Ring

/-! ## The stack takes an operation -/

section Stack

variable {start s t : StackState} {e : StackEvent}

/-- An entry is erased or overwritten after its operation took effect. -/
theorem StackInv.waiting_tick (h : StackInv start s)
    (hs : stackStep s .tick = some t) :
    ∀ q k, t.waiting q k = s.waiting q k := by
  obtain ⟨⟨mid, hqueues, hmid⟩, -⟩ := h
  -- a ring is replaced by another one
  have hupdate : ∀ (p : TxPrio) (ring : RingBuffer TxEntry),
      t.queue = Function.update s.queue p ring → t.processed = s.processed →
      (∀ k, waitingIn (s.effects p) k ring.contents = s.waiting p k) →
      ∀ q k, t.waiting q k = s.waiting q k := by
    intro p ring hqueue hprocessed hring q k
    have heff : t.effects q = s.effects q := by
      rw [StackState.effects, hprocessed]
      rfl
    rw [StackState.waiting, heff, hqueue]
    by_cases hq : q = p
    · subst hq
      rw [Function.update_self]
      exact hring k
    · rw [Function.update_of_ne hq]
      rfl
  unfold PcInv at hmid
  rw [stackStep] at hs
  cases hpc : s.pc with
  | outside | handling => rw [hpc] at hs; exact absurd hs (by simp)
  | peeking p d =>
    rw [hpc] at hs
    obtain rfl := Option.some.inj hs
    unfold StackState.peek
    split <;> exact fun q k => rfl
  | finding p d =>
    rw [hpc] at hs
    obtain rfl := Option.some.inj hs
    unfold StackState.find
    split <;> exact fun q k => rfl
  | erasing counts d =>
    rw [hpc] at hs hmid
    obtain ⟨p, hlast, rfl⟩ := Option.map_eq_some_iff.mp hs
    obtain ⟨p', e, r, hlast', hcontents, he, -⟩ := hmid
    rw [hlast] at hlast'
    obtain rfl := Option.some.inj hlast'
    obtain ⟨ring, herase, htail⟩ := RingBuffer.exists_eraseFirst
      (show (s.queue p).contents ≠ [] by rw [hcontents]; simp)
    rw [hcontents] at htail
    refine hupdate p ring ?_ rfl (fun k => ?_)
    · show Function.update s.queue p _ = _
      rw [herase]
      rfl
    · rw [StackState.waiting, hcontents, waitingIn_cons_of_neg (fun _ => he),
        (List.cons.inj htail).2]
  | patching p cell d =>
    rw [hpc] at hs hmid
    obtain rfl := Option.some.inj hs
    obtain ⟨l, e, r, hcontents, hcell, -, he, -⟩ := hmid
    refine hupdate p _ rfl rfl (fun k => ?_)
    have hlt : l.length < (s.queue p).contents.length := by
      rw [hcontents]; simp
    have hbuf := buf_of_contents hcontents
    rw [← hcell] at hbuf
    have hdrop : ∀ y : TxEntry, y.origin = e.origin →
        waitingIn (s.effects p) k (y :: r) = waitingIn (s.effects p) k r :=
      fun y hy => waitingIn_cons_of_neg (fun _ => by rw [hy]; exact he)
    rw [hbuf, hcell, RingBuffer.contents_store hlt, StackState.waiting, hcontents,
      List.set_append_right _ _ (le_refl _), Nat.sub_self, List.set_cons_zero,
      waitingIn_append, waitingIn_append, hdrop e rfl]
    exact congrArg _ (hdrop _ rfl)

/-- **What the stack does to the operations that wait**: nothing, or it takes
one. The operation is the first one of its socket, or the first `TCP_RECV` if the
recv scan has found it. -/
inductive TakeStep (s t : StackState) :
    SkipEvent ℕ PifusOperationCode → Prop
  | stay (hwaiting : ∀ q k, t.waiting q k = s.waiting q k)
      (hexecuted : ∀ k, t.executed k = s.executed k) : TakeStep s t .stay
  | take {q : TxPrio} {op : PifusInternalOperation} {recvScan : Bool}
      {a b : List PifusOperationCode}
      (hlog : ∃ o ∈ s.log q, o.socket = op.socket)
      (hbefore : s.waiting q op.socket = a ++ op.code :: b)
      (hafter : t.waiting q op.socket = a ++ b)
      (hfirst : if recvScan then isRecvCode op.code = true
          ∧ ∀ y ∈ a, isRecvCode y = false
        else a = [])
      (hothers : ∀ q' k, k ≠ op.socket → t.waiting q' k = s.waiting q' k)
      (hexecuted : ∀ k, t.executed k
        = s.executed k ++ if op.socket = k then [op.code] else []) :
      TakeStep s t (if recvScan then .skip op.socket op.code
        else .pop op.socket op.code)

theorem executed_process {r : Processed} (ht : t.processed = s.processed ++ [r])
    (k : ℕ) : t.executed k = s.executed k
      ++ if r.counts = true ∧ r.entry.op.socket = k then [r.entry.op.code]
        else [] := by
  unfold StackState.executed
  rw [ht, List.filter_append, List.map_append]
  congr 1
  by_cases hr : r.counts = true ∧ r.entry.op.socket = k
  · rw [if_pos hr, List.filter_cons_of_pos (by simpa using hr)]
    rfl
  · rw [if_neg hr, List.filter_cons_of_neg (by simpa using hr)]
    rfl

theorem TakeStep.of_not_counts {r : Processed}
    (ht : t.processed = s.processed ++ [r]) (hqueue : t.queue = s.queue)
    (htook : r.tookEffect = false) : TakeStep s t .stay := by
  refine .stay (fun q k => ?_) (fun k => ?_)
  · rw [StackState.waiting, effects_process q ht rfl, htook, if_neg (by simp),
      List.append_nil, hqueue]
    rfl
  · rw [executed_process ht, Processed.counts, htook, if_neg (by simp),
      List.append_nil]

/-- **`handle_operation`**. -/
theorem StackInv.take_handle (h : StackInv start s) (hputs : s.PutsInv)
    {p : TxPrio} {cell d : ℕ} {recvScan : Bool} {result : PifusResultCode}
    (hpc : s.pc = .handling p cell recvScan d)
    (ht : t.processed = s.processed ++ [⟨p, (s.queue p).buf cell, result⟩])
    (hqueue : t.queue = s.queue) : TakeStep s t (s.takes (.process result)) := by
  obtain ⟨⟨mid, hqueues, hmid⟩, -⟩ := h
  rw [PcInv, hpc] at hmid
  obtain ⟨hnone, l, e, r, hcontents, hcell, hkind⟩ := hmid
  have hbuf := buf_of_contents hcontents
  rw [← hcell] at hbuf
  rw [hbuf] at ht
  have hmem : e ∈ (s.queue p).contents := by rw [hcontents]; simp
  have hlog := (hqueues p).origin_mem hmem
  have hnop := hputs.log p _ hlog
  rw [StackState.takes, hpc]
  dsimp only
  rw [hbuf]
  split
  · -- a `NOP` in the ring is what the recv scan has left
    rename_i hstay
    refine .of_not_counts ht hqueue ?_
    rcases hstay with rfl | hcode
    · rfl
    · simp [Processed.tookEffect, hcode, Ne.symm hnop]
  · rename_i hgo
    obtain ⟨htry, hcode⟩ := not_or.mp hgo
    obtain ⟨hop, heff⟩ : e.op = e.origin ∧ e.origin ∉ s.effects p := by
      rcases (hqueues p).entry_cases hmem (by simp [hnone p]) with
        hnew | ⟨hop, -⟩
      · exact hnew
      · exact absurd (by rw [hop]) hcode
    have htook : Processed.tookEffect ⟨p, e, result⟩ = true := by
      simp [Processed.tookEffect, htry, hop]
    have hcounts : Processed.counts ⟨p, e, result⟩ = true := by
      simp [Processed.counts, htook, hcode]
    have heffects := fun q => effects_process (p := p) q ht rfl
    have hnodup := (hqueues p).nodup_origins
    rw [hcontents] at hnodup
    obtain ⟨⟨b, hbefore, hafter⟩, hothers⟩ := waitingIn_take hnodup heff
    have hwaiting : s.waiting p e.op.socket
        = waitingIn (s.effects p) e.op.socket l ++ e.op.code :: b := by
      rw [StackState.waiting, hcontents]
      exact hbefore
    refine .take ⟨e.origin, hlog, by rw [hop]⟩ hwaiting ?_ ?_
      (fun q' k hk => ?_) (fun k => ?_)
    · rw [StackState.waiting, hqueue, hcontents, heffects p,
        if_pos ⟨htook, rfl⟩]
      exact hafter
    · cases recvScan with
      | true =>
        refine ⟨hkind.1, fun y hy => ?_⟩
        obtain ⟨z, hz, rfl⟩ := List.mem_map.mp hy
        exact hkind.2 z (List.mem_filter.mp hz).1
      | false =>
        obtain rfl := hkind.1
        rfl
    · rw [StackState.waiting, StackState.waiting, hqueue, heffects q']
      by_cases hq : q' = p
      · subst hq
        rw [if_pos ⟨htook, rfl⟩, hcontents]
        exact hothers k hk
      · rw [if_neg (fun hc => hq hc.2), List.append_nil]
    · rw [executed_process ht, hcounts]
      simp only [true_and]

/-- **Every step of the stack.** -/
theorem StackInv.take_step (h : StackInv start s) (hputs : s.PutsInv)
    (hstep : e.isStep = true) (hs : stackStep s e = some t) :
    TakeStep s t (s.takes e) := by
  cases e with
  | put p code socket => exact absurd hstep (by simp [StackEvent.isStep])
  | call =>
    rw [stackStep] at hs
    split at hs
    · obtain rfl := Option.some.inj hs
      exact .stay (fun _ _ => rfl) (fun _ => rfl)
    · exact absurd hs (by simp)
  | tick =>
    refine .stay (h.waiting_tick hs) (fun k => ?_)
    rcases (stackStep_frame hstep hs).2 with hsame | ⟨p, cell, recvScan, d, _, hpc, -⟩
    · rw [StackState.executed, hsame]
      rfl
    · rw [stackStep, hpc] at hs
      exact absurd hs (by simp)
  | process result =>
    rw [stackStep] at hs
    split at hs
    · rename_i p cell recvScan d hpc
      split at hs
      · obtain rfl := Option.some.inj hs
        have hframe : (s.handle p cell recvScan d result).queue = s.queue
            ∧ (s.handle p cell recvScan d result).processed
              = s.processed ++ [⟨p, (s.queue p).buf cell, result⟩] := by
          dsimp only [StackState.handle]
          split
          · exact ⟨rfl, rfl⟩
          · split
            · split <;> exact ⟨rfl, rfl⟩
            · exact ⟨rfl, rfl⟩
        exact h.take_handle hputs hpc hframe.2 hframe.1
      · exact absurd hs (by simp)
    · exact absurd hs (by simp)

end Stack

/-! ## The prio thread moves an operation -/

/-- What a step of the prio thread moves. -/
theorem SqueueState.handle_moves {sq sq' : SqueueState PifusOperationCode}
    (hs : sq.handle = some sq') :
    (∃ op diff, sq.pc = .putting op diff
        ∧ sq.txQueue.put ⟨op, sq.socket⟩ ≠ none ∧ sq'.moved = sq.moved ++ [op])
    ∨ ((∀ op diff, sq.pc = .putting op diff →
          sq.txQueue.put ⟨op, sq.socket⟩ = none) ∧ sq'.moved = sq.moved) := by
  rw [handle] at hs
  cases hpc : sq.pc with
  | outside =>
    rw [hpc] at hs
    exact absurd hs (by simp)
  | putting op diff =>
    rw [hpc] at hs
    obtain rfl := Option.some.inj hs
    unfold putTx
    split
    · rename_i ring hput
      exact Or.inl ⟨op, diff, rfl, by simp [hput], rfl⟩
    · rename_i hput
      refine Or.inr ⟨fun op' diff' heq => ?_, rfl⟩
      obtain ⟨rfl, -⟩ := HandlePc.putting.inj heq
      exact hput
  | _ =>
    rw [hpc] at hs
    dsimp only at hs
    refine Or.inr ⟨fun _ _ heq => absurd heq (by simp), ?_⟩
    first
      | split at hs <;> obtain rfl := Option.some.inj hs <;> rfl
      | obtain rfl := Option.some.inj hs; rfl

section Pending

variable {prio : ℕ → TxPrio} {start : StackState} {s t : RateState}
  {e : RateEvent}

/-- A put appends to what waits for the socket in its ring. -/
theorem StackInv.waiting_put {s : StackState} (h : StackInv start s)
    {p : TxPrio} (code : PifusOperationCode) (k : ℕ)
    {op : InternalOperation PifusOperationCode}
    (hput : (s.queue p).operations.put op ≠ none) :
    (∀ q j, (s.put p code k).waiting q j
        = s.waiting q j ++ if q = p ∧ j = k then [code] else [])
    ∧ (s.put p code k).processed = s.processed
    ∧ ∀ q, ∀ o ∈ (s.put p code k).log q, o ∈ s.log q ∨ q = p ∧ o.socket = k := by
  obtain ⟨⟨mid, hqueues, -⟩, -⟩ := h
  have hfull := (s.queue p).put_operations ⟨⟨code, k, (s.log p).length⟩,
    ⟨code, k, (s.log p).length⟩⟩ op
  rw [Ne, hfull] at hput
  dsimp only [StackState.put]
  split
  · rename_i ring hring
    refine ⟨fun q j => ?_, rfl, fun q o ho => ?_⟩
    · show waitingIn (s.effects q) j (Function.update s.queue p ring q).contents
        = _
      by_cases hq : q = p
      · subst hq
        -- its number is that of no operation before
        have hnew : (⟨code, k, (s.log q).length⟩ : PifusInternalOperation)
            ∉ s.effects q := by
          intro hin
          have hmem := List.mem_map_of_mem (f := PifusInternalOperation.serial)
            ((hqueues q).subset hin)
          rw [(hqueues q).serials, List.mem_range] at hmem
          exact absurd hmem (Nat.lt_irrefl _)
        rw [Function.update_self, RingBuffer.contents_put hring, waitingIn_append]
        congr 1
        by_cases hj : j = k
        · rw [if_pos ⟨rfl, hj⟩, waitingIn_cons_of_pos hj.symm hnew]
          rfl
        · rw [if_neg (fun hc => hj hc.2),
            waitingIn_cons_of_neg (fun hk => absurd hk.symm hj)]
          rfl
      · rw [Function.update_of_ne hq, if_neg (fun hc => hq hc.1), List.append_nil]
        rfl
    · change o ∈ Function.update s.log p _ q at ho
      by_cases hq : q = p
      · subst hq
        rw [Function.update_self] at ho
        rcases List.mem_append.mp ho with ho | ho
        · exact Or.inl ho
        · rw [List.mem_singleton.mp ho]
          exact Or.inr ⟨rfl, rfl⟩
      · rw [Function.update_of_ne hq] at ho
        exact Or.inl ho
  · exact absurd ‹_› hput

theorem RateState.afterTick_of_none {k : ℕ}
    (hnone : ∀ op diff, (s.socketNow prio k).pc = .putting op diff →
      (s.socketNow prio k).txQueue.put ⟨op, (s.socketNow prio k).socket⟩
        = none) : s.afterTick prio k = s.stack := by
  unfold RateState.afterTick
  split
  · rename_i op diff hpc
    rcases s.stack.put_counts (prio k) op k ⟨op, (s.sockets k).socket⟩ with
      ⟨-, hsame⟩ | ⟨hput, -⟩
    · exact hsame
    · exact absurd (hnone op diff hpc) hput
  · rfl

theorem SqueueInv.rest_eq {sq sq' : SqueueState PifusOperationCode}
    (h : SqueueInv sq) (h' : SqueueInv sq')
    {new moved : List PifusOperationCode}
    (henqueued : sq'.enqueued = sq.enqueued ++ new)
    (hmoved : sq'.moved = sq.moved ++ moved) :
    sq.rest ++ new = moved ++ sq'.rest := by
  rw [h.enqueued, h'.enqueued, hmoved, List.append_assoc, List.append_assoc]
    at henqueued
  exact (List.append_cancel_left henqueued).symm

/-- The socket takes a step and the ring it belongs to gets what it moves: its
queue gets what is enqueued. -/
theorem RateState.pending_step {k : ℕ} {sq' : SqueueState PifusOperationCode}
    {new moved : List PifusOperationCode} (h : SqueueInv (s.sockets k))
    (h' : SqueueInv sq')
    (henqueued : sq'.enqueued = (s.sockets k).enqueued ++ new)
    (hmoved : sq'.moved = (s.sockets k).moved ++ moved)
    (hsockets : t.sockets = Function.update s.sockets k sq')
    (hwaiting : ∀ q j, t.stack.waiting q j
      = s.stack.waiting q j ++ if q = prio k ∧ j = k then moved else []) :
    t.pending prio
      = Function.update (s.pending prio) k (s.pending prio k ++ new) := by
  funext j
  by_cases hj : j = k
  · subst hj
    rw [Function.update_self, RateState.pending, RateState.pending, hwaiting,
      if_pos ⟨rfl, rfl⟩, hsockets, Function.update_self, List.append_assoc,
      List.append_assoc, h.rest_eq h' henqueued hmoved]
  · rw [Function.update_of_ne hj, RateState.pending, RateState.pending, hwaiting,
      if_neg (fun hc => hj hc.2), List.append_nil, hsockets,
      Function.update_of_ne hj]

/-- **What a step comes to**: a step of the queues, which take over what is
enqueued and give what is executed. -/
structure PipeStep (prio : ℕ → TxPrio) (s : RateState) (e : RateEvent)
    (t : RateState) : Prop where
  queues : SkipStep isRecvCode (s.pending prio) (s.label e) (t.pending prio)
  enqueued : ∀ k, (t.sockets k).enqueued
    = (s.sockets k).enqueued ++ ((s.label e).pushedTo k).toList
  executed : ∀ k, t.stack.executed k
    = s.stack.executed k ++ ((s.label e).takenFrom k).toList
  placed : t.Placed prio

/-- A step of a socket, which enqueues an operation or none. -/
theorem PipeStep.of_socket {k : ℕ} {sq' : SqueueState PifusOperationCode}
    {new moved : List PifusOperationCode} (h : SqueueInv (s.sockets k))
    (h' : SqueueInv sq')
    (henqueued : sq'.enqueued = (s.sockets k).enqueued ++ new)
    (hmoved : sq'.moved = (s.sockets k).moved ++ moved)
    (hsockets : t.sockets = Function.update s.sockets k sq')
    (hwaiting : ∀ q j, t.stack.waiting q j
      = s.stack.waiting q j ++ if q = prio k ∧ j = k then moved else [])
    (hprocessed : t.stack.processed = s.stack.processed) (hplaced : t.Placed prio)
    (hlabel : new = [] ∧ s.label e = .stay
      ∨ ∃ code, new = [code] ∧ s.label e = .push k code) :
    PipeStep prio s e t := by
  have hpending := RateState.pending_step h h' henqueued hmoved hsockets hwaiting
  have hexecuted : ∀ j, t.stack.executed j = s.stack.executed j := fun j => by
    rw [StackState.executed, hprocessed]
    rfl
  have hall : ∀ j, (t.sockets j).enqueued
      = (s.sockets j).enqueued ++ if k = j then new else [] := by
    intro j
    by_cases hj : j = k
    · subst hj
      rw [hsockets, Function.update_self, henqueued, if_pos rfl]
    · rw [hsockets, Function.update_of_ne hj, if_neg (Ne.symm hj), List.append_nil]
  rcases hlabel with ⟨rfl, hlabel⟩ | ⟨code, rfl, hlabel⟩
  · rw [List.append_nil, Function.update_eq_self] at hpending
    refine ⟨?_, fun j => ?_, fun j => ?_, hplaced⟩
    · rw [hlabel, hpending]
      exact .stay
    · rw [hlabel, hall j, ite_self]
      rfl
    · rw [hlabel, hexecuted j]
      exact (List.append_nil _).symm
  · refine ⟨?_, fun j => ?_, fun j => ?_, hplaced⟩
    · rw [hlabel, hpending]
      exact .push
    · rw [hlabel, hall j, SkipEvent.pushedTo]
      split <;> rfl
    · rw [hlabel, hexecuted j]
      exact (List.append_nil _).symm

theorem PipeStep.of_app {k : ℕ} {sq' : SqueueState PifusOperationCode}
    (new : List PifusOperationCode) (h : SqueueInv (s.sockets k))
    (h' : SqueueInv sq') (hplaced : s.Placed prio)
    (henqueued : sq'.enqueued = (s.sockets k).enqueued ++ new)
    (hmoved : sq'.moved = (s.sockets k).moved)
    (hlabel : new = [] ∧ s.label e = .stay
      ∨ ∃ code, new = [code] ∧ s.label e = .push k code) :
    PipeStep prio s e ⟨s.stack, Function.update s.sockets k sq'⟩ := by
  have hmoved' : sq'.moved = (s.sockets k).moved ++ [] := by
    rw [hmoved, List.append_nil]
  refine .of_socket h h' henqueued hmoved' rfl (fun q j => ?_) rfl hplaced hlabel
  rw [ite_self, List.append_nil]

/-- `enqueue_operation`. -/
theorem RateInv.pipe_enqueue (h : RateInv start s) (hplaced : s.Placed prio)
    {k : ℕ} {code : PifusOperationCode} {sq' : SqueueState PifusOperationCode}
    (hsq : squeueStep (s.socketNow prio k) (.enqueue code) = some sq') :
    PipeStep prio s (.enqueue k code)
      ⟨s.stack, Function.update s.sockets k sq'⟩ := by
  have hnow : SqueueInv (s.socketNow prio k) :=
    have hk := (h.sockets k).squeue
    ⟨hk.enqueued, hk.calls, hk.futex, hk.pc⟩
  have h' := hnow.step hsq
  rw [squeueStep] at hsq
  split at hsq
  · obtain rfl := Option.some.inj hsq
    have hput : (s.socketNow prio k).squeue.put code
        = (s.sockets k).squeue.put code := rfl
    unfold SqueueState.enqueue at h' ⊢
    cases hring : (s.sockets k).squeue.put code with
    | some ring =>
      rw [hput, hring] at h' ⊢
      refine .of_app [code] (h.sockets k).squeue h' hplaced rfl rfl
        (Or.inr ⟨code, rfl, ?_⟩)
      rw [RateState.label, hring]
    | none =>
      rw [hput, hring] at h' ⊢
      refine .of_app [] (h.sockets k).squeue h' hplaced
        (List.append_nil _).symm rfl (Or.inl ⟨rfl, ?_⟩)
      rw [RateState.label, hring]
  · exact absurd hsq (by simp)

/-- A step of `handle_squeue_change`. -/
theorem RateInv.pipe_tick (h : RateInv start s) (hplaced : s.Placed prio)
    {k : ℕ} {sq' : SqueueState PifusOperationCode}
    (hsq : (s.socketNow prio k).handle = some sq') :
    PipeStep prio s (.tick k)
      ⟨s.afterTick prio k, Function.update s.sockets k sq'⟩ := by
  have hnow : SqueueInv (s.socketNow prio k) :=
    have hk := (h.sockets k).squeue
    ⟨hk.enqueued, hk.calls, hk.futex, hk.pc⟩
  have h' := hnow.handle hsq
  have henqueued : sq'.enqueued = (s.sockets k).enqueued ++ [] := by
    rw [List.append_nil]
    exact (SqueueState.handle_counts hsq).2.1
  rcases SqueueState.handle_moves hsq with ⟨op, diff, hpc, hput, hmoved⟩ |
    ⟨hnone, hmoved⟩
  · have hpc' : (s.sockets k).pc = .putting op diff := hpc
    have hafter : s.afterTick prio k = s.stack.put (prio k) op k := by
      unfold RateState.afterTick
      rw [hpc']
    obtain ⟨hwaiting, hprocessed, hlog⟩ := h.stack.waiting_put op k hput
    rw [hafter]
    refine .of_socket (h.sockets k).squeue h' henqueued hmoved rfl hwaiting
      hprocessed (fun q o ho => ?_) (Or.inl ⟨rfl, rfl⟩)
    rcases hlog q o ho with hold | ⟨rfl, rfl⟩
    · exact hplaced q o hold
    · rfl
  · rw [RateState.afterTick_of_none hnone]
    exact .of_app [] (h.sockets k).squeue h' hplaced henqueued hmoved
      (Or.inl ⟨rfl, rfl⟩)

/-- A step of the stack. -/
theorem RateInv.pipe_stack (h : RateInv start s) (hplaced : s.Placed prio)
    {ev : StackEvent} {stack : StackState} (hstep : ev.isStep = true)
    (hs : stackStep s.stack ev = some stack) :
    PipeStep prio s (.stack ev) { s with stack := stack } := by
  have hplaced' : RateState.Placed prio { s with stack := stack } := by
    intro q op hop
    change op ∈ stack.log q at hop
    rw [(stackStep_frame hstep hs).1] at hop
    exact hplaced q op hop
  have htake := h.stack.take_step h.puts hstep hs
  refine ⟨?_, fun k => ?_, fun k => ?_, hplaced'⟩
  · show SkipStep _ _ (s.stack.takes ev) _
    generalize s.stack.takes ev = label at htake
    cases htake with
    | stay hwaiting _ =>
      have hsame : RateState.pending prio { s with stack := stack }
          = s.pending prio := by
        funext k
        exact congrArg (· ++ (s.sockets k).rest) (hwaiting (prio k) k)
      rw [hsame]
      exact .stay
    | @take q op recvScan a b hlog hbefore hafter hfirst hothers _ =>
      obtain ⟨o, ho, hsocket⟩ := hlog
      have hq : prio op.socket = q := hsocket ▸ hplaced q o ho
      subst hq
      have hpending : s.pending prio op.socket
          = a ++ op.code :: (b ++ (s.sockets op.socket).rest) := by
        rw [RateState.pending, hbefore, List.append_assoc]
        rfl
      have hupdate : RateState.pending prio { s with stack := stack }
          = Function.update (s.pending prio) op.socket
            (a ++ (b ++ (s.sockets op.socket).rest)) := by
        funext k
        by_cases hk : k = op.socket
        · subst hk
          rw [Function.update_self, RateState.pending, hafter, List.append_assoc]
        · rw [Function.update_of_ne hk]
          exact congrArg (· ++ (s.sockets k).rest) (hothers (prio k) k hk)
      rw [hupdate]
      cases recvScan with
      | true => exact .skip hpending hfirst.1 hfirst.2
      | false =>
        obtain rfl := hfirst
        exact .pop hpending
  · show (s.sockets k).enqueued = _ ++ ((s.stack.takes ev).pushedTo k).toList
    generalize s.stack.takes ev = label at htake
    cases htake with
    | stay => exact (List.append_nil _).symm
    | @take q op recvScan =>
      cases recvScan <;> exact (List.append_nil _).symm
  · show stack.executed k = _ ++ ((s.stack.takes ev).takenFrom k).toList
    generalize s.stack.takes ev = label at htake
    cases htake with
    | stay _ hexecuted => rw [hexecuted k]; exact (List.append_nil _).symm
    | @take q op recvScan _ _ _ _ _ _ _ hexecuted =>
      rw [hexecuted k]
      congr 1
      by_cases hk : op.socket = k <;> cases recvScan <;>
        simp [SkipEvent.takenFrom, hk]

/-- **Every step is a step of the queues.** -/
theorem RateInv.pipe_step (h : RateInv start s) (hplaced : s.Placed prio)
    (hs : RateStep prio s e t) : PipeStep prio s e t := by
  have hsquiet : ∀ {k : ℕ} {ev : SqueueEvent PifusOperationCode}
      {sq' : SqueueState PifusOperationCode},
      squeueStep (s.socketNow prio k) ev = some sq' →
      sq'.enqueued = (s.sockets k).enqueued → sq'.moved = (s.sockets k).moved →
      s.label e = .stay →
      PipeStep prio s e ⟨s.stack, Function.update s.sockets k sq'⟩ := by
    intro k ev sq' hsq henqueued hmoved hlabel
    have hk := (h.sockets k).squeue
    have hnow : SqueueInv (s.socketNow prio k) :=
      ⟨hk.enqueued, hk.calls, hk.futex, hk.pc⟩
    exact .of_app [] hk (hnow.step hsq) hplaced
      (henqueued.trans (List.append_nil _).symm) hmoved (Or.inl ⟨rfl, hlabel⟩)
  rw [RateStep] at hs
  cases e with
  | enqueue k code =>
    rw [rateStep] at hs
    split at hs
    · obtain ⟨sq', hsq, rfl⟩ := Option.map_eq_some_iff.mp hs
      exact h.pipe_enqueue hplaced hsq
    · exact absurd hs (by simp)
  | announce k =>
    obtain ⟨sq', hsq, rfl⟩ := Option.map_eq_some_iff.mp hs
    obtain ⟨_, heq, -⟩ | ⟨-, -, rfl⟩ | ⟨heq, -⟩ | ⟨heq, -⟩ | ⟨_, _, heq, -⟩ :=
      squeueStep_cases hsq
    case inr.inl => exact hsquiet hsq rfl rfl rfl
    all_goals exact absurd heq (by simp)
  | call k =>
    obtain ⟨sq', hsq, rfl⟩ := Option.map_eq_some_iff.mp hs
    obtain ⟨_, heq, -⟩ | ⟨heq, -⟩ | ⟨-, -, rfl⟩ | ⟨heq, -⟩ | ⟨_, _, heq, -⟩ :=
      squeueStep_cases hsq
    case inr.inr.inl => exact hsquiet hsq rfl rfl rfl
    all_goals exact absurd heq (by simp)
  | tick k =>
    obtain ⟨sq', hsq, rfl⟩ := Option.map_eq_some_iff.mp hs
    exact h.pipe_tick hplaced hsq
  | stack ev =>
    rw [rateStep] at hs
    split at hs
    · obtain ⟨stack, hstack, rfl⟩ := Option.map_eq_some_iff.mp hs
      exact h.pipe_stack hplaced ‹_› hstack
    · exact absurd hs (by simp)

theorem RateState.Initial.pending (h : s.Initial) :
    s.pending prio = fun _ => [] := by
  funext k
  have hsquiet := h.sockets k
  rw [RateState.pending, StackState.waiting, h.stack.contents, h.log,
    SqueueState.rest, hsquiet.pc, hsquiet.contents]
  rfl

end Pending

/-! ## Runs -/

/-- **Runs are runs of the queues.** -/
theorem RateState.Initial.pipe_run {start s : RateState} {prio : ℕ → TxPrio}
    {es : List RateEvent} (hstart : start.Initial)
    (h : Run (RateStep prio) start es s) :
    RateInv start.stack s ∧ s.Placed prio
    ∧ ∃ ls, Run (SkipStep isRecvCode) (fun _ => []) ls (s.pending prio)
      ∧ (∀ k, pushed ls k = (s.sockets k).enqueued)
      ∧ ∀ k, taken ls k = s.stack.executed k := by
  induction h with
  | nil =>
    refine ⟨rateInv_initial hstart, fun q op hop => ?_, [], ?_, fun k => ?_,
      fun k => ?_⟩
    · rw [hstart.log q] at hop
      exact absurd hop (by simp)
    · rw [hstart.pending]
      exact Run.nil
    · exact (hstart.sockets k).enqueued.symm
    · rw [StackState.executed, hstart.stack.processed]
      rfl
  | snoc _ hs ih =>
    obtain ⟨hinv, hplaced, ls, hls, hpushed, htaken⟩ := ih
    have hpipe := hinv.pipe_step hplaced hs
    refine ⟨hinv.step hstart.dequeuedOps hs, hpipe.placed, _,
      hls.snoc hpipe.queues, fun k => ?_, fun k => ?_⟩
    · rw [pushed_snoc, hpushed k, hpipe.enqueued k]
    · rw [taken_snoc, htaken k, hpipe.executed k]

/-- Of either kind, what was enqueued is what was executed and then what is on its
way. -/
theorem RateState.Initial.conserves {start s : RateState} {prio : ℕ → TxPrio}
    {es : List RateEvent} (hstart : start.Initial)
    (h : Run (RateStep prio) start es s) (k : ℕ) :
    ∀ p ∈ [isRecvCode, fun code => !isRecvCode code],
      (s.sockets k).enqueued.filter p
        = (s.stack.executed k).filter p ++ (s.pending prio k).filter p := by
  obtain ⟨-, -, ls, hls, hpushed, htaken⟩ := hstart.pipe_run h
  intro p hp
  rw [← hpushed k, ← htaken k]
  refine hls.skip_conserves ?_ k
  simpa using hp

/-- **From `enqueue_operation` to `process_tx_op` there is one queue per
socket**, whatever the interleaving of the apps, the prio threads and the stack:
the operations enqueued are pushed to it, and those executed are its first one
each time, or the first `TCP_RECV`. So of every socket the receives are executed in
the order they were enqueued, and so are the other operations; what is not
executed yet is on its way; and none is executed twice. -/
theorem pipeline_is_a_queue_per_socket {start s : RateState} {prio : ℕ → TxPrio}
    {es : List RateEvent} (hstart : start.Initial)
    (h : Run (RateStep prio) start es s) :
    (∃ ls, Run (SkipStep isRecvCode) (fun _ => []) ls (s.pending prio)
      ∧ (∀ k, pushed ls k = (s.sockets k).enqueued)
      ∧ ∀ k, taken ls k = s.stack.executed k)
    ∧ ∀ k, ∀ p ∈ [isRecvCode, fun code => !isRecvCode code],
      (s.sockets k).enqueued.filter p
        = (s.stack.executed k).filter p ++ (s.pending prio k).filter p :=
  ⟨(hstart.pipe_run h).2.2, hstart.conserves h⟩

/-- A write waits for room in lwIP and the receive behind it is executed by the
recv scan; a second write is still in the squeue. -/
theorem pipeline_is_a_queue_per_socket_scan :
    ∃ (s : RateState) (ls : List (SkipEvent ℕ PifusOperationCode)),
      Run (SkipStep isRecvCode) (fun _ => []) ls (s.pending (fun _ => .low))
      ∧ taken ls 0 = [.tcpRecv]
      ∧ s.pending (fun _ => .low) 0 = [.tcpWrite, .tcpWrite] := by
  let op : PifusInternalOperation := ⟨.nop, 0, 0⟩
  let start : RateState :=
    ⟨⟨fun _ => .create (fun _ => ⟨op, op⟩) txQueueSize txQueueSize_pos
        txQueueSize_lt, none, maxFullSndBufIterations, fun _ => 0, .outside,
        fun _ => [], [], fun _ => [], []⟩,
      fun k => ⟨k, .create (fun _ => .nop) squeueSize squeueSize_pos
        squeueSize_lt, 0, 0, 0, 0, .create (fun _ => ⟨.nop, 0⟩) txQueueSize
        txQueueSize_pos txQueueSize_lt, .outside, .outside, [], 0, []⟩⟩
  have hstart : start.Initial :=
    ⟨⟨rfl, rfl, rfl, fun _ => rfl, fun _ => rfl, fun _ => rfl⟩, fun _ => rfl,
      fun _ => rfl, fun _ => ⟨rfl, rfl, rfl, rfl, rfl, rfl, rfl⟩, fun _ => rfl,
      fun _ => rfl⟩
  let submit : List RateEvent := [.enqueue 0 .tcpWrite, .announce 0,
    .enqueue 0 .tcpRecv, .announce 0, .call 0]
  let move : List RateEvent := List.replicate 15 (.tick 0)
  let iterate : List StackEvent := [.call, .tick, .tick, .tick,
    .process .tryAgain, .tick, .tick, .tick, .process .async, .tick]
  have hs : ((submit ++ move ++ [RateEvent.enqueue 0 .tcpWrite]
      ++ iterate.map RateEvent.stack).foldlM (rateStep (fun _ => .low)) start).any
        (fun s => s.stack.executed 0 = [.tcpRecv]
          ∧ s.pending (fun _ => .low) 0 = [.tcpWrite, .tcpWrite])
      = true := by decide +kernel
  obtain ⟨s, hrun, hp⟩ := (Option.any_eq_true _ _).mp hs
  obtain ⟨hexecuted, hpending⟩ := of_decide_eq_true hp
  obtain ⟨⟨ls, hls, -, htaken⟩, -⟩ :=
    pipeline_is_a_queue_per_socket hstart (Run.of_foldlM hrun)
  exact ⟨s, ls, hls, (htaken 0).trans hexecuted, hpending⟩

/-! ## The data path -/

section DataQueues

variable {app : AppRegion} {c c' : DataSocket} {h h' : HeapState}
  {s t : DataState} {e : DataEvent}

/-- The operations of each socket that are not processed. -/
def DataState.queues (s : DataState) (k : ℕ) : List DataOperation :=
  ((s.sockets[k]?).map DataSocket.ops).getD []

@[simp] theorem DataSocket.ops_enqueueInCqueue (c : DataSocket)
    (result : PifusOperationResult ℕ) :
    (c.enqueueInCqueue result).ops = c.ops := by
  unfold DataSocket.enqueueInCqueue
  split <;> rfl

@[simp] theorem DataSocket.ops_complete (c : DataSocket)
    (code : PifusOperationCode) (offsets : List ℕ) :
    (c.complete code offsets).ops = c.ops := by
  unfold DataSocket.complete
  induction offsets generalizing c with
  | nil => rfl
  | cons off offsets ih => rw [List.foldl_cons, ih, ops_enqueueInCqueue]

/-- The operation that the stack takes is the first one, or the first
`TCP_RECV`. -/
theorem DataSocket.next_cases {recvScan : Bool} {op : DataOperation}
    (hop : c.ops[c.next recvScan]? = some op) :
    ∃ l r, c.ops = l ++ op :: r ∧ l.length = c.next recvScan
      ∧ if recvScan then op.isRecvOp = true ∧ ∀ y ∈ l, y.isRecvOp = false
        else l = [] := by
  obtain ⟨hlt, hget⟩ := List.getElem?_eq_some_iff.mp hop
  refine ⟨c.ops.take (c.next recvScan), c.ops.drop (c.next recvScan + 1), ?_, ?_,
    ?_⟩
  · rw [← hget, ← List.drop_eq_getElem_cons hlt, List.take_append_drop]
  · rw [List.length_take, Nat.min_eq_left (Nat.le_of_lt hlt)]
  · cases recvScan with
    | true =>
      have hnext : c.next true = c.ops.findIdx DataOperation.isRecvOp := rfl
      have hfound : DataOperation.isRecvOp
          (c.ops.get ⟨c.ops.findIdx DataOperation.isRecvOp, hnext ▸ hlt⟩) :=
        List.findIdx_getElem
      refine ⟨?_, fun y hy => ?_⟩
      · rw [← hget]
        exact hfound
      · obtain ⟨i, hi, rfl⟩ := List.getElem_of_mem hy
        rw [List.length_take] at hi
        rw [List.getElem_take]
        exact List.not_of_lt_findIdx
          (hnext ▸ Nat.lt_of_lt_of_le hi (Nat.min_le_left _ _))
    | false => rfl

/-- **A step of a socket is one of its queue**, and only `process_tx_op` takes
an operation. -/
theorem SocketStep.queue (hs : SocketStep app h c e h' c') :
    c'.ops = c.ops ∨ (∃ op, c'.ops = c.ops ++ [op])
    ∨ ∃ k recvScan err l op r, e = .process k recvScan err
      ∧ c.ops = l ++ op :: r ∧ c'.ops = l ++ r
      ∧ if recvScan then op.isRecvOp = true ∧ ∀ y ∈ l, y.isRecvOp = false
        else l = [] := by
  cases hs with
  | recv hsize hcall => exact Or.inr (Or.inl ⟨_, rfl⟩)
  | write hsize hcall => exact Or.inr (Or.inl ⟨_, rfl⟩)
  | @processRecv k off size recvScan err _ hop hs =>
    obtain ⟨l, r, hops, hlen, hfirst⟩ := DataSocket.next_cases hop
    refine Or.inr (Or.inr ⟨k, recvScan, err, l, _, r, rfl, hops, ?_, hfirst⟩)
    have herase : c.ops.eraseIdx (c.next recvScan) = l ++ r := by
      rw [hops, ← hlen, List.eraseIdx_append_of_length_le (Nat.le_refl _),
        Nat.sub_self, List.eraseIdx_cons_zero]
    unfold DataSocket.processRecv at hs
    obtain ⟨recv, -, rfl⟩ := Option.map_eq_some_iff.mp hs
    dsimp only
    split
    · rw [DataSocket.ops_enqueueInCqueue]
      exact herase
    · exact herase
  | @processWrite k off recvScan err r hop hs =>
    obtain ⟨l, b, hops, -, hfirst⟩ := DataSocket.next_cases hop
    unfold DataSocket.processWrite
    split
    · exact Or.inl rfl
    · refine Or.inr (Or.inr ⟨k, recvScan, err, l, _, b, rfl, hops, ?_, hfirst⟩)
      have htail : c.ops.tail = l ++ b := by
        cases recvScan with
        | true => exact absurd hfirst.1 (by simp [DataOperation.isRecvOp])
        | false =>
          obtain rfl := hfirst
          rw [hops]
          rfl
      dsimp only
      split
      · rw [DataSocket.ops_enqueueInCqueue]
        exact htail
      · exact htail
  | deliver hs => exact Or.inl (DataSocket.ops_complete _ _ _)
  | sent hs =>
    unfold DataSocket.sent at hs
    split at hs
    · obtain ⟨r, -, hs⟩ := Option.bind_eq_some_iff.mp hs
      split at hs
      · exact absurd hs (by simp)
      · obtain rfl := Option.some.inj hs
        exact Or.inl (DataSocket.ops_complete _ _ _)
    · exact absurd hs (by simp)
  | result hnone => exact Or.inl (DataSocket.ops_enqueueInCqueue _ _)
  | popWrite hget hcode => exact Or.inl rfl
  | popRecv hget hcode => exact Or.inl rfl
  | popOther hget hnone => exact Or.inl rfl

/-- **The data path has the queues of the pipeline**: each of its steps is one
of theirs. -/
theorem dataStep_queues (hs : DataStep app s e t) :
    ∃ label, SkipStep DataOperation.isRecvOp s.queues label t.queues
      ∧ ((∀ k recvScan err, e ≠ .process k recvScan err) →
        ∀ k, label.takenFrom k = none) := by
  rcases dataStep_cases hs with
    ⟨k, c, c', -, hc, hset, hstep⟩ | ⟨-, rfl⟩ | ⟨hsame, -⟩
  · have hlt := (List.getElem?_eq_some_iff.mp hc).1
    have hbefore : s.queues k = c.ops := by rw [DataState.queues, hc]; rfl
    have hafter : t.queues = Function.update s.queues k c'.ops := by
      funext j
      rw [DataState.queues, hset]
      by_cases hj : j = k
      · subst hj
        rw [List.getElem?_set_self hlt, Function.update_self]
        rfl
      · rw [List.getElem?_set_ne (Ne.symm hj), Function.update_of_ne hj]
        rfl
    rcases hstep.queue with hops | ⟨op, hops⟩ |
      ⟨_, recvScan, _, l, op, r, rfl, hops, hops', hfirst⟩
    · rw [hops, ← hbefore, Function.update_eq_self] at hafter
      exact ⟨.stay, hafter ▸ .stay, fun _ _ => rfl⟩
    · rw [hops, ← hbefore] at hafter
      exact ⟨.push k op, hafter ▸ .push, fun _ _ => rfl⟩
    · rw [hops] at hbefore
      rw [hops'] at hafter
      cases recvScan with
      | true =>
        exact ⟨.skip k op, hafter ▸ .skip hbefore hfirst.1 hfirst.2,
          fun hnot => absurd rfl (hnot _ _ _)⟩
      | false =>
        obtain rfl := hfirst
        exact ⟨.pop k op, hafter ▸ .pop hbefore,
          fun hnot => absurd rfl (hnot _ _ _)⟩
  · -- a new socket has no operations
    refine ⟨.stay, ?_, fun _ _ => rfl⟩
    have hnew : DataState.queues { s with sockets := s.sockets ++ [.initial] }
        = s.queues := by
      funext k
      unfold DataState.queues
      dsimp only
      rw [List.getElem?_append]
      split
      · rfl
      · rename_i hlt
        rw [List.getElem?_eq_none (Nat.le_of_not_lt hlt), List.getElem?_singleton]
        split <;> rfl
    rw [hnew]
    exact .stay
  · refine ⟨.stay, ?_, fun _ _ => rfl⟩
    have hqueues : t.queues = s.queues := by
      funext k
      rw [DataState.queues, hsame]
      rfl
    rw [hqueues]
    exact .stay

end DataQueues
