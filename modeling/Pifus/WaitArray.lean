import Pifus.PrioThreads

/-!
# The arrays of a pass

`prio_thread_loop` keeps two arrays beside each other: `waitvs[i]` is the word
that `futex_waitv` is to wait for, and `socket_from_futex_nr[i]` the socket
that it belongs to, or `NULL` for the word of the new-socket queue, which gets
the last entry. When `futex_waitv` returns a number, the second array says what
to do.

`Pifus.FillWaitv` has the entries that a pass writes as a list. Here they are
in the arrays, of TX_MAX_FUTEXES_PER_THREAD cells each, with the entry count in
a `uint8_t`; `PrioPass.record` is the state of the arrays behind such a list,
and the loop on the arrays is the loop on the list.

Only the entries of sockets are written in both arrays. For that of the queue,
`socket_from_futex_nr` is expected to hold `NULL` already: `memset` clears the
array after every `futex_waitv` that did not fail, and nothing does before the
first one.

`socket_from_futex_nr` belongs to the thread, but `waitvs` is `static`, and the
two other prio threads write their entries into the same cells. A pass accesses
`waitvs` once for each entry that it writes, and `futex_waitv` once more for
each entry that it copies; in front of every one of these accesses the other
threads may have written whatever they wait for themselves. An access to an
entry is one step, as in `Pifus.PrioThreads`.
-/

/-- The socket that a word belongs to, as a cell of `socket_from_futex_nr`. -/
def FutexWord.owner : FutexWord → SocketPtr
  | .squeueFutex id => .socket id
  | .socketQueueFutex _ => .null

/-! ## An array that others write to -/

section others

variable {β : Type*}

/-- An array after these writes. -/
def writeAll (writes : List (ℕ × β)) (g : ℕ → β) : ℕ → β :=
  writes.foldl (fun g w => Function.update g w.1 w.2) g

/-- An array `n` accesses later, none of which has changed it: what the others
write in front of access number `k` is `others k`. -/
def afterOthers (others : ℕ → List (ℕ × β)) (k : ℕ) :
    ℕ → (ℕ → β) → ℕ → β
  | 0, g => g
  | n + 1, g => writeAll (others (k + n)) (afterOthers others k n g)

end others

/-! ## The pass -/

/-- The variables of a pass of `prio_thread_loop`, up to the call of
`futex_waitv`. -/
structure WaitPass where
  list : LinkedList PifusSocketIdentifier
  socketFutexes : PifusSocketIdentifier → UInt32
  /-- As the last access of the thread has left it. -/
  waitvs : ℕ → FutexWaitv
  socketFromFutexNr : ℕ → SocketPtr
  /-- `current_amount_futexes`, and then `amount_futexes`: a `uint8_t`. -/
  amountFutexes : ℕ
  removableSocketInsideList : Bool

namespace WaitPass

/-- The first loop of `fill_prio_waitv`, on the arrays. -/
def fillWaitvs (socketPtrs : PifusSocketIdentifier → Bool)
    (handle : PifusSocketIdentifier → UInt32 → UInt32)
    (others : ℕ → List (ℕ × FutexWaitv)) :
    ℕ → WaitPass → Except PassFault WaitPass
  | 0, _ => .error .running
  | fuel + 1, p =>
    match p.list.listNext with
    | none => .error .node
    | some (none, list) => .ok { p with list := list }
    | some (some id, list) =>
      if socketPtrs id then
        let shadow := handle id (p.socketFutexes id)
        if p.amountFutexes < txMaxFutexesPerThread then
          fillWaitvs socketPtrs handle others fuel { p with
            list := list
            socketFutexes := Function.update p.socketFutexes id shadow
            waitvs := Function.update
              (writeAll (others p.amountFutexes) p.waitvs) p.amountFutexes
              ⟨.squeueFutex id, shadow⟩
            socketFromFutexNr := Function.update p.socketFromFutexNr
              p.amountFutexes (.socket id)
            amountFutexes := (p.amountFutexes + 1) % 2 ^ 8 }
        else .error .waitvs
      else
        fillWaitvs socketPtrs handle others fuel
          { p with list := list, removableSocketInsideList := true }

/-- `fill_prio_waitv`, on the arrays. -/
def fillPrioWaitv (socketPtrs : PifusSocketIdentifier → Bool)
    (handle : PifusSocketIdentifier → UInt32 → UInt32)
    (others : ℕ → List (ℕ × FutexWaitv)) (p : WaitPass) :
    Except PassFault WaitPass :=
  match p.list.listFirst false with
  | none => .error .node
  | some list => do
    let p ← fillWaitvs socketPtrs handle others (list.size + 1) { p with
      list := list
      amountFutexes := 0
      removableSocketInsideList := false }
    if p.removableSocketInsideList then
      match p.list.listFirst false with
      | none => .error .node
      | some list =>
        let list ← PrioPass.removeClosed socketPtrs (list.size + 1) list 0
        .ok { p with list := list, removableSocketInsideList := false }
    else .ok p

/-- The entry for the new-socket queue. -/
def putQueueEntry (prio : PifusPriority) (newSocketQueueFutexShadow : UInt32)
    (others : ℕ → List (ℕ × FutexWaitv)) (p : WaitPass) :
    Except PassFault WaitPass :=
  if p.amountFutexes < txMaxFutexesPerThread then
    .ok { p with
      waitvs := Function.update
        (writeAll (others p.amountFutexes) p.waitvs) p.amountFutexes
        ⟨.socketQueueFutex prio, newSocketQueueFutexShadow⟩
      amountFutexes := (p.amountFutexes + 1) % 2 ^ 8 }
  else .error .waitvs

/-- The entries that `futex_waitv` waits for: it copies one after the other. -/
def copied (others : ℕ → List (ℕ × FutexWaitv)) (p : WaitPass) (i : ℕ) :
    FutexWaitv :=
  afterOthers others p.amountFutexes (i + 1) p.waitvs i

end WaitPass

/-! ## The arrays behind a list of entries -/

/-- The array with a list written over its first cells. -/
def overlay {β : Type*} (l : List β) (g : ℕ → β) : ℕ → β :=
  fun i => l[i]?.getD (g i)

section overlay

variable {β : Type*} {l : List β} {g : ℕ → β} {i : ℕ}

theorem overlay_of_lt (h : i < l.length) : overlay l g i = l[i] := by
  rw [overlay, List.getElem?_eq_getElem h, Option.getD_some]

theorem overlay_of_ge (h : l.length ≤ i) : overlay l g i = g i := by
  rw [overlay, List.getElem?_eq_none h, Option.getD_none]

theorem overlay_append_singleton (a : β) :
    overlay (l ++ [a]) g = Function.update (overlay l g) l.length a := by
  funext i
  rcases Nat.lt_trichotomy i l.length with hi | rfl | hi
  · rw [Function.update_of_ne (Nat.ne_of_lt hi), overlay_of_lt hi,
      overlay_of_lt (by simpa using Nat.lt_succ_of_lt hi),
      List.getElem_append_left hi]
  · rw [Function.update_self, overlay, List.getElem?_concat_length,
      Option.getD_some]
  · rw [Function.update_of_ne (Nat.ne_of_gt hi),
      overlay_of_ge (Nat.le_of_lt hi),
      overlay_of_ge (by rwa [List.length_append, List.length_singleton])]

end overlay

/-- The array with a list written over its first cells, one access for each
element, from access number `k` on. -/
def layer {β : Type*} (others : ℕ → List (ℕ × β)) :
    ℕ → List β → (ℕ → β) → ℕ → β
  | _, [], g => g
  | k, a :: l, g =>
    layer others (k + 1) l (Function.update (writeAll (others k) g) k a)

/-- Others write to the cell in front of an access behind number `i`, and in
front of number `k`. -/
def Overwritten {β : Type*} (others : ℕ → List (ℕ × β)) (i k : ℕ) : Prop :=
  ∃ j, i < j ∧ j < k ∧ ∃ w ∈ others j, w.1 = i

/-- **What the cell number `i` can hold** in front of access number `k`: the
element that access number `i` has put there, or, where others write to the
cell in between, one of theirs. -/
def CellIs {β : Type*} (others : ℕ → List (ℕ × β)) (i k : ℕ) (a b : β) : Prop :=
  (¬ Overwritten others i k ∧ b = a)
    ∨ (Overwritten others i k ∧ ∃ j, ∃ w ∈ others j, w.2 = b)

section layer

variable {β : Type*} {others : ℕ → List (ℕ × β)} {writes : List (ℕ × β)}
  {l : List β} {g : ℕ → β} {i k : ℕ} {a : β}

theorem layer_append_singleton (a : β) :
    layer others k (l ++ [a]) g = Function.update
      (writeAll (others (k + l.length)) (layer others k l g)) (k + l.length)
      a := by
  induction l generalizing k g with
  | nil => rfl
  | cons b l ih =>
    rw [List.cons_append, layer, ih, layer, List.length_cons,
      Nat.add_right_comm k 1, Nat.add_assoc k]

/-- A cell after some writes: what the last one to it has put there. -/
theorem writeAll_cases (writes : List (ℕ × β)) (g : ℕ → β) (i : ℕ) :
    ((∀ w ∈ writes, w.1 ≠ i) ∧ writeAll writes g i = g i)
      ∨ ∃ w ∈ writes, w.1 = i ∧ w.2 = writeAll writes g i := by
  induction writes using List.reverseRecOn with
  | nil => exact Or.inl ⟨fun w hw => absurd hw (by simp), rfl⟩
  | append_singleton writes w ih =>
    have hlast : writeAll (writes ++ [w]) g
        = Function.update (writeAll writes g) w.1 w.2 :=
      List.foldl_append ..
    rw [hlast]
    by_cases hw : w.1 = i
    · exact Or.inr ⟨w, by simp, hw, by rw [← hw, Function.update_self]⟩
    · rw [Function.update_of_ne (Ne.symm hw)]
      rcases ih with ⟨hnone, hsame⟩ | ⟨w', hmem, hcell, hval⟩
      · refine Or.inl ⟨fun w' hw' => ?_, hsame⟩
        rcases List.mem_append.mp hw' with hmem | hmem
        · exact hnone w' hmem
        · rwa [List.mem_singleton.mp hmem]
      · exact Or.inr ⟨w', List.mem_append_left _ hmem, hcell, hval⟩

/-- **The writes of others**, in front of one access. -/
theorem CellIs.writeAll (h : CellIs others i k a (g i)) (hlt : i < k) :
    CellIs others i (k + 1) a (writeAll (others k) g i) := by
  rcases writeAll_cases (others k) g i with ⟨hnone, hsame⟩ | ⟨w, hw, hcell, hval⟩
  · have hiff : Overwritten others i (k + 1) ↔ Overwritten others i k := by
      constructor
      · rintro ⟨j, hij, hjk, w, hw, hcell⟩
        rcases Nat.lt_succ_iff_lt_or_eq.mp hjk with hjk | rfl
        · exact ⟨j, hij, hjk, w, hw, hcell⟩
        · exact absurd hcell (hnone w hw)
      · rintro ⟨j, hij, hjk, hrest⟩
        exact ⟨j, hij, Nat.lt_succ_of_lt hjk, hrest⟩
    unfold CellIs
    rw [hsame, hiff]
    exact h
  · exact Or.inr ⟨⟨k, hlt, Nat.lt_succ_self k, w, hw, hcell⟩, k, w, hw, hval⟩

/-- **A cell behind the writes of a list.** -/
theorem cellIs_layer (hi : i < l.length) :
    CellIs others i l.length l[i] (layer others 0 l g i) := by
  induction l using List.reverseRecOn with
  | nil => exact absurd hi (Nat.not_lt_zero _)
  | append_singleton l b ih =>
    rw [layer_append_singleton, Nat.zero_add]
    simp only [List.length_append, List.length_singleton] at hi ⊢
    rcases Nat.lt_succ_iff_lt_or_eq.mp hi with hlt | rfl
    · rw [Function.update_of_ne (Nat.ne_of_lt hlt), List.getElem_append_left hlt]
      exact (ih hlt).writeAll hlt
    · rw [Function.update_self, List.getElem_concat_length rfl]
      refine Or.inl ⟨?_, rfl⟩
      rintro ⟨j, hij, hjk, -⟩
      omega

/-- **A cell that is read later.** -/
theorem CellIs.afterOthers (h : CellIs others i k a (g i)) (hlt : i < k)
    (n : ℕ) : CellIs others i (k + n) a (afterOthers others k n g i) := by
  induction n with
  | zero => exact h
  | succ n ih => exact ih.writeAll (Nat.lt_of_lt_of_le hlt (Nat.le_add_right k n))

end layer

namespace PrioPass

variable {waitvs : ℕ → FutexWaitv} {socketFromFutexNr : ℕ → SocketPtr}
  {socketPtrs : PifusSocketIdentifier → Bool}
  {handle : PifusSocketIdentifier → UInt32 → UInt32}
  {others : ℕ → List (ℕ × FutexWaitv)}

/-- **The arrays behind a list of entries**: `waitvs` has been written with the
entries, and the first cells of the other hold the sockets they belong to. -/
def record (others : ℕ → List (ℕ × FutexWaitv)) (waitvs : ℕ → FutexWaitv)
    (socketFromFutexNr : ℕ → SocketPtr) (p : PrioPass) : WaitPass where
  list := p.list
  socketFutexes := p.socketFutexes
  waitvs := layer others 0 p.waitvs waitvs
  socketFromFutexNr :=
    overlay (p.waitvs.map (fun entry => entry.uaddr.owner)) socketFromFutexNr
  amountFutexes := p.waitvs.length
  removableSocketInsideList := p.removableSocketInsideList

theorem succ_mod_of_lt {n : ℕ} (h : n < txMaxFutexesPerThread) :
    (n + 1) % 2 ^ 8 = n + 1 :=
  Nat.mod_eq_of_lt (Nat.lt_of_le_of_lt h (by decide))

/-- **The loop on the arrays is the loop on the list.** -/
theorem fillWaitvs_record (fuel : ℕ) (p : PrioPass) :
    WaitPass.fillWaitvs socketPtrs handle others fuel
        (p.record others waitvs socketFromFutexNr)
      = (PrioPass.fillWaitvs socketPtrs handle fuel p).map
          (record others waitvs socketFromFutexNr) := by
  induction fuel generalizing p with
  | zero => rfl
  | succ fuel ih =>
    have hlist : (p.record others waitvs socketFromFutexNr).list = p.list := rfl
    rw [WaitPass.fillWaitvs, PrioPass.fillWaitvs, hlist]
    rcases p.list.listNext with _ | ⟨_ | id, list⟩
    · rfl
    · rfl
    · dsimp only
      by_cases hopen : socketPtrs id = true
      · rw [if_pos hopen, if_pos hopen]
        have hamount : (p.record others waitvs socketFromFutexNr).amountFutexes
          = p.waitvs.length := rfl
        rw [hamount]
        by_cases hroom : p.waitvs.length < txMaxFutexesPerThread
        · rw [if_pos hroom, if_pos hroom, ← ih]
          congr 1
          unfold record
          dsimp only
          rw [succ_mod_of_lt hroom, layer_append_singleton, Nat.zero_add,
            List.map_append, List.map_singleton, overlay_append_singleton,
            List.length_map, List.length_append, List.length_singleton]
          rfl
        · rw [if_neg hroom, if_neg hroom]
          rfl
      · rw [if_neg hopen, if_neg hopen, ← ih]
        rfl

/-- **The pass on the arrays is the pass on the list.** -/
theorem fillPrioWaitv_record {socketFutexes : PifusSocketIdentifier → UInt32}
    (w : WaitPass) (hfutexes : w.socketFutexes = socketFutexes) :
    WaitPass.fillPrioWaitv socketPtrs handle others w
      = (PrioPass.fillPrioWaitv socketPtrs handle w.list socketFutexes).map
          (record others w.waitvs w.socketFromFutexNr) := by
  subst hfutexes
  unfold WaitPass.fillPrioWaitv PrioPass.fillPrioWaitv
  cases w.list.listFirst false with
  | none => rfl
  | some list =>
    have hfill := @fillWaitvs_record w.waitvs w.socketFromFutexNr socketPtrs
      handle others (list.size + 1) ⟨list, w.socketFutexes, [], false⟩
    dsimp only
    have hstart : record others w.waitvs w.socketFromFutexNr
          ⟨list, w.socketFutexes, [], false⟩
        = { w with
            list := list
            amountFutexes := 0
            removableSocketInsideList := false } := rfl
    rw [hstart] at hfill
    rw [hfill]
    cases PrioPass.fillWaitvs socketPtrs handle (list.size + 1)
        ⟨list, w.socketFutexes, [], false⟩ with
    | error f => rfl
    | ok p =>
      dsimp only [bind, Except.bind, Except.map]
      have hremovable : (record others w.waitvs w.socketFromFutexNr
        p).removableSocketInsideList = p.removableSocketInsideList := rfl
      have hlist : (record others w.waitvs w.socketFromFutexNr p).list
        = p.list := rfl
      rw [hremovable, hlist]
      by_cases hremove : p.removableSocketInsideList = true
      · rw [if_pos hremove, if_pos hremove]
        cases p.list.listFirst false with
        | none => rfl
        | some list =>
          dsimp only
          cases removeClosed socketPtrs (list.size + 1) list 0 <;> rfl
      · rw [if_neg hremove, if_neg hremove]

end PrioPass

/-! ## Runs -/

/-- A prio thread in front of a pass, with the arrays. -/
structure PrioLoopState extends PassState where
  prio : PifusPriority
  newSocketQueueFutexShadow : UInt32
  /-- The array of all prio threads, as the last access of this one has left
  it. -/
  waitvs : ℕ → FutexWaitv
  socketFromFutexNr : ℕ → SocketPtr

/-- What can happen next. -/
inductive PrioLoopEvent
  /-- A socket is taken out of the new-socket queue, `malloc` returning this
  node to `ListPushFront`. -/
  | register (newNode : ℕ) (id : PifusSocketIdentifier)
  /-- The stack closes a socket. -/
  | close (id : PifusSocketIdentifier)
  /-- `fill_prio_waitv`, the entry for the queue, and `futex_waitv`, which
  returns this number, or fails; then `handle_squeue_change` for the socket
  that the number stands for. In front of every access to `waitvs` the other
  prio threads have written to it. -/
  | pass (handle : PifusSocketIdentifier → UInt32 → UInt32)
      (others : ℕ → List (ℕ × FutexWaitv)) (retCode : Option ℕ)
      (serve : UInt32 → UInt32)

/-- `futex_waitv` does not fail. -/
def PrioLoopEvent.Answered : PrioLoopEvent → Prop
  | .pass _ _ retCode _ => retCode ≠ none
  | _ => True

namespace PrioLoopState

/-- A pass of `prio_thread_loop`, up to the call of `futex_waitv`. -/
def waitPass (s : PrioLoopState)
    (handle : PifusSocketIdentifier → UInt32 → UInt32)
    (others : ℕ → List (ℕ × FutexWaitv)) : Except PassFault WaitPass := do
  let p ← WaitPass.fillPrioWaitv s.socketPtrs handle others
    ⟨s.list, s.socketFutexes, s.waitvs, s.socketFromFutexNr, 0, false⟩
  p.putQueueEntry s.prio s.newSocketQueueFutexShadow others

/-- What `prio_thread_loop` does when `futex_waitv` has copied the entries and
returned: the mapping says which socket to serve, and is cleared. -/
def answer (s : PrioLoopState) (p : WaitPass)
    (others : ℕ → List (ℕ × FutexWaitv)) (serve : UInt32 → UInt32) :
    Option ℕ → Option PrioLoopState
  | none => some { s with
      list := p.list
      socketFutexes := p.socketFutexes
      waitvs := afterOthers others p.amountFutexes p.amountFutexes p.waitvs
      socketFromFutexNr := p.socketFromFutexNr }
  | some retCode =>
    if retCode < p.amountFutexes then
      let cleared : PrioLoopState := { s with
        list := p.list
        socketFutexes := p.socketFutexes
        waitvs := afterOthers others p.amountFutexes p.amountFutexes p.waitvs
        socketFromFutexNr := fun _ => .null }
      match p.socketFromFutexNr retCode with
      | .null => some cleared
      | .socket id => some { cleared with
          socketFutexes := Function.update p.socketFutexes id
            (serve (p.socketFutexes id)) }
      | .garbage => none
    else none

end PrioLoopState

/-- **A step of a prio thread or of the stack**, the other prio threads
writing to `waitvs`. -/
def prioLoopStep (s : PrioLoopState) : PrioLoopEvent → Option PrioLoopState
  | .register newNode id =>
    (passStep s.toPassState (.register newNode id)).map (fun q => { s with
      toPassState := q
      newSocketQueueFutexShadow := s.newSocketQueueFutexShadow + 1 })
  | .close id =>
    (passStep s.toPassState (.close id)).map (fun q =>
      { s with toPassState := q })
  | .pass handle others retCode serve =>
    match s.waitPass handle others with
    | .ok p => s.answer p others serve retCode
    | .error _ => none

/-- The steps as a relation. -/
def PrioLoopStep (s : PrioLoopState) (e : PrioLoopEvent) (t : PrioLoopState) :
    Prop :=
  prioLoopStep s e = some t

namespace PrioLoopState

open PassState PrioPass

/-- A prio thread that has just been started, with the arrays as they are in
memory. -/
def initial (prio : PifusPriority) (iterRound : ℕ)
    (socketPtrs : PifusSocketIdentifier → Bool)
    (socketFutexes : PifusSocketIdentifier → UInt32) (waitvs : ℕ → FutexWaitv)
    (socketFromFutexNr : ℕ → SocketPtr) : PrioLoopState :=
  ⟨.initial iterRound socketPtrs socketFutexes, prio, 0, waitvs,
    socketFromFutexNr⟩

/-- The words of the thread: those of the sockets that it has registered, and
that of its new-socket queue. -/
def Owns (s : PrioLoopState) : FutexWord → Prop
  | .squeueFutex id => id ∈ s.registered
  | .socketQueueFutex prio => prio = s.prio

/-- **What the other prio threads write during a pass**, in front of each of
its accesses to `waitvs`: any entries in any cells, but for words of their own.
A socket is handed to one thread only, and each has its own queue. -/
structure OtherThreads (s : PrioLoopState) where
  writes : ℕ → List (ℕ × FutexWaitv)
  foreign : ∀ k, ∀ w ∈ writes k, ¬ s.Owns w.2.uaddr

/-- **The next pass keeps to its arrays, and can be answered**: it returns, so
it has written no cell behind the end of an array; the count is that of the open
sockets and one for the queue; and whichever entry `futex_waitv` returns, it is
for a word of the thread, and the cell of `socket_from_futex_nr` is the socket
whose word it is, and `NULL` for that of the queue. -/
def WaitsRight (s : PrioLoopState)
    (handle : PifusSocketIdentifier → UInt32 → UInt32)
    (others : s.OtherThreads) : Prop :=
  ∃ p, s.waitPass handle others.writes = .ok p
    ∧ p.amountFutexes = s.openSockets.length + 1
    ∧ ∀ i < p.amountFutexes,
        s.Owns (p.copied others.writes i).uaddr
        ∧ p.socketFromFutexNr i = (p.copied others.writes i).uaddr.owner

/-- **The state such a pass needs**: the list is not empty, or its iterator is
at its start; both arrays have a cell for every open socket and one more; and
in the mapping, this one holds `NULL`. -/
def WaitReady (s : PrioLoopState) : Prop :=
  (s.list.size = 0 → s.list.iterRound = 0)
    ∧ s.openSockets.length < txMaxFutexesPerThread
    ∧ s.socketFromFutexNr s.openSockets.length = .null

/-- **No other prio thread overwrites an entry**: none writes to the cell of an
entry between the access that writes the entry and the one that `futex_waitv`
copies it with. -/
def Undisturbed (s : PrioLoopState) (others : s.OtherThreads) : Prop :=
  ∀ i ≤ s.openSockets.length,
    ¬ Overwritten others.writes i (s.openSockets.length + 1 + (i + 1))

/-- The words that the entries of a pass are for. -/
def words (s : PrioLoopState) : List FutexWord :=
  s.openSockets.map .squeueFutex ++ [.socketQueueFutex s.prio]

variable {s t : PrioLoopState}
  {handle : PifusSocketIdentifier → UInt32 → UInt32}
  {others : ℕ → List (ℕ × FutexWaitv)}

theorem length_words (s : PrioLoopState) :
    s.words.length = s.openSockets.length + 1 := by
  rw [words, List.length_append, List.length_map, List.length_singleton]

theorem words_open {i : ℕ} (hi : i < s.openSockets.length) :
    s.words[i]? = some (.squeueFutex s.openSockets[i]) := by
  rw [words, List.getElem?_append_left (by rwa [List.length_map]),
    List.getElem?_map, List.getElem?_eq_getElem hi]
  rfl

theorem words_queue (s : PrioLoopState) :
    s.words[s.openSockets.length]? = some (.socketQueueFutex s.prio) := by
  have hlen : s.openSockets.length
      = (s.openSockets.map FutexWord.squeueFutex).length := by
    rw [List.length_map]
  rw [words, hlen, List.getElem?_concat_length]

/-- The cells of the mapping are the sockets of the words if the one behind the
open sockets holds `NULL`. -/
theorem overlay_owner_iff {g : ℕ → SocketPtr} :
    (∀ i, ∀ w ∈ s.words[i]?,
        overlay (s.openSockets.map SocketPtr.socket) g i = w.owner)
      ↔ g s.openSockets.length = .null := by
  have hcell : overlay (s.openSockets.map SocketPtr.socket) g
      s.openSockets.length = g s.openSockets.length :=
    overlay_of_ge (by rw [List.length_map])
  constructor
  · intro hall
    rw [← hcell, hall _ _ s.words_queue]
    rfl
  · intro hnull i w hw
    have hi := (List.getElem?_eq_some_iff.mp hw).1
    rw [length_words] at hi
    rcases Nat.lt_succ_iff_lt_or_eq.mp hi with hlt | rfl
    · obtain rfl := Option.some.inj ((words_open hlt).symm.trans hw)
      rw [overlay_of_lt (by rwa [List.length_map]), List.getElem_map]
      rfl
    · obtain rfl := Option.some.inj (s.words_queue.symm.trans hw)
      rw [hcell, hnull]
      rfl

theorem owns_of_mem_words {w : FutexWord} (h : w ∈ s.words) : s.Owns w := by
  rcases List.mem_append.mp h with h | h
  · obtain ⟨id, hid, rfl⟩ := List.mem_map.mp h
    exact List.mem_of_mem_filter hid
  · obtain rfl := List.mem_singleton.mp h
    exact rfl

/-- **A pass that returns**, on the list and in the arrays. -/
theorem waitPass_eq (s : PrioLoopState)
    (handle : PifusSocketIdentifier → UInt32 → UInt32)
    (others : ℕ → List (ℕ × FutexWaitv)) :
    s.waitPass handle others
      = (fillPrioWaitv s.socketPtrs handle s.list s.socketFutexes).bind
          (fun q => (q.record others s.waitvs s.socketFromFutexNr).putQueueEntry
            s.prio s.newSocketQueueFutexShadow others) := by
  unfold waitPass
  rw [fillPrioWaitv_record _ rfl]
  cases fillPrioWaitv s.socketPtrs handle s.list s.socketFutexes <;> rfl

theorem exists_fillPrioWaitv (h : PassInv s.toPassState) (hready : s.PassReady)
    (handle : PifusSocketIdentifier → UInt32 → UInt32) :
    ∃ q, fillPrioWaitv s.socketPtrs handle s.list s.socketFutexes = .ok q
      ∧ q.waitvs.map FutexWaitv.uaddr
        = s.openSockets.map FutexWord.squeueFutex := by
  obtain ⟨cells, hrep, hopen⟩ := h
  obtain ⟨q, -, hq, -, -, hentries⟩ := pass_of_ready hrep hopen hready handle
  exact ⟨q, hq, hentries⟩

theorem entries_of_fillPrioWaitv {p : PrioPass} (h : PassInv s.toPassState)
    (hpass : fillPrioWaitv s.socketPtrs handle s.list s.socketFutexes = .ok p) :
    s.PassReady ∧ p.waitvs.map FutexWaitv.uaddr
      = s.openSockets.map FutexWord.squeueFutex := by
  by_cases hready : s.PassReady
  · obtain ⟨q, hq, hentries⟩ := exists_fillPrioWaitv h hready handle
    obtain rfl := Except.ok.inj (hpass.symm.trans hq)
    exact ⟨hready, hentries⟩
  · obtain ⟨f, hf⟩ := h.fault hready handle
    exact absurd (hpass.symm.trans hf) (by simp)

theorem length_of_entries {entries : List FutexWaitv}
    (h : entries.map FutexWaitv.uaddr
      = s.openSockets.map FutexWord.squeueFutex) :
    entries.length = s.openSockets.length := by
  have hlen := congrArg List.length h
  rwa [List.length_map, List.length_map] at hlen

/-- **A pass over as many open sockets as there are cells**, or more, writes
behind the end. -/
theorem waitPass_overrun (h : PassInv s.toPassState)
    (hlist : s.list.size = 0 → s.list.iterRound = 0)
    (hroom : txMaxFutexesPerThread ≤ s.openSockets.length) :
    s.waitPass handle others = .error .waitvs := by
  rw [waitPass_eq]
  rcases Nat.eq_or_lt_of_le hroom with heq | hlt
  · obtain ⟨q, hq, hentries⟩ :=
      exists_fillPrioWaitv h ⟨hlist, Nat.le_of_eq heq.symm⟩ handle
    rw [hq]
    refine if_neg (Nat.not_lt.mpr (show _ ≤ q.waitvs.length from ?_))
    rwa [length_of_entries hentries]
  · obtain ⟨cells, hrep, hopen⟩ := h
    have hne : cells ≠ [] := by
      rintro rfl
      rw [← hopen] at hlt
      exact absurd hlt (Nat.not_lt_zero _)
    rw [fillPrioWaitv_overrun hrep hne (by rwa [hopen])]
    rfl

/-- **A pass that returns** has written the entries for the open sockets and
behind them the one for the queue, and has left the cell beside the last one as
it was. -/
theorem waitPass_spec {p : WaitPass} (h : PassInv s.toPassState)
    (hpass : s.waitPass handle others = .ok p) :
    s.PassReady ∧ s.openSockets.length < txMaxFutexesPerThread
      ∧ p.amountFutexes = s.openSockets.length + 1
      ∧ (∃ entries, entries.map FutexWaitv.uaddr = s.words
        ∧ p.waitvs = layer others 0 entries s.waitvs)
      ∧ p.socketFromFutexNr
        = overlay (s.openSockets.map SocketPtr.socket) s.socketFromFutexNr
      ∧ ∃ q, fillPrioWaitv s.socketPtrs handle s.list s.socketFutexes = .ok q
        ∧ p.list = q.list := by
  rw [waitPass_eq] at hpass
  cases hq : fillPrioWaitv s.socketPtrs handle s.list s.socketFutexes with
  | error f =>
    rw [hq] at hpass
    exact absurd hpass (by simp [Except.bind])
  | ok q =>
    rw [hq] at hpass
    obtain ⟨hready, hentries⟩ := entries_of_fillPrioWaitv h hq
    have hlen := length_of_entries hentries
    dsimp only [Except.bind, WaitPass.putQueueEntry] at hpass
    have hamount : (q.record others s.waitvs s.socketFromFutexNr).amountFutexes
        = q.waitvs.length := rfl
    rw [hamount] at hpass
    split at hpass
    · rename_i hroom
      obtain rfl := Except.ok.inj hpass
      refine ⟨hready, hlen ▸ hroom, ?_,
        ⟨q.waitvs ++ [⟨.socketQueueFutex s.prio, s.newSocketQueueFutexShadow⟩],
          ?_, ?_⟩, ?_, q, rfl, rfl⟩
      · exact (succ_mod_of_lt hroom).trans (congrArg (· + 1) hlen)
      · rw [List.map_append, hentries]
        rfl
      · rw [layer_append_singleton, Nat.zero_add]
        rfl
      · have howners := congrArg (List.map FutexWord.owner) hentries
        rw [List.map_map, List.map_map] at howners
        exact congrArg (fun l => overlay l s.socketFromFutexNr) howners
    · exact absurd hpass (by simp)

theorem exists_waitPass (h : PassInv s.toPassState) (hready : s.PassReady)
    (hroom : s.openSockets.length < txMaxFutexesPerThread)
    (handle : PifusSocketIdentifier → UInt32 → UInt32)
    (others : ℕ → List (ℕ × FutexWaitv)) :
    ∃ p, s.waitPass handle others = .ok p := by
  obtain ⟨q, hq, hentries⟩ := exists_fillPrioWaitv h hready handle
  rw [waitPass_eq, hq]
  refine ⟨_, if_pos (show q.waitvs.length < _ from ?_)⟩
  rwa [length_of_entries hentries]

/-- **The entry that `futex_waitv` copies** is for the word of its place, or is
one that other threads have written over it. -/
theorem copied_cases {p : WaitPass} {i : ℕ} (h : PassInv s.toPassState)
    (hpass : s.waitPass handle others = .ok p) (hi : i < p.amountFutexes) :
    (¬ Overwritten others i (s.openSockets.length + 1 + (i + 1))
        ∧ s.words[i]? = some (p.copied others i).uaddr)
      ∨ (Overwritten others i (s.openSockets.length + 1 + (i + 1))
        ∧ ∃ j, ∃ w ∈ others j, w.2 = p.copied others i) := by
  obtain ⟨-, -, hamount, ⟨entries, hwords, hwaitvs⟩, -, -⟩ :=
    waitPass_spec h hpass
  have hlen : entries.length = s.openSockets.length + 1 := by
    rw [← s.length_words, ← hwords, List.length_map]
  have hi : i < entries.length := by omega
  have hcell : CellIs others i (entries.length + (i + 1)) entries[i]
      (p.copied others i) := by
    rw [WaitPass.copied, hwaitvs, hamount, ← hlen]
    exact (cellIs_layer hi).afterOthers hi (i + 1)
  rw [hlen] at hcell
  rcases hcell with ⟨hfree, hsame⟩ | hover
  · refine Or.inl ⟨hfree, ?_⟩
    rw [hsame, ← hwords, List.getElem?_map, List.getElem?_eq_getElem hi]
    rfl
  · exact Or.inr hover

/-- **When a pass keeps to its arrays and can be answered.** -/
theorem waitsRight_iff (h : PassInv s.toPassState)
    (handle : PifusSocketIdentifier → UInt32 → UInt32)
    (others : s.OtherThreads) :
    s.WaitsRight handle others ↔ s.WaitReady ∧ s.Undisturbed others := by
  constructor
  · rintro ⟨p, hpass, hamount, hmap⟩
    obtain ⟨hready, hroom, -, -, hnr, -⟩ := waitPass_spec h hpass
    have hcopied : ∀ i < p.amountFutexes,
        ¬ Overwritten others.writes i (s.openSockets.length + 1 + (i + 1))
          ∧ s.words[i]? = some (p.copied others.writes i).uaddr := by
      intro i hi
      rcases copied_cases h hpass hi with hsame | ⟨-, j, w, hw, hval⟩
      · exact hsame
      · -- what others write is no word of the thread
        exact absurd (hval ▸ (hmap i hi).1) (others.foreign j w hw)
    refine ⟨⟨hready.1, hroom, overlay_owner_iff.mp (fun i w hw => ?_)⟩,
      fun i hi => (hcopied i (by omega)).1⟩
    have hi := (List.getElem?_eq_some_iff.mp hw).1
    rw [length_words, ← hamount] at hi
    obtain rfl := Option.some.inj ((hcopied i hi).2.symm.trans hw)
    rw [← hnr]
    exact (hmap i hi).2
  · rintro ⟨⟨hlist, hroom, hnull⟩, hfree⟩
    obtain ⟨p, hpass⟩ := exists_waitPass h ⟨hlist, Nat.le_of_lt hroom⟩ hroom
      handle others.writes
    obtain ⟨-, -, hamount, -, hnr, -⟩ := waitPass_spec h hpass
    refine ⟨p, hpass, hamount, fun i hi => ?_⟩
    rcases copied_cases h hpass hi with ⟨-, hword⟩ | ⟨hover, -⟩
    · refine ⟨owns_of_mem_words (List.mem_of_getElem? hword), ?_⟩
      rw [hnr]
      exact overlay_owner_iff.mpr hnull i _ hword
    · exact absurd hover (hfree i (by omega))

/-- What the state of the list is after a pass was answered. -/
theorem answer_spec {p : WaitPass} {serve : UInt32 → UInt32}
    {retCode : Option ℕ} (hs : s.answer p others serve retCode = some t) :
    (∃ socketFutexes, t.toPassState
        = { s.toPassState with list := p.list, socketFutexes := socketFutexes })
      ∧ (retCode ≠ none → ∀ i, t.socketFromFutexNr i = .null) := by
  cases retCode with
  | none =>
    obtain rfl := Option.some.inj hs
    exact ⟨⟨_, rfl⟩, fun hne => absurd rfl hne⟩
  | some retCode =>
    rw [answer] at hs
    split at hs
    · dsimp only at hs
      split at hs
      · obtain rfl := Option.some.inj hs
        exact ⟨⟨_, rfl⟩, fun _ _ => rfl⟩
      · obtain rfl := Option.some.inj hs
        exact ⟨⟨_, rfl⟩, fun _ _ => rfl⟩
      · exact absurd hs (by simp)
    · exact absurd hs (by simp)

/-- **What a step does**: one to the list, which leaves the mapping alone, or
a pass that is answered. -/
theorem prioLoopStep_cases {e : PrioLoopEvent} (hs : PrioLoopStep s e t) :
    (∃ e', PassStep s.toPassState e' t.toPassState
        ∧ t.socketFromFutexNr = s.socketFromFutexNr)
      ∨ ∃ handle others retCode serve p, e = .pass handle others retCode serve
        ∧ s.waitPass handle others = .ok p
        ∧ s.answer p others serve retCode = some t := by
  unfold PrioLoopStep at hs
  cases e with
  | register newNode id =>
    rw [prioLoopStep] at hs
    obtain ⟨q, hq, rfl⟩ := Option.map_eq_some_iff.mp hs
    exact Or.inl ⟨_, hq, rfl⟩
  | close id =>
    rw [prioLoopStep] at hs
    obtain ⟨q, hq, rfl⟩ := Option.map_eq_some_iff.mp hs
    exact Or.inl ⟨_, hq, rfl⟩
  | pass handle others retCode serve =>
    rw [prioLoopStep] at hs
    split at hs
    · exact Or.inr ⟨handle, others, retCode, serve, _, rfl, ‹_›, hs⟩
    · exact absurd hs (by simp)

/-- **Every step keeps the invariant of the list.** -/
theorem passInv_step {e : PrioLoopEvent} (h : PassInv s.toPassState)
    (hs : PrioLoopStep s e t) : PassInv t.toPassState := by
  rcases prioLoopStep_cases hs with
    ⟨e', hstep, -⟩ | ⟨handle, others, retCode, serve, p, rfl, hpass, hanswer⟩
  · exact h.step hstep
  · obtain ⟨⟨socketFutexes, ht⟩, -⟩ := answer_spec hanswer
    obtain ⟨-, -, -, -, -, q, hq, hlist⟩ := waitPass_spec h hpass
    have hstep : PassStep s.toPassState (.pass handle) { s.toPassState with
        list := q.list, socketFutexes := q.socketFutexes } := by
      rw [PassStep, passStep, hq]
    obtain ⟨cells, hrep, hopen⟩ := h.step hstep
    rw [ht, hlist]
    exact ⟨cells, hrep, hopen⟩

theorem passInv_of_run {prio : PifusPriority} {iterRound : ℕ}
    {socketPtrs : PifusSocketIdentifier → Bool}
    {socketFutexes : PifusSocketIdentifier → UInt32} {waitvs : ℕ → FutexWaitv}
    {socketFromFutexNr : ℕ → SocketPtr} {es : List PrioLoopEvent}
    (h : Run PrioLoopStep (initial prio iterRound socketPtrs socketFutexes
      waitvs socketFromFutexNr) es s) : PassInv s.toPassState :=
  h.invariant (fun s => PassInv s.toPassState)
    ⟨[], LinkedList.represents_listInit iterRound, rfl⟩
    (fun _ _ _ hI hs => passInv_step hI hs)

/-- **As long as `futex_waitv` does not fail**, a mapping that was zero at the
start is so in front of every pass. -/
theorem null_of_answered {prio : PifusPriority} {iterRound : ℕ}
    {socketPtrs : PifusSocketIdentifier → Bool}
    {socketFutexes : PifusSocketIdentifier → UInt32} {waitvs : ℕ → FutexWaitv}
    {es : List PrioLoopEvent} (h : Run PrioLoopStep (initial prio iterRound
      socketPtrs socketFutexes waitvs (fun _ => .null)) es s)
    (hanswered : ∀ e ∈ es, e.Answered) (i : ℕ) :
    s.socketFromFutexNr i = .null := by
  refine (h.guarded_of_events hanswered).invariant
    (fun s => ∀ i, s.socketFromFutexNr i = .null) (fun _ => rfl) ?_ i
  rintro s e t hnull ⟨he, hs⟩
  rcases prioLoopStep_cases hs with
    ⟨e', -, hsame⟩ | ⟨handle, others, retCode, serve, p, rfl, -, hanswer⟩
  · rwa [hsame]
  · exact (answer_spec hanswer).2 he

/-- **When the next pass keeps to its arrays and can be answered**, from every
state that is reached and whatever the other prio threads write meanwhile: if
and only if the list is not empty, or its iterator was never moved from its
start; there are fewer open sockets than cells; the cell of the mapping behind
theirs is `NULL`; and no other prio thread overwrites an entry before
`futex_waitv` has copied it. -/
theorem waits_right_iff {prio : PifusPriority} {iterRound : ℕ}
    {socketPtrs : PifusSocketIdentifier → Bool}
    {socketFutexes : PifusSocketIdentifier → UInt32} {waitvs : ℕ → FutexWaitv}
    {socketFromFutexNr : ℕ → SocketPtr} {es : List PrioLoopEvent}
    (h : Run PrioLoopStep (initial prio iterRound socketPtrs socketFutexes
      waitvs socketFromFutexNr) es s)
    (handle : PifusSocketIdentifier → UInt32 → UInt32)
    (others : s.OtherThreads) :
    s.WaitsRight handle others ↔ s.WaitReady ∧ s.Undisturbed others :=
  waitsRight_iff (passInv_of_run h) handle others

/-- The prio thread of another priority writes the entry for its queue to the
first cell, in front of this access. -/
def otherQueueEntry (k : ℕ) : ℕ → List (ℕ × FutexWaitv) :=
  fun j => if j = k then [(0, ⟨.socketQueueFutex .low, 0⟩)] else []

/-- Two sockets, one of them closed. Another thread writes to the first cell in
front of the pass. -/
theorem waits_right_iff_two :
    ∃ (s : PrioLoopState) (others : s.OtherThreads),
      s.openSockets = [⟨0, 1⟩]
      ∧ others.writes 0 = [(0, ⟨.socketQueueFutex .low, 0⟩)]
      ∧ (s.WaitsRight (fun _ v => v) others
        ↔ s.WaitReady ∧ s.Undisturbed others) := by
  have hs : ([.register 8 ⟨0, 1⟩, .register 16 ⟨0, 2⟩,
      .pass (fun _ v => v) (otherQueueEntry 1) (some 2) id,
      .close ⟨0, 2⟩].foldlM prioLoopStep
      (initial .high 0 (fun _ => true) (fun _ => 0)
        (fun _ => ⟨.socketQueueFutex .low, 0⟩) (fun _ => .null))).any
      (fun s => s.openSockets = [⟨0, 1⟩] ∧ s.prio = .high) = true := by
    decide +kernel
  obtain ⟨s, hrun, hp⟩ := (Option.any_eq_true _ _).mp hs
  obtain ⟨hopen, hprio⟩ := of_decide_eq_true hp
  let others : s.OtherThreads := ⟨otherQueueEntry 0, fun k w hw => by
    unfold otherQueueEntry at hw
    split at hw
    · obtain rfl := List.mem_singleton.mp hw
      show ¬ PifusPriority.low = s.prio
      rw [hprio]
      decide
    · exact absurd hw (by simp)⟩
  exact ⟨s, others, hopen, rfl, waits_right_iff (Run.of_foldlM hrun) _ others⟩

/-- **128 open sockets of one priority**, 64 of each of two apps: the entry of
the new-socket queue is written behind the end of `waitvs`. -/
theorem waits_overrun :
    ∃ (es : List PrioLoopEvent) (s : PrioLoopState),
      Run PrioLoopStep (initial .high 0 (fun _ => true) (fun _ => 0)
        (fun _ => ⟨.socketQueueFutex .low, 0⟩) (fun _ => .null)) es s
      ∧ s.openSockets.length = 128 ∧ s.openSockets.Nodup
      ∧ (∀ id ∈ s.openSockets, id.InTables)
      ∧ ∀ others : s.OtherThreads,
        s.waitPass (fun _ v => v) others.writes = .error .waitvs
        ∧ ¬ s.WaitsRight (fun _ v => v) others := by
  have hs : (((List.range 128).map (fun n =>
      PrioLoopEvent.register (8 * (n + 1)) ⟨n / 64, n % 64 + 1⟩)).foldlM
      prioLoopStep (initial .high 0 (fun _ => true) (fun _ => 0)
        (fun _ => ⟨.socketQueueFutex .low, 0⟩) (fun _ => .null))).any
      (fun s => s.openSockets.length = 128 ∧ s.openSockets.Nodup
        ∧ (∀ id ∈ s.openSockets, id.InTables) ∧ s.list.size = 128) = true := by
    decide +kernel
  obtain ⟨s, hrun, hp⟩ := (Option.any_eq_true _ _).mp hs
  obtain ⟨hlen, hnodup, htables, hsize⟩ := of_decide_eq_true hp
  have hrun := Run.of_foldlM hrun
  refine ⟨_, s, hrun, hlen, hnodup, htables, fun others => ?_⟩
  have hover : s.waitPass (fun _ v => v) others.writes = .error .waitvs :=
    waitPass_overrun (passInv_of_run hrun) (fun hzero => by omega)
      (Nat.le_of_eq (show txMaxFutexesPerThread = _ from hlen.symm))
  refine ⟨hover, ?_⟩
  rintro ⟨p, hpass, -⟩
  exact absurd (hover.symm.trans hpass) (by simp)

/-- **Another thread overwrites the only entry**, that of the new-socket queue:
the thread waits for the queue of the other one. -/
theorem waits_for_queue_of_other :
    ∃ (s : PrioLoopState) (others : s.OtherThreads), s.WaitReady
      ∧ s.prio = .high
      ∧ (∃ p, s.waitPass (fun _ v => v) others.writes = .ok p
        ∧ (p.copied others.writes 0).uaddr = .socketQueueFutex .low)
      ∧ ¬ s.WaitsRight (fun _ v => v) others := by
  let s : PrioLoopState := initial .high 0 (fun _ => true) (fun _ => 0)
    (fun _ => ⟨.socketQueueFutex .high, 0⟩) (fun _ => .null)
  let others : s.OtherThreads := ⟨otherQueueEntry 1, fun k w hw => by
    unfold otherQueueEntry at hw
    split at hw
    · obtain rfl := List.mem_singleton.mp hw
      show ¬ PifusPriority.low = PifusPriority.high
      decide
    · exact absurd hw (by simp)⟩
  refine ⟨s, others, ⟨fun _ => rfl, by decide, rfl⟩, rfl, ⟨_, rfl, rfl⟩,
    fun hright => ?_⟩
  have hfree := ((waitsRight_iff (passInv_of_run Run.nil) _ _).mp hright).2
  exact hfree 0 (Nat.zero_le _) ⟨1, by decide, by decide, _,
    List.mem_singleton_self _, rfl⟩

end PrioLoopState
