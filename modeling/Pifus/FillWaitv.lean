import Pifus.LinkedList
import Pifus.NewSockets

/-!
# The pass of a prio thread over its sockets

`fill_prio_waitv` walks through the list of a prio thread, serves every socket
whose slot in `socket_ptrs` is not `NULL`, and writes an entry of `waitvs` for
it. Where it came across a slot that is `NULL`, it walks through the list
again, up to the first of these, and removes it.

The elements of the list are pointers to slots; a slot is given by the
identifier of its socket. A socket is registered by `ListPushFront` when its
slot is filled, and the slot is `NULL` from the close on, as discovery hands
out no slot twice (`Pifus.NewSockets`). Registrations, closes and passes follow
one another here.

A pass that reads or writes a node that is not in the list, or an entry behind
the end of `waitvs`, has no result but a fault.
-/

/-- A word that a prio thread waits on. -/
inductive FutexWord
  | squeueFutex (id : PifusSocketIdentifier)
  | socketQueueFutex (prio : PifusPriority)
  deriving DecidableEq

/-- `struct futex_waitv`. Of every entry, `flags` is `FUTEX_32` and
`__reserved` is zero. -/
structure FutexWaitv where
  uaddr : FutexWord
  val : UInt32
  deriving DecidableEq

/-- What can go wrong in a pass. -/
inductive PassFault
  /-- A node is accessed that is not in the list. -/
  | node
  /-- An entry behind the end of `waitvs` is written. -/
  | waitvs
  /-- A loop has not ended. -/
  | running
  deriving DecidableEq

/-- The variables of a pass. -/
structure PrioPass where
  list : LinkedList PifusSocketIdentifier
  socketFutexes : PifusSocketIdentifier → UInt32
  /-- The entries of `waitvs` that the pass has written. -/
  waitvs : List FutexWaitv
  removableSocketInsideList : Bool

namespace PrioPass

/-- The first loop of `fill_prio_waitv`. `handle` is what
`handle_squeue_change` makes of the shadow of a socket. -/
def fillWaitvs (socketPtrs : PifusSocketIdentifier → Bool)
    (handle : PifusSocketIdentifier → UInt32 → UInt32) :
    ℕ → PrioPass → Except PassFault PrioPass
  | 0, _ => .error .running
  | fuel + 1, p =>
    match p.list.listNext with
    | none => .error .node
    | some (none, list) => .ok { p with list := list }
    | some (some id, list) =>
      if socketPtrs id then
        let shadow := handle id (p.socketFutexes id)
        if p.waitvs.length < txMaxFutexesPerThread then
          fillWaitvs socketPtrs handle fuel { p with
            list := list
            socketFutexes := Function.update p.socketFutexes id shadow
            waitvs := p.waitvs ++ [⟨.squeueFutex id, shadow⟩] }
        else .error .waitvs
      else
        fillWaitvs socketPtrs handle fuel
          { p with list := list, removableSocketInsideList := true }

/-- The second loop of `fill_prio_waitv`, with its `current_index`, a
`uint16_t`. -/
def removeClosed (socketPtrs : PifusSocketIdentifier → Bool) :
    ℕ → LinkedList PifusSocketIdentifier → ℕ →
    Except PassFault (LinkedList PifusSocketIdentifier)
  | 0, _, _ => .error .running
  | fuel + 1, list, currentIndex =>
    match list.listNext with
    | none => .error .node
    | some (none, list) => .ok list
    | some (some id, list) =>
      if socketPtrs id then
        removeClosed socketPtrs fuel list ((currentIndex + 1) % 2 ^ 16)
      else
        match list.listRemove currentIndex with
        | none => .error .node
        | some r => .ok r.2

/-- `fill_prio_waitv`. Its loops have as many rounds as the list has cells. -/
def fillPrioWaitv (socketPtrs : PifusSocketIdentifier → Bool)
    (handle : PifusSocketIdentifier → UInt32 → UInt32)
    (list : LinkedList PifusSocketIdentifier)
    (socketFutexes : PifusSocketIdentifier → UInt32) :
    Except PassFault PrioPass :=
  match list.listFirst false with
  | none => .error .node
  | some list => do
    let p ← fillWaitvs socketPtrs handle (list.size + 1)
      ⟨list, socketFutexes, [], false⟩
    if p.removableSocketInsideList then
      match p.list.listFirst false with
      | none => .error .node
      | some list =>
        let list ← removeClosed socketPtrs (list.size + 1) list 0
        .ok { p with list := list, removableSocketInsideList := false }
    else .ok p

end PrioPass

/-! ## The loops on the cells -/

namespace PrioPass

open LinkedList

variable {socketPtrs : PifusSocketIdentifier → Bool}
  {handle : PifusSocketIdentifier → UInt32 → UInt32}
  {cells : List (ℕ × PifusSocketIdentifier)} {fuel idx : ℕ} {p : PrioPass}
  {list : LinkedList PifusSocketIdentifier}

/-- The open sockets of some cells. -/
def openOf (socketPtrs : PifusSocketIdentifier → Bool)
    (cells : List (ℕ × PifusSocketIdentifier)) : List PifusSocketIdentifier :=
  (cells.map Prod.snd).filter socketPtrs

/-- **The first loop** serves every open socket from the iterator on, in the
order of the list, if `waitvs` has an entry for each. -/
theorem fillWaitvs_spec (h : Represents p.list cells) (hat : At p.list cells idx)
    (hle : idx ≤ cells.length) (hfuel : cells.length < fuel + idx)
    (hroom : p.waitvs.length + (openOf socketPtrs (cells.drop idx)).length
      ≤ txMaxFutexesPerThread) :
    ∃ q, fillWaitvs socketPtrs handle fuel p = .ok q ∧ Represents q.list cells
      ∧ q.waitvs.map FutexWaitv.uaddr = p.waitvs.map FutexWaitv.uaddr
        ++ (openOf socketPtrs (cells.drop idx)).map FutexWord.squeueFutex
      ∧ (q.removableSocketInsideList = true ↔ p.removableSocketInsideList = true
        ∨ ∃ c ∈ cells.drop idx, socketPtrs c.2 = false) := by
  induction fuel generalizing p idx with
  | zero => omega
  | succ fuel ih =>
    cases hc : cells[idx]? with
    | none =>
      have hdrop : cells.drop idx = [] :=
        List.drop_eq_nil_of_le (List.getElem?_eq_none_iff.mp hc)
      rw [hdrop, fillWaitvs, h.listNext_end hat hc hle]
      exact ⟨p, rfl, h, (List.append_nil _).symm, by simp⟩
    | some c =>
      obtain ⟨list, hnext, hlist, hat'⟩ := h.listNext hat hc
      obtain ⟨hidx, hget⟩ := List.getElem?_eq_some_iff.mp hc
      have hdrop : cells.drop idx = c :: cells.drop (idx + 1) := by
        rw [List.drop_eq_getElem_cons hidx, hget]
      rw [hdrop] at hroom ⊢
      rw [fillWaitvs, hnext]
      dsimp only
      by_cases hopen : socketPtrs c.2 = true
      · have hcons : openOf socketPtrs (c :: cells.drop (idx + 1))
            = c.2 :: openOf socketPtrs (cells.drop (idx + 1)) := by
          rw [openOf, List.map_cons, List.filter_cons_of_pos hopen, openOf]
        rw [hcons, List.length_cons] at hroom
        rw [if_pos hopen, if_pos (by omega), hcons]
        obtain ⟨q, hq, hrep, hentries, hremovable⟩ := @ih (idx + 1)
          { p with
            list := list
            socketFutexes := Function.update p.socketFutexes c.2
              (handle c.2 (p.socketFutexes c.2))
            waitvs := p.waitvs ++ [⟨.squeueFutex c.2,
              handle c.2 (p.socketFutexes c.2)⟩] }
          hlist hat' hidx (by omega)
          (by rw [List.length_append, List.length_singleton]; omega)
        refine ⟨q, hq, hrep, ?_, ?_⟩
        · rw [hentries, List.map_append, List.append_assoc]
          rfl
        · rw [hremovable]
          simp [hopen]
      · have hcons : openOf socketPtrs (c :: cells.drop (idx + 1))
            = openOf socketPtrs (cells.drop (idx + 1)) := by
          rw [openOf, List.map_cons, List.filter_cons_of_neg hopen, openOf]
        rw [if_neg hopen, hcons]
        rw [hcons] at hroom
        obtain ⟨q, hq, hrep, hentries, hremovable⟩ := @ih (idx + 1)
          { p with list := list, removableSocketInsideList := true }
          hlist hat' hidx (by omega) hroom
        refine ⟨q, hq, hrep, hentries, ?_⟩
        rw [hremovable]
        simp [Bool.eq_false_iff.mpr hopen]

/-- Without an entry for each, the first loop writes behind the end. -/
theorem fillWaitvs_overrun (h : Represents p.list cells)
    (hat : At p.list cells idx) (hle : idx ≤ cells.length)
    (hfuel : cells.length < fuel + idx)
    (hroom : txMaxFutexesPerThread
      < p.waitvs.length + (openOf socketPtrs (cells.drop idx)).length)
    (hwaitvs : p.waitvs.length ≤ txMaxFutexesPerThread) :
    fillWaitvs socketPtrs handle fuel p = .error .waitvs := by
  induction fuel generalizing p idx with
  | zero => omega
  | succ fuel ih =>
    cases hc : cells[idx]? with
    | none =>
      have hdrop : cells.drop idx = [] :=
        List.drop_eq_nil_of_le (List.getElem?_eq_none_iff.mp hc)
      rw [hdrop] at hroom
      exact absurd hroom (Nat.not_lt.mpr hwaitvs)
    | some c =>
      obtain ⟨list, hnext, hlist, hat'⟩ := h.listNext hat hc
      obtain ⟨hidx, hget⟩ := List.getElem?_eq_some_iff.mp hc
      have hdrop : cells.drop idx = c :: cells.drop (idx + 1) := by
        rw [List.drop_eq_getElem_cons hidx, hget]
      rw [hdrop] at hroom
      rw [fillWaitvs, hnext]
      dsimp only
      by_cases hopen : socketPtrs c.2 = true
      · rw [openOf, List.map_cons, List.filter_cons_of_pos hopen, ← openOf,
          List.length_cons] at hroom
        rw [if_pos hopen]
        split
        · exact ih hlist hat' hidx (by omega)
            (by rw [List.length_append, List.length_singleton]; omega)
            (by rw [List.length_append, List.length_singleton]; omega)
        · rfl
      · rw [openOf, List.map_cons, List.filter_cons_of_neg hopen, ← openOf]
          at hroom
        rw [if_neg hopen]
        exact ih hlist hat' hidx (by omega) hroom hwaitvs

/-- **The second loop** removes the first cell whose slot is `NULL`. -/
theorem removeClosed_spec {l r : List (ℕ × PifusSocketIdentifier)}
    {c : ℕ × PifusSocketIdentifier} (h : Represents list (l ++ c :: r))
    (hat : At list (l ++ c :: r) idx) (hle : idx ≤ l.length)
    (hfuel : l.length < fuel + idx) (hopen : ∀ d ∈ l, socketPtrs d.2 = true)
    (hclosed : socketPtrs c.2 = false) (hlt : l.length < 2 ^ 16) :
    ∃ list', removeClosed socketPtrs fuel list idx = .ok list'
      ∧ Represents list' (l ++ r) := by
  induction fuel generalizing list idx with
  | zero => omega
  | succ fuel ih =>
    rw [removeClosed]
    rcases Nat.eq_or_lt_of_le hle with rfl | hidx
    · have hc : (l ++ c :: r)[l.length]? = some c := by simp
      obtain ⟨list', hnext, hlist, -⟩ := h.listNext hat hc
      obtain ⟨list'', hremove, hremoved, -⟩ := hlist.listRemove
      rw [hnext]
      dsimp only
      rw [if_neg (by simp [hclosed]), hremove]
      exact ⟨list'', rfl, hremoved⟩
    · have hc : (l ++ c :: r)[idx]? = some l[idx] := by
        rw [List.getElem?_append_left hidx, List.getElem?_eq_getElem hidx]
      obtain ⟨list', hnext, hlist, hat'⟩ := h.listNext hat hc
      rw [hnext]
      dsimp only
      rw [if_pos (hopen _ (List.getElem_mem hidx)), Nat.mod_eq_of_lt (by omega)]
      exact ih hlist hat' hidx (by omega)

/-! ## The pass on the cells -/

/-- The cells before and after a pass: at most one has been removed, and its
slot is `NULL`. -/
def RemovesOnlyClosed (socketPtrs : PifusSocketIdentifier → Bool)
    (cells cells' : List (ℕ × PifusSocketIdentifier)) : Prop :=
  cells' = cells ∨ ∃ l c r, cells = l ++ c :: r ∧ cells' = l ++ r
    ∧ socketPtrs c.2 = false

theorem RemovesOnlyClosed.openOf_eq
    {cells' : List (ℕ × PifusSocketIdentifier)}
    (h : RemovesOnlyClosed socketPtrs cells cells') :
    openOf socketPtrs cells' = openOf socketPtrs cells := by
  rcases h with rfl | ⟨l, c, r, rfl, rfl, hclosed⟩
  · rfl
  · unfold openOf
    rw [List.map_append, List.map_append, List.filter_append,
      List.filter_append, List.map_cons,
      List.filter_cons_of_neg (by simp [hclosed])]

theorem exists_first_closed (h : ∃ c ∈ cells, socketPtrs c.2 = false) :
    ∃ l c r, cells = l ++ c :: r ∧ (∀ d ∈ l, socketPtrs d.2 = true)
      ∧ socketPtrs c.2 = false := by
  obtain ⟨d, hd, hclosed⟩ := h
  obtain ⟨c, hc⟩ : ∃ c, cells.find? (fun c => !socketPtrs c.2) = some c := by
    rw [← Option.isSome_iff_exists, List.find?_isSome]
    exact ⟨d, hd, by simp [hclosed]⟩
  obtain ⟨hc, l, r, hsplit, hl⟩ := List.find?_eq_some_iff_append.mp hc
  exact ⟨l, c, r, hsplit, by simpa using hl, by simpa using hc⟩

/-- `ListFirst` at the start of a loop. -/
theorem listFirst_at (h : Represents list cells)
    (hreset : cells = [] → list.iterRound = 0) :
    ∃ list', list.listFirst false = some list' ∧ Represents list' cells
      ∧ At list' cells 0 := by
  by_cases hne : cells = []
  · subst hne
    exact ⟨list, h.listFirst_nil false, h, hreset rfl,
      fun c hc => absurd hc (by simp)⟩
  · exact h.listFirst hne

/-- **A pass** over a list whose iterator is set, or can be. -/
theorem fillPrioWaitv_spec
    {socketFutexes : PifusSocketIdentifier → UInt32} (h : Represents list cells)
    (hreset : cells = [] → list.iterRound = 0)
    (hroom : (openOf socketPtrs cells).length ≤ txMaxFutexesPerThread) :
    ∃ q cells', fillPrioWaitv socketPtrs handle list socketFutexes = .ok q
      ∧ Represents q.list cells' ∧ RemovesOnlyClosed socketPtrs cells cells'
      ∧ q.waitvs.map FutexWaitv.uaddr
        = (openOf socketPtrs cells).map FutexWord.squeueFutex := by
  obtain ⟨list₁, hfirst, h₁, hat₁⟩ := listFirst_at h hreset
  have hroom₁ : 0 + (openOf socketPtrs (cells.drop 0)).length
      ≤ txMaxFutexesPerThread := by
    rw [List.drop_zero, Nat.zero_add]
    exact hroom
  have hfuel₁ : cells.length < list₁.size + 1 + 0 := by
    rw [h₁.size]
    exact Nat.lt_succ_self _
  obtain ⟨q, hq, hrep, hentries, hremovable⟩ := @fillWaitvs_spec socketPtrs
    handle cells (list₁.size + 1) 0 ⟨list₁, socketFutexes, [], false⟩ h₁ hat₁
    (Nat.zero_le _) hfuel₁ hroom₁
  rw [List.drop_zero] at hentries hremovable
  unfold fillPrioWaitv
  rw [hfirst]
  dsimp only
  rw [hq]
  dsimp only [bind, Except.bind]
  by_cases hclosed : q.removableSocketInsideList = true
  · have hsome : ∃ c ∈ cells, socketPtrs c.2 = false := by
      simpa using hremovable.mp hclosed
    obtain ⟨l, c, r, rfl, hopen, hnull⟩ := exists_first_closed hsome
    obtain ⟨list₂, hfirst₂, h₂, hat₂⟩ := hrep.listFirst (by simp)
    have hall : ∀ id ∈ l.map Prod.snd, socketPtrs id = true := fun id hid => by
      obtain ⟨d, hd, rfl⟩ := List.mem_map.mp hid
      exact hopen d hd
    have hlen : l.length ≤ (openOf socketPtrs (l ++ c :: r)).length := by
      rw [openOf, List.map_append, List.filter_append, List.length_append,
        List.filter_eq_self.mpr hall, List.length_map]
      exact Nat.le_add_right _ _
    have hlt : l.length < 2 ^ 16 :=
      Nat.lt_of_le_of_lt (Nat.le_trans hlen hroom) (by decide)
    have hfuel₂ : l.length < list₂.size + 1 + 0 := by
      rw [h₂.size, List.length_append]
      omega
    obtain ⟨list₃, hremove, h₃⟩ :=
      removeClosed_spec h₂ hat₂ (Nat.zero_le _) hfuel₂ hopen hnull hlt
    rw [if_pos hclosed, hfirst₂]
    dsimp only
    rw [hremove]
    exact ⟨_, l ++ r, rfl, h₃, Or.inr ⟨l, c, r, rfl, rfl, hnull⟩, hentries⟩
  · rw [if_neg hclosed]
    exact ⟨q, cells, rfl, hrep, Or.inl rfl, hentries⟩

/-- **A pass over an empty list whose iterator is not at its start**: nothing
sets it, and the node it is at is not there. -/
theorem fillPrioWaitv_stale {socketFutexes : PifusSocketIdentifier → UInt32}
    (h : Represents list []) (hstale : list.iterRound ≠ 0) :
    fillPrioWaitv socketPtrs handle list socketFutexes = .error .node := by
  unfold fillPrioWaitv
  rw [h.listFirst_nil]
  dsimp only
  rw [fillWaitvs, h.listNext_stale hstale]
  rfl

/-- **A pass over more open sockets than `waitvs` has entries.** -/
theorem fillPrioWaitv_overrun {socketFutexes : PifusSocketIdentifier → UInt32}
    (h : Represents list cells) (hne : cells ≠ [])
    (hroom : txMaxFutexesPerThread < (openOf socketPtrs cells).length) :
    fillPrioWaitv socketPtrs handle list socketFutexes = .error .waitvs := by
  obtain ⟨list₁, hfirst, h₁, hat₁⟩ := h.listFirst hne
  have hroom₁ : txMaxFutexesPerThread
      < 0 + (openOf socketPtrs (cells.drop 0)).length := by
    rw [List.drop_zero, Nat.zero_add]
    exact hroom
  have hfuel₁ : cells.length < list₁.size + 1 + 0 := by
    rw [h₁.size]
    exact Nat.lt_succ_self _
  have hfill := @fillWaitvs_overrun socketPtrs handle cells (list₁.size + 1) 0
    ⟨list₁, socketFutexes, [], false⟩ h₁ hat₁ (Nat.zero_le _) hfuel₁ hroom₁
    (Nat.zero_le _)
  unfold fillPrioWaitv
  rw [hfirst]
  dsimp only
  rw [hfill]
  rfl

end PrioPass

/-! ## Runs -/

/-- The list of a prio thread, and the history of what was registered. -/
structure PassState where
  list : LinkedList PifusSocketIdentifier
  /-- The slots of `socket_ptrs` that are not `NULL`. -/
  socketPtrs : PifusSocketIdentifier → Bool
  socketFutexes : PifusSocketIdentifier → UInt32
  /-- The sockets that were registered, the last one first. -/
  registered : List PifusSocketIdentifier

/-- What can happen next. -/
inductive PassEvent
  /-- `ListPushFront` of a slot, `malloc` returning this node. -/
  | register (newNode : ℕ) (id : PifusSocketIdentifier)
  /-- The stack closes a socket. -/
  | close (id : PifusSocketIdentifier)
  /-- `fill_prio_waitv`. -/
  | pass (handle : PifusSocketIdentifier → UInt32 → UInt32)

/-- **A step of a prio thread or of the stack.** -/
def passStep (s : PassState) : PassEvent → Option PassState
  | .register newNode id =>
    if s.list.nodes newNode = none then
      (s.list.listPushFront newNode id).map (fun list =>
        { s with list := list, registered := id :: s.registered })
    else none
  | .close id => some { s with
      socketPtrs := Function.update s.socketPtrs id false }
  | .pass handle =>
    match PrioPass.fillPrioWaitv s.socketPtrs handle s.list s.socketFutexes with
    | .ok p => some { s with list := p.list, socketFutexes := p.socketFutexes }
    | .error _ => none

/-- The steps as a relation. -/
def PassStep (s : PassState) (e : PassEvent) (t : PassState) : Prop :=
  passStep s e = some t

namespace PassState

open LinkedList PrioPass

/-- A list that was just made, with the slots as they are or will be filled. -/
def initial (iterRound : ℕ) (socketPtrs : PifusSocketIdentifier → Bool)
    (socketFutexes : PifusSocketIdentifier → UInt32) : PassState :=
  ⟨listInit iterRound, socketPtrs, socketFutexes, []⟩

/-- The registered sockets that are open. -/
def openSockets (s : PassState) : List PifusSocketIdentifier :=
  s.registered.filter s.socketPtrs

/-- **The next pass does what it is for**: it returns, so it has accessed no
node that is not in the list; it has written one entry for each registered
socket that is open; and it has removed no cell whose slot is not `NULL`. -/
def PassRight (s : PassState)
    (handle : PifusSocketIdentifier → UInt32 → UInt32) : Prop :=
  ∃ p cells cells',
    fillPrioWaitv s.socketPtrs handle s.list s.socketFutexes = .ok p
    ∧ Represents s.list cells ∧ Represents p.list cells'
    ∧ RemovesOnlyClosed s.socketPtrs cells cells'
    ∧ p.waitvs.map FutexWaitv.uaddr
      = s.openSockets.map FutexWord.squeueFutex

/-- **The invariant**: the cells of the list are the registered sockets, less
some closed ones. -/
def PassInv (s : PassState) : Prop :=
  ∃ cells, Represents s.list cells ∧ openOf s.socketPtrs cells = s.openSockets

variable {s t : PassState}

/-- **The state a pass needs**: the list is not empty, or its iterator is at its
start; and `waitvs` has an entry for every open socket. -/
def PassReady (s : PassState) : Prop :=
  (s.list.size = 0 → s.list.iterRound = 0)
    ∧ s.openSockets.length ≤ txMaxFutexesPerThread

/-- A pass from a state that is ready. -/
theorem pass_of_ready {cells : List (ℕ × PifusSocketIdentifier)}
    (hrep : Represents s.list cells)
    (hopen : openOf s.socketPtrs cells = s.openSockets) (hready : s.PassReady)
    (handle : PifusSocketIdentifier → UInt32 → UInt32) :
    ∃ p cells',
      fillPrioWaitv s.socketPtrs handle s.list s.socketFutexes = .ok p
      ∧ Represents p.list cells' ∧ RemovesOnlyClosed s.socketPtrs cells cells'
      ∧ p.waitvs.map FutexWaitv.uaddr
        = s.openSockets.map FutexWord.squeueFutex := by
  have hreset : cells = [] → s.list.iterRound = 0 := fun hnil =>
    hready.1 (by rw [hrep.size, hnil, List.length_nil])
  have hroom : (openOf s.socketPtrs cells).length ≤ txMaxFutexesPerThread := by
    rw [hopen]
    exact hready.2
  rw [← hopen]
  exact fillPrioWaitv_spec hrep hreset hroom

/-- A pass from a state that is not ready ends with a fault. -/
theorem PassInv.fault (h : PassInv s) (hready : ¬ s.PassReady)
    (handle : PifusSocketIdentifier → UInt32 → UInt32) :
    ∃ f, fillPrioWaitv s.socketPtrs handle s.list s.socketFutexes
      = .error f := by
  obtain ⟨cells, hrep, hopen⟩ := h
  by_cases hreset : s.list.size = 0 → s.list.iterRound = 0
  · have hroom : txMaxFutexesPerThread < (openOf s.socketPtrs cells).length := by
      rw [hopen]
      exact Nat.lt_of_not_le (fun hle => hready ⟨hreset, hle⟩)
    refine ⟨.waitvs, fillPrioWaitv_overrun hrep ?_ hroom⟩
    rintro rfl
    exact absurd hroom (Nat.not_lt_zero _)
  · rw [Classical.not_imp, hrep.size, List.length_eq_zero_iff] at hreset
    obtain ⟨rfl, hstale⟩ := hreset
    exact ⟨.node, fillPrioWaitv_stale hrep hstale⟩

/-- **Every step keeps the invariant.** -/
theorem PassInv.step {e : PassEvent} (h : PassInv s) (hs : PassStep s e t) :
    PassInv t := by
  have hinv := h
  obtain ⟨cells, hrep, hopen⟩ := h
  unfold PassStep at hs
  cases e with
  | register newNode id =>
    rw [passStep] at hs
    split at hs
    · rename_i hnew
      obtain ⟨list, hpush, hrep', -⟩ :=
        @Represents.listPushFront _ _ _ id _ hrep hnew
      rw [hpush] at hs
      obtain rfl := Option.some.inj hs
      refine ⟨_, hrep', ?_⟩
      show (id :: cells.map Prod.snd).filter s.socketPtrs
        = (id :: s.registered).filter s.socketPtrs
      rw [List.filter_cons, List.filter_cons, ← openSockets, ← hopen, openOf]
    · exact absurd hs (by simp)
  | close id =>
    obtain rfl := Option.some.inj hs
    refine ⟨cells, hrep, ?_⟩
    have hclose : ∀ l : List PifusSocketIdentifier,
        l.filter (Function.update s.socketPtrs id false)
          = (l.filter s.socketPtrs).filter (fun i => i ≠ id) := fun l => by
      rw [List.filter_filter]
      congr 1
      funext i
      by_cases hi : i = id <;> simp [hi]
    rw [openOf, openSockets, hclose, hclose, ← openOf, ← openSockets, hopen]
  | pass handle =>
    rw [passStep] at hs
    split at hs
    · rename_i p hpass
      obtain rfl := Option.some.inj hs
      by_cases hready : s.PassReady
      · obtain ⟨q, cells', hq, hrep', hremoves, -⟩ :=
          pass_of_ready hrep hopen hready handle
        obtain rfl := Except.ok.inj (hpass.symm.trans hq)
        exact ⟨cells', hrep', hremoves.openOf_eq.trans hopen⟩
      · obtain ⟨f, hf⟩ := hinv.fault hready handle
        exact absurd (hpass.symm.trans hf) (by simp)
    · exact absurd hs (by simp)

/-- **When a pass does what it is for**: if and only if the list is not empty,
or its iterator was never moved from its start; and `waitvs` has an entry for
every open socket. -/
theorem pass_right_iff {iterRound : ℕ}
    {socketPtrs : PifusSocketIdentifier → Bool}
    {socketFutexes : PifusSocketIdentifier → UInt32} {es : List PassEvent}
    (h : Run PassStep (initial iterRound socketPtrs socketFutexes) es s)
    (handle : PifusSocketIdentifier → UInt32 → UInt32) :
    s.PassRight handle ↔ s.PassReady := by
  have hinv : PassInv s := h.invariant PassInv
    ⟨[], represents_listInit iterRound, rfl⟩ (fun _ _ _ hI hs => hI.step hs)
  constructor
  · rintro ⟨p, -, -, hpass, -⟩
    by_contra hready
    obtain ⟨f, hf⟩ := hinv.fault hready handle
    exact absurd (hpass.symm.trans hf) (by simp)
  · intro hready
    obtain ⟨cells, hrep, hopen⟩ := hinv
    obtain ⟨p, cells', hpass, hrep', hremoves, hentries⟩ :=
      pass_of_ready hrep hopen hready handle
    exact ⟨p, cells, cells', hpass, hrep, hrep', hremoves, hentries⟩

/-- Two sockets, one of them closed. -/
theorem pass_right_iff_two :
    ∃ s : PassState, s.openSockets = [⟨0, 1⟩]
      ∧ (s.PassRight (fun _ v => v) ↔ s.PassReady) := by
  have hs : ([.register 8 ⟨0, 1⟩, .register 16 ⟨0, 2⟩, .pass (fun _ v => v),
      .close ⟨0, 2⟩].foldlM passStep
      (initial 0 (fun _ => true) (fun _ => 0))).map (fun s => s.openSockets)
      = some [⟨0, 1⟩] := by decide +kernel
  obtain ⟨s, hrun, hopen⟩ := Option.map_eq_some_iff.mp hs
  exact ⟨s, hopen, pass_right_iff (Run.of_foldlM hrun) _⟩

/-- **A list that has become empty**: the pass after the one that removes the
last node reads this node, which is freed. -/
theorem pass_reads_freed_node :
    ∃ (es : List PassEvent) (s : PassState),
      Run PassStep (initial 0 (fun _ => true) (fun _ => 0)) es s
      ∧ s.list.size = 0 ∧ s.list.iterNode = some 8 ∧ s.list.nodes 8 = none
      ∧ fillPrioWaitv s.socketPtrs (fun _ v => v) s.list s.socketFutexes
        = .error .node
      ∧ ¬ s.PassRight (fun _ v => v) := by
  have hs : ([.register 8 ⟨0, 1⟩, .close ⟨0, 1⟩, .pass (fun _ v => v)].foldlM
      passStep (initial 0 (fun _ => true) (fun _ => 0))).any (fun s =>
        s.list.size = 0 ∧ s.list.iterNode = some 8 ∧ s.list.nodes 8 = none
        ∧ s.list.head = none ∧ s.list.iterRound = 1) = true := by decide +kernel
  obtain ⟨s, hrun, hp⟩ := (Option.any_eq_true _ _).mp hs
  obtain ⟨hsize, hiter, hfreed, hhead, hround⟩ := of_decide_eq_true hp
  have hfault : fillPrioWaitv s.socketPtrs (fun _ v => v) s.list s.socketFutexes
      = .error .node := by
    have hfirst : s.list.listFirst false = some s.list := by
      rw [LinkedList.listFirst, hhead]
    have hnext : s.list.listNext = none := by
      rw [LinkedList.listNext, hround, hsize, if_neg (by decide), hiter,
        Option.bind_eq_bind, Option.bind_some, hfreed]
      rfl
    unfold fillPrioWaitv
    rw [hfirst]
    dsimp only
    rw [fillWaitvs, hnext]
    rfl
  refine ⟨_, s, Run.of_foldlM hrun, hsize, hiter, hfreed, hfault, ?_⟩
  rintro ⟨p, -, -, hpass, -⟩
  exact absurd (hpass.symm.trans hfault) (by simp)

end PassState
