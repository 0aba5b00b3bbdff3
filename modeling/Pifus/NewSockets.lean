import Pifus.Constants
import Pifus.Discovery
import Pifus.RingBuffer
import Mathlib.Data.List.Nodup

/-!
# Handing new sockets over

`map_new_sockets` of the discovery thread maps one socket after the other and
puts the identifier of each into the new-socket queue of its priority. The
prio thread of that priority drains the queue into its list, where
`fill_prio_waitv` finds the socket from then on, and takes it out of the list
when the stack has closed it.

The three prio threads run on their own. Between two iterations of
`map_new_sockets` they may have drained their queues or not, while the
discovery thread neither waits for them nor looks at what
`pifus_socket_identifier_queue_put` returns.

A step is what one party does to a queue. The priority `map_new_sockets` finds
in a region is the one the app has created the socket with, or still zero;
`Pifus.Discovery` is about when it is which. The tables of the stack are taken
to be large enough for every socket.
-/

/-- `struct pifus_socket_identifier`. -/
structure PifusSocketIdentifier where
  appIndex : ℕ
  socketIndex : ℕ
  deriving DecidableEq, Repr

/-- Where the discovery thread stands. `i` is `socket_index` and `last` is
`app_highest_index`. -/
inductive MapPc
  /-- Outside of `map_new_sockets`. -/
  | outside
  /-- In front of an iteration. -/
  | mapping (app i last : ℕ)
  deriving DecidableEq

/-- The socket of the iteration. -/
def MapPc.current : MapPc → Option PifusSocketIdentifier
  | .outside => none
  | .mapping app i _ => some ⟨app, i⟩

/-- The apps, the discovery thread and the prio threads, and what became of
each socket. -/
structure HandoverState where
  /-- `highest_socket_number` of each app. -/
  highest : ℕ → ℕ
  /-- The sockets whose region has a name. -/
  linked : PifusSocketIdentifier → Bool
  /-- `app_local_highest_socket_number`. -/
  localHighest : ℕ → ℕ
  pc : MapPc
  /-- `socket_queue` of each priority. -/
  queue : PifusPriority → RingBuffer PifusSocketIdentifier
  /-- `socket_queue_futex` of each priority. -/
  queueFutex : PifusPriority → UInt32
  /-- The slots of `socket_ptrs` that are not `NULL`. -/
  socketPtrs : PifusSocketIdentifier → Bool
  /-- The list of each prio thread, front first. -/
  list : PifusPriority → List PifusSocketIdentifier
  /-- The sockets that discovery has mapped, oldest first. -/
  mapped : List PifusSocketIdentifier
  /-- The sockets that each prio thread has taken out of its list. -/
  removed : PifusPriority → List PifusSocketIdentifier

/-- What can happen next. -/
inductive HandoverEvent
  /-- An app creates a socket. -/
  | create (app : ℕ)
  /-- An app unlinks the region of a socket. -/
  | unlink (id : PifusSocketIdentifier)
  /-- The discovery thread calls `map_new_sockets`. -/
  | scan (app : ℕ)
  /-- An iteration of `map_new_sockets`, which finds this priority. -/
  | map (found : PifusPriority)
  /-- A prio thread takes an identifier from its queue. -/
  | drain (prio : PifusPriority)
  /-- The stack closes a socket. -/
  | close (id : PifusSocketIdentifier)
  /-- A prio thread takes a closed socket out of its list. -/
  | remove (prio : PifusPriority)
  deriving DecidableEq

namespace HandoverState

/-- The head of the loop in `map_new_sockets`. -/
def loopHead (app i last : ℕ) : MapPc :=
  if i ≤ last then .mapping app i last else .outside

/-- `map_socket_region` and the publication. -/
def create (s : HandoverState) (app : ℕ) : HandoverState :=
  { s with
    linked := Function.update s.linked ⟨app, s.highest app + 1⟩ true
    highest := Function.update s.highest app (s.highest app + 1) }

/-- An iteration of `map_new_sockets` that can open the region. -/
def map (s : HandoverState) (id : PifusSocketIdentifier)
    (found : PifusPriority) : HandoverState :=
  let ring := s.queue found
  { s with
    socketPtrs := Function.update s.socketPtrs id true
    localHighest := Function.update s.localHighest id.appIndex id.socketIndex
    queue := Function.update s.queue found ((ring.put id).getD ring)
    queueFutex := Function.update s.queueFutex found (s.queueFutex found + 1)
    mapped := s.mapped ++ [id] }

/-- `pifus_socket_identifier_queue_get` and `ListPushFront`. -/
def drain (s : HandoverState) (prio : PifusPriority) : Option HandoverState :=
  match (s.queue prio).get with
  | some (id, ring) => some { s with
      queue := Function.update s.queue prio ring
      list := Function.update s.list prio (id :: s.list prio) }
  | none => none

/-- The second loop of `fill_prio_waitv`: it removes the first socket whose
slot is `NULL`. -/
def remove (s : HandoverState) (prio : PifusPriority) : Option HandoverState :=
  match (s.list prio).find? (fun id => !s.socketPtrs id) with
  | some id => some { s with
      list := Function.update s.list prio ((s.list prio).erase id)
      removed := Function.update s.removed prio (s.removed prio ++ [id]) }
  | none => none

end HandoverState

/-- **A step of an app, of the discovery thread, of a prio thread or of the
stack**, where `priority` is what each socket is created with. -/
def handoverStep (priority : PifusSocketIdentifier → PifusPriority)
    (s : HandoverState) : HandoverEvent → Option HandoverState
  | .create app => some (s.create app)
  | .unlink id => some { s with linked := Function.update s.linked id false }
  | .scan app =>
    match s.pc with
    | .outside => some { s with
        pc := HandoverState.loopHead app (s.localHighest app + 1)
          (s.highest app) }
    | .mapping _ _ _ => none
  | .map found =>
    match s.pc with
    | .outside => none
    | .mapping app i last =>
      let next := HandoverState.loopHead app (i + 1) last
      if s.linked ⟨app, i⟩ then
        if found = priority ⟨app, i⟩ ∨ found = .low then
          some { s.map ⟨app, i⟩ found with pc := next }
        else none
      else some { s with pc := next }
  | .drain prio => s.drain prio
  | .close id => some { s with
      socketPtrs := Function.update s.socketPtrs id false }
  | .remove prio => s.remove prio

namespace HandoverState

variable {priority : PifusSocketIdentifier → PifusPriority}

/-- The steps as a relation. -/
def HandoverStep (priority : PifusSocketIdentifier → PifusPriority)
    (s : HandoverState) (e : HandoverEvent) (t : HandoverState) : Prop :=
  handoverStep priority s e = some t

/-- No app, no socket. -/
def initial : HandoverState :=
  ⟨fun _ => 0, fun _ => false, fun _ => 0, .outside,
    fun _ => .create (fun _ => ⟨0, 0⟩) discoveryMaxNewSockets
      discoveryMaxNewSockets_pos discoveryMaxNewSockets_lt,
    fun _ => 0, fun _ => false, fun _ => [], [], fun _ => []⟩

/-- The places of a priority: its queue, the list of its prio thread, and what
that thread has removed. -/
def places (s : HandoverState) (prio : PifusPriority) :
    List PifusSocketIdentifier :=
  (s.queue prio).contents ++ s.list prio ++ s.removed prio

/-- An iteration of `map_new_sockets` finds the priority the socket was created
with, and its queue is not full. -/
def Takes (priority : PifusSocketIdentifier → PifusPriority)
    (s : HandoverState) : HandoverEvent → Prop
  | .map found => ∀ id ∈ s.pc.current, s.linked id = true →
      found = priority id ∧ (s.queue found).isFull = false
  | _ => True

instance (s : HandoverState) (e : HandoverEvent) :
    Decidable (s.Takes priority e) :=
  match e with
  | .map _ => inferInstanceAs (Decidable (∀ id ∈ s.pc.current, _))
  | .create _ | .unlink _ | .scan _ | .drain _ | .close _ | .remove _ =>
    isTrue trivial

/-! ## The invariant -/

/-- **The invariant**: the places of a priority hold the mapped sockets of that
priority, each of them once. -/
structure HandoverInv (priority : PifusSocketIdentifier → PifusPriority)
    (s : HandoverState) : Prop where
  nodup : s.mapped.Nodup
  below : ∀ id ∈ s.mapped, id.socketIndex ≤ s.localHighest id.appIndex
  pc : ∀ app i last, s.pc = .mapping app i last → s.localHighest app < i
  places : ∀ prio, (s.places prio).Perm
    (s.mapped.filter (fun id => priority id = prio))
  closed : ∀ prio, ∀ id ∈ s.removed prio, s.socketPtrs id = false

variable {s t : HandoverState}

theorem HandoverInv.mem_mapped {prio : PifusPriority}
    {id : PifusSocketIdentifier} (h : HandoverInv priority s)
    (hid : id ∈ s.places prio) : id ∈ s.mapped :=
  (List.mem_filter.mp ((h.places prio).mem_iff.mp hid)).1

theorem HandoverInv.not_mem_mapped {app i last : ℕ}
    (h : HandoverInv priority s) (hpc : s.pc = .mapping app i last) :
    (⟨app, i⟩ : PifusSocketIdentifier) ∉ s.mapped := fun hmem =>
  absurd (h.below _ hmem) (Nat.not_le.mpr (h.pc app i last hpc))

theorem places_of_ne {prio other : PifusPriority} (hne : other ≠ prio)
    (hqueue : t.queue = Function.update s.queue prio (t.queue prio))
    (hlist : t.list = Function.update s.list prio (t.list prio))
    (hremoved : t.removed = Function.update s.removed prio (t.removed prio)) :
    t.places other = s.places other := by
  unfold places
  rw [hqueue, hlist, hremoved, Function.update_of_ne hne,
    Function.update_of_ne hne, Function.update_of_ne hne]

/-- A step that moves the sockets of one priority between its places. -/
theorem HandoverInv.moves {prio : PifusPriority} (h : HandoverInv priority s)
    (hkept : t.mapped = s.mapped ∧ t.localHighest = s.localHighest
      ∧ t.pc = s.pc ∧ t.socketPtrs = s.socketPtrs)
    (hqueue : t.queue = Function.update s.queue prio (t.queue prio))
    (hlist : t.list = Function.update s.list prio (t.list prio))
    (hremoved : t.removed = Function.update s.removed prio (t.removed prio))
    (hperm : (t.places prio).Perm (s.places prio))
    (hclosed : ∀ id ∈ t.removed prio, s.socketPtrs id = false) :
    HandoverInv priority t := by
  obtain ⟨hmapped, hlocal, hpc, hptrs⟩ := hkept
  refine ⟨?_, ?_, ?_, fun other => ?_, fun other id hid => ?_⟩
  · rw [hmapped]
    exact h.nodup
  · rw [hmapped, hlocal]
    exact h.below
  · rw [hpc, hlocal]
    exact h.pc
  · rw [hmapped]
    by_cases hne : other = prio
    · subst hne
      exact hperm.trans (h.places other)
    · rw [places_of_ne hne hqueue hlist hremoved]
      exact h.places other
  · rw [hptrs]
    by_cases hne : other = prio
    · subst hne
      exact hclosed id hid
    · rw [hremoved, Function.update_of_ne hne] at hid
      exact h.closed other id hid

/-- A prio thread takes a socket over. -/
theorem HandoverInv.drain {prio : PifusPriority} (h : HandoverInv priority s)
    (hs : s.drain prio = some t) : HandoverInv priority t := by
  rw [HandoverState.drain] at hs
  split at hs
  · rename_i id ring hget
    obtain rfl := Option.some.inj hs
    refine h.moves ⟨rfl, rfl, rfl, rfl⟩ (by simp) (by simp)
      (Function.update_eq_self prio s.removed).symm ?_ (h.closed prio)
    unfold HandoverState.places
    dsimp only
    rw [Function.update_self, Function.update_self, RingBuffer.contents_get hget,
      List.append_assoc, List.cons_append]
    exact (List.perm_middle).trans (by rw [List.append_assoc]; exact .refl _)
  · exact absurd hs (by simp)

/-- A prio thread removes a closed socket. -/
theorem HandoverInv.remove {prio : PifusPriority} (h : HandoverInv priority s)
    (hs : s.remove prio = some t) : HandoverInv priority t := by
  rw [HandoverState.remove] at hs
  split at hs
  · rename_i id hfind
    obtain rfl := Option.some.inj hs
    have hmem : id ∈ s.list prio := List.mem_of_find?_eq_some hfind
    have hnull : s.socketPtrs id = false := by
      simpa using List.find?_some hfind
    refine h.moves ⟨rfl, rfl, rfl, rfl⟩
      (Function.update_eq_self prio s.queue).symm (by simp) (by simp) ?_ ?_
    · unfold HandoverState.places
      dsimp only
      rw [Function.update_self, Function.update_self, List.append_assoc,
        List.append_assoc]
      refine List.Perm.append_left _ ?_
      rw [← List.append_assoc]
      refine (List.perm_append_singleton id _).trans ?_
      rw [← List.cons_append]
      exact (List.perm_cons_erase hmem).symm.append_right _
    · intro id' hid'
      dsimp only at hid'
      rw [Function.update_self] at hid'
      rcases List.mem_append.mp hid' with hold | hnew
      · exact h.closed prio id' hold
      · rw [List.mem_singleton.mp hnew]
        exact hnull
  · exact absurd hs (by simp)

/-- The discovery thread maps a socket and finds the queue of its priority
with room. -/
theorem HandoverInv.map {app i last : ℕ} {found : PifusPriority}
    (h : HandoverInv priority s) (hpc : s.pc = .mapping app i last)
    (hfound : found = priority ⟨app, i⟩)
    (hroom : (s.queue found).isFull = false) :
    HandoverInv priority
      { s.map ⟨app, i⟩ found with pc := loopHead app (i + 1) last } := by
  have hnew := h.not_mem_mapped hpc
  have hlt := h.pc app i last hpc
  obtain ⟨ring, hput⟩ : ∃ ring, (s.queue found).put ⟨app, i⟩ = some ring :=
    RingBuffer.exists_put _ (mt RingBuffer.isFull_iff.mpr (by simp [hroom]))
  refine ⟨?_, fun id hid => ?_, fun app' i' last' heq => ?_, fun prio => ?_,
    fun prio id hid => ?_⟩
  · show (s.mapped ++ [(⟨app, i⟩ : PifusSocketIdentifier)]).Nodup
    rw [List.nodup_append]
    refine ⟨h.nodup, List.nodup_singleton _, fun a ha b hb => ?_⟩
    rw [List.mem_singleton.mp hb]
    exact fun heq => hnew (heq ▸ ha)
  · show id.socketIndex ≤ Function.update s.localHighest app i id.appIndex
    rcases List.mem_append.mp hid with hold | hid
    · have hle := h.below id hold
      by_cases happ : id.appIndex = app
      · rw [happ, Function.update_self]
        rw [happ] at hle
        omega
      · rw [Function.update_of_ne happ]
        exact hle
    · have hself : Function.update s.localHighest app i app = i :=
        Function.update_self _ _ _
      rw [List.mem_singleton.mp hid]
      exact Nat.le_of_eq hself.symm
  · show Function.update s.localHighest app i app' < i'
    dsimp only at heq
    unfold loopHead at heq
    split at heq
    · obtain ⟨rfl, rfl, -⟩ := MapPc.mapping.inj heq
      rw [Function.update_self]
      exact Nat.lt_succ_self i
    · exact absurd heq (by simp)
  · unfold HandoverState.places HandoverState.map
    dsimp only
    rw [hput, Option.getD_some, List.filter_append]
    by_cases hprio : prio = found
    · subst hprio
      rw [Function.update_self, RingBuffer.contents_put hput, List.append_assoc,
        List.append_assoc, List.singleton_append,
        List.filter_singleton, decide_eq_true hfound.symm, cond_true]
      refine List.perm_middle.trans ?_
      refine List.Perm.trans ?_ (List.perm_append_singleton _ _).symm
      rw [← List.append_assoc]
      exact (h.places prio).cons _
    · rw [Function.update_of_ne hprio, List.filter_singleton,
        decide_eq_false (fun heq => hprio (heq.symm.trans hfound.symm)),
        cond_false, List.append_nil]
      exact h.places prio
  · show Function.update s.socketPtrs ⟨app, i⟩ true id = false
    have hid : id ∈ s.removed prio := hid
    have hmem : id ∈ s.mapped :=
      h.mem_mapped (List.mem_append_right _ hid)
    have hne : id ≠ ⟨app, i⟩ := fun heq => hnew (heq ▸ hmem)
    rw [Function.update_of_ne hne]
    exact h.closed prio id hid

/-- **Every step that meets the condition keeps the invariant.** -/
theorem HandoverInv.step {e : HandoverEvent} (h : HandoverInv priority s)
    (hok : s.Takes priority e) (hs : HandoverStep priority s e t) :
    HandoverInv priority t := by
  unfold HandoverStep at hs
  cases e with
  | create app | unlink id =>
    obtain rfl := Option.some.inj hs
    exact ⟨h.nodup, h.below, h.pc, h.places, h.closed⟩
  | scan app =>
    rw [handoverStep] at hs
    split at hs
    · obtain rfl := Option.some.inj hs
      refine ⟨h.nodup, h.below, fun app' i last heq => ?_, h.places, h.closed⟩
      dsimp only at heq ⊢
      unfold loopHead at heq
      split at heq
      · obtain ⟨rfl, rfl, -⟩ := MapPc.mapping.inj heq
        exact Nat.lt_succ_self _
      · exact absurd heq (by simp)
    · exact absurd hs (by simp)
  | map found =>
    rw [handoverStep] at hs
    split at hs
    · exact absurd hs (by simp)
    · rename_i app i last hpc
      have hok := hok ⟨app, i⟩ (by rw [hpc]; rfl)
      dsimp only at hs
      split at hs
      · rename_i hlinked
        obtain ⟨hfound, hroom⟩ := hok hlinked
        rw [if_pos (Or.inl hfound)] at hs
        obtain rfl := Option.some.inj hs
        exact h.map hpc hfound hroom
      · obtain rfl := Option.some.inj hs
        refine ⟨h.nodup, h.below, fun app' i' last' heq => ?_, h.places,
          h.closed⟩
        dsimp only at heq ⊢
        unfold loopHead at heq
        split at heq
        · obtain ⟨rfl, rfl, -⟩ := MapPc.mapping.inj heq
          exact Nat.lt_succ_of_lt (h.pc _ _ _ hpc)
        · exact absurd heq (by simp)
  | drain prio => exact h.drain hs
  | close id =>
    obtain rfl := Option.some.inj hs
    refine ⟨h.nodup, h.below, h.pc, h.places, fun prio id' hid' => ?_⟩
    by_cases heq : id' = id
    · rw [heq]
      exact Function.update_self _ _ _
    · exact (Function.update_of_ne heq _ _).trans (h.closed prio id' hid')
  | remove prio => exact h.remove hs

end HandoverState
