import Pifus.PrioThreads

/-!
# What a prio thread relies on

What a prio thread compares the words of its sockets with are the shadows it
keeps, and no other thread changes these. So the entries it has written stay
true until it waits, if they stay what they are (`PrioState.PassesOwn`), and
every registered socket that is open has one (`PrioState.PcInv`). When all words
have their expected values, no announced operation is left in a squeue, and the
new-socket queue is empty: its futex counts the sockets that were handed over,
its shadow those that are in the list, and a socket that found the queue full
keeps the two apart for ever. A thread that has lost a socket spins.
-/

/-! ## One socket -/

section

variable {α : Type} {s t : SqueueState α} {e : SqueueEvent α}

/-- The put of an app, and what the stack does, leave the prio thread where it
stands. -/
theorem squeueStep_pc (hs : squeueStep s e = some t) (hcall : e ≠ .call)
    (htick : e ≠ .tick) : t.pc = s.pc := by
  obtain ⟨op, -, -, rfl⟩ | ⟨-, -, rfl⟩ | ⟨rfl, -, -⟩ | ⟨rfl, -⟩ |
    ⟨_, _, -, rfl⟩ := squeueStep_cases hs
  · exact SqueueState.pc_enqueue s op
  · rfl
  · exact absurd rfl hcall
  · exact absurd rfl htick
  · rfl

/-- Only inside `handle_squeue_change` the shadow changes. -/
theorem squeueStep_shadow (hs : squeueStep s e = some t) (htick : e ≠ .tick) :
    t.shadow = s.shadow := by
  obtain ⟨op, -, -, rfl⟩ | ⟨-, -, rfl⟩ | ⟨-, -, rfl⟩ | ⟨rfl, -⟩ |
    ⟨_, _, -, rfl⟩ := squeueStep_cases hs
  · exact SqueueState.shadow_enqueue s op
  · rfl
  · rfl
  · exact absurd rfl htick
  · rfl

/-- The prio thread leaves the futex alone. -/
theorem handle_squeueFutex (hs : s.handle = some t) :
    t.squeueFutex = s.squeueFutex := by
  rw [SqueueState.handle] at hs
  cases hcase : s.pc with
  | outside =>
    rw [hcase] at hs
    exact absurd hs (by simp)
  | looping diff | peeking diff =>
    rw [hcase] at hs
    dsimp only at hs
    split at hs <;> obtain rfl := Option.some.inj hs <;> rfl
  | putting op diff =>
    rw [hcase] at hs
    obtain rfl := Option.some.inj hs
    unfold SqueueState.putTx
    split <;> rfl
  | reading old | copying cell diff | erasing diff | shadowing diff
  | counting diff =>
    rw [hcase] at hs
    obtain rfl := Option.some.inj hs
    rfl

/-- Only the app changes the futex, and only when it announces. -/
theorem squeueStep_futex (hs : squeueStep s e = some t)
    (hannounce : e ≠ .announce) : t.squeueFutex = s.squeueFutex := by
  obtain ⟨op, -, -, rfl⟩ | ⟨rfl, -, -⟩ | ⟨-, -, rfl⟩ | ⟨-, hhandle⟩ |
    ⟨_, _, -, rfl⟩ := squeueStep_cases hs
  · exact SqueueState.squeueFutex_enqueue s op
  · exact absurd rfl hannounce
  · rfl
  · exact handle_squeueFutex hhandle
  · rfl

variable {sockets : PifusSocketIdentifier → SqueueState α}
  {id : PifusSocketIdentifier}

theorem update_socket {β : Type} {f : SqueueState α → β}
    (h : f t = f (sockets id)) (id' : PifusSocketIdentifier) :
    f (Function.update sockets id t id') = f (sockets id') := by
  by_cases heq : id' = id
  · rw [heq, Function.update_self, h]
  · rw [Function.update_of_ne heq]

theorem squeueInv_update (h : ∀ id', SqueueInv (sockets id'))
    (hs : squeueStep (sockets id) e = some t) (id' : PifusSocketIdentifier) :
    SqueueInv (Function.update sockets id t id') := by
  by_cases heq : id' = id
  · rw [heq, Function.update_self]
    exact (h id).step hs
  · rw [Function.update_of_ne heq]
    exact h id'

end

/-! ## The tables -/

/-- The tables of the stack bound the number of sockets. -/
theorem length_le_of_inTables {l : List PifusSocketIdentifier} (h : l.Nodup)
    (htables : ∀ id ∈ l, id.InTables) :
    l.length ≤ maxAppAmount * maxSocketsPerApp := by
  let code : PifusSocketIdentifier → ℕ :=
    fun id => id.appIndex * maxSocketsPerApp + id.socketIndex
  have hinj : ∀ a ∈ l, ∀ b ∈ l, code a = code b → a = b := by
    intro a ha b hb hab
    have ha' := (htables a ha).2
    have hb' := (htables b hb).2
    simp only [code, maxSocketsPerApp] at hab ha' hb'
    obtain ⟨app, i⟩ := a
    obtain ⟨app', i'⟩ := b
    dsimp only at hab ha' hb'
    obtain rfl : app = app' := by omega
    obtain rfl : i = i' := by omega
    rfl
  have hnodup : (l.map code).Nodup := h.map_on (fun a ha b hb => hinj a ha b hb)
  have hsub : l.map code ⊆ List.range (maxAppAmount * maxSocketsPerApp) := by
    intro n hn
    obtain ⟨id, hid, rfl⟩ := List.mem_map.mp hn
    obtain ⟨happ, hsocket⟩ := htables id hid
    rw [List.mem_range]
    simp only [code, maxSocketsPerApp, maxAppAmount] at happ hsocket ⊢
    omega
  have hle := (hnodup.subperm hsub).length_le
  rwa [List.length_map, List.length_range] at hle

/-- The socket on its way from the queue to the list. -/
def PrioPc.pushed : PrioPc → List PifusSocketIdentifier
  | .pushing id => [id]
  | _ => []

namespace PrioState

open LinkedList PrioPass

variable {α : Type} {s t : PrioState α} {prio : PifusPriority}
  {th th' : PrioThread} {id : PifusSocketIdentifier}
  {cells : List (ℕ × PifusSocketIdentifier)}

/-! ## The invariant of a thread -/

/-- The entries of some sockets, compared with their shadows as they are. -/
def entriesFor (s : PrioState α) (listed : List PifusSocketIdentifier) :
    List FutexWaitv :=
  listed.map (fun id => ⟨.squeueFutex id, (s.sockets id).shadow⟩)

/-- **The sockets that the pass has recorded**: they are among these, and the
open ones of these are among them. -/
def Records (s : PrioState α) (entries : List FutexWaitv)
    (listed among : List PifusSocketIdentifier) : Prop :=
  entries = s.entriesFor listed ∧ listed ⊆ among
    ∧ ∀ id ∈ among, s.socketPtrs id = true → id ∈ listed

/-- The entry of the new-socket queue. -/
def queueEntryOf (prio : PifusPriority) (th : PrioThread) : FutexWaitv :=
  ⟨.socketQueueFutex prio, th.newSocketQueueFutexShadow⟩

/-- What a prio thread has done where it stands, its list having these
cells. -/
def PcInv (s : PrioState α) (prio : PifusPriority) (th : PrioThread)
    (cells : List (ℕ × PifusSocketIdentifier)) : Prop :=
  match th.pc with
  | .next => ∃ idx listed, idx ≤ cells.length
      ∧ (At th.list cells idx ∨ th.list.listNext = none)
      ∧ s.Records th.written listed ((cells.take idx).map Prod.snd)
  | .comparing id | .handling id | .recording id => ∃ idx listed c,
      cells[idx]? = some c ∧ c.2 = id ∧ At th.list cells (idx + 1)
      ∧ s.Records th.written listed ((cells.take idx).map Prod.snd)
  | .removing | .queueEntry =>
    ∃ listed, s.Records th.written listed th.registered
  | .seeking i => i ≤ cells.length
      ∧ (At th.list cells i ∨ th.list.listNext = none)
      ∧ ∃ listed, s.Records th.written listed th.registered
  | .waiting => ∃ entries listed, th.written = entries ++ [queueEntryOf prio th]
      ∧ s.Records entries listed th.registered
  | .blocked copied => ∃ entries listed,
      copied = entries ++ [queueEntryOf prio th]
      ∧ s.Records entries listed th.registered
      ∧ ∀ entry ∈ copied, s.word entry.uaddr = entry.val
  | .serving id => id ∈ th.registered
  | _ => True

/-- The sockets of a thread: on their way, in its list or behind, and in its
queue. -/
def places (s : PrioState α) (prio : PifusPriority) (th : PrioThread) :
    List PifusSocketIdentifier :=
  th.pc.pushed ++ th.registered ++ (s.queue prio).contents

/-- The list of a thread has these cells: some of the registered sockets, and
all open ones. -/
def Holds (s : PrioState α) (th : PrioThread)
    (cells : List (ℕ × PifusSocketIdentifier)) : Prop :=
  Represents th.list cells ∧ (cells.map Prod.snd).Sublist th.registered
    ∧ ∀ id ∈ th.registered, s.socketPtrs id = true → id ∈ cells.map Prod.snd

/-- **The invariant of a prio thread.** -/
structure ThreadInv (s : PrioState α) (prio : PifusPriority)
    (th : PrioThread) : Prop where
  nodup : (s.places prio th).Nodup
  handed : ∀ id ∈ s.places prio th, id ∈ s.handed prio
  shadow : th.newSocketQueueFutexShadow = UInt32.ofNat th.registered.length
  nr : ∀ i id, th.socketFromFutexNr i = .socket id → id ∈ th.registered
  list : th.pc ≠ .faulted → ∃ cells, s.Holds th cells ∧ s.PcInv prio th cells

theorem ThreadInv.mem_handed (h : ThreadInv s prio th)
    (hid : id ∈ th.registered) : id ∈ s.handed prio :=
  h.handed id (List.mem_append_left _ (List.mem_append_right _ hid))

theorem Holds.mem_registered (h : s.Holds th cells) {idx : ℕ}
    {c : ℕ × PifusSocketIdentifier} (hc : cells[idx]? = some c) :
    c.2 ∈ th.registered := by
  obtain ⟨hidx, rfl⟩ := List.getElem?_eq_some_iff.mp hc
  exact h.2.1.subset (List.mem_map_of_mem (List.getElem_mem hidx))

/-- The socket that is handled belongs to the thread. -/
theorem ThreadInv.current_mem (h : ThreadInv s prio th)
    (hcurrent : th.pc.current = some id) : id ∈ th.registered := by
  have hne : th.pc ≠ .faulted := fun heq => by
    rw [heq] at hcurrent
    exact absurd hcurrent (by simp [PrioPc.current])
  obtain ⟨cells, hholds, hpc⟩ := h.list hne
  unfold PcInv at hpc
  cases hcase : th.pc with
  | handling id' =>
    rw [hcase] at hpc hcurrent
    obtain rfl := Option.some.inj hcurrent
    obtain ⟨idx, listed, c, hc, rfl, -⟩ := hpc
    exact hholds.mem_registered hc
  | serving id' =>
    rw [hcase] at hpc hcurrent
    obtain rfl := Option.some.inj hcurrent
    exact hpc
  | _ =>
    rw [hcase] at hcurrent
    exact absurd hcurrent (by simp [PrioPc.current])

/-! ## What the other parties do -/

theorem Records.frame {entries : List FutexWaitv}
    {listed among : List PifusSocketIdentifier}
    (h : s.Records entries listed among)
    (hshadow : ∀ id ∈ among, (t.sockets id).shadow = (s.sockets id).shadow)
    (hptrs : ∀ id ∈ among, t.socketPtrs id = true → s.socketPtrs id = true) :
    t.Records entries listed among := by
  obtain ⟨rfl, hsub, hopen⟩ := h
  refine ⟨?_, hsub, fun id hid ho => hopen id hid (hptrs id hid ho)⟩
  exact List.map_congr_left (fun id hid => by rw [hshadow id (hsub hid)])

/-- **A step that leaves the sockets of a thread alone.** -/
theorem ThreadInv.frame (h : ThreadInv s prio th)
    (hqueue : t.queue prio = s.queue prio)
    (hhanded : ∀ id ∈ s.handed prio, id ∈ t.handed prio)
    (hshadow : ∀ id ∈ th.registered,
      (t.sockets id).shadow = (s.sockets id).shadow)
    (hptrs : ∀ id ∈ th.registered,
      t.socketPtrs id = true → s.socketPtrs id = true)
    (hwords : ∀ copied, th.pc = .blocked copied → ∀ entry ∈ copied,
      t.word entry.uaddr = s.word entry.uaddr) : ThreadInv t prio th := by
  have hplaces : t.places prio th = s.places prio th := by
    rw [places, hqueue, places]
  refine ⟨by rw [hplaces]; exact h.nodup, fun id hid => ?_, h.shadow, h.nr,
    fun hne => ?_⟩
  · rw [hplaces] at hid
    exact hhanded id (h.handed id hid)
  · obtain ⟨cells, ⟨hrep, hsub, hopen⟩, hpc⟩ := h.list hne
    have htake : ∀ idx, ∀ id ∈ (cells.take idx).map Prod.snd,
        id ∈ th.registered := fun idx id hid =>
      hsub.subset (((List.take_sublist idx cells).map Prod.snd).subset hid)
    refine ⟨cells, ⟨hrep, hsub, fun id hid ho => hopen id hid (hptrs id hid ho)⟩,
      ?_⟩
    have hrecords : ∀ {entries listed among}, s.Records entries listed among →
        (∀ id ∈ among, id ∈ th.registered) → t.Records entries listed among :=
      fun hr hin => hr.frame (fun id hid => hshadow id (hin id hid))
        (fun id hid => hptrs id (hin id hid))
    unfold PcInv at hpc ⊢
    cases hcase : th.pc with
    | next =>
      rw [hcase] at hpc
      obtain ⟨idx, listed, hle, hat, hr⟩ := hpc
      exact ⟨idx, listed, hle, hat, hrecords hr (htake idx)⟩
    | comparing id | handling id | recording id =>
      rw [hcase] at hpc
      obtain ⟨idx, listed, c, hc, hid, hat, hr⟩ := hpc
      exact ⟨idx, listed, c, hc, hid, hat, hrecords hr (htake idx)⟩
    | removing | queueEntry =>
      rw [hcase] at hpc
      obtain ⟨listed, hr⟩ := hpc
      exact ⟨listed, hrecords hr (fun _ hid => hid)⟩
    | seeking i =>
      rw [hcase] at hpc
      obtain ⟨hle, hat, listed, hr⟩ := hpc
      exact ⟨hle, hat, listed, hrecords hr (fun _ hid => hid)⟩
    | waiting =>
      rw [hcase] at hpc
      obtain ⟨entries, listed, hw, hr⟩ := hpc
      exact ⟨entries, listed, hw, hrecords hr (fun _ hid => hid)⟩
    | blocked copied =>
      rw [hcase] at hpc
      obtain ⟨entries, listed, hw, hr, hvals⟩ := hpc
      refine ⟨entries, listed, hw, hrecords hr (fun _ hid => hid),
        fun entry hentry => ?_⟩
      rw [hwords copied hcase entry hentry]
      exact hvals entry hentry
    | serving id =>
      rw [hcase] at hpc
      exact hpc
    | _ => trivial

/-- **A step of the thread itself** that neither takes a socket out of the
queue nor registers one. -/
theorem ThreadInv.goto (h : ThreadInv s prio th)
    (hpushed : th'.pc.pushed = th.pc.pushed)
    (hregistered : th'.registered = th.registered)
    (hshadow : th'.newSocketQueueFutexShadow = th.newSocketQueueFutexShadow)
    (hnr : ∀ i id, th'.socketFromFutexNr i = .socket id → id ∈ th.registered)
    (hlist : th'.pc ≠ .faulted →
      ∃ cells, s.Holds th' cells ∧ s.PcInv prio th' cells) :
    ThreadInv s prio th' := by
  have hplaces : s.places prio th' = s.places prio th := by
    rw [places, places, hpushed, hregistered]
  refine ⟨?_, ?_, ?_, ?_, hlist⟩
  · rw [hplaces]
    exact h.nodup
  · rw [hplaces]
    exact h.handed
  · rw [hshadow, hregistered]
    exact h.shadow
  · rw [hregistered]
    exact hnr

/-- **Who is woken**: a thread that is blocked on the word, and no other. -/
theorem futexWake_cases (uaddr : FutexWord) (prio : PifusPriority) :
    (∃ copied, (s.threads prio).pc = .blocked copied
      ∧ (s.futexWake uaddr).threads prio = { s.threads prio with
        pc := .woken ((copied.map FutexWaitv.uaddr).idxOf uaddr) })
    ∨ ((∀ copied, (s.threads prio).pc = .blocked copied →
        uaddr ∉ copied.map FutexWaitv.uaddr)
      ∧ (s.futexWake uaddr).threads prio = s.threads prio) := by
  unfold PrioState.futexWake
  dsimp only
  split
  · rename_i copied hpc
    split
    · exact Or.inl ⟨copied, hpc, rfl⟩
    · rename_i hnot
      refine Or.inr ⟨fun copied' heq => ?_, rfl⟩
      obtain rfl := PrioPc.blocked.inj (hpc.symm.trans heq)
      exact hnot
  · rename_i hnot
    exact Or.inr ⟨fun copied heq => absurd heq (hnot copied), rfl⟩

/-- **An increment of a word and `futex_wake`**: who is woken has returned
from `futex_waitv`, and who is not waits for other words. -/
theorem ThreadInv.futexWake {uaddr : FutexWord}
    (h : ThreadInv s prio (t.threads prio))
    (hqueue : t.queue prio = s.queue prio) (hhanded : t.handed = s.handed)
    (hshadow : ∀ id, (t.sockets id).shadow = (s.sockets id).shadow)
    (hptrs : t.socketPtrs = s.socketPtrs)
    (hwords : ∀ w, w ≠ uaddr → t.word w = s.word w) :
    ThreadInv (t.futexWake uaddr) prio ((t.futexWake uaddr).threads prio) := by
  have hframe : ∀ {th : PrioThread}, ThreadInv s prio th →
      (∀ copied, th.pc = .blocked copied →
        uaddr ∉ copied.map FutexWaitv.uaddr) →
      ThreadInv (t.futexWake uaddr) prio th := by
    intro th hth hnot
    refine hth.frame hqueue (fun id hid => ?_) (fun id _ => hshadow id)
      (fun id _ ho => ?_) (fun copied hcopied entry hentry => ?_)
    · show id ∈ t.handed prio
      rw [hhanded]
      exact hid
    · rw [← hptrs]
      exact ho
    · exact hwords entry.uaddr (fun heq => hnot copied hcopied
        (heq ▸ List.mem_map_of_mem hentry))
  rcases futexWake_cases (s := t) uaddr prio with ⟨copied, hpc, hwoken⟩ |
    ⟨hnot, hsame⟩
  · rw [hwoken]
    refine hframe (h.goto ?_ rfl rfl h.nr (fun _ => ?_)) (fun _ heq => ?_)
    · rw [hpc]
      rfl
    · obtain ⟨cells, hholds, -⟩ := h.list (by rw [hpc]; simp)
      exact ⟨cells, hholds, trivial⟩
    · exact absurd heq (by simp)
  · rw [hsame]
    exact hframe h hnot

/-- Who is woken handles no socket, and has handled none. -/
theorem futexWake_current (uaddr : FutexWord) (prio : PifusPriority) :
    ((s.futexWake uaddr).threads prio).pc.current
      = (s.threads prio).pc.current := by
  rcases futexWake_cases (s := s) uaddr prio with ⟨copied, hpc, hwoken⟩ |
    ⟨-, hsame⟩
  · rw [hwoken, hpc]
    rfl
  · rw [hsame]

/-- **The invariant**: of the sockets, of the queues and of each prio
thread. -/
structure PrioInv (s : PrioState α) : Prop where
  squeue : ∀ id, SqueueInv (s.sockets id)
  handler : ∀ id, (s.sockets id).pc = .outside
    ∨ ∃ prio, (s.threads prio).pc.current = some id
  nodup : ∀ prio, (s.handed prio).Nodup
  tables : ∀ prio, ∀ id ∈ s.handed prio, id.InTables
  disjoint : ∀ prio prio' id, id ∈ s.handed prio → id ∈ s.handed prio' →
    prio = prio'
  queueFutex : ∀ prio, s.queueFutex prio
    + (if s.handing = some prio then 1 else 0)
      = UInt32.ofNat (s.handed prio).length
  thread : ∀ prio, ThreadInv s prio (s.threads prio)

/-- **A step that hands nothing over** and after which every thread knows where
it stands. -/
theorem PrioInv.other (h : PrioInv s)
    (hsqueue : ∀ id, SqueueInv (t.sockets id))
    (hpc : ∀ id, (t.sockets id).pc = (s.sockets id).pc)
    (hcurrent : ∀ prio,
      (t.threads prio).pc.current = (s.threads prio).pc.current)
    (hhanded : t.handed = s.handed)
    (hfutex : ∀ prio,
      t.queueFutex prio + (if t.handing = some prio then 1 else 0)
        = s.queueFutex prio + (if s.handing = some prio then 1 else 0))
    (hthread : ∀ prio, ThreadInv t prio (t.threads prio)) : PrioInv t := by
  refine ⟨hsqueue, fun id => ?_, ?_, ?_, ?_, fun prio => ?_, hthread⟩
  · rw [hpc id]
    refine (h.handler id).imp_right (fun ⟨prio, hprio⟩ => ⟨prio, ?_⟩)
    rw [hcurrent prio, hprio]
  · rw [hhanded]
    exact h.nodup
  · rw [hhanded]
    exact h.tables
  · rw [hhanded]
    exact h.disjoint
  · rw [hfutex prio, hhanded]
    exact h.queueFutex prio

/-- The put of an app, and what the stack does to a socket. -/
theorem PrioInv.stepSocket {e : SqueueEvent α} (h : PrioInv s)
    (hs : s.stepSocket id e = some t) (hcall : e ≠ .call) (htick : e ≠ .tick)
    (hannounce : e ≠ .announce) : PrioInv t := by
  obtain ⟨socket, hsocket, rfl⟩ := Option.map_eq_some_iff.mp hs
  have hshadow := squeueStep_shadow hsocket htick
  have hpc := squeueStep_pc hsocket hcall htick
  have hfutex := squeueStep_futex hsocket hannounce
  refine h.other (squeueInv_update h.squeue hsocket) (update_socket hpc)
    (fun _ => rfl) rfl (fun _ => rfl) (fun prio => ?_)
  refine (h.thread prio).frame rfl (fun _ hid => hid)
    (fun id' _ => update_socket hshadow id') (fun _ _ ho => ho)
    (fun copied _ entry _ => ?_)
  cases entry.uaddr with
  | squeueFutex id' => exact update_socket hfutex id'
  | socketQueueFutex prio' => rfl

/-- An app announces an operation. -/
theorem PrioInv.announce (h : PrioInv s)
    (hs : s.stepSocket id .announce = some t) :
    PrioInv (t.futexWake (.squeueFutex id)) := by
  obtain ⟨socket, hsocket, rfl⟩ := Option.map_eq_some_iff.mp hs
  have hshadow := squeueStep_shadow hsocket (by simp)
  have hpc := squeueStep_pc hsocket (by simp) (by simp)
  refine h.other (squeueInv_update h.squeue hsocket) (update_socket hpc)
    (fun prio => futexWake_current _ prio) rfl (fun _ => rfl) (fun prio => ?_)
  refine ThreadInv.futexWake
    (t := { s with sockets := Function.update s.sockets id socket })
    (h.thread prio) rfl rfl (update_socket hshadow) rfl (fun w hw => ?_)
  cases w with
  | squeueFutex id' =>
    have hne : id' ≠ id := fun heq => hw (heq ▸ rfl)
    exact congrArg SqueueState.squeueFutex (Function.update_of_ne hne _ _)
  | socketQueueFutex prio' => rfl

/-- The discovery thread announces a socket. -/
theorem PrioInv.announceSocket (h : PrioInv s)
    (hhanding : s.handing = some prio) :
    PrioInv ({ s with
      queueFutex := Function.update s.queueFutex prio (s.queueFutex prio + 1)
      handing := none }.futexWake (.socketQueueFutex prio)) := by
  refine h.other h.squeue (fun _ => rfl) (fun prio' => futexWake_current _ prio')
    rfl (fun prio' => ?_) (fun prio' => ?_)
  · show Function.update s.queueFutex prio _ prio' + (if none = _ then 1 else 0)
      = _
    by_cases heq : prio' = prio
    · rw [heq, Function.update_self, if_neg (by simp), if_pos hhanding,
        UInt32.add_zero]
    · have hne : s.handing ≠ some prio' := fun hsome =>
        heq (Option.some.inj (hsome.symm.trans hhanding))
      rw [Function.update_of_ne heq, if_neg (by simp), if_neg hne]
  · refine ThreadInv.futexWake (t := { s with
        queueFutex := Function.update s.queueFutex prio (s.queueFutex prio + 1)
        handing := none })
      (h.thread prio') rfl rfl (fun _ => rfl) rfl (fun w hw => ?_)
    cases w with
    | squeueFutex id => rfl
    | socketQueueFutex prio'' =>
      have hne : prio'' ≠ prio := fun heq => hw (heq ▸ rfl)
      exact Function.update_of_ne hne _ _

theorem PrioInv.close (h : PrioInv s) : PrioInv { s with
    socketPtrs := Function.update s.socketPtrs id false } := by
  refine h.other h.squeue (fun _ => rfl) (fun _ => rfl) rfl (fun _ => rfl)
    (fun prio => (h.thread prio).frame rfl (fun _ hid => hid) (fun _ _ => rfl)
      (fun id' _ ho => ?_) (fun _ _ _ _ => rfl))
  dsimp only at ho
  by_cases heq : id' = id
  · rw [heq, Function.update_self] at ho
    exact absurd ho (by simp)
  · rwa [Function.update_of_ne heq] at ho

theorem mem_everHanded (hid : id ∈ s.handed prio) : id ∈ s.everHanded := by
  rw [everHanded, List.mem_append, List.mem_append]
  cases prio with
  | high => exact Or.inl (Or.inl hid)
  | medium => exact Or.inl (Or.inr hid)
  | low => exact Or.inr hid

/-- **A socket is handed over**, and put into the queue of the thread, of
another one, or lost. -/
theorem ThreadInv.handOver (h : ThreadInv s prio th) (hnew : id ∉ s.handed prio)
    (hsockets : t.sockets = s.sockets)
    (hptrs : ∀ id', id' ≠ id → t.socketPtrs id' = s.socketPtrs id')
    (hwords : ∀ w, t.word w = s.word w)
    (hhanded : ∀ id' ∈ s.handed prio, id' ∈ t.handed prio)
    (hqueue : t.queue prio = s.queue prio ∨ (id ∈ t.handed prio
      ∧ (t.queue prio).contents = (s.queue prio).contents ++ [id])) :
    ThreadInv t prio th := by
  have hframe : ThreadInv { t with queue := s.queue } prio th := by
    refine h.frame rfl hhanded (fun id' _ => ?_) (fun id' hid ho => ?_)
      (fun _ _ entry _ => hwords entry.uaddr)
    · exact congrArg (fun sockets => (sockets id').shadow) hsockets
    · rw [← hptrs id' (fun heq => hnew (heq ▸ h.mem_handed hid))]
      exact ho
  rcases hqueue with hsame | ⟨hid, hput⟩
  · have hplaces : t.places prio th = s.places prio th := by
      rw [places, hsame, places]
    refine ⟨?_, fun id' hid => ?_, hframe.shadow, hframe.nr, hframe.list⟩
    · rw [hplaces]
      exact h.nodup
    · rw [hplaces] at hid
      exact hhanded id' (h.handed id' hid)
  · have hplaces : t.places prio th = s.places prio th ++ [id] := by
      rw [places, hput, places, List.append_assoc _ _ [id]]
    refine ⟨?_, fun id' hid' => ?_, hframe.shadow, hframe.nr, hframe.list⟩
    · rw [hplaces, ← List.concat_eq_append]
      exact h.nodup.concat (fun hid => hnew (h.handed id hid))
    · rw [hplaces, List.mem_append] at hid'
      rcases hid' with hid' | hid'
      · exact hhanded id' (h.handed id' hid')
      · exact List.mem_singleton.mp hid' ▸ hid

theorem mem_update_handed {id' : PifusSocketIdentifier}
    {prio' : PifusPriority} :
    id' ∈ Function.update s.handed prio (s.handed prio ++ [id]) prio'
      ↔ id' ∈ s.handed prio' ∨ (prio' = prio ∧ id' = id) := by
  by_cases heq : prio' = prio
  · rw [heq, Function.update_self, List.mem_append, List.mem_singleton]
    simp
  · rw [Function.update_of_ne heq]
    simp [heq]

/-- The discovery thread hands a socket over. -/
theorem PrioInv.handOver {prio : PifusPriority} (h : PrioInv s)
    (hs : s.handOver prio id = some t) : PrioInv t := by
  rw [PrioState.handOver] at hs
  split at hs
  swap
  · exact absurd hs (by simp)
  rename_i hcan
  obtain ⟨hhanding, htables, hnew⟩ := hcan
  obtain rfl := Option.some.inj hs
  have hnot : ∀ prio', id ∉ s.handed prio' := fun prio' hid =>
    hnew (mem_everHanded hid)
  refine ⟨h.squeue, h.handler, fun prio' => ?_, fun prio' id' hid => ?_,
    fun prio' prio'' id' hid' hid'' => ?_, fun prio' => ?_, fun prio' => ?_⟩
  · show (Function.update s.handed prio _ prio').Nodup
    by_cases heq : prio' = prio
    · rw [heq, Function.update_self, ← List.concat_eq_append]
      exact (h.nodup prio).concat (hnot prio)
    · rw [Function.update_of_ne heq]
      exact h.nodup prio'
  · rcases mem_update_handed.mp hid with hid | ⟨-, rfl⟩
    · exact h.tables prio' id' hid
    · exact htables
  · rcases mem_update_handed.mp hid' with hid' | ⟨rfl, rfl⟩ <;>
      rcases mem_update_handed.mp hid'' with hid'' | ⟨heq, heq'⟩
    · exact h.disjoint prio' prio'' id' hid' hid''
    · exact absurd (heq' ▸ hid') (hnot prio')
    · exact absurd hid'' (hnot prio'')
    · exact heq.symm
  · show s.queueFutex prio' + (if some prio = some prio' then 1 else 0)
      = UInt32.ofNat (Function.update s.handed prio _ prio').length
    have hfutex := h.queueFutex prio'
    rw [hhanding, if_neg (by simp), UInt32.add_zero] at hfutex
    by_cases heq : prio' = prio
    · subst heq
      rw [Function.update_self, if_pos rfl, hfutex, List.length_append,
        List.length_singleton, UInt32.ofNat_add]
      rfl
    · have hne : some prio ≠ some prio' := fun hsome =>
        heq (Option.some.inj hsome).symm
      rw [Function.update_of_ne heq, if_neg hne, hfutex, UInt32.add_zero]
  · refine (h.thread prio').handOver (hnot prio') rfl
      (fun _ hne => Function.update_of_ne hne _ _) (fun w => by cases w <;> rfl)
      (fun _ hid => mem_update_handed.mpr (Or.inl hid)) ?_
    by_cases heq : prio' = prio
    · have hself : Function.update s.queue prio
          (((s.queue prio).put id).getD (s.queue prio)) prio'
          = ((s.queue prio').put id).getD (s.queue prio') := by
        rw [heq, Function.update_self]
      cases hput : (s.queue prio').put id with
      | none =>
        rw [hput] at hself
        exact Or.inl hself
      | some ring =>
        rw [hput] at hself
        refine Or.inr ⟨mem_update_handed.mpr (Or.inr ⟨heq, rfl⟩), ?_⟩
        dsimp only
        rw [hself]
        exact RingBuffer.contents_put hput
    · exact Or.inl (Function.update_of_ne heq _ _)

end PrioState
