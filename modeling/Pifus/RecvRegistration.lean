import Pifus.RecvRuns

/-!
# Who registers the receive callback

What lwIP passes up goes to the function that was registered with `tcp_recv`,
and `tcp_recv_null` where none was: it acknowledges the bytes and frees them.
A connection that is handed over by accept has `tcp_recv_callback` from the
start, as `tcp_accepted_callback` registers it, with no socket for an argument
until discovery has mapped one; the callback then refuses. A connection that
was opened by `TCP_CONNECT` has its socket from the start, but the callback is
registered by `tx_tcp_recv`, that is, by the first recv operation of the app.

The receive path behind the callback is that of `Pifus.RecvRuns`.
-/

/-- The receive function of a pcb. -/
inductive RecvFn
  | tcpRecvNull | tcpRecvCallback
  deriving DecidableEq

/-- How a connection came about. -/
inductive Opening
  | connect | accept
  deriving DecidableEq

/-- A connection and the receive path of its socket. -/
structure ConnectionState where
  path : RecvState
  /-- The receive function of the pcb. -/
  recvFn : RecvFn
  /-- The argument of the pcb is the socket, not `NULL`. -/
  arg : Bool
  /-- The bytes lwIP has passed up, in order. -/
  passedUp : List UInt8
  /-- The bytes that `tcp_recv_null` has acknowledged and freed. -/
  discarded : List UInt8
  /-- The remote FIN was passed up. -/
  finished : Bool
  /-- `tcp_recv_null` has closed the pcb. -/
  closed : Bool
  /-- Bytes were passed up before the callback was registered. -/
  early : Bool

/-- What can happen next. -/
inductive ConnectionEvent
  /-- The stack processes a recv operation. -/
  | recv (recvBlockOffset size : ℕ)
  /-- `map_new_sockets` calls `tcp_arg`. -/
  | setArg
  /-- lwIP passes a chain up, or a refused one again. -/
  | deliver (p : PbufChain)
  /-- lwIP passes the remote FIN up. -/
  | fin

namespace ConnectionState

/-- A new connection. -/
def initial (opening : Opening) (queue : ℕ → PifusRecvQueueEntry)
    (buffer : Memory) : ConnectionState :=
  ⟨.initial queue buffer,
    match opening with
    | .connect => .tcpRecvNull
    | .accept => .tcpRecvCallback,
    opening = .connect, [], [], false, false, false⟩

/-- The stream with the bytes of a chain, unless they are in it already. -/
def withChain (s : ConnectionState) (stream : List UInt8) (p : PbufChain) :
    List UInt8 :=
  if s.path.refused = none then stream ++ p.pbufs.flatten else stream

/-- A chain for the callback. Without an argument it refuses and touches no
socket. -/
def toCallback (s : ConnectionState) (p : PbufChain) : Option RecvState :=
  if s.arg then recvStep s.path (.deliver p)
  else
    (tcpRecvCallback none (some p) .ok).map (fun r => { s.path with
      refused := if r.1 = .mem then some p else none
      stream := s.withChain s.path.stream p })

/-- A chain for the receive function. -/
def deliver (s : ConnectionState) (p : PbufChain) : Option ConnectionState :=
  if (s.path.refused = none ∨ s.path.refused = some p)
      ∧ s.finished = false then
    let t : ConnectionState := { s with passedUp := s.withChain s.passedUp p }
    match s.recvFn with
    | .tcpRecvNull => some { t with
        discarded := s.discarded ++ p.pbufs.flatten
        early := s.early || !p.pbufs.flatten.isEmpty }
    | .tcpRecvCallback =>
      (s.toCallback p).map (fun path => { t with path := path })
  else none

/-- The FIN for the receive function. -/
def fin (s : ConnectionState) : Option ConnectionState :=
  if s.path.refused = none ∧ s.finished = false then
    some { s with
      finished := true, closed := s.closed || s.recvFn = .tcpRecvNull }
  else none

end ConnectionState

/-- **A step of the stack, of discovery or of lwIP.** -/
def connectionStep (s : ConnectionState) :
    ConnectionEvent → Option ConnectionState
  | .recv recvBlockOffset size =>
    (recvStep s.path (.recv recvBlockOffset size)).map (fun path =>
      { s with recvFn := .tcpRecvCallback, path := path })
  | .setArg => some { s with arg := true }
  | .deliver p => s.deliver p
  | .fin => s.fin

/-- The steps as a relation. -/
def ConnectionStep (s : ConnectionState) (e : ConnectionEvent)
    (t : ConnectionState) : Prop :=
  connectionStep s e = some t

namespace ConnectionState

/-- **No byte is thrown away**: the bytes in recv blocks, those in the buffer
and the rest of the refused chain are what lwIP has passed up. -/
def Kept (s : ConnectionState) : Prop :=
  s.path.written ++ s.path.socket.recvBuffer.contents ++ s.path.refusedRest
      = s.passedUp
    ∧ s.discarded = []

end ConnectionState

/-- **The invariant**: what lwIP has passed up was discarded, or is behind it
in the stream of the receive path. -/
structure ConnectionInv (opening : Opening) (s : ConnectionState) : Prop where
  path : RecvRunInv s.path
  passedUp : s.passedUp = s.discarded ++ s.path.stream
  untouched : s.recvFn = .tcpRecvNull →
    s.path.refused = none ∧ s.path.stream = []
  early : s.early = false ↔ s.discarded = []
  accepted : opening = .accept →
    s.recvFn = .tcpRecvCallback ∧ s.discarded = []

namespace ConnectionInv

variable {opening : Opening} {s t : ConnectionState} {p : PbufChain}

theorem stream_deliver {path path' : RecvState}
    (hs : recvStep path (.deliver p) = some path') :
    path'.stream = if path.refused = none then path.stream ++ p.pbufs.flatten
      else path.stream := by
  rw [recvStep] at hs
  split at hs
  · obtain ⟨r, -, hr⟩ := Option.bind_eq_some_iff.mp hs
    obtain ⟨socket, -, rfl⟩ := Option.map_eq_some_iff.mp hr
    rfl
  · exact absurd hs (by simp)

/-- **The callback without an argument** keeps the receive path as it is, with
the chain refused. -/
theorem refuse {path : RecvState} (h : RecvRunInv path)
    (hp : path.refused = none ∨ path.refused = some p) :
    RecvRunInv { path with
      refused := some p
      stream :=
        if path.refused = none then path.stream ++ p.pbufs.flatten
        else path.stream } := by
  obtain ⟨⟨hqueue, hsatisfied, hordered, hlossless⟩, hunread, hrecved⟩ := h
  unfold RecvState.refusedRest at hlossless hrecved
  rcases hp with hnone | hsome
  · rw [hnone] at hlossless hrecved
    rw [if_pos hnone]
    have hrest : RecvState.refusedRest { path with
        refused := some p, stream := path.stream ++ p.pbufs.flatten }
        = p.pbufs.flatten := by
      show p.pbufs.flatten.drop path.socket.unreadDataOffset = _
      rw [hunread hnone, List.drop_zero]
    rw [List.append_nil] at hlossless
    refine ⟨⟨hqueue, hsatisfied, hordered, ?_⟩, fun h => absurd h (by simp), ?_⟩
    · rw [hrest, hlossless]
    · rw [hrest]
      show path.recved + _ = (path.stream ++ p.pbufs.flatten).length
      simp only [List.length_nil, Nat.add_zero] at hrecved
      rw [List.length_append, hrecved]
  · rw [hsome] at hlossless hrecved
    rw [if_neg (by simp [hsome])]
    exact ⟨⟨hqueue, hsatisfied, hordered, hlossless⟩,
      fun h => absurd h (by simp), hrecved⟩

/-- **The callback keeps the bytes of a chain.** -/
theorem toCallback {path : RecvState} (h : RecvRunInv s.path)
    (hp : s.path.refused = none ∨ s.path.refused = some p)
    (hs : s.toCallback p = some path) :
    RecvRunInv path ∧ path.stream = s.withChain s.path.stream p := by
  unfold ConnectionState.toCallback at hs
  split at hs
  · exact ⟨h.step hs, stream_deliver hs⟩
  · rw [tcpRecvCallback, Option.map_some] at hs
    obtain rfl := Option.some.inj hs
    exact ⟨refuse h hp, rfl⟩

/-- **A delivery keeps the invariant.** -/
theorem deliver (h : ConnectionInv opening s) (hs : s.deliver p = some t) :
    ConnectionInv opening t := by
  rw [ConnectionState.deliver] at hs
  split at hs
  · rename_i hp
    dsimp only at hs
    split at hs
    · rename_i hnull
      obtain rfl := Option.some.inj hs
      obtain ⟨hrefused, hstream⟩ := h.untouched hnull
      refine ⟨h.path, ?_, h.untouched, ?_, fun hacc => ?_⟩
      · show s.withChain s.passedUp p = (s.discarded ++ p.pbufs.flatten) ++ _
        rw [ConnectionState.withChain, if_pos hrefused, h.passedUp, hstream,
          List.append_nil, List.append_nil]
      · rw [Bool.or_eq_false_iff, h.early, List.append_eq_nil_iff]
        simp
      · exact absurd (hnull.symm.trans (h.accepted hacc).1) (by simp)
    · rename_i hcallback
      obtain ⟨path, hpath, rfl⟩ := Option.map_eq_some_iff.mp hs
      obtain ⟨hinv, hstream⟩ := toCallback h.path hp.1 hpath
      refine ⟨hinv, ?_, fun hnull => ?_, h.early, h.accepted⟩
      · show s.withChain s.passedUp p = s.discarded ++ path.stream
        rw [hstream, ConnectionState.withChain, ConnectionState.withChain,
          h.passedUp]
        split
        · rw [List.append_assoc]
        · rfl
      · exact absurd (hcallback.symm.trans hnull) (by simp)
  · exact absurd hs (by simp)

/-- **Every step keeps the invariant.** -/
theorem step {e : ConnectionEvent} (h : ConnectionInv opening s)
    (hs : ConnectionStep s e t) : ConnectionInv opening t := by
  unfold ConnectionStep at hs
  cases e with
  | recv off size =>
    rw [connectionStep] at hs
    obtain ⟨path, hpath, rfl⟩ := Option.map_eq_some_iff.mp hs
    have hstream : path.stream = s.path.stream := by
      obtain rfl := Option.some.inj hpath
      rfl
    refine ⟨h.path.step hpath, ?_, fun hnull => absurd hnull (by simp), h.early,
      fun hacc => ⟨rfl, (h.accepted hacc).2⟩⟩
    rw [hstream]
    exact h.passedUp
  | setArg =>
    obtain rfl := Option.some.inj hs
    exact ⟨h.path, h.passedUp, h.untouched, h.early, h.accepted⟩
  | deliver p => exact h.deliver hs
  | fin =>
    rw [connectionStep, ConnectionState.fin] at hs
    split at hs
    · obtain rfl := Option.some.inj hs
      exact ⟨h.path, h.passedUp, h.untouched, h.early, h.accepted⟩
    · exact absurd hs (by simp)

theorem initial (opening : Opening) (queue : ℕ → PifusRecvQueueEntry)
    (buffer : Memory) :
    ConnectionInv opening (.initial opening queue buffer) where
  path := recvRunInv_initial queue buffer
  passedUp := rfl
  untouched := fun _ => ⟨rfl, rfl⟩
  early := iff_of_true rfl rfl
  accepted := by
    rintro rfl
    exact ⟨rfl, rfl⟩

end ConnectionInv

/-! ## Runs -/

/-- **When no byte is thrown away**: if and only if lwIP has passed none up
before the callback was registered. On a connection that was handed over by
accept, this is always so. -/
theorem bytes_kept_iff {opening : Opening} {queue : ℕ → PifusRecvQueueEntry}
    {buffer : Memory} {es : List ConnectionEvent} {s : ConnectionState}
    (h : Run ConnectionStep (.initial opening queue buffer) es s) :
    (s.Kept ↔ s.early = false) ∧ (opening = .accept → s.Kept) := by
  have hinv : ConnectionInv opening s :=
    h.invariant (ConnectionInv opening) (ConnectionInv.initial opening queue buffer)
      (fun _ _ _ hI hs => hI.step hs)
  have hkept : s.discarded = [] → s.Kept := fun hnil => by
    refine ⟨?_, hnil⟩
    rw [hinv.passedUp, hnil]
    exact hinv.path.inv.lossless
  refine ⟨?_, fun hacc => hkept (hinv.accepted hacc).2⟩
  rw [hinv.early]
  exact ⟨And.right, hkept⟩

/-- A recv operation on a connection that was made, and then a byte. -/
theorem bytes_kept_iff_one :
    ∃ s : ConnectionState, s.passedUp = [7] ∧ (s.Kept ↔ s.early = false) := by
  have hs : ([.recv 0 3, .deliver ⟨[[7]], by decide⟩].foldlM connectionStep
      (.initial .connect (fun _ => ⟨0, 0, 0⟩) (fun _ => 0))).map
      (fun s => s.passedUp) = some [7] := by decide +kernel
  obtain ⟨s, hrun, hpassed⟩ := Option.map_eq_some_iff.mp hs
  exact ⟨s, hpassed, (bytes_kept_iff (Run.of_foldlM hrun)).1⟩

/-- **A byte in front of the first recv operation** on a connection that was
opened by `TCP_CONNECT`: it is acknowledged and freed. -/
theorem byte_before_recv_discarded :
    ∃ (es : List ConnectionEvent) (s : ConnectionState),
      Run ConnectionStep
        (.initial .connect (fun _ => ⟨0, 0, 0⟩) (fun _ => 0)) es s
      ∧ s.passedUp = [7] ∧ s.discarded = [7] ∧ ¬ s.Kept := by
  have hs : ([.deliver ⟨[[7]], by decide⟩, .recv 0 3].foldlM connectionStep
      (.initial .connect (fun _ => ⟨0, 0, 0⟩) (fun _ => 0))).any (fun s =>
        s.passedUp = [7] ∧ s.discarded = [7]) = true := by decide +kernel
  obtain ⟨s, hrun, hp⟩ := (Option.any_eq_true _ _).mp hs
  obtain ⟨hpassed, hdiscarded⟩ := of_decide_eq_true hp
  refine ⟨_, s, Run.of_foldlM hrun, hpassed, hdiscarded, fun hkept => ?_⟩
  exact absurd (hdiscarded.symm.trans hkept.2) (by simp)
