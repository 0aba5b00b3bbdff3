import Pifus.Util.Transition
import Mathlib.Logic.Function.Basic

/-!
# Discovery of new sockets

An app creates a socket in `pifus_socket_with_tcp_pcb`: it maps a zeroed
region, publishes it by an increment of `highest_socket_number`, and then
stores the protocol, the priority and the pcb into the region. The discovery
thread of the stack polls `highest_socket_number`. In `map_new_sockets` it
maps the regions that are new to it, calls `tcp_arg` where it finds a pcb, and
puts the identifier into the new-socket queue of the priority it finds.

The two run in different processes, and the discovery thread is not woken by
this app alone, so a region may be read at any time after it was published.
What it reads then may be the zeroes.

There is one app here. Its calls follow one another, as `pifus_socket` is
documented not to be thread-safe. The fields of a region that `map_new_sockets`
does not read are left out.
-/

/-- `enum pifus_protocol`. -/
inductive PifusProtocol
  | tcp | udp
  deriving DecidableEq, Repr

/-- `enum pifus_priority`. -/
inductive PifusPriority
  | low | medium | high
  deriving DecidableEq, Repr

/-- The fields of `struct pifus_socket` that discovery reads. A pcb is a
number here, and `none` is `NULL`. -/
structure SocketRegion where
  protocol : PifusProtocol
  priority : PifusPriority
  pcb : Option ℕ
  deriving DecidableEq

/-- A region as it was mapped: `PROTOCOL_TCP`, `PRIORITY_LOW` and `NULL` are
zero. -/
def SocketRegion.zeroed : SocketRegion := ⟨.tcp, .low, none⟩

/-- The arguments of `pifus_socket_with_tcp_pcb`. Its callers are
`pifus_socket`, which passes no pcb, and `dequeue_operation`, which passes the
pcb of an accepted TCP connection. -/
structure SocketRequest where
  protocol : PifusProtocol
  priority : PifusPriority
  pcb : Option ℕ
  tcp_of_pcb : pcb ≠ none → protocol = .tcp
  deriving DecidableEq

/-- Where the app stands in `pifus_socket_with_tcp_pcb`. -/
inductive CreatePc
  /-- Outside. -/
  | outside
  /-- In front of `app_state->highest_socket_number++`. -/
  | publishing (req : SocketRequest)
  /-- In front of the store of the protocol. -/
  | storingProtocol (req : SocketRequest)
  /-- In front of the store of the priority. -/
  | storingPriority (req : SocketRequest)
  /-- In front of the test of `tcp_pcb` and the store of the pcb. -/
  | storingPcb (req : SocketRequest)
  /-- In front of the creation of the squeue and the wake-up. -/
  | waking
  deriving DecidableEq

/-- Where the discovery thread stands, as far as this app is concerned. `i` is
`socket_index` and `last` is `app_highest_index`. -/
inductive DiscoveryPc
  /-- Outside. -/
  | outside
  /-- In `fill_waitv`, in front of the comparison. -/
  | comparing
  /-- In `handle_new_sockets`, in front of the new shadow. -/
  | refreshing
  /-- In `map_new_sockets`, in front of the read of `highest_socket_number`. -/
  | reading
  /-- In front of `shm_open_region`. -/
  | opening (i last : ℕ)
  /-- In front of `socket->protocol == PROTOCOL_TCP`. -/
  | testingProtocol (i last : ℕ)
  /-- In front of `socket->pcb.tcp != NULL`. -/
  | testingPcb (i last : ℕ)
  /-- In front of `tcp_arg(socket->pcb.tcp, socket)`. -/
  | settingArg (i last : ℕ)
  /-- In front of `socket->priority == PRIORITY_HIGH`. -/
  | testingHigh (i last : ℕ)
  /-- In front of `socket->priority == PRIORITY_MEDIUM`. -/
  | testingMedium (i last : ℕ)
  /-- In front of `pifus_socket_identifier_queue_put`. -/
  | offering (queue : PifusPriority) (i last : ℕ)
  deriving DecidableEq

/-- The app and the discovery thread, and what became of each socket. -/
structure DiscoveryState where
  /-- `highest_socket_number`. -/
  highest : ℕ
  /-- The region of each socket that has one. -/
  regions : ℕ → Option SocketRegion
  appPc : CreatePc
  /-- `app_futexes`. -/
  appFutex : ℕ
  /-- `app_local_highest_socket_number`. -/
  localHighest : ℕ
  pc : DiscoveryPc
  /-- What each socket was created with. -/
  requests : ℕ → Option SocketRequest
  /-- The queues that the identifier of each socket was offered to. -/
  offers : ℕ → List PifusPriority
  /-- The pcbs that `tcp_arg` was called on with each socket. -/
  args : ℕ → List ℕ
  /-- A test of an attribute of the socket came too early. -/
  early : ℕ → Bool

/-- What can happen next. -/
inductive DiscoveryEvent
  /-- The app calls `pifus_socket_with_tcp_pcb`, up to the publication. -/
  | create (req : SocketRequest)
  /-- The app takes its next step. -/
  | app
  /-- `fill_waitv` gets to the app. -/
  | fill
  /-- `discovery_thread_loop` calls `handle_new_sockets`. -/
  | wake
  /-- The discovery thread takes its next step. -/
  | tick

namespace DiscoveryState

/-- The region of a socket that has been mapped. -/
def region (s : DiscoveryState) (i : ℕ) : SocketRegion :=
  (s.regions i).getD .zeroed

/-- A store into the region of the newest socket. -/
def store (s : DiscoveryState) (f : SocketRegion → SocketRegion) :
    ℕ → Option SocketRegion :=
  Function.update s.regions s.highest (some (f (s.region s.highest)))

/-- `map_socket_region` up to the publication: a new region. -/
def create (s : DiscoveryState) (req : SocketRequest) : DiscoveryState :=
  { s with
    regions := Function.update s.regions (s.highest + 1) (some .zeroed)
    requests := Function.update s.requests (s.highest + 1) (some req)
    appPc := .publishing req }

/-- The next step of the app. -/
def createStep (s : DiscoveryState) : Option DiscoveryState :=
  match s.appPc with
  | .outside => none
  | .publishing req =>
    some { s with highest := s.highest + 1, appPc := .storingProtocol req }
  | .storingProtocol req => some { s with
      regions := s.store (fun r => { r with protocol := req.protocol })
      appPc := .storingPriority req }
  | .storingPriority req => some { s with
      regions := s.store (fun r => { r with priority := req.priority })
      appPc := .storingPcb req }
  | .storingPcb req =>
    if req.pcb ≠ none then
      some { s with
        regions := s.store (fun r => { r with pcb := req.pcb })
        appPc := .waking }
    else some { s with appPc := .waking }
  | .waking => some { s with appPc := .outside }

/-- The head of the loop in `map_new_sockets`. -/
def loopHead (i last : ℕ) : DiscoveryPc :=
  if i ≤ last then .opening i last else .outside

/-- The discovery thread is about to test an attribute that the app passes
with the value tested for and that does not have it yet. -/
def tooEarly (s : DiscoveryState) : Bool :=
  match s.pc with
  | .testingPcb i _ =>
    (s.requests i).any (fun req => req.pcb ≠ none && (s.region i).pcb = none)
  | .testingHigh i _ => (s.requests i).any (fun req =>
      req.priority = .high && (s.region i).priority ≠ .high)
  | .testingMedium i _ => (s.requests i).any (fun req =>
      req.priority = .medium && (s.region i).priority ≠ .medium)
  | _ => false

/-- Keeps it in mind if the test of an attribute of the socket `i` comes too
early. -/
def mark (s : DiscoveryState) (i : ℕ) : ℕ → Bool :=
  Function.update s.early i (s.early i || s.tooEarly)

/-- The next step of the discovery thread. -/
def handle (s : DiscoveryState) : Option DiscoveryState :=
  match s.pc with
  | .outside => none
  | .comparing =>
    if s.highest ≠ s.appFutex then some { s with pc := .refreshing }
    else some { s with pc := .outside }
  | .refreshing => some { s with appFutex := s.highest, pc := .reading }
  | .reading => some { s with pc := loopHead (s.localHighest + 1) s.highest }
  | .opening i last =>
    if (s.regions i).isSome then some { s with pc := .testingProtocol i last }
    else some { s with pc := loopHead (i + 1) last }
  | .testingProtocol i last =>
    if (s.region i).protocol = .tcp then
      some { s with pc := .testingPcb i last }
    else some { s with localHighest := i, pc := .testingHigh i last }
  | .testingPcb i last =>
    if (s.region i).pcb ≠ none then
      some { s with early := s.mark i, pc := .settingArg i last }
    else some { s with
      early := s.mark i, localHighest := i, pc := .testingHigh i last }
  | .settingArg i last => some { s with
      args := Function.update s.args i
        (s.args i ++ (s.region i).pcb.toList)
      localHighest := i, pc := .testingHigh i last }
  | .testingHigh i last =>
    if (s.region i).priority = .high then
      some { s with early := s.mark i, pc := .offering .high i last }
    else some { s with early := s.mark i, pc := .testingMedium i last }
  | .testingMedium i last =>
    if (s.region i).priority = .medium then
      some { s with early := s.mark i, pc := .offering .medium i last }
    else some { s with early := s.mark i, pc := .offering .low i last }
  | .offering queue i last => some { s with
      offers := Function.update s.offers i (s.offers i ++ [queue])
      pc := loopHead (i + 1) last }

end DiscoveryState

/-- **A step of the app or of the discovery thread.** -/
def discoveryStep (s : DiscoveryState) : DiscoveryEvent → Option DiscoveryState
  | .create req =>
    match s.appPc with
    | .outside => some (s.create req)
    | _ => none
  | .app => s.createStep
  | .fill =>
    match s.pc with
    | .outside => some { s with pc := .comparing }
    | _ => none
  | .wake =>
    match s.pc with
    | .outside => some { s with pc := .refreshing }
    | _ => none
  | .tick => s.handle

/-- The steps as a relation. -/
def DiscoveryStep (s : DiscoveryState) (e : DiscoveryEvent)
    (t : DiscoveryState) : Prop :=
  discoveryStep s e = some t

/-- The socket that is being mapped. -/
def DiscoveryPc.current : DiscoveryPc → Option ℕ
  | .outside | .comparing | .refreshing | .reading => none
  | .opening i _ | .testingProtocol i _ | .testingPcb i _ | .settingArg i _
  | .testingHigh i _ | .testingMedium i _ | .offering _ i _ => some i

namespace DiscoveryState

/-- An app without sockets. -/
def initial : DiscoveryState :=
  ⟨0, fun _ => none, .outside, 0, 0, .outside, fun _ => none, fun _ => [],
    fun _ => [], fun _ => false⟩

/-- `tcp_arg` was called on the pcb the app passed, if it passed one. -/
def ArgSet (s : DiscoveryState) (k : ℕ) (req : SocketRequest) : Prop :=
  ∀ pcb, req.pcb = some pcb → pcb ∈ s.args k

/-- **The socket was discovered with the attributes its app gave it**: it was
offered to the queue of its priority and to no other, and its pcb has its
arg. -/
def Discovered (s : DiscoveryState) (k : ℕ) (req : SocketRequest) : Prop :=
  s.offers k = [req.priority] ∧ s.ArgSet k req

/-- The discovery thread is through with the socket. -/
def DiscoveryDone (s : DiscoveryState) (k : ℕ) : Prop :=
  k ≤ s.localHighest ∧ s.pc.current ≠ some k

instance (s : DiscoveryState) (k : ℕ) : Decidable (s.DiscoveryDone k) :=
  inferInstanceAs (Decidable (_ ∧ _))

/-- The step is not a test that comes too early. -/
def InTime (s : DiscoveryState) (e : DiscoveryEvent) : Prop :=
  match e with
  | .tick => s.tooEarly = false
  | _ => True

/-! ## The invariant -/

/-- Every field of a region is what the app passed, or still zero. -/
structure Filled (r : SocketRegion) (req : SocketRequest) : Prop where
  protocol : r.protocol = req.protocol ∨ r.protocol = .tcp
  priority : r.priority = req.priority ∨ r.priority = .low
  pcb : r.pcb = req.pcb ∨ r.pcb = none

theorem filled_zeroed (req : SocketRequest) : Filled .zeroed req :=
  ⟨Or.inr rfl, Or.inr rfl, Or.inr rfl⟩

/-- The region of a socket, and what the app passed for it. -/
def Mapped (s : DiscoveryState) (k : ℕ) (req : SocketRequest) : Prop :=
  s.requests k = some req
    ∧ ∃ r, s.regions k = some r ∧ Filled r req

/-- The discovery thread has not touched the socket. -/
def Fresh (s : DiscoveryState) (k : ℕ) : Prop :=
  s.offers k = [] ∧ s.args k = [] ∧ s.early k = false

/-- What the app knows where it stands. -/
def AppInv (s : DiscoveryState) : Prop :=
  match s.appPc with
  | .outside | .waking => True
  | .publishing req => s.Mapped (s.highest + 1) req
  | .storingProtocol req | .storingPriority req | .storingPcb req =>
    0 < s.highest ∧ s.Mapped s.highest req

/-- The socket `i` is the next one, and it is published. -/
def IsNext (s : DiscoveryState) (i last : ℕ) : Prop :=
  i = s.localHighest + 1 ∧ i ≤ last ∧ last ≤ s.highest

/-- The socket `i` is the newest one in the counter, and not offered yet. -/
def IsLatest (s : DiscoveryState) (i last : ℕ) : Prop :=
  i = s.localHighest ∧ last ≤ s.highest ∧ s.offers i = []

/-- What the discovery thread knows where it stands. -/
def PcInv (s : DiscoveryState) : Prop :=
  match s.pc with
  | .outside | .comparing | .refreshing | .reading => True
  | .opening i last | .testingProtocol i last | .testingPcb i last =>
    s.IsNext i last ∧ s.Fresh i
  | .settingArg i last =>
    s.IsNext i last ∧ s.Fresh i ∧ (s.region i).pcb ≠ none
  | .testingHigh i last => s.IsLatest i last
    ∧ ∀ req, s.requests i = some req →
      (s.ArgSet i req ↔ s.early i = false)
  | .testingMedium i last => s.IsLatest i last
    ∧ ∀ req, s.requests i = some req →
      (req.priority ≠ .high ∧ s.ArgSet i req ↔ s.early i = false)
  | .offering queue i last => s.IsLatest i last
    ∧ ∀ req, s.requests i = some req →
      (queue = req.priority ∧ s.ArgSet i req ↔ s.early i = false)

end DiscoveryState

open DiscoveryState

/-- **The invariant**: a published socket has its region; the discovery thread
has not touched the sockets it has not got to; and it has done right by the
others exactly if no test came too early. -/
structure DiscoveryInv (s : DiscoveryState) : Prop where
  zero : s.requests 0 = none
  app : s.AppInv
  published : ∀ k, 0 < k → k ≤ s.highest → ∃ req, s.Mapped k req
  bound : s.localHighest ≤ s.highest
  fresh : ∀ k, s.localHighest < k → s.pc.current ≠ some k → s.Fresh k
  done : ∀ k req, s.requests k = some req → s.DiscoveryDone k →
    (s.Discovered k req ↔ s.early k = false)
  pc : s.PcInv

variable {s t : DiscoveryState}

theorem discoveryInv_initial : DiscoveryInv .initial :=
  ⟨rfl, trivial, fun k hpos hk => absurd hk (Nat.not_le_of_lt hpos), Nat.le_refl _,
    fun _ _ _ => ⟨rfl, rfl, rfl⟩, fun _ _ hreq => absurd hreq (by simp [initial]),
    trivial⟩

/-! ## The steps of the app -/

/-- A step of the app does not concern the discovery thread, as long as it
keeps what was published. -/
theorem DiscoveryInv.of_app {highest : ℕ} {regions : ℕ → Option SocketRegion}
    {requests : ℕ → Option SocketRequest} {appPc : CreatePc}
    (h : DiscoveryInv s) (hzero : requests 0 = none)
    (happ : AppInv { s with
      highest := highest, regions := regions, requests := requests
      appPc := appPc })
    (hpublished : ∀ k, 0 < k → k ≤ highest → ∃ req, Mapped { s with
      highest := highest, regions := regions, requests := requests
      appPc := appPc } k req)
    (hhighest : s.highest ≤ highest)
    (hrequests : ∀ k, k ≤ s.highest → requests k = s.requests k)
    (hpcb : ∀ k, k ≤ s.highest → (s.region k).pcb ≠ none →
      ((regions k).getD .zeroed).pcb ≠ none) :
    DiscoveryInv { s with
      highest := highest, regions := regions, requests := requests
      appPc := appPc } := by
  obtain ⟨-, -, -, hbound, hfresh, hdone, hpc⟩ := h
  refine ⟨hzero, happ, hpublished, Nat.le_trans hbound hhighest, hfresh,
    fun k req hreq hk => ?_, ?_⟩
  · refine hdone k req ?_ hk
    rw [← hrequests k (Nat.le_trans hk.1 hbound)]
    exact hreq
  · unfold PcInv at hpc ⊢
    cases hs : s.pc with
    | outside | comparing | refreshing | reading => trivial
    | opening i last | testingProtocol i last | testingPcb i last =>
      rw [hs] at hpc
      obtain ⟨⟨hi, hle, hlast⟩, hf⟩ := hpc
      exact ⟨⟨hi, hle, Nat.le_trans hlast hhighest⟩, hf⟩
    | settingArg i last =>
      rw [hs] at hpc
      obtain ⟨⟨hi, hle, hlast⟩, hf, hne⟩ := hpc
      exact ⟨⟨hi, hle, Nat.le_trans hlast hhighest⟩, hf,
        hpcb i (Nat.le_trans hle hlast) hne⟩
    | testingHigh i last | testingMedium i last | offering queue i last =>
      rw [hs] at hpc
      obtain ⟨⟨hi, hlast, hoffers⟩, hreq⟩ := hpc
      refine ⟨⟨hi, Nat.le_trans hlast hhighest, hoffers⟩,
        fun req hr => hreq req ?_⟩
      rw [← hrequests i (hi ▸ hbound)]
      exact hr

/-- A store into the newest region fills it further. -/
theorem DiscoveryInv.store {req : SocketRequest} {appPc : CreatePc}
    {f : SocketRegion → SocketRegion} (h : DiscoveryInv s)
    (hpos : 0 < s.highest) (hmapped : s.Mapped s.highest req)
    (hf : ∀ r, Filled r req → Filled (f r) req)
    (hpcb : ∀ r, Filled r req → r.pcb ≠ none → (f r).pcb ≠ none)
    (happ : appPc = .waking ∨ appPc = .storingPriority req
      ∨ appPc = .storingPcb req) :
    DiscoveryInv { s with regions := s.store f, appPc := appPc } := by
  obtain ⟨hreq, r, hr, hfilled⟩ := hmapped
  have hregion : s.region s.highest = r := by rw [region, hr, Option.getD_some]
  have hself : s.store f s.highest = some (f r) := by
    rw [DiscoveryState.store, Function.update_self, hregion]
  have hother : ∀ k, k ≠ s.highest → s.store f k = s.regions k :=
    fun k hk => Function.update_of_ne hk _ _
  have hmapped' : Mapped { s with regions := s.store f, appPc := appPc }
      s.highest req := ⟨hreq, f r, hself, hf r hfilled⟩
  refine h.of_app h.zero ?_ (fun k hk hle => ?_) (Nat.le_refl _)
    (fun _ _ => rfl) (fun k _ hne => ?_)
  · rcases happ with rfl | rfl | rfl
    · trivial
    · exact ⟨hpos, hmapped'⟩
    · exact ⟨hpos, hmapped'⟩
  · by_cases hk' : k = s.highest
    · exact ⟨req, hk' ▸ hmapped'⟩
    · obtain ⟨req', hreq', r', hr', hfilled'⟩ := h.published k hk hle
      exact ⟨req', hreq', r', (hother k hk').trans hr', hfilled'⟩
  · by_cases hk : k = s.highest
    · subst hk
      rw [hself, Option.getD_some]
      exact hpcb r hfilled (hregion ▸ hne)
    · rw [hother k hk]
      exact hne

/-- **Every step of the app keeps the invariant.** -/
theorem DiscoveryInv.createStep (h : DiscoveryInv s)
    (hs : s.createStep = some t) : DiscoveryInv t := by
  have happ := h.app
  rw [AppInv] at happ
  rw [DiscoveryState.createStep] at hs
  cases hpc : s.appPc with
  | outside =>
    rw [hpc] at hs
    exact absurd hs (by simp)
  | publishing req =>
    rw [hpc] at hs happ
    obtain rfl := Option.some.inj hs
    refine h.of_app h.zero ⟨Nat.succ_pos _, happ⟩ (fun k hk hle => ?_)
      (Nat.le_succ _) (fun _ _ => rfl) (fun _ _ hne => hne)
    rcases Nat.eq_or_lt_of_le hle with rfl | hlt
    · exact ⟨req, happ⟩
    · exact h.published k hk (Nat.le_of_lt_succ hlt)
  | storingProtocol req =>
    rw [hpc] at hs happ
    obtain rfl := Option.some.inj hs
    exact h.store happ.1 happ.2 (fun r hr => ⟨Or.inl rfl, hr.priority, hr.pcb⟩)
      (fun r _ hne => hne) (Or.inr (Or.inl rfl))
  | storingPriority req =>
    rw [hpc] at hs happ
    obtain rfl := Option.some.inj hs
    exact h.store happ.1 happ.2 (fun r hr => ⟨hr.protocol, Or.inl rfl, hr.pcb⟩)
      (fun r _ hne => hne) (Or.inr (Or.inr rfl))
  | storingPcb req =>
    rw [hpc] at hs happ
    dsimp only at hs
    split at hs
    · rename_i hne
      obtain rfl := Option.some.inj hs
      exact h.store happ.1 happ.2
        (fun r hr => ⟨hr.protocol, hr.priority, Or.inl rfl⟩)
        (fun r _ _ => hne) (Or.inl rfl)
    · obtain rfl := Option.some.inj hs
      exact h.of_app h.zero trivial h.published (Nat.le_refl _)
        (fun _ _ => rfl) (fun _ _ hne => hne)
  | waking =>
    rw [hpc] at hs
    obtain rfl := Option.some.inj hs
    exact h.of_app h.zero trivial h.published (Nat.le_refl _)
      (fun _ _ => rfl) (fun _ _ hne => hne)

/-- A new socket has a zeroed region, and is not published. -/
theorem DiscoveryInv.create {req : SocketRequest} (h : DiscoveryInv s) :
    DiscoveryInv (s.create req) := by
  have hne : ∀ k, k ≤ s.highest → k ≠ s.highest + 1 := fun k hk => by omega
  refine h.of_app ?_ ?_ (fun k hk hle => ?_) (Nat.le_refl _)
    (fun k hk => Function.update_of_ne (hne k hk) _ _) (fun k hk hpcb => ?_)
  · rw [Function.update_of_ne (Nat.succ_ne_zero _).symm]
    exact h.zero
  · exact ⟨Function.update_self .., .zeroed, Function.update_self ..,
      filled_zeroed req⟩
  · obtain ⟨req', hreq', r', hr', hfilled'⟩ := h.published k hk hle
    refine ⟨req', ?_, r', ?_, hfilled'⟩
    · exact (Function.update_of_ne (hne k hle) _ _).trans hreq'
    · exact (Function.update_of_ne (hne k hle) _ _).trans hr'
  · rw [Function.update_of_ne (hne k hk)]
    exact hpcb

/-! ## The steps of the discovery thread -/

/-- The tests read what the app passed, or zero. -/
theorem DiscoveryInv.filled {i : ℕ} (h : DiscoveryInv s) (hpos : 0 < i)
    (hle : i ≤ s.highest) :
    ∃ req, s.requests i = some req ∧ Filled (s.region i) req := by
  obtain ⟨req, hreq, r, hr, hfilled⟩ := h.published i hpos hle
  refine ⟨req, hreq, ?_⟩
  rw [region, hr, Option.getD_some]
  exact hfilled

theorem DiscoveryInv.filled_of_request {i : ℕ} {req : SocketRequest}
    (h : DiscoveryInv s) (hreq : s.requests i = some req)
    (hle : i ≤ s.highest) : Filled (s.region i) req := by
  have hpos : 0 < i := Nat.pos_of_ne_zero (fun hi => by
    rw [hi, h.zero] at hreq
    exact absurd hreq (by simp))
  obtain ⟨req', hreq', hfilled⟩ := h.filled hpos hle
  obtain rfl := Option.some.inj (hreq.symm.trans hreq')
  exact hfilled

/-- A step that keeps to the socket being mapped. -/
theorem DiscoveryInv.stay {i localHighest : ℕ} {pc : DiscoveryPc}
    {args : ℕ → List ℕ} {early : ℕ → Bool} (h : DiscoveryInv s)
    (hcur : s.pc.current = some i) (hcur' : pc.current = some i)
    (hlocal : localHighest = s.localHighest
      ∨ localHighest = i ∧ i = s.localHighest + 1)
    (hi : i ≤ s.highest) (hargs : ∀ k, k ≠ i → args k = s.args k)
    (hearly : ∀ k, k ≠ i → early k = s.early k)
    (hpc : PcInv { s with
      localHighest := localHighest, pc := pc, args := args, early := early }) :
    DiscoveryInv { s with
      localHighest := localHighest, pc := pc, args := args, early := early } := by
  have hbound := h.bound
  have hne : ∀ k, pc.current ≠ some k → k ≠ i :=
    fun k hk hki => hk (hki ▸ hcur')
  have hne' : ∀ k, k ≠ i → s.pc.current ≠ some k := fun k hk hki =>
    hk (Option.some.inj (hki.symm.trans hcur))
  refine ⟨h.zero, h.app, h.published, ?_, fun k hk hcurk => ?_,
    fun k req hreq hk => ?_, hpc⟩
  · show localHighest ≤ s.highest
    rcases hlocal with rfl | ⟨rfl, -⟩
    · exact hbound
    · exact hi
  · have hki := hne k hcurk
    obtain ⟨hoffers, hargsk, hearlyk⟩ := h.fresh k (by
      show s.localHighest < k
      have hk' : localHighest < k := hk
      omega) (hne' k hki)
    exact ⟨hoffers, (hargs k hki).trans hargsk, (hearly k hki).trans hearlyk⟩
  · have hki := hne k hk.2
    have hdone := h.done k req hreq ⟨by
      have hk' : k ≤ localHighest := hk.1
      omega, hne' k hki⟩
    show (s.offers k = _ ∧ ∀ pcb, _ → pcb ∈ args k) ↔ early k = false
    rw [hargs k hki, hearly k hki]
    exact hdone

theorem DiscoveryInv.goto {appFutex : ℕ} {pc : DiscoveryPc}
    (h : DiscoveryInv s) (hcur : s.pc.current = none)
    (hpc : PcInv { s with appFutex := appFutex, pc := pc }) :
    DiscoveryInv { s with appFutex := appFutex, pc := pc } :=
  have hne : ∀ k, s.pc.current ≠ some k := fun k hk =>
    absurd (hcur.symm.trans hk) (by simp)
  ⟨h.zero, h.app, h.published, h.bound, fun k hk _ => h.fresh k hk (hne k),
    fun k req hreq hk => h.done k req hreq ⟨hk.1, hne k⟩, hpc⟩

theorem DiscoveryState.loopHead_cases (i last : ℕ) :
    i ≤ last ∧ loopHead i last = .opening i last
      ∨ last < i ∧ loopHead i last = .outside := by
  by_cases hle : i ≤ last
  · exact Or.inl ⟨hle, if_pos hle⟩
  · exact Or.inr ⟨Nat.lt_of_not_le hle, if_neg hle⟩

theorem DiscoveryState.pcInv_loopHead {i last : ℕ} (hpc : s.pc = loopHead i last)
    (hi : i = s.localHighest + 1) (hlast : last ≤ s.highest)
    (hfresh : s.Fresh i) : s.PcInv := by
  rw [PcInv, hpc]
  rcases loopHead_cases i last with ⟨hle, heq⟩ | ⟨-, heq⟩ <;> rw [heq]
  · exact ⟨⟨hi, hle, hlast⟩, hfresh⟩
  · trivial

theorem DiscoveryState.mark_self (s : DiscoveryState) (i : ℕ) :
    s.mark i i = (s.early i || s.tooEarly) :=
  Function.update_self ..

theorem DiscoveryState.mark_of_ne {i k : ℕ} (h : k ≠ i) : s.mark i k = s.early k :=
  Function.update_of_ne h ..

/-- The pcb is tested. -/
theorem DiscoveryInv.testPcb {i last : ℕ} (h : DiscoveryInv s)
    (hs : s.pc = .testingPcb i last) (ht : s.handle = some t) :
    DiscoveryInv t := by
  have hpc := h.pc
  rw [PcInv, hs] at hpc
  obtain ⟨⟨hi, hle, hlast⟩, hoffers, hargs, hearly⟩ := hpc
  have hile : i ≤ s.highest := Nat.le_trans hle hlast
  have hcur : s.pc.current = some i := by rw [hs]; rfl
  obtain ⟨req, hreq, hfilled⟩ := h.filled (by omega) hile
  have htoo : s.tooEarly = (req.pcb ≠ none && (s.region i).pcb = none) := by
    rw [tooEarly, hs]
    dsimp only
    rw [hreq, Option.any_some]
  rw [DiscoveryState.handle, hs] at ht
  dsimp only at ht
  split at ht
  · rename_i hne
    obtain rfl := Option.some.inj ht
    refine h.stay hcur rfl (Or.inl rfl) hile (fun _ _ => rfl)
      (fun k hk => mark_of_ne hk) ⟨⟨hi, hle, hlast⟩, ⟨hoffers, hargs, ?_⟩, hne⟩
    show s.mark i i = false
    rw [mark_self, hearly, htoo]
    simp [hne]
  · rename_i hnull
    rw [not_not] at hnull
    obtain rfl := Option.some.inj ht
    refine h.stay hcur rfl (Or.inr ⟨rfl, hi⟩) hile (fun _ _ => rfl)
      (fun k hk => mark_of_ne hk) ⟨⟨rfl, hlast, hoffers⟩, fun req' hreq' => ?_⟩
    obtain rfl := Option.some.inj (hreq.symm.trans hreq')
    show (∀ pcb, req.pcb = some pcb → pcb ∈ s.args i) ↔ s.mark i i = false
    rw [mark_self, hearly, htoo, hargs]
    -- no `tcp_arg`, which is right exactly if there is no pcb
    cases hpcb : req.pcb with
    | none => simp
    | some pcb => simp [hnull]

/-- The priority is tested for the first time. -/
theorem DiscoveryInv.testHigh {i last : ℕ} (h : DiscoveryInv s)
    (hs : s.pc = .testingHigh i last) (ht : s.handle = some t) :
    DiscoveryInv t := by
  have hpc := h.pc
  rw [PcInv, hs] at hpc
  obtain ⟨⟨hi, hlast, hoffers⟩, hargs⟩ := hpc
  have hile : i ≤ s.highest := hi ▸ h.bound
  have hcur : s.pc.current = some i := by rw [hs]; rfl
  have htoo : ∀ req, s.requests i = some req → s.tooEarly
      = (req.priority = .high && (s.region i).priority ≠ .high : Bool) := by
    intro req hreq
    rw [tooEarly, hs]
    dsimp only
    rw [hreq, Option.any_some]
  rw [DiscoveryState.handle, hs] at ht
  dsimp only at ht
  split at ht
  · rename_i hhigh
    obtain rfl := Option.some.inj ht
    refine h.stay hcur rfl (Or.inl rfl) hile (fun _ _ => rfl)
      (fun k hk => mark_of_ne hk) ⟨⟨hi, hlast, hoffers⟩, fun req hreq => ?_⟩
    have hfilled := (h.filled_of_request hreq hile).priority
    show .high = req.priority ∧ s.ArgSet i req ↔ s.mark i i = false
    rw [mark_self, htoo req hreq]
    rw [hhigh] at hfilled ⊢
    simp [hargs req hreq, hfilled.resolve_right (by simp)]
  · rename_i hhigh
    obtain rfl := Option.some.inj ht
    refine h.stay hcur rfl (Or.inl rfl) hile (fun _ _ => rfl)
      (fun k hk => mark_of_ne hk) ⟨⟨hi, hlast, hoffers⟩, fun req hreq => ?_⟩
    show req.priority ≠ .high ∧ s.ArgSet i req ↔ s.mark i i = false
    rw [mark_self, htoo req hreq]
    simp [hhigh, hargs req hreq, and_comm]

/-- The priority is tested for the second time. -/
theorem DiscoveryInv.testMedium {i last : ℕ} (h : DiscoveryInv s)
    (hs : s.pc = .testingMedium i last) (ht : s.handle = some t) :
    DiscoveryInv t := by
  have hpc := h.pc
  rw [PcInv, hs] at hpc
  obtain ⟨⟨hi, hlast, hoffers⟩, hargs⟩ := hpc
  have hile : i ≤ s.highest := hi ▸ h.bound
  have hcur : s.pc.current = some i := by rw [hs]; rfl
  have htoo : ∀ req, s.requests i = some req → s.tooEarly
      = (req.priority = .medium && (s.region i).priority ≠ .medium : Bool) := by
    intro req hreq
    rw [tooEarly, hs]
    dsimp only
    rw [hreq, Option.any_some]
  rw [DiscoveryState.handle, hs] at ht
  dsimp only at ht
  split at ht
  · rename_i hmedium
    obtain rfl := Option.some.inj ht
    refine h.stay hcur rfl (Or.inl rfl) hile (fun _ _ => rfl)
      (fun k hk => mark_of_ne hk) ⟨⟨hi, hlast, hoffers⟩, fun req hreq => ?_⟩
    have hfilled := (h.filled_of_request hreq hile).priority
    have hreqargs := hargs req hreq
    show .medium = req.priority ∧ s.ArgSet i req ↔ s.mark i i = false
    rw [mark_self, htoo req hreq]
    rw [hmedium] at hfilled ⊢
    rw [← hfilled.resolve_right (by simp)] at hreqargs ⊢
    simpa using hreqargs
  · rename_i hmedium
    obtain rfl := Option.some.inj ht
    refine h.stay hcur rfl (Or.inl rfl) hile (fun _ _ => rfl)
      (fun k hk => mark_of_ne hk) ⟨⟨hi, hlast, hoffers⟩, fun req hreq => ?_⟩
    have hreqargs := hargs req hreq
    show .low = req.priority ∧ s.ArgSet i req ↔ s.mark i i = false
    rw [mark_self, htoo req hreq]
    -- a high priority was missed by the first test already
    cases hpriority : req.priority with
    | high => simpa [hpriority] using hreqargs
    | medium => simp [hmedium]
    | low => simpa [hpriority] using hreqargs

/-- The socket is offered, and the loop goes on. -/
theorem DiscoveryInv.offer {queue : PifusPriority} {i last : ℕ}
    (h : DiscoveryInv s) (hs : s.pc = .offering queue i last) :
    DiscoveryInv { s with
      offers := Function.update s.offers i (s.offers i ++ [queue])
      pc := loopHead (i + 1) last } := by
  have hpc := h.pc
  rw [PcInv, hs] at hpc
  obtain ⟨⟨hi, hlast, hoffers⟩, hargs⟩ := hpc
  have hcur : ∀ k, k ≠ i → s.pc.current ≠ some k := fun k hk hki => by
    rw [hs] at hki
    exact hk (Option.some.inj hki).symm
  have hoffer : ∀ k, k ≠ i →
      Function.update s.offers i (s.offers i ++ [queue]) k = s.offers k :=
    fun k hk => Function.update_of_ne hk _ _
  have hfresh : ∀ k, s.localHighest < k → Fresh { s with
      offers := Function.update s.offers i (s.offers i ++ [queue])
      pc := loopHead (i + 1) last } k := by
    intro k hk
    have hki : k ≠ i := by omega
    obtain ⟨hk₁, hk₂, hk₃⟩ := h.fresh k hk (hcur k hki)
    exact ⟨(hoffer k hki).trans hk₁, hk₂, hk₃⟩
  refine ⟨h.zero, h.app, h.published, h.bound, fun k hk _ => hfresh k hk,
    fun k req hreq hk => ?_, ?_⟩
  · by_cases hki : k = i
    · subst hki
      rw [← hargs req hreq]
      show (Function.update s.offers k (s.offers k ++ [queue]) k = [req.priority]
        ∧ s.ArgSet k req) ↔ _
      rw [Function.update_self, hoffers]
      simp
    · have hdone := h.done k req hreq ⟨hk.1, hcur k hki⟩
      show (Function.update s.offers i (s.offers i ++ [queue]) k = [req.priority]
        ∧ s.ArgSet k req) ↔ s.early k = false
      rw [hoffer k hki]
      exact hdone
  · exact pcInv_loopHead (i := i + 1) rfl (congrArg (· + 1) hi) hlast
      (hfresh (i + 1) (by omega))

/-- **Every step of the discovery thread keeps the invariant.** -/
theorem DiscoveryInv.handle (h : DiscoveryInv s) (ht : s.handle = some t) :
    DiscoveryInv t := by
  have hpc := h.pc
  rw [PcInv] at hpc
  cases hs : s.pc with
  | outside =>
    rw [DiscoveryState.handle, hs] at ht
    exact absurd ht (by simp)
  | comparing =>
    rw [DiscoveryState.handle, hs] at ht
    have hcur : s.pc.current = none := by rw [hs]; rfl
    dsimp only at ht
    split at ht
    all_goals
      obtain rfl := Option.some.inj ht
      exact h.goto hcur trivial
  | refreshing =>
    rw [DiscoveryState.handle, hs] at ht
    obtain rfl := Option.some.inj ht
    exact h.goto (by rw [hs]; rfl) trivial
  | reading =>
    rw [DiscoveryState.handle, hs] at ht
    obtain rfl := Option.some.inj ht
    have hcur : s.pc.current = none := by rw [hs]; rfl
    refine h.goto hcur (pcInv_loopHead (i := s.localHighest + 1) rfl rfl
      (Nat.le_refl _) ?_)
    exact h.fresh _ (Nat.lt_succ_self _) (by rw [hcur]; simp)
  | opening i last =>
    rw [hs] at hpc
    obtain ⟨⟨hi, hle, hlast⟩, hfresh⟩ := hpc
    have hile : i ≤ s.highest := Nat.le_trans hle hlast
    obtain ⟨req, -, r, hr, -⟩ := h.published i (by omega) hile
    rw [DiscoveryState.handle, hs] at ht
    dsimp only at ht
    -- a published region can be opened
    rw [hr, Option.isSome_some, if_pos rfl] at ht
    obtain rfl := Option.some.inj ht
    exact h.stay (by rw [hs]; rfl) rfl (Or.inl rfl) hile (fun _ _ => rfl)
      (fun _ _ => rfl) ⟨⟨hi, hle, hlast⟩, hfresh⟩
  | testingProtocol i last =>
    rw [hs] at hpc
    obtain ⟨⟨hi, hle, hlast⟩, hfresh⟩ := hpc
    have hile : i ≤ s.highest := Nat.le_trans hle hlast
    have hcur : s.pc.current = some i := by rw [hs]; rfl
    rw [DiscoveryState.handle, hs] at ht
    dsimp only at ht
    split at ht
    · obtain rfl := Option.some.inj ht
      exact h.stay hcur rfl (Or.inl rfl) hile (fun _ _ => rfl)
        (fun _ _ => rfl) ⟨⟨hi, hle, hlast⟩, hfresh⟩
    · rename_i hudp
      obtain rfl := Option.some.inj ht
      refine h.stay hcur rfl (Or.inr ⟨rfl, hi⟩) hile (fun _ _ => rfl)
        (fun _ _ => rfl) ⟨⟨rfl, hlast, hfresh.1⟩, fun req hreq => ?_⟩
      -- a socket that is not a TCP one has no pcb
      have hprotocol := (h.filled_of_request hreq hile).protocol.resolve_right
        hudp
      have hnone : req.pcb = none := by
        by_contra hne
        exact hudp (hprotocol.trans (req.tcp_of_pcb hne))
      refine iff_of_true (fun pcb hpcb => ?_) hfresh.2.2
      exact absurd (hnone.symm.trans hpcb) (by simp)
  | testingPcb i last => exact h.testPcb hs ht
  | settingArg i last =>
    rw [hs] at hpc
    obtain ⟨⟨hi, hle, hlast⟩, ⟨hoffers, hargs, hearly⟩, hne⟩ := hpc
    have hile : i ≤ s.highest := Nat.le_trans hle hlast
    rw [DiscoveryState.handle, hs] at ht
    obtain rfl := Option.some.inj ht
    refine h.stay (by rw [hs]; rfl) rfl (Or.inr ⟨rfl, hi⟩) hile
      (fun k hk => Function.update_of_ne hk _ _) (fun _ _ => rfl)
      ⟨⟨rfl, hlast, hoffers⟩, fun req hreq => ?_⟩
    have hpcb := (h.filled_of_request hreq hile).pcb.resolve_right hne
    refine iff_of_true (fun pcb hsome => ?_) hearly
    show pcb ∈ Function.update s.args i (s.args i ++ (s.region i).pcb.toList) i
    rw [Function.update_self, hargs, hpcb, hsome]
    exact List.mem_singleton.mpr rfl
  | testingHigh i last => exact h.testHigh hs ht
  | testingMedium i last => exact h.testMedium hs ht
  | offering queue i last =>
    rw [DiscoveryState.handle, hs] at ht
    obtain rfl := Option.some.inj ht
    exact h.offer hs

/-- **Every step keeps the invariant.** -/
theorem DiscoveryInv.step {e : DiscoveryEvent} (h : DiscoveryInv s)
    (hs : DiscoveryStep s e t) : DiscoveryInv t := by
  unfold DiscoveryStep at hs
  cases e with
  | create req =>
    rw [discoveryStep] at hs
    split at hs
    · obtain rfl := Option.some.inj hs
      exact h.create
    · exact absurd hs (by simp)
  | app => exact h.createStep hs
  | fill | wake =>
    rw [discoveryStep] at hs
    split at hs
    · rename_i hpc
      obtain rfl := Option.some.inj hs
      exact h.goto (by rw [hpc]; rfl) trivial
    · exact absurd hs (by simp)
  | tick => exact h.handle hs

/-! ## Runs -/

instance (s : DiscoveryState) (e : DiscoveryEvent) : Decidable (s.InTime e) :=
  match e with
  | .tick => inferInstanceAs (Decidable (_ = _))
  | .create _ | .app | .fill | .wake => isTrue trivial

theorem DiscoveryState.mark_of_inTime {i : ℕ} (h : s.tooEarly = false) :
    s.mark i = s.early := by
  rw [mark, h, Bool.or_false, Function.update_eq_self]

theorem DiscoveryState.early_createStep (hs : s.createStep = some t) : t.early = s.early := by
  rw [DiscoveryState.createStep] at hs
  split at hs
  · exact absurd hs (by simp)
  case h_5 =>
    split at hs
    all_goals
      obtain rfl := Option.some.inj hs
      rfl
  all_goals
    obtain rfl := Option.some.inj hs
    rfl

theorem DiscoveryState.early_handle (h : s.tooEarly = false) (hs : s.handle = some t) :
    t.early = s.early := by
  rw [DiscoveryState.handle] at hs
  split at hs
  · exact absurd hs (by simp)
  all_goals try split at hs
  all_goals
    obtain rfl := Option.some.inj hs
    first
      | rfl
      | exact mark_of_inTime h

/-- A step in time marks no socket. -/
theorem DiscoveryState.early_step {e : DiscoveryEvent} (h : s.InTime e)
    (hs : DiscoveryStep s e t) : t.early = s.early := by
  unfold DiscoveryStep at hs
  cases e with
  | create req | fill | wake =>
    rw [discoveryStep] at hs
    split at hs
    · obtain rfl := Option.some.inj hs
      rfl
    · exact absurd hs (by simp)
  | app => exact early_createStep hs
  | tick => exact early_handle h hs

/-- **Which sockets are discovered with the attributes their app gave them.**
In a run in which no test of an attribute that the app passes comes before the
app's store, all of them are. In any other run, a socket is if and only if
none of the tests of its attributes came too early. -/
theorem sockets_discovered {es : List DiscoveryEvent} {k : ℕ}
    {req : SocketRequest} (h : Run DiscoveryStep .initial es s)
    (hreq : s.requests k = some req) (hk : s.DiscoveryDone k) :
    (Run (Guarded InTime DiscoveryStep) .initial es s → s.Discovered k req)
    ∧ (s.Discovered k req ↔ s.early k = false) := by
  have hinv : DiscoveryInv s := h.invariant DiscoveryInv discoveryInv_initial
    (fun _ _ _ hI hs => hI.step hs)
  have hdone := hinv.done k req hreq hk
  refine ⟨fun hguarded => hdone.mpr ?_, hdone⟩
  have hearly : s.early = fun _ => false :=
    hguarded.invariant (fun s => s.early = fun _ => false) rfl
      (fun _ _ _ hI hs => (early_step hs.1 hs.2).trans hI)
  rw [hearly]

/-- An accepted socket with its pcb and high priority, published while the
discovery thread compares, and mapped behind the stores. -/
theorem sockets_discovered_accepted :
    ∃ s : DiscoveryState, s.offers 1 = [.high] ∧ s.args 1 = [5]
      ∧ s.Discovered 1 ⟨.tcp, .high, some 5, fun _ => rfl⟩ := by
  let req : SocketRequest := ⟨.tcp, .high, some 5, fun _ => rfl⟩
  have hs : ([.fill, .create req, .app, .tick, .app, .app, .app, .app, .tick,
      .tick, .tick, .tick, .tick, .tick, .tick, .tick].foldlM
      (guardedStep InTime discoveryStep) .initial).any (fun s =>
        s.requests 1 = some req ∧ s.DiscoveryDone 1 ∧ s.offers 1 = [.high]
        ∧ s.args 1 = [5]) = true := by decide +kernel
  obtain ⟨s, hrun, hp⟩ := (Option.any_eq_true _ _).mp hs
  obtain ⟨hreq, hdone, hoffers, hargs⟩ := of_decide_eq_true hp
  have hguarded := Run.guarded_of_foldlM hrun
  exact ⟨s, hoffers, hargs,
    (sockets_discovered hguarded.of_guarded hreq hdone).1 hguarded⟩

/-- **The discovery thread between the publication and the stores**: a socket
created with high priority and a pcb is offered to the queue of low priority,
and `tcp_arg` is not called. -/
theorem published_before_stores :
    ∃ (es : List DiscoveryEvent) (s : DiscoveryState) (req : SocketRequest),
      Run DiscoveryStep .initial es s ∧ s.requests 1 = some req
        ∧ s.appPc = .outside ∧ s.DiscoveryDone 1
        ∧ req.priority = .high ∧ s.offers 1 = [.low]
        ∧ req.pcb = some 5 ∧ s.args 1 = [] ∧ ¬ s.Discovered 1 req := by
  let req : SocketRequest := ⟨.tcp, .high, some 5, fun _ => rfl⟩
  have hs : ([.create req, .app, .wake, .tick, .tick, .tick, .tick, .tick,
      .tick, .tick, .tick, .app, .app, .app, .app].foldlM
      discoveryStep .initial).any (fun s => s.requests 1 = some req
        ∧ s.appPc = .outside ∧ s.DiscoveryDone 1 ∧ s.offers 1 = [.low]
        ∧ s.args 1 = []) = true := by decide +kernel
  obtain ⟨s, hrun, hp⟩ := (Option.any_eq_true _ _).mp hs
  obtain ⟨hreq, happ, hdone, hoffers, hargs⟩ := of_decide_eq_true hp
  refine ⟨_, s, req, Run.of_foldlM hrun, hreq, happ, hdone, rfl, hoffers, rfl,
    hargs, fun hdisc => ?_⟩
  rw [Discovered, hoffers] at hdisc
  exact absurd hdisc.1 (by simp [req])
