import Pifus.NewSockets

/-!
# The socket tables

Three tables are indexed by the number of a socket: `sockets` of the app, and
`socket_ptrs` and `socket_futexes` of the stack, which have a row of
`MAX_SOCKETS_PER_APP` entries for each app. The numbers come from
`map_socket_region`, which counts `highest_socket_number` up for each socket
that is created or accepted. Closing a socket does not give its number back,
and no access looks at the bound.

The rows of `socket_ptrs` lie one behind the other. So an index beyond the end
of a row is a cell of the next app's row.
-/

/-- The tables. -/
inductive SocketTable
  | sockets | socketPtrs | socketFutexes
  deriving DecidableEq

/-- The apps and the stack's tables, and the history of the accesses. -/
structure TableState where
  /-- `highest_socket_number` of each app. -/
  highest : ℕ → ℕ
  /-- `app_local_highest_socket_number`. -/
  localHighest : ℕ → ℕ
  /-- `socket_ptrs` as one array: the socket in each cell. -/
  socketPtrs : ℕ → Option PifusSocketIdentifier
  /-- The sockets that discovery has mapped. -/
  mapped : List PifusSocketIdentifier
  /-- The entries that were accessed. -/
  accesses : List (SocketTable × PifusSocketIdentifier)
  /-- The sockets whose entry of `socket_ptrs` was written. -/
  writes : List PifusSocketIdentifier

/-- What can happen next. -/
inductive TableEvent
  /-- An app calls `pifus_socket`. -/
  | create (app : ℕ)
  /-- An app dequeues the result of a successful accept. -/
  | accept (app : ℕ)
  /-- `map_new_sockets` maps a socket. -/
  | map (id : PifusSocketIdentifier)
  /-- A prio thread looks at a socket of its list. -/
  | serve (id : PifusSocketIdentifier)
  /-- The stack closes a socket. -/
  | close (id : PifusSocketIdentifier)
  /-- An app dequeues the result of a close. -/
  | popClose (id : PifusSocketIdentifier)
  /-- The callback thread of an app looks at a socket. -/
  | poll (id : PifusSocketIdentifier)
  deriving DecidableEq

namespace TableState

/-- The cell of a socket in `socket_ptrs`. -/
def cell (id : PifusSocketIdentifier) : ℕ :=
  id.appIndex * maxSocketsPerApp + id.socketIndex

/-- The socket exists, or has existed. -/
def Created (s : TableState) (id : PifusSocketIdentifier) : Prop :=
  0 < id.socketIndex ∧ id.socketIndex ≤ s.highest id.appIndex

instance (s : TableState) (id : PifusSocketIdentifier) :
    Decidable (s.Created id) :=
  inferInstanceAs (Decidable (_ ∧ _))

/-- `map_socket_region`. -/
def mapSocketRegion (s : TableState) (app : ℕ) : TableState :=
  { s with
    highest := Function.update s.highest app (s.highest app + 1)
    accesses := s.accesses ++ [(.sockets, ⟨app, s.highest app + 1⟩)] }

/-- An assignment to the entry of a socket in `socket_ptrs`. -/
def write (s : TableState) (id : PifusSocketIdentifier)
    (value : Option PifusSocketIdentifier) : TableState :=
  { s with
    socketPtrs := Function.update s.socketPtrs (cell id) value
    accesses := s.accesses ++ [(.socketPtrs, id)]
    writes := s.writes ++ [id] }

/-- An iteration of `map_new_sockets`. -/
def map (s : TableState) (id : PifusSocketIdentifier) : TableState :=
  { s.write id (some id) with
    localHighest := Function.update s.localHighest id.appIndex id.socketIndex
    mapped := s.mapped ++ [id] }

end TableState

/-- **A step of an app or of the stack.** There are at most `MAX_APP_AMOUNT`
apps. -/
def tableStep (s : TableState) : TableEvent → Option TableState
  | .create app | .accept app =>
    if app < maxAppAmount then some (s.mapSocketRegion app) else none
  | .map id =>
    if s.localHighest id.appIndex < id.socketIndex ∧ s.Created id then
      some (s.map id)
    else none
  | .serve id =>
    if id ∈ s.mapped then some { s with
      accesses := s.accesses ++ [(.socketPtrs, id), (.socketFutexes, id)] }
    else none
  | .close id => if id ∈ s.mapped then some (s.write id none) else none
  | .popClose id =>
    if id ∈ s.mapped then
      some { s with accesses := s.accesses ++ [(.sockets, id)] }
    else none
  | .poll id =>
    if s.Created id then
      some { s with accesses := s.accesses ++ [(.sockets, id)] }
    else none

/-- The steps as a relation. -/
def TableStep (s : TableState) (e : TableEvent) (t : TableState) : Prop :=
  tableStep s e = some t

namespace TableState

/-- No sockets. -/
def initial : TableState :=
  ⟨fun _ => 0, fun _ => 0, fun _ => none, [], [], []⟩

/-- **Each socket owns its slot**: every index is within its table, and no
write for a socket goes to the cell of a socket of another app. -/
def OwnSlots (s : TableState) : Prop :=
  (∀ access ∈ s.accesses, access.2.socketIndex < maxSocketsPerApp)
  ∧ ∀ id ∈ s.writes, ∀ other, s.Created other →
    other.appIndex ≠ id.appIndex → cell other ≠ cell id

end TableState

open TableState

/-- **The invariant**: only sockets that exist are mapped and accessed, and
each was accessed when it was created. -/
structure TableInv (s : TableState) : Prop where
  accesses : ∀ access ∈ s.accesses, s.Created access.2
  writes : ∀ id ∈ s.writes, s.Created id
  mapped : ∀ id ∈ s.mapped, s.Created id
  created : ∀ id, s.Created id → (SocketTable.sockets, id) ∈ s.accesses

variable {s t : TableState}

/-- A step that accesses sockets that exist. -/
theorem TableInv.access {accesses : List (SocketTable × PifusSocketIdentifier)}
    (h : TableInv s) (hhighest : t.highest = s.highest)
    (haccesses : t.accesses = s.accesses ++ accesses)
    (hcreated : ∀ access ∈ accesses, s.Created access.2)
    (hwrites : ∀ id ∈ t.writes, s.Created id)
    (hmapped : ∀ id ∈ t.mapped, s.Created id) : TableInv t := by
  have hsame : ∀ id, t.Created id ↔ s.Created id := fun id => by
    rw [Created, Created, hhighest]
  refine ⟨fun access hmem => ?_, fun id hmem => (hsame id).mpr (hwrites id hmem),
    fun id hmem => (hsame id).mpr (hmapped id hmem), fun id hid => ?_⟩
  · rw [haccesses] at hmem
    refine (hsame _).mpr ?_
    rcases List.mem_append.mp hmem with hold | hnew
    · exact h.accesses access hold
    · exact hcreated access hnew
  · rw [haccesses]
    exact List.mem_append_left _ (h.created id ((hsame id).mp hid))

/-- An app creates or accepts a socket. -/
theorem TableInv.mapSocketRegion {app : ℕ} (h : TableInv s) :
    TableInv (s.mapSocketRegion app) := by
  have hmono : ∀ id, s.Created id → (s.mapSocketRegion app).Created id := by
    rintro id ⟨hpos, hle⟩
    refine ⟨hpos, ?_⟩
    show id.socketIndex
      ≤ Function.update s.highest app (s.highest app + 1) id.appIndex
    by_cases happ : id.appIndex = app
    · rw [happ, Function.update_self]
      rw [happ] at hle
      exact Nat.le_succ_of_le hle
    · rwa [Function.update_of_ne happ]
  refine ⟨fun access hmem => ?_, fun id hid => hmono id (h.writes id hid),
    fun id hid => hmono id (h.mapped id hid), fun id hid => ?_⟩
  · rcases List.mem_append.mp hmem with hold | hnew
    · exact hmono _ (h.accesses access hold)
    · rw [List.mem_singleton.mp hnew]
      refine ⟨Nat.succ_pos _, ?_⟩
      show s.highest app + 1
        ≤ Function.update s.highest app (s.highest app + 1) app
      exact Nat.le_of_eq (Function.update_self app _ s.highest).symm
  · obtain ⟨hpos, hle⟩ := hid
    by_cases hnew : id = ⟨app, s.highest app + 1⟩
    · rw [hnew]
      exact List.mem_append_right _ (List.mem_singleton.mpr rfl)
    · refine List.mem_append_left _ (h.created id ⟨hpos, ?_⟩)
      have hle : id.socketIndex
        ≤ Function.update s.highest app (s.highest app + 1) id.appIndex := hle
      by_cases happ : id.appIndex = app
      · subst happ
        rw [Function.update_self] at hle
        have hne : id.socketIndex ≠ s.highest id.appIndex + 1 :=
          fun heq => hnew (by rw [← heq])
        omega
      · rwa [Function.update_of_ne happ] at hle

/-- **Every step keeps the invariant.** -/
theorem TableInv.step {e : TableEvent} (h : TableInv s)
    (hs : TableStep s e t) : TableInv t := by
  unfold TableStep at hs
  cases e with
  | create app | accept app =>
    rw [tableStep] at hs
    split at hs
    · obtain rfl := Option.some.inj hs
      exact h.mapSocketRegion
    · exact absurd hs (by simp)
  | map id =>
    rw [tableStep] at hs
    split at hs
    · rename_i hid
      obtain rfl := Option.some.inj hs
      have hsingle : ∀ other ∈ [id], s.Created other :=
        List.forall_mem_singleton.mpr hid.2
      exact h.access rfl rfl (List.forall_mem_singleton.mpr hid.2)
        (List.forall_mem_append.mpr ⟨h.writes, hsingle⟩)
        (List.forall_mem_append.mpr ⟨h.mapped, hsingle⟩)
    · exact absurd hs (by simp)
  | serve id =>
    rw [tableStep] at hs
    split at hs
    · rename_i hid
      obtain rfl := Option.some.inj hs
      have hcreated := h.mapped id hid
      exact h.access rfl rfl (List.forall_mem_cons.mpr
        ⟨hcreated, List.forall_mem_singleton.mpr hcreated⟩) h.writes h.mapped
    · exact absurd hs (by simp)
  | close id =>
    rw [tableStep] at hs
    split at hs
    · rename_i hid
      obtain rfl := Option.some.inj hs
      have hcreated := h.mapped id hid
      exact h.access rfl rfl (List.forall_mem_singleton.mpr hcreated)
        (List.forall_mem_append.mpr
          ⟨h.writes, List.forall_mem_singleton.mpr hcreated⟩) h.mapped
    · exact absurd hs (by simp)
  | popClose id =>
    rw [tableStep] at hs
    split at hs
    · rename_i hid
      obtain rfl := Option.some.inj hs
      exact h.access rfl rfl (List.forall_mem_singleton.mpr (h.mapped id hid))
        h.writes h.mapped
    · exact absurd hs (by simp)
  | poll id =>
    rw [tableStep] at hs
    split at hs
    · rename_i hid
      obtain rfl := Option.some.inj hs
      exact h.access rfl rfl (List.forall_mem_singleton.mpr hid) h.writes h.mapped
    · exact absurd hs (by simp)

theorem tableInv_initial : TableInv initial :=
  ⟨by simp [initial], by simp [initial], by simp [initial],
    fun id hid => absurd hid.2 (Nat.not_le.mpr hid.1)⟩

theorem TableState.cell_div {id : PifusSocketIdentifier}
    (h : id.socketIndex < maxSocketsPerApp) :
    cell id / maxSocketsPerApp = id.appIndex := by
  rw [cell, Nat.mul_comm, Nat.mul_add_div (Nat.zero_lt_of_lt h),
    Nat.div_eq_of_lt h, Nat.add_zero]

/-- **When each socket owns its slot**: as long as no app has created and
accepted more sockets than its row has entries behind the first one, and no
longer. -/
theorem own_slots_iff {es : List TableEvent} (h : Run TableStep initial es s) :
    s.OwnSlots ↔ ∀ app, s.highest app < maxSocketsPerApp := by
  have hinv : TableInv s := h.invariant TableInv tableInv_initial
    (fun _ _ _ hI hs => hI.step hs)
  constructor
  · rintro ⟨hbound, -⟩ app
    rcases Nat.eq_zero_or_pos (s.highest app) with hzero | hpos
    · rw [hzero]
      decide
    · exact hbound _ (hinv.created ⟨app, s.highest app⟩ ⟨hpos, Nat.le_refl _⟩)
  · intro hcount
    have hlt : ∀ id, s.Created id → id.socketIndex < maxSocketsPerApp :=
      fun id hid => Nat.lt_of_le_of_lt hid.2 (hcount id.appIndex)
    refine ⟨fun access hmem => hlt _ (hinv.accesses access hmem),
      fun id hid other hother hne heq => hne ?_⟩
    rw [← cell_div (hlt other hother), heq,
      cell_div (hlt id (hinv.writes id hid))]

/-- Two apps with a socket each. -/
theorem own_slots_iff_two :
    ∃ s : TableState, s.writes = [⟨0, 1⟩, ⟨1, 1⟩] ∧ (s.OwnSlots ↔
      ∀ app, s.highest app < maxSocketsPerApp) := by
  have hs : ([.create 0, .map ⟨0, 1⟩, .accept 1, .map ⟨1, 1⟩].foldlM tableStep
      initial).map (fun s => s.writes) = some [⟨0, 1⟩, ⟨1, 1⟩] := by
    decide +kernel
  obtain ⟨s, hrun, hwrites⟩ := Option.map_eq_some_iff.mp hs
  exact ⟨s, hwrites, own_slots_iff (Run.of_foldlM hrun)⟩

/-- **The socket with the number 128 of an app** is registered in the cell of
the first socket of the next app. -/
theorem slot_of_next_app_overwritten :
    ∃ (es : List TableEvent) (s : TableState),
      Run TableStep initial es s
        ∧ ⟨1, 1⟩ ∈ s.mapped ∧ s.socketPtrs (cell ⟨1, 1⟩) = some ⟨0, 128⟩
        ∧ ¬ s.OwnSlots := by
  let es : List TableEvent :=
    [.create 1, .map ⟨1, 1⟩] ++ List.replicate 128 (.create 0)
      ++ [.map ⟨0, 128⟩]
  have hs : (es.foldlM tableStep initial).any (fun s =>
      ⟨1, 1⟩ ∈ s.mapped ∧ s.socketPtrs (cell ⟨1, 1⟩) = some ⟨0, 128⟩
      ∧ s.Created ⟨1, 1⟩ ∧ ⟨0, 128⟩ ∈ s.writes) = true := by
    decide +kernel
  obtain ⟨s, hrun, hp⟩ := (Option.any_eq_true _ _).mp hs
  obtain ⟨hmapped, hcell, hcreated, hwrite⟩ := of_decide_eq_true hp
  exact ⟨es, s, Run.of_foldlM hrun, hmapped, hcell, fun hown =>
    hown.2 _ hwrite _ hcreated (by simp) (by decide)⟩
