import Mathlib.Data.List.Range
import Mathlib.Logic.Function.Basic
import Pifus.Constants
import Pifus.Util.Transition

/-!
# The discovery thread and its futexes

`discovery_thread_loop` counts the regions of apps, looks for new sockets of each
app in `fill_waitv`, and then sleeps in `futex_waitv` until one of the apps
publishes a socket, or a second has passed. A word it waits for is
`highest_socket_number` of an app, and the value it expects there is the shadow in
`app_futexes`, which `handle_new_sockets` has read before `map_new_sockets` reads
the same word again.

Apps publish sockets all the while, also those that `fill_waitv` has left behind.
What is to be shown is that the thread does not sleep on them
(`discovery_sleeps_on_no_socket`): `futex_waitv` compares all words to what was
read before the sockets were looked for. An app increments its number before it
calls `futex_wake`, so a socket may be new while its wake-up is still to come.

What `map_new_sockets` does with a region is in `Pifus.Discovery` and
`Pifus.NewSockets`; here a region is mapped, or `shm_open` fails because the app
has unlinked its name. The apps are those whose regions the stack maps, under
their numbers, and these are counted without a bound, where the code has 32 bits.
-/

/-- Where the discovery thread stands. `filling` is whether
`handle_new_sockets` was called in `fill_waitv`. -/
inductive ScanPc
  /-- In the loop of `scan_for_app_regions`. -/
  | scanning
  /-- At the head of the loop of `fill_waitv`. -/
  | filling (app : ℕ)
  /-- In front of the read of the shadow in `handle_new_sockets`. -/
  | shadowing (app : ℕ) (filling : Bool)
  /-- In front of the read of `highest_socket_number` in `map_new_sockets`. -/
  | comparing (app : ℕ) (filling : Bool)
  /-- In front of `shm_open_region` in `map_new_sockets`. -/
  | mapping (app i last : ℕ) (filling : Bool)
  /-- In front of `futex_waitv`. -/
  | waiting
  /-- Blocked in `futex_waitv`. -/
  | sleeping
  deriving DecidableEq

/-- The apps and the discovery thread. -/
structure ScanState where
  /-- The region of an app has its name. -/
  started : ℕ → Bool
  /-- `highest_socket_number` of each app. -/
  highest : ℕ → ℕ
  /-- The region of a socket has its name. -/
  linked : ℕ → ℕ → Bool
  /-- The app is in front of `futex_wake(&app_state->highest_socket_number)`. -/
  waking : ℕ → Bool
  /-- `next_app_number`. -/
  nextAppNumber : ℕ
  /-- `app_futexes`. -/
  appFutexes : ℕ → ℕ
  /-- `app_local_highest_socket_number`. -/
  localHighest : ℕ → ℕ
  /-- The socket was mapped into `socket_ptrs`. -/
  mapped : ℕ → ℕ → Bool
  /-- `app_from_futex_nr` and the values in `waitvs`. -/
  waitvs : List (ℕ × ℕ)
  pc : ScanPc

/-- What can happen next. -/
inductive ScanEvent
  /-- An app creates its region. -/
  | start (app : ℕ)
  /-- An app creates the region of a socket and increments
  `highest_socket_number`. -/
  | publish (app : ℕ)
  /-- The app calls `futex_wake`. -/
  | wake (app : ℕ)
  /-- The app unlinks the region of a socket. -/
  | unlink (app i : ℕ)
  /-- A second has passed. -/
  | timeout
  /-- The discovery thread takes its next step. -/
  | tick
  deriving DecidableEq

namespace ScanState

/-- A table of the apps and their sockets with another entry. -/
def setEntry (f : ℕ → ℕ → Bool) (k i : ℕ) (b : Bool) : ℕ → ℕ → Bool :=
  Function.update f k (Function.update (f k) i b)

/-- The entry of `fill_waitv` for an app. -/
def fill (s : ScanState) (k : ℕ) : ScanState :=
  { s with waitvs := s.waitvs ++ [(k, s.appFutexes k)], pc := .filling (k + 1) }

/-- Behind `handle_new_sockets`. -/
def handled (s : ScanState) (k : ℕ) (filling : Bool) : ScanState :=
  if filling then s.fill k else { s with pc := .scanning }

/-- A round of the loop of `map_new_sockets`; where `shm_open` fails,
`app_local_highest_socket_number` stays. -/
def mapSocket (s : ScanState) (k i : ℕ) : ScanState :=
  if s.linked k i then
    { s with
      mapped := setEntry s.mapped k i true
      localHighest := Function.update s.localHighest k i }
  else s

/-- The next step of the discovery thread. -/
def next (s : ScanState) : Option ScanState :=
  match s.pc with
  | .scanning =>
    if s.nextAppNumber < maxAppAmount ∧ s.started s.nextAppNumber then
      some { s with nextAppNumber := s.nextAppNumber + 1 }
    else some { s with waitvs := [], pc := .filling 0 }
  | .filling k =>
    if k < s.nextAppNumber then
      if s.highest k ≠ s.appFutexes k then
        some { s with pc := .shadowing k true }
      else some (s.fill k)
    else if s.waitvs ≠ [] then some { s with pc := .waiting }
    else some { s with pc := .scanning }
  | .shadowing k filling => some { s with
      appFutexes := Function.update s.appFutexes k (s.highest k)
      pc := .comparing k filling }
  | .comparing k filling =>
    if s.localHighest k < s.highest k then
      some { s with
        pc := .mapping k (s.localHighest k + 1) (s.highest k) filling }
    else some (s.handled k filling)
  | .mapping k i last filling =>
    let s := s.mapSocket k i
    if i + 1 ≤ last then some { s with pc := .mapping k (i + 1) last filling }
    else some (s.handled k filling)
  | .waiting =>
    -- a word that has changed makes `futex_waitv` return at once
    if ∀ w ∈ s.waitvs, s.highest w.1 = w.2 then some { s with pc := .sleeping }
    else some { s with pc := .scanning }
  | .sleeping => none

end ScanState

/-- **A step of an app or of the discovery thread.** -/
def scanStep (s : ScanState) : ScanEvent → Option ScanState
  | .start k => some { s with started := Function.update s.started k true }
  | .publish k =>
    if s.waking k then none
    else some { s with
      highest := Function.update s.highest k (s.highest k + 1)
      linked := ScanState.setEntry s.linked k (s.highest k + 1) true
      waking := Function.update s.waking k true }
  | .wake k =>
    if s.waking k then
      some { s with
        waking := Function.update s.waking k false
        pc := if s.pc = .sleeping ∧ k ∈ s.waitvs.map Prod.fst then
            .shadowing k false
          else s.pc }
    else none
  | .unlink k i => some { s with linked := ScanState.setEntry s.linked k i false }
  | .timeout =>
    if s.pc = .sleeping then some { s with pc := .scanning } else none
  | .tick => s.next

/-- The steps as a relation. -/
def ScanStep (s : ScanState) (e : ScanEvent) (t : ScanState) : Prop :=
  scanStep s e = some t

namespace ScanState

/-- The stack has just started, and no app has. -/
def initial : ScanState :=
  ⟨fun _ => false, fun _ => 0, fun _ _ => false, fun _ => false, 0, fun _ => 0,
    fun _ => 0, fun _ _ => false, [], .scanning⟩

/-- **The sockets of an app up to this one are settled**: each is mapped, or its
app has unlinked it. -/
def Settled (s : ScanState) (k last : ℕ) : Prop :=
  ∀ i, 0 < i → i ≤ last → s.linked k i = true → s.mapped k i = true

/-- What `fill_waitv` has made of the first apps. -/
def entries (s : ScanState) (n : ℕ) : List (ℕ × ℕ) :=
  (List.range n).map (fun k => (k, s.appFutexes k))

/-- The app whose sockets are being looked for. -/
def busy (s : ScanState) : Option ℕ :=
  match s.pc with
  | .comparing k _ | .mapping k _ _ _ => some k
  | _ => none

/-- What the thread knows where it stands. -/
def PcOk (s : ScanState) : Prop :=
  match s.pc with
  | .scanning => True
  | .filling k => k ≤ s.nextAppNumber ∧ s.waitvs = s.entries k
  | .shadowing k filling | .comparing k filling =>
    filling = true → k < s.nextAppNumber ∧ s.waitvs = s.entries k
  | .mapping k i last filling =>
    (filling = true → k < s.nextAppNumber ∧ s.waitvs = s.entries k)
      ∧ 0 < i ∧ i ≤ last ∧ s.appFutexes k ≤ last ∧ last ≤ s.highest k
      ∧ s.Settled k (i - 1)
  | .waiting => s.waitvs = s.entries s.nextAppNumber
  | .sleeping => s.waitvs = s.entries s.nextAppNumber
      ∧ ∀ k < s.nextAppNumber, s.highest k = s.appFutexes k ∨ s.waking k = true

end ScanState

/-- **The invariant**: the sockets of an app up to its shadow are settled, unless
they are being looked for. -/
structure ScanInv (s : ScanState) : Prop where
  linked : ∀ k i, s.linked k i = true → i ≤ s.highest k
  shadow : ∀ k, s.appFutexes k ≤ s.highest k
  localHighest : ∀ k, s.localHighest k ≤ s.highest k
  seen : ∀ k, s.Settled k (s.localHighest k)
  settled : ∀ k, s.busy ≠ some k → s.Settled k (s.appFutexes k)
  pc : s.PcOk

variable {s t : ScanState} {k l i j last v : ℕ} {filling : Bool}

/-! ## Settled sockets -/

theorem ScanState.setEntry_apply (f : ℕ → ℕ → Bool) (b : Bool) :
    ScanState.setEntry f k i b l j = if l = k ∧ j = i then b else f l j := by
  unfold ScanState.setEntry
  by_cases hl : l = k
  · subst hl
    rw [Function.update_self]
    by_cases hj : j = i
    · rw [hj, Function.update_self, if_pos ⟨rfl, rfl⟩]
    · rw [Function.update_of_ne hj, if_neg (fun h => hj h.2)]
  · rw [Function.update_of_ne hl, if_neg (fun h => hl h.1)]

theorem ScanState.Settled.of (h : s.Settled k v)
    (hlinked : ∀ i, 0 < i → i ≤ v → t.linked k i = true → s.linked k i = true)
    (hmapped : ∀ i, s.mapped k i = true → t.mapped k i = true) : t.Settled k v :=
  fun i hpos hle hi => hmapped i (h i hpos hle (hlinked i hpos hle hi))

theorem ScanState.Settled.mono (h : s.Settled k last) (hle : v ≤ last) :
    s.Settled k v := fun i hpos hi => h i hpos (Nat.le_trans hi hle)

/-- The next socket is tried. -/
theorem ScanState.Settled.mapSocket (h : s.Settled k (i - 1)) :
    (s.mapSocket k i).Settled k i := by
  intro j hpos hle hj
  unfold ScanState.mapSocket at hj ⊢
  by_cases hlinked : s.linked k i = true
  · rw [if_pos hlinked] at hj ⊢
    show ScanState.setEntry s.mapped k i true k j = true
    rw [ScanState.setEntry_apply]
    split
    · rfl
    · rename_i hne
      have hji : j ≠ i := fun heq => hne ⟨rfl, heq⟩
      exact h j hpos (by omega) hj
  · rw [if_neg hlinked] at hj ⊢
    have hji : j ≠ i := fun heq => hlinked (heq ▸ hj)
    exact h j hpos (by omega) hj

theorem ScanState.mapped_mapSocket (h : s.mapped l j = true) :
    (s.mapSocket k i).mapped l j = true := by
  unfold ScanState.mapSocket
  split
  · show ScanState.setEntry s.mapped k i true l j = true
    rw [ScanState.setEntry_apply]
    split
    · rfl
    · exact h
  · exact h

/-- What else trying a socket changes. -/
theorem ScanState.mapSocket_frame (s : ScanState) (k i : ℕ) :
    (s.mapSocket k i).linked = s.linked
    ∧ (s.mapSocket k i).highest = s.highest
    ∧ (s.mapSocket k i).appFutexes = s.appFutexes
    ∧ (s.mapSocket k i).nextAppNumber = s.nextAppNumber
    ∧ (s.mapSocket k i).waitvs = s.waitvs
    ∧ (∀ l, (s.mapSocket k i).localHighest l = s.localHighest l
      ∨ l = k ∧ (s.mapSocket k i).localHighest l = i) := by
  unfold ScanState.mapSocket
  split
  · refine ⟨rfl, rfl, rfl, rfl, rfl, fun l => ?_⟩
    by_cases hl : l = k
    · exact Or.inr ⟨hl, by rw [hl]; exact Function.update_self _ _ _⟩
    · exact Or.inl (Function.update_of_ne hl _ _)
  · exact ⟨rfl, rfl, rfl, rfl, rfl, fun l => Or.inl rfl⟩

/-! ## The apps -/

namespace ScanInv

/-- **A step of an app**: it may publish sockets, and unlink some. -/
theorem frame (h : ScanInv s) (hpc : t.pc = s.pc)
    (hnext : t.nextAppNumber = s.nextAppNumber)
    (hfutexes : t.appFutexes = s.appFutexes)
    (hlocal : t.localHighest = s.localHighest) (hmapped : t.mapped = s.mapped)
    (hwaitvs : t.waitvs = s.waitvs) (hhighest : ∀ k, s.highest k ≤ t.highest k)
    (hlinked : ∀ k i, t.linked k i = true →
      s.linked k i = true ∨ i = s.highest k + 1 ∧ t.highest k = i)
    (hsleeping : s.pc = .sleeping → ∀ k < s.nextAppNumber,
      s.highest k = s.appFutexes k ∨ s.waking k = true →
      t.highest k = s.appFutexes k ∨ t.waking k = true) : ScanInv t := by
  have hsettled : ∀ {k v}, v ≤ s.highest k → s.Settled k v → t.Settled k v := by
    intro k v hv hs
    refine hs.of (fun i _ hi hlink => ?_) (fun i hi => by rw [hmapped]; exact hi)
    rcases hlinked k i hlink with hold | ⟨rfl, -⟩
    · exact hold
    · omega
  have hbusy : t.busy = s.busy := by
    unfold ScanState.busy
    rw [hpc]
  refine ⟨fun k i hi => ?_, fun k => ?_, fun k => ?_, fun k => ?_,
    fun k hk => ?_, ?_⟩
  · rcases hlinked k i hi with hold | ⟨-, hnew⟩
    · exact (h.linked k i hold).trans (hhighest k)
    · exact hnew.ge
  · rw [hfutexes]
    exact (h.shadow k).trans (hhighest k)
  · rw [hlocal]
    exact (h.localHighest k).trans (hhighest k)
  · rw [hlocal]
    exact hsettled (h.localHighest k) (h.seen k)
  · rw [hfutexes]
    exact hsettled (h.shadow k) (h.settled k (hbusy ▸ hk))
  · have hentries : ∀ n, t.entries n = s.entries n := fun n => by
      rw [ScanState.entries, hfutexes]
      rfl
    have hok := h.pc
    unfold ScanState.PcOk at hok ⊢
    simp only [hpc, hnext, hfutexes, hwaitvs, hentries]
    cases hcase : s.pc with
    | mapping k i last filling =>
      rw [hcase] at hok
      obtain ⟨hfill, hpos, hle, hshadow, hlast, hset⟩ := hok
      exact ⟨hfill, hpos, hle, hshadow, hlast.trans (hhighest k),
        hsettled (by omega) hset⟩
    | sleeping =>
      rw [hcase] at hok
      exact ⟨hok.1, fun k hk => hsleeping hcase k hk (hok.2 k hk)⟩
    | _ =>
      rw [hcase] at hok
      exact hok

/-- An app publishes a socket. -/
theorem publish (h : ScanInv s) (k : ℕ) :
    ScanInv { s with
      highest := Function.update s.highest k (s.highest k + 1)
      linked := ScanState.setEntry s.linked k (s.highest k + 1) true
      waking := Function.update s.waking k true } := by
  refine h.frame rfl rfl rfl rfl rfl rfl (fun l => ?_) (fun l i hi => ?_)
    (fun _ l _ hl => ?_)
  · dsimp only
    by_cases hl : l = k
    · rw [hl, Function.update_self]
      exact Nat.le_succ _
    · rw [Function.update_of_ne hl]
  · change ScanState.setEntry s.linked k (s.highest k + 1) true l i = true at hi
    rw [ScanState.setEntry_apply] at hi
    split at hi
    · rename_i heq
      obtain ⟨rfl, rfl⟩ := heq
      exact Or.inr ⟨rfl, Function.update_self _ _ _⟩
    · exact Or.inl hi
  · dsimp only
    by_cases hlk : l = k
    · rw [hlk]
      exact Or.inr (Function.update_self _ _ _)
    · rw [Function.update_of_ne hlk, Function.update_of_ne hlk]
      exact hl

theorem unlink (h : ScanInv s) (k i : ℕ) :
    ScanInv { s with linked := ScanState.setEntry s.linked k i false } := by
  refine h.frame rfl rfl rfl rfl rfl rfl (fun l => Nat.le_refl _) (fun l j hj => ?_)
    (fun _ l _ hl => hl)
  change ScanState.setEntry s.linked k i false l j = true at hj
  rw [ScanState.setEntry_apply] at hj
  split at hj
  · exact absurd hj (by simp)
  · exact Or.inl hj

/-! ## The discovery thread -/

theorem goto {waitvs : List (ℕ × ℕ)} {pc : ScanPc} (h : ScanInv s)
    (hsettled : ∀ k, ScanState.busy { s with waitvs := waitvs, pc := pc } ≠ some k →
      s.busy = some k → s.Settled k (s.appFutexes k))
    (hok : ScanState.PcOk { s with waitvs := waitvs, pc := pc }) :
    ScanInv { s with waitvs := waitvs, pc := pc } := by
  refine ⟨h.linked, h.shadow, h.localHighest, h.seen, fun k hk => ?_, hok⟩
  by_cases hbusy : s.busy = some k
  · exact hsettled k hk hbusy
  · exact h.settled k hbusy

/-- The thread goes on behind a socket that it has tried. -/
theorem mapSocket_goto {waitvs : List (ℕ × ℕ)} {pc : ScanPc} (h : ScanInv s)
    (hpc : s.pc = .mapping k i last filling)
    (hsettled : ScanState.busy
        { s.mapSocket k i with waitvs := waitvs, pc := pc } ≠ some k →
      (s.mapSocket k i).Settled k (s.appFutexes k))
    (hok : ScanState.PcOk
      { s.mapSocket k i with waitvs := waitvs, pc := pc }) :
    ScanInv { s.mapSocket k i with waitvs := waitvs, pc := pc } := by
  obtain ⟨hlinked, hhighest, hfutexes, -, -, hlocal⟩ := s.mapSocket_frame k i
  have hpcOk := h.pc
  rw [ScanState.PcOk, hpc] at hpcOk
  obtain ⟨-, hpos, hle, -, hlast, hset⟩ := hpcOk
  have hkept : ∀ {l v}, s.Settled l v → (s.mapSocket k i).Settled l v :=
    fun hs => hs.of (fun j _ _ hj => hlinked ▸ hj)
      (fun j hj => ScanState.mapped_mapSocket hj)
  refine ⟨fun l j hj => ?_, fun l => ?_, fun l => ?_, fun l => ?_, fun l hl => ?_,
    hok⟩
  · show j ≤ (s.mapSocket k i).highest l
    rw [hhighest]
    exact h.linked l j (hlinked ▸ hj)
  · show (s.mapSocket k i).appFutexes l ≤ (s.mapSocket k i).highest l
    rw [hhighest, hfutexes]
    exact h.shadow l
  · show (s.mapSocket k i).localHighest l ≤ (s.mapSocket k i).highest l
    rw [hhighest]
    rcases hlocal l with hsame | ⟨rfl, hnew⟩
    · rw [hsame]
      exact h.localHighest l
    · rw [hnew]
      exact hle.trans hlast
  · show (s.mapSocket k i).Settled l ((s.mapSocket k i).localHighest l)
    rcases hlocal l with hsame | ⟨rfl, hnew⟩
    · rw [hsame]
      exact hkept (h.seen l)
    · rw [hnew]
      exact hset.mapSocket
  · show (s.mapSocket k i).Settled l ((s.mapSocket k i).appFutexes l)
    rw [hfutexes]
    by_cases hlk : l = k
    · subst hlk
      exact hsettled hl
    · refine hkept (h.settled l ?_)
      rw [ScanState.busy, hpc]
      exact fun heq => hlk (Option.some.inj heq).symm

end ScanInv

theorem ScanState.entries_succ (s : ScanState) (k : ℕ) :
    s.entries (k + 1) = s.entries k ++ [(k, s.appFutexes k)] := by
  rw [entries, List.range_succ, List.map_append]
  rfl

theorem ScanState.pcOk_handled
    (hfill : filling = true → k < s.nextAppNumber ∧ s.waitvs = s.entries k) :
    (s.handled k filling).PcOk := by
  unfold handled
  cases filling with
  | false => trivial
  | true =>
    obtain ⟨hlt, hwaitvs⟩ := hfill rfl
    refine ⟨hlt, ?_⟩
    show s.waitvs ++ [(k, s.appFutexes k)] = s.entries (k + 1)
    rw [s.entries_succ, hwaitvs]

namespace ScanInv

/-- `handle_new_sockets` reads the shadow. -/
theorem readShadow (h : ScanInv s) (hpc : s.pc = .shadowing k filling) :
    ScanInv { s with
      appFutexes := Function.update s.appFutexes k (s.highest k)
      pc := .comparing k filling } := by
  have hpcOk := h.pc
  rw [ScanState.PcOk, hpc] at hpcOk
  have hbusy : s.busy = none := by rw [ScanState.busy, hpc]
  refine ⟨h.linked, fun l => ?_, h.localHighest, h.seen, fun l hl => ?_,
    fun hf => ⟨(hpcOk hf).1, ?_⟩⟩
  · dsimp only
    by_cases hlk : l = k
    · rw [hlk, Function.update_self]
    · rw [Function.update_of_ne hlk]
      exact h.shadow l
  · have hlk : l ≠ k := fun heq => hl (by rw [heq]; rfl)
    dsimp only
    rw [Function.update_of_ne hlk]
    exact h.settled l (by rw [hbusy]; simp)
  · refine (hpcOk hf).2.trans (List.map_congr_left (fun l hl => ?_))
    have hlk : l ≠ k := Nat.ne_of_lt (List.mem_range.mp hl)
    dsimp only
    rw [Function.update_of_ne hlk]

/-- **The next step of the discovery thread.** -/
theorem next (h : ScanInv s) (hs : s.next = some t) : ScanInv t := by
  have hpcOk := h.pc
  unfold ScanState.PcOk at hpcOk
  unfold ScanState.next at hs
  have hidle : ∀ {pc : ScanPc} {waitvs : List (ℕ × ℕ)}, s.busy = none →
      ScanState.PcOk { s with waitvs := waitvs, pc := pc } →
      ScanInv { s with waitvs := waitvs, pc := pc } := fun hbusy hok =>
    h.goto (fun k _ hk => absurd (hbusy.symm.trans hk) (by simp)) hok
  cases hpc : s.pc with
  | scanning =>
    rw [hpc] at hs
    dsimp only at hs
    have hbusy : s.busy = none := by rw [ScanState.busy, hpc]
    split at hs
    · obtain rfl := Option.some.inj hs
      refine ⟨h.linked, h.shadow, h.localHighest, h.seen, fun k _ => ?_, ?_⟩
      · exact h.settled k (by rw [hbusy]; simp)
      · unfold ScanState.PcOk
        dsimp only
    · obtain rfl := Option.some.inj hs
      exact hidle hbusy ⟨Nat.zero_le _, rfl⟩
  | filling k =>
    rw [hpc] at hs hpcOk
    have hbusy : s.busy = none := by rw [ScanState.busy, hpc]
    obtain ⟨hle, hwaitvs⟩ := hpcOk
    dsimp only at hs
    split at hs
    · rename_i hlt
      split at hs
      · obtain rfl := Option.some.inj hs
        exact hidle hbusy (fun _ => ⟨hlt, hwaitvs⟩)
      · obtain rfl := Option.some.inj hs
        refine hidle hbusy ⟨hlt, ?_⟩
        show s.waitvs ++ [(k, s.appFutexes k)] = s.entries (k + 1)
        rw [s.entries_succ, hwaitvs]
    · obtain rfl : k = s.nextAppNumber := by omega
      split at hs
      · obtain rfl := Option.some.inj hs
        exact hidle hbusy hwaitvs
      · obtain rfl := Option.some.inj hs
        exact hidle hbusy trivial
  | shadowing k filling =>
    rw [hpc] at hs
    obtain rfl := Option.some.inj hs
    exact h.readShadow hpc
  | comparing k filling =>
    rw [hpc] at hs hpcOk
    have hbusy : s.busy = some k := by rw [ScanState.busy, hpc]
    dsimp only at hs
    split at hs
    · rename_i hlt
      obtain rfl := Option.some.inj hs
      refine h.goto (fun l hl hl' => absurd (hbusy.symm.trans hl') hl)
        ⟨hpcOk, Nat.succ_pos _, hlt, h.shadow k, Nat.le_refl _, ?_⟩
      exact h.seen k
    · rename_i hnot
      -- there is nothing new, so what was seen before is all there is
      have hset : s.Settled k (s.appFutexes k) :=
        (h.seen k).mono ((h.shadow k).trans (Nat.le_of_not_lt hnot))
      have hk : ∀ l, s.busy = some l → s.Settled l (s.appFutexes l) := by
        intro l hl
        obtain rfl := Option.some.inj (hbusy.symm.trans hl)
        exact hset
      obtain rfl := Option.some.inj hs
      have hok := ScanState.pcOk_handled hpcOk
      unfold ScanState.handled at hok ⊢
      cases filling with
      | true => exact h.goto (fun l _ hl => hk l hl) hok
      | false => exact h.goto (fun l _ hl => hk l hl) hok
  | mapping k i last filling =>
    rw [hpc] at hs hpcOk
    obtain ⟨hfill, hpos, hle, hshadow, hlast, hset⟩ := hpcOk
    obtain ⟨-, hhighest, hfutexes, hnext, hwaitvs, -⟩ := s.mapSocket_frame k i
    have hentries : (s.mapSocket k i).entries k = s.entries k := by
      rw [ScanState.entries, hfutexes]
      rfl
    have hfill' : filling = true → k < (s.mapSocket k i).nextAppNumber
        ∧ (s.mapSocket k i).waitvs = (s.mapSocket k i).entries k := by
      rw [hnext, hwaitvs, hentries]
      exact hfill
    dsimp only at hs
    split at hs
    · rename_i hmore
      obtain rfl := Option.some.inj hs
      refine h.mapSocket_goto hpc (fun hk => absurd rfl hk)
        ⟨hfill', Nat.succ_pos i, hmore, ?_, ?_, hset.mapSocket⟩
      · show (s.mapSocket k i).appFutexes k ≤ last
        rw [hfutexes]
        exact hshadow
      · show last ≤ (s.mapSocket k i).highest k
        rw [hhighest]
        exact hlast
    · rename_i hdone
      have hall : (s.mapSocket k i).Settled k (s.appFutexes k) :=
        hset.mapSocket.mono (by omega)
      obtain rfl := Option.some.inj hs
      have hok := ScanState.pcOk_handled hfill'
      unfold ScanState.handled at hok ⊢
      cases filling with
      | true => exact h.mapSocket_goto hpc (fun _ => hall) hok
      | false => exact h.mapSocket_goto hpc (fun _ => hall) hok
  | waiting =>
    rw [hpc] at hs hpcOk
    have hbusy : s.busy = none := by rw [ScanState.busy, hpc]
    dsimp only at hs
    split at hs
    · rename_i hsame
      obtain rfl := Option.some.inj hs
      refine hidle hbusy ⟨hpcOk, fun k hk => Or.inl ?_⟩
      refine hsame (k, s.appFutexes k) ?_
      rw [hpcOk]
      exact List.mem_map.mpr ⟨k, List.mem_range.mpr hk, rfl⟩
    · obtain rfl := Option.some.inj hs
      exact hidle hbusy trivial
  | sleeping => rw [hpc] at hs; exact absurd hs (by simp)

/-- An app wakes the thread. -/
theorem wake (h : ScanInv s) (k : ℕ) :
    ScanInv { s with
      waking := Function.update s.waking k false
      pc := if s.pc = .sleeping ∧ k ∈ s.waitvs.map Prod.fst then
          .shadowing k false
        else s.pc } := by
  by_cases hwoken : s.pc = .sleeping ∧ k ∈ s.waitvs.map Prod.fst
  · rw [if_pos hwoken]
    have hbusy : s.busy = none := by rw [ScanState.busy, hwoken.1]
    exact ⟨h.linked, h.shadow, h.localHighest, h.seen,
      fun l _ => h.settled l (by rw [hbusy]; simp), fun hf => absurd hf (by simp)⟩
  · rw [if_neg hwoken]
    refine h.frame rfl rfl rfl rfl rfl rfl (fun l => Nat.le_refl _)
      (fun l i hi => Or.inl hi) (fun hsleeping l hl hor => ?_)
    have hpcOk := h.pc
    rw [ScanState.PcOk, hsleeping] at hpcOk
    have hlk : l ≠ k := by
      rintro rfl
      refine hwoken ⟨hsleeping, ?_⟩
      rw [hpcOk.1]
      exact List.mem_map.mpr
        ⟨_, List.mem_map.mpr ⟨l, List.mem_range.mpr hl, rfl⟩, rfl⟩
    dsimp only
    rw [Function.update_of_ne hlk]
    exact hor

/-- **Every step keeps the invariant.** -/
theorem step {e : ScanEvent} (h : ScanInv s) (hs : ScanStep s e t) :
    ScanInv t := by
  unfold ScanStep at hs
  cases e with
  | start k =>
    obtain rfl := Option.some.inj hs
    exact h.frame rfl rfl rfl rfl rfl rfl (fun l => Nat.le_refl _)
      (fun l i hi => Or.inl hi) (fun _ l _ hl => hl)
  | publish k =>
    rw [scanStep] at hs
    split at hs
    · exact absurd hs (by simp)
    · obtain rfl := Option.some.inj hs
      exact h.publish k
  | wake k =>
    rw [scanStep] at hs
    split at hs
    · obtain rfl := Option.some.inj hs
      exact h.wake k
    · exact absurd hs (by simp)
  | unlink k i =>
    obtain rfl := Option.some.inj hs
    exact h.unlink k i
  | timeout =>
    rw [scanStep] at hs
    split at hs
    · rename_i hpc
      obtain rfl := Option.some.inj hs
      refine h.goto (fun k _ hk => ?_) trivial
      rw [ScanState.busy, hpc] at hk
      exact absurd hk (by simp)
    · exact absurd hs (by simp)
  | tick => exact h.next hs

end ScanInv

theorem scanInv_initial : ScanInv .initial :=
  ⟨fun _ _ hi => absurd hi (by simp [ScanState.initial]), fun _ => Nat.le_refl _,
    fun _ => Nat.le_refl _, fun _ _ _ _ hi => absurd hi (by simp [ScanState.initial]),
    fun _ _ _ _ _ hi => absurd hi (by simp [ScanState.initial]), trivial⟩

/-! ## Runs -/

/-- **The discovery thread sleeps on no socket**, whatever the interleaving of any
number of apps with it: where it sleeps, every socket of every app it knows is
mapped or has been unlinked by its app, or the app is in front of the wake-up. -/
theorem discovery_sleeps_on_no_socket {s : ScanState} {es : List ScanEvent}
    (h : Run ScanStep .initial es s) (hsleeping : s.pc = .sleeping) {k i : ℕ}
    (hk : k < s.nextAppNumber) (hpos : 0 < i) (hi : i ≤ s.highest k) :
    s.mapped k i = true ∨ s.linked k i = false ∨ s.waking k = true := by
  have hinv : ScanInv s := h.invariant ScanInv scanInv_initial
    (fun _ _ _ hI hs => hI.step hs)
  have hpcOk := hinv.pc
  rw [ScanState.PcOk, hsleeping] at hpcOk
  rcases hpcOk.2 k hk with hsame | hwaking
  · have hset := hinv.settled k (by rw [ScanState.busy, hsleeping]; simp)
    by_cases hlinked : s.linked k i = true
    · exact Or.inl (hset i hpos (hsame ▸ hi) hlinked)
    · exact Or.inr (Or.inl (eq_false_of_ne_true hlinked))
  · exact Or.inr (Or.inr hwaking)

/-- A socket is published while `fill_waitv` is through with its app; the thread
does not sleep, and finds it in the next pass. -/
theorem discovery_sleeps_on_no_socket_late :
    ∃ s : ScanState, s.pc = .sleeping ∧ s.mapped 0 1 = true
      ∧ (s.mapped 0 1 = true ∨ s.linked 0 1 = false ∨ s.waking 0 = true) := by
  have hs : ([.start 0, .tick, .tick, .tick, .publish 0, .tick, .tick, .wake 0,
      .tick, .tick, .tick, .tick, .tick, .tick, .tick].foldlM scanStep
      ScanState.initial).any (fun s => s.pc = .sleeping ∧ s.mapped 0 1 = true
        ∧ 0 < s.nextAppNumber ∧ 1 ≤ s.highest 0) = true := by decide +kernel
  obtain ⟨s, hrun, hp⟩ := (Option.any_eq_true _ _).mp hs
  obtain ⟨hpc, hmapped, hk, hi⟩ := of_decide_eq_true hp
  exact ⟨s, hpc, hmapped, discovery_sleeps_on_no_socket (Run.of_foldlM hrun) hpc hk
    (by decide) hi⟩
