import Mathlib.Data.List.Basic
import Mathlib.Logic.Function.Basic
import Pifus.Util.Transition

/-!
# Names of the shared memory

App and stack find each other's regions by name: `/app3` is the region of an
app, `/app3-socket2` that of a socket of it. An app creates a region only under a
name that is free (`O_EXCL`). For its own region it tries one number after the
other; for a socket there is only one name, and where `shm_open` fails,
`map_socket_region` ends the app. Names are given back one by one, that of a
socket when its `TCP_CLOSE` result is popped, and what is left in `pifus_exit`.

Any number of apps do this at the same time, and a number that was given back is
taken by the next app. What is to be shown is that no app finds one of its socket
names taken, and that a name leads to the app and the socket whose numbers are in
it (`names_lead_to_regions`). An app that dies without `pifus_exit` leaves its
names behind; there is none here.

A name is the list of its characters. Numbers are printed with `%u`, and are
below `2^32`.
-/

/-- `SHM_APP_NAME_PREFIX`. -/
def shmAppNamePrefix : List Char := ['/', 'a', 'p', 'p']

/-- `SHM_SOCKET_NAME_PREFIX`. -/
def shmSocketNamePrefix : List Char := ['-', 's', 'o', 'c', 'k', 'e', 't']

/-- The name of an app's region. -/
def appName (n : ℕ) : List Char := shmAppNamePrefix ++ Nat.toDigits 10 n

/-- The name of the region of a socket, as `map_socket_region`, `unlink_socket`,
`pifus_socket_exit_all` and `map_new_sockets` print it. -/
def socketName (n i : ℕ) : List Char :=
  appName n ++ shmSocketNamePrefix ++ Nat.toDigits 10 i

/-- Where an app stands. -/
inductive AppPc
  /-- In the loop of `create_app_shm_region`. -/
  | naming
  /-- Behind `pifus_initialize`. -/
  | running
  /-- In the loop of `pifus_socket_exit_all`, or behind it when the sockets are
  through. -/
  | exiting (i : ℕ)
  /-- Behind `pifus_exit`. -/
  | gone
  /-- Ended by `exit(1)` in `map_socket_region`. -/
  | aborted
  deriving DecidableEq

/-- A process that uses the library. -/
structure AppProcess where
  pc : AppPc
  /-- The number in `app_shm_name`. -/
  number : ℕ
  highestSocketNumber : ℕ
  /-- The sockets whose region has not been unlinked. -/
  linked : ℕ → Bool

/-- The names of the shared memory and the processes. -/
structure NamesState where
  names : List Char → Bool
  apps : ℕ → Option AppProcess

/-- What can happen next. -/
inductive NamesEvent
  /-- An app starts. -/
  | start (app : ℕ)
  /-- An app tries a name in `create_app_shm_region`. -/
  | tryName (app : ℕ)
  /-- An app calls `map_socket_region`. -/
  | socket (app : ℕ)
  /-- An app pops a `TCP_CLOSE` result: `unlink_socket`. -/
  | close (app i : ℕ)
  /-- An app calls `pifus_exit`. -/
  | exit (app : ℕ)
  /-- The next `shm_unlink` in `pifus_exit`. -/
  | unlink (app : ℕ)
  deriving DecidableEq

namespace NamesState

/-- `shm_open_region` with `create`: the name is taken, or there it is. -/
def create (s : NamesState) (name : List Char) : Option (List Char → Bool) :=
  if s.names name then none else some (Function.update s.names name true)

/-- `shm_unlink_region`. -/
def unlink (s : NamesState) (name : List Char) : List Char → Bool :=
  Function.update s.names name false

/-- The state with an app's next one. -/
def setApp (s : NamesState) (k : ℕ) (app : AppProcess) (names : List Char → Bool) :
    NamesState :=
  ⟨names, Function.update s.apps k (some app)⟩

/-- The next `shm_open` of `create_app_shm_region`. -/
def tryName (s : NamesState) (k : ℕ) (app : AppProcess) : NamesState :=
  match s.create (appName app.number) with
  | some names => s.setApp k { app with pc := .running } names
  | none => s.setApp k { app with number := app.number + 1 } s.names

/-- `map_socket_region`. -/
def socket (s : NamesState) (k : ℕ) (app : AppProcess) : NamesState :=
  let i := app.highestSocketNumber + 1
  match s.create (socketName app.number i) with
  | some names => s.setApp k { app with
      highestSocketNumber := i
      linked := Function.update app.linked i true } names
  | none => s.setApp k { app with pc := .aborted } s.names

/-- `unlink_socket`. -/
def close (s : NamesState) (k i : ℕ) (app : AppProcess) : NamesState :=
  s.setApp k { app with linked := Function.update app.linked i false }
    (s.unlink (socketName app.number i))

/-- The next `shm_unlink` of `pifus_exit`: of a socket while the loop of
`pifus_socket_exit_all` goes on, and then of the app. -/
def exitStep (s : NamesState) (k i : ℕ) (app : AppProcess) : NamesState :=
  if 0 < app.highestSocketNumber ∧ i ≤ app.highestSocketNumber then
    s.setApp k { app with
      pc := .exiting (i + 1)
      linked := Function.update app.linked i false }
      (s.unlink (socketName app.number i))
  else
    s.setApp k { app with pc := .gone } (s.unlink (appName app.number))

end NamesState

/-- **A step of an app.** The socket of a `TCP_CLOSE` result is one the app has
created. -/
def namesStep (s : NamesState) : NamesEvent → Option NamesState
  | .start k =>
    match s.apps k with
    | none => some (s.setApp k ⟨.naming, 0, 0, fun _ => false⟩ s.names)
    | some _ => none
  | .tryName k =>
    (s.apps k).bind (fun app =>
      if app.pc = .naming then some (s.tryName k app) else none)
  | .socket k =>
    (s.apps k).bind (fun app =>
      if app.pc = .running then some (s.socket k app) else none)
  | .close k i =>
    (s.apps k).bind (fun app =>
      if app.pc = .running ∧ 0 < i ∧ i ≤ app.highestSocketNumber then
        some (s.close k i app)
      else none)
  | .exit k =>
    (s.apps k).bind (fun app =>
      if app.pc = .running then
        some (s.setApp k { app with pc := .exiting 0 } s.names)
      else none)
  | .unlink k =>
    (s.apps k).bind (fun app =>
      match app.pc with
      | .exiting i => some (s.exitStep k i app)
      | _ => none)

/-- The steps as a relation. -/
def NamesStep (s : NamesState) (e : NamesEvent) (t : NamesState) : Prop :=
  namesStep s e = some t

/-- No names and no apps. -/
def NamesState.initial : NamesState := ⟨fun _ => false, fun _ => none⟩

/-- The app has its number: it has created its region and not unlinked it. -/
def AppProcess.Named (app : AppProcess) : Prop :=
  app.pc = .running ∨ ∃ i, app.pc = .exiting i

/-- The app has the number, and so its name. -/
def NamesState.HasNumber (s : NamesState) (k n : ℕ) : Prop :=
  ∃ app, s.apps k = some app ∧ app.Named ∧ app.number = n

/-- The app has the number, and the socket is one of its sockets. -/
def NamesState.HasSocket (s : NamesState) (k n i : ℕ) : Prop :=
  ∃ app, s.apps k = some app ∧ app.Named ∧ app.number = n ∧ app.linked i = true

/-! ## Names are unique -/

/-- A number can be read off its digits. -/
theorem toDigits_injective {m n : ℕ} (h : Nat.toDigits 10 m = Nat.toDigits 10 n) :
    m = n := by
  have := congrArg (fun digits => Nat.ofDigitChars 10 digits 0) h
  simpa using this

theorem appName_injective {m n : ℕ} (h : appName m = appName n) : m = n :=
  toDigits_injective (List.append_cancel_left h)

/-- What is in front of the hyphen is the number of the app. -/
theorem takeWhile_digits (n : ℕ) (l : List Char) :
    (Nat.toDigits 10 n ++ '-' :: l).takeWhile Char.isDigit = Nat.toDigits 10 n := by
  rw [List.takeWhile_append_of_pos
    (fun c hc => Nat.isDigit_of_mem_toDigits (by decide) (by decide) hc),
    List.takeWhile_cons_of_neg (by decide), List.append_nil]

theorem socketName_injective {m n i j : ℕ} (h : socketName m i = socketName n j) :
    m = n ∧ i = j := by
  unfold socketName appName at h
  rw [List.append_assoc, List.append_assoc, List.append_assoc,
    List.append_assoc] at h
  have htail := List.append_cancel_left h
  have hnumber : Nat.toDigits 10 m = Nat.toDigits 10 n := by
    have := congrArg (List.takeWhile Char.isDigit) htail
    rwa [shmSocketNamePrefix, List.cons_append, takeWhile_digits, List.cons_append,
      takeWhile_digits] at this
  rw [hnumber] at htail
  exact ⟨toDigits_injective hnumber,
    toDigits_injective (List.append_cancel_left (List.append_cancel_left htail))⟩

theorem appName_ne_socketName (m n i : ℕ) : appName m ≠ socketName n i := by
  intro h
  unfold socketName appName at h
  rw [List.append_assoc, List.append_assoc] at h
  have htail := List.append_cancel_left h
  have hmem : '-' ∈ Nat.toDigits 10 m := by
    rw [htail]
    simp [shmSocketNamePrefix]
  exact absurd (Nat.isDigit_of_mem_toDigits (by decide) (by decide) hmem) (by decide)

/-! ## The invariant -/

/-- **The invariant**: the names are those of the apps and their sockets, each
number belongs to one app, and no app was ended by a name that was taken. -/
structure NamesInv (s : NamesState) : Prop where
  apps : ∀ n, s.names (appName n) = true ↔ ∃ k, s.HasNumber k n
  sockets : ∀ n i, s.names (socketName n i) = true ↔ ∃ k, s.HasSocket k n i
  unique : ∀ n k l, s.HasNumber k n → s.HasNumber l n → k = l
  linked : ∀ k app i, s.apps k = some app → app.linked i = true →
    app.Named ∧ 0 < i ∧ i ≤ app.highestSocketNumber
      ∧ ∀ j, app.pc = .exiting j → j ≤ i
  alive : ∀ k app, s.apps k = some app → app.pc ≠ .aborted

section Steps

variable {s t : NamesState} {k l n i : ℕ} {app app' : AppProcess}
  {names' : List Char → Bool}

theorem NamesState.hasNumber_iff (hk : s.apps k = some app) :
    s.HasNumber k n ↔ app.Named ∧ app.number = n := by
  unfold HasNumber
  rw [hk]
  simp

theorem NamesState.hasSocket_iff (hk : s.apps k = some app) :
    s.HasSocket k n i ↔ app.Named ∧ app.number = n ∧ app.linked i = true := by
  unfold HasSocket
  rw [hk]
  simp

theorem NamesState.HasSocket.hasNumber (h : s.HasSocket k n i) :
    s.HasNumber k n := by
  obtain ⟨app, hk, hnamed, hnumber, -⟩ := h
  exact ⟨app, hk, hnamed, hnumber⟩

theorem NamesState.hasNumber_setApp_of_ne (hl : l ≠ k) :
    (s.setApp k app names').HasNumber l n ↔ s.HasNumber l n := by
  unfold HasNumber setApp
  dsimp only
  rw [Function.update_of_ne hl]

theorem NamesState.hasSocket_setApp_of_ne (hl : l ≠ k) :
    (s.setApp k app names').HasSocket l n i ↔ s.HasSocket l n i := by
  unfold HasSocket setApp
  dsimp only
  rw [Function.update_of_ne hl]

theorem NamesState.apps_setApp_self :
    (s.setApp k app names').apps k = some app :=
  Function.update_self _ _ _

theorem exists_or_of_ne {p : ℕ → Prop} (k : ℕ) :
    (∃ l, p l) ↔ (∃ l, l ≠ k ∧ p l) ∨ p k := by
  constructor
  · rintro ⟨l, hl⟩
    by_cases hlk : l = k
    · exact Or.inr (hlk ▸ hl)
    · exact Or.inl ⟨l, hlk, hl⟩
  · rintro (⟨l, -, hl⟩ | hk)
    · exact ⟨l, hl⟩
    · exact ⟨k, hk⟩

namespace NamesInv

theorem appName_iff (h : NamesInv s) (hk : s.apps k = some app) :
    s.names (appName n) = true ↔
      (∃ l, l ≠ k ∧ s.HasNumber l n) ∨ app.Named ∧ app.number = n := by
  rw [h.apps, exists_or_of_ne k, NamesState.hasNumber_iff hk]

theorem socketName_iff (h : NamesInv s) (hk : s.apps k = some app) :
    s.names (socketName n i) = true ↔ (∃ l, l ≠ k ∧ s.HasSocket l n i)
      ∨ app.Named ∧ app.number = n ∧ app.linked i = true := by
  rw [h.sockets, exists_or_of_ne k, NamesState.hasSocket_iff hk]

theorem not_hasNumber (h : NamesInv s) (hk : s.apps k = some app)
    (hnamed : app.Named) (hl : l ≠ k) : ¬ s.HasNumber l app.number := fun hln =>
  hl (h.unique _ _ _ hln ((NamesState.hasNumber_iff hk).mpr ⟨hnamed, rfl⟩))

/-- **What a step of one app has to keep.** -/
theorem setApp (h : NamesInv s)
    (happs : ∀ n, names' (appName n) = true ↔
      (∃ l, l ≠ k ∧ s.HasNumber l n) ∨ app'.Named ∧ app'.number = n)
    (hsockets : ∀ n i, names' (socketName n i) = true ↔
      (∃ l, l ≠ k ∧ s.HasSocket l n i)
        ∨ app'.Named ∧ app'.number = n ∧ app'.linked i = true)
    (hunique : app'.Named → ∀ l, l ≠ k → ¬ s.HasNumber l app'.number)
    (hlinked : ∀ i, app'.linked i = true → app'.Named ∧ 0 < i
      ∧ i ≤ app'.highestSocketNumber ∧ ∀ j, app'.pc = .exiting j → j ≤ i)
    (halive : app'.pc ≠ .aborted) : NamesInv (s.setApp k app' names') := by
  have hself := @NamesState.apps_setApp_self s k app' names'
  have hnumber : ∀ {n}, (s.setApp k app' names').HasNumber k n
      ↔ app'.Named ∧ app'.number = n := NamesState.hasNumber_iff hself
  refine ⟨fun n => ?_, fun n i => ?_, fun n l m hl hm => ?_, fun l a i hl hi => ?_,
    fun l a hl => ?_⟩
  · rw [exists_or_of_ne k, hnumber]
    refine (happs n).trans (or_congr_left (exists_congr (fun l => ?_)))
    exact and_congr_right (fun hl => (NamesState.hasNumber_setApp_of_ne hl).symm)
  · rw [exists_or_of_ne k, NamesState.hasSocket_iff hself]
    refine (hsockets n i).trans (or_congr_left (exists_congr (fun l => ?_)))
    exact and_congr_right (fun hl => (NamesState.hasSocket_setApp_of_ne hl).symm)
  · by_cases hlk : l = k
    · by_cases hmk : m = k
      · rw [hlk, hmk]
      · rw [hlk] at hl
        obtain ⟨hnamed, rfl⟩ := hnumber.mp hl
        exact absurd ((NamesState.hasNumber_setApp_of_ne hmk).mp hm)
          (hunique hnamed m hmk)
    · by_cases hmk : m = k
      · rw [hmk] at hm
        obtain ⟨hnamed, rfl⟩ := hnumber.mp hm
        exact absurd ((NamesState.hasNumber_setApp_of_ne hlk).mp hl)
          (hunique hnamed l hlk)
      · exact h.unique n l m ((NamesState.hasNumber_setApp_of_ne hlk).mp hl)
          ((NamesState.hasNumber_setApp_of_ne hmk).mp hm)
  · by_cases hlk : l = k
    · subst hlk
      obtain rfl := Option.some.inj (hself.symm.trans hl)
      exact hlinked i hi
    · exact h.linked l a i ((Function.update_of_ne hlk _ _).symm.trans hl) hi
  · by_cases hlk : l = k
    · subst hlk
      obtain rfl := Option.some.inj (hself.symm.trans hl)
      exact halive
    · exact h.alive l a ((Function.update_of_ne hlk _ _).symm.trans hl)

/-- An app goes on without a change to the names. -/
theorem goto (h : NamesInv s) (hk : s.apps k = some app)
    (hnamed : app'.Named ↔ app.Named)
    (hnumber : app.Named → app'.number = app.number)
    (hsame : app'.linked = app.linked)
    (hhighest : app'.highestSocketNumber = app.highestSocketNumber)
    (hpc : ∀ j, app'.pc = .exiting j → j = 0) (halive : app'.pc ≠ .aborted) :
    NamesInv (s.setApp k app' s.names) := by
  refine h.setApp (fun n => ?_) (fun n i => ?_) (fun hn l hl => ?_)
    (fun i hi => ?_) halive
  · rw [h.appName_iff hk, hnamed]
    exact or_congr_right (and_congr_right (fun hn => by rw [hnumber hn]))
  · rw [h.socketName_iff hk, hnamed, hsame]
    exact or_congr_right (and_congr_right (fun hn => by rw [hnumber hn]))
  · rw [hnumber (hnamed.mp hn)]
    exact h.not_hasNumber hk (hnamed.mp hn) hl
  · rw [hsame] at hi
    obtain ⟨hn, hpos, hle, -⟩ := h.linked k app i hk hi
    exact ⟨hnamed.mpr hn, hpos, hhighest ▸ hle,
      fun j hj => by rw [hpc j hj]; exact Nat.zero_le i⟩

/-- **`create_app_shm_region`** takes a name that is free. -/
theorem tryName (h : NamesInv s) (hk : s.apps k = some app)
    (hpc : app.pc = .naming) : NamesInv (s.tryName k app) := by
  have hnot : ¬ app.Named := by
    rintro (hn | ⟨j, hn⟩) <;> rw [hpc] at hn <;> exact absurd hn (by simp)
  unfold NamesState.tryName NamesState.create
  by_cases htaken : s.names (appName app.number) = true
  · rw [if_pos htaken]
    dsimp only
    refine h.goto hk ?_ (fun hn => absurd hn hnot) rfl rfl (fun j hj => ?_) ?_
    · exact ⟨fun hn => hn, fun hn => hn⟩
    · rw [hpc] at hj
      exact absurd hj (by simp)
    · rw [hpc]
      simp
  · rw [if_neg htaken]
    dsimp only
    have hnolinks : ∀ i, app.linked i ≠ true := fun i hi =>
      hnot (h.linked k app i hk hi).1
    refine h.setApp (fun n => ?_) (fun n i => ?_) (fun _ l hl hln => ?_)
      (fun i hi => absurd hi (hnolinks i)) (by simp)
    · by_cases hn : n = app.number
      · subst hn
        rw [Function.update_self]
        simp [AppProcess.Named]
      · rw [Function.update_of_ne (fun heq => hn (appName_injective heq)),
          h.appName_iff hk]
        simp [hnot, Ne.symm hn]
    · rw [Function.update_of_ne (appName_ne_socketName _ _ _).symm,
        h.socketName_iff hk]
      simp [hnot, hnolinks i]
    · exact htaken ((h.apps _).mpr ⟨l, hln⟩)

/-- **The name of a new socket is free.** -/
theorem socketName_free (h : NamesInv s) (hk : s.apps k = some app)
    (hnamed : app.Named) (hi : app.highestSocketNumber < i) :
    s.names (socketName app.number i) = false := by
  refine eq_false_of_ne_true (fun htaken => ?_)
  rcases (h.socketName_iff hk).mp htaken with ⟨l, hl, hln⟩ | ⟨-, -, hlinked⟩
  · exact h.not_hasNumber hk hnamed hl hln.hasNumber
  · exact absurd (h.linked k app i hk hlinked).2.2.1 (Nat.not_le.mpr hi)

/-- **`map_socket_region`** does not fail. -/
theorem socket (h : NamesInv s) (hk : s.apps k = some app)
    (hpc : app.pc = .running) : NamesInv (s.socket k app) := by
  have hnamed : app.Named := Or.inl hpc
  have hfree := h.socketName_free hk hnamed (Nat.lt_succ_self _)
  unfold NamesState.socket NamesState.create
  dsimp only
  rw [if_neg (by rw [hfree]; simp)]
  dsimp only
  have hothers : ∀ l, l ≠ k → ¬ s.HasNumber l app.number := fun l hl =>
    h.not_hasNumber hk hnamed hl
  refine h.setApp (fun n => ?_) (fun n j => ?_) (fun _ => hothers) (fun j hj => ?_)
    (by simp [hpc])
  · rw [Function.update_of_ne (appName_ne_socketName _ _ _), h.appName_iff hk]
    rfl
  · by_cases hname : n = app.number ∧ j = app.highestSocketNumber + 1
    · obtain ⟨rfl, rfl⟩ := hname
      rw [Function.update_self]
      exact ⟨fun _ => Or.inr ⟨hnamed, rfl, Function.update_self _ _ _⟩,
        fun _ => rfl⟩
    · rw [Function.update_of_ne (fun heq => hname (socketName_injective heq)),
        h.socketName_iff hk]
      refine or_congr_right (and_congr_right (fun _ => and_congr_right
        (fun hn => ?_)))
      show _ ↔ Function.update app.linked _ true j = true
      rw [Function.update_of_ne (fun hj => hname ⟨hn.symm, hj⟩)]
  · dsimp only at hj ⊢
    by_cases hlast : j = app.highestSocketNumber + 1
    · exact ⟨hnamed, by omega, by omega, fun m hm => by rw [hpc] at hm; simp at hm⟩
    · rw [Function.update_of_ne hlast] at hj
      obtain ⟨-, hpos, hle, -⟩ := h.linked k app j hk hj
      exact ⟨hnamed, hpos, by omega, fun m hm => by rw [hpc] at hm; simp at hm⟩

/-- **The name of a socket is given back.** -/
theorem unlink (h : NamesInv s) (hk : s.apps k = some app) (hnamed : app.Named)
    {pc : AppPc} (hnamed' : AppProcess.Named { app with pc := pc })
    (halive : pc ≠ .aborted)
    (hpc : ∀ m, pc = .exiting m → ∀ j, app.linked j = true → j ≠ i → m ≤ j) :
    NamesInv (s.setApp k
      { app with pc := pc, linked := Function.update app.linked i false }
      (s.unlink (socketName app.number i))) := by
  unfold NamesState.unlink
  have hothers : ∀ l, l ≠ k → ¬ s.HasNumber l app.number := fun l hl =>
    h.not_hasNumber hk hnamed hl
  refine h.setApp (fun n => ?_) (fun n j => ?_) (fun _ => hothers) (fun j hj => ?_)
    halive
  · rw [Function.update_of_ne (appName_ne_socketName _ _ _), h.appName_iff hk]
    exact or_congr_right (and_congr_left (fun _ => ⟨fun _ => hnamed', fun _ => hnamed⟩))
  · by_cases hname : n = app.number ∧ j = i
    · obtain ⟨rfl, rfl⟩ := hname
      rw [Function.update_self]
      refine ⟨fun hf => absurd hf (by simp), ?_⟩
      rintro (⟨l, hl, hln⟩ | ⟨-, -, hf⟩)
      · exact absurd hln.hasNumber (h.not_hasNumber hk hnamed hl)
      · exact (Function.update_self j false app.linked).symm.trans hf
    · rw [Function.update_of_ne (fun heq => hname (socketName_injective heq)),
        h.socketName_iff hk]
      refine or_congr_right ?_
      constructor
      · rintro ⟨-, hn, hj⟩
        refine ⟨hnamed', hn, ?_⟩
        dsimp only
        rw [Function.update_of_ne (fun hji => hname ⟨hn.symm, hji⟩)]
        exact hj
      · rintro ⟨-, hn, hj⟩
        dsimp only at hn hj
        rw [Function.update_of_ne (fun hji => hname ⟨hn.symm, hji⟩)] at hj
        exact ⟨hnamed, hn, hj⟩
  · dsimp only at hj ⊢
    by_cases hji : j = i
    · rw [hji, Function.update_self] at hj
      exact absurd hj (by simp)
    · rw [Function.update_of_ne hji] at hj
      obtain ⟨-, hpos, hle, -⟩ := h.linked k app j hk hj
      exact ⟨hnamed', hpos, hle, fun m hm => hpc m hm j hj hji⟩

/-- **The next step of `pifus_exit`.** -/
theorem exitStep (h : NamesInv s) (hk : s.apps k = some app)
    (hpc : app.pc = .exiting i) : NamesInv (s.exitStep k i app) := by
  have hnamed : app.Named := Or.inr ⟨i, hpc⟩
  unfold NamesState.exitStep
  split
  · refine h.unlink hk hnamed (Or.inr ⟨i + 1, rfl⟩) (by simp) (fun m hm j hj hne => ?_)
    obtain rfl := AppPc.exiting.inj hm
    have hle := (h.linked k app j hk hj).2.2.2 i hpc
    omega
  · rename_i hdone
    -- the loop has been through all sockets
    have hnolinks : ∀ j, app.linked j ≠ true := by
      intro j hj
      obtain ⟨-, hpos, hle, hfrom⟩ := h.linked k app j hk hj
      have := hfrom i hpc
      exact hdone ⟨by omega, by omega⟩
    have hgone : ¬ AppProcess.Named { app with pc := .gone } := by
      rintro (hn | ⟨m, hn⟩) <;> exact absurd hn (by simp)
    unfold NamesState.unlink
    refine h.setApp (fun n => ?_) (fun n j => ?_) (fun hn => absurd hn hgone)
      (fun j hj => absurd hj (hnolinks j)) (by simp)
    · by_cases hn : n = app.number
      · subst hn
        rw [Function.update_self]
        refine ⟨fun hf => absurd hf (by simp), ?_⟩
        rintro (⟨l, hl, hln⟩ | ⟨hf, -⟩)
        · exact absurd hln (h.not_hasNumber hk hnamed hl)
        · exact absurd hf hgone
      · rw [Function.update_of_ne (fun heq => hn (appName_injective heq)),
          h.appName_iff hk]
        simp [hgone, Ne.symm hn]
    · rw [Function.update_of_ne (appName_ne_socketName _ _ _).symm,
        h.socketName_iff hk]
      simp [hgone, hnolinks j]

/-- **Every step keeps the invariant.** -/
theorem step {e : NamesEvent} (h : NamesInv s) (hs : NamesStep s e t) :
    NamesInv t := by
  unfold NamesStep at hs
  cases e with
  | start k =>
    rw [namesStep] at hs
    cases hk : s.apps k with
    | some app => rw [hk] at hs; exact absurd hs (by simp)
    | none =>
      rw [hk] at hs
      obtain rfl := Option.some.inj hs
      have hnot : ∀ n, ¬ s.HasNumber k n := by
        rintro n ⟨app, happ, -⟩
        rw [hk] at happ
        exact absurd happ (by simp)
      refine h.setApp (fun n => ?_) (fun n i => ?_) ?_ (by simp) (by simp)
      · rw [h.apps, exists_or_of_ne k]
        simp [hnot n, AppProcess.Named]
      · have hnone : ¬ s.HasSocket k n i := fun hs => hnot n hs.hasNumber
        rw [h.sockets, exists_or_of_ne k]
        simp [hnone, AppProcess.Named]
      · rintro (hn | ⟨j, hn⟩) <;> exact absurd hn (by simp)
  | tryName k =>
    obtain ⟨app, hk, hs⟩ := Option.bind_eq_some_iff.mp hs
    split at hs
    · obtain rfl := Option.some.inj hs
      exact h.tryName hk ‹_›
    · exact absurd hs (by simp)
  | socket k =>
    obtain ⟨app, hk, hs⟩ := Option.bind_eq_some_iff.mp hs
    split at hs
    · obtain rfl := Option.some.inj hs
      exact h.socket hk ‹_›
    · exact absurd hs (by simp)
  | close k i =>
    obtain ⟨app, hk, hs⟩ := Option.bind_eq_some_iff.mp hs
    split at hs
    · rename_i hrunning
      obtain rfl := Option.some.inj hs
      have hnamed : app.Named := Or.inl hrunning.1
      exact h.unlink hk hnamed hnamed (h.alive k app hk)
        (fun m hm => by rw [hrunning.1] at hm; simp at hm)
    · exact absurd hs (by simp)
  | exit k =>
    obtain ⟨app, hk, hs⟩ := Option.bind_eq_some_iff.mp hs
    split at hs
    · rename_i hrunning
      obtain rfl := Option.some.inj hs
      refine h.goto hk ?_ (fun _ => rfl) rfl rfl (fun j hj => ?_) (by simp)
      · exact ⟨fun _ => Or.inl hrunning, fun _ => Or.inr ⟨0, rfl⟩⟩
      · exact (AppPc.exiting.inj hj).symm
    · exact absurd hs (by simp)
  | unlink k =>
    obtain ⟨app, hk, hs⟩ := Option.bind_eq_some_iff.mp hs
    split at hs
    · obtain rfl := Option.some.inj hs
      exact h.exitStep hk ‹_›
    · exact absurd hs (by simp)

end NamesInv

theorem namesInv_initial : NamesInv .initial := by
  have hnone : ∀ k n, ¬ NamesState.initial.HasNumber k n := by
    rintro k n ⟨app, happ, -⟩
    exact absurd happ (by simp [NamesState.initial])
  refine ⟨fun n => ⟨fun hf => absurd hf (by simp [NamesState.initial]), ?_⟩,
    fun n i => ⟨fun hf => absurd hf (by simp [NamesState.initial]), ?_⟩,
    fun n k l hk => absurd hk (hnone k n),
    fun k app i hk => absurd hk (by simp [NamesState.initial]),
    fun k app hk => absurd hk (by simp [NamesState.initial])⟩
  · rintro ⟨k, hk⟩
    exact absurd hk (hnone k n)
  · rintro ⟨k, hk⟩
    exact absurd hk.hasNumber (hnone k n)

end Steps

/-! ## Runs -/

/-- **Names lead to the regions they name**, in every interleaving of apps that
start, open and close sockets and exit: no app is ended because the name of a new
socket is taken; no two apps have the same number at a time; a region has the
name of an app exactly as long as the app with this number is there, and that of
a socket exactly as long as the socket is; so an app that has exited leaves no
name behind. -/
theorem names_lead_to_regions {s : NamesState} {es : List NamesEvent}
    (h : Run NamesStep .initial es s) :
    (∀ k app, s.apps k = some app → app.pc ≠ .aborted)
    ∧ (∀ n k l, s.HasNumber k n → s.HasNumber l n → k = l)
    ∧ (∀ n, s.names (appName n) = true ↔ ∃ k, s.HasNumber k n)
    ∧ ∀ n i, s.names (socketName n i) = true ↔ ∃ k, s.HasSocket k n i := by
  have hinv : NamesInv s := h.invariant NamesInv namesInv_initial
    (fun _ _ _ hI hs => hI.step hs)
  exact ⟨hinv.alive, hinv.unique, hinv.apps, hinv.sockets⟩

/-- An app exits with an open socket, and the next one has the same number and
opens its first socket. -/
theorem names_lead_to_regions_reused :
    ∃ s : NamesState, s.names (socketName 0 1) = true
      ∧ ∃ k, s.HasSocket k 0 1 := by
  have hs : ([.start 0, .tryName 0, .socket 0, .start 1, .tryName 1, .exit 0,
      .unlink 0, .unlink 0, .unlink 0, .start 2, .tryName 2, .socket 2].foldlM
      namesStep NamesState.initial).any (fun s => s.names (socketName 0 1))
      = true := by decide +kernel
  obtain ⟨s, hrun, hname⟩ := (Option.any_eq_true _ _).mp hs
  exact ⟨s, hname,
    ((names_lead_to_regions (Run.of_foldlM hrun)).2.2.2 0 1).mp hname⟩
