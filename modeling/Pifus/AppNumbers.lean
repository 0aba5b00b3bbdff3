import Pifus.Constants
import Pifus.Util.Transition
import Mathlib.Logic.Function.Basic

/-!
# App numbers

An app creates its region in `create_app_shm_region` under the lowest number
whose name is free, and gives the name back in `pifus_exit`. The stack looks
for regions in `scan_for_app_regions`: it counts `next_app_number` up as long
as there is a region under that number, and maps each into the slot of that
number in `app_ptrs`.

The two agree as long as numbers are only handed out. A name that has been
given back is handed out again by the first, and is never looked at again by
the second.

The names are a map from numbers to regions, and the regions are numbered in
the order of their creation. `late` remembers which numbers were handed out
when the stack had already counted past them.
-/

/-- The names of the shared memory, and what the stack has mapped. -/
structure AppState where
  /-- The region under each name. -/
  names : ℕ → Option ℕ
  /-- The number of regions created so far. -/
  created : ℕ
  /-- `next_app_number`. -/
  nextAppNumber : ℕ
  /-- `app_ptrs`. -/
  appPtrs : ℕ → Option ℕ
  /-- The number was below `next_app_number` when it was last handed out. -/
  late : ℕ → Bool

/-- What can happen next. -/
inductive AppEvent
  /-- An app starts: `create_app_shm_region`. -/
  | start
  /-- The app with this number exits: `pifus_exit`. -/
  | exit (n : ℕ)
  /-- The stack calls `scan_for_app_regions`. -/
  | scan
  deriving DecidableEq

namespace AppState

/-- The loop of `create_app_shm_region`: the first number from `n` on whose
name is free. -/
def freeNumberFrom (names : ℕ → Option ℕ) : ℕ → ℕ → ℕ
  | 0, n => n
  | fuel + 1, n =>
    match names n with
    | none => n
    | some _ => freeNumberFrom names fuel (n + 1)

/-- `app_number` at the end of `create_app_shm_region`. There are no more
names than regions were created. -/
def freeNumber (s : AppState) : ℕ := freeNumberFrom s.names s.created 0

/-- `create_app_shm_region`. -/
def start (s : AppState) : AppState :=
  let n := s.freeNumber
  { s with
    names := Function.update s.names n (some s.created)
    created := s.created + 1
    late := Function.update s.late n (n < s.nextAppNumber) }

/-- The loop of `scan_for_app_regions`. -/
def scanFrom (s : AppState) : ℕ → AppState
  | 0 => s
  | rounds + 1 =>
    match s.names s.nextAppNumber with
    | some region => scanFrom { s with
        appPtrs := Function.update s.appPtrs s.nextAppNumber (some region)
        nextAppNumber := s.nextAppNumber + 1 } rounds
    | none => s

/-- `scan_for_app_regions`. -/
def scan (s : AppState) : AppState :=
  s.scanFrom (maxAppAmount - s.nextAppNumber)

end AppState

/-- **A step of an app or of the stack.** -/
def appStep (s : AppState) : AppEvent → Option AppState
  | .start => some s.start
  | .exit n =>
    match s.names n with
    | some _ => some { s with names := Function.update s.names n none }
    | none => none
  | .scan => some s.scan

/-- The steps as a relation. -/
def AppStep (s : AppState) (e : AppEvent) (t : AppState) : Prop :=
  appStep s e = some t

namespace AppState

/-- No names, and nothing mapped. -/
def initial : AppState :=
  ⟨fun _ => none, 0, 0, fun _ => none, fun _ => false⟩

/-- **Every region that has a name is mapped in the slot of its number.** -/
def Agreed (s : AppState) : Prop :=
  ∀ n region, s.names n = some region → s.appPtrs n = some region

/-- No app has a number that the stack had already counted past when it was
handed out, and there is no free number between `next_app_number` and the
number of an app. -/
def InStep (s : AppState) : Prop :=
  ∀ n, s.names n ≠ none →
    s.late n = false
    ∧ ∀ m, s.nextAppNumber ≤ m → m ≤ n → s.names m ≠ none

/-! ## The two loops -/

/-- **The loop of an app ends at a free number** when it has enough rounds. -/
theorem freeNumberFrom_spec {names : ℕ → Option ℕ} {fuel n : ℕ}
    (hfuel : ∀ m, n + fuel ≤ m → names m = none) :
    names (freeNumberFrom names fuel n) = none
      ∧ freeNumberFrom names fuel n ≤ n + fuel := by
  induction fuel generalizing n with
  | zero => exact ⟨hfuel n (Nat.le_refl n), Nat.le_refl n⟩
  | succ fuel ih =>
    rw [freeNumberFrom]
    split
    · rename_i hnone
      exact ⟨hnone, Nat.le_add_right n _⟩
    · obtain ⟨hnone, hle⟩ := ih (n := n + 1) (fun m hm => hfuel m (by omega))
      exact ⟨hnone, by omega⟩

variable {s t : AppState}

/-- **The loop of the stack** maps what it counts past and stops in front of
the first free number. -/
theorem scanFrom_spec (s : AppState) (rounds : ℕ) :
    (s.scanFrom rounds).names = s.names
    ∧ (s.scanFrom rounds).created = s.created
    ∧ (s.scanFrom rounds).late = s.late
    ∧ (s.nextAppNumber ≤ (s.scanFrom rounds).nextAppNumber
      ∧ (s.scanFrom rounds).nextAppNumber ≤ s.nextAppNumber + rounds)
    ∧ (∀ n, s.nextAppNumber ≤ n → n < (s.scanFrom rounds).nextAppNumber →
        s.names n ≠ none ∧ (s.scanFrom rounds).appPtrs n = s.names n)
    ∧ (∀ n, n < s.nextAppNumber ∨ (s.scanFrom rounds).nextAppNumber ≤ n →
        (s.scanFrom rounds).appPtrs n = s.appPtrs n)
    ∧ ((s.scanFrom rounds).nextAppNumber = s.nextAppNumber + rounds
        ∨ s.names (s.scanFrom rounds).nextAppNumber = none) := by
  induction rounds generalizing s with
  | zero =>
    exact ⟨rfl, rfl, rfl, ⟨Nat.le_refl _, Nat.le_refl _⟩,
      fun n h₁ h₂ => absurd h₁ (Nat.not_le.mpr h₂), fun _ _ => rfl, Or.inl rfl⟩
  | succ rounds ih =>
    rw [scanFrom]
    split
    · rename_i region hregion
      obtain ⟨hnames, hcreated, hlate, hle, hpast, hrest, hstop⟩ := ih { s with
        appPtrs := Function.update s.appPtrs s.nextAppNumber (some region)
        nextAppNumber := s.nextAppNumber + 1 }
      dsimp only at hle hpast hrest hstop
      refine ⟨hnames, hcreated, hlate, ⟨by omega, by omega⟩, fun n h₁ h₂ => ?_,
        fun n hn => ?_, ?_⟩
      · by_cases heq : n = s.nextAppNumber
        · subst heq
          rw [hregion, hrest _ (Or.inl (Nat.lt_succ_self _)),
            Function.update_self]
          exact ⟨by simp, rfl⟩
        · exact hpast n (by omega) h₂
      · rw [hrest n (by omega), Function.update_of_ne (by omega)]
      · rcases hstop with hall | hnone
        · exact Or.inl (by omega)
        · exact Or.inr hnone
    · rename_i hnone
      exact ⟨rfl, rfl, rfl, ⟨Nat.le_refl _, Nat.le_add_right _ _⟩,
        fun n h₁ h₂ => absurd h₁ (Nat.not_le.mpr h₂), fun _ _ => rfl,
        Or.inr hnone⟩

end AppState

open AppState

/-- **The invariant**: a number below `next_app_number` is the number of the
region mapped there unless it was handed out late, and the slots from
`next_app_number` on are empty. -/
structure NumberInv (s : AppState) : Prop where
  names : ∀ n region, s.names n = some region →
    n < s.created ∧ region < s.created
  mapped : ∀ n region, s.appPtrs n = some region →
    n < s.nextAppNumber ∧ region < s.created
  late : ∀ n region, s.names n = some region →
    if n < s.nextAppNumber then
      (s.late n = false ↔ s.appPtrs n = some region)
    else s.late n = false
  next : s.nextAppNumber ≤ maxAppAmount

variable {s t : AppState}

theorem NumberInv.freeNumber (h : NumberInv s) :
    s.names s.freeNumber = none ∧ s.freeNumber ≤ s.created := by
  have hbeyond : ∀ m, 0 + s.created ≤ m → s.names m = none := by
    intro m hm
    cases hname : s.names m with
    | none => rfl
    | some region => exact absurd (h.names m region hname).1 (by omega)
  obtain ⟨hnone, hle⟩ := freeNumberFrom_spec hbeyond
  rw [Nat.zero_add] at hle
  exact ⟨hnone, hle⟩

/-- An app that starts takes a free number and brings a region that has not
been mapped yet. -/
theorem NumberInv.start (h : NumberInv s) : NumberInv s.start := by
  obtain ⟨-, hle⟩ := h.freeNumber
  refine ⟨fun n region hn => ?_, fun n region hn => ?_, fun n region hn => ?_,
    h.next⟩
  · show n < s.created + 1 ∧ region < s.created + 1
    have hn : Function.update s.names s.freeNumber (some s.created) n
      = some region := hn
    by_cases heq : n = s.freeNumber
    · subst heq
      rw [Function.update_self] at hn
      obtain rfl := Option.some.inj hn
      exact ⟨Nat.lt_succ_of_le hle, Nat.lt_succ_self _⟩
    · rw [Function.update_of_ne heq] at hn
      have hlt := h.names n region hn
      exact ⟨Nat.lt_succ_of_lt hlt.1, Nat.lt_succ_of_lt hlt.2⟩
  · have hlt := h.mapped n region hn
    exact ⟨hlt.1, Nat.lt_succ_of_lt hlt.2⟩
  · have hn : Function.update s.names s.freeNumber (some s.created) n
      = some region := hn
    show if n < s.nextAppNumber then
        (Function.update s.late s.freeNumber
          (decide (s.freeNumber < s.nextAppNumber)) n = false
          ↔ s.appPtrs n = some region)
      else Function.update s.late s.freeNumber
        (decide (s.freeNumber < s.nextAppNumber)) n = false
    by_cases heq : n = s.freeNumber
    · subst heq
      rw [Function.update_self] at hn ⊢
      obtain rfl := Option.some.inj hn
      split
      · rename_i hlt
        refine iff_of_false (by simpa using hlt) (fun hmapped => ?_)
        exact absurd (h.mapped _ _ hmapped).2 (Nat.lt_irrefl _)
      · rename_i hlt
        simpa using hlt
    · rw [Function.update_of_ne heq] at hn ⊢
      exact h.late n region hn

theorem NumberInv.exit {n : ℕ} (h : NumberInv s) :
    NumberInv { s with names := Function.update s.names n none } := by
  have hkept : ∀ m region,
      Function.update s.names n none m = some region →
      s.names m = some region := by
    intro m region hm
    by_cases heq : m = n
    · subst heq
      rw [Function.update_self] at hm
      exact absurd hm (by simp)
    · rwa [Function.update_of_ne heq] at hm
  exact ⟨fun m region hm => h.names m region (hkept m region hm), h.mapped,
    fun m region hm => h.late m region (hkept m region hm), h.next⟩

theorem NumberInv.scan (h : NumberInv s) : NumberInv s.scan := by
  obtain ⟨hnames, hcreated, hlate, ⟨hle, hmax⟩, hpast, hrest, -⟩ :=
    scanFrom_spec s (maxAppAmount - s.nextAppNumber)
  refine ⟨?_, fun n region hn => ?_, fun n region hn => ?_, ?_⟩
  · rw [AppState.scan, hnames, hcreated]
    exact h.names
  · rw [AppState.scan] at hn ⊢
    rw [hcreated]
    by_cases hn' : n < s.nextAppNumber
        ∨ (s.scanFrom (maxAppAmount - s.nextAppNumber)).nextAppNumber ≤ n
    · rw [hrest n hn'] at hn
      have hlt := h.mapped n region hn
      exact ⟨Nat.lt_of_lt_of_le hlt.1 hle, hlt.2⟩
    · have hlo : s.nextAppNumber ≤ n := by omega
      have hhi := Nat.lt_of_not_le (fun hge => hn' (Or.inr hge))
      rw [(hpast n hlo hhi).2] at hn
      exact ⟨hhi, (h.names n region hn).2⟩
  · rw [AppState.scan] at hn ⊢
    rw [hnames] at hn
    rw [hlate]
    have hold := h.late n region hn
    by_cases hlo : n < s.nextAppNumber
    · rw [if_pos hlo] at hold
      rw [if_pos (Nat.lt_of_lt_of_le hlo hle), hrest n (Or.inl hlo)]
      exact hold
    · rw [if_neg hlo] at hold
      split
      · rename_i hhi
        rw [(hpast n (Nat.not_lt.mp hlo) hhi).2]
        exact iff_of_true hold hn
      · exact hold
  · have hnext := h.next
    rw [AppState.scan]
    omega

/-- **Every step keeps the invariant.** -/
theorem NumberInv.step {e : AppEvent} (h : NumberInv s) (hs : AppStep s e t) :
    NumberInv t := by
  unfold AppStep at hs
  cases e with
  | start =>
    obtain rfl := Option.some.inj hs
    exact h.start
  | exit n =>
    rw [appStep] at hs
    split at hs
    · obtain rfl := Option.some.inj hs
      exact h.exit
    · exact absurd hs (by simp)
  | scan =>
    obtain rfl := Option.some.inj hs
    exact h.scan

theorem numberInv_initial : NumberInv initial :=
  ⟨fun _ _ h => absurd h (by simp [initial]),
    fun _ _ h => absurd h (by simp [initial]),
    fun _ _ h => absurd h (by simp [initial]), Nat.zero_le _⟩

/-- **When a scan makes the two sides agree**: if and only if no app has a
number that the stack had already counted past when it was handed out, and no
number is free between `next_app_number` and the number of an app. -/
theorem scan_agrees_iff {es : List AppEvent} (h : Run AppStep initial es s)
    (hcreated : s.created ≤ maxAppAmount) : s.scan.Agreed ↔ s.InStep := by
  have hinv : NumberInv s := h.invariant NumberInv numberInv_initial
    (fun _ _ _ hI hs => hI.step hs)
  obtain ⟨hnames, -, -, ⟨hle, -⟩, hpast, hrest, hstop⟩ :=
    scanFrom_spec s (maxAppAmount - s.nextAppNumber)
  rw [← AppState.scan] at hnames hle hpast hrest hstop
  have hnext := hinv.next
  have htop : ∀ n region, s.names n = some region → n < maxAppAmount :=
    fun n region hn => Nat.lt_of_lt_of_le (hinv.names n region hn).1 hcreated
  constructor
  · intro hagreed n hn
    obtain ⟨region, hregion⟩ := Option.ne_none_iff_exists'.mp hn
    have hmapped := hagreed n region (by rw [hnames]; exact hregion)
    have hold := hinv.late n region hregion
    refine ⟨?_, fun m hm hmn => ?_⟩
    · split at hold
      · rename_i hlt
        rw [hrest n (Or.inl hlt)] at hmapped
        exact hold.mpr hmapped
      · exact hold
    · -- a region behind a free number is out of the reach of the loop
      intro hfree
      have hreach : n < s.scan.nextAppNumber := by
        by_contra hge
        rw [hrest n (Or.inr (Nat.not_lt.mp hge))] at hmapped
        have hlt := (hinv.mapped n region hmapped).1
        omega
      exact (hpast m hm (Nat.lt_of_le_of_lt hmn hreach)).1 hfree
  · intro hstep n region hn
    rw [hnames] at hn
    obtain ⟨hlate, hgap⟩ := hstep n (by rw [hn]; simp)
    have hold := hinv.late n region hn
    by_cases hlo : n < s.nextAppNumber
    · rw [if_pos hlo] at hold
      rw [hrest n (Or.inl hlo)]
      exact hold.mp hlate
    · have hreach : n < s.scan.nextAppNumber := by
        by_contra hge
        rcases hstop with hall | hnone
        · have hlt := htop n region hn
          omega
        · exact hgap _ hle (Nat.not_lt.mp hge) hnone
      rw [(hpast n (Nat.not_lt.mp hlo) hreach).2]
      exact hn

/-- Two apps, of which the second one starts behind a scan. -/
theorem scan_agrees_iff_two :
    ∃ s : AppState, s.created = 2 ∧ (s.scan.Agreed ↔ s.InStep) := by
  have hs : ([.start, .scan, .start].foldlM appStep initial).map
      (fun s => s.created) = some 2 := by decide +kernel
  obtain ⟨s, hrun, hcreated⟩ := Option.map_eq_some_iff.mp hs
  exact ⟨s, hcreated, scan_agrees_iff (Run.of_foldlM hrun)
    (by rw [hcreated]; decide)⟩

/-- **An app that starts again**: it gets the number of the app that has
exited, and the stack keeps the region of that one. -/
theorem restarted_app_not_mapped :
    ∃ (es : List AppEvent) (s : AppState),
      Run AppStep initial (es ++ [.scan]) s ∧ s.created ≤ maxAppAmount
        ∧ s.names 0 = some 1 ∧ s.appPtrs 0 = some 0 ∧ ¬ s.Agreed := by
  have hs : ([.start, .scan, .exit 0, .start, .scan].foldlM appStep
      initial).any (fun s => s.created = 2 ∧ s.names 0 = some 1
        ∧ s.appPtrs 0 = some 0) = true := by decide +kernel
  obtain ⟨s, hrun, hp⟩ := (Option.any_eq_true _ _).mp hs
  obtain ⟨hcreated, hname, hptr⟩ := of_decide_eq_true hp
  refine ⟨[.start, .scan, .exit 0, .start], s, Run.of_foldlM hrun, ?_, hname,
    hptr, fun hagreed => ?_⟩
  · rw [hcreated]
    decide
  · rw [hagreed 0 1 hname] at hptr
    exact absurd hptr (by simp)
