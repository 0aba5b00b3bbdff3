import Mathlib.Data.List.Basic

/-!
# Runs of a transition relation

A transition relation `step s e t` says that the event `e` can take the
state `s` to `t`. A run is a finite sequence of events from a state, and a
property of every reachable state is proved once: it holds at the start and
every step keeps it (`Run.invariant`).

`Guarded ok step` keeps the steps whose condition `ok` holds in the state
they are taken from. A run of the guarded relation is a run all of whose
steps meet the condition, so a statement about such runs needs no
quantification over the positions of a run.
-/

variable {σ ε : Type*}

/-- **The runs of a transition relation** from the state `s`: the events
taken, oldest first, and the state they lead to. -/
inductive Run (step : σ → ε → σ → Prop) (s : σ) : List ε → σ → Prop
  | nil : Run step s [] s
  | snoc {es : List ε} {t : σ} {e : ε} {u : σ} :
      Run step s es t → step t e u → Run step s (es ++ [e]) u

/-- The steps whose condition holds in the state they are taken from. -/
def Guarded (ok : σ → ε → Prop) (step : σ → ε → σ → Prop) : σ → ε → σ → Prop :=
  fun s e t => ok s e ∧ step s e t

/-- The steps of a step function whose condition holds. -/
def guardedStep (ok : σ → ε → Prop) [∀ s e, Decidable (ok s e)]
    (f : σ → ε → Option σ) (s : σ) (e : ε) : Option σ :=
  if ok s e then f s e else none

namespace Run

variable {step step' : σ → ε → σ → Prop} {s t u : σ} {es es' : List ε} {e : ε}

theorem single (h : step s e t) : Run step s [e] t :=
  Run.snoc Run.nil h

theorem trans (h : Run step s es t) (h' : Run step t es' u) :
    Run step s (es ++ es') u := by
  induction h' with
  | nil => rwa [List.append_nil]
  | snoc _ hstep ih =>
    rw [← List.append_assoc]
    exact Run.snoc ih hstep

theorem cons (h : step s e t) (h' : Run step t es u) :
    Run step s (e :: es) u :=
  (Run.single h).trans h'

/-- **The invariant rule**: what holds at the start and is kept by every
step holds at the end of every run. -/
theorem invariant (I : σ → Prop) (h₀ : I s)
    (hstep : ∀ t e u, I t → step t e u → I u) (h : Run step s es t) : I t := by
  induction h with
  | nil => exact h₀
  | snoc _ hs ih => exact hstep _ _ _ ih hs

/-- **The measure rule**: where every step keeps an invariant and lowers a
measure, no run is longer than the measure at its start, and what is left of
it bounds what is left of the run. -/
theorem length_add_le (I : σ → Prop) (measure : σ → ℕ) (h₀ : I s)
    (hstep : ∀ t e u, I t → step t e u → I u ∧ measure u < measure t)
    (h : Run step s es t) : I t ∧ es.length + measure t ≤ measure s := by
  induction h with
  | nil => exact ⟨h₀, Nat.le_of_eq (Nat.zero_add _)⟩
  | snoc _ hs ih =>
    obtain ⟨hI, hlt⟩ := hstep _ _ _ ih.1 hs
    refine ⟨hI, ?_⟩
    rw [List.length_append, List.length_singleton]
    omega

theorem mono (hsub : ∀ t e u, step t e u → step' t e u)
    (h : Run step s es t) : Run step' s es t := by
  induction h with
  | nil => exact Run.nil
  | snoc _ hs ih => exact Run.snoc ih (hsub _ _ _ hs)

/-- **What a step function computes is a run** of its graph. -/
theorem of_foldlM {f : σ → ε → Option σ} (h : es.foldlM f s = some t) :
    Run (fun s e t => f s e = some t) s es t := by
  induction es generalizing s with
  | nil =>
    obtain rfl := Option.some.inj h
    exact Run.nil
  | cons e es ih =>
    rw [List.foldlM_cons, Option.bind_eq_bind, Option.bind_eq_some_iff] at h
    obtain ⟨u, hu, hrest⟩ := h
    exact Run.cons hu (ih hrest)

/-- What a step function computes under a condition is a run of the guarded
graph. -/
theorem guarded_of_foldlM {f : σ → ε → Option σ} {ok : σ → ε → Prop}
    [∀ s e, Decidable (ok s e)] (h : es.foldlM (guardedStep ok f) s = some t) :
    Run (Guarded ok (fun s e t => f s e = some t)) s es t := by
  refine (Run.of_foldlM h).mono (fun s e t hs => ?_)
  rw [guardedStep] at hs
  split at hs
  · exact ⟨‹_›, hs⟩
  · exact absurd hs (by simp)

/-- **Two conditions that agree on every step a run can take** guard the same
runs. -/
theorem guarded_iff {ok ok' : σ → ε → Prop}
    (hok : ∀ es t e u, Run step s es t → step t e u → (ok t e ↔ ok' t e)) :
    Run (Guarded ok step) s es t ↔ Run (Guarded ok' step) s es t := by
  constructor
  · intro h
    induction h with
    | nil => exact Run.nil
    | snoc hrun hs ih =>
      exact ih.snoc ⟨(hok _ _ _ _ (hrun.mono (fun _ _ _ h => h.2)) hs.2).mp
        hs.1, hs.2⟩
  · intro h
    induction h with
    | nil => exact Run.nil
    | snoc hrun hs ih =>
      exact ih.snoc ⟨(hok _ _ _ _ (hrun.mono (fun _ _ _ h => h.2)) hs.2).mpr
        hs.1, hs.2⟩

theorem guarded_of_events {ok : ε → Prop} (h : Run step s es t)
    (hok : ∀ e ∈ es, ok e) : Run (Guarded (fun _ e => ok e) step) s es t := by
  induction h with
  | nil => exact Run.nil
  | snoc _ hs ih =>
    refine (ih (fun e he => hok e (List.mem_append_left _ he))).snoc ⟨?_, hs⟩
    exact hok _ (List.mem_append_right _ (List.mem_singleton.mpr rfl))

theorem of_guarded {ok : σ → ε → Prop} (h : Run (Guarded ok step) s es t) :
    Run step s es t :=
  h.mono (fun _ _ _ hs => hs.2)

end Run

theorem filterMap_snoc {α β : Type*} (f : α → Option β) (l : List α) (a : α) :
    (l ++ [a]).filterMap f = l.filterMap f ++ (f a).toList := by
  rw [List.filterMap_append]
  cases h : f a with
  | none => rw [List.filterMap_cons_none h]; rfl
  | some b => rw [List.filterMap_cons_some h]; rfl
