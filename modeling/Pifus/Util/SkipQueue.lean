import Mathlib.Data.List.Basic
import Mathlib.Logic.Function.Basic
import Pifus.Util.Transition

/-!
# Queues whose urgent elements may be taken first

One queue per key. An element is pushed at the back and popped at the front; and
the first *urgent* element may skip the ones in front of it. So the urgent
elements leave in the order in which they came, and so do the others, while
between the two kinds the order is lost.

`SkipStep` is what a component that forwards such elements is compared to, and
`Run.skip_conserves` is what comes out of the comparison: of either kind, what
was pushed is what was taken and then what is there.
-/

variable {κ α : Type*}

/-- What can happen to the queues. -/
inductive SkipEvent (κ α : Type*)
  /-- The element is appended to the queue. -/
  | push (k : κ) (a : α)
  /-- The element is taken from the front. -/
  | pop (k : κ) (a : α)
  /-- The element, the first urgent one of the queue, is taken. -/
  | skip (k : κ) (a : α)
  /-- Nothing happens to the queues. -/
  | stay

/-- **The steps of the queues.** -/
inductive SkipStep [DecidableEq κ] (urgent : α → Bool) (Q : κ → List α) :
    SkipEvent κ α → (κ → List α) → Prop
  | push {k : κ} {a : α} :
      SkipStep urgent Q (.push k a) (Function.update Q k (Q k ++ [a]))
  | pop {k : κ} {a : α} {l : List α} : Q k = a :: l →
      SkipStep urgent Q (.pop k a) (Function.update Q k l)
  | skip {k : κ} {a : α} {l r : List α} : Q k = l ++ a :: r →
      urgent a = true → (∀ y ∈ l, urgent y = false) →
      SkipStep urgent Q (.skip k a) (Function.update Q k (l ++ r))
  | stay : SkipStep urgent Q .stay Q

namespace SkipEvent

variable [DecidableEq κ]

/-- The element that the event pushes to a queue. -/
def pushedTo (k : κ) : SkipEvent κ α → Option α
  | push j a => if j = k then some a else none
  | _ => none

/-- The element that the event takes from a queue. -/
def takenFrom (k : κ) : SkipEvent κ α → Option α
  | pop j a | skip j a => if j = k then some a else none
  | _ => none

end SkipEvent

section Histories

variable [DecidableEq κ]

/-- What was pushed to a queue. -/
def pushed (es : List (SkipEvent κ α)) (k : κ) : List α :=
  es.filterMap (SkipEvent.pushedTo k)

/-- What was taken from a queue. -/
def taken (es : List (SkipEvent κ α)) (k : κ) : List α :=
  es.filterMap (SkipEvent.takenFrom k)

theorem pushed_snoc (es : List (SkipEvent κ α)) (e : SkipEvent κ α) (k : κ) :
    pushed (es ++ [e]) k = pushed es k ++ (e.pushedTo k).toList :=
  filterMap_snoc _ _ _

theorem taken_snoc (es : List (SkipEvent κ α)) (e : SkipEvent κ α) (k : κ) :
    taken (es ++ [e]) k = taken es k ++ (e.takenFrom k).toList :=
  filterMap_snoc _ _ _

end Histories

section Conservation

variable [DecidableEq κ] {urgent p : α → Bool} {Q Q' : κ → List α}
  {e : SkipEvent κ α} {es : List (SkipEvent κ α)}

/-- **One step**, as far as the urgent elements are concerned, or the others:
what is pushed goes to the back and what is taken comes from the front. -/
theorem SkipStep.filter (hp : p = urgent ∨ p = fun a => !urgent a)
    (h : SkipStep urgent Q e Q') (k : κ) :
    (Q k).filter p ++ (e.pushedTo k).toList.filter p
      = (e.takenFrom k).toList.filter p ++ (Q' k).filter p := by
  have hother : ∀ {j : κ} {l : List α}, j ≠ k →
      (Q k).filter p ++ [] = [] ++ (Function.update Q j l k).filter p := by
    intro j l hj
    rw [Function.update_of_ne (Ne.symm hj), List.append_nil, List.nil_append]
  cases h with
  | @push j a =>
    by_cases hj : j = k
    · subst hj
      rw [SkipEvent.pushedTo, if_pos rfl, Function.update_self, List.filter_append]
      rfl
    · rw [SkipEvent.pushedTo, if_neg hj]
      exact hother hj
  | @pop j a l hQ =>
    by_cases hj : j = k
    · subst hj
      rw [SkipEvent.takenFrom, if_pos rfl, Function.update_self, hQ]
      show (a :: l).filter p ++ [] = [a].filter p ++ l.filter p
      rw [← List.filter_append, List.append_nil]
      rfl
    · rw [SkipEvent.takenFrom, if_neg hj]
      exact hother hj
  | @skip j a l r hQ hurgent hl =>
    by_cases hj : j = k
    · subst hj
      rw [SkipEvent.takenFrom, if_pos rfl, Function.update_self, hQ]
      show (l ++ a :: r).filter p ++ [] = [a].filter p ++ (l ++ r).filter p
      rw [List.append_nil, List.filter_append, List.filter_append]
      rcases hp with rfl | rfl
      · -- no urgent element is in front of the one that is taken
        have hnil : l.filter p = [] :=
          List.filter_eq_nil_iff.mpr (fun y hy => by simp [hl y hy])
        rw [hnil, List.nil_append, List.nil_append, List.filter_cons_of_pos hurgent,
          List.filter_cons_of_pos hurgent]
        rfl
      · have ha : ¬ (!urgent a) = true := by simp [hurgent]
        rw [List.filter_cons_of_neg (p := fun a => !urgent a) ha,
          List.filter_cons_of_neg (p := fun a => !urgent a) ha]
        rfl
    · rw [SkipEvent.takenFrom, if_neg hj]
      exact hother hj
  | stay => exact List.append_nil _

/-- **Nothing is lost, duplicated or reordered**: the urgent elements that were
pushed are those that were taken, followed by those that are there; and likewise
the others. -/
theorem Run.skip_conserves (hp : p = urgent ∨ p = fun a => !urgent a)
    (h : Run (SkipStep urgent) (fun _ => []) es Q) (k : κ) :
    (pushed es k).filter p = (taken es k).filter p ++ (Q k).filter p := by
  induction h with
  | nil => rfl
  | snoc _ hs ih =>
    rw [pushed_snoc, taken_snoc, List.filter_append, List.filter_append, ih,
      List.append_assoc, List.append_assoc, hs.filter hp k]

end Conservation
