import Mathlib.Data.List.Perm.Basic
import Pifus.Util.Transition

/-!
# Requests that are served in order or refused

A component takes requests and answers each of them later. It serves the one that
has waited longest; but it may refuse any, also while others wait in front of it.
So an answer does not have to say which request it is for: the requests that are
served, and behind them those that wait, are in the order in which they were
called (`Run.answers_in_order`), and each request is served, refused or waiting.
-/

variable {α : Type*}

/-- What can happen to the requests. -/
inductive AnswerEvent (α : Type*)
  /-- A request. -/
  | call (a : α)
  /-- The request that has waited longest is served. -/
  | serve (a : α)
  /-- A request is refused. -/
  | refuse (a : α)
  /-- Nothing happens to the requests. -/
  | stay

namespace AnswerEvent

/-- The request that comes. -/
def called : AnswerEvent α → Option α
  | call a => some a
  | _ => none

/-- The request that is served. -/
def served : AnswerEvent α → Option α
  | serve a => some a
  | _ => none

/-- The request that is served or refused. -/
def answered : AnswerEvent α → Option α
  | serve a | refuse a => some a
  | _ => none

end AnswerEvent

/-- **The steps of the requests that wait.** -/
inductive AnswerStep : List α → AnswerEvent α → List α → Prop
  | call {Q : List α} {a : α} : AnswerStep Q (.call a) (Q ++ [a])
  | serve {Q : List α} {a : α} : AnswerStep (a :: Q) (.serve a) Q
  | refuse {l r : List α} {a : α} : AnswerStep (l ++ a :: r) (.refuse a) (l ++ r)
  | stay {Q : List α} : AnswerStep Q .stay Q

variable {Q Q' : List α} {e : AnswerEvent α} {es : List (AnswerEvent α)}

theorem run_serves (as Q : List α) :
    Run AnswerStep (as ++ Q) (as.map .serve) Q := by
  induction as with
  | nil => exact Run.nil
  | cons a as ih => exact Run.cons .serve ih

theorem run_stays (h : ∀ e ∈ es, e = .stay) : Run AnswerStep Q es Q := by
  induction es with
  | nil => exact Run.nil
  | cons e es ih =>
    obtain ⟨rfl, hes⟩ := List.forall_mem_cons.mp h
    exact Run.cons .stay (ih hes)

/-- **One step**: what is served goes from the front of what waits, and what is
called to its end. -/
theorem AnswerStep.sublist (h : AnswerStep Q e Q') :
    (e.served.toList ++ Q').Sublist (Q ++ e.called.toList) := by
  cases h with
  | call => exact List.Sublist.refl _
  | serve => exact (List.append_nil _).symm ▸ List.Sublist.refl _
  | @refuse l r a =>
    show (l ++ r).Sublist (l ++ a :: r ++ [])
    rw [List.append_nil]
    exact List.Sublist.append_left (List.sublist_cons_self a r) l
  | stay => exact (List.append_nil _).symm ▸ List.Sublist.refl _

theorem AnswerStep.perm (h : AnswerStep Q e Q') :
    (e.answered.toList ++ Q').Perm (Q ++ e.called.toList) := by
  cases h with
  | call => exact List.Perm.refl _
  | serve => exact (List.append_nil _).symm ▸ List.Perm.refl _
  | @refuse l r a =>
    show (a :: (l ++ r)).Perm (l ++ a :: r ++ [])
    rw [List.append_nil]
    exact List.perm_middle.symm
  | stay => exact (List.append_nil _).symm ▸ List.Perm.refl _

/-- **Answers come in order**, refusals apart, and each request has at most
one. -/
theorem Run.answers_in_order (h : Run AnswerStep [] es Q) :
    (es.filterMap AnswerEvent.served ++ Q).Sublist (es.filterMap AnswerEvent.called)
    ∧ (es.filterMap AnswerEvent.answered ++ Q).Perm
      (es.filterMap AnswerEvent.called) := by
  induction h with
  | nil => exact ⟨List.Sublist.refl _, List.Perm.refl _⟩
  | snoc _ hs ih =>
    rw [filterMap_snoc, filterMap_snoc, filterMap_snoc, List.append_assoc,
      List.append_assoc]
    refine ⟨(hs.sublist.append_left _).trans ?_, (hs.perm.append_left _).trans ?_⟩
    · rw [← List.append_assoc]
      exact ih.1.append_right _
    · rw [← List.append_assoc]
      exact ih.2.append_right _
