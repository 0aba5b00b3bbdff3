import Mathlib.Data.List.Cycle
import Mathlib.Logic.Function.Basic

/-!
# Doubly linked rings

Nodes that point to each other: `succ` and `pred` are the two pointers of each
node, `none` where there is no node. The nodes of a list are a ring when each
is linked with the next one and the last with the first, which is
`Cycle.Chain` of Mathlib for the relation `Linked`; as a property of a cycle it
does not depend on where the list starts.

What a program does to a ring is to write four pointers, or two. The lemmas
name the pointers that are written; what the two maps say elsewhere does not
matter to the ring.
-/

namespace DoublyLinked

variable {ι : Type*} {succ pred succ' pred' : ι → Option ι}

/-- `y` is behind `x`, and both know it. -/
def Linked (succ pred : ι → Option ι) (x y : ι) : Prop :=
  succ x = some y ∧ pred y = some x

/-- Each node of the list is linked with the next, and the last one with the
first. -/
def Ring (succ pred : ι → Option ι) (l : List ι) : Prop :=
  Cycle.Chain (Linked succ pred) l

theorem ring_nil : Ring succ pred [] := Cycle.Chain.nil _

/-- **A ring has no start.** -/
theorem ring_append_comm {l r : List ι} :
    Ring succ pred (l ++ r) ↔ Ring succ pred (r ++ l) := by
  have hrot : ((l ++ r : List ι) : Cycle ι) = (r ++ l : List ι) :=
    Cycle.coe_eq_coe.mpr List.isRotated_append
  rw [Ring, hrot, Ring]

theorem ring_singleton {x : ι} :
    Ring succ pred [x] ↔ succ x = some x ∧ pred x = some x :=
  Cycle.chain_singleton _ _

/-- **A ring from its first node to its last**, and back. -/
theorem ring_cons_iff {x z : ι} {l m : List ι} (h : x :: l = m ++ [z]) :
    Ring succ pred (x :: l) ↔
      List.IsChain (Linked succ pred) (x :: l) ∧ Linked succ pred z x := by
  have hround : x :: (l ++ [x]) = m ++ z :: [x] := by
    rw [← List.cons_append, h, List.append_assoc, List.singleton_append]
  rw [Ring, Cycle.chain_coe_cons, hround, List.isChain_append_cons_cons, h]
  exact and_congr_right (fun _ => and_iff_left (List.isChain_singleton x))

theorem exists_eq_append_singleton (x : ι) (l : List ι) :
    ∃ m z, x :: l = m ++ [z] :=
  ⟨_, _, (List.dropLast_append_getLast (List.cons_ne_nil x l)).symm⟩

theorem Ring.isChain {l : List ι} (h : Ring succ pred l) :
    List.IsChain (Linked succ pred) l := by
  cases l with
  | nil => exact List.IsChain.nil
  | cons x l =>
    obtain ⟨m, z, hlast⟩ := exists_eq_append_singleton x l
    exact ((ring_cons_iff hlast).mp h).1

theorem Ring.exists_pred {x : ι} {l : List ι} (h : Ring succ pred (x :: l)) :
    ∃ z ∈ x :: l, pred x = some z ∧ succ z = some x := by
  obtain ⟨m, z, hlast⟩ := exists_eq_append_singleton x l
  obtain ⟨hsucc, hpred⟩ := ((ring_cons_iff hlast).mp h).2
  exact ⟨z, by simp [hlast], hpred, hsucc⟩

theorem Ring.exists_succ {x : ι} {l : List ι} (h : Ring succ pred (x :: l)) :
    ∃ y ∈ x :: l, succ x = some y ∧ pred y = some x := by
  cases l with
  | nil => exact ⟨x, List.mem_singleton_self x, ring_singleton.mp h⟩
  | cons y l =>
    obtain ⟨m, w, hlast⟩ := exists_eq_append_singleton x (y :: l)
    exact ⟨y, by simp,
      (List.isChain_cons_cons.mp ((ring_cons_iff hlast).mp h).1).1⟩

variable [DecidableEq ι]

/-- **A node is taken out**: the nodes around it are linked with each other. -/
theorem Ring.erase {c x z : ι} {l : List ι} (h : Ring succ pred (c :: l))
    (hc : c ∉ l) (hx : succ c = some x) (hz : pred c = some z)
    (hsucc : ∀ a ∈ l, succ' a = Function.update succ z (some x) a)
    (hpred : ∀ a ∈ l, pred' a = Function.update pred x (some z) a) :
    Ring succ' pred' l := by
  cases l with
  | nil => exact ring_nil
  | cons y l =>
    obtain ⟨m, w, hlast⟩ := exists_eq_append_singleton y l
    have hlast' : c :: y :: l = (c :: m) ++ [w] := by
      rw [hlast, List.cons_append]
    obtain ⟨hchain, hback⟩ := (ring_cons_iff hlast').mp h
    obtain ⟨hfirst, hchain⟩ := List.isChain_cons_cons.mp hchain
    obtain rfl := Option.some.inj (hx.symm.trans hfirst.1)
    obtain rfl := Option.some.inj (hz.symm.trans hback.2)
    have hz : z ∈ x :: l := by simp [hlast]
    refine (ring_cons_iff hlast).mpr ⟨?_, ?_, ?_⟩
    · refine hchain.imp_of_mem_imp (fun a b ha hb hab => ⟨?_, ?_⟩)
      · have hne : a ≠ z := by
          rintro rfl
          obtain rfl := Option.some.inj (hback.1.symm.trans hab.1)
          exact hc hb
        rw [hsucc a ha, Function.update_of_ne hne, hab.1]
      · have hne : b ≠ x := by
          rintro rfl
          obtain rfl := Option.some.inj (hfirst.2.symm.trans hab.2)
          exact hc ha
        rw [hpred b hb, Function.update_of_ne hne, hab.2]
    · rw [hsucc z hz, Function.update_self]
    · rw [hpred x List.mem_cons_self, Function.update_self]

/-- **A node is put in** between the last node and the first. -/
theorem Ring.insert {c x z : ι} {l : List ι} (h : Ring succ pred (x :: l))
    (hnodup : (c :: x :: l).Nodup) (hz : pred x = some z)
    (hsucc : ∀ a ∈ c :: x :: l, succ' a
      = Function.update (Function.update succ c (some x)) z (some c) a)
    (hpred : ∀ a ∈ c :: x :: l, pred' a
      = Function.update (Function.update pred c (some z)) x (some c) a) :
    Ring succ' pred' (c :: x :: l) := by
  obtain ⟨hc, hx⟩ := List.nodup_cons.mp hnodup
  obtain ⟨m, w, hlast⟩ := exists_eq_append_singleton x l
  have hlast' : c :: x :: l = (c :: m) ++ [w] := by
    rw [hlast, List.cons_append]
  obtain ⟨hchain, hback⟩ := (ring_cons_iff hlast).mp h
  obtain rfl := Option.some.inj (hz.symm.trans hback.2)
  have hz : z ∈ x :: l := by simp [hlast]
  have hcz : c ≠ z := fun heq => hc (heq ▸ hz)
  have hcx : c ≠ x := fun heq => hc (heq ▸ List.mem_cons_self)
  refine (ring_cons_iff hlast').mpr ⟨List.isChain_cons_cons.mpr
    ⟨⟨?_, ?_⟩, ?_⟩, ?_, ?_⟩
  · rw [hsucc c List.mem_cons_self, Function.update_of_ne hcz,
      Function.update_self]
  · rw [hpred x (by simp), Function.update_self]
  · refine hchain.imp_of_mem_tail_imp (fun a b ha hb hab => ?_)
    have hbx : b ≠ x := fun heq => (List.nodup_cons.mp hx).1 (heq ▸ hb)
    have hb : b ∈ x :: l := List.mem_cons_of_mem _ hb
    have haz : a ≠ z := by
      rintro rfl
      exact hbx (Option.some.inj (hab.1.symm.trans hback.1))
    have hac : a ≠ c := fun heq => hc (heq ▸ ha)
    have hbc : b ≠ c := fun heq => hc (heq ▸ hb)
    refine ⟨?_, ?_⟩
    · rw [hsucc a (List.mem_cons_of_mem _ ha), Function.update_of_ne haz,
        Function.update_of_ne hac, hab.1]
    · rw [hpred b (List.mem_cons_of_mem _ hb), Function.update_of_ne hbx,
        Function.update_of_ne hbc, hab.2]
  · rw [hsucc z (List.mem_cons_of_mem _ hz), Function.update_self]
  · rw [hpred c List.mem_cons_self, Function.update_of_ne hcx,
      Function.update_self]

end DoublyLinked
