import Mathlib.Algebra.Order.BigOperators.Group.List
import Mathlib.Algebra.Order.Ring.Nat

/-!
# Tallies over a list

Shared counters are sums over the parties that share them. When one party changes, the sum changes
by what it contributed before and contributes now.
-/

namespace Tally

open List

variable {α : Type} {l : List α} {i : Nat} {a b : α} {p : α → Prop}

theorem sum_map_set (f : α → Nat) (h : l[i]? = some a) :
    ((l.set i b).map f).sum + f a = (l.map f).sum + f b := by
  induction l generalizing i with
  | nil => cases h
  | cons x l ih =>
    cases i with
    | zero =>
      simp only [getElem?_cons_zero, Option.some.injEq] at h
      simp only [set_cons_zero, map_cons, sum_cons, h]
      omega
    | succ i =>
      have hi := ih (i := i) (by simpa using h)
      simp only [set_cons_succ, map_cons, sum_cons]
      omega

theorem le_sum_map (f : α → Nat) (h : l[i]? = some a) : f a ≤ (l.map f).sum :=
  le_sum_of_mem (mem_map_of_mem (mem_of_getElem? h))

theorem forall_mem_iff (h : l[i]? = some a) :
    (∀ x ∈ l, p x) ↔ p a ∧ ∀ j x, j ≠ i → l[j]? = some x → p x := by
  constructor
  · intro hall
    exact ⟨hall a (mem_of_getElem? h), fun j x _ hx => hall x (mem_of_getElem? hx)⟩
  · rintro ⟨ha, hother⟩ x hx
    obtain ⟨j, hj⟩ := mem_iff_getElem?.mp hx
    by_cases hji : j = i
    · subst hji
      cases h.symm.trans hj
      exact ha
    · exact hother j x hji hj

theorem forall_mem_set_iff (h : l[i]? = some a) :
    (∀ x ∈ l.set i b, p x) ↔ p b ∧ ∀ j x, j ≠ i → l[j]? = some x → p x := by
  obtain ⟨hi, -⟩ := List.getElem?_eq_some_iff.mp h
  have hset : (l.set i b)[i]? = some b := by simp [hi]
  rw [forall_mem_iff hset]
  refine and_congr_right fun _ => forall_congr' fun j => forall_congr' fun x => ?_
  refine forall_congr' fun hne => ?_
  rw [getElem?_set_ne (Ne.symm hne)]

end Tally
