import Mathlib.Algebra.Order.BigOperators.Group.List
import Mathlib.Algebra.Order.Ring.Int

/-!
# The elements with a flag

A subset of a list as a list of flags, and what setting a flag does to a total over the subset.
-/

namespace Flagged

open List

variable {α : Type}

def pick : List α → List Bool → List α
  | a :: l, true :: flags => a :: pick l flags
  | _ :: l, false :: flags => pick l flags
  | [], _ => []
  | _, [] => []

@[simp] theorem pick_nil_left (flags : List Bool) : pick ([] : List α) flags = [] := by
  cases flags <;> rfl

@[simp] theorem pick_nil_right (l : List α) : pick l [] = [] := by cases l <;> rfl

theorem pick_sublist : ∀ (l : List α) (flags : List Bool), (pick l flags).Sublist l
  | [], flags => by simp
  | a :: l, [] => by simp
  | a :: l, true :: flags => (pick_sublist l flags).cons_cons a
  | a :: l, false :: flags => (pick_sublist l flags).cons a

@[simp] theorem pick_replicate_true : ∀ l : List α, pick l (List.replicate l.length true) = l
  | [] => rfl
  | a :: l => congrArg (a :: ·) (pick_replicate_true l)

@[simp] theorem pick_replicate_false : ∀ l : List α, pick l (List.replicate l.length false) = []
  | [] => rfl
  | _ :: l => pick_replicate_false l

section Totals

variable (f : α → Int)

theorem sum_pick_set : ∀ {l : List α} {flags : List Bool} {i : Nat} {a : α},
    l[i]? = some a → flags[i]? = some false →
      ((pick l (flags.set i true)).map f).sum = ((pick l flags).map f).sum + f a
  | [], _, _, _, h, _ => by cases h
  | _ :: _, [], _, _, _, h => by cases h
  | b :: l, flag :: flags, 0, a, h, hflag => by
    cases h
    cases hflag
    simp only [set_cons_zero, pick, map_cons, sum_cons]
    omega
  | b :: l, flag :: flags, i + 1, a, h, hflag => by
    have h' : l[i]? = some a := h
    have hflag' : flags[i]? = some false := hflag
    have ih := sum_pick_set h' hflag'
    cases flag with
    | true =>
      simp only [set_cons_succ, pick, map_cons, sum_cons, ih]
      omega
    | false => exact ih

/-- A part of a list has no larger total, if nothing is negative. -/
theorem sum_map_le_of_sublist {l l' : List α} (h : l'.Sublist l) (hf : ∀ a ∈ l, 0 ≤ f a) :
    0 ≤ (l'.map f).sum ∧ (l'.map f).sum ≤ (l.map f).sum :=
  ⟨sum_nonneg (forall_mem_map.mpr fun a ha => hf a (h.subset ha)),
    (h.map f).sum_le_sum (forall_mem_map.mpr hf)⟩

end Totals

end Flagged
