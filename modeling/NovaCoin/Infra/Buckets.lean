import Mathlib.Algebra.BigOperators.Fin
import Mathlib.Algebra.Order.BigOperators.Group.Finset

/-!
# Buckets

A table of finitely many buckets, and totals over it. If one bucket is exchanged, a total changes by
what this bucket adds to it (`total_update`).
-/

namespace Buckets

open List

open Function (update)

variable {ι β : Type} [Fintype ι]

def total (w : β → Nat) (f : ι → β) : Nat := ∑ b, w (f b)

theorem total_update [DecidableEq ι] (w : β → Nat) (f : ι → β) (b : ι) (x : β) :
    total w (update f b x) + w (f b) = total w f + w x := by
  have hnew : total w (update f b x) = w x + ∑ i ∈ Finset.univ.erase b, w (f i) := by
    rw [total, ← Finset.add_sum_erase _ _ (Finset.mem_univ b), Function.update_self]
    congr 1
    refine Finset.sum_congr rfl fun i hi => ?_
    rw [Function.update_of_ne (Finset.ne_of_mem_erase hi)]
  have hold : total w f = w (f b) + ∑ i ∈ Finset.univ.erase b, w (f i) :=
    (Finset.add_sum_erase _ _ (Finset.mem_univ b)).symm
  omega

theorem le_total (w : β → Nat) (f : ι → β) (b : ι) : w (f b) ≤ total w f :=
  Finset.single_le_sum (f := fun b => w (f b)) (fun _ _ => Nat.zero_le _) (Finset.mem_univ b)

variable {w : β → Nat} {f : ι → β} {k : Nat} {α : Type}

theorem exists_of_total_pos (h : 0 < total w f) : ∃ b, 0 < w (f b) := by
  by_contra hnot
  push Not at hnot
  have hzero : total w f = 0 := Finset.sum_eq_zero fun b _ => Nat.le_zero.mp (hnot b)
  omega

theorem total_congr {γ : Type} {w' : γ → Nat} {f' : ι → γ} (h : ∀ b, w (f b) = w' (f' b)) :
    total w f = total w' f' :=
  Finset.sum_congr rfl fun b _ => h b

/-- What adds up to one is in one bucket. -/
theorem eq_of_total_le_one (h : total w f ≤ 1) {b b' : ι} (hb : 0 < w (f b)) (hb' : 0 < w (f b')) :
    b = b' := by
  by_contra hne
  have hpair := Finset.add_le_sum (f := fun i => w (f i)) (fun _ _ => Nat.zero_le _)
    (Finset.mem_univ b) (Finset.mem_univ b') hne
  unfold total at h
  omega

theorem total_le (h : ∀ b, w (f b) ≤ k) : total w f ≤ Fintype.card ι * k := by
  have hsum := Finset.sum_le_card_nsmul Finset.univ (fun b => w (f b)) k fun b _ => h b
  rwa [smul_eq_mul] at hsum

theorem countP_finRange (f : Fin k → β) (p : β → Prop) [DecidablePred p] :
    (List.finRange k).countP (fun b => decide (p (f b))) = total (fun x => if p x then 1 else 0) f := by
  have hsum : ∀ l : List (Fin k), l.countP (fun b => decide (p (f b))) =
      (l.map fun b => if p (f b) then 1 else 0).sum := by
    intro l
    induction l with
    | nil => rfl
    | cons b l ih =>
      rw [countP_cons, ih, map_cons, sum_cons, Nat.add_comm]
      simp only [decide_eq_true_eq]
  rw [hsum, total, Fin.sum_univ_def]

theorem count_flatMap_finRange [DecidableEq α] (f : Fin k → β) (g : β → List α) (a : α) :
    ((List.finRange k).flatMap fun b => g (f b)).count a =
      total (fun x => (g x).count a) f := by
  rw [count_flatMap, total]
  rfl

theorem length_flatMap_finRange (f : Fin k → List α) :
    ((List.finRange k).flatMap f).length = total List.length f := by
  rw [length_flatMap, total, Fin.sum_univ_def]

theorem length_le_of_cover [DecidableEq α] {v : List α} {f : ι → List α} (hnodup : v.Nodup)
    (hcover : ∀ a ∈ v, ∃ b, a ∈ f b) (hle : ∀ b, (f b).length ≤ k) :
    v.length ≤ Fintype.card ι * k := by
  have hsub : v.toFinset ⊆ Finset.univ.biUnion fun b => (f b).toFinset := by
    intro a ha
    obtain ⟨b, hb⟩ := hcover a (mem_toFinset.mp ha)
    exact Finset.mem_biUnion.mpr ⟨b, Finset.mem_univ b, mem_toFinset.mpr hb⟩
  rw [← toFinset_card_of_nodup hnodup]
  exact (Finset.card_le_card hsub).trans (Finset.card_biUnion_le_card_mul _ _ k
    fun b _ => (toFinset_card_le _).trans (hle b))

-- a sum over many buckets is never computed
attribute [irreducible] total

end Buckets
