import Mathlib.Data.List.Sort
import Mathlib.Tactic.Linarith

/-!
# Medians of a sliding window

The median of a list is handled through counting: `x` is at most the median exactly when enough
elements are at least `x` (`le_median_iff`).

In a `Rising` sequence, newest first, each number is greater than the median of the window of the `n`
before it and at most `δ` below the one before it. Its medians never fall (`Rising.median_mono`), and
for a window of `2 * m + 1` no number is more than `m * δ` below an earlier one (`Rising.drift`).
-/

namespace Median

open List

theorem countP_take_succ {α : Type*} (p : α → Bool) (l : List α) (k : Nat) :
    (l.take (k + 1)).countP p ≤
      (l.take k).countP p + ((l.take (k + 1)).length - (l.take k).length) := by
  have hsplit : l.take (k + 1) = l.take k ++ (l.drop k).take 1 := take_add
  have hlen := countP_le_length (p := p) (l := (l.drop k).take 1)
  rw [hsplit, countP_append, length_append]
  omega

section Sorted

variable {α : Type*} [LinearOrder α]

variable {l : List α} {i : Nat}

theorem le_getElem_of_mem_take (hl : l.Pairwise (· ≤ ·)) (hi : i < l.length) {y : α}
    (hy : y ∈ l.take (i + 1)) : y ≤ l[i] := by
  obtain ⟨j, hj, rfl⟩ := mem_iff_getElem.mp hy
  rw [length_take] at hj
  rw [getElem_take]
  rcases Nat.lt_or_ge j i with hji | hji
  · exact pairwise_iff_getElem.mp hl j i _ hi hji
  · have : j = i := by omega
    subst this
    exact le_rfl

theorem le_getElem_iff_countP (hl : l.Pairwise (· ≤ ·)) (hi : i < l.length) (x : α) :
    x ≤ l[i] ↔ l.length - i ≤ l.countP (fun y => x ≤ y) := by
  constructor
  · intro h
    have hall : ∀ y ∈ l.drop i, decide (x ≤ y) := by
      intro y hy
      obtain ⟨j, hj, rfl⟩ := mem_iff_getElem.mp hy
      rw [getElem_drop, decide_eq_true_eq]
      rcases Nat.eq_zero_or_pos j with rfl | hpos
      · exact h
      · exact h.trans (pairwise_iff_getElem.mp hl i (i + j) hi _ (by omega))
    rw [← length_drop, ← countP_eq_length.mpr hall]
    exact (drop_sublist i l).countP_le
  · intro h
    by_contra hlt
    have hnone : ∀ y ∈ l.take (i + 1), ¬ decide (x ≤ y) := fun y hy hx =>
      hlt ((of_decide_eq_true hx).trans (le_getElem_of_mem_take hl hi hy))
    have hle : l.countP (fun y => x ≤ y) ≤ l.length - (i + 1) := by
      rw [← take_append_drop (i + 1) l, countP_append, countP_eq_zero.mpr hnone, Nat.zero_add,
        length_append, length_take]
      refine countP_le_length.trans ?_
      rw [length_drop]
      omega
    omega

theorem succ_le_countP_le_getElem (hl : l.Pairwise (· ≤ ·)) (hi : i < l.length) :
    i + 1 ≤ l.countP (fun y => y ≤ l[i]) := by
  have hall : ∀ y ∈ l.take (i + 1), decide (y ≤ l[i]) := fun y hy =>
    decide_eq_true (le_getElem_of_mem_take hl hi hy)
  calc i + 1 = (l.take (i + 1)).length := by rw [length_take]; omega
    _ = (l.take (i + 1)).countP (fun y => y ≤ l[i]) := (countP_eq_length.mpr hall).symm
    _ ≤ l.countP (fun y => decide (y ≤ l[i])) := (take_sublist (i + 1) l).countP_le

/-- The element at half the length of the sorted list. -/
def median (dflt : α) (l : List α) : α := (l.insertionSort (· ≤ ·)).getD (l.length / 2) dflt

theorem median_eq (dflt : α) (hl : l ≠ []) :
    ∃ hi : l.length / 2 < (l.insertionSort (· ≤ ·)).length,
      median dflt l = (l.insertionSort (· ≤ ·))[l.length / 2] := by
  have hlen : l.length / 2 < (l.insertionSort (· ≤ ·)).length := by
    rw [length_insertionSort]
    exact Nat.div_lt_self (length_pos_iff.mpr hl) (by omega)
  refine ⟨hlen, ?_⟩
  rw [median, getD_eq_getElem?_getD, getElem?_eq_getElem hlen, Option.getD_some]

theorem median_mem (dflt : α) (hl : l ≠ []) : median dflt l ∈ l := by
  obtain ⟨hi, hmedian⟩ := median_eq dflt hl
  rw [hmedian]
  exact (mem_insertionSort _).mp (getElem_mem hi)

theorem le_median_iff (dflt : α) (hl : l ≠ []) (x : α) :
    x ≤ median dflt l ↔ l.length - l.length / 2 ≤ l.countP (fun y => x ≤ y) := by
  obtain ⟨hi, hmedian⟩ := median_eq dflt hl
  rw [hmedian, le_getElem_iff_countP (pairwise_insertionSort _ _) hi, length_insertionSort,
    (perm_insertionSort (· ≤ ·) l).countP_eq]

theorem countP_le_median (dflt : α) (hl : l ≠ []) :
    l.length / 2 + 1 ≤ l.countP (fun y => y ≤ median dflt l) := by
  obtain ⟨hi, hmedian⟩ := median_eq dflt hl
  rw [hmedian, ← (perm_insertionSort (· ≤ ·) l).countP_eq]
  exact succ_le_countP_le_getElem (pairwise_insertionSort _ _) hi

section Robust

variable {β : Type*} {f : β → α} {bad : β → Bool} {l : List β}

/-- There is an element among the first kind that is not of the second, smaller one. -/
theorem exists_of_countP_lt {p : β → Bool} (h : l.countP bad < l.countP p) :
    ∃ e ∈ l, bad e = false ∧ p e := by
  by_contra hnone
  push Not at hnone
  refine absurd (countP_mono_left fun e he hp => ?_) (Nat.not_le.mpr h)
  rw [← Bool.not_eq_false]
  exact fun hbad => hnone e he hbad hp

theorem median_robust (dflt : α) (hbad : 2 * l.countP bad < l.length) :
    (∃ e ∈ l, bad e = false ∧ f e ≤ median dflt (l.map f)) ∧
      ∃ e ∈ l, bad e = false ∧ median dflt (l.map f) ≤ f e := by
  have hne : l.map f ≠ [] := by
    rw [Ne, map_eq_nil_iff, ← length_eq_zero_iff]
    omega
  have hlow := countP_le_median dflt hne
  have hhigh := (le_median_iff dflt hne _).mp le_rfl
  rw [countP_map, length_map] at hlow hhigh
  obtain ⟨e, he, hgood, hle⟩ := exists_of_countP_lt
    (show l.countP bad < l.countP ((fun y => decide (y ≤ median dflt (l.map f))) ∘ f) by omega)
  obtain ⟨e', he', hgood', hle'⟩ := exists_of_countP_lt
    (show l.countP bad < l.countP ((fun y => decide (median dflt (l.map f) ≤ y)) ∘ f) by omega)
  exact ⟨⟨e, he, hgood, of_decide_eq_true hle⟩, e', he', hgood', of_decide_eq_true hle'⟩

end Robust

theorem median_eq_least_iff (dflt : α) (hl : l ≠ []) {x : α} (hx : ∀ y ∈ l, x ≤ y) :
    median dflt l = x ↔ l.length / 2 < l.count x := by
  constructor
  · intro h
    have hcount := countP_le_median dflt hl
    rw [h] at hcount
    have hle : l.countP (fun y => y ≤ x) ≤ l.count x := countP_mono_left fun y hy hyx =>
      beq_iff_eq.mpr (le_antisymm (of_decide_eq_true hyx) (hx y hy))
    omega
  · intro hcount
    have hge := hx _ (median_mem dflt hl)
    refine le_antisymm (not_lt.mp fun hlt => ?_) hge
    -- the elements that are at least the median are not equal to `x`
    have hhigh := (le_median_iff dflt hl _).mp le_rfl
    have hsplit := length_eq_countP_add_countP (fun y => decide (median dflt l ≤ y)) (l := l)
    have hle : l.count x ≤ l.countP (fun y => decide (y < median dflt l)) :=
      countP_mono_left fun y _ hyx => decide_eq_true (beq_iff_eq.mp hyx ▸ hlt)
    simp only [decide_eq_true_eq, not_le] at hsplit
    omega

theorem median_take_cons (dflt : α) {n : Nat} (hn : 0 < n) (hl : l ≠ []) {t : α}
    (ht : median dflt (l.take n) ≤ t) : median dflt (l.take n) ≤ median dflt ((t :: l).take n) := by
  obtain ⟨k, rfl⟩ : ∃ k, n = k + 1 := ⟨n - 1, by omega⟩
  have hpos : 0 < l.length := length_pos_iff.mpr hl
  have hne : l.take (k + 1) ≠ [] := by
    rw [← length_pos_iff, length_take]
    omega
  have hold := (le_median_iff dflt hne _).mp le_rfl
  rw [take_succ_cons, le_median_iff dflt (cons_ne_nil _ _), countP_cons,
    if_pos (decide_eq_true ht)]
  have hdrop := countP_take_succ (fun y => decide (median dflt (l.take (k + 1)) ≤ y)) l k
  simp only [length_cons, length_take] at hold hdrop ⊢
  omega

end Sorted

/-! ## Sequences above the median of their window -/

/-- Each number but the first is above the median of the `n` before it and at most `δ` below the
last. Newest first. -/
def Rising (n : Nat) (δ : Int) : List Int → Prop
  | t :: u :: l => median 0 ((u :: l).take n) < t ∧ u - δ ≤ t ∧ Rising n δ (u :: l)
  | _ => True

namespace Rising

variable {n : Nat} {δ t : Int} {l : List Int}

theorem of_cons (h : Rising n δ (t :: l)) : Rising n δ l := by
  match l, h with
  | [], _ => trivial
  | _ :: _, h => exact h.2.2

variable {l₁ l₂ : List Int} {m : Nat}

theorem of_append (h : Rising n δ (l₁ ++ l₂)) : Rising n δ l₂ := by
  induction l₁ with
  | nil => exact h
  | cons t l ih => exact ih h.of_cons

theorem median_lt (hl : l ≠ []) (h : Rising n δ (t :: l)) :
    median 0 (l.take n) < t := by
  match l, hl, h with
  | _ :: _, _, h => exact h.1

/-- The medians never fall. -/
theorem median_mono (hn : 0 < n) (hl : l₂ ≠ []) (h : Rising n δ (l₁ ++ l₂)) :
    median 0 (l₂.take n) ≤ median 0 ((l₁ ++ l₂).take n) := by
  induction l₁ with
  | nil => exact le_rfl
  | cons t l₁ ih =>
    have hne : l₁ ++ l₂ ≠ [] := by simp [hl]
    exact (ih h.of_cons).trans (median_take_cons 0 hn hne (h.median_lt hne).le)

theorem step_bound {d a : Int} (h : Rising n δ (d :: (l₁ ++ a :: l₂))) :
    a - (l₁.length + 1) * δ ≤ d := by
  induction l₁ generalizing d with
  | nil =>
    have := h.2.1
    simp only [length_nil]
    push_cast
    linarith
  | cons t l₁ ih =>
    have hstep : t - δ ≤ d := h.2.1
    have := ih h.of_cons
    simp only [length_cons]
    push_cast
    linarith

theorem le_median_of_forall {x : Int} (l₂ : List Int) (hlen : l₁.length = m + 1)
    (hx : ∀ y ∈ l₁, x ≤ y) : x ≤ median 0 ((l₁ ++ l₂).take (2 * m + 1)) := by
  have htake : (l₁ ++ l₂).take (2 * m + 1) = l₁ ++ l₂.take m := by
    rw [take_append, take_of_length_le (by omega)]
    congr 2
    omega
  have hne : l₁ ++ l₂.take m ≠ [] := by
    intro he
    simp [(append_eq_nil_iff.mp he).1] at hlen
  have hcount : l₁.countP (fun y => decide (x ≤ y)) = m + 1 := by
    rw [← hlen, countP_eq_length]
    exact fun y hy => decide_eq_true (hx y hy)
  rw [htake, le_median_iff 0 hne, countP_append]
  simp only [length_append, length_take]
  omega

/-- A number is at most `m * δ` below any one before it. -/
theorem drift (hδ : 0 ≤ δ) {d a : Int} (h : Rising (2 * m + 1) δ (d :: (l₁ ++ a :: l₂))) :
    a - m * δ ≤ d := by
  by_cases hlt : l₁.length < m
  · have hbound := h.step_bound
    have hm : ((l₁.length : Int) + 1) * δ ≤ m * δ := mul_le_mul_of_nonneg_right (by omega) hδ
    linarith
  · -- the `m` numbers after `a`, with `a` itself, hold up all later medians
    obtain ⟨w₁, w₂, rfl, hw₂⟩ : ∃ w₁ w₂, l₁ = w₁ ++ w₂ ∧ w₂.length = m :=
      ⟨l₁.take (l₁.length - m), l₁.drop (l₁.length - m), (take_append_drop _ _).symm,
        by rw [length_drop]; omega⟩
    have hr := h.of_cons
    rw [append_assoc] at hr
    have hnear : ∀ y ∈ w₂ ++ [a], a - m * δ ≤ y := by
      intro y hy
      rcases mem_append.mp hy with hy | hy
      · obtain ⟨u₁, u₂, rfl⟩ := append_of_mem hy
        have hru := hr.of_append
        rw [append_assoc] at hru
        have hbound := hru.of_append.step_bound
        rw [length_append, length_cons] at hw₂
        have hm : ((u₂.length : Int) + 1) * δ ≤ m * δ := mul_le_mul_of_nonneg_right (by omega) hδ
        linarith
      · rw [mem_singleton] at hy
        have : 0 ≤ (m : Int) * δ := mul_nonneg (by omega) hδ
        linarith
    have hmed : a - m * δ ≤ median 0 ((w₂ ++ a :: l₂).take (2 * m + 1)) := by
      have := le_median_of_forall (m := m) l₂ (by simp [hw₂]) hnear
      rwa [append_assoc] at this
    have hmono := hr.median_mono (by omega) (by simp)
    have hlast := h.median_lt (by simp)
    rw [append_assoc] at hlast
    linarith

end Rising

end Median
