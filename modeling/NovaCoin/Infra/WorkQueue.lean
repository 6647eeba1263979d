import Mathlib.Data.List.Nodup

/-!
# Work queues

A loop over a queue by position, whose rounds may put more at the end of the queue. The number of
rounds is the length of the queue in the end; `fuel` bounds it from above, and is enough as soon
as the queue cannot become longer. `Reaches` are the states at the beginning of the rounds: what
they take from the queue is what is in it in the end (`mem_queue_iff`).
-/

namespace WorkQueue

open List

variable {σ κ : Type} (queue : σ → List κ) (round : σ → κ → σ)

/-- The loop from position `i` on. -/
def run : Nat → Nat → σ → Option σ
  | 0, _, _ => none
  | fuel + 1, i, s =>
    match (queue s)[i]? with
    | none => some s
    | some k => run fuel (i + 1) (round s k)

/-- The loop that starts with `s₀` comes to position `i` with the state `s`. -/
inductive Reaches (s₀ : σ) : Nat → σ → Prop
  | start : Reaches s₀ 0 s₀
  | round {i : Nat} {s : σ} {k : κ} (h : Reaches s₀ i s) (hk : (queue s)[i]? = some k) :
      Reaches s₀ (i + 1) (round s k)

variable {queue round} {I : Nat → σ → Prop}

/-- What every round keeps holds when the loop ends, at the end of the queue. -/
theorem run_induct (hround : ∀ i s k, I i s → (queue s)[i]? = some k → I (i + 1) (round s k)) :
    ∀ {fuel i : Nat} {s s' : σ}, I i s → run queue round fuel i s = some s' →
      ∃ j, I j s' ∧ (queue s').length ≤ j
  | fuel + 1, i, s, s', hi, h => by
    rw [run] at h
    split at h
    · next hend =>
      cases h
      exact ⟨i, hi, getElem?_eq_none_iff.mp hend⟩
    · next k hk => exact run_induct hround (hround i s k hi hk) h

theorem exists_run {n : Nat}
    (hround : ∀ i s k, I i s → (queue s)[i]? = some k → I (i + 1) (round s k))
    (hshort : ∀ i s, I i s → (queue s).length ≤ n) :
    ∀ {fuel i : Nat} {s : σ}, I i s → n < fuel + i → 0 < fuel →
      ∃ s', run queue round fuel i s = some s'
  | fuel + 1, i, s, hi, hfuel, _ => by
    rw [run]
    split
    · exact ⟨s, rfl⟩
    · next k hk =>
      have hlt : i < (queue s).length := (List.getElem?_eq_some_iff.mp hk).1
      have hle := hshort i s hi
      exact exists_run hround hshort (hround i s k hi hk) (by omega) (by omega)

theorem notMem_take {l : List κ} (hl : l.Nodup) {i : Nat} {k : κ} (hi : l[i]? = some k) :
    k ∉ l.take i := by
  intro hmem
  obtain ⟨j, hj⟩ := mem_iff_getElem?.mp hmem
  rw [getElem?_take] at hj
  split at hj
  · next hlt =>
    have hlen : i < l.length := (List.getElem?_eq_some_iff.mp hi).1
    exact nodup_iff_getElem?_ne_getElem?.mp hl j i hlt hlen (hj.trans hi.symm)
  · cases hj

/-! ## The states of the rounds -/

section

variable {s₀ s s' : σ} {i fuel : Nat}

theorem Reaches.induct (hround : ∀ i s k, I i s → (queue s)[i]? = some k → I (i + 1) (round s k))
    (h₀ : I 0 s₀) (h : Reaches queue round s₀ i s) : I i s := by
  induction h with
  | start => exact h₀
  | round _ hk ih => exact hround _ _ _ ih hk

theorem Reaches.run_eq (hrun : run queue round fuel 0 s₀ = some s')
    (h : Reaches queue round s₀ i s) : ∃ fuel', run queue round fuel' i s = some s' := by
  induction h with
  | start => exact ⟨fuel, hrun⟩
  | round _ hk ih =>
    obtain ⟨fuel', hrun'⟩ := ih
    cases fuel' with
    | zero => cases hrun'
    | succ fuel' =>
      rw [run, hk] at hrun'
      exact ⟨fuel', hrun'⟩

variable (hgrow : ∀ s k, queue s <+: queue (round s k))

include hgrow

theorem isPrefix_run (hrun : run queue round fuel i s = some s') :
    queue s <+: queue s' := by
  obtain ⟨_, h, -⟩ := run_induct (I := fun _ t => queue s <+: queue t)
    (fun _ t k h _ => h.trans (hgrow t k)) (prefix_refl _) hrun
  exact h

theorem Reaches.exists_earlier (h : Reaches queue round s₀ i s) {j : Nat} (hj : j < i) :
    ∃ t k, Reaches queue round s₀ j t ∧ (queue t)[j]? = some k ∧ (queue s)[j]? = some k := by
  induction h with
  | start => cases hj
  | @round i s k h hk ih =>
    obtain ⟨more, hmore⟩ := hgrow s k
    -- a position of the old queue has the same element in the new one
    have hkeep : ∀ {m : Nat} {k' : κ}, (queue s)[m]? = some k' → (queue (round s k))[m]? = some k' := by
      intro m k' hm
      rw [← hmore, getElem?_append_left (List.getElem?_eq_some_iff.mp hm).1, hm]
    rcases Nat.lt_succ_iff_lt_or_eq.mp hj with hlt | rfl
    · obtain ⟨t, k', ht, htk, hsk⟩ := ih hlt
      exact ⟨t, k', ht, htk, hkeep hsk⟩
    · exact ⟨s, k, h, hk, hkeep hk⟩

theorem mem_queue_iff (hrun : run queue round fuel 0 s₀ = some s') {k : κ} :
    k ∈ queue s' ↔ ∃ i s, Reaches queue round s₀ i s ∧ (queue s)[i]? = some k := by
  constructor
  · intro hmem
    obtain ⟨m, hm⟩ := mem_iff_getElem?.mp hmem
    obtain ⟨j, hend, hlen⟩ := run_induct (I := Reaches queue round s₀) (fun _ _ _ => .round) .start
      hrun
    have hlt : m < j := Nat.lt_of_lt_of_le (List.getElem?_eq_some_iff.mp hm).1 hlen
    obtain ⟨t, k', ht, htk, hsk⟩ := hend.exists_earlier hgrow hlt
    cases hm.symm.trans hsk
    exact ⟨m, t, ht, htk⟩
  · rintro ⟨i, s, h, hk⟩
    obtain ⟨fuel', hrest⟩ := h.run_eq hrun
    exact (isPrefix_run hgrow hrest).mem (mem_of_getElem? hk)

end

end WorkQueue
