import Mathlib.Data.List.Infix

/-!
# Runs

A state and a list of calls, each of which may fail to give a next state. Invariants of the steps
hold in every state of a run (`run_invariant`); a property that a step keeps exactly under some
condition holds all along a run exactly if all its steps meet the condition (`forall_prefix_iff`).
-/

namespace Runs

open List

variable {σ ι : Type} (step : σ → ι → Option σ)

def run (s : σ) (calls : List ι) : Option σ := calls.foldlM step s

variable {step}

variable {calls : List ι} {sEnd s₀ : σ}

theorem run_append_singleton {s s' : σ} {i : ι} :
    run step s (calls ++ [i]) = some s' ↔ ∃ t, run step s calls = some t ∧ step t i = some s' := by
  simp [run, foldlM_append, Option.bind_eq_some_iff]

/-- The run of steps that never fail. -/
theorem run_some (f : σ → ι → σ) (calls : List ι) (s : σ) :
    run (fun s i => some (f s i)) s calls = some (calls.foldl f s) :=
  foldlM_pure

theorem run_congr {step' : σ → ι → Option σ} (h : ∀ s, ∀ i ∈ calls, step s i = step' s i) :
    ∀ s, run step s calls = run step' s calls := by
  induction calls with
  | nil => exact fun s => rfl
  | cons i calls ih =>
    intro s
    simp only [run, foldlM_cons, h s i mem_cons_self] at ih ⊢
    congr 1
    funext s'
    exact ih (fun s j hj => h s j (mem_cons_of_mem i hj)) s'

theorem exists_run_of {I : σ → Prop} (h : ∀ i ∈ calls, ∀ s, I s → ∃ s', step s i = some s' ∧ I s') :
    ∀ {s : σ}, I s → ∃ s', run step s calls = some s' ∧ I s' := by
  induction calls with
  | nil => exact fun {s} hs => ⟨s, rfl, hs⟩
  | cons i calls ih =>
    intro s hs
    rw [forall_mem_cons] at h
    obtain ⟨s₁, hstep, hs₁⟩ := h.1 s hs
    obtain ⟨s₂, hrun, hs₂⟩ := ih h.2 hs₁
    exact ⟨s₂, by rw [run, foldlM_cons, hstep]; exact hrun, hs₂⟩

theorem exists_step {s : σ} {pre : List ι} {i : ι} (hend : run step s₀ calls = some sEnd)
    (hpre : pre ++ [i] <+: calls) (hs : run step s₀ pre = some s) : ∃ s', step s i = some s' := by
  obtain ⟨rest, rfl⟩ := hpre
  simp only [run, foldlM_append, foldlM_cons, foldlM_nil, Option.bind_eq_bind,
    Option.bind_eq_some_iff] at hend
  obtain ⟨t, ⟨t', ht, s', hs', -⟩, -⟩ := hend
  cases hs.symm.trans ht
  exact ⟨s', hs'⟩

section

variable {I P : σ → Prop} {C D : σ → ι → Prop}
  (hI : ∀ s i s', I s → D s i → step s i = some s' → I s') (h₀ : I s₀)

include hI h₀

theorem run_invariant_of (calls : List ι)
    (hD : ∀ pre i, pre ++ [i] <+: calls → ∀ s, run step s₀ pre = some s → D s i) :
    ∀ {s : σ}, run step s₀ calls = some s → I s := by
  induction calls using reverseRecOn with
  | nil =>
    intro s h
    cases h
    exact h₀
  | append_singleton calls i ih =>
    intro s h
    obtain ⟨t, ht, hs⟩ := run_append_singleton.mp h
    have hIt : I t := ih (fun pre j hpre => hD pre j (hpre.trans (prefix_append calls [i]))) ht
    exact hI t i s hIt (hD calls i (prefix_refl _) t ht) hs

/-- If each step keeps `P` exactly under `C`, a run keeps it exactly if `C` holds at every step. -/
theorem forall_prefix_iff_of
    (hP : ∀ s i s', I s → D s i → P s → step s i = some s' → (P s' ↔ C s i)) (hP₀ : P s₀)
    (hend : run step s₀ calls = some sEnd)
    (hD : ∀ pre i, pre ++ [i] <+: calls → ∀ s, run step s₀ pre = some s → D s i) :
    (∀ pre, pre <+: calls → ∀ s, run step s₀ pre = some s → P s) ↔
      ∀ pre i, pre ++ [i] <+: calls → ∀ s, run step s₀ pre = some s → C s i := by
  have hinv : ∀ pre, pre <+: calls → ∀ s, run step s₀ pre = some s → I s := fun pre hpre s hs =>
    run_invariant_of hI h₀ pre (fun pre' i hpre' => hD pre' i (hpre'.trans hpre)) hs
  constructor
  · intro hall pre i hpre s hs
    have hpre' : pre <+: calls := (prefix_append pre [i]).trans hpre
    obtain ⟨s', hs'⟩ := exists_step hend hpre hs
    have hps' : P s' := hall _ hpre s' (run_append_singleton.mpr ⟨s, hs, hs'⟩)
    exact (hP s i s' (hinv pre hpre' s hs) (hD pre i hpre s hs) (hall pre hpre' s hs) hs').mp hps'
  · intro hall pre
    induction pre using reverseRecOn with
    | nil =>
      intro _ s hs
      cases hs
      exact hP₀
    | append_singleton pre i ih =>
      intro hpre s' h
      obtain ⟨s, hs, hs'⟩ := run_append_singleton.mp h
      have hpre' : pre <+: calls := (prefix_append pre [i]).trans hpre
      exact (hP s i s' (hinv pre hpre' s hs) (hD pre i hpre s hs) (ih hpre' s hs) hs').mpr
        (hall pre i hpre s hs)

end

section

variable {I P : σ → Prop} {C : σ → ι → Prop} (hI : ∀ s i s', I s → step s i = some s' → I s')
  (h₀ : I s₀)

include hI h₀

theorem run_invariant (calls : List ι) : ∀ {s : σ}, run step s₀ calls = some s → I s :=
  run_invariant_of (D := fun _ _ => True) (fun s i s' h _ => hI s i s' h) h₀ calls
    fun _ _ _ _ _ => trivial

theorem exists_run (htotal : ∀ s i, I s → ∃ s', step s i = some s') (calls : List ι) :
    ∃ s, run step s₀ calls = some s := by
  obtain ⟨s, hs, -⟩ : ∃ s, run step s₀ calls = some s ∧ I s := exists_run_of (fun i _ s h => by
    obtain ⟨s', hs'⟩ := htotal s i h
    exact ⟨s', hs', hI s i s' h hs'⟩) h₀
  exact ⟨s, hs⟩

theorem forall_prefix_iff (hP : ∀ s i s', I s → P s → step s i = some s' → (P s' ↔ C s i))
    (hP₀ : P s₀) (hend : run step s₀ calls = some sEnd) :
    (∀ pre, pre <+: calls → ∀ s, run step s₀ pre = some s → P s) ↔
      ∀ pre i, pre ++ [i] <+: calls → ∀ s, run step s₀ pre = some s → C s i :=
  forall_prefix_iff_of (D := fun _ _ => True) (fun s i s' h _ => hI s i s' h) h₀
    (fun s i s' h _ => hP s i s' h) hP₀ hend fun _ _ _ _ _ => trivial

end

theorem forall_prefix_of_getElem {D : σ → ι → Prop} (h : ∀ k < calls.length,
      ∀ i ∈ calls[k]?, ∀ s ∈ run step s₀ (calls.take k), D s i) :
    ∀ pre i, pre ++ [i] <+: calls → ∀ s, run step s₀ pre = some s → D s i := by
  rintro pre i ⟨rest, rfl⟩ s hs
  exact h pre.length (by simp) i (by simp) s (by simpa using hs)

theorem forall_prefix_foldl_iff {f : σ → ι → σ} {P : σ → Prop} {C : σ → ι → Prop}
    (hP : ∀ s i, P s → (P (f s i) ↔ C s i)) (hP₀ : P s₀) (calls : List ι) :
    (∀ pre, pre <+: calls → P (pre.foldl f s₀)) ↔
      ∀ pre i, pre ++ [i] <+: calls → C (pre.foldl f s₀) i := by
  have hstep : ∀ s i s', True → P s → some (f s i) = some s' → (P s' ↔ C s i) :=
    fun s i s' _ hs h => Option.some.inj h ▸ hP s i hs
  have hiff := forall_prefix_iff (I := fun _ => True) (fun _ _ _ _ _ => trivial) trivial hstep hP₀
    (run_some f calls s₀)
  simpa only [run_some, Option.some.injEq, forall_eq'] using hiff

end Runs
