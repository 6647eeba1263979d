import Mathlib.Data.List.Forall2
import NovaCoin.Util

/-!
# Masks

`WildcardMatch` tries what `*` may stand for, the shortest first. It finds a match if there is one.
-/

namespace NovaCoin

open List

/-- What may replace a byte of a mask: `*` any string, `?` any byte, another one only itself. -/
def Replaces (c : UInt8) (t : List UInt8) : Prop := c = 42 ∨ ∃ p, (c = 63 ∨ p = c) ∧ t = [p]

def Glob (mask s : List UInt8) : Prop := ∃ ts, Forall₂ Replaces mask ts ∧ ts.flatten = s

theorem glob_cons {c : UInt8} {mask s : List UInt8} :
    Glob (c :: mask) s ↔ ∃ t s', Replaces c t ∧ t ++ s' = s ∧ Glob mask s' := by
  simp only [Glob, forall₂_cons_left_iff]
  constructor
  · rintro ⟨_, ⟨t, ts, ht, hts, rfl⟩, rfl⟩
    exact ⟨t, ts.flatten, ht, flatten_cons.symm, ts, hts, rfl⟩
  · rintro ⟨t, _, ht, rfl, ts, hts, rfl⟩
    exact ⟨t :: ts, ⟨t, ts, ht, hts, rfl⟩, flatten_cons⟩

theorem wildcardMatch_iff (psz mask : List UInt8) : wildcardMatch psz mask ↔ Glob mask psz := by
  fun_induction wildcardMatch psz mask with
  | case1 psz =>
    simp only [Glob, forall₂_nil_left_iff, exists_eq_left, flatten_nil, List.isEmpty_iff]
    exact eq_comm
  | case2 mask ih => simp [ih, glob_cons, Replaces]
  | case3 c mask h => simp [glob_cons, Replaces, h]
  | case4 p psz mask ih ih' =>
    -- `*` stands for nothing, or for the first byte and what it stands for in the rest
    rw [Bool.or_eq_true, ih, ih', glob_cons, glob_cons]
    constructor
    · rintro (h | ⟨t, s', -, rfl, h⟩)
      · exact ⟨[], p :: psz, .inl rfl, rfl, h⟩
      · exact ⟨p :: t, s', .inl rfl, rfl, h⟩
    · rintro ⟨_ | ⟨p', t⟩, s', -, heq, h⟩
      · exact .inl (heq ▸ h)
      · obtain ⟨rfl, rfl⟩ := cons.inj heq
        exact .inr ⟨t, s', .inl rfl, rfl, h⟩
  | case5 p psz c mask hne h =>
    simp only [glob_cons, Replaces, hne, Bool.and_eq_true, bne_iff_ne] at h ⊢
    grind
  | case6 p psz c mask hne h ih =>
    simp only [ih, glob_cons, Replaces, hne, Bool.and_eq_true, bne_iff_ne] at h ⊢
    grind

/-- A mask matches what it becomes by replacing each `*` and each `?`. -/
theorem wildcardMatch_iff_glob (str mask : List UInt8) (hstr : 0 ∉ str) (hmask : 0 ∉ mask) :
    wildcardMatch (cStr str) (cStr mask) ↔ Glob mask str := by
  have hcStr {s : List UInt8} (h : 0 ∉ s) : cStr s = s :=
    takeWhile_eq_self_iff.mpr fun c hc => bne_iff_ne.mpr fun heq => h (heq ▸ hc)
  rw [hcStr hstr, hcStr hmask, wildcardMatch_iff]

/-- `ab` and `*?`. -/
theorem wildcardMatch_ab : wildcardMatch (cStr [97, 98]) (cStr [42, 63]) ∧ Glob [42, 63] [97, 98] := by
  have hglob : Glob [42, 63] [97, 98] := ⟨[[97], [98]], by simp [Replaces], rfl⟩
  exact ⟨(wildcardMatch_iff_glob _ _ (by decide) (by decide)).mpr hglob, hglob⟩

end NovaCoin
