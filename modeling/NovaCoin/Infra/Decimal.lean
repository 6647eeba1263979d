import Mathlib.Data.List.TakeWhile
import Mathlib.Data.Nat.Digits.Lemmas

/-!
# Decimal numbers as bytes

Numbers written with digits and a sign, and read back as C does: blanks, a sign, and the digits up
to the first byte that is none.
-/

namespace Decimal

open List

def digit (d : Nat) : UInt8 := UInt8.ofNat (48 + d)

def isDigit (c : UInt8) : Bool := 48 ≤ c && c ≤ 57

def isSpace (c : UInt8) : Bool := c == 32 || 9 ≤ c && c ≤ 13

def print (n : Nat) : List UInt8 :=
  if n = 0 then [digit 0] else ((Nat.digits 10 n).map digit).reverse

def printInt (n : Int) : List UInt8 := if n < 0 then 45 :: print n.natAbs else print n.natAbs

/-- The value of the digits at the front. -/
def scan (s : List UInt8) : Nat :=
  (s.takeWhile isDigit).foldl (fun n c => (c.toNat - 48) + 10 * n) 0

def scanInt (s : List UInt8) : Int :=
  match s.dropWhile isSpace with
  | [] => 0
  | c :: rest => if c = 45 then -scan rest else if c = 43 then scan rest else scan (c :: rest)

theorem toNat_digit {d : Nat} (h : d < 10) : (digit d).toNat = 48 + d := by
  rw [digit, UInt8.toNat_ofNat']
  omega

theorem isDigit_digit {d : Nat} (h : d < 10) : isDigit (digit d) := by
  have hd := toNat_digit h
  simp only [isDigit, Bool.and_eq_true, decide_eq_true_eq, UInt8.le_iff_toNat_le, hd]
  exact ⟨Nat.le_add_right 48 d, show 48 + d ≤ 57 by omega⟩

theorem isDigit_of_mem_print {n : Nat} : ∀ c ∈ print n, isDigit c := by
  intro c hc
  rw [print] at hc
  split at hc
  · rw [mem_singleton.mp hc]
    rfl
  · obtain ⟨d, hd, rfl⟩ := mem_map.mp (mem_reverse.mp hc)
    exact isDigit_digit (Nat.digits_lt_base (by decide) hd)

theorem foldl_reverse_digits {α : Type} {b : Nat} {f : Nat → α} {g : Nat → α → Nat}
    (h : ∀ d < b, ∀ n, g n (f d) = d + b * n) : ∀ {ds : List Nat}, (∀ d ∈ ds, d < b) →
      (ds.map f).reverse.foldl g 0 = Nat.ofDigits b ds
  | [], _ => rfl
  | d :: ds, hds => by
    rw [forall_mem_cons] at hds
    rw [map_cons, reverse_cons, foldl_append, foldl_reverse_digits h hds.2, Nat.ofDigits_cons]
    exact h d hds.1 _

theorem scan_print (n : Nat) : scan (print n) = n := by
  rw [scan, takeWhile_eq_self_iff.mpr isDigit_of_mem_print, print]
  split
  · next h => rw [h]; rfl
  · rw [foldl_reverse_digits (fun d hd n => ?_) fun d hd => Nat.digits_lt_base (by decide) hd,
      Nat.ofDigits_digits]
    rw [toNat_digit hd, Nat.add_sub_cancel_left]

theorem scanInt_printInt (n : Int) : scanInt (printInt n) = n := by
  rw [printInt]
  split
  · rw [scanInt, dropWhile_cons_of_neg (by decide)]
    simp only [if_true, scan_print]
    omega
  · -- the first digit is neither blank nor a sign
    have hscan := scan_print n.natAbs
    cases hp : print n.natAbs with
    | nil =>
      rw [hp] at hscan
      have : scan [] = 0 := rfl
      show (0 : Int) = n
      omega
    | cons c rest =>
      have hc : isDigit c := isDigit_of_mem_print c (hp ▸ mem_cons_self)
      have hblank : isSpace c = false ∧ c ≠ 45 ∧ c ≠ 43 := by
        refine ⟨?_, (by rintro rfl; cases hc), (by rintro rfl; cases hc)⟩
        simp [isDigit, isSpace, ← UInt8.toNat_inj, UInt8.le_iff_toNat_le] at hc ⊢
        omega
      rw [scanInt, dropWhile_cons_of_neg (by simp [hblank.1])]
      simp only [if_neg hblank.2.1, if_neg hblank.2.2, ← hp, hscan]
      omega

end Decimal
