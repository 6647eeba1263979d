import NovaCoin.Uint256

/-!
# Products of uint256

The product with a word is exact modulo 2^256. The product of two numbers is never computed: the
result is the local variable that was to be multiplied.
-/

namespace NovaCoin

namespace Uint256

theorem value_words : ∀ k n, value (words k n) = n % 2 ^ (32 * k)
  | 0, n => (Nat.mod_one n).symm
  | k + 1, n => by
    rw [words, value, value_words, Nat.mul_succ, Nat.add_comm (32 * k), Nat.pow_add, Nat.mod_mul]
    rfl

theorem value_pn (x : Uint256) : value x.pn = x.toNat := by
  rw [pn, value_words, Nat.mod_eq_of_lt x.isLt]

theorem value_mulWords (b32 : UInt32) : ∀ {pn : List UInt32} {carry : UInt64}, carry.toNat < 2 ^ 32 →
    value (mulWords b32 carry pn) = (carry.toNat + b32.toNat * value pn) % 2 ^ (32 * pn.length)
  | [], _, _ => (Nat.mod_one _).symm
  | p :: pn, carry, hc => by
    have hmul : b32.toNat * p.toNat ≤ (2 ^ 32 - 1) * (2 ^ 32 - 1) :=
      Nat.mul_le_mul (Nat.le_pred_of_lt b32.toNat_lt) (Nat.le_pred_of_lt p.toNat_lt)
    have hn : (carry + b32.toUInt64 * p.toUInt64).toNat = carry.toNat + b32.toNat * p.toNat := by
      simp only [UInt64.toNat_add, UInt64.toNat_mul, UInt32.toNat_toUInt64]
      omega
    have hcarry : ((carry + b32.toUInt64 * p.toUInt64) >>> 32).toNat =
        (carry.toNat + b32.toNat * p.toNat) / 2 ^ 32 := by
      rw [UInt64.toNat_shiftRight, hn, Nat.shiftRight_eq_div_pow]
      rfl
    rw [mulWords, value, value_mulWords b32 (by omega), hcarry, UInt64.toNat_toUInt32, hn, value,
      List.length_cons, Nat.mul_succ, Nat.add_comm (32 * _), Nat.pow_add, Nat.mod_mul, Nat.mul_add,
      Nat.mul_left_comm, ← Nat.add_assoc, Nat.add_mul_mod_self_left, Nat.add_mul_div_left _ _ (by decide)]

theorem length_words : ∀ k n, (words k n).length = k
  | 0, _ => rfl
  | k + 1, _ => congrArg (· + 1) (length_words k _)

theorem mulAssign32_eq (x : Uint256) (b32 : UInt32) : x.mulAssign32 b32 = x * .ofNat 256 b32.toNat := by
  have h := @value_mulWords b32 x.pn 0 (by decide)
  rw [value_pn, pn, length_words] at h
  refine BitVec.eq_of_toNat_eq ?_
  rw [mulAssign32, ofPn, pn, h]
  simp [BitVec.toNat_mul, Nat.mul_comm]

/-- The product by `operator*=(uint32_t)` for each word of `b`, and shifts. -/
def mulByWords (x b : Uint256) : Uint256 :=
  b.pn.foldr (fun b32 r => (r <<< 32) + x.mulAssign32 b32) 0

theorem mulByWords_eq (x b : Uint256) : x.mulByWords b = x * b := by
  have h (pn : List UInt32) :
      pn.foldr (fun b32 (r : Uint256) => (r <<< 32) + x.mulAssign32 b32) 0 = x * ofPn pn := by
    induction pn with
    | nil => exact (BitVec.mul_zero).symm
    | cons p pn ih =>
      rw [List.foldr_cons, ih, mulAssign32_eq, ofPn, ofPn, value, BitVec.ofNat_add, BitVec.ofNat_mul,
        BitVec.shiftLeft_eq_mul_twoPow, BitVec.mul_add, BitVec.add_comm, BitVec.mul_assoc,
        BitVec.mul_comm (.ofNat 256 (2 ^ 32))]
      rfl
  rw [mulByWords, h, ofPn, value_pn, BitVec.ofNat_toNat, BitVec.setWidth_eq]

end Uint256

/-- The rows are made with the words of the fresh `a`, which is 0 and the result: the operator is right
exactly where the product is 0. -/
theorem mulAssign_eq_iff (x b : Uint256) : (x.mulAssign b = x * b ↔ x * b = 0) ∧
    (x.mulAssign b = x.mulByWords b ↔ x * b = 0) := by
  have hzero : x.mulAssign b = 0 := rfl
  rw [hzero, Uint256.mulByWords_eq]
  exact ⟨eq_comm, eq_comm⟩

/-- One times one is zero. -/
theorem mulAssign_one : Uint256.mulAssign 1 1 = 0 ∧ (1 : Uint256) * 1 = 1 ∧ Uint256.mulByWords 1 1 = 1 := by
  decide

end NovaCoin
