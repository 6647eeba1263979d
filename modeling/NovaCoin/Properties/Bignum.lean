import Mathlib.Data.Nat.Bitwise
import Mathlib.Data.Nat.Size
import NovaCoin.Script.Interpreter
import NovaCoin.Unserialize

/-!
# Numbers in scripts and headers

A script number is read back from its bytes, which are the shortest ones; there are longer ones,
and zero has a second sign. A compact target is below the number it is made from, by less than
one part in `2 ^ 15`; `uint256` reads and writes it as `CBigNum` does (`compact_types_agree`).
-/

namespace NovaCoin

open List

/-! ## Script numbers -/

theorem beNat_inj : ∀ {v w : List UInt8}, v.length = w.length → beNat v = beNat w → v = w
  | [], [], _, _ => rfl
  | b :: v, c :: w, hlen, h => by
    rw [length_cons, length_cons, Nat.add_right_cancel_iff] at hlen
    have hv := beNat_lt v
    have hw := beNat_lt w
    rw [beNat_cons, beNat_cons, hlen] at h
    rw [hlen] at hv
    have hhead := congrArg (· / 256 ^ w.length) h
    simp only [Nat.mul_comm _ (256 ^ w.length), Nat.mul_add_div (Nat.pow_pos (show 0 < 256 by omega)),
      Nat.div_eq_of_lt hv, Nat.div_eq_of_lt hw, Nat.add_zero, UInt8.toNat_inj] at hhead
    subst hhead
    rw [beNat_inj hlen (Nat.add_left_cancel h)]

/-- Payloads of one size are different numbers, except for the two zeros. -/
theorem mpi2bn_inj {v w : List UInt8} (hlen : v.length = w.length) (h : mpi2bn v = mpi2bn w)
    (hne : mpi2bn v ≠ 0) : v = w := by
  cases v with
  | nil => exact absurd rfl hne
  | cons b v =>
    cases w with
    | nil => cases hlen
    | cons c w =>
      have habs := congrArg Int.natAbs h
      rw [natAbs_mpi2bn_cons, natAbs_mpi2bn_cons] at habs
      have hbytes : (b &&& 0x7f) :: v = (c &&& 0x7f) :: w := beNat_inj hlen habs
      obtain ⟨hlow, rfl⟩ := cons.inj hbytes
      rw [mpi2bn, mpi2bn] at h
      rw [mpi2bn] at hne
      refine congrArg (· :: v) ?_
      by_cases hb : 0x80 ≤ b
      · rw [if_pos hb] at h hne
        by_cases hc : 0x80 ≤ c
        · have hmod := congrArg UInt8.toNat hlow
          rw [toNat_and_seven_bits, toNat_and_seven_bits] at hmod
          have hb : 128 ≤ b.toNat := UInt8.le_iff_toNat_le.mp hb
          have hc : 128 ≤ c.toNat := UInt8.le_iff_toNat_le.mp hc
          have hlt := b.toNat_lt
          have hlt' := c.toNat_lt
          rw [← UInt8.toNat_inj]
          omega
        · rw [if_neg hc] at h
          omega
      · rw [if_neg hb] at h hne
        by_cases hc : 0x80 ≤ c
        · rw [if_pos hc] at h
          omega
        · rwa [and_seven_bits (UInt8.not_le.mp hb), and_seven_bits (UInt8.not_le.mp hc)] at hlow

theorem natAbs_mpi2bn_append {v : List UInt8} (hne : v ≠ []) (b : UInt8) :
    (mpi2bn (v ++ [b])).natAbs = (mpi2bn v).natAbs * 256 + b.toNat := by
  obtain ⟨c, v, rfl⟩ := exists_cons_of_ne_nil hne
  rw [cons_append, natAbs_mpi2bn_cons, natAbs_mpi2bn_cons, ← cons_append, beNat_append_singleton]

/-- A stack item is true exactly where its number is not 0: the sign bit of negative zero is masked
on both sides. -/
theorem castToBool_iff : ∀ v : Valtype, castToBool v ↔ setvch v ≠ 0
  | [] => by simp [castToBool, setvch, mpi2bn]
  | [b] => by
    have habs := natAbs_mpi2bn_cons b []
    rw [beNat_cons, toNat_and_seven_bits] at habs
    have hlt := b.toNat_lt
    have hcast : castToBool [b] ↔ b.toNat % 128 ≠ 0 := by
      simp only [castToBool, Bool.and_eq_true, bne_iff_ne, ne_eq, ← UInt8.toNat_inj, UInt8.reduceToNat]
      omega
    simp only [length_nil, pow_zero, Nat.mul_one, beNat, foldl_nil, Nat.add_zero] at habs
    rw [hcast, setvch, reverse_singleton]
    omega
  | b :: c :: v => by
    have habs := natAbs_mpi2bn_append (v := (c :: v).reverse) (by simp) b
    have ih := castToBool_iff (c :: v)
    rw [setvch] at ih
    rw [setvch, reverse_cons]
    simp only [castToBool, Bool.or_eq_true, ih, bne_iff_ne, ne_eq, ← UInt8.toNat_inj, UInt8.toNat_zero]
    omega

/-- A number is read back, its bytes are the shortest ones, and only zero is false. -/
theorem script_numbers (n : Int) (v : Valtype) :
    setvch (getvch n) = n ∧
      (setvch v = n → v = getvch n ∨ (getvch n).length < v.length) ∧
      (getvch (setvch v)).length ≤ v.length ∧ (castToBool v ↔ setvch v ≠ 0) := by
  have hle : (getvch (setvch v)).length ≤ v.length := by
    rw [getvch, length_reverse]
    cases hv : v with
    | nil => simp [setvch, mpi2bn, bn2mpi]
    | cons b rest =>
      refine length_bn2mpi_le_iff.mpr (natAbs_mpi2bn_lt ?_)
      rw [length_reverse, length_cons]
  refine ⟨setvch_getvch n, ?_, hle, castToBool_iff v⟩
  rintro rfl
  rcases hle.lt_or_eq with hlt | heq
  · exact .inr hlt
  · left
    by_cases hzero : setvch v = 0
    · rw [hzero, show getvch 0 = [] by simp [getvch, bn2mpi]] at heq ⊢
      exact eq_nil_of_length_eq_zero heq.symm
    · have hvalue := setvch_getvch (setvch v)
      refine reverse_injective (mpi2bn_inj ?_ hvalue.symm hzero)
      rw [length_reverse, length_reverse, heq]

/-! ## Compact targets -/

theorem setCompact_getCompact_idem {n : Int} (hn : 0 ≤ n) (hlt : n < 256 ^ 254) :
    setCompact (getCompact (setCompact (getCompact n))) = setCompact (getCompact n) := by
  have hle := (setCompact_getCompact_le hn hlt).1
  have hnonneg := setCompact_getCompact_nonneg hn
  have hlen := length_bn2mpi_mono hnonneg hle
  rw [setCompact_getCompact_eq hnonneg (length_bn2mpi_lt hnonneg (hle.trans_lt hlt))]
  have hvalue := setCompact_getCompact_eq hn (length_bn2mpi_lt hn hlt)
  generalize hk : (bn2mpi n).length - 3 = k at hlen hvalue
  have hsame : (bn2mpi (setCompact (getCompact n))).length - 3 = k := by
    by_contra hshort
    have hlow : 128 * 256 ^ (k + 1) ≤ n.natAbs := le_of_length_bn2mpi (by omega)
    have hhigh := length_bn2mpi_le_iff.mp
      (show (bn2mpi (setCompact (getCompact n))).length ≤ (k + 1) + 1 by omega)
    have hdiv : 128 * 256 ≤ n.toNat / 256 ^ k := by
      rw [Nat.le_div_iff_mul_le (by positivity), Nat.mul_assoc, ← pow_succ']
      omega
    have hmul := Nat.mul_le_mul_right (256 ^ k) hdiv
    rw [hvalue, Int.natAbs_natCast, pow_succ'] at hhigh
    omega
  rw [hsame, hvalue, Int.toNat_natCast, Nat.mul_div_cancel _ (by positivity)]

/-- The compact form of a target is not above it. -/
theorem compact_rounds_down {x : Int} (hx : 0 ≤ x) (hlt : x < 256 ^ 254) :
    setCompact (getCompact x) ≤ x ∧
      setCompact (getCompact (setCompact (getCompact x))) = setCompact (getCompact x) ∧
      (∀ y, x ≤ y → y < 256 ^ 254 → setCompact (getCompact x) ≤ setCompact (getCompact y)) ∧
      (0 < x → (x - setCompact (getCompact x)) * 2 ^ 15 < x) := by
  obtain ⟨hle, hloss⟩ := setCompact_getCompact_le hx hlt
  exact ⟨hle, setCompact_getCompact_idem hx hlt, fun y hxy hy => setCompact_getCompact_mono hx hxy hy, hloss⟩

/-- Of five bytes the three highest are kept. -/
theorem compact_rounds_down_small :
    (0x123456789 - setCompact (getCompact 0x123456789)) * 2 ^ 15 < 0x123456789 :=
  (compact_rounds_down (by decide) (by norm_num)).2.2.2 (by decide)

/-! ## Compact targets in `uint256` -/

theorem sign_bit (c : UInt32) : (c &&& 0x00800000 != 0) = decide (2 ^ 23 ≤ c.toNat % 2 ^ 24) := by
  have hand : (c &&& 0x00800000).toNat = (c.toNat.testBit 23).toNat * 2 ^ 23 :=
    Nat.and_two_pow c.toNat 23
  have hbit : c.toNat.testBit 23 = decide (2 ^ 23 ≤ c.toNat % 2 ^ 24) := by
    rw [Nat.testBit_eq_decide_div_mod_eq, decide_eq_decide]
    omega
  rw [← hbit, Bool.eq_iff_iff, bne_iff_ne, ne_eq, ← UInt32.toNat_inj, hand]
  cases c.toNat.testBit 23 <;> simp

theorem two_pow_mul (k : Nat) : 2 ^ (8 * k) = 256 ^ k := pow_mul 2 8 k

/-- The condition for `*pfOverflow`. -/
theorem overflow_iff {w s : Nat} (hw : w < 2 ^ 23) : w ≠ 0 ∧ ((34 < s ∨ 0xff < w ∧ 33 < s) ∨
    0xffff < w ∧ 32 < s) ↔ 2 ^ 256 ≤ w * 256 ^ (s - 3) := by
  rcases Nat.eq_zero_or_pos w with rfl | hpos
  · simp
  · obtain hs | rfl | rfl | hs : s - 3 ≤ 29 ∨ s = 33 ∨ s = 34 ∨ 32 ≤ s - 3 := by omega
    · have hpow := Nat.mul_le_mul hw.le (Nat.pow_le_pow_right (show 0 < 256 by decide) hs)
      omega
    · omega
    · omega
    · have hpow := Nat.mul_le_mul hpos (Nat.pow_le_pow_right (show 0 < 256 by decide) hs)
      omega

/-- `SetCompact` on 256 bits: the value modulo 2²⁵⁶, with both flags exact. -/
theorem uint256_setCompact (c : UInt32) :
    ((Uint256.setCompact c).2.2 ↔ 2 ^ 256 ≤ compactValue c) ∧
    ((Uint256.setCompact c).2.1 ↔ 2 ^ 23 ≤ c.toNat % 2 ^ 24 ∧ compactValue c ≠ 0) ∧
    ((Uint256.setCompact c).1.toNat = compactValue c % 2 ^ 256) := by
  have hmask : (c &&& 0x007fffff).toNat = c.toNat % 2 ^ 23 := Nat.and_two_pow_sub_one_eq_mod _ 23
  have hsize : (c >>> 24).toNat = c.toNat / 2 ^ 24 := by simp [Nat.shiftRight_eq_div_pow]
  simp only [Uint256.setCompact, compactValue, hsize, sign_bit]
  generalize c.toNat / 2 ^ 24 = nSize
  generalize hw : (if nSize ≤ 3 then (c &&& 0x007fffff) >>> UInt32.ofNat (8 * (3 - nSize))
    else c &&& 0x007fffff) = nWord
  have hword : nWord.toNat = c.toNat % 2 ^ 23 / 256 ^ (3 - nSize) := by
    rw [← hw]
    split
    · have hshift : (UInt32.ofNat (8 * (3 - nSize))).toNat % 32 = 8 * (3 - nSize) := by
        rw [UInt32.toNat_ofNat']
        omega
      rw [UInt32.toNat_shiftRight, hshift, hmask, Nat.shiftRight_eq_div_pow, two_pow_mul]
    · rw [hmask, Nat.sub_eq_zero_of_le (by omega), pow_zero, Nat.div_one]
  have hlt : nWord.toNat < 2 ^ 23 := by
    rw [hword]
    exact (Nat.div_le_self _ _).trans_lt (Nat.mod_lt _ (by decide))
  simp only [← hword, ← overflow_iff hlt, Bool.and_eq_true, Bool.or_eq_true, bne_iff_ne, ne_eq,
    decide_eq_true_eq, UInt32.lt_iff_toNat_lt, ← UInt32.toNat_inj]
  refine ⟨Iff.rfl, ?_, ?_⟩
  · simp [and_comm]
  · split
    · next hle => simp [Nat.sub_eq_zero_of_le hle]
    · rw [BitVec.toNat_shiftLeft, BitVec.toNat_ofNat, Nat.shiftLeft_eq, two_pow_mul, Nat.mod_mul_mod]

variable {k nBase : Nat}

/-- The first three bytes, before the sign is looked at. -/
theorem toNat_leading {x : Uint256} (h : x.toNat * 256 ^ (3 - k) / 256 ^ (k - 3) < 2 ^ 24) :
    (if k ≤ 3 then (x.get64 <<< UInt64.ofNat (8 * (3 - k))).toUInt32
      else (Uint256.get64 (x >>> (8 * (k - 3)))).toUInt32).toNat =
      x.toNat * 256 ^ (3 - k) / 256 ^ (k - 3) := by
  unfold Uint256.get64
  split
  · next hle =>
    have hshift : (UInt64.ofNat (8 * (3 - k))).toNat % 64 = 8 * (3 - k) := by
      rw [UInt64.toNat_ofNat']
      omega
    rw [Nat.sub_eq_zero_of_le hle, pow_zero, Nat.div_one] at h ⊢
    rw [UInt64.toNat_toUInt32, UInt64.toNat_shiftLeft, hshift, UInt64.toNat_ofNat', Nat.shiftLeft_eq,
      two_pow_mul, Nat.mod_mul_mod]
    omega
  · rw [Nat.sub_eq_zero_of_le (show 3 ≤ k by omega), pow_zero, Nat.mul_one] at h ⊢
    rw [UInt64.toNat_toUInt32, UInt64.toNat_ofNat', BitVec.toNat_ushiftRight,
      Nat.shiftRight_eq_div_pow, two_pow_mul]
    generalize x.toNat / 256 ^ (k - 3) = m at *
    omega

theorem toNat_ofNat_mod (hk : k < 256) : (UInt32.ofNat k).toNat % 256 = k := by
  rw [UInt32.toNat_ofNat']
  omega

theorem some_compact {a c : UInt32} (ha : a.toNat < 2 ^ 23) (hk : k < 256)
    (hc : c.toNat = k * 2 ^ 24 + a.toNat) :
    (if a &&& ~~~0x007fffff = 0 ∧ k < 256 then
      some (a ||| UInt32.ofNat k <<< 24 |||
        if false && (a ||| UInt32.ofNat k <<< 24) &&& 0x007fffff != 0 then 0x00800000 else 0)
    else none) = some c := by
  have hmask : a &&& 0x007fffff = a := by
    rw [← UInt32.toNat_inj]
    exact (Nat.and_two_pow_sub_one_eq_mod _ 23).trans (Nat.mod_eq_of_lt ha)
  have hassert : a &&& ~~~0x007fffff = 0 := by
    rw [← hmask, UInt32.and_assoc]
    exact UInt32.and_zero
  have hsize := toNat_shiftLeft_24 (UInt32.ofNat k)
  rw [toNat_ofNat_mod hk] at hsize
  rw [if_pos ⟨hassert, hk⟩, Bool.false_and, if_neg Bool.false_ne_true, UInt32.or_zero, Option.some_inj,
    ← UInt32.toNat_inj, UInt32.or_comm, toNat_or_of_dvd (i := 24) (by omega) (by omega)]
  omega

/-- The bytes counted from the bit length are those of the shortest form, so both encoders agree. -/
theorem uint256_getCompact (x : Uint256) : x.getCompact false = some (getCompact x.toNat) := by
  have hsize : (x.toNat.size + 7) / 8 = (getBytes x.toNat).length := by
    refine eq_of_forall_ge_iff fun k => ?_
    rw [length_getBytes_le_iff, ← two_pow_mul, ← Nat.size_le]
    omega
  have hlen : (getBytes x.toNat).length ≤ 32 := length_getBytes_le_iff.mpr x.isLt
  have hfirst := first_bytes (getBytes x.toNat)
  have hcompact : (getCompact x.toNat).toNat = _ := toNat_compact _ _ _ _
  rw [beNat_getBytes] at hfirst
  rw [bn2mpi_natCast] at hcompact
  simp only [Uint256.getCompact, hsize]
  generalize getBytes x.toNat = v at *
  have h₀ := (v.getD 0 0).toNat_lt
  have h₁ := (v.getD 1 0).toNat_lt
  have h₂ := (v.getD 2 0).toNat_lt
  have hword := toNat_leading (x := x) (k := v.length) (by omega)
  rw [← hfirst] at hword
  generalize (if v.length ≤ 3 then _ else _ : UInt32) = w at *
  have hsign : 0x80 ≤ v.getD 0 0 ↔ 2 ^ 23 ≤ w.toNat % 2 ^ 24 := by
    rw [UInt8.le_iff_toNat_le]
    change 128 ≤ _ ↔ _
    omega
  rw [sign_bit]
  -- the shift by a byte is the zero byte in front of the payload
  by_cases hb : 0x80 ≤ v.getD 0 0
  · have hshift : (w >>> 8).toNat = w.toNat / 256 := by simp [Nat.shiftRight_eq_div_pow]
    simp only [if_pos hb, getD_cons_zero, getD_cons_succ, length_cons, UInt8.toNat_zero] at hcompact
    rw [toNat_ofNat_mod (by omega)] at hcompact
    rw [decide_eq_true (hsign.mp hb), if_pos rfl]
    exact some_compact (a := w >>> 8) (by omega) (by omega) (by omega)
  · rw [if_neg hb, ← hword, toNat_ofNat_mod (by omega)] at hcompact
    rw [hsign] at hb
    rw [decide_eq_false hb, if_neg Bool.false_ne_true]
    exact some_compact (a := w) (by omega) (by omega) (by omega)

theorem top_bit (c : UInt8) : (c &&& 0x80 != 0) = decide (0x80 ≤ c) := by
  have hlt := c.toNat_lt
  have hand : (c &&& 0x80).toNat = (c.toNat.testBit 7).toNat * 2 ^ 7 := Nat.and_two_pow c.toNat 7
  have hbit : c.toNat.testBit 7 = decide (0x80 ≤ c) := by
    rw [Nat.testBit_eq_decide_div_mod_eq, decide_eq_decide, UInt8.le_iff_toNat_le]
    change _ ↔ 128 ≤ c.toNat
    omega
  rw [← hbit, Bool.eq_iff_iff, bne_iff_ne, ne_eq, ← UInt8.toNat_inj, hand]
  cases c.toNat.testBit 7 <;> simp

/-- What `setuint256` has written is the number read so far, with the top bit clear; nothing is
written as long as only zeros were read. -/
theorem pushByte_run (v : List UInt8) :
    (v.foldl CBigNum.pushByte (true, [])).1 = (v.foldl CBigNum.pushByte (true, [])).2.isEmpty ∧
    (v.foldl CBigNum.pushByte (true, [])).2.getD 0 0 < 0x80 ∧
    beNat (v.foldl CBigNum.pushByte (true, [])).2 = beNat v := by
  induction v using reverseRecOn with
  | nil => exact ⟨rfl, by decide, rfl⟩
  | append_singleton v c ih =>
    rw [foldl_append, foldl_cons, foldl_nil, beNat_append_singleton, ← ih.2.2]
    obtain ⟨hempty, hhead, -⟩ := ih
    generalize v.foldl CBigNum.pushByte (true, []) = s at *
    obtain ⟨fLeadingZeroes, pch⟩ := s
    cases pch with
    | nil =>
      obtain rfl : fLeadingZeroes = true := hempty
      by_cases hc : c = 0
      · simp [CBigNum.pushByte, hc, beNat]
      · simp only [CBigNum.pushByte, if_neg hc, top_bit, decide_eq_true_eq]
        by_cases hb : 0x80 ≤ c
        · simp [hb, beNat]
        · simp [hb, beNat, UInt8.not_le.mp hb]
    | cons b pch =>
      obtain rfl : fLeadingZeroes = false := hempty
      exact ⟨rfl, hhead, beNat_append_singleton _ _⟩

theorem beNat_reverse (v : List UInt8) : beNat v.reverse = leNat v := by
  rw [beNat, foldl_reverse, leNat]
  refine congrArg (fun f => v.foldr f 0) ?_
  funext b n
  rw [Nat.mul_comm, Nat.add_comm]

theorem setuint256_eq (x : Uint256) : CBigNum.setuint256 x = x.toNat := by
  obtain ⟨-, hhead, hvalue⟩ := pushByte_run (serializeUint256 x).reverse
  rw [CBigNum.setuint256, mpi2bn_of_head_lt hhead, hvalue, beNat_reverse, serializeUint256,
    leNat_leBytes, Nat.mod_eq_of_lt (show x.toNat < 256 ^ 32 from x.isLt)]

/-- Both number types read a compact target in the same way, and write it in the same way. -/
theorem compact_types_agree (nCompact : UInt32) (x : Uint256) :
    ((Uint256.setCompact nCompact).2.2 ↔ 2 ^ 256 ≤ (setCompact nCompact).natAbs) ∧
    ((Uint256.setCompact nCompact).2.1 ↔ setCompact nCompact < 0) ∧
    ((Uint256.setCompact nCompact).2.2 = false →
      (Uint256.setCompact nCompact).1.toNat = (setCompact nCompact).natAbs) ∧
    x.getCompact false = some (getCompact (CBigNum.setuint256 x)) := by
  obtain ⟨hoverflow, hnegative, hvalue⟩ := uint256_setCompact nCompact
  have heq := setCompact_eq nCompact
  have habs : (setCompact nCompact).natAbs = compactValue nCompact := by
    split at heq <;> omega
  refine ⟨habs ▸ hoverflow, ?_, fun hno => ?_, setuint256_eq x ▸ uint256_getCompact x⟩
  · rw [hnegative]
    split at heq <;> omega
  · rw [hvalue, habs]
    refine Nat.mod_eq_of_lt (Nat.not_le.mp fun hle => ?_)
    exact Bool.false_ne_true (hno.symm.trans (hoverflow.mpr hle))

/-! ## Texts -/

/-- The sign of `n` and its digits, without leading zeros. -/
def IsNumeral (nBase : Nat) (n : Int) (text : List UInt8) : Prop :=
  ∃ d ds, (∀ c ∈ d :: ds, c < nBase) ∧ (d = 0 → ds = []) ∧
    Nat.ofDigits nBase (d :: ds).reverse = n.natAbs ∧
    text = (if n < 0 then [45] else []) ++ (d :: ds).map digitChar

/-- The loop leaves the copy at 0, so there is no sign left to ask for. -/
theorem toStringLoop_eq (h : 2 ≤ nBase) (str : List UInt8) (m : Nat) :
    CBigNum.toStringLoop h str m = (str ++ (Nat.digits nBase m).map digitChar, 0) := by
  induction m using Nat.strongRecOn generalizing str with
  | ind m ih =>
    rw [CBigNum.toStringLoop]
    rcases Nat.eq_zero_or_pos m with rfl | hm
    · simp
    · rw [if_pos (by omega), ← Int.ofNat_tmod, ← Int.ofNat_tdiv, Int.toNat_natCast,
        ih _ (Nat.div_lt_self hm h), Nat.digits_def' h hm, map_cons, append_assoc, singleton_append]

theorem toString_eq (h : 2 ≤ nBase) (n : Int) : CBigNum.toString h n =
    if n.natAbs = 0 then [48] else ((Nat.digits nBase n.natAbs).map digitChar).reverse := by
  simp only [CBigNum.toString, toStringLoop_eq, Int.natCast_eq_zero, nil_append, Int.lt_irrefl,
    if_false]

theorem isNumeral_toString (h : 2 ≤ nBase) (n : Int) :
    IsNumeral nBase n.natAbs (CBigNum.toString h n) := by
  rw [toString_eq]
  split
  · next hn =>
    refine ⟨0, [], ?_, fun _ => rfl, by simp [hn], rfl⟩
    exact forall_mem_singleton.mpr (by omega)
  · next hn =>
    obtain ⟨d, ds, hds⟩ := exists_cons_of_ne_nil
      (reverse_ne_nil_iff.mpr (Nat.digits_ne_nil_iff_ne_zero.mpr hn))
    have hdigits : Nat.digits nBase n.natAbs = (d :: ds).reverse := by rw [← hds, reverse_reverse]
    refine ⟨d, ds, fun c hc => ?_, fun h0 => ?_, ?_, ?_⟩
    · exact Nat.digits_lt_base (by omega) (hdigits.symm ▸ mem_reverse.mpr hc)
    · have hlast := Nat.getLast_digit_ne_zero nBase hn
      simp [hdigits, h0] at hlast
    · rw [← hdigits, Nat.ofDigits_digits, Int.natAbs_natCast]
    · simp [hdigits]

theorem phexdigit_digitChar : ∀ d < 16, phexdigit (digitChar d) = d := by decide

theorem digitChar_spec : ∀ d < 16, digitChar d ≠ 0 ∧ digitChar d ≠ 45 ∧ digitChar d ≠ 88 ∧
    digitChar d ≠ 120 ∧ Decimal.isSpace (digitChar d) = false ∧ isxdigit (digitChar d) := by
  decide

theorem setHex_eq {s : List UInt8} (h : ∀ c ∈ s, c ≠ 0 ∧ c ≠ 45 ∧ c ≠ 88 ∧ c ≠ 120 ∧
      Decimal.isSpace c = false ∧ isxdigit c) :
    CBigNum.setHex s = (s.foldl (fun n c => 16 * n + phexdigit c) 0 : Nat) := by
  have hstr : cStr s = s := takeWhile_eq_self_iff.mpr fun c hc => bne_iff_ne.mpr (h c hc).1
  have hblank : s.dropWhile Decimal.isSpace = s :=
    dropWhile_eq_self_iff.mpr fun hpos => by simp [h _ (getElem_mem hpos)]
  have hdigits : s.takeWhile isxdigit = s :=
    takeWhile_eq_self_iff.mpr fun c hc => (h c hc).2.2.2.2.2
  have hprefix : ¬(s[0]? = some 48 ∧ (s[1]? = some 88 ∨ s[1]? = some 120)) := by
    rintro ⟨-, hx | hx⟩
    · exact (h 88 (mem_of_getElem? hx)).2.2.1 rfl
    · exact (h 120 (mem_of_getElem? hx)).2.2.2.1 rfl
  rw [CBigNum.setHex, hstr, hblank]
  split
  · exact absurd rfl (h 45 mem_cons_self).2.1
  · rw [hexValue, if_neg hprefix, hblank, hdigits]

/-- `ToString` leaves out the sign, as it asks the copy that the loop has divided down to 0. So its
texts are right exactly where there is none, and `SetHex` reads back those of `GetHex`. -/
theorem text_roundTrip_iff (n : Int) (nBase : Nat) (hlow : 2 ≤ nBase) (hhigh : nBase ≤ 16) :
    (IsNumeral nBase n (CBigNum.toString hlow n) ↔ 0 ≤ n) ∧
      (CBigNum.setHex (CBigNum.getHex n) = n ↔ 0 ≤ n) := by
  have h := isNumeral_toString hlow n
  refine ⟨⟨fun hn => ?_, fun hn => by rwa [Int.natAbs_of_nonneg hn] at h⟩, ?_⟩
  · -- the text of a negative number begins with its sign, but here is a digit
    by_contra hneg
    obtain ⟨d, ds, hds, -, -, htext⟩ := h
    obtain ⟨d', ds', -, -, -, htext'⟩ := hn
    rw [if_neg (by omega)] at htext
    rw [if_pos (by omega), htext] at htext'
    have hd := hds d mem_cons_self
    exact (digitChar_spec d (by omega)).2.1 (cons.inj htext').1
  · obtain ⟨d, ds, hds, -, hvalue, htext⟩ := isNumeral_toString (show 2 ≤ 16 by decide) n
    have hfold := Decimal.foldl_reverse_digits (f := digitChar) (g := fun n c => 16 * n + phexdigit c)
      (fun d hd n => by rw [phexdigit_digitChar d hd, Nat.add_comm]) fun c hc => hds c (mem_reverse.mp hc)
    rw [map_reverse, reverse_reverse, hvalue] at hfold
    rw [if_neg (by omega), nil_append] at htext
    rw [CBigNum.getHex, htext, setHex_eq (forall_mem_map.mpr fun c hc => digitChar_spec c (hds c hc)),
      hfold]
    omega

/-- Both texts of 255 are read back. -/
theorem text_roundTrip_255 : IsNumeral 16 255 (CBigNum.toString (show 2 ≤ 16 by decide) 255) ∧
    CBigNum.setHex (CBigNum.getHex 255) = 255 := by
  have h := text_roundTrip_iff 255 16 (by decide) (by decide)
  exact ⟨h.1.mpr (by decide), h.2.mpr (by decide)⟩

/-- The text of -1 has no sign, and reads back as 1. -/
theorem getHex_minus_one : CBigNum.getHex (-1) = [49] ∧ CBigNum.setHex (CBigNum.getHex (-1)) = 1 := by
  have h : CBigNum.getHex (-1) = [49] := by simp [CBigNum.getHex, toString_eq, digitChar]
  exact ⟨h, by rw [h]; rfl⟩

end NovaCoin
