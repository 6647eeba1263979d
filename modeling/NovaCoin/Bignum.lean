import NovaCoin.Infra.Decimal
import NovaCoin.Serialize
import NovaCoin.Util

/-!
# CBigNum

A `CBigNum` is an `Int`: addition, multiplication and comparison are those of `Int`, division
and remainder are `Int.tdiv` and `Int.tmod`, as `BN_div` truncates.

What is modelled here are the conversions. They all go through OpenSSL's MPI format: a 4-byte
length and a big-endian sign-magnitude payload of minimal size. `bn2mpi` and `mpi2bn` are that
format without the length word, for payloads whose length `BN_mpi2bn` takes as an `int` (below
`2 ^ 31 - 4` bytes).
-/

namespace NovaCoin

open List

/-- The value of big-endian bytes. -/
def beNat (v : List UInt8) : Nat := v.foldl (fun n b => n * 256 + b.toNat) 0

/-- The payload of `BN_bn2mpi`. A leading zero byte keeps the top bit free for the sign. -/
def bn2mpi (n : Int) : List UInt8 :=
  match ((Nat.digits 256 n.natAbs).map UInt8.ofNat).reverse with
  | [] => []
  | b :: rest =>
    if 0x80 ≤ b then (if n < 0 then 0x80 else 0) :: b :: rest
    else (if n < 0 then b ||| 0x80 else b) :: rest

/-- `BN_mpi2bn` on a payload. -/
def mpi2bn : List UInt8 → Int
  | [] => 0
  | b :: rest =>
    if 0x80 ≤ b then -(beNat ((b &&& 0x7f) :: rest) : Int) else (beNat (b :: rest) : Int)

/-! ## Conversions -/

def setvch (vch : Valtype) : Int := mpi2bn vch.reverse

def getvch (n : Int) : Valtype := (bn2mpi n).reverse

/-- `getint32`: values out of range are clamped. -/
def getint32 (n : Int) : Int :=
  if 0 ≤ n then (if 2147483647 < n then 2147483647 else n)
  else (if n < -2147483647 then -2147483648 else n)

/-- `getuint64`: the low eight bytes of the payload, its sign bit cleared. -/
def getuint64 (n : Int) : UInt64 :=
  match bn2mpi n with
  | [] => 0
  | b :: rest => UInt64.ofNat (beNat (((b &&& 0x7f) :: rest).reverse.take 8).reverse)

/-- A byte of the loop of `setuint256`, with `fLeadingZeroes` and what has been written: zeros in
front are skipped, and a first byte with its top bit set gets a zero byte before it. -/
def CBigNum.pushByte : Bool × List UInt8 → UInt8 → Bool × List UInt8
  | (true, pch), c =>
    if c = 0 then (true, pch)
    else (false, (if c &&& 0x80 != 0 then pch ++ [0] else pch) ++ [c])
  | (false, pch), c => (false, pch ++ [c])

/-- `CBigNum::setuint256`: the bytes of the number from the last to the first, as an MPI payload. -/
def CBigNum.setuint256 (n : Uint256) : Int :=
  mpi2bn ((serializeUint256 n).reverse.foldl pushByte (true, [])).2

/-- `getBytes` of a number that is not negative. `setBytes` is `beNat`. -/
def getBytes (n : Nat) : List UInt8 := ((Nat.digits 256 n).map UInt8.ofNat).reverse

def setCompact (nCompact : UInt32) : Int :=
  let nSize := (nCompact >>> 24).toNat
  let head := [(nCompact >>> 16).toUInt8, (nCompact >>> 8).toUInt8, nCompact.toUInt8]
  mpi2bn (head.take nSize ++ List.replicate (nSize - 3) 0)

def getCompact (n : Int) : UInt32 :=
  let vch := bn2mpi n
  let byte (i : Nat) : UInt32 := (vch.getD i 0).toUInt32
  (UInt32.ofNat vch.length <<< 24) ||| (byte 0 <<< 16) ||| (byte 1 <<< 8) ||| byte 2

/-- `uint256::SetCompact`: the number, `*pfNegative` and `*pfOverflow`. -/
def Uint256.setCompact (nCompact : UInt32) : Uint256 × Bool × Bool :=
  let nSize := (nCompact >>> 24).toNat
  let nWord := nCompact &&& 0x007fffff
  let nWord := if nSize ≤ 3 then nWord >>> UInt32.ofNat (8 * (3 - nSize)) else nWord
  let n := BitVec.ofNat 256 nWord.toNat
  (if nSize ≤ 3 then n else n <<< (8 * (nSize - 3)),
    nWord != 0 && nCompact &&& 0x00800000 != 0,
    nWord != 0 && (34 < nSize || 0xff < nWord && 33 < nSize || 0xffff < nWord && 32 < nSize))

/-- `Get64(0)`. -/
def Uint256.get64 (x : Uint256) : UInt64 := .ofNat x.toNat

/-- `uint256::GetCompact`; `none` where an assertion fails. `bits()` is `Nat.size`. -/
def Uint256.getCompact (x : Uint256) (fNegative : Bool) : Option UInt32 :=
  let nSize := (x.toNat.size + 7) / 8
  let nCompact :=
    if nSize ≤ 3 then (x.get64 <<< UInt64.ofNat (8 * (3 - nSize))).toUInt32
    else (Uint256.get64 (x >>> (8 * (nSize - 3)))).toUInt32
  let (nCompact, nSize) :=
    if nCompact &&& 0x00800000 != 0 then (nCompact >>> 8, nSize + 1) else (nCompact, nSize)
  if nCompact &&& ~~~0x007fffff = 0 ∧ nSize < 256 then
    let nCompact := nCompact ||| UInt32.ofNat nSize <<< 24
    some (nCompact ||| if fNegative && nCompact &&& 0x007fffff != 0 then 0x00800000 else 0)
  else none

def digitChar (d : Nat) : UInt8 := .ofNat (if d < 10 then 48 + d else 87 + d)

/-- The loop of `ToString`: `str` and the copy `bn` when the copy is no longer positive. -/
def CBigNum.toStringLoop {nBase : Nat} (hbase : 2 ≤ nBase) (str : List UInt8) (bn : Int) :
    List UInt8 × Int :=
  if 0 < bn then
    toStringLoop hbase (str ++ [digitChar (bn.tmod nBase).toNat]) (bn.tdiv nBase)
  else (str, bn)
termination_by bn.toNat
decreasing_by
  obtain ⟨m, rfl⟩ := Int.eq_ofNat_of_zero_le (show 0 ≤ bn by omega)
  rw [← Int.ofNat_tdiv, Int.toNat_natCast, Int.toNat_natCast]
  exact Nat.div_lt_self (by omega) hbase

/-- `CBigNum::ToString`, for a base in which the division ends. The sign is asked of the copy `bn`,
made non-negative before the loop and divided in it. -/
def CBigNum.toString {nBase : Nat} (hbase : 2 ≤ nBase) (n : Int) : List UInt8 :=
  let bn : Int := n.natAbs
  if bn = 0 then [48]
  else
    let (str, bn) := toStringLoop hbase [] bn
    (if bn < 0 then str ++ [45] else str).reverse

def CBigNum.getHex (n : Int) : List UInt8 := toString (show 2 ≤ 16 by decide) n

def isxdigit (c : UInt8) : Bool := Decimal.isDigit c || 65 ≤ c && c ≤ 70 || 97 ≤ c && c ≤ 102

def phexdigit (c : UInt8) : Nat :=
  if Decimal.isDigit c then c.toNat - 48 else if isxdigit c then c.toNat % 32 + 9 else 0

/-- `SetHex` behind the sign. -/
def hexValue (psz : List UInt8) : Nat :=
  let psz := if psz[0]? = some 48 ∧ (psz[1]? = some 88 ∨ psz[1]? = some 120) then psz.drop 2 else psz
  ((psz.dropWhile Decimal.isSpace).takeWhile isxdigit).foldl (fun n c => 16 * n + phexdigit c) 0

def CBigNum.setHex (str : List UInt8) : Int :=
  match (cStr str).dropWhile Decimal.isSpace with
  | 45 :: psz => 0 - hexValue psz
  | psz => hexValue psz

variable {n m : Int} {k : Nat} {v : List UInt8} {b : UInt8}

/-! ## The value of a payload -/

theorem beNat_append_singleton (v : List UInt8) (b : UInt8) :
    beNat (v ++ [b]) = beNat v * 256 + b.toNat := by
  simp [beNat]

theorem beNat_lt (v : List UInt8) : beNat v < 256 ^ v.length := by
  induction v using reverseRecOn with
  | nil => simp [beNat]
  | append_singleton v b ih =>
    have hb := b.toNat_lt
    rw [beNat_append_singleton, length_append, length_singleton]
    omega

theorem beNat_append (v w : List UInt8) : beNat (v ++ w) = beNat v * 256 ^ w.length + beNat w := by
  induction w using reverseRecOn with
  | nil => simp [beNat]
  | append_singleton w b ih =>
    rw [← append_assoc, beNat_append_singleton, beNat_append_singleton, ih, length_append,
      length_singleton]
    ring

theorem beNat_cons (b : UInt8) (v : List UInt8) :
    beNat (b :: v) = b.toNat * 256 ^ v.length + beNat v := by
  rw [← singleton_append, beNat_append]
  simp [beNat]

theorem beNat_take (v : List UInt8) (k : Nat) : beNat (v.take k) = beNat v / 256 ^ (v.length - k) := by
  have hv := beNat_append (v.take k) (v.drop k)
  have hlt := beNat_lt (v.drop k)
  rw [take_append_drop, length_drop, Nat.mul_comm] at hv
  rw [length_drop] at hlt
  rw [hv, Nat.mul_add_div (by positivity), Nat.div_eq_of_lt hlt, Nat.add_zero]

theorem beNat_getBytes (n : Nat) : beNat (getBytes n) = n := by
  rw [getBytes, beNat, Decimal.foldl_reverse_digits (fun d hd n => ?_) fun d hd =>
    Nat.digits_lt_base (by omega) hd, Nat.ofDigits_digits]
  rw [UInt8.toNat_ofNat_of_lt' hd, Nat.mul_comm, Nat.add_comm]

theorem length_getBytes_le_iff {n : Nat} : (getBytes n).length ≤ k ↔ n < 256 ^ k := by
  rw [getBytes, length_reverse, length_map]
  exact Nat.digits_length_le_iff (by omega) _

theorem bn2mpi_natCast (n : Nat) : bn2mpi n =
    if 0x80 ≤ (getBytes n).getD 0 0 then 0 :: getBytes n else getBytes n := by
  have hn : ¬ (n : Int) < 0 := by omega
  unfold bn2mpi getBytes
  rw [Int.natAbs_natCast]
  split
  · next he => simp [he]
  · next he => simp [he, hn]

/-- The payload of a non-negative number has its top bit clear. -/
theorem head_bn2mpi_lt (hn : 0 ≤ n) : (bn2mpi n).getD 0 0 < 0x80 := by
  obtain ⟨m, rfl⟩ := Int.eq_ofNat_of_zero_le hn
  rw [bn2mpi_natCast]
  split
  · exact show (0 : UInt8) < 0x80 by decide
  · next hb => exact UInt8.not_le.mp hb

theorem mpi2bn_of_head_lt (h : v.getD 0 0 < 0x80) : mpi2bn v = beNat v := by
  cases v with
  | nil => rfl
  | cons b v => exact if_neg (UInt8.not_le.mpr h)

theorem toNat_and_seven_bits (b : UInt8) : (b &&& 0x7f).toNat = b.toNat % 128 := by
  rw [UInt8.toNat_and]
  exact Nat.and_two_pow_sub_one_eq_mod b.toNat 7

theorem and_seven_bits (h : b < 0x80) : b &&& 0x7f = b := by
  rw [← UInt8.toNat_inj, toNat_and_seven_bits]
  exact Nat.mod_eq_of_lt h

theorem toNat_or_sign (h : b < 0x80) : (b ||| 0x80).toNat = 128 + b.toNat := by
  rw [UInt8.toNat_or, Nat.or_comm]
  exact (Nat.two_pow_add_eq_or_of_lt (i := 7) h 1).symm

/-- A payload gives the number back. -/
theorem mpi2bn_bn2mpi (n : Int) : mpi2bn (bn2mpi n) = n := by
  have hval := beNat_getBytes n.natAbs
  unfold getBytes at hval
  unfold bn2mpi
  split
  · next he =>
    rw [he] at hval
    rw [mpi2bn]
    simp [beNat] at hval
    omega
  · next b rest he =>
    rw [he] at hval
    have hzero : beNat (0 :: b :: rest) = n.natAbs := by
      rw [beNat_cons, hval]
      simp
    by_cases hn : n < 0
    · rw [if_pos hn]
      split
      · rw [mpi2bn, if_pos (by decide), show (0x80 &&& 0x7f : UInt8) = 0 from rfl]
        omega
      · next hb =>
        have hsign := toNat_or_sign (UInt8.not_le.mp hb)
        have hlow : (b ||| 0x80) &&& 0x7f = b := by
          rw [← UInt8.toNat_inj, toNat_and_seven_bits, hsign, Nat.add_mod_left]
          exact Nat.mod_eq_of_lt (UInt8.not_le.mp hb)
        rw [mpi2bn, if_pos (UInt8.le_iff_toNat_le.mpr (hsign ▸ Nat.le_add_right _ _)), hlow]
        omega
    · rw [if_neg hn]
      split
      · rw [mpi2bn, if_neg (by decide)]
        omega
      · next hb =>
        rw [mpi2bn, if_neg hb]
        omega

theorem setvch_getvch (n : Int) : setvch (getvch n) = n := by
  rw [setvch, getvch, reverse_reverse, mpi2bn_bn2mpi]

theorem beNat_bn2mpi (hn : 0 ≤ n) : beNat (bn2mpi n) = n.toNat := by
  have hval := mpi2bn_of_head_lt (head_bn2mpi_lt hn)
  rw [mpi2bn_bn2mpi] at hval
  omega

theorem mpi2bn_cons (b : UInt8) (v : List UInt8) : mpi2bn (b :: v) =
    if 128 ≤ b.toNat then -(beNat ((b &&& 0x7f) :: v) : Int) else (beNat ((b &&& 0x7f) :: v) : Int) := by
  rw [mpi2bn]
  exact ite_congr rfl (fun _ => rfl) fun hb => by rw [and_seven_bits (UInt8.not_le.mp hb)]

theorem natAbs_mpi2bn_cons (b : UInt8) (v : List UInt8) :
    (mpi2bn (b :: v)).natAbs = beNat ((b &&& 0x7f) :: v) := by
  rw [mpi2bn_cons]
  split
  · rw [Int.natAbs_neg, Int.natAbs_natCast]
  · rw [Int.natAbs_natCast]

theorem natAbs_mpi2bn_lt (hk : v.length ≤ k + 1) :
    (mpi2bn v).natAbs < 128 * 256 ^ k := by
  cases v with
  | nil => exact Nat.mul_pos (by omega) (by positivity)
  | cons b v =>
    have hb : (b &&& 0x7f).toNat < 128 := toNat_and_seven_bits b ▸ Nat.mod_lt _ (by decide)
    have hv := beNat_lt v
    calc (mpi2bn (b :: v)).natAbs = (b &&& 0x7f).toNat * 256 ^ v.length + beNat v := by
          rw [natAbs_mpi2bn_cons, beNat_cons]
      _ < ((b &&& 0x7f).toNat + 1) * 256 ^ v.length := by rw [Nat.add_mul]; omega
      _ ≤ 128 * 256 ^ k :=
        Nat.mul_le_mul hb (Nat.pow_le_pow_right (by omega) (Nat.le_of_succ_le_succ hk))

/-- The size of a payload: one bit of it is the sign. -/
theorem length_bn2mpi_le_iff : (bn2mpi n).length ≤ k + 1 ↔ n.natAbs < 128 * 256 ^ k := by
  refine ⟨fun hk => ?_, fun hlt => ?_⟩
  · have hval := natAbs_mpi2bn_lt hk
    rwa [mpi2bn_bn2mpi] at hval
  · have hlen : (getBytes n.natAbs).length ≤ k + 1 := length_getBytes_le_iff.mpr (by omega)
    have hval := beNat_getBytes n.natAbs
    unfold getBytes at hlen hval
    unfold bn2mpi
    split
    · exact Nat.zero_le _
    · next b rest he =>
      rw [he] at hlen hval
      split
      · next hb =>
        -- a byte more, but then the first one has its top bit set
        by_contra hlong
        simp only [length_cons] at hlong
        have hpow := Nat.pow_le_pow_right (show 0 < 256 by omega) (show k ≤ rest.length by omega)
        have hfirst := Nat.mul_le_mul (UInt8.le_iff_toNat_le.mp hb) hpow
        rw [beNat_cons] at hval
        change 128 * 256 ^ k ≤ _ at hfirst
        omega
      · exact hlen

theorem getuint64_eq (hn : 0 ≤ n) (hlt : n < 256 ^ 7) : getuint64 n = UInt64.ofNat n.toNat := by
  have hval := beNat_bn2mpi hn
  have hlen : (bn2mpi n).length ≤ 7 + 1 := length_bn2mpi_le_iff.mpr (by omega)
  unfold getuint64
  split
  · next he => rw [← hval, he]; rfl
  · next b rest he =>
    have hb : b < 0x80 := by simpa [he] using head_bn2mpi_lt hn
    rw [and_seven_bits hb, ← he, take_of_length_le (by rw [length_reverse]; exact hlen),
      reverse_reverse, hval]

/-! ## The compact form cuts off the last bytes -/

theorem toNat_or_of_dvd {a b : UInt32} {i : Nat} (ha : 2 ^ i ∣ a.toNat) (hb : b.toNat < 2 ^ i) :
    (a ||| b).toNat = a.toNat + b.toNat := by
  obtain ⟨k, hk⟩ := ha
  rw [UInt32.toNat_or, hk]
  exact (Nat.two_pow_add_eq_or_of_lt hb k).symm

theorem toNat_shiftLeft_24 (s : UInt32) : (s <<< 24).toNat = s.toNat % 256 * 2 ^ 24 := by
  simp [Nat.shiftLeft_eq]
  omega

theorem toNat_compact (s : UInt32) (b₀ b₁ b₂ : UInt8) :
    ((s <<< 24) ||| (b₀.toUInt32 <<< 16) ||| (b₁.toUInt32 <<< 8) ||| b₂.toUInt32).toNat =
      s.toNat % 256 * 2 ^ 24 + (b₀.toNat * 2 ^ 16 + b₁.toNat * 2 ^ 8 + b₂.toNat) := by
  have h₀ := b₀.toNat_lt
  have h₁ := b₁.toNat_lt
  have h₂ := b₂.toNat_lt
  have hword := toNat_shiftLeft_24 s
  have hbyte₀ : (b₀.toUInt32 <<< 16).toNat = b₀.toNat * 2 ^ 16 := by
    simp [Nat.shiftLeft_eq]
    omega
  have hbyte₁ : (b₁.toUInt32 <<< 8).toNat = b₁.toNat * 2 ^ 8 := by
    simp [Nat.shiftLeft_eq]
    omega
  have hor₀ := toNat_or_of_dvd (i := 24) (a := s <<< 24) (b := b₀.toUInt32 <<< 16) (by omega) (by omega)
  have hor₁ := toNat_or_of_dvd (i := 16) (a := s <<< 24 ||| b₀.toUInt32 <<< 16)
    (b := b₁.toUInt32 <<< 8) (by omega) (by omega)
  rw [toNat_or_of_dvd (i := 8) (by omega) (by simpa using h₂), hor₁, hor₀, UInt8.toNat_toUInt32]
  omega

theorem getCompact_mod_lt (hn : 0 ≤ n) : (getCompact n).toNat % 2 ^ 24 < 2 ^ 23 := by
  have h₀ : ((bn2mpi n).getD 0 0).toNat < 128 := head_bn2mpi_lt hn
  have h₁ := ((bn2mpi n).getD 1 0).toNat_lt
  have h₂ := ((bn2mpi n).getD 2 0).toNat_lt
  rw [getCompact, toNat_compact]
  omega

theorem first_bytes (v : List UInt8) :
    (v.getD 0 0).toNat * 2 ^ 16 + (v.getD 1 0).toNat * 2 ^ 8 + (v.getD 2 0).toNat =
      beNat v * 256 ^ (3 - v.length) / 256 ^ (v.length - 3) := by
  match v with
  | [] => simp [beNat]
  | [a] => simp [beNat]
  | [a, b] => simp [beNat]; omega
  | a :: b :: c :: v =>
    rw [Nat.sub_eq_zero_of_le (by simp), pow_zero, Nat.mul_one, ← beNat_take]
    simp [beNat]
    omega

/-- The size of the payload and its first three bytes. -/
theorem toNat_getCompact (hn : 0 ≤ n) (hlen : (bn2mpi n).length < 256) :
    (getCompact n).toNat / 2 ^ 24 = (bn2mpi n).length ∧ (getCompact n).toNat % 2 ^ 24 =
      n.toNat * 256 ^ (3 - (bn2mpi n).length) / 256 ^ ((bn2mpi n).length - 3) := by
  have h₀ := ((bn2mpi n).getD 0 0).toNat_lt
  have h₁ := ((bn2mpi n).getD 1 0).toNat_lt
  have h₂ := ((bn2mpi n).getD 2 0).toNat_lt
  rw [getCompact, toNat_compact, UInt32.toNat_ofNat', ← beNat_bn2mpi hn, ← first_bytes]
  omega

theorem beNat_replicate_zero (k : Nat) : beNat (List.replicate k 0) = 0 := by
  induction k with
  | zero => rfl
  | succ k ih =>
    rw [replicate_succ', beNat_append_singleton, ih]
    rfl

/-- The number in a compact target without its sign: the bits below bit 23 are its first bytes. -/
def compactValue (nCompact : UInt32) : Nat :=
  nCompact.toNat % 2 ^ 23 / 256 ^ (3 - nCompact.toNat / 2 ^ 24) * 256 ^ (nCompact.toNat / 2 ^ 24 - 3)

/-- The value of a compact target in closed form, with the sign of its sign bit. -/
theorem setCompact_eq (c : UInt32) : setCompact c =
    if 2 ^ 23 ≤ c.toNat % 2 ^ 24 then -(compactValue c : Int) else (compactValue c : Int) := by
  have hsize : (c >>> 24).toNat = c.toNat / 2 ^ 24 := by simp [Nat.shiftRight_eq_div_pow]
  have h₀ : (c >>> 16).toUInt8.toNat = c.toNat / 2 ^ 16 % 256 := by simp [Nat.shiftRight_eq_div_pow]
  have h₁ : (c >>> 8).toUInt8.toNat = c.toNat / 2 ^ 8 % 256 := by simp [Nat.shiftRight_eq_div_pow]
  have h₂ : c.toUInt8.toNat = c.toNat % 256 := by simp
  unfold setCompact compactValue
  rw [hsize]
  generalize (c >>> 16).toUInt8 = b₀ at *
  generalize (c >>> 8).toUInt8 = b₁ at *
  generalize c.toUInt8 = b₂ at *
  have hsign : 2 ^ 23 ≤ c.toNat % 2 ^ 24 ↔ 128 ≤ b₀.toNat := by omega
  have hlow := toNat_and_seven_bits b₀
  have hbytes : beNat [b₀ &&& 0x7f, b₁, b₂] = c.toNat % 2 ^ 23 := by
    simp only [beNat, foldl_cons, foldl_nil]
    omega
  simp only [hsign]
  cases c.toNat / 2 ^ 24 with
  | zero =>
    have hzero : c.toNat % 2 ^ 23 / 256 ^ (3 - 0) * 256 ^ (0 - 3) = 0 := by omega
    rw [hzero]
    simp [mpi2bn]
  | succ size =>
    have hvalue : beNat (take (size + 1) [b₀ &&& 0x7f, b₁, b₂] ++ replicate (size + 1 - 3) 0) =
        c.toNat % 2 ^ 23 / 256 ^ (3 - (size + 1)) * 256 ^ (size + 1 - 3) := by
      rw [beNat_append, beNat_take, beNat_replicate_zero, hbytes, length_replicate]
      rfl
    rw [← hvalue]
    exact mpi2bn_cons b₀ (take size [b₁, b₂] ++ replicate (size + 1 - 3) 0)

theorem setCompact_getCompact_nonneg (hn : 0 ≤ n) : 0 ≤ setCompact (getCompact n) := by
  rw [setCompact_eq, if_neg (Nat.not_le.mpr (getCompact_mod_lt hn))]
  exact Int.natCast_nonneg _

theorem setCompact_getCompact_eq (hn : 0 ≤ n) (hlen : (bn2mpi n).length < 256) :
    setCompact (getCompact n) =
      (n.toNat / 256 ^ ((bn2mpi n).length - 3) * 256 ^ ((bn2mpi n).length - 3) : Nat) := by
  have hsign := getCompact_mod_lt hn
  obtain ⟨hsize, hbytes⟩ := toNat_getCompact hn hlen
  rw [setCompact_eq, if_neg (Nat.not_le.mpr hsign), compactValue, hsize,
    show (getCompact n).toNat % 2 ^ 23 = (getCompact n).toNat % 2 ^ 24 by omega, hbytes]
  rcases Nat.le_total (bn2mpi n).length 3 with hle | hle
  · simp [Nat.sub_eq_zero_of_le hle]
  · simp [Nat.sub_eq_zero_of_le hle]

theorem le_of_length_bn2mpi (hk : k + 2 ≤ (bn2mpi n).length) : 128 * 256 ^ k ≤ n.natAbs := by
  have hlong := mt length_bn2mpi_le_iff.mpr (Nat.not_le.mpr hk)
  omega

theorem length_bn2mpi_lt (hn : 0 ≤ n) (hlt : n < 256 ^ 254) : (bn2mpi n).length < 256 :=
  Nat.lt_succ_of_le (length_bn2mpi_le_iff.mpr (by omega))

theorem setCompact_getCompact_le (hn : 0 ≤ n) (hlt : n < 256 ^ 254) :
    setCompact (getCompact n) ≤ n ∧ (0 < n → (n - setCompact (getCompact n)) * 2 ^ 15 < n) := by
  rw [setCompact_getCompact_eq hn (length_bn2mpi_lt hn hlt)]
  generalize hk : (bn2mpi n).length - 3 = k
  have hmod := Nat.div_add_mod' n.toNat (256 ^ k)
  refine ⟨by omega, fun hpos => ?_⟩
  rcases Nat.eq_zero_or_pos k with rfl | hkpos
  · omega
  · have hle : 128 * 256 ^ (k + 1) ≤ n.natAbs := le_of_length_bn2mpi (by omega)
    omega

theorem length_bn2mpi_mono (hm : 0 ≤ m) (hmn : m ≤ n) :
    (bn2mpi m).length - 3 ≤ (bn2mpi n).length - 3 := by
  by_contra hlt
  obtain ⟨k, hk⟩ : ∃ k, (bn2mpi m).length = k + 2 := ⟨(bn2mpi m).length - 2, by omega⟩
  have hlow := le_of_length_bn2mpi hk.ge
  have hhigh := length_bn2mpi_le_iff.mp (show (bn2mpi n).length ≤ k + 1 by omega)
  omega

theorem setCompact_getCompact_mono (hm : 0 ≤ m) (hmn : m ≤ n) (hlt : n < 256 ^ 254) :
    setCompact (getCompact m) ≤ setCompact (getCompact n) := by
  have hn := hm.trans hmn
  rw [setCompact_getCompact_eq hm (length_bn2mpi_lt hm (hmn.trans_lt hlt)),
    setCompact_getCompact_eq hn (length_bn2mpi_lt hn hlt), Int.ofNat_le]
  rcases (length_bn2mpi_mono hm hmn).eq_or_lt with heq | hshorter
  · rw [heq]
    exact Nat.mul_le_mul_right _ (Nat.div_le_div_right (Int.toNat_le_toNat hmn))
  · -- a power of two is between the numbers, and the compact form is exact on it
    obtain ⟨k, hk⟩ : ∃ k, (bn2mpi n).length = k + 3 := ⟨(bn2mpi n).length - 3, by omega⟩
    have hlow : 128 * 256 ^ (k + 1) ≤ n.natAbs := le_of_length_bn2mpi hk.ge
    have hhigh := length_bn2mpi_le_iff.mp (show (bn2mpi m).length ≤ (k + 1) + 1 by omega)
    rw [hk]
    calc m.toNat / 256 ^ ((bn2mpi m).length - 3) * 256 ^ ((bn2mpi m).length - 3)
        ≤ 128 * 256 ^ (k + 1) := (Nat.div_mul_le_self _ _).trans (by omega)
      _ = 128 * 256 ^ (k + 1) / 256 ^ k * 256 ^ k :=
        (Nat.div_mul_cancel (Dvd.dvd.mul_left (pow_dvd_pow _ (by omega)) _)).symm
      _ ≤ n.toNat / 256 ^ k * 256 ^ k := Nat.mul_le_mul_right _ (Nat.div_le_div_right (by omega))

end NovaCoin
