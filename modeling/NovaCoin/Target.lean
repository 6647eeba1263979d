import NovaCoin.Bignum

/-!
# Targets, rewards and block times

`GetNextTargetRequired`, the two reward curves and the time rules of `AcceptBlock`. The
parameters that `LoadBlockIndex` changes for the test network are functions of `fTestNet`.
-/

namespace NovaCoin

/-! ## Network parameters -/

def bnProofOfWorkLimit (fTestNet : Bool) : Int :=
  if fTestNet then 2 ^ (256 - 16) - 1 else 2 ^ (256 - 20) - 1

def bnProofOfStakeLegacyLimit : Int := 2 ^ (256 - 24) - 1
def bnProofOfStakeLimit : Int := 2 ^ (256 - 27) - 1
def bnProofOfStakeHardLimit : Int := 2 ^ (256 - 30) - 1

def nStakeTargetSpacing (fTestNet : Bool) : Int := if fTestNet then 5 * 60 else 10 * 60
def nCoinbaseMaturity (fTestNet : Bool) : Int := if fTestNet then 10 else 500
def nStakeMinAge (fTestNet : Bool) : Int := if fTestNet then 2 * nOneHour else 30 * nOneDay

def nTargetTimespan : Int := 7 * nOneDay

def getProofOfStakeLimit (fTestNet : Bool) (nHeight : Int) (nTime : UInt32) : Int :=
  if fTestNet then bnProofOfStakeLimit
  else if TARGETS_SWITCH_TIME < nTime then bnProofOfStakeLimit
  else if 15000 < nHeight + 1 then bnProofOfStakeLegacyLimit
  else if 14060 < nHeight + 1 then bnProofOfStakeHardLimit
  else bnProofOfWorkLimit fTestNet

/-! ## Rewards -/

/-- The bisection of both reward curves: `tooHigh` says on which side of the curve a value is. -/
@[semireducible]
def bisect (tooHigh : Int → Bool) (bnLowerBound bnUpperBound : Int) : Int :=
  if _h : bnLowerBound + CENT.toInt ≤ bnUpperBound then
    let bnMidValue := (bnLowerBound + bnUpperBound).tdiv 2
    if tooHigh bnMidValue then bisect tooHigh bnLowerBound bnMidValue
    else bisect tooHigh bnMidValue bnUpperBound
  else bnUpperBound
termination_by (bnUpperBound - bnLowerBound).toNat
decreasing_by
  all_goals
    have hcent : CENT.toInt = 10000 := by decide
    rw [hcent] at _h
    grind

theorem bisect_mem (tooHigh : Int → Bool) (lo hi : Int) (h : lo ≤ hi) :
    lo ≤ bisect tooHigh lo hi ∧ bisect tooHigh lo hi ≤ hi := by
  fun_induction bisect tooHigh lo hi with
  | case1 lo hi hle mid hhigh ih =>
    have hm : lo ≤ mid ∧ mid ≤ hi := by grind
    omega
  | case2 lo hi hle mid hlow ih =>
    have hm : lo ≤ mid ∧ mid ≤ hi := by grind
    omega
  | case3 lo hi hle => exact ⟨h, le_refl _⟩

/-- `GetProofOfWorkReward`: halved with every 64-fold of the difficulty. -/
def getProofOfWorkReward (fTestNet : Bool) (nBits : UInt32) : Int64 :=
  let bnSubsidyLimit := MAX_MINT_PROOF_OF_WORK.toInt
  let bnTarget := setCompact nBits
  let bnTargetLimit := setCompact (getCompact (bnProofOfWorkLimit fTestNet))
  let bnUpperBound := bisect
    (fun bnMidValue => bnSubsidyLimit ^ 6 * bnTarget < bnMidValue ^ 6 * bnTargetLimit)
    CENT.toInt bnSubsidyLimit
  let nSubsidy := (getuint64 bnUpperBound).toInt64
  min (nSubsidy / CENT * CENT) MAX_MINT_PROOF_OF_WORK

/-- Where the bisection ends, on the curve `bnLimit * (bnTarget / bnTargetLimit) ^ (1 / k)`. -/
def curveBound (k : Nat) (bnLimit bnTarget bnTargetLimit : Int) : Int :=
  bisect (fun bnMidValue => bnLimit ^ k * bnTarget < bnMidValue ^ k * bnTargetLimit) CENT.toInt bnLimit

theorem toInt_min (a b : Int64) : (min a b).toInt = min a.toInt b.toInt := by
  show (if a ≤ b then a else b).toInt = _
  split
  · next h => rw [min_eq_left (Int64.le_iff_toInt_le.mp h)]
  · next h => rw [min_eq_right (le_of_not_ge fun hle => h (Int64.le_iff_toInt_le.mpr hle))]

/-- Both rewards are rounded down to cents. -/
theorem toInt_roundToCent {limit : Int64} {v : Int} (hlo : 0 ≤ v) (hle : v ≤ limit.toInt)
    (hhi : limit.toInt < 2 ^ 56) :
    (min ((getuint64 v).toInt64 / CENT * CENT) limit).toInt = v / 10000 * 10000 := by
  have hcent : CENT.toInt = 10000 := by decide
  have hx : (getuint64 v).toInt64.toInt = v := by
    have hofNat : (UInt64.ofNat v.toNat).toInt64 = Int64.ofNat v.toNat := rfl
    rw [getuint64_eq hlo (by omega), hofNat, Int64.toInt_ofNat_of_lt (by omega)]
    omega
  have hdiv : ((getuint64 v).toInt64 / CENT).toInt = v / 10000 := by
    rw [Int64.toInt_div, hx, hcent, Int.tdiv_eq_ediv_of_nonneg hlo]
    exact Int.bmod_eq_of_le (by omega) (by omega)
  rw [toInt_min, Int64.toInt_mul, hcent, Int.bmod_eq_of_le (by omega) (by omega)]
  omega

theorem curveBound_mem (k : Nat) {bnLimit : Int} (h : 10000 ≤ bnLimit) (bnTarget bnTargetLimit : Int) :
    10000 ≤ curveBound k bnLimit bnTarget bnTargetLimit ∧
      curveBound k bnLimit bnTarget bnTargetLimit ≤ bnLimit :=
  bisect_mem _ _ _ h

theorem toInt_getProofOfWorkReward (fTestNet : Bool) (nBits : UInt32) :
    (getProofOfWorkReward fTestNet nBits).toInt = curveBound 6 MAX_MINT_PROOF_OF_WORK.toInt
      (setCompact nBits) (setCompact (getCompact (bnProofOfWorkLimit fTestNet))) / 10000 * 10000 := by
  have hbound := curveBound_mem 6 (by decide : 10000 ≤ MAX_MINT_PROOF_OF_WORK.toInt)
    (setCompact nBits) (setCompact (getCompact (bnProofOfWorkLimit fTestNet)))
  exact toInt_roundToCent (le_trans (by decide) hbound.1) hbound.2 (by decide)

theorem getProofOfWorkReward_nonneg (fTestNet : Bool) (nBits : UInt32) :
    0 ≤ (getProofOfWorkReward fTestNet nBits).toInt := by
  have hbound := curveBound_mem 6 (by decide : 10000 ≤ MAX_MINT_PROOF_OF_WORK.toInt)
    (setCompact nBits) (setCompact (getCompact (bnProofOfWorkLimit fTestNet)))
  rw [toInt_getProofOfWorkReward]
  omega

/-- The coin-year rate in `GetProofOfStakeReward`: halved with every 8-fold of the difficulty. -/
def getCoinYearReward (fTestNet : Bool) (nBits : UInt32) (nTime : UInt32) : Int64 :=
  let bnRewardCoinYearLimit := MAX_MINT_PROOF_OF_STAKE.toInt
  let bnTarget := setCompact nBits
  let bnTargetLimit := setCompact (getCompact (getProofOfStakeLimit fTestNet 0 nTime))
  let bnUpperBound := bisect
    (fun bnMidValue => bnRewardCoinYearLimit ^ 3 * bnTarget < bnMidValue ^ 3 * bnTargetLimit)
    CENT.toInt bnRewardCoinYearLimit
  let nRewardCoinYear := (getuint64 bnUpperBound).toInt64
  min (nRewardCoinYear / CENT * CENT) MAX_MINT_PROOF_OF_STAKE

theorem toInt_getCoinYearReward (fTestNet : Bool) (nBits nTime : UInt32) :
    (getCoinYearReward fTestNet nBits nTime).toInt = curveBound 3 MAX_MINT_PROOF_OF_STAKE.toInt
      (setCompact nBits) (setCompact (getCompact (getProofOfStakeLimit fTestNet 0 nTime))) / 10000 *
        10000 := by
  have hbound := curveBound_mem 3 (by decide : 10000 ≤ MAX_MINT_PROOF_OF_STAKE.toInt)
    (setCompact nBits) (setCompact (getCompact (getProofOfStakeLimit fTestNet 0 nTime)))
  exact toInt_roundToCent (le_trans (by decide) hbound.1) hbound.2 (by decide)

theorem getCoinYearReward_bounds (fTestNet : Bool) (nBits : UInt32) (nTime : UInt32) :
    10000 ≤ (getCoinYearReward fTestNet nBits nTime).toInt ∧
      (getCoinYearReward fTestNet nBits nTime).toInt ≤ 1000000 := by
  have hmint : MAX_MINT_PROOF_OF_STAKE.toInt = 1000000 := by decide
  have hbound := curveBound_mem 3 (by decide : 10000 ≤ MAX_MINT_PROOF_OF_STAKE.toInt)
    (setCompact nBits) (setCompact (getCompact (getProofOfStakeLimit fTestNet 0 nTime)))
  rw [toInt_getCoinYearReward]
  omega

/-- `GetProofOfStakeReward` with `bCoinYearOnly = false`. -/
def getProofOfStakeReward (fTestNet : Bool) (nCoinAge : Int64) (nBits : UInt32) (nTime : UInt32) :
    Int64 :=
  let nSubsidyLimit := 10 * COIN
  let nSubsidy := nCoinAge * getCoinYearReward fTestNet nBits nTime * 33 / (365 * 33 + 8)
  min nSubsidy nSubsidyLimit

/-- Without overflow the reward is that of the integers. -/
theorem toInt_getProofOfStakeReward (fTestNet : Bool) {nCoinAge : Int64} (nBits nTime : UInt32)
    (hlo : 0 ≤ nCoinAge.toInt)
    (hhi : nCoinAge.toInt * (getCoinYearReward fTestNet nBits nTime).toInt * 33 < 2 ^ 63) :
    (getProofOfStakeReward fTestNet nCoinAge nBits nTime).toInt =
      min (nCoinAge.toInt * (getCoinYearReward fTestNet nBits nTime).toInt * 33 / 12053) 10000000 := by
  have hrate := (getCoinYearReward_bounds fTestNet nBits nTime).1
  unfold getProofOfStakeReward
  generalize getCoinYearReward fTestNet nBits nTime = nRewardCoinYear at hrate hhi ⊢
  have hnonneg : 0 ≤ nCoinAge.toInt * nRewardCoinYear.toInt := Int.mul_nonneg hlo (by omega)
  have hmul : (nCoinAge * nRewardCoinYear).toInt = nCoinAge.toInt * nRewardCoinYear.toInt := by
    rw [Int64.toInt_mul]
    exact Int.bmod_eq_of_le (by omega) (by omega)
  have hmul' : (nCoinAge * nRewardCoinYear * 33).toInt =
      nCoinAge.toInt * nRewardCoinYear.toInt * 33 := by
    rw [Int64.toInt_mul, hmul, show (33 : Int64).toInt = 33 from by decide]
    exact Int.bmod_eq_of_le (by omega) (by omega)
  have hdiv : (nCoinAge * nRewardCoinYear * 33 / (365 * 33 + 8)).toInt =
      nCoinAge.toInt * nRewardCoinYear.toInt * 33 / 12053 := by
    rw [Int64.toInt_div, hmul', show (365 * 33 + 8 : Int64).toInt = 12053 from by decide,
      Int.tdiv_eq_ediv_of_nonneg (by omega)]
    exact Int.bmod_eq_of_le (by omega) (by omega)
  have hlimit : (10 * COIN : Int64).toInt = 10000000 := by decide
  rw [toInt_min, hdiv, hlimit]

/-! ## Retargeting -/

def getTargetSpacingWorkMax (fTestNet : Bool) (nTime : UInt32) : Int :=
  if TARGETS_SWITCH_TIME < nTime then 3 * nStakeTargetSpacing fTestNet
  else if fTestNet then 3 * nStakeTargetSpacing fTestNet
  else 12 * nStakeTargetSpacing fTestNet

/-- `GetLastBlockIndex`: the last block of a type, or the root. -/
def getLastBlockIndex (fProofOfStake : Bool) : PIndex → PIndex
  | [] => []
  | [b] => [b]
  | b :: pprev :: rest =>
    if b.isProofOfStake != fProofOfStake then getLastBlockIndex fProofOfStake (pprev :: rest)
    else b :: pprev :: rest

/-- The numbers a retarget is computed from. -/
structure Retarget where
  bnTargetLimit : Int
  /-- the target of the last block of the type -/
  bnLast : Int
  nActualSpacing : Int
  nTargetSpacing : Int

namespace Retarget

def nInterval (r : Retarget) : Int := nTargetTimespan.tdiv r.nTargetSpacing

def multiplier (r : Retarget) : Int :=
  (r.nInterval - 1) * r.nTargetSpacing + r.nActualSpacing + r.nActualSpacing

def divisor (r : Retarget) : Int := (r.nInterval + 1) * r.nTargetSpacing

/-- Exponential moving toward the target spacing. -/
def bnNew (r : Retarget) : Int :=
  let bnNew := (r.bnLast * r.multiplier).tdiv r.divisor
  if r.bnTargetLimit < bnNew then r.bnTargetLimit else bnNew

end Retarget

def getTargetLimit (fTestNet : Bool) (pindexLast : PIndex) (fProofOfStake : Bool) : Int :=
  match pindexLast, fProofOfStake with
  | last :: _, true => getProofOfStakeLimit fTestNet last.nHeight last.nTime
  | _, _ => bnProofOfWorkLimit fTestNet

theorem getTargetLimit_mem (fTestNet : Bool) (pindexLast : PIndex) (fProofOfStake : Bool) :
    0 ≤ getTargetLimit fTestNet pindexLast fProofOfStake ∧
      getTargetLimit fTestNet pindexLast fProofOfStake ≤ 2 ^ 240 - 1 := by
  have hwork : 0 ≤ bnProofOfWorkLimit fTestNet ∧ bnProofOfWorkLimit fTestNet ≤ 2 ^ 240 - 1 := by
    cases fTestNet <;> decide
  unfold getTargetLimit getProofOfStakeLimit
  split
  · split_ifs <;> first | exact hwork | decide
  · exact hwork

/-- The retarget of `GetNextTargetRequired`; `none` for the genesis block and the first two
blocks of a type. -/
def retarget (fTestNet : Bool) (pindexLast : PIndex) (fProofOfStake : Bool) : Option Retarget :=
  match pindexLast, getLastBlockIndex fProofOfStake pindexLast with
  | last :: _, prev :: pprev =>
    if pprev.isEmpty then none else
    match getLastBlockIndex fProofOfStake pprev with
    | prevPrev :: _ :: _ => some {
        bnTargetLimit := getTargetLimit fTestNet pindexLast fProofOfStake
        bnLast := setCompact prev.nBits
        nActualSpacing := prev.getBlockTime - prevPrev.getBlockTime
        nTargetSpacing :=
          if fProofOfStake then nStakeTargetSpacing fTestNet
          else min (getTargetSpacingWorkMax fTestNet last.nTime)
            (nStakeTargetSpacing fTestNet * (1 + last.nHeight - prev.nHeight)) }
    | _ => none
  | _, _ => none

def getNextTargetRequired (fTestNet : Bool) (pindexLast : PIndex) (fProofOfStake : Bool) : UInt32 :=
  match retarget fTestNet pindexLast fProofOfStake with
  | some r => getCompact r.bnNew
  | none => getCompact (getTargetLimit fTestNet pindexLast fProofOfStake)

/-! ## Block times -/

def nMedianTimeSpan : Nat := 11

def getMedianTimePast (pindex : PIndex) : Int :=
  let times := (pindex.take nMedianTimeSpan).map (·.getBlockTime)
  (times.insertionSort (· ≤ ·)).getD (times.length / 2) 0

/-- `AcceptBlock`'s "block's timestamp is too early". -/
def isTooEarly (nBlockTime : Int) (pindexPrev : PIndex) : Bool :=
  nBlockTime ≤ getMedianTimePast pindexPrev ||
    match pindexPrev with
    | prev :: _ => futureDrift nBlockTime < prev.getBlockTime
    | [] => false

/-- How far a block may be after the median before it: 7 weeks, since 20 Dec 2015 12 hours on the
main network. -/
def nMaxOffset (fTestNet : Bool) (nTimePrev : UInt32) : Int :=
  if fTestNet || nTimePrev < 1450569600 then 7 * nOneWeek else 12 * nOneHour

/-- `AcceptBlock`'s "block's timestamp is too far in the future". -/
def isTooFarInFuture (fTestNet : Bool) (nBlockTime : Int) (pindexPrev : PIndex) : Bool :=
  match pindexPrev with
  | prev :: _ =>
    1 < prev.nHeight && getMedianTimePast pindexPrev + nMaxOffset fTestNet prev.nTime < nBlockTime
  | [] => false

end NovaCoin
