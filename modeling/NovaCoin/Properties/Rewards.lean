import Mathlib.Data.Real.Basic
import NovaCoin.Properties.Disconnect

/-!
# Rewards

The reward of a proof of work and the coin-year rate of a proof of stake are read off a curve by
bisection (`rewards_are_curves`). The reward of a coinstake multiplies the rate by the coin age in
64 bits, and is right as long as this does not overflow (`stakeReward_of_lt`).
-/

namespace NovaCoin

open Guard

/-! ## The bisection -/

section Bisect

variable (tooHigh : Int → Bool) {tooHigh' : Int → Bool}

/-- The bounds stay on their sides of the curve, and are less than a cent apart in the end. -/
theorem bisect_bracket (lo hi : Int) (h : lo ≤ hi) :
    (bisect tooHigh lo hi = hi ∨ tooHigh (bisect tooHigh lo hi)) ∧
      ∃ v ≥ lo, (v = lo ∨ tooHigh v = false) ∧ bisect tooHigh lo hi < v + CENT.toInt := by
  fun_induction bisect tooHigh lo hi with
  | case1 lo hi hle mid hhigh ih =>
    obtain ⟨hup, hlow⟩ := ih (by grind)
    refine ⟨.inr ?_, hlow⟩
    rcases hup with heq | hup
    · rwa [heq]
    · exact hup
  | case2 lo hi hle mid hlow ih =>
    have hmid : lo ≤ mid ∧ mid ≤ hi := by grind
    obtain ⟨hup, v, hle, hv, hbound⟩ := ih hmid.2
    refine ⟨hup, v, hmid.1.trans hle, .inr ?_, hbound⟩
    rcases hv with rfl | hv
    · exact Bool.eq_false_iff.mpr hlow
    · exact hv
  | case3 lo hi hle => exact ⟨.inl rfl, lo, le_rfl, .inl rfl, by omega⟩

theorem bisect_mono (himp : ∀ v, tooHigh' v → tooHigh v) (lo hi : Int) (h : lo ≤ hi) :
    bisect tooHigh lo hi ≤ bisect tooHigh' lo hi := by
  fun_induction bisect tooHigh lo hi with
  | case1 lo hi hle mid hhigh ih =>
    have hmid : lo ≤ mid ∧ mid ≤ hi := by grind
    rw [bisect.eq_def tooHigh', dif_pos hle]
    by_cases hhigh' : tooHigh' mid
    · rw [if_pos hhigh']
      exact ih hmid.1
    · -- from here on the one stays below the middle and the other above it
      have hbelow := (bisect_mem tooHigh lo mid hmid.1).2
      have habove := (bisect_mem tooHigh' mid hi hmid.2).1
      rw [if_neg hhigh']
      exact hbelow.trans habove
  | case2 lo hi hle mid hlow ih =>
    rw [bisect.eq_def tooHigh', dif_pos hle, if_neg fun hhigh' => hlow (himp _ hhigh')]
    exact ih (by grind)
  | case3 lo hi hle => rw [bisect.eq_def tooHigh', dif_neg hle]

end Bisect

/-! ## The curves -/

section Curve

variable {k : Nat} {bnLimit bnTarget bnTarget' bnTargetLimit : Int}

theorem curveBound_mono (hlimit : 10000 ≤ bnLimit) (h : bnTarget ≤ bnTarget') :
    curveBound k bnLimit bnTarget bnTargetLimit ≤ curveBound k bnLimit bnTarget' bnTargetLimit := by
  refine bisect_mono _ (fun v hv => ?_) _ _ hlimit
  have hpow : 0 ≤ bnLimit ^ k := Int.pow_nonneg (by omega)
  rw [decide_eq_true_eq] at hv ⊢
  exact (Int.mul_le_mul_of_nonneg_left h hpow).trans_lt hv

/-- The root is between the bounds. -/
theorem curveBound_root (hk : k ≠ 0) (hlimit : 10000 ≤ bnLimit) (hpos : 0 < bnTargetLimit) {x : ℝ}
    (hlo : 10000 ≤ x) (hhi : x ≤ bnLimit)
    (hroot : x ^ k * bnTargetLimit = bnLimit ^ k * bnTarget) :
    x ≤ curveBound k bnLimit bnTarget bnTargetLimit ∧
      curveBound k bnLimit bnTarget bnTargetLimit < x + 10000 := by
  have hx : 0 ≤ x := by linarith
  have hreal : (0 : ℝ) < bnTargetLimit := by exact_mod_cast hpos
  have hside (v : Int) (hv : 10000 ≤ v) :
      bnLimit ^ k * bnTarget < v ^ k * bnTargetLimit ↔ x < v := by
    have hv : (0 : ℝ) ≤ v := by exact_mod_cast (by omega : 0 ≤ v)
    rw [← Int.cast_lt (R := ℝ)]
    push_cast
    rw [← hroot, mul_lt_mul_iff_left₀ hreal, pow_lt_pow_iff_left₀ hx hv hk]
  obtain ⟨hup, v, hle, hv, hlt⟩ := bisect_bracket
    (fun bnMidValue => bnLimit ^ k * bnTarget < bnMidValue ^ k * bnTargetLimit) CENT.toInt bnLimit hlimit
  have hb := (curveBound_mem k hlimit bnTarget bnTargetLimit).1
  rw [← curveBound] at hup hlt
  constructor
  · rcases hup with heq | hup
    · rwa [heq]
    · exact ((hside _ hb).mp (of_decide_eq_true hup)).le
  · have hvx : v ≤ x := by
      rcases hv with rfl | hv
      · exact hlo
      · exact le_of_not_gt fun h => of_decide_eq_false hv ((hside v hle).mpr h)
    have hlt : (curveBound k bnLimit bnTarget bnTargetLimit : ℝ) < v + 10000 := by exact_mod_cast hlt
    linarith

end Curve

/-- A reward by target: in cents from one cent to the limit, not falling when the target rises, and
less than a cent from the root `x`. -/
structure IsRewardCurve (k : Nat) (bnLimit bnTargetLimit : Int) (reward : UInt32 → Int64) : Prop where
  cents : ∀ nBits, CENT.toInt ∣ (reward nBits).toInt
  range : ∀ nBits, CENT ≤ reward nBits ∧ (reward nBits).toInt ≤ bnLimit
  mono : ∀ nBits nBits', setCompact nBits ≤ setCompact nBits' → reward nBits ≤ reward nBits'
  root : ∀ nBits (x : ℝ), CENT.toInt ≤ x → x ≤ bnLimit →
    x ^ k * bnTargetLimit = bnLimit ^ k * setCompact nBits → |(reward nBits).toInt - x| < CENT.toInt

theorem isRewardCurve {k : Nat} {limit : Int64} {bnTargetLimit : Int} {reward : UInt32 → Int64}
    (hk : k ≠ 0) (hlo : 10000 ≤ limit.toInt) (hpos : 0 < bnTargetLimit)
    (h : ∀ nBits, (reward nBits).toInt =
      curveBound k limit.toInt (setCompact nBits) bnTargetLimit / 10000 * 10000) :
    IsRewardCurve k limit.toInt bnTargetLimit reward where
  cents nBits := ⟨_, (h nBits).trans (Int.mul_comm _ _)⟩
  range nBits := by
    have hbound := curveBound_mem k hlo (setCompact nBits) bnTargetLimit
    rw [Int64.le_iff_toInt_le, h, show CENT.toInt = 10000 from by decide]
    omega
  mono nBits nBits' hle := by
    have hmono : curveBound k limit.toInt (setCompact nBits) bnTargetLimit ≤
      curveBound k limit.toInt (setCompact nBits') bnTargetLimit := curveBound_mono hlo hle
    rw [Int64.le_iff_toInt_le, h, h]
    omega
  root nBits x hx hx' hroot := by
    obtain ⟨hle, hlt⟩ := curveBound_root hk hlo hpos hx hx' hroot
    rw [h]
    generalize curveBound k limit.toInt (setCompact nBits) bnTargetLimit = v at hle hlt ⊢
    have hround : ((v / 10000 * 10000 : Int) : ℝ) ≤ v := by exact_mod_cast (by omega)
    have hround' : (v : ℝ) < (v / 10000 * 10000 : Int) + 10000 := by exact_mod_cast (by omega)
    have hcent : ((CENT.toInt : Int) : ℝ) = 10000 := by norm_num [show CENT.toInt = 10000 from by decide]
    rw [abs_lt]
    constructor <;> linarith

/-- Both rewards are curves of the target: of degree six and three. -/
theorem rewards_are_curves (fTestNet : Bool) (nTime : UInt32) :
    IsRewardCurve 6 MAX_MINT_PROOF_OF_WORK.toInt
        (setCompact (getCompact (bnProofOfWorkLimit fTestNet))) (getProofOfWorkReward fTestNet) ∧
      IsRewardCurve 3 MAX_MINT_PROOF_OF_STAKE.toInt
        (setCompact (getCompact (getProofOfStakeLimit fTestNet 0 nTime)))
        fun nBits => getCoinYearReward fTestNet nBits nTime := by
  refine ⟨isRewardCurve (by decide) (by decide) ?_ fun _ => toInt_getProofOfWorkReward _ _,
    isRewardCurve (by decide) (by decide) ?_ fun _ => toInt_getCoinYearReward _ _ _⟩
  · cases fTestNet <;> decide +kernel
  · have hswitch : getProofOfStakeLimit fTestNet 0 nTime = bnProofOfStakeLimit ∨
        getProofOfStakeLimit fTestNet 0 nTime = bnProofOfWorkLimit false := by
      unfold getProofOfStakeLimit
      cases fTestNet with
      | true => exact .inl rfl
      | false => by_cases h : TARGETS_SWITCH_TIME < nTime <;> simp [h]
    rcases hswitch with h | h
    · rw [h]
      decide +kernel
    · rw [h]
      decide +kernel

/-! ## The reward of a coinstake -/

/-- As long as the product does not overflow, the reward is between 0 and ten coins, and does not
fall with the coin age. -/
theorem stakeReward_of_lt (fTestNet : Bool) (nBits nTime : UInt32) (nCoinAge : UInt64)
    (h : nCoinAge.toNat * (getCoinYearReward fTestNet nBits nTime).toInt * 33 < 2 ^ 63) :
    0 ≤ getProofOfStakeReward fTestNet nCoinAge.toInt64 nBits nTime ∧
      getProofOfStakeReward fTestNet nCoinAge.toInt64 nBits nTime ≤ 10 * COIN ∧
      ∀ nCoinAge' ≤ nCoinAge, getProofOfStakeReward fTestNet nCoinAge'.toInt64 nBits nTime ≤
        getProofOfStakeReward fTestNet nCoinAge.toInt64 nBits nTime := by
  have hrate := (getCoinYearReward_bounds fTestNet nBits nTime).1
  -- the age is positive as an `int64_t`, and so is every smaller one
  have hage {n : UInt64} (hle : n ≤ nCoinAge) : n.toInt64.toInt = n.toNat ∧
      (n.toNat : Int) * (getCoinYearReward fTestNet nBits nTime).toInt ≤
        nCoinAge.toNat * (getCoinYearReward fTestNet nBits nTime).toInt := by
    have hn : (n.toNat : Int) ≤ nCoinAge.toNat := by exact_mod_cast UInt64.le_iff_toNat_le.mp hle
    have hprod := Int.mul_le_mul_of_nonneg_left hrate (Int.natCast_nonneg nCoinAge.toNat)
    refine ⟨?_, Int.mul_le_mul_of_nonneg_right hn (by omega)⟩
    have hofNat : (UInt64.ofNat n.toNat).toInt64 = Int64.ofNat n.toNat := rfl
    rw [UInt64.ofNat_toNat] at hofNat
    rw [hofNat, Int64.toInt_ofNat_of_lt (by omega)]
  have hreward {n : UInt64} (hle : n ≤ nCoinAge) :
      (getProofOfStakeReward fTestNet n.toInt64 nBits nTime).toInt =
        min (n.toNat * (getCoinYearReward fTestNet nBits nTime).toInt * 33 / 12053) 10000000 := by
    obtain ⟨hn, hprod⟩ := hage hle
    rw [toInt_getProofOfStakeReward fTestNet nBits nTime (by omega) (by rw [hn]; omega), hn]
  have hnonneg := Int.mul_nonneg (Int.natCast_nonneg nCoinAge.toNat) (le_trans (by decide) hrate)
  refine ⟨?_, ?_, fun n hle => ?_⟩
  · rw [Int64.le_iff_toInt_le, hreward (UInt64.le_refl _), Int64.toInt_zero]
    omega
  · rw [Int64.le_iff_toInt_le, hreward (UInt64.le_refl _),
      show (10 * COIN : Int64).toInt = 10000000 from by decide]
    omega
  · have hprod := (hage hle).2
    rw [Int64.le_iff_toInt_le, hreward hle, hreward (UInt64.le_refl _)]
    omega

/-- A coinstake at the maximum rate, which spends a hundred million coins after ten years. -/
def richPrev : CTransaction := ⟨1, 1284640000, [], [⟨100000000000000, []⟩], 0⟩

def richStake : CTransaction := ⟨1, 1600000000, [sampleSpend richPrev 0], [⟨0, []⟩, ⟨1, []⟩], 0⟩

def richEnv : Env :=
  { Env.sample with
    readTx := fun _ => some richPrev
    readBlockHeader := fun _ _ => some { sampleBlock [richPrev] with nTime := 1284640000 } }

def richDb : TxDB := Finmap.singleton (Crypto.sample.txHash richPrev) (CTxIndex.new ⟨1, 100, 181⟩ 1)

/-- The product of coin age and rate passes 2⁶³, and the reward is negative. -/
theorem richStake_reward_negative :
    richStake.isCoinStake ∧ ∃ nCoinAge, richStake.getCoinAge richEnv richDb = .ok nCoinAge ∧
      decide (getProofOfStakeReward true nCoinAge.toInt64 0x1d1fffff richStake.nTime < 0) :=
  ⟨by decide +kernel, by decide +kernel⟩

/-- A year of a thousand coins is within the bound. -/
theorem stakeReward_small : getProofOfStakeReward true 364000 0x1d1fffff 1600000000 ≤
    getProofOfStakeReward true 365000 0x1d1fffff 1600000000 :=
  (stakeReward_of_lt true 0x1d1fffff 1600000000 365000 (by decide +kernel)).2.2 364000 (by decide)

end NovaCoin
