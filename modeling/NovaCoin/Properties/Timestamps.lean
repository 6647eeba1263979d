import NovaCoin.Infra.Median
import NovaCoin.Target

/-!
# Block times and the retarget

`AcceptBlock` only asks that a block is later than the median of the eleven blocks before it
and at most two hours earlier than its parent, so times may go back. They cannot go back far:
the medians rise, and no block is more than ten hours earlier than an ancestor
(`time_ge_of_ancestor`). This keeps the multiplier of the retarget positive.
-/

namespace NovaCoin

open List

/-- Every block but the root satisfies a condition on itself and its parent. -/
def EachBlock (ok : CBlockIndex → PIndex → Prop) : PIndex → Prop
  | b :: pprev :: rest => ok b (pprev :: rest) ∧ EachBlock ok (pprev :: rest)
  | _ => True

variable {ok : CBlockIndex → PIndex → Prop} {b a d : CBlockIndex} {chain newer mid older : PIndex}
  {fTestNet fProofOfStake : Bool} {r : Retarget}

instance EachBlock.decidable [∀ b chain, Decidable (ok b chain)] : DecidablePred (EachBlock ok)
  | [] | [_] => .isTrue trivial
  | _ :: p :: rest => @instDecidableAnd _ _ _ (EachBlock.decidable (p :: rest))

theorem EachBlock.of_cons (h : EachBlock ok (b :: chain)) : EachBlock ok chain := by
  match chain, h with
  | [], _ => trivial
  | _ :: _, h => exact h.2

theorem EachBlock.of_append (h : EachBlock ok (newer ++ chain)) : EachBlock ok chain := by
  induction newer with
  | nil => exact h
  | cons b newer ih => exact ih h.of_cons

theorem EachBlock.head (hne : chain ≠ []) (h : EachBlock ok (b :: chain)) : ok b chain := by
  match chain, hne, h with
  | _ :: _, _, h => exact h.1

theorem EachBlock.cons (hb : ok b chain) (h : EachBlock ok chain) : EachBlock ok (b :: chain) := by
  cases chain with
  | nil => trivial
  | cons _ _ => exact ⟨hb, h⟩

def heightFollows (b : CBlockIndex) (pindexPrev : PIndex) : Prop :=
  ∀ prev ∈ pindexPrev.head?, b.nHeight = prev.nHeight + 1
  deriving Decidable

def timeFollows (b : CBlockIndex) (pindexPrev : PIndex) : Prop :=
  isTooEarly b.getBlockTime pindexPrev = false
  deriving Decidable

def targetFollows (fTestNet : Bool) (b : CBlockIndex) (pindexPrev : PIndex) : Prop :=
  b.nBits = getNextTargetRequired fTestNet pindexPrev b.isProofOfStake
  deriving Decidable

/-! ## Times -/

theorem getMedianTimePast_eq_median (pindex : PIndex) :
    getMedianTimePast pindex =
      Median.median 0 ((pindex.map (·.getBlockTime)).take nMedianTimeSpan) := by
  rw [getMedianTimePast, Median.median, map_take]

/-- The times of an accepted chain rise in the sense of `Infra/Median.lean`. -/
theorem rising_times : ∀ {chain : PIndex}, EachBlock timeFollows chain →
    Median.Rising (2 * 5 + 1) (2 * nOneHour) (chain.map (·.getBlockTime))
  | [], _ => trivial
  | [_], _ => trivial
  | b :: p :: rest, h => by
    obtain ⟨hb, hrest⟩ := h
    simp only [timeFollows, isTooEarly, futureDrift, Bool.or_eq_false_iff, decide_eq_false_iff_not,
      not_le, getMedianTimePast_eq_median] at hb
    refine ⟨hb.1, ?_, rising_times hrest⟩
    have hstep : ¬ b.getBlockTime + 2 * nOneHour < p.getBlockTime := of_decide_eq_false hb.2
    show p.getBlockTime - 2 * nOneHour ≤ b.getBlockTime
    omega

theorem time_ge_of_ancestor (h : EachBlock timeFollows (newer ++ d :: (mid ++ a :: older))) :
    a.getBlockTime - 10 * nOneHour ≤ d.getBlockTime := by
  have hr := rising_times h.of_append
  simp only [map_cons, map_append] at hr
  have := hr.drift (by decide)
  omega

/-- The median time never falls along a chain, and every later block is after it. -/
theorem getMedianTimePast_mono (newer chain : PIndex) (hne : chain ≠ [])
    (h : EachBlock timeFollows (newer ++ chain)) :
    getMedianTimePast chain ≤ getMedianTimePast (newer ++ chain) ∧
      ∀ b ∈ newer, getMedianTimePast chain < b.getBlockTime := by
  have hmono : ∀ {newer : PIndex}, EachBlock timeFollows (newer ++ chain) →
      getMedianTimePast chain ≤ getMedianTimePast (newer ++ chain) := by
    intro newer h
    have hr := rising_times h
    rw [getMedianTimePast_eq_median, getMedianTimePast_eq_median]
    rw [map_append] at hr ⊢
    exact hr.median_mono (by decide) (by simpa using hne)
  refine ⟨hmono h, fun b hb => ?_⟩
  obtain ⟨later, mid, rfl⟩ := append_of_mem hb
  rw [append_assoc, cons_append] at h
  have hb := h.of_append.head (by simp [hne])
  simp only [timeFollows, isTooEarly, Bool.or_eq_false_iff, decide_eq_false_iff_not, not_le] at hb
  exact (hmono h.of_append.of_cons).trans_lt hb.1

/-! ## The blocks a retarget looks at -/

theorem getLastBlockIndex_suffix (fProofOfStake : Bool) :
    ∀ chain : PIndex, ∃ newer, chain = newer ++ getLastBlockIndex fProofOfStake chain
  | [] => ⟨[], rfl⟩
  | [_] => ⟨[], rfl⟩
  | b :: p :: rest => by
    rw [getLastBlockIndex]
    split
    · obtain ⟨newer, h⟩ := getLastBlockIndex_suffix fProofOfStake (p :: rest)
      exact ⟨b :: newer, by rw [cons_append, ← h]⟩
    · exact ⟨[], rfl⟩

theorem height_le_of_ancestor (h : EachBlock heightFollows (d :: (mid ++ a :: older))) :
    a.nHeight < d.nHeight := by
  induction mid generalizing d with
  | nil =>
    have := h.1 a rfl
    omega
  | cons m mid ih =>
    have hm := ih h.of_cons
    have := h.1 m rfl
    omega

theorem height_le_of_head {last : CBlockIndex} {rest : PIndex}
    (hc : last :: rest = newer ++ a :: older) (h : EachBlock heightFollows (last :: rest)) :
    a.nHeight ≤ last.nHeight := by
  cases newer with
  | nil =>
    rw [nil_append, cons.injEq] at hc
    rw [hc.1]
  | cons b newer =>
    rw [cons_append, cons.injEq] at hc
    rw [hc.2] at h
    exact (height_le_of_ancestor h).le

/-- What `retarget` is computed from: two blocks of the chain, the earlier not the root. -/
structure RetargetOf (fTestNet : Bool) (chain : PIndex) (fProofOfStake : Bool) (r : Retarget)
    (newer mid : PIndex) (prev prevPrev : CBlockIndex) (older : PIndex) : Prop where
  chain_eq : chain = newer ++ prev :: (mid ++ prevPrev :: older)
  bnLast_eq : r.bnLast = setCompact prev.nBits
  spacing_eq : r.nActualSpacing = prev.getBlockTime - prevPrev.getBlockTime
  limit_eq : r.bnTargetLimit = getTargetLimit fTestNet chain fProofOfStake
  target_eq : ∃ last ∈ chain.head?, r.nTargetSpacing =
    if fProofOfStake then nStakeTargetSpacing fTestNet
    else min (getTargetSpacingWorkMax fTestNet last.nTime)
      (nStakeTargetSpacing fTestNet * (1 + last.nHeight - prev.nHeight))

theorem retarget_cases (h : retarget fTestNet chain fProofOfStake = some r) :
    ∃ newer mid prev prevPrev older,
      RetargetOf fTestNet chain fProofOfStake r newer mid prev prevPrev older := by
  unfold retarget at h
  split at h
  · next last rest prev pprev hprev =>
    split at h
    · cases h
    · split at h
      · next prevPrev p older hpp =>
        obtain ⟨newer, hn⟩ := getLastBlockIndex_suffix fProofOfStake (last :: rest)
        obtain ⟨mid, hm⟩ := getLastBlockIndex_suffix fProofOfStake pprev
        rw [hprev] at hn
        rw [hpp] at hm
        cases h
        exact ⟨newer, mid, prev, prevPrev, p :: older, by rw [hn, ← hm], rfl, rfl, rfl,
          last, rfl, rfl⟩
      · cases h
  · cases h

/-! ## The multiplier -/

theorem nStakeTargetSpacing_bounds (fTestNet : Bool) :
    300 ≤ nStakeTargetSpacing fTestNet ∧ nStakeTargetSpacing fTestNet ≤ 600 := by
  cases fTestNet <;> decide

theorem getTargetSpacingWorkMax_bounds (fTestNet : Bool) (nTime : UInt32) :
    300 ≤ getTargetSpacingWorkMax fTestNet nTime ∧
      getTargetSpacingWorkMax fTestNet nTime ≤ 7200 := by
  have := nStakeTargetSpacing_bounds fTestNet
  unfold getTargetSpacingWorkMax
  split_ifs <;> omega

theorem RetargetOf.targetSpacing_bounds {prev prevPrev : CBlockIndex}
    (hr : RetargetOf fTestNet chain fProofOfStake r newer mid prev prevPrev older)
    (hh : EachBlock heightFollows chain) : 300 ≤ r.nTargetSpacing ∧ r.nTargetSpacing ≤ 7200 := by
  obtain ⟨last, hlast, heq⟩ := hr.target_eq
  have hstake := nStakeTargetSpacing_bounds fTestNet
  rw [heq]
  split
  · omega
  · have hwork := getTargetSpacingWorkMax_bounds fTestNet last.nTime
    obtain ⟨rest, hrest⟩ : ∃ rest, chain = last :: rest := by
      cases hc : chain with
      | nil => simp [hc] at hlast
      | cons b rest =>
        simp only [hc, head?_cons, Option.mem_def, Option.some.injEq] at hlast
        exact ⟨rest, by rw [hlast]⟩
    have hle : prev.nHeight ≤ last.nHeight :=
      height_le_of_head (hrest.symm.trans hr.chain_eq) (hrest ▸ hh)
    -- the second argument of `min` is at least one stake spacing
    have hmul : nStakeTargetSpacing fTestNet * 1 ≤
        nStakeTargetSpacing fTestNet * (1 + last.nHeight - prev.nHeight) :=
      Int.mul_le_mul_of_nonneg_left (by omega) (by omega)
    omega

theorem Retarget.interval_mul_gt (hpos : 300 ≤ r.nTargetSpacing) :
    nTargetTimespan - r.nTargetSpacing < r.nInterval * r.nTargetSpacing := by
  have hdiv := Int.mul_tdiv_add_tmod nTargetTimespan r.nTargetSpacing
  have hmod := Int.tmod_lt_of_pos nTargetTimespan (show 0 < r.nTargetSpacing by omega)
  rw [nInterval, Int.mul_comm]
  omega

theorem Retarget.multiplier_pos (hpos : 300 ≤ r.nTargetSpacing) (hle : r.nTargetSpacing ≤ 7200)
    (hactual : -(10 * nOneHour) ≤ r.nActualSpacing) : 0 < r.multiplier := by
  have hi := r.interval_mul_gt hpos
  have hsub : (r.nInterval - 1) * r.nTargetSpacing =
      r.nInterval * r.nTargetSpacing - r.nTargetSpacing := by ring
  simp only [multiplier, hsub, nTargetTimespan, nOneDay, nOneHour] at *
  omega

theorem Retarget.divisor_pos (hpos : 300 ≤ r.nTargetSpacing) : 0 < r.divisor := by
  have hi := r.interval_mul_gt hpos
  have hadd : (r.nInterval + 1) * r.nTargetSpacing =
      r.nInterval * r.nTargetSpacing + r.nTargetSpacing := by ring
  simp only [divisor, hadd, nTargetTimespan, nOneDay] at *
  omega

theorem Retarget.bnNew_nonneg (hlast : 0 ≤ r.bnLast) (hlimit : 0 ≤ r.bnTargetLimit)
    (hmul : 0 < r.multiplier) (hdiv : 0 < r.divisor) : 0 ≤ r.bnNew := by
  simp only [bnNew]
  split
  · exact hlimit
  · exact Int.tdiv_nonneg (Int.mul_nonneg hlast hmul.le) hdiv.le

theorem retarget_positive (hh : EachBlock heightFollows chain) (ht : EachBlock timeFollows chain)
    (h : retarget fTestNet chain fProofOfStake = some r) : 0 < r.multiplier ∧ 0 < r.divisor := by
  obtain ⟨newer, mid, prev, prevPrev, older, hr⟩ := retarget_cases h
  obtain ⟨hpos, hle⟩ := hr.targetSpacing_bounds hh
  have hdrift := time_ge_of_ancestor (hr.chain_eq ▸ ht)
  have hspacing := hr.spacing_eq
  exact ⟨Retarget.multiplier_pos hpos hle (by omega), Retarget.divisor_pos hpos⟩

theorem retarget_nonneg (hh : EachBlock heightFollows chain) (ht : EachBlock timeFollows chain)
    (h : retarget fTestNet chain fProofOfStake = some r) (hlast : 0 ≤ r.bnLast) : 0 ≤ r.bnNew := by
  obtain ⟨hmul, hdiv⟩ := retarget_positive hh ht h
  obtain ⟨_, _, _, _, _, hr⟩ := retarget_cases h
  refine Retarget.bnNew_nonneg hlast ?_ hmul hdiv
  rw [hr.limit_eq]
  exact (getTargetLimit_mem _ _ _).1

/-- In a chain whose targets were checked, a retarget starts from the compact form of a number that
is not negative. -/
theorem retarget_last_nonneg (hh : EachBlock heightFollows chain) (ht : EachBlock timeFollows chain)
    (hb : EachBlock (targetFollows fTestNet) chain) :
    ∀ {fProofOfStake : Bool} {r : Retarget}, retarget fTestNet chain fProofOfStake = some r →
      0 ≤ r.bnLast := by
  induction hn : chain.length using Nat.strong_induction_on generalizing chain with
  | _ n ih =>
    intro fProofOfStake r h
    obtain ⟨newer, mid, prev, prevPrev, older, hr⟩ := retarget_cases h
    rw [hr.chain_eq] at hh ht hb
    have hnext := hb.of_append.head (by simp)
    rw [hr.bnLast_eq, hnext, getNextTargetRequired]
    split
    · next r' hr' =>
      have hlt : (mid ++ prevPrev :: older).length < n := by
        rw [← hn, hr.chain_eq]
        simp only [length_append, length_cons]
        omega
      refine setCompact_getCompact_nonneg ?_
      refine retarget_nonneg hh.of_append.of_cons ht.of_append.of_cons hr' ?_
      exact ih _ hlt hh.of_append.of_cons ht.of_append.of_cons hb.of_append.of_cons rfl hr'
    · exact setCompact_getCompact_nonneg (getTargetLimit_mem _ _ _).1

/-- Times drift by at most ten hours, so no retarget divides by zero, multiplies by something not
positive, or turns a target negative. -/
theorem drift_bound_and_positive_retarget (fTestNet : Bool) (chain : PIndex)
    (hh : EachBlock heightFollows chain) (ht : EachBlock timeFollows chain) :
    (∀ newer d mid a older, chain = newer ++ d :: (mid ++ a :: older) →
      a.getBlockTime - 10 * nOneHour ≤ d.getBlockTime) ∧
    (∀ fProofOfStake r, retarget fTestNet chain fProofOfStake = some r →
      0 < r.multiplier ∧ r.divisor ≠ 0 ∧ (0 ≤ r.bnLast → 0 ≤ r.bnNew) ∧
      (EachBlock (targetFollows fTestNet) chain → 0 ≤ r.bnNew)) := by
  refine ⟨fun newer d mid a older hc => time_ge_of_ancestor (hc ▸ ht), fun fProofOfStake r h => ?_⟩
  obtain ⟨hmul, hdiv⟩ := retarget_positive hh ht h
  refine ⟨hmul, hdiv.ne', fun hlast => retarget_nonneg hh ht h hlast, fun hb => ?_⟩
  exact retarget_nonneg hh ht h (retarget_last_nonneg hh ht hb h)

def backwardChain : PIndex :=
  let block (nHeight : Int) (nTime : UInt32) : CBlockIndex :=
    { hashBlock := 0, nFile := 1, nBlockPos := 0, nChainTrust := 0, nHeight, nMint := 0,
      nMoneySupply := 0, fProofOfStake := false, nTime, nBits := 0x1e0fffff }
  [block 4 1500007200, block 3 1500010800, block 2 1500003600, block 1 1500000600,
    block 0 1500000000]

/-- A time before its predecessor's: the spacing is negative, the new target is not. -/
theorem backwardChain_retarget :
    EachBlock heightFollows backwardChain ∧ EachBlock timeFollows backwardChain ∧
    ∃ r, retarget false backwardChain false = some r ∧ r.nActualSpacing = -3600 ∧
      0 < r.multiplier ∧ r.divisor ≠ 0 ∧ 0 ≤ r.bnNew := by
  have hh : EachBlock heightFollows backwardChain := by decide
  have ht : EachBlock timeFollows backwardChain := by decide +kernel
  have h := (drift_bound_and_positive_retarget false backwardChain hh ht).2 false _ rfl
  exact ⟨hh, ht, _, rfl, by decide, h.1, h.2.1, h.2.2.1 (by decide)⟩

/-- The median does not go back with the times. -/
theorem backwardChain_median :
    getMedianTimePast (backwardChain.drop 2) ≤ getMedianTimePast backwardChain :=
  (getMedianTimePast_mono (backwardChain.take 2) _ (by decide) (by decide +kernel)).1

end NovaCoin
