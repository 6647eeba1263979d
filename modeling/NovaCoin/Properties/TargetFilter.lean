import NovaCoin.CheckBlock
import NovaCoin.Infra.Growth
import NovaCoin.Properties.Timestamps

/-!
# The target filter

`ComputeMaxBits` takes twice the target of the last block of a type, doubled once more for every
day begun since the checkpoint, to be the largest one that can be required. The retarget has no
such bound: it follows the spacing of the last two blocks of the type, however far apart they are.
So the filter lets every block pass as long as the last but one block of the type at the checkpoint
is not too far back; and where one retarget is all there is after the checkpoint, what it gives is
what decides (`checkTarget_of_filterCovers`).
-/

namespace NovaCoin

open Guard Growth List

/-! ## The growth of a retarget -/

namespace Retarget

variable {r : Retarget}

theorem divisor_bounds (hpos : 300 ≤ r.nTargetSpacing) :
    nTargetTimespan ≤ r.divisor ∧ r.divisor ≤ nTargetTimespan + r.nTargetSpacing := by
  have hlow := r.interval_mul_gt hpos
  have hdiv := Int.mul_tdiv_add_tmod nTargetTimespan r.nTargetSpacing
  have hmod := Int.tmod_nonneg r.nTargetSpacing (show 0 ≤ nTargetTimespan by decide)
  have hadd : r.divisor = r.nInterval * r.nTargetSpacing + r.nTargetSpacing := by
    rw [divisor]
    ring
  rw [Int.mul_comm] at hdiv
  change r.nInterval * _ + _ = _ at hdiv
  omega

theorem multiplier_eq : r.multiplier = r.divisor - 2 * r.nTargetSpacing + 2 * r.nActualSpacing := by
  rw [multiplier, divisor]
  ring

/-- One retarget grows the target at most with the time between the two blocks. -/
theorem grows_bnNew (hpos : 300 ≤ r.nTargetSpacing) (hle : r.nTargetSpacing ≤ 7200)
    (hactual : -(10 * nOneHour) ≤ r.nActualSpacing) (hlast : 0 ≤ r.bnLast) (t : Int) :
    Grows (2 / nTargetTimespan) (r.bnLast, t) (r.bnNew, t + r.nActualSpacing) := by
  obtain ⟨hlow, hhigh⟩ := divisor_bounds hpos
  have hmul := multiplier_pos hpos hle hactual
  have hdiv := divisor_pos hpos
  have hdivR : (0 : ℝ) < r.divisor := by exact_mod_cast hdiv
  have hnew : (r.bnNew : ℝ) ≤
      r.bnLast * ((r.divisor - 2 * r.nTargetSpacing + 2 * r.nActualSpacing) / r.divisor) := by
    have hfloor : r.bnNew ≤ r.bnLast * r.multiplier / r.divisor := by
      rw [← Int.tdiv_eq_ediv_of_nonneg (Int.mul_nonneg hlast hmul.le), bnNew]
      split <;> omega
    have hprod : r.bnNew * r.divisor ≤ r.bnLast * r.multiplier :=
      (Int.mul_le_mul_of_nonneg_right hfloor hdiv.le).trans (Int.ediv_mul_le _ hdiv.ne')
    rw [multiplier_eq] at hprod
    rw [← mul_div_assoc, le_div_iff₀ hdivR]
    exact_mod_cast hprod
  have hstep := grows_movingAverage (T := nTargetTimespan) (d := r.divisor) (s := r.nTargetSpacing)
    (a := r.nActualSpacing) (x := r.bnLast) (by norm_num [nTargetTimespan, nOneDay])
    (by exact_mod_cast hlow) (by exact_mod_cast hhigh) ?_ (by exact_mod_cast hlast) t
  · exact hnew.trans hstep
  · have : -nTargetTimespan ≤ r.nActualSpacing := by
      simp only [nTargetTimespan, nOneDay, nOneHour] at *
      omega
    exact_mod_cast this

end Retarget

/-! ## The growth along a chain -/

/-- The last two blocks of a type, if neither is the root. -/
def lastTwo (fProofOfStake : Bool) (chain : PIndex) : Option (CBlockIndex × CBlockIndex) :=
  match getLastBlockIndex fProofOfStake chain with
  | [] => none
  | prev :: pprev =>
    match getLastBlockIndex fProofOfStake pprev with
    | prevPrev :: _ :: _ => some (prev, prevPrev)
    | _ => none

section Growth

variable {fTestNet fProofOfStake : Bool} {chain : PIndex} {prev prevPrev : CBlockIndex}

theorem lastTwo_eq_some (h : lastTwo fProofOfStake chain = some (prev, prevPrev)) :
    ∃ pprev older, getLastBlockIndex fProofOfStake chain = prev :: pprev ∧
      getLastBlockIndex fProofOfStake pprev = prevPrev :: older ∧ pprev ≠ [] ∧ older ≠ [] := by
  unfold lastTwo at h
  split at h
  · cases h
  next prev pprev hprev =>
  split at h
  · next prevPrev p older hpp =>
    cases h
    refine ⟨pprev, p :: older, hprev, hpp, ?_, cons_ne_nil _ _⟩
    rintro rfl
    cases hpp
  · cases h

variable {b : CBlockIndex} {checkpoint : PIndex}

theorem lastTwo_cons_of_ne (hchain : chain ≠ []) (hb : b.isProofOfStake ≠ fProofOfStake) :
    lastTwo fProofOfStake (b :: chain) = lastTwo fProofOfStake chain := by
  cases chain with
  | nil => exact absurd rfl hchain
  | cons p rest => rw [lastTwo, getLastBlockIndex, if_pos (bne_iff_ne.mpr hb), ← lastTwo]

theorem lastTwo_cons_of_eq (hb : b.isProofOfStake = fProofOfStake)
    (h : lastTwo fProofOfStake chain = some (prev, prevPrev)) :
    lastTwo fProofOfStake (b :: chain) = some (b, prev) := by
  obtain ⟨pprev, older, hprev, -, hne, -⟩ := lastTwo_eq_some h
  obtain ⟨p, rest, rfl⟩ := exists_cons_of_ne_nil hne
  cases chain with
  | nil => cases hprev
  | cons q chain =>
    rw [lastTwo, getLastBlockIndex, if_neg (by simp [hb])]
    dsimp only
    rw [hprev]

theorem lastTwo_append_of_ne (hcheckpoint : checkpoint ≠ []) :
    ∀ newer : PIndex, (∀ i ∈ newer, i.isProofOfStake ≠ fProofOfStake) →
      lastTwo fProofOfStake (newer ++ checkpoint) = lastTwo fProofOfStake checkpoint
  | [], _ => rfl
  | b :: newer, h => by
    rw [forall_mem_cons] at h
    rw [cons_append, lastTwo_cons_of_ne (append_ne_nil_of_right_ne_nil newer hcheckpoint) h.1]
    exact lastTwo_append_of_ne hcheckpoint newer h.2

/-- The retarget is computed from the last two blocks of its type. -/
theorem retarget_of_lastTwo (fTestNet : Bool) (h : lastTwo fProofOfStake chain = some (prev, prevPrev)) :
    ∃ r, retarget fTestNet chain fProofOfStake = some r ∧ r.bnLast = setCompact prev.nBits ∧
      r.nActualSpacing = prev.getBlockTime - prevPrev.getBlockTime := by
  obtain ⟨pprev, older, hprev, hpp, hne, holder⟩ := lastTwo_eq_some h
  obtain ⟨p, older, rfl⟩ := exists_cons_of_ne_nil holder
  have hempty : pprev.isEmpty = false := isEmpty_eq_false_iff.mpr hne
  cases chain with
  | nil => cases hprev
  | cons last rest =>
    unfold retarget
    simp only [hprev, hempty, hpp]
    exact ⟨_, rfl, rfl, rfl⟩

theorem getTargetLimit_lt (fTestNet : Bool) (pindexLast : PIndex) (fProofOfStake : Bool) :
    getTargetLimit fTestNet pindexLast fProofOfStake < 2 ^ 256 :=
  (getTargetLimit_mem _ _ _).2.trans_lt (by norm_num)

/-- The rules of `AcceptBlock` on heights, times and targets. -/
structure FollowsRules (fTestNet : Bool) (chain : PIndex) : Prop where
  heights : EachBlock heightFollows chain
  times : EachBlock timeFollows chain
  targets : EachBlock (targetFollows fTestNet) chain

theorem FollowsRules.of_cons (h : FollowsRules fTestNet (b :: chain)) :
    FollowsRules fTestNet chain :=
  ⟨h.heights.of_cons, h.times.of_cons, h.targets.of_cons⟩

theorem FollowsRules.of_append {newer : PIndex} (h : FollowsRules fTestNet (newer ++ chain)) :
    FollowsRules fTestNet chain :=
  ⟨h.heights.of_append, h.times.of_append, h.targets.of_append⟩

theorem Retarget.bnNew_le (r : Retarget) : r.bnNew ≤ r.bnTargetLimit := by
  rw [bnNew]
  split <;> omega

/-- What is required is the compact form of a target up to the limit. -/
theorem FollowsRules.getNextTargetRequired_eq (h : FollowsRules fTestNet chain) (fProofOfStake : Bool) :
    ∃ bn, 0 ≤ bn ∧ bn ≤ getTargetLimit fTestNet chain fProofOfStake ∧
      getNextTargetRequired fTestNet chain fProofOfStake = getCompact bn := by
  rw [getNextTargetRequired]
  split
  · next r hr =>
    obtain ⟨_, _, _, _, _, hof⟩ := retarget_cases hr
    refine ⟨r.bnNew, ?_, hof.limit_eq ▸ r.bnNew_le, rfl⟩
    exact retarget_nonneg h.heights h.times hr (retarget_last_nonneg h.heights h.times h.targets hr)
  · exact ⟨_, (getTargetLimit_mem _ _ _).1, le_rfl, rfl⟩

theorem FollowsRules.setCompact_nonneg (h : FollowsRules fTestNet (b :: chain))
    (hchain : chain ≠ []) : 0 ≤ setCompact b.nBits := by
  obtain ⟨bn, hbn, -, heq⟩ := h.of_cons.getNextTargetRequired_eq b.isProofOfStake
  rw [h.targets.head hchain, heq]
  exact setCompact_getCompact_nonneg hbn

theorem FollowsRules.grows_bnNew (h : FollowsRules fTestNet chain)
    (hlast : lastTwo fProofOfStake chain = some (prev, prevPrev)) :
    ∃ bn, 0 ≤ bn ∧ bn ≤ getTargetLimit fTestNet chain fProofOfStake ∧
      getNextTargetRequired fTestNet chain fProofOfStake = getCompact bn ∧
      Grows (2 / nTargetTimespan) (setCompact prev.nBits, prevPrev.getBlockTime)
        (bn, prev.getBlockTime) := by
  obtain ⟨r, hr, hbits, hspacing⟩ := retarget_of_lastTwo fTestNet hlast
  obtain ⟨_, _, _, _, _, hof⟩ := retarget_cases hr
  have hnonneg := retarget_last_nonneg h.heights h.times h.targets hr
  refine ⟨r.bnNew, retarget_nonneg h.heights h.times hr hnonneg, hof.limit_eq ▸ r.bnNew_le,
    by rw [getNextTargetRequired, hr], ?_⟩
  obtain ⟨hpos, hle⟩ := hof.targetSpacing_bounds h.heights
  have hdrift := time_ge_of_ancestor (hof.chain_eq ▸ h.times)
  have hactual := hof.spacing_eq
  have hgrows := Retarget.grows_bnNew hpos hle (by omega) hnonneg prevPrev.getBlockTime
  rw [hbits, hspacing, Int.cast_sub, add_sub_cancel] at hgrows
  exact hgrows

/-- After the checkpoint, the target of a type has grown at most with the time up to the last block
but one. -/
theorem FollowsRules.grows_bits {prev₀ prevPrev₀ : CBlockIndex}
    (hlast₀ : lastTwo fProofOfStake checkpoint = some (prev₀, prevPrev₀)) :
    ∀ newer : PIndex, FollowsRules fTestNet (newer ++ checkpoint) →
      ∃ prev prevPrev, lastTwo fProofOfStake (newer ++ checkpoint) = some (prev, prevPrev) ∧
        Grows (2 / nTargetTimespan) (setCompact prev₀.nBits, prevPrev₀.getBlockTime)
          (setCompact prev.nBits, prevPrev.getBlockTime)
  | [], _ => ⟨prev₀, prevPrev₀, hlast₀, Grows.of_le le_rfl⟩
  | b :: newer, h => by
    have hrest : FollowsRules fTestNet (newer ++ checkpoint) := h.of_cons
    obtain ⟨prev, prevPrev, hlast, hgrows⟩ := FollowsRules.grows_bits hlast₀ newer hrest
    have hne : newer ++ checkpoint ≠ [] := by
      intro he
      rw [he] at hlast
      cases hlast
    by_cases hb : b.isProofOfStake = fProofOfStake
    · obtain ⟨bn, hbn, hle, heq, hstep⟩ := hrest.grows_bnNew hlast
      have hlt := hle.trans_lt (getTargetLimit_lt _ _ _)
      refine ⟨b, prev, lastTwo_cons_of_eq hb hlast, (hgrows.trans hstep).trans (Grows.of_le ?_)⟩
      rw [h.targets.head hne, hb, heq]
      show (setCompact (getCompact bn) : ℝ) ≤ bn
      exact_mod_cast (setCompact_getCompact_le hbn (hlt.trans (by norm_num))).1
    · exact ⟨prev, prevPrev, (lastTwo_cons_of_ne hne hb).trans hlast, hgrows⟩

end Growth

/-! ## The filter -/

def filterLimit (fTestNet : Bool) (b : CBlock) : Int :=
  if b.isProofOfStake then getProofOfStakeLimit fTestNet 0 b.nTime else bnProofOfWorkLimit fTestNet

/-- The target of the last block of a type at or before the checkpoint. -/
def checkpointTarget (fProofOfStake : Bool) (pcheckpoint : CBlockIndex) (pprev : PIndex) : Int :=
  setCompact ((getLastBlockIndex fProofOfStake (pcheckpoint :: pprev)).head?.getD pcheckpoint).nBits

/-- `nTargetTimespan * log 2 / 2`, rounded down: the time in which a target at most doubles. -/
def nDoublingTime : Int := 209607

/-- The cases in which the filter is wide enough for a block after the checkpoint. -/
structure FilterCovers (fTestNet : Bool) (newer : PIndex) (pcheckpoint : CBlockIndex) (pprev : PIndex)
    (b : CBlock) : Prop where
  /-- the limit has not been lowered between the parent and the block -/
  limit : getTargetLimit fTestNet (newer ++ pcheckpoint :: pprev) b.isProofOfStake ≤ filterLimit fTestNet b
  /-- the days since the checkpoint are enough for the limit, or for the time since the last but
  one block of the type at the checkpoint -/
  days : getTargetLimit fTestNet (newer ++ pcheckpoint :: pprev) b.isProofOfStake ≤
      checkpointTarget b.isProofOfStake pcheckpoint pprev *
        2 ^ (1 + daysBegun (b.getBlockTime - pcheckpoint.getBlockTime)) ∨
    ∃ prev₀ prevPrev₀ prev prevPrev,
      lastTwo b.isProofOfStake (pcheckpoint :: pprev) = some (prev₀, prevPrev₀) ∧
      lastTwo b.isProofOfStake (newer ++ pcheckpoint :: pprev) = some (prev, prevPrev) ∧
      prev.getBlockTime - prevPrev₀.getBlockTime ≤
        nDoublingTime * (1 + daysBegun (b.getBlockTime - pcheckpoint.getBlockTime))

theorem bnRequired_eq {fTestNet : Bool} {pcheckpoint : CBlockIndex} {pprev : PIndex} {b : CBlock}
    (hbase : 0 ≤ checkpointTarget b.isProofOfStake pcheckpoint pprev) :
    bnRequired fTestNet pcheckpoint pprev b = setCompact (getCompact
      (min (checkpointTarget b.isProofOfStake pcheckpoint pprev *
        2 ^ (1 + daysBegun (b.getBlockTime - pcheckpoint.getBlockTime))) (filterLimit fTestNet b))) := by
  rw [bnRequired, filterLimit]
  split
  · rw [computeMinStake, computeMaxBits_eq hbase]
    rfl
  · rw [computeMinWork, computeMaxBits_eq hbase]
    rfl

theorem filterLimit_bounds (fTestNet : Bool) (b : CBlock) :
    0 ≤ filterLimit fTestNet b ∧ filterLimit fTestNet b < 2 ^ 256 := by
  rw [filterLimit]
  split
  · have hchain : getProofOfStakeLimit fTestNet 0 b.nTime =
        getTargetLimit fTestNet [⟨0, 0, 0, 0, 0, 0, 0, false, b.nTime, 0⟩] true := rfl
    rw [hchain]
    exact ⟨(getTargetLimit_mem _ _ _).1, getTargetLimit_lt _ _ _⟩
  · exact ⟨(getTargetLimit_mem fTestNet [] false).1, getTargetLimit_lt fTestNet [] false⟩

variable {n : Nat}

/-- In the doubling time a target at most doubles. -/
theorem le_two_pow_of_grows {x y s t : Int}
    (h : Grows (2 / nTargetTimespan) ((x : ℝ), (s : ℝ)) (y, t)) (hx : 0 ≤ x)
    (htime : t - s ≤ nDoublingTime * n) : y ≤ x * 2 ^ n := by
  have hspan : (2 / nTargetTimespan : ℝ) * (t - s) ≤ n * Real.log 2 := by
    have hlog := Real.log_two_gt_d9
    have ht : (t - s : ℝ) ≤ 209607 * n := by exact_mod_cast htime
    have hweek : (nTargetTimespan : ℝ) = 604800 := by norm_num [nTargetTimespan, nOneDay]
    rw [hweek]
    nlinarith
  have hpow : (y : ℝ) ≤ x * 2 ^ n := h.le_two_pow (Int.cast_nonneg hx) hspan
  exact_mod_cast hpow

section Filter

variable {fTestNet : Bool} {newer pprev : PIndex} {pcheckpoint : CBlockIndex} {b : CBlock}

variable {prev prevPrev : CBlockIndex} {hashBestChain : Uint256} {fProofOfStake : Bool}

theorem checkpointTarget_of_lastTwo
    (hlast : lastTwo fProofOfStake (pcheckpoint :: pprev) = some (prev, prevPrev)) :
    checkpointTarget fProofOfStake pcheckpoint pprev = setCompact prev.nBits := by
  obtain ⟨_, _, hprev, -⟩ := lastTwo_eq_some hlast
  rw [checkpointTarget, hprev]
  rfl

theorem FollowsRules.checkpointTarget_nonneg (h : FollowsRules fTestNet (pcheckpoint :: pprev))
    (hlast : lastTwo fProofOfStake (pcheckpoint :: pprev) = some (prev, prevPrev)) :
    0 ≤ checkpointTarget fProofOfStake pcheckpoint pprev := by
  rw [checkpointTarget_of_lastTwo hlast]
  obtain ⟨rest, older, hprev, -, hne, -⟩ := lastTwo_eq_some hlast
  obtain ⟨above, hsuffix⟩ := getLastBlockIndex_suffix fProofOfStake (pcheckpoint :: pprev)
  rw [hprev] at hsuffix
  rw [hsuffix] at h
  exact h.of_append.setCompact_nonneg hne

/-- The filter is not reached by a child of the best block and by a block that a pending checkpoint
waits for. -/
theorem checkTarget_eq_ok_iff {fWanted : Bool} :
    checkTarget fTestNet (pcheckpoint :: pprev) hashBestChain fWanted b = .ok () ↔
      (b.hashPrevBlock = hashBestChain ∨ fWanted) ∨
        setCompact b.nBits ≤ bnRequired fTestNet pcheckpoint pprev b := by
  rw [checkTarget]
  split
  · next hreached =>
    have hnot : ¬(b.hashPrevBlock = hashBestChain ∨ fWanted) := by simpa using hreached
    rw [require_eq_ok, decide_eq_true_eq, or_iff_right hnot]
  · next hskipped =>
    have hor : b.hashPrevBlock = hashBestChain ∨ fWanted := by
      simpa [or_iff_not_imp_left] using hskipped
    exact ⟨fun _ => .inl hor, fun _ => rfl⟩

theorem setCompact_le_bnRequired {bn : Int}
    (hbits : b.nBits = getCompact bn) (hnonneg : 0 ≤ bn)
    (hbase : 0 ≤ checkpointTarget b.isProofOfStake pcheckpoint pprev)
    (hdays : bn ≤ checkpointTarget b.isProofOfStake pcheckpoint pprev *
      2 ^ (1 + daysBegun (b.getBlockTime - pcheckpoint.getBlockTime)))
    (hlimit : bn ≤ filterLimit fTestNet b) :
    setCompact b.nBits ≤ bnRequired fTestNet pcheckpoint pprev b := by
  rw [hbits, bnRequired_eq hbase]
  exact setCompact_getCompact_mono hnonneg (le_min hdays hlimit)
    (((min_le_right _ _).trans_lt (filterLimit_bounds fTestNet b).2).trans (by norm_num))

/-- Elapsed time bounds the growth of the target, and the filter allows as much. -/
theorem FollowsRules.le_bnRequired (h : FollowsRules fTestNet (newer ++ pcheckpoint :: pprev))
    (hbits : b.nBits =
      getNextTargetRequired fTestNet (newer ++ pcheckpoint :: pprev) b.isProofOfStake)
    (hcovers : FilterCovers fTestNet newer pcheckpoint pprev b) :
    setCompact b.nBits ≤ bnRequired fTestNet pcheckpoint pprev b := by
  rcases hcovers.days with hlimit | ⟨prev₀, prevPrev₀, prev, prevPrev, hlast₀, hlast, htime⟩
  · obtain ⟨bn, hnonneg, hle, heq⟩ := h.getNextTargetRequired_eq b.isProofOfStake
    have hbase : 0 ≤ checkpointTarget b.isProofOfStake pcheckpoint pprev := by
      refine nonneg_of_mul_nonneg_left ((getTargetLimit_mem _ _ _).1.trans hlimit) ?_
      positivity
    exact setCompact_le_bnRequired (hbits.trans heq) hnonneg hbase (hle.trans hlimit)
      (hle.trans hcovers.limit)
  · obtain ⟨prev', prevPrev', hlast', hgrows⟩ := FollowsRules.grows_bits hlast₀ newer h
    obtain ⟨rfl, rfl⟩ := Prod.mk.inj (Option.some.inj (hlast'.symm.trans hlast))
    obtain ⟨bn, hnonneg, hle, heq, hstep⟩ := h.grows_bnNew hlast
    have hbase := h.of_append.checkpointTarget_nonneg hlast₀
    refine setCompact_le_bnRequired (hbits.trans heq) hnonneg hbase ?_ (hle.trans hcovers.limit)
    rw [checkpointTarget_of_lastTwo hlast₀] at hbase ⊢
    exact le_two_pow_of_grows (hgrows.trans hstep) hbase (by exact_mod_cast htime)

/-- A block whose target is what its parent requires passes if the filter is not reached, or if the
limit was not lowered and the days since the checkpoint cover the limit or the time since the last
block but one of its type there. If no block of the type came after the checkpoint, there is one
retarget, from the last two blocks of the type at the checkpoint, and the block passes exactly if the
filter is not reached or allows what this retarget gives. -/
theorem checkTarget_of_filterCovers (fTestNet : Bool) (newer : PIndex) (pcheckpoint : CBlockIndex)
    (pprev : PIndex) (b : CBlock) (hashBestChain : Uint256) (fWanted : Bool)
    (h : FollowsRules fTestNet (newer ++ pcheckpoint :: pprev))
    (hbits : b.nBits =
      getNextTargetRequired fTestNet (newer ++ pcheckpoint :: pprev) b.isProofOfStake) :
    ((b.hashPrevBlock = hashBestChain ∨ fWanted) ∨ FilterCovers fTestNet newer pcheckpoint pprev b →
      checkTarget fTestNet (pcheckpoint :: pprev) hashBestChain fWanted b = .ok ()) ∧
    ((∀ i ∈ newer, i.isProofOfStake ≠ b.isProofOfStake) → ∀ prev prevPrev,
      lastTwo b.isProofOfStake (pcheckpoint :: pprev) = some (prev, prevPrev) →
      ∃ r, retarget fTestNet (newer ++ pcheckpoint :: pprev) b.isProofOfStake = some r ∧
        r.bnLast = setCompact prev.nBits ∧
        r.nActualSpacing = prev.getBlockTime - prevPrev.getBlockTime ∧
        (checkTarget fTestNet (pcheckpoint :: pprev) hashBestChain fWanted b = .ok () ↔
          (b.hashPrevBlock = hashBestChain ∨ fWanted) ∨
            setCompact (getCompact r.bnNew) ≤ setCompact (getCompact
              (min (setCompact prev.nBits *
                2 ^ (1 + daysBegun (b.getBlockTime - pcheckpoint.getBlockTime)))
                (filterLimit fTestNet b))))) := by
  refine ⟨fun hpass => checkTarget_eq_ok_iff.mpr (hpass.imp_right (h.le_bnRequired hbits)), ?_⟩
  intro hnone prev prevPrev hlast₀
  have hlast := (lastTwo_append_of_ne (cons_ne_nil _ _) newer hnone).trans hlast₀
  obtain ⟨r, hr, hbnLast, hspacing⟩ := retarget_of_lastTwo fTestNet hlast
  refine ⟨r, hr, hbnLast, hspacing, ?_⟩
  have hbase := h.of_append.checkpointTarget_nonneg hlast₀
  rw [checkTarget_eq_ok_iff, bnRequired_eq hbase, checkpointTarget_of_lastTwo hlast₀, hbits,
    getNextTargetRequired, hr]

def steadyBlock (k : Nat) : CBlockIndex :=
  { hashBlock := .ofNat 256 k, nFile := 1, nBlockPos := 0, nChainTrust := 0, nHeight := k, nMint := 0,
    nMoneySupply := 0, fProofOfStake := false, nTime := .ofNat (1400000000 + 600 * k),
    nBits := 0x1e0fffff }

def steadyChild : CBlock :=
  { nVersion := 6, hashPrevBlock := (steadyBlock 4).hashBlock, hashMerkleRoot := 0,
    nTime := .ofNat (1400000000 + 600 * 5), nBits := 0x1e0fffff, nNonce := 0, vtx := [], vchBlockSig := [] }

/-- While the best chain is another one: the block after the checkpoint's child, and the same block as
the child of a later checkpoint. -/
theorem steadyChild_passes : FollowsRules false ([4, 3, 2, 1, 0].map steadyBlock) ∧
    checkTarget false ([3, 2, 1, 0].map steadyBlock) 0 false steadyChild = .ok () ∧
    checkTarget false ([4, 3, 2, 1, 0].map steadyBlock) 0 false steadyChild = .ok () := by
  have h : FollowsRules false ([4, 3, 2, 1, 0].map steadyBlock) :=
    ⟨by decide +kernel, by decide +kernel, by decide +kernel⟩
  refine ⟨h, (checkTarget_of_filterCovers false [steadyBlock 4] (steadyBlock 3)
    ([2, 1, 0].map steadyBlock) steadyChild 0 false h (by decide +kernel)).1
    (.inr ⟨le_rfl, .inr ?_⟩), ?_⟩
  · exact ⟨steadyBlock 3, steadyBlock 2, steadyBlock 4, steadyBlock 3, rfl, rfl, by decide⟩
  · obtain ⟨r, hr, -, -, hiff⟩ := (checkTarget_of_filterCovers false [] (steadyBlock 4)
      ([3, 2, 1, 0].map steadyBlock) steadyChild 0 false h (by decide +kernel)).2 nofun
      (steadyBlock 4) (steadyBlock 3) rfl
    have hsteady : retarget false ([4, 3, 2, 1, 0].map steadyBlock) false =
        some ⟨bnProofOfWorkLimit false, setCompact 0x1e0fffff, 600, 600⟩ := rfl
    obtain rfl := Option.some.inj (hsteady.symm.trans hr)
    exact hiff.mpr (.inr (by decide +kernel))

/-- The first proof-of-stake block after the limit was lowered, on a parent before that time. -/
def switchingBlock : CBlock :=
  { steadyChild with
    nTime := TARGETS_SWITCH_TIME + 1
    nBits := getNextTargetRequired false [{ steadyBlock 0 with nTime := TARGETS_SWITCH_TIME }] true
    vtx := [⟨1, 0, [], [], 0⟩, ⟨1, 0, [⟨⟨1, 0⟩, [], 0⟩], [⟨0, []⟩, ⟨1, []⟩], 0⟩] }

-- the parent still requires the higher limit, which the filter does not know any more
example : checkTarget false [{ steadyBlock 0 with nTime := TARGETS_SWITCH_TIME }] 1 false switchingBlock =
    .error ⟨100, "ProcessBlock() : block with too little proof-of-stake"⟩ := by decide +kernel

/-! ## A gap before the checkpoint -/

/-- A spacing that is long against the time span multiplies the target by its powers of two. -/
theorem Retarget.mul_le_bnNew {r : Retarget} (hpos : 300 ≤ r.nTargetSpacing)
    (hle : r.nTargetSpacing ≤ 7200) (hgap : 2 ^ n * 612000 ≤ r.nActualSpacing) (hlast : 0 ≤ r.bnLast)
    (hroom : r.bnLast * 2 ^ (n + 1) ≤ r.bnTargetLimit) : r.bnLast * 2 ^ (n + 1) ≤ r.bnNew := by
  have hdiv := divisor_pos hpos
  have hpow : (0 : Int) < 2 ^ n := by positivity
  have hmul : 2 ^ (n + 1) * r.divisor ≤ r.multiplier := by
    have hbound : 2 ^ n * r.divisor ≤ 2 ^ n * 612000 := by
      refine Int.mul_le_mul_of_nonneg_left ?_ hpow.le
      have := (divisor_bounds hpos).2
      simp only [nTargetTimespan, nOneDay] at this
      omega
    have hinterval := r.interval_mul_gt hpos
    have hsub : (r.nInterval - 1) * r.nTargetSpacing =
        r.nInterval * r.nTargetSpacing - r.nTargetSpacing := by ring
    simp only [multiplier, hsub, nTargetTimespan, nOneDay, pow_succ'] at *
    rw [mul_assoc]
    omega
  have hquot : r.bnLast * 2 ^ (n + 1) ≤ (r.bnLast * r.multiplier).tdiv r.divisor := by
    have hmulpos : 0 ≤ r.multiplier := le_trans (by positivity) hmul
    rw [Int.tdiv_eq_ediv_of_nonneg (Int.mul_nonneg hlast hmulpos), Int.le_ediv_iff_mul_le hdiv, mul_assoc]
    exact Int.mul_le_mul_of_nonneg_left hmul hlast
  rw [bnNew]
  split <;> assumption

/-- The filter rejects what the retarget requires, where the last two blocks of the type at the
checkpoint are far apart and the target can rise. -/
theorem checkTarget_eq_error (h : FollowsRules fTestNet (newer ++ pcheckpoint :: pprev))
    (hbits : b.nBits = getNextTargetRequired fTestNet (newer ++ pcheckpoint :: pprev)
      b.isProofOfStake)
    (hlast₀ : lastTwo b.isProofOfStake (pcheckpoint :: pprev) = some (prev, prevPrev))
    (hlast : lastTwo b.isProofOfStake (newer ++ pcheckpoint :: pprev) = some (prev, prevPrev))
    (hdays : n = 1 + daysBegun (b.getBlockTime - pcheckpoint.getBlockTime))
    (hgap : 2 ^ n * 612000 ≤ prev.getBlockTime - prevPrev.getBlockTime)
    (hpos : 0 < setCompact prev.nBits)
    (hroom : setCompact prev.nBits * 2 ^ (n + 1) ≤ getTargetLimit fTestNet (newer ++ pcheckpoint ::
      pprev) b.isProofOfStake) (hbest : b.hashPrevBlock ≠ hashBestChain) :
    checkTarget fTestNet (pcheckpoint :: pprev) hashBestChain false b =
      .error ⟨100, "ProcessBlock() : block with too little " ++
        if b.isProofOfStake then "proof-of-stake" else "proof-of-work"⟩ := by
  obtain ⟨r, hr, hbnLast, hspacing⟩ := retarget_of_lastTwo fTestNet hlast
  obtain ⟨_, _, _, _, _, hof⟩ := retarget_cases hr
  obtain ⟨hlow, hhigh⟩ := hof.targetSpacing_bounds h.heights
  have hbase := checkpointTarget_of_lastTwo hlast₀
  have hnew : setCompact prev.nBits * 2 ^ (n + 1) ≤ r.bnNew := by
    rw [← hbnLast] at hpos hroom ⊢
    exact Retarget.mul_le_bnNew hlow hhigh (by rwa [hspacing]) hpos.le (by rwa [hof.limit_eq])
  have hlt : bnRequired fTestNet pcheckpoint pprev b < setCompact b.nBits := by
    have hhalf : 0 < setCompact prev.nBits * 2 ^ n := Int.mul_pos hpos (by positivity)
    obtain ⟨hlimit, hfilter⟩ := filterLimit_bounds fTestNet b
    have hnewlt := (hof.limit_eq ▸ r.bnNew_le).trans_lt (getTargetLimit_lt fTestNet _ b.isProofOfStake)
    rw [pow_succ, ← mul_assoc] at hnew
    have hcut := (setCompact_getCompact_le (by omega) (hnewlt.trans (by norm_num))).2
    rw [bnRequired_eq (by omega), hbits, getNextTargetRequired, hr, hbase, ← hdays]
    have hmin := (setCompact_getCompact_le (le_min hhalf.le hlimit)
      (((min_le_right _ _).trans_lt hfilter).trans (by norm_num))).1.trans (min_le_left _ _)
    dsimp only
    omega
  rw [checkTarget]
  simp only [bne_iff_ne.mpr hbest, Bool.not_false, Bool.and_self, if_true]
  rw [require]
  simpa using hlt

end Filter

/-! ### Quick blocks and a pause

On the main network in 2014, 1100 proof-of-work blocks a second apart lower the target to less than
an eighth of the limit. A month later there is one more block, the checkpoint. Its child needs a
target nine times as large, while the filter gives four. -/

def nQuick : Nat := 1100

def quickTime (k : Nat) : Nat := 1400000000 + k + if k ≤ nQuick then 0 else 30 * 24 * 60 * 60

variable {k : Nat}

def quickRetarget (nBits : UInt32) : Retarget := ⟨bnProofOfWorkLimit false, setCompact nBits, 1, 600⟩

def quickBits : Nat → UInt32
  | 0 => getCompact (bnProofOfWorkLimit false)
  | k + 1 => getCompact (quickRetarget (quickBits k)).bnNew

def quickBlock (k : Nat) : CBlockIndex :=
  { hashBlock := .ofNat 256 k, nFile := 1, nBlockPos := 0, nChainTrust := 0, nHeight := k, nMint := 0,
    nMoneySupply := 0, fProofOfStake := false, nTime := .ofNat (quickTime k), nBits := quickBits (k - 2) }

def quickChain : Nat → PIndex
  | 0 => [quickBlock 0]
  | k + 1 => quickBlock (k + 1) :: quickChain k

theorem exists_quickChain (k : Nat) : ∃ rest, quickChain k = quickBlock k :: rest := by
  cases k with
  | zero => exact ⟨[], rfl⟩
  | succ k => exact ⟨quickChain k, rfl⟩

def futureFollows (fTestNet : Bool) (b : CBlockIndex) (pindexPrev : PIndex) : Prop :=
  isTooFarInFuture fTestNet b.getBlockTime pindexPrev = false
  deriving Decidable

theorem follows_quickChain : ∀ k < nQuick + 1,
    heightFollows (quickBlock (k + 1)) (quickChain k) ∧
      timeFollows (quickBlock (k + 1)) (quickChain k) ∧
      futureFollows false (quickBlock (k + 1)) (quickChain k) := by
  decide +kernel

theorem spacing_quickBlock : ∀ k < nQuick,
    (quickBlock (k + 1)).getBlockTime - (quickBlock k).getBlockTime = 1 := by
  decide +kernel

theorem lastTwo_quickChain (k : Nat) :
    lastTwo false (quickChain (k + 2)) = some (quickBlock (k + 2), quickBlock (k + 1)) := by
  obtain ⟨rest, hrest⟩ := exists_quickChain k
  rw [quickChain, quickChain, hrest]
  rfl

theorem retarget_quickChain (hk : k + 2 ≤ nQuick) :
    retarget false (quickChain (k + 2)) false = some (quickRetarget (quickBits k)) := by
  obtain ⟨rest, hrest⟩ := exists_quickChain k
  have hspacing := spacing_quickBlock (k + 1) hk
  have htarget : min (getTargetSpacingWorkMax false (quickBlock (k + 2)).nTime)
      (nStakeTargetSpacing false * (1 + (quickBlock (k + 2)).nHeight - (quickBlock (k + 2)).nHeight)) = 600 := by
    have hmax : 1800 ≤ getTargetSpacingWorkMax false (quickBlock (k + 2)).nTime := by
      unfold getTargetSpacingWorkMax
      split_ifs <;> decide
    rw [add_sub_cancel_right]
    exact min_eq_right (le_trans (by decide) hmax)
  unfold retarget
  rw [quickChain, quickChain, hrest]
  have hpow : ∀ j, (quickBlock j).isProofOfStake = false := fun _ => rfl
  simp only [getLastBlockIndex, hpow, bne_self_eq_false, Bool.false_eq_true, if_false, hspacing, htarget,
    isEmpty_cons]
  rfl

theorem followsRules_quickChain : ∀ k ≤ nQuick + 1, FollowsRules false (quickChain k) ∧
    EachBlock (futureFollows false) (quickChain k)
  | 0, _ => ⟨⟨trivial, trivial, trivial⟩, trivial⟩
  | k + 1, hk => by
    obtain ⟨h, hfuture⟩ := followsRules_quickChain k (by omega)
    obtain ⟨hheight, htime, hlate⟩ := follows_quickChain k (by omega)
    have htarget : targetFollows false (quickBlock (k + 1)) (quickChain k) := by
      show quickBits (k + 1 - 2) = getNextTargetRequired false (quickChain k) false
      rw [getNextTargetRequired]
      rcases k with _ | _ | k
      · rfl
      · rfl
      · rw [retarget_quickChain (by omega)]
        rfl
    exact ⟨⟨.cons hheight h.heights, .cons htime h.times, .cons htarget h.targets⟩,
      .cons hlate hfuture⟩

def quickMantissa : Nat → Nat
  | 0 => 1048575
  | k + 1 => quickMantissa k * 604202 / 605400

theorem quickMantissa_bounds : ∀ k < nQuick, 2 ^ 15 ≤ quickMantissa k ∧ quickMantissa k ≤ 1048575 := by
  decide +kernel

theorem setCompact_quickBits : ∀ k < nQuick, setCompact (quickBits k) = quickMantissa k * 256 ^ 27
  | 0, _ => by decide +kernel
  | k + 1, hk => by
    have hlow := (quickMantissa_bounds (k + 1) hk).1
    have hhigh := (quickMantissa_bounds k (by omega)).2
    have hmul : (quickRetarget (quickBits k)).multiplier = 604202 := rfl
    have hdiv : (quickRetarget (quickBits k)).divisor = 605400 := rfl
    have hlimit : (quickRetarget (quickBits k)).bnTargetLimit = 2 ^ 236 - 1 := rfl
    obtain ⟨n, hn⟩ : ∃ n, n = quickMantissa k * 256 ^ 27 * 604202 / 605400 := ⟨_, rfl⟩
    have hnew : (quickRetarget (quickBits k)).bnNew = n := by
      rw [Retarget.bnNew, hmul, hdiv, hlimit, show (quickRetarget (quickBits k)).bnLast = _ from
        setCompact_quickBits k (by omega), Int.tdiv_eq_ediv_of_nonneg (by omega)]
      split <;> omega
    rw [quickMantissa] at hlow
    have hlen : (bn2mpi n).length = 30 := by
      refine Nat.le_antisymm (length_bn2mpi_le_iff.mpr ?_) (Nat.lt_of_not_le fun h => ?_)
      · omega
      · have := length_bn2mpi_le_iff.mp h
        omega
    rw [quickBits, hnew, quickMantissa, setCompact_getCompact_eq (by omega) (by omega), hlen]
    omega

theorem quickBits_checkpoint : 0 < setCompact (quickBits (nQuick - 1)) ∧
    setCompact (quickBits (nQuick - 1)) * 2 ^ 3 ≤ bnProofOfWorkLimit false := by
  rw [setCompact_quickBits _ (by decide)]
  decide +kernel

def sparseBlock : CBlock :=
  { nVersion := 6, hashPrevBlock := (quickBlock (nQuick + 1)).hashBlock, hashMerkleRoot := 0,
    nTime := .ofNat (quickTime (nQuick + 1) + 600),
    nBits := getNextTargetRequired false (quickChain (nQuick + 1)) false, nNonce := 0, vtx := [],
    vchBlockSig := [] }

def sparseTip : CBlockIndex :=
  { quickBlock (nQuick + 2) with nTime := sparseBlock.nTime, nBits := sparseBlock.nBits }

/-- All blocks are as `AcceptBlock` wants them and the block is a child of the checkpoint, on the
best chain, with the target required; but the filter rejects it. -/
theorem sparseBlock_rejected :
    FollowsRules false (sparseTip :: quickChain (nQuick + 1)) ∧
    EachBlock (futureFollows false) (sparseTip :: quickChain (nQuick + 1)) ∧
    isTooEarly sparseBlock.getBlockTime (quickChain (nQuick + 1)) = false ∧
    isTooFarInFuture false sparseBlock.getBlockTime (quickChain (nQuick + 1)) = false ∧
    sparseBlock.nBits =
      getNextTargetRequired false (quickChain (nQuick + 1)) sparseBlock.isProofOfStake ∧
    checkTarget false (quickChain (nQuick + 1)) sparseTip.hashBlock false sparseBlock =
      .error ⟨100, "ProcessBlock() : block with too little proof-of-work"⟩ := by
  obtain ⟨h, hfuture⟩ := followsRules_quickChain (nQuick + 1) le_rfl
  have htimes : isTooEarly sparseBlock.getBlockTime (quickChain (nQuick + 1)) = false ∧
      isTooFarInFuture false sparseBlock.getBlockTime (quickChain (nQuick + 1)) = false := by
    decide +kernel
  have htip : FollowsRules false (sparseTip :: quickChain (nQuick + 1)) :=
    ⟨.cons (by decide) h.heights, .cons htimes.1 h.times, .cons rfl h.targets⟩
  refine ⟨htip, .cons htimes.2 hfuture, htimes.1, htimes.2, rfl, ?_⟩
  obtain ⟨hpos, hroom⟩ := quickBits_checkpoint
  have hwork : sparseBlock.isProofOfStake = false := rfl
  have hlast := lastTwo_quickChain (nQuick - 1)
  rw [show nQuick - 1 + 1 = nQuick from rfl, ← hwork] at hlast
  rw [quickChain, ← nil_append (_ :: _)] at h hlast
  have hgap : 2 ^ 2 * 612000 ≤ (quickBlock (nQuick + 1)).getBlockTime - (quickBlock nQuick).getBlockTime := by
    decide
  have hdays : 2 = 1 + daysBegun (sparseBlock.getBlockTime - (quickBlock (nQuick + 1)).getBlockTime) := by
    decide
  refine checkTarget_eq_error h ?_ hlast hlast hdays hgap hpos ?_ ?_
  · rfl
  · exact hroom
  · decide

end NovaCoin
