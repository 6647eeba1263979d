import NovaCoin.CreateTransaction

/-!
# What coin selection returns

If no eligible value is negative or the largest number, and the total does not overflow,
`SelectCoinsMinConf` finds coins exactly if the eligible outputs are enough, and what it returns is
what it says.
-/

namespace NovaCoin

open Guard List

/-! ## Totals -/

def CoinRef.amount (coin : CoinRef) : Int := coin.nValue.toInt

/-- The total without overflow. -/
def amountOf (coins : List CoinRef) : Int := (coins.map CoinRef.amount).sum

@[simp] theorem amountOf_nil : amountOf [] = 0 := rfl

@[simp] theorem amountOf_cons (coin : CoinRef) (coins : List CoinRef) :
    amountOf (coin :: coins) = coin.amount + amountOf coins := rfl

@[simp] theorem amountOf_append (coins coins' : List CoinRef) :
    amountOf (coins ++ coins') = amountOf coins + amountOf coins' := by
  simp [amountOf]

variable {coins coins' : List CoinRef} {nTargetValue nTotalLower : Int64} {coin : CoinRef}
  {bit : Nat → Nat → Bool} {nSpendTime : UInt32}

theorem amountOf_perm (h : coins.Perm coins') : amountOf coins = amountOf coins' :=
  (h.map CoinRef.amount).sum_eq

theorem toInt_add_eq {a b : Int64} (hlow : 0 ≤ a.toInt + b.toInt) (hhigh : a.toInt + b.toInt < 2 ^ 63) :
    (a + b).toInt = a.toInt + b.toInt := by
  rw [Int64.toInt_add]
  exact Int.bmod_eq_of_le (by omega) (by omega)

/-- Values that are not negative and do not overflow together. -/
structure Bounded (coins : List CoinRef) : Prop where
  nonneg : ∀ coin ∈ coins, 0 ≤ coin.amount
  total : amountOf coins < 2 ^ 63

theorem Bounded.sublist (h : Bounded coins) (hsub : coins'.Sublist coins) :
    Bounded coins' ∧ 0 ≤ amountOf coins' ∧ amountOf coins' ≤ amountOf coins := by
  have hle := Flagged.sum_map_le_of_sublist CoinRef.amount hsub h.nonneg
  refine ⟨⟨fun coin hc => h.nonneg coin (hsub.subset hc), ?_⟩, hle⟩
  have htotal := h.total
  unfold amountOf at htotal ⊢
  omega

theorem Bounded.perm (h : Bounded coins) (hperm : coins.Perm coins') : Bounded coins' :=
  ⟨fun coin hc => h.nonneg coin (hperm.mem_iff.mpr hc), amountOf_perm hperm ▸ h.total⟩

theorem Bounded.subset_le (h : Bounded coins) (hnodup : coins'.Nodup)
    (hsub : ∀ coin ∈ coins', coin ∈ coins) : amountOf coins' ≤ amountOf coins := by
  obtain ⟨l, hperm, hl⟩ := hnodup.subperm hsub
  rw [← amountOf_perm hperm]
  exact (h.sublist hl).2.2

/-- Coins without duplicates are all taken, with their total. -/
theorem takeCoins_eq (hnodup : coins.Nodup) (h : Bounded coins) :
    (takeCoins coins).1.Perm coins ∧ (takeCoins coins).2.toInt = amountOf coins := by
  unfold takeCoins
  induction coins using reverseRecOn with
  | nil => exact ⟨List.Perm.refl [], rfl⟩
  | append_singleton coins coin ih =>
    have hsub : coins.Sublist (coins ++ [coin]) := sublist_append_left coins [coin]
    obtain ⟨hb, hnonneg, hle⟩ := h.sublist hsub
    obtain ⟨hperm, htotal⟩ := ih (hnodup.sublist hsub) hb
    rw [foldl_append, foldl_cons]
    generalize coins.foldl (fun r coin => (r.1.insert coin, r.2 + coin.nValue)) ([], 0) = r at *
    have hnot : coin ∉ coins := fun hmem =>
      (nodup_append.mp hnodup).2.2 coin hmem coin (by simp) rfl
    have hcoin := h.nonneg coin (by simp)
    have htotal' := h.total
    rw [amountOf_append, amountOf_cons, amountOf_nil] at htotal' ⊢
    refine ⟨?_, ?_⟩
    · show (r.1.insert coin).Perm (coins ++ [coin])
      rw [insert_of_not_mem fun hmem => hnot (hperm.mem_iff.mp hmem)]
      exact (hperm.cons coin).trans (perm_append_singleton coin coins).symm
    · show (r.2 + coin.nValue).toInt = _
      have hadd : (r.2 + coin.nValue).toInt = r.2.toInt + coin.nValue.toInt :=
        toInt_add_eq (by unfold CoinRef.amount at hcoin; omega)
          (by unfold CoinRef.amount at htotal'; omega)
      unfold CoinRef.amount
      omega

/-! ## The search -/

namespace SubsetSearch

variable {vValue : List CoinRef} {s : SubsetSearch}

/-- The best subset so far is a subset with its total, which reaches the target. -/
structure BestOk (vValue : List CoinRef) (nTargetValue : Int64) (s : SubsetSearch) : Prop where
  total : s.nBest.toInt = amountOf (Flagged.pick vValue s.vfBest)
  reached : nTargetValue.toInt ≤ s.nBest.toInt

structure IncludedOk (vValue : List CoinRef) (s : SubsetSearch) : Prop where
  length : s.vfIncluded.length = vValue.length
  total : s.nTotal.toInt = amountOf (Flagged.pick vValue s.vfIncluded)

/-- The flags stay a subset with the sum kept in `nTotal`. -/
theorem include_ok {i : Nat} (hb : Bounded vValue) (hbest : BestOk vValue nTargetValue s)
    (hin : IncludedOk vValue s) (hi : vValue[i]? = some coin)
    (hnot : s.vfIncluded[i]? = some false) :
    BestOk vValue nTargetValue (s.includeCoin nTargetValue coin.nValue i) ∧
      IncludedOk vValue (s.includeCoin nTargetValue coin.nValue i) ∧
      ∀ j, j ≠ i → (s.includeCoin nTargetValue coin.nValue i).vfIncluded[j]? = s.vfIncluded[j]? := by
  have hset : amountOf (Flagged.pick vValue (s.vfIncluded.set i true)) =
      amountOf (Flagged.pick vValue s.vfIncluded) + coin.amount :=
    Flagged.sum_pick_set CoinRef.amount hi hnot
  have hbound := (hb.sublist (Flagged.pick_sublist vValue (s.vfIncluded.set i true))).2
  have htotal := hb.total
  have hadd : (s.nTotal + coin.nValue).toInt =
      amountOf (Flagged.pick vValue (s.vfIncluded.set i true)) := by
    rw [hset, ← hin.total]
    rw [hset, ← hin.total] at hbound
    refine toInt_add_eq ?_ ?_ <;> unfold CoinRef.amount at hbound <;> omega
  unfold includeCoin
  split
  · next hreached =>
    have hback : (s.vfIncluded.set i true).set i false = s.vfIncluded := by
      obtain ⟨hlt, hget⟩ := List.getElem?_eq_some_iff.mp hnot
      rw [set_set, ← hget, set_getElem_self]
    refine ⟨?_, ⟨?_, ?_⟩, fun j _ => ?_⟩
    · by_cases hlt : s.nTotal + coin.nValue < s.nBest
      · exact ⟨by simp only [if_pos hlt, hadd], by
          simpa only [if_pos hlt] using Int64.le_iff_toInt_le.mp hreached⟩
      · exact ⟨by simp only [if_neg hlt, hbest.total], by simpa only [if_neg hlt] using hbest.reached⟩
    · simp only [hback]
      exact hin.length
    · simp only [hback, Int64.add_sub_cancel]
      exact hin.total
    · simp only [hback]
  · refine ⟨⟨hbest.total, hbest.reached⟩, ⟨?_, hadd⟩, fun j hj => ?_⟩
    · simpa using hin.length
    · exact getElem?_set_ne (Ne.symm hj)

/-- A pass over the coins from `i` on; a coin is chosen only if it is not included. -/
theorem passFrom_ok {chosen : SubsetSearch → Nat → Bool} (hb : Bounded vValue) (rest : List CoinRef) :
    ∀ {s : SubsetSearch} {i : Nat}, vValue.drop i = rest →
      BestOk vValue nTargetValue s → IncludedOk vValue s →
      (∀ s' j, i ≤ j → j < vValue.length → (∀ k, j ≤ k → s'.vfIncluded[k]? = s.vfIncluded[k]?) →
        s'.vfIncluded.length = vValue.length → chosen s' j → s'.vfIncluded[j]? = some false) →
      BestOk vValue nTargetValue (passFrom nTargetValue chosen s i rest) ∧
        IncludedOk vValue (passFrom nTargetValue chosen s i rest) := by
  induction rest with
  | nil => exact fun _ hbest hin _ => ⟨hbest, hin⟩
  | cons coin rest ih =>
    intro s i hdrop hbest hin hchosen
    have hi : vValue[i]? = some coin := by
      have hget := congrArg head? hdrop
      simpa using hget
    have hlt : i < vValue.length := (List.getElem?_eq_some_iff.mp hi).1
    have hrest : vValue.drop (i + 1) = rest := by
      have htail := congrArg tail hdrop
      simpa using htail
    unfold passFrom
    split
    · next hyes =>
      have hnot := hchosen s i (Nat.le_refl i) hlt (fun _ _ => rfl) hin.length hyes
      obtain ⟨hbest', hin', hframe⟩ := include_ok hb hbest hin hi hnot
      refine ih hrest hbest' hin' fun s' j hij hj hsame hlen => ?_
      refine hchosen s' j (by omega) hj (fun k hk => ?_) hlen
      rw [hsame k hk, hframe k (by omega)]
    · exact ih hrest hbest hin fun s' j hij => hchosen s' j (by omega)

theorem passes_ok {bit : Nat → Bool} (hb : Bounded vValue) (hbest : BestOk vValue nTargetValue s)
    (hin : IncludedOk vValue s) (hfalse : s.vfIncluded = List.replicate vValue.length false) :
    BestOk vValue nTargetValue (passes nTargetValue bit vValue s) := by
  have hfirst : BestOk vValue nTargetValue (passFrom nTargetValue (fun _ i => bit i) s 0 vValue) ∧
      IncludedOk vValue (passFrom nTargetValue (fun _ i => bit i) s 0 vValue) := by
    refine passFrom_ok hb vValue rfl hbest hin fun s' j _ hj hsame _ _ => ?_
    rw [hsame j (Nat.le_refl j), hfalse, getElem?_replicate, if_pos hj]
  unfold passes
  obtain ⟨hbest₁, hin₁⟩ := hfirst
  dsimp only
  split
  · exact hbest₁
  · refine (passFrom_ok hb vValue rfl hbest₁ hin₁ ?_).1
    intro s' j _ hj _ hlen hnot
    have hlt : j < s'.vfIncluded.length := by omega
    simpa [getD_eq_getElem?_getD, getElem?_eq_getElem hlt] using hnot

theorem repeatPasses_ok (hb : Bounded vValue) (iterations : Nat) :
    ∀ {nRep : Nat} {s : SubsetSearch}, BestOk vValue nTargetValue s →
      BestOk vValue nTargetValue (repeatPasses nTargetValue bit vValue iterations nRep s) := by
  induction iterations with
  | zero => exact fun h => h
  | succ iterations ih =>
    intro nRep s hbest
    unfold repeatPasses
    split
    · exact hbest
    · refine ih (passes_ok hb ⟨hbest.total, hbest.reached⟩ ⟨by simp, ?_⟩ rfl)
      simp

end SubsetSearch

theorem approximateBestSubset_ok {vValue : List CoinRef} {iterations : Nat} (hb : Bounded vValue)
    (hlower : nTotalLower.toInt = amountOf vValue) (hreach : nTargetValue ≤ nTotalLower) :
    (approximateBestSubset bit vValue nTotalLower nTargetValue iterations).2.toInt =
        amountOf (Flagged.pick vValue
          (approximateBestSubset bit vValue nTotalLower nTargetValue iterations).1) ∧
      nTargetValue ≤ (approximateBestSubset bit vValue nTotalLower nTargetValue iterations).2 := by
  have hstart : SubsetSearch.BestOk vValue nTargetValue
      ⟨[], 0, false, replicate vValue.length true, nTotalLower⟩ :=
    ⟨by rw [Flagged.pick_replicate_true]; exact hlower, Int64.le_iff_toInt_le.mp hreach⟩
  have hend : SubsetSearch.BestOk vValue nTargetValue
      (SubsetSearch.repeatPasses nTargetValue bit vValue iterations 0 _) :=
    SubsetSearch.repeatPasses_ok hb iterations hstart
  exact ⟨hend.total, Int64.le_iff_toInt_le.mpr hend.reached⟩

/-! ## The loop over the coins -/

/-- No coin so far is of exactly the value; the smaller ones are in `vValue`, and of the others
there is one unless there are none, or only of the largest number. -/
structure CoinScan.Ok (nTargetValue : Int64) (done : List CoinRef) (s : CoinScan) : Prop where
  vValue : s.vValue = done.filter fun coin => decide (coin.nValue < nTargetValue + CENT)
  lower : s.nTotalLower.toInt = amountOf s.vValue
  larger : (s.coinLowestLarger = none ∧ s.nLowestLarger = MAX_MONEY ∧
      ∀ coin ∈ done, coin.nValue < nTargetValue + CENT ∨ coin.nValue = MAX_MONEY) ∨
    ∃ coin ∈ done, s.coinLowestLarger = some coin ∧ s.nLowestLarger = coin.nValue ∧
      nTargetValue + CENT ≤ coin.nValue

/-- One coin of the scan: it is the target, or it goes to the lower coins or to the lowest larger
one. -/
theorem scanCoin_cases {done : List CoinRef} {s : CoinScan} (h : s.Ok nTargetValue done)
    (hb : Bounded (done ++ [coin])) :
    (coin.nValue = nTargetValue ∧ scanCoin nTargetValue s coin = .error coin) ∨
      ∃ s', scanCoin nTargetValue s coin = .ok s' ∧ s'.Ok nTargetValue (done ++ [coin]) := by
  unfold scanCoin
  split
  · next heq => exact .inl ⟨heq, rfl⟩
  refine .inr ?_
  split
  · next hlower =>
    have hvalue : s.vValue ++ [coin] = (done ++ [coin]).filter
        fun coin => decide (coin.nValue < nTargetValue + CENT) := by
      rw [filter_append, ← h.vValue]
      simp [hlower]
    refine ⟨_, rfl, hvalue, ?_, ?_⟩
    · have hsub : (s.vValue ++ [coin]).Sublist (done ++ [coin]) := by
        rw [hvalue]
        exact filter_sublist
      obtain ⟨hb', hnonneg, -⟩ := hb.sublist hsub
      have htotal := hb'.total
      rw [amountOf_append, amountOf_cons, amountOf_nil, ← h.lower] at hnonneg htotal ⊢
      rw [Int.add_zero] at hnonneg htotal ⊢
      exact toInt_add_eq hnonneg htotal
    · rcases h.larger with ⟨hnone, hlowest, hall⟩ | ⟨c, hc, hrest⟩
      · refine .inl ⟨hnone, hlowest, fun c hc => ?_⟩
        rcases mem_append.mp hc with hc | hc
        · exact hall c hc
        · rw [mem_singleton.mp hc]
          exact .inl hlower
      · exact .inr ⟨c, mem_append_left _ hc, hrest⟩
  · next hlarger =>
    have hle : nTargetValue + CENT ≤ coin.nValue := Int64.not_lt.mp hlarger
    have hvalue : s.vValue = (done ++ [coin]).filter
        fun coin => decide (coin.nValue < nTargetValue + CENT) := by
      rw [filter_append, ← h.vValue]
      simp [hlarger]
    split
    · exact ⟨_, rfl, hvalue, h.lower, .inr ⟨coin, by simp, rfl, rfl, hle⟩⟩
    · next hnot =>
      refine ⟨s, rfl, hvalue, h.lower, ?_⟩
      rcases h.larger with ⟨hnone, hlowest, hall⟩ | ⟨c, hc, hrest⟩
      · -- only the largest number is not less than the first mark
        have hmax : coin.nValue = MAX_MONEY := by
          have hle' := Int64.le_iff_toInt_le.mp (Int64.not_lt.mp hnot)
          have hlt := Int64.toInt_lt coin.nValue
          have hval : MAX_MONEY.toInt = 9223372036854775807 := by decide
          rw [hlowest] at hle'
          exact Int64.toInt_inj.mp (by omega)
        refine .inl ⟨hnone, hlowest, fun c hc => ?_⟩
        rcases mem_append.mp hc with hc | hc
        · exact hall c hc
        · rw [mem_singleton.mp hc]
          exact .inr hmax
      · exact .inr ⟨c, mem_append_left _ hc, hrest⟩

theorem scanCoins_cases (rest : List CoinRef) :
    ∀ {done : List CoinRef} {s : CoinScan}, s.Ok nTargetValue done → Bounded (done ++ rest) →
      (∃ coin ∈ rest, coin.nValue = nTargetValue ∧
        foldAll (scanCoin nTargetValue) s rest = .error coin) ∨
      ∃ s', foldAll (scanCoin nTargetValue) s rest = .ok s' ∧ s'.Ok nTargetValue (done ++ rest) := by
  induction rest with
  | nil =>
    intro done s h _
    exact .inr ⟨s, rfl, by rwa [append_nil]⟩
  | cons coin rest ih =>
    intro done s h hb
    have hassoc : done ++ coin :: rest = done ++ [coin] ++ rest := by simp
    rw [hassoc] at hb ⊢
    have hfirst := (hb.sublist (sublist_append_left (done ++ [coin]) rest)).1
    rcases scanCoin_cases h hfirst with ⟨heq, herr⟩ | ⟨s₁, hs₁, h₁⟩
    · refine .inl ⟨coin, mem_cons_self, heq, ?_⟩
      rw [foldAll, herr]
      rfl
    · rcases ih h₁ hb with ⟨c, hc, heq, herr⟩ | ⟨s', hs', h'⟩
      · refine .inl ⟨c, mem_cons_of_mem _ hc, heq, ?_⟩
        rw [foldAll, hs₁]
        exact herr
      · refine .inr ⟨s', ?_, h'⟩
        rw [foldAll, hs₁]
        exact hs'

/-! ## The result -/

/-- The result of a selection: some of the coins, with their total, which reaches the target. -/
structure SelectedOk (nTargetValue : Int64) (eligible coins : List CoinRef) (nValueRet : Int64) :
    Prop where
  nodup : coins.Nodup
  subset : ∀ coin ∈ coins, coin ∈ eligible
  total : nValueRet.toInt = amountOf coins
  reached : nTargetValue ≤ nValueRet

/-- More than one coin that is not exact leaves a cent of change, unless no single coin does. -/
def LeavesChange (nTargetValue : Int64) (eligible coins : List CoinRef) (nValueRet : Int64) : Prop :=
  nValueRet ≠ nTargetValue → 1 < coins.length → nTargetValue + CENT ≤ nValueRet ∨
    ∀ coin ∈ eligible, coin.nValue < nTargetValue + CENT

section Result

variable {eligible : List CoinRef}

theorem selected_single (hb : Bounded eligible) (hmem : coin ∈ eligible)
    (hle : nTargetValue ≤ coin.nValue) :
    SelectedOk nTargetValue eligible (takeCoins [coin]).1 (takeCoins [coin]).2 ∧
      LeavesChange nTargetValue eligible (takeCoins [coin]).1 (takeCoins [coin]).2 := by
  have hsingle := (hb.sublist (singleton_sublist.mpr hmem)).1
  obtain ⟨hperm, htotal⟩ := takeCoins_eq (nodup_singleton coin) hsingle
  refine ⟨⟨hperm.nodup_iff.mpr (nodup_singleton coin), fun c hc => ?_, ?_, ?_⟩,
    fun _ hlen => ?_⟩
  · rw [mem_singleton.mp (hperm.mem_iff.mp hc)]
    exact hmem
  · rw [htotal, amountOf_perm hperm]
  · rw [Int64.le_iff_toInt_le, htotal]
    simpa [CoinRef.amount] using Int64.le_iff_toInt_le.mp hle
  · have hone := hperm.length_eq
    rw [length_singleton] at hone
    omega

/-- Some of the smaller coins. -/
theorem selected_lower {n : Int64} (hcoins : coins.Nodup) (hsub : ∀ coin ∈ coins, coin ∈ eligible)
    (hcb : Bounded coins) (hn : n.toInt = amountOf coins) (hle : nTargetValue ≤ n) :
    SelectedOk nTargetValue eligible (takeCoins coins).1 (takeCoins coins).2 ∧
      (takeCoins coins).2 = n := by
  obtain ⟨hperm, htotal⟩ := takeCoins_eq hcoins hcb
  have hret : (takeCoins coins).2 = n := Int64.toInt_inj.mp (htotal.trans hn.symm)
  rw [hret]
  exact ⟨⟨hperm.nodup_iff.mpr hcoins, fun c hc => hsub c (hperm.mem_iff.mp hc),
    hn.trans (amountOf_perm hperm).symm, hle⟩, rfl⟩

theorem bestSubset_ok (random : CoinRandom) {vValue : List CoinRef} (hb : Bounded vValue)
    (hlower : nTotalLower.toInt = amountOf vValue) (hle : nTargetValue ≤ nTotalLower)
    (hcent : nTargetValue ≤ nTargetValue + CENT) :
    (bestSubset random nTargetValue nTotalLower vValue).2.toInt =
        amountOf (Flagged.pick vValue (bestSubset random nTargetValue nTotalLower vValue).1) ∧
      nTargetValue ≤ (bestSubset random nTargetValue nTotalLower vValue).2 := by
  unfold bestSubset
  dsimp only
  split
  · next hsecond =>
    obtain ⟨htotal, hreached⟩ := approximateBestSubset_ok hb hlower hsecond.2
    exact ⟨htotal, Int64.le_trans hcent hreached⟩
  · exact approximateBestSubset_ok hb hlower hle

/-- The subset is taken if it is exact or leaves change and is below the lowest larger coin, and that
coin otherwise. -/
theorem selectFromScan_ok {random : CoinRandom} {s : CoinScan} (hnodup : eligible.Nodup)
    (hb : Bounded eligible) (hs : s.Ok nTargetValue eligible)
    (hcent : nTargetValue ≤ nTargetValue + CENT) {r : List CoinRef × Int64}
    (hr : selectFromScan random nTargetValue s = some r) :
    SelectedOk nTargetValue eligible r.1 r.2 ∧
      ((∀ coin ∈ eligible, coin.nValue ≠ MAX_MONEY) → LeavesChange nTargetValue eligible r.1 r.2) := by
  have hsub : s.vValue.Sublist eligible := by
    rw [hs.vValue]
    exact filter_sublist
  obtain ⟨hvb, -, -⟩ := hb.sublist hsub
  have hsingle : ∀ coin, s.coinLowestLarger = some coin →
      SelectedOk nTargetValue eligible (takeCoins [coin]).1 (takeCoins [coin]).2 ∧
        LeavesChange nTargetValue eligible (takeCoins [coin]).1 (takeCoins [coin]).2 := by
    intro coin hcoin
    rcases hs.larger with ⟨hnone, -⟩ | ⟨c, hc, hsome, -, hle⟩
    · rw [hnone] at hcoin
      cases hcoin
    · rw [hsome] at hcoin
      cases hcoin
      exact selected_single hb hc (Int64.le_trans hcent hle)
  unfold selectFromScan at hr
  split at hr
  · next heq =>
    obtain rfl := Option.some.inj hr
    obtain ⟨hok, hret⟩ := selected_lower (hnodup.sublist hsub) (fun c hc => hsub.subset hc) hvb
      hs.lower (Int64.le_of_eq heq.symm)
    exact ⟨hok, fun _ hne => absurd (hret.trans heq) hne⟩
  split at hr
  · obtain ⟨coin, hcoin, rfl⟩ := Option.map_eq_some_iff.mp hr
    exact ⟨(hsingle coin hcoin).1, fun _ => (hsingle coin hcoin).2⟩
  · next hne hnot =>
    have hle : nTargetValue ≤ s.nTotalLower := Int64.not_lt.mp hnot
    dsimp only at hr
    -- the order of the search
    have hperm : (s.vValue.mergeSort fun a b => decide (a.nValue ≤ b.nValue)).reverse.Perm s.vValue :=
      (reverse_perm _).trans (mergeSort_perm _ _)
    generalize (s.vValue.mergeSort fun a b => decide (a.nValue ≤ b.nValue)).reverse = vValue
      at hperm hr
    have hb' := hvb.perm hperm.symm
    have hlower : s.nTotalLower.toInt = amountOf vValue := hs.lower.trans (amountOf_perm hperm.symm)
    obtain ⟨htotal, hbest⟩ := bestSubset_ok random hb' hlower hle hcent
    generalize bestSubset random nTargetValue s.nTotalLower vValue = best at htotal hbest hr
    have hpick := Flagged.pick_sublist vValue best.1
    obtain ⟨hok, hret⟩ := selected_lower
      ((hperm.nodup_iff.mpr (hnodup.sublist hsub)).sublist hpick)
      (fun c hc => hsub.subset (hperm.mem_iff.mp (hpick.subset hc)))
      (hb'.sublist hpick).1 htotal hbest
    rcases hs.larger with ⟨hnone, -, hall⟩ | ⟨c, -, hsome, -⟩
    · rw [hnone] at hr
      obtain rfl := Option.some.inj hr
      refine ⟨hok, fun hmax _ _ => .inr fun coin hcoin => ?_⟩
      exact (hall coin hcoin).resolve_right (hmax coin hcoin)
    · rw [hsome] at hr
      dsimp only at hr
      split at hr
      · obtain rfl := Option.some.inj hr
        exact ⟨(hsingle c hsome).1, fun _ => (hsingle c hsome).2⟩
      · next hsmall =>
        obtain rfl := Option.some.inj hr
        refine ⟨hok, fun _ hexact _ => .inl (Int64.not_lt.mp fun hlt => hsmall (.inl ?_))⟩
        rw [hret] at hexact hlt
        exact ⟨hexact, hlt⟩

theorem selectFromScan_isSome {random : CoinRandom} {s : CoinScan}
    (hs : s.Ok nTargetValue eligible) (hmax : ∀ coin ∈ eligible, coin.nValue ≠ MAX_MONEY)
    (hreach : nTargetValue.toInt ≤ amountOf eligible) :
    (selectFromScan random nTargetValue s).isSome := by
  unfold selectFromScan
  split
  · rfl
  split
  · next hless =>
    rcases hs.larger with ⟨-, -, hall⟩ | ⟨c, -, hsome, -⟩
    · -- all coins are smaller ones
      have hvalue : s.vValue = eligible := by
        rw [hs.vValue]
        exact filter_eq_self.mpr fun c hc =>
          decide_eq_true ((hall c hc).resolve_right (hmax c hc))
      have hlt := Int64.lt_iff_toInt_lt.mp hless
      rw [hs.lower, hvalue] at hlt
      omega
    · rw [hsome]
      rfl
  · dsimp only
    split
    · split <;> rfl
    · rfl

end Result

theorem selectFrom_ok (random : CoinRandom) (hnodup : coins.Nodup) (hb : Bounded coins)
    (hcent : nTargetValue ≤ nTargetValue + CENT) {r : List CoinRef × Int64}
    (hr : selectFrom random nTargetValue coins = some r) :
    SelectedOk nTargetValue coins r.1 r.2 ∧
      ((∀ coin ∈ coins, coin.nValue ≠ MAX_MONEY) → LeavesChange nTargetValue coins r.1 r.2) := by
  have hstart : CoinScan.Ok nTargetValue [] ⟨MAX_MONEY, none, [], 0⟩ :=
    ⟨rfl, rfl, .inl ⟨rfl, rfl, by nofun⟩⟩
  unfold selectFrom at hr
  rcases scanCoins_cases coins hstart hb with ⟨coin, hmem, heq, herr⟩ | ⟨s, hs, hok⟩
  · rw [herr] at hr
    obtain rfl := Option.some.inj hr
    obtain ⟨hsel, hchange⟩ := selected_single hb hmem (Int64.le_of_eq heq.symm)
    exact ⟨hsel, fun _ => hchange⟩
  · rw [hs] at hr
    exact selectFromScan_ok hnodup hb hok hcent hr

theorem selectFrom_isSome (random : CoinRandom) (hb : Bounded coins)
    (hmax : ∀ coin ∈ coins, coin.nValue ≠ MAX_MONEY)
    (hreach : nTargetValue.toInt ≤ amountOf coins) :
    (selectFrom random nTargetValue coins).isSome := by
  have hstart : CoinScan.Ok nTargetValue [] ⟨MAX_MONEY, none, [], 0⟩ :=
    ⟨rfl, rfl, .inl ⟨rfl, rfl, by nofun⟩⟩
  unfold selectFrom
  rcases scanCoins_cases coins hstart hb with ⟨coin, -, -, herr⟩ | ⟨s, hs, hok⟩
  · rw [herr]
    rfl
  · rw [hs]
    exact selectFromScan_isSome hok hmax hreach

section Select

variable {isFromMe : CWalletTx → Bool} {nConfMine nConfTheirs : Int} {random : CoinRandom}
  {vCoins : List COutput}

theorem perm_eligibleCoins (isFromMe : CWalletTx → Bool) (nSpendTime : UInt32)
    (nConfMine nConfTheirs : Int) {vCoins' : List COutput} (h : vCoins.Perm vCoins') :
    (eligibleCoins isFromMe nSpendTime nConfMine nConfTheirs vCoins).Perm
      (eligibleCoins isFromMe nSpendTime nConfMine nConfTheirs vCoins') :=
  (h.filter _).map _

theorem le_add_cent (htarget : nTargetValue.toInt + CENT.toInt < 2 ^ 63) :
    nTargetValue ≤ nTargetValue + CENT := by
  have hcent : CENT.toInt = 10000 := by decide
  have hlow := Int64.le_toInt nTargetValue
  rw [Int64.le_iff_toInt_le, Int64.toInt_add, Int.bmod_eq_of_le (by omega) (by omega)]
  omega

/-- Either the scan stops at an exact coin, or the choice is made from what it has collected. -/
theorem selectCoinsMinConf_ok (hdistinct : (vCoins.map COutput.toCoinRef).Nodup)
    (htarget : nTargetValue.toInt + CENT.toInt < 2 ^ 63)
    (hb : Bounded (eligibleCoins isFromMe nSpendTime nConfMine nConfTheirs vCoins))
    {r : List CoinRef × Int64}
    (hr : selectCoinsMinConf isFromMe nSpendTime nConfMine nConfTheirs random nTargetValue vCoins =
      some r) :
    SelectedOk nTargetValue (eligibleCoins isFromMe nSpendTime nConfMine nConfTheirs vCoins) r.1 r.2 ∧
      ((∀ coin ∈ eligibleCoins isFromMe nSpendTime nConfMine nConfTheirs vCoins,
        coin.nValue ≠ MAX_MONEY) →
        LeavesChange nTargetValue (eligibleCoins isFromMe nSpendTime nConfMine nConfTheirs vCoins)
          r.1 r.2) := by
  have hperm := perm_eligibleCoins isFromMe nSpendTime nConfMine nConfTheirs (random.perm vCoins)
  have hnodup : (eligibleCoins isFromMe nSpendTime nConfMine nConfTheirs vCoins).Nodup :=
    hdistinct.sublist (filter_sublist.map _)
  obtain ⟨hok, hchange⟩ := selectFrom_ok random (hperm.nodup_iff.mpr hnodup) (hb.perm hperm.symm)
    (le_add_cent htarget) hr
  refine ⟨⟨hok.nodup, fun c hc => hperm.mem_iff.mp (hok.subset c hc), hok.total, hok.reached⟩,
    fun hmax hne hlen => ?_⟩
  rcases hchange (fun c hc => hmax c (hperm.mem_iff.mp hc)) hne hlen with hle | hall
  · exact .inl hle
  · exact .inr fun c hc => hall c (hperm.mem_iff.mpr hc)

/-- Among distinct outputs that do not overflow together and of which no eligible one has a negative
value or the largest number. -/
theorem selectCoins_iff (hdistinct : (vCoins.map COutput.toCoinRef).Nodup)
    (htarget : nTargetValue.toInt + CENT.toInt < 2 ^ 63)
    (hb : Bounded (eligibleCoins isFromMe nSpendTime nConfMine nConfTheirs vCoins))
    (hmax : ∀ coin ∈ eligibleCoins isFromMe nSpendTime nConfMine nConfTheirs vCoins,
      coin.nValue ≠ MAX_MONEY) :
    ((selectCoinsMinConf isFromMe nSpendTime nConfMine nConfTheirs random nTargetValue vCoins).isSome =
        true ↔
      nTargetValue.toInt ≤
        amountOf (eligibleCoins isFromMe nSpendTime nConfMine nConfTheirs vCoins)) ∧
    ∀ setCoinsRet nValueRet,
      selectCoinsMinConf isFromMe nSpendTime nConfMine nConfTheirs random nTargetValue vCoins =
        some (setCoinsRet, nValueRet) →
      SelectedOk nTargetValue (eligibleCoins isFromMe nSpendTime nConfMine nConfTheirs vCoins)
        setCoinsRet nValueRet ∧
      LeavesChange nTargetValue (eligibleCoins isFromMe nSpendTime nConfMine nConfTheirs vCoins)
        setCoinsRet nValueRet := by
  have hperm := perm_eligibleCoins isFromMe nSpendTime nConfMine nConfTheirs (random.perm vCoins)
  refine ⟨⟨fun hsome => ?_, fun hreach => ?_⟩, fun setCoinsRet nValueRet hr => ?_⟩
  · obtain ⟨r, hr⟩ := Option.isSome_iff_exists.mp hsome
    obtain ⟨hok, -⟩ := selectCoinsMinConf_ok hdistinct htarget hb hr
    -- what is found is no more than what there is
    have hle := hb.subset_le hok.nodup hok.subset
    have hreached := Int64.le_iff_toInt_le.mp hok.reached
    rw [hok.total] at hreached
    omega
  · refine selectFrom_isSome random (hb.perm hperm.symm) (fun c hc => hmax c (hperm.mem_iff.mp hc)) ?_
    rw [amountOf_perm hperm]
    exact hreach
  · obtain ⟨hok, hchange⟩ := selectCoinsMinConf_ok hdistinct htarget hb hr
    exact ⟨hok, hchange hmax⟩

end Select

/-! ## The largest number -/

def sampleOutput (nValue : Int64) : COutput :=
  { tx := CWalletTx.new ⟨1, 0, [], [⟨nValue, []⟩], 0⟩
    i := 0
    valid := Nat.zero_lt_one
    nDepth := 1
    fSpendable := true }

def sampleRandom : CoinRandom := ⟨id, fun _ => List.Perm.refl _, fun _ _ _ => true⟩

/-- A coin of the largest number is not found, though it is enough. -/
theorem selectCoins_largest :
    ([sampleOutput MAX_MONEY].map COutput.toCoinRef).Nodup ∧ (1 : Int64).toInt + CENT.toInt < 2 ^ 63 ∧
    Bounded (eligibleCoins (fun _ => false) 0 1 1 [sampleOutput MAX_MONEY]) ∧
    (1 : Int64).toInt ≤ amountOf (eligibleCoins (fun _ => false) 0 1 1 [sampleOutput MAX_MONEY]) ∧
    selectCoinsMinConf (fun _ => false) 0 1 1 sampleRandom 1 [sampleOutput MAX_MONEY] = none := by
  refine ⟨nodup_singleton _, by decide, ⟨by decide +kernel, by decide +kernel⟩, ?_, ?_⟩
  · decide +kernel
  · decide +kernel

/-- Two coins for a target between them. -/
theorem selectCoins_two :
    (selectCoinsMinConf (fun _ => false) 0 1 1 sampleRandom 4
      [sampleOutput 3, sampleOutput 5]).isSome = true ∧
    ∀ setCoinsRet nValueRet, selectCoinsMinConf (fun _ => false) 0 1 1 sampleRandom 4
        [sampleOutput 3, sampleOutput 5] = some (setCoinsRet, nValueRet) →
      SelectedOk 4 (eligibleCoins (fun _ => false) 0 1 1 [sampleOutput 3, sampleOutput 5])
        setCoinsRet nValueRet ∧
      LeavesChange 4 (eligibleCoins (fun _ => false) 0 1 1 [sampleOutput 3, sampleOutput 5])
        setCoinsRet nValueRet := by
  have hspec : ((selectCoinsMinConf (fun _ => false) 0 1 1 sampleRandom 4
        [sampleOutput 3, sampleOutput 5]).isSome ↔ _) ∧ _ :=
    selectCoins_iff (by decide +kernel) (by decide) ⟨by decide +kernel, by decide +kernel⟩
      (by decide +kernel)
  exact ⟨hspec.1.mpr (by decide +kernel), hspec.2⟩

/-! ## The coins of the wallet

The transactions of the map are under their hashes, so no output is listed twice. What `SelectCoins`
takes is some of the outputs listed, with their total. -/

namespace WalletView

/-- Each transaction is in the map under its hash. -/
def Keyed (view : WalletView) : Prop :=
  ∀ hash wtx, view.mapWallet.lookup hash = some wtx → view.env.crypto.txHash wtx.tx = hash

variable {view : WalletView} {wtx : CWalletTx}

/-! ## Lists of outputs -/

theorem mem_entries {hash : Uint256} :
    (hash, wtx) ∈ view.entries ↔ view.mapWallet.lookup hash = some wtx := by
  unfold entries
  rw [mem_insertionSort, mem_map]
  constructor
  · rintro ⟨⟨h, w⟩, hmem, heq⟩
    cases heq
    exact AList.mem_lookup_iff.mpr hmem
  · intro hlookup
    exact ⟨⟨hash, wtx⟩, AList.mem_lookup_iff.mp hlookup, rfl⟩

/-- No transaction is there twice. -/
theorem Keyed.nodup_entries (hkeyed : view.Keyed) : (view.entries.map Prod.snd).Nodup := by
  have hkeys : (view.entries.map Prod.fst).Nodup := by
    have hperm : (view.entries.map Prod.fst).Perm view.mapWallet.keys := by
      refine ((perm_insertionSort _ _).map _).trans ?_
      rw [map_map]
      exact List.Perm.refl _
    exact hperm.nodup_iff.mpr view.mapWallet.keys_nodup
  -- the key can be read off the transaction
  have hfst : view.entries.map Prod.fst =
      (view.entries.map Prod.snd).map fun wtx => view.env.crypto.txHash wtx.tx := by
    rw [map_map]
    refine map_congr_left ?_
    rintro ⟨hash, wtx⟩ hmem
    exact (hkeyed hash wtx (mem_entries.mp hmem)).symm
  rw [hfst] at hkeys
  exact hkeys.of_map

theorem mem_unspentOutputs {fTake : Nat → Int64 → Bool} {output : COutput}
    (h : output ∈ view.unspentOutputs wtx fTake) :
    output.tx = wtx ∧ wtx.isSpent output.i = false ∧ fTake output.i output.nValue := by
  unfold unspentOutputs at h
  rw [mem_filterMap] at h
  obtain ⟨i, -, hi⟩ := h
  dsimp only at hi
  split at hi
  · next hcond =>
    obtain rfl := Option.some.inj hi
    simp only [Bool.and_eq_true, Bool.not_eq_true'] at hcond
    exact ⟨rfl, hcond.1.1, hcond.2⟩
  · cases hi

theorem nodup_unspentOutputs (wtx : CWalletTx) (fTake : Nat → Int64 → Bool) :
    ((view.unspentOutputs wtx fTake).map COutput.toCoinRef).Nodup := by
  unfold unspentOutputs
  rw [map_filterMap]
  refine (nodup_finRange _).filterMap fun i j coin hi hj => ?_
  rw [Option.mem_def, Option.map_eq_some_iff] at hi hj
  obtain ⟨a, ha, rfl⟩ := hi
  obtain ⟨b, hb, heq⟩ := hj
  dsimp only at ha hb
  split at ha
  · split at hb
    · obtain rfl := Option.some.inj ha
      obtain rfl := Option.some.inj hb
      have hcoin := congrArg CoinRef.i heq
      exact Fin.ext hcoin.symm
    · cases hb
  · cases ha

theorem Keyed.nodup_flatMap (hkeyed : view.Keyed) {outputs : Uint256 × CWalletTx → List COutput}
    (hnodup : ∀ e, ((outputs e).map COutput.toCoinRef).Nodup)
    (htx : ∀ e, ∀ output ∈ outputs e, output.tx = e.2) :
    ((view.entries.flatMap outputs).map COutput.toCoinRef).Nodup := by
  rw [map_flatMap, List.nodup_flatMap]
  refine ⟨fun e _ => hnodup e, ?_⟩
  have hpair := pairwise_map.mp hkeyed.nodup_entries
  refine hpair.imp fun {a b} hne coin ha hb => hne ?_
  obtain ⟨x, hx, rfl⟩ := mem_map.mp ha
  obtain ⟨y, hy, heq⟩ := mem_map.mp hb
  rw [← htx a x hx, ← htx b y hy]
  exact (congrArg CoinRef.tx heq).symm

theorem Keyed.nodup_availableCoins (hkeyed : view.Keyed) (fOnlyConfirmed : Bool)
    (coinControl : Option CCoinControl) :
    ((view.availableCoins fOnlyConfirmed coinControl).map COutput.toCoinRef).Nodup := by
  refine hkeyed.nodup_flatMap (fun e => ?_) fun e output hmem => ?_
  · dsimp only
    split
    · exact nodup_nil
    · exact nodup_unspentOutputs _ _
  · dsimp only at hmem
    split at hmem
    · cases hmem
    · exact (mem_unspentOutputs hmem).1

/-! ## Coins for a payment -/

def spendableCoins (view : WalletView) (coinControl : Option CCoinControl) : List CoinRef :=
  ((view.availableCoins true coinControl).filter (·.fSpendable)).map COutput.toCoinRef

theorem eligibleCoins_sublist (view : WalletView) (coinControl : Option CCoinControl)
    (nSpendTime : UInt32) (nConfMine nConfTheirs : Int) :
    (eligibleCoins view.isFromMe nSpendTime nConfMine nConfTheirs
      (view.availableCoins true coinControl)).Sublist (view.spendableCoins coinControl) := by
  refine List.Sublist.map _ (monotone_filter_right _ fun output h => ?_)
  simp only [COutput.isEligible, Bool.and_eq_true] at h
  exact h.1.1

section Select

variable {coinControl : Option CCoinControl}

section

variable {r : List CoinRef × Int64} (hkeyed : view.Keyed)
  (hb : Bounded (view.spendableCoins coinControl))
  (htarget : nTargetValue.toInt + CENT.toInt < 2 ^ 63)
include hkeyed hb htarget

theorem selectMinConf_ok {random : CoinRandom} {nConfMine nConfTheirs : Int}
    (h : selectCoinsMinConf view.isFromMe nSpendTime nConfMine nConfTheirs random nTargetValue
      (view.availableCoins true coinControl) = some r) :
    SelectedOk nTargetValue (view.spendableCoins coinControl) r.1 r.2 := by
  have hsub := view.eligibleCoins_sublist coinControl nSpendTime nConfMine nConfTheirs
  obtain ⟨hok, -⟩ := selectCoinsMinConf_ok (hkeyed.nodup_availableCoins true coinControl) htarget
    (hb.sublist hsub).1 h
  exact ⟨hok.nodup, fun coin hc => hsub.subset (hok.subset coin hc), hok.total, hok.reached⟩

/-- Whatever `SelectCoins` takes is enough. -/
theorem selectCoins_ok {random : Fin 3 → CoinRandom}
    (h : view.selectCoins random nTargetValue nSpendTime coinControl = some r) :
    SelectedOk nTargetValue (view.spendableCoins coinControl) r.1 r.2 := by
  unfold selectCoins at h
  dsimp only at h
  split at h
  · have hnodup : (view.spendableCoins coinControl).Nodup :=
      (hkeyed.nodup_availableCoins true coinControl).sublist (filter_sublist.map _)
    obtain ⟨hperm, htotal⟩ := takeCoins_eq hnodup hb
    split at h
    · next hle =>
      obtain rfl := Option.some.inj h
      exact ⟨hperm.nodup_iff.mpr hnodup, fun coin hc => hperm.mem_iff.mp hc,
        htotal.trans (amountOf_perm hperm).symm, hle⟩
    · cases h
  · rcases Option.or_eq_some_iff.mp h with h | ⟨-, h⟩
    · exact selectMinConf_ok hkeyed hb htarget h
    · rcases Option.or_eq_some_iff.mp h with h | ⟨-, h⟩
      · exact selectMinConf_ok hkeyed hb htarget h
      · exact selectMinConf_ok hkeyed hb htarget h

end

end Select

end WalletView

end NovaCoin
