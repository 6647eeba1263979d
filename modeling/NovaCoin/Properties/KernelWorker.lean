import NovaCoin.KernelWorker

/-!
# The workers of `ScanKernelForward`

The timestamps at the end that do not fill a part for every thread are left out.
-/

namespace NovaCoin

open List

namespace KernelScan

variable {scan : KernelScan} {s : SearchInterval}

theorem scanTimes_append {nBegin nMid nEnd : Nat} (h₁ : nBegin ≤ nMid) (h₂ : nMid ≤ nEnd) :
    scanTimes nBegin nMid ++ scanTimes nMid nEnd = scanTimes nBegin nEnd := by
  have hrange := range'_append_1 (s := nBegin) (m := nMid - nBegin) (n := nEnd - nMid)
  rw [show nBegin + (nMid - nBegin) = nMid by omega,
    show nMid - nBegin + (nEnd - nMid) = nEnd - nBegin by omega] at hrange
  rw [scanTimes, scanTimes, scanTimes, ← map_append, hrange]

theorem toNat_nBegin (hle : s.first ≤ s.second) {i : Nat} (hi : i ≤ s.nThreads) :
    (s.nBegin i).toNat = s.first.toNat + s.nPart.toNat * i ∧
      s.nPart.toNat = (s.second.toNat - s.first.toNat) / s.nThreads := by
  have hthreads : s.nThreads < 2 ^ 32 := by
    have hlt := s.nConcurrency.toNat_lt
    unfold SearchInterval.nThreads
    split
    · decide
    · exact hlt
  have hpart : s.nPart.toNat = (s.second.toNat - s.first.toNat) / s.nThreads := by
    rw [SearchInterval.nPart, UInt32.toNat_div, UInt32.toNat_ofNat', UInt32.toNat_sub_of_le _ _ hle,
      Nat.mod_eq_of_lt hthreads]
  have hsecond := s.second.toNat_lt
  have hfirst := UInt32.le_iff_toNat_le.mp hle
  have hbound := (Nat.mul_le_mul_left s.nPart.toNat hi).trans (hpart ▸ Nat.div_mul_le_self _ _)
  rw [SearchInterval.nBegin, UInt32.toNat_add, UInt32.toNat_mul, UInt32.toNat_ofNat',
    Nat.mod_eq_of_lt (by omega : i < 2 ^ 32),
    Nat.mod_eq_of_lt (by omega : s.nPart.toNat * i < 2 ^ 32), Nat.mod_eq_of_lt (by omega)]
  exact ⟨rfl, hpart⟩

/-- The parts one after the other. -/
theorem flatMap_parts (hle : s.first ≤ s.second) : ∀ {n : Nat}, n ≤ s.nThreads →
    ((range n).flatMap fun i => scanTimes (s.nBegin i).toNat (s.nBegin (i + 1)).toNat) =
      scanTimes s.first.toNat (s.nBegin n).toNat
  | 0, _ => by simp [toNat_nBegin hle, scanTimes]
  | n + 1, hn => by
    have hlow := (toNat_nBegin hle (Nat.le_of_succ_le hn)).1
    have hhigh := (toNat_nBegin hle hn).1
    rw [Nat.mul_succ, ← Nat.add_assoc, ← hlow] at hhigh
    rw [range_succ, flatMap_append, flatMap_parts hle (Nat.le_of_succ_le hn), flatMap_singleton,
      scanTimes_append (hlow ▸ Nat.le_add_right _ _) (hhigh ▸ Nat.le_add_right _ _)]

/-- With enough rounds a worker gets to the end of its interval. -/
theorem solutions_iterate : ∀ {n : Nat} {worker : KernelWorker},
    worker.nIntervalEnd.toNat ≤ worker.nTimeTx.toNat + n →
      (scan.step^[n] worker).solutions = worker.solutions ++
        (scanTimes worker.nTimeTx.toNat worker.nIntervalEnd.toNat).filterMap scan.tryTime
  | 0, worker, h => by
    have hnone : worker.nIntervalEnd.toNat - worker.nTimeTx.toNat = 0 := Nat.sub_eq_zero_of_le h
    simp [scanTimes, hnone]
  | n + 1, worker, h => by
    have hend := worker.nIntervalEnd.toNat_lt
    rw [Function.iterate_succ_apply, step]
    split
    · next hlt =>
      have hlt := UInt32.lt_iff_toNat_lt.mp hlt
      have hnext : (worker.nTimeTx + 1).toNat = worker.nTimeTx.toNat + 1 := by
        rw [UInt32.toNat_add, UInt32.toNat_one, Nat.mod_eq_of_lt (by omega)]
      have hone : scanTimes worker.nTimeTx.toNat (worker.nTimeTx.toNat + 1) = [worker.nTimeTx] := by
        simp [scanTimes]
      rw [solutions_iterate (by simp only [hnext]; omega),
        ← scanTimes_append (Nat.le_succ _) hlt, hone]
      simp only [hnext, filterMap_append, append_assoc]
      cases htry : scan.tryTime worker.nTimeTx <;> simp [htry]
    · next hlt =>
      rw [UInt32.lt_iff_toNat_lt] at hlt
      exact solutions_iterate (by omega)

/-- A worker has made as many rounds as the schedule has turns for it. -/
theorem foldl_modify (f : KernelWorker → KernelWorker) : ∀ (schedule : List Nat)
    (g : Nat → KernelWorker) (n : Nat),
    schedule.foldl (fun workers i => workers.modify i f) ((range n).map g) =
      (range n).map fun i => f^[schedule.count i] (g i)
  | [], _, _ => rfl
  | i :: schedule, g, n => by
    have hturn : ((range n).map g).modify i f =
        (range n).map fun k => if i = k then f (g k) else g k := by
      refine ext_getElem? fun k => ?_
      rw [getElem?_modify, getElem?_map, getElem?_map]
      by_cases hk : k < n
      · rw [getElem?_range hk]
        rfl
      · rw [getElem?_eq_none (by simpa using hk)]
        rfl
    rw [foldl_cons, hturn, foldl_modify f schedule]
    refine map_congr_left fun k _ => ?_
    by_cases hk : i = k <;> simp [hk]

/-- The parts make up the interval exactly if its length is a multiple of the number of threads. The
solutions are those of one worker, whatever the schedule, exactly if the times left over have
none. -/
theorem scanKernelForward_iff (scan : KernelScan) (s : SearchInterval) (hle : s.first ≤ s.second) :
    let nLength := s.second.toNat - s.first.toNat
    (((range s.nThreads).flatMap fun i => scanTimes (s.nBegin i).toNat (s.nBegin (i + 1)).toNat) =
      scanTimes s.first.toNat s.second.toNat ↔ s.nThreads ∣ nLength) ∧
    ∀ schedule, (∀ i < s.nThreads, nLength / s.nThreads ≤ schedule.count i) →
      ((scan.scanKernelForward s schedule).2 =
        (scanTimes s.first.toNat s.second.toNat).filterMap scan.tryTime ↔
        ∀ t ∈ scanTimes (s.second.toNat - nLength % s.nThreads) s.second.toNat,
          scan.tryTime t = none) := by
  intro nLength
  have hsum : s.first.toNat + nLength = s.second.toNat :=
    Nat.add_sub_cancel' (UInt32.le_iff_toNat_le.mp hle)
  obtain ⟨hend, hpart⟩ := toNat_nBegin hle le_rfl
  change s.nPart.toNat = nLength / s.nThreads at hpart
  clear_value nLength
  have hparts := flatMap_parts hle le_rfl
  have hdiv := Nat.div_add_mod' nLength s.nThreads
  have hrest : (s.nBegin s.nThreads).toNat = s.second.toNat - nLength % s.nThreads := by
    rw [hend, hpart]
    omega
  rw [hrest] at hparts
  refine ⟨?_, fun schedule hturns => ?_⟩
  · rw [hparts, Nat.dvd_iff_mod_eq_zero]
    refine ⟨fun h => ?_, fun h => by rw [h, Nat.sub_zero]⟩
    have hlength := congrArg length h
    simp only [scanTimes, length_map, length_range'] at hlength
    omega
  · have hsolutions : (scan.scanKernelForward s schedule).2 = (scanTimes s.first.toNat
        (s.second.toNat - nLength % s.nThreads)).filterMap scan.tryTime := by
      simp only [scanKernelForward, foldl_modify, flatMap_map]
      rw [← hparts, filterMap_flatMap]
      refine flatMap_congr fun i hi => ?_
      have hi := mem_range.mp hi
      rw [solutions_iterate, nil_append]
      have hturn := hpart ▸ hturns i hi
      have hlow := (toNat_nBegin hle hi.le).1
      have hhigh := (toNat_nBegin (i := i + 1) hle hi).1
      rw [Nat.mul_succ] at hhigh
      simp only
      omega
    have hsplit := scanTimes_append
      (show s.first.toNat ≤ s.second.toNat - nLength % s.nThreads by omega) (Nat.sub_le _ _)
    rw [hsolutions, ← hsplit, filterMap_append, self_eq_append_right, filterMap_eq_nil_iff]

/-- Every kernel hash is 0. -/
def zeroScan : KernelScan :=
  ⟨true, { Crypto.sample with sha256 := fun _ => [] }, replicate 24 0, 0x1d100000, 0, 1000000⟩

/-- Of three timestamps, two threads scan two. -/
theorem lastKernel_lost : (zeroScan.scanKernelForward ⟨10000000, 10000003, 2⟩ [1, 0, 1, 0]).2 ≠
    (zeroScan.scanKernelForward ⟨10000000, 10000003, 1⟩ [0, 0, 0]).2 := by
  decide +kernel

/-- Four timestamps, in turns. -/
theorem kernels_found : (zeroScan.scanKernelForward ⟨10000000, 10000004, 2⟩ [1, 0, 1, 0]).2 =
    (scanTimes 10000000 10000004).filterMap zeroScan.tryTime :=
  ((scanKernelForward_iff zeroScan ⟨10000000, 10000004, 2⟩ (by decide)).2 [1, 0, 1, 0]
    (by decide +kernel)).mpr (forall_mem_nil _)

end KernelScan

end NovaCoin
