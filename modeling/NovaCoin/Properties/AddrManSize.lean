import NovaCoin.Properties.AddrManFile

/-!
# The size of the address manager

`GetSerializeSize` runs the branch that reads. It empties the tables and fills them with entries it
has made itself, as many as the counters say, and it does not count the new buckets. There is no state
that it leaves as it was and of which it returns the size.
-/

namespace NovaCoin

open List

open Std (TreeMap TreeSet)
open AddrManData (rounds)

/-! ## What is counted -/

theorem CAddrInfo.length_serialize (info : CAddrInfo) : info.serialize.length = 62 := by
  simp [CAddrInfo.serialize, info.length_ip, info.source.length_ip]

theorem length_flatMap_infos (v : List CAddrInfo) :
    (v.flatMap CAddrInfo.serialize).length = 62 * v.length := by
  simp [length_flatMap, CAddrInfo.length_serialize, Nat.mul_comm]

theorem AddrManData.length_serialize (d : AddrManData) :
    d.serialize.length = 13 + (serializeBytes d.nKey).length +
      62 * (d.vInfoNew.length + d.vInfoTried.length) + (d.vvIndex.flatMap serializeIndices).length := by
  simp only [AddrManData.serialize, serializeInt32, length_append, length_leBytes,
    length_flatMap_infos]
  omega

theorem le_length_flatMap_indices : ∀ vvIndex : List (List Int32),
    4 * vvIndex.length ≤ (vvIndex.flatMap serializeIndices).length
  | [] => Nat.le_refl 0
  | v :: vvIndex => by
    have ih := le_length_flatMap_indices vvIndex
    simp only [flatMap_cons, serializeIndices, serializeInt32, length_append,
      length_leBytes, length_cons]
    omega

namespace CAddrMan

variable {s : CAddrMan}

/-! ## What is written -/

theorem le_length_filter {p : CAddrInfo → Bool} {start : Int} {k : Nat}
    (h : ∀ i < k, ∃ info, s.mapInfo[start + (i : Int)]? = some info ∧ p info) :
    k ≤ (s.mapInfo.toList.filter fun item => p item.2).length := by
  have hnodup : ((range k).map fun i : Nat => start + (i : Int)).Nodup :=
    nodup_range.map fun i j heq => by simpa using heq
  have hsub : ((range k).map fun i : Nat => start + (i : Int)) ⊆
      (s.mapInfo.toList.filter fun item => p item.2).map Prod.fst := by
    intro n hn
    obtain ⟨i, hi, rfl⟩ := mem_map.mp hn
    obtain ⟨info, hinfo, hp⟩ := h i (mem_range.mp hi)
    exact mem_map.mpr ⟨_, mem_filter.mpr ⟨mem_toList.mpr hinfo, hp⟩, rfl⟩
  have hle := (hnodup.subperm hsub).length_le
  rwa [length_map, length_map, length_range] at hle

/-! ## The state after -/

variable (crypto : Crypto)

theorem blank_new (l : List CAddrInfo) (hzero : ∀ info ∈ l, info.nRefCount = 0) :
    (l.zipIdx.foldl (loadNew crypto true) s).nTried = s.nTried ∧ ∀ i < l.length, ∃ info,
        (l.zipIdx.foldl (loadNew crypto true) s).mapInfo[(i : Int)]? = some info ∧
          info.nRefCount = 1 := by
  induction l using reverseRecOn with
  | nil => exact ⟨rfl, by simp⟩
  | append_singleton l a ih =>
    obtain ⟨hnTried, hentry⟩ := ih fun info hinfo => hzero info (mem_append_left _ hinfo)
    have hzip : (l ++ [a]).zipIdx = l.zipIdx ++ [(a, l.length)] := by simp [zipIdx_append]
    rw [hzip, foldl_append]
    refine ⟨hnTried, fun i hi => ?_⟩
    rw [length_append, length_singleton] at hi
    simp only [foldl_cons, foldl_nil, loadNew, modifyInfo, setNew, if_true,
      Inverse.getElem?_modify_eq, Inverse.getElem?_insert_eq]
    rcases Nat.lt_or_ge i l.length with hlt | hge
    · have hne : (i : Int) ≠ l.length := by omega
      rw [if_neg hne, if_neg hne]
      exact hentry i hlt
    · have heq : (i : Int) = l.length := by omega
      rw [if_pos heq]
      refine ⟨_, rfl, ?_⟩
      rw [hzero a (by simp)]
      rfl

/-- Each entry of the file is stored as tried or counted as lost. -/
theorem blank_tried (l : List CAddrInfo) : ∃ stored lost, stored + lost = l.length ∧
    (l.foldl (loadTried crypto) s).nIdCount = s.nIdCount + (stored : Int) ∧
    (l.foldl (loadTried crypto) s).nTried = s.nTried - Int32.ofNat lost ∧
    (∀ n < s.nIdCount, (l.foldl (loadTried crypto) s).mapInfo[n]? = s.mapInfo[n]?) ∧
    ∀ i < stored, ∃ info,
      (l.foldl (loadTried crypto) s).mapInfo[s.nIdCount + (i : Int)]? = some info ∧
        info.fInTried := by
  induction l using reverseRecOn with
  | nil => exact ⟨0, 0, rfl, by simp, by simp, fun _ _ => rfl, by simp⟩
  | append_singleton l a ih =>
    obtain ⟨stored, lost, hlen, hid, hnTried, hkeep, hentry⟩ := ih
    rw [foldl_append, length_append, length_singleton]
    simp only [foldl_cons, foldl_nil, loadTried]
    split
    · refine ⟨stored + 1, lost, by omega, ?_, hnTried, fun n hn => ?_, fun i hi => ?_⟩
      · push_cast
        omega
      · rw [Inverse.getElem?_insert_eq, if_neg (by omega)]
        exact hkeep n hn
      · rw [Inverse.getElem?_insert_eq]
        rcases Nat.lt_or_ge i stored with hlt | hge
        · rw [if_neg (by omega)]
          exact hentry i hlt
        · rw [if_pos (by omega)]
          exact ⟨_, rfl, rfl⟩
    · refine ⟨stored, lost + 1, by omega, hid, ?_, hkeep, hentry⟩
      rw [hnTried, Int32.ofNat_add, Int32.sub_sub]
      rfl

/-- The tables have the same content. -/
structure SameTables (s s' : CAddrMan) : Prop where
  nKey_eq : s'.nKey = s.nKey
  nIdCount_eq : s'.nIdCount = s.nIdCount
  mapInfo_eq : ∀ n : Int, s'.mapInfo[n]? = s.mapInfo[n]?
  mapAddr_eq : ∀ addr, s'.mapAddr.lookup addr = s.mapAddr.lookup addr
  vRandom_eq : s'.vRandom = s.vRandom
  nTried_eq : s'.nTried = s.nTried
  nNew_eq : s'.nNew = s.nNew
  vvTried_eq : s'.vvTried = s.vvTried
  mem_vvNew_iff : ∀ b (n : Int), n ∈ s'.vvNew b ↔ n ∈ s.vvNew b

/-- The state after: the new entries have the first ids, and behind them are the tried ones. -/
theorem blank_load (s : CAddrMan) : ∃ stored lost, stored + lost = rounds s.nTried ∧
    (s.getSerializeSize crypto).2.nTried = s.nTried - Int32.ofNat lost ∧
    (∀ i < rounds s.nNew, ∃ info,
      (s.getSerializeSize crypto).2.mapInfo[0 + (i : Int)]? = some info ∧ info.nRefCount = 1) ∧
    ∀ i < stored, ∃ info,
      (s.getSerializeSize crypto).2.mapInfo[s.nNew.toInt + (i : Int)]? = some info ∧
        info.fInTried := by
  have hzero : ∀ info ∈ replicate (rounds s.nNew) CAddrInfo.null, info.nRefCount = 0 := by
    intro info hinfo
    rw [eq_of_mem_replicate hinfo]
    rfl
  obtain ⟨hnTried₁, hnew⟩ := blank_new crypto (s := { new s.nKey with nNew := s.nNew, nTried := s.nTried })
    (replicate (rounds s.nNew) CAddrInfo.null) hzero
  obtain ⟨stored, lost, hlen, -, hnTried₂, hkeep, htried⟩ := blank_tried crypto
    (s := { (replicate (rounds s.nNew) CAddrInfo.null).zipIdx.foldl (loadNew crypto true)
      { new s.nKey with nNew := s.nNew, nTried := s.nTried } with nIdCount := s.nNew.toInt })
    (replicate (rounds s.nTried) CAddrInfo.null)
  rw [length_replicate] at hlen hnew
  refine ⟨stored, lost, hlen, hnTried₂.trans (by rw [hnTried₁]), fun i hi => ?_, htried⟩
  -- the ids of the new entries are below the counter from which the tried ones are numbered
  obtain ⟨info, hinfo, hone⟩ := hnew i hi
  have hlt : 0 + (i : Int) < s.nNew.toInt := by
    rw [rounds] at hi
    omega
  refine ⟨info, (hkeep _ hlt).trans ?_, hone⟩
  rw [Int.zero_add]
  exact hinfo

theorem SameTables.counts (h : SameTables s (s.getSerializeSize crypto).2) :
    rounds s.nNew ≤ (s.mapInfo.toList.filter fun item => item.2.nRefCount != 0).length ∧
      rounds s.nTried ≤ (s.mapInfo.toList.filter fun item => item.2.fInTried).length := by
  obtain ⟨stored, lost, hlen, hnTried, hnew, htried⟩ := blank_load crypto s
  simp only [h.mapInfo_eq] at hnew htried
  -- nothing is lost, since the counter is the same
  have hlost : lost = 0 := by
    have hsub : s.nTried - Int32.ofNat lost = s.nTried - 0 := by
      rw [← hnTried, h.nTried_eq, Int32.sub_zero]
    have hint := congrArg Int32.toInt ((Int32.sub_right_inj s.nTried).mp hsub)
    have hmax := s.nTried.toInt_lt
    rw [rounds] at hlen
    rw [Int32.toInt_ofNat_of_lt (by omega)] at hint
    exact Int.ofNat.inj hint
  have hnew' : ∀ i < rounds s.nNew, ∃ info, s.mapInfo[0 + (i : Int)]? = some info ∧
      (info.nRefCount != 0) := by
    intro i hi
    obtain ⟨info, hinfo, hone⟩ := hnew i hi
    exact ⟨info, hinfo, by simp [hone]⟩
  rw [hlost] at hlen
  exact ⟨le_length_filter hnew', hlen ▸ le_length_filter htried⟩

/-- No state is left as it was and has the size that is returned. -/
theorem getSerializeSize_not_transparent (s : CAddrMan) :
    ¬(SameTables s (s.getSerializeSize crypto).2 ∧
      (s.getSerializeSize crypto).1.toNat = s.serialize.length) := by
  rintro ⟨hsame, hsize⟩
  obtain ⟨hnew, htried⟩ := hsame.counts crypto
  have hwritten : rounds s.nNew ≤ s.toData.vInfoNew.length := by
    rcases lt_or_ge s.nNew.toInt 0 with hneg | hpos
    · rw [rounds, Int.toNat_of_nonpos hneg.le]
      exact Nat.zero_le _
    · show _ ≤ (writeNew ..).1.length
      rw [writeNew_fst ((Int.zero_add _).trans (Int.toNat_of_nonneg hpos)), length_take, length_map]
      exact le_min le_rfl hnew
  have hwritten' : rounds s.nTried ≤ s.toData.vInfoTried.length := by
    rcases lt_or_ge s.nTried.toInt 0 with hneg | hpos
    · rw [rounds, Int.toNat_of_nonpos hneg.le]
      exact Nat.zero_le _
    · show _ ≤ (writeTried ..).length
      rw [writeTried_eq ((Int.zero_add _).trans (Int.toNat_of_nonneg hpos)), length_take, length_map]
      exact le_min le_rfl htried
  have hbuckets := le_length_flatMap_indices s.toData.vvIndex
  have hcount : s.toData.vvIndex.length = 256 := by simp [toData]
  have hle : (s.getSerializeSize crypto).1.toNat ≤ s.sizeData.serialize.length := by
    exact Nat.mod_le _ _
  rw [hsize, serialize, AddrManData.length_serialize, AddrManData.length_serialize] at hle
  simp only [sizeData, length_replicate, flatMap_nil, length_nil] at hle
  have hkey : s.toData.nKey = s.nKey := rfl
  rw [hkey] at hle
  omega

/-- The call makes the two entries of a consistent state anew and forgets their addresses; the size
is that of half the file. -/
theorem getSerializeSize_pair : pair.check_ = .ok () ∧
    pair.mapAddr.lookup (crowdInfo 1).toCNetAddr = some 1 ∧
    (pair.getSerializeSize sameBucket).2.mapAddr.lookup (crowdInfo 1).toCNetAddr = none ∧
    (pair.getSerializeSize sameBucket).1 = 138 ∧ pair.serialize.length = 1162 := by
  decide +kernel

end CAddrMan

end NovaCoin
