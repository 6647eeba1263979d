import NovaCoin.AddrMan
import NovaCoin.Infra.Buckets

/-!
# What `Check_` accepts

`Check_` takes the ids of the buckets one by one out of `setTried` and `mapNew`, and both have to be
empty in the end. So it compares, for each id, how often it is in the buckets with what its entry
says (`check_eq_ok_iff`).
-/

namespace NovaCoin

open List

open Guard (require forAll foldAll require_bind_eq_ok bind_eq_ok)
open Std (TreeSet TreeMap)
open Buckets (total)

namespace CAddrMan

def refs (s : CAddrMan) (n : Int) : Nat := total (fun t : TreeSet Int => if n ∈ t then 1 else 0) s.vvNew

def places (s : CAddrMan) (n : Int) : Nat := total (List.count n) s.vvTried

/-- An entry with so many references, and so often in the tried buckets. -/
structure InfoOk (refs places : Nat) (info : CAddrInfo) : Prop where
  nRefCount_eq : info.nRefCount = refs
  kind : info.fInTried = true ∧ refs = 0 ∧ places = 1 ∧ info.nLastSuccess ≠ 0 ∨
    info.fInTried = false ∧ 1 ≤ refs ∧ refs ≤ 4 ∧ places = 0
  nLastTry_nonneg : 0 ≤ info.nLastTry
  nLastSuccess_nonneg : 0 ≤ info.nLastSuccess

/-- What an id may have: nothing, if it has no entry. -/
def EntryOk (refs places : Nat) : Option CAddrInfo → Prop
  | none => refs = 0 ∧ places = 0
  | some info => InfoOk refs places info

/-- What `Check_` accepts. -/
structure Checked (s : CAddrMan) : Prop where
  entry : ∀ n : Int, EntryOk (s.refs n) (s.places n) s.mapInfo[n]?
  addr : ∀ (n : Int) info, s.mapInfo[n]? = some info → (s.mapAddr.lookup info.toCNetAddr).getD 0 = n
  random : ∀ (n : Int) info, s.mapInfo[n]? = some info →
    0 ≤ info.nRandomPos ∧ s.vRandom[info.nRandomPos.toNat]? = some n
  length_vRandom : (s.vRandom.length : Int) = s.nTried.toInt + s.nNew.toInt
  nTried_eq : ((s.mapInfo.toList.filter fun item => item.2.fInTried).length : Int) = s.nTried.toInt
  nNew_eq : ((s.mapInfo.toList.filter fun item => !item.2.fInTried).length : Int) = s.nNew.toInt

variable {s : CAddrMan}

/-! ## `setTried` and `mapNew` -/

variable {n : Int} {info : CAddrInfo}

theorem mem_toList : (n, info) ∈ s.mapInfo.toList ↔ s.mapInfo[n]? = some info :=
  TreeMap.mem_toList_iff_getElem?_eq_some

theorem mem_setTried :
    n ∈ s.setTried ↔ ∃ info, s.mapInfo[n]? = some info ∧ info.fInTried := by
  rw [setTried, TreeSet.mem_ofList, contains_iff_mem, mem_map]
  constructor
  · rintro ⟨⟨k, info⟩, hitem, rfl⟩
    obtain ⟨hmem, htried⟩ := mem_filter.mp hitem
    exact ⟨info, mem_toList.mp hmem, htried⟩
  · rintro ⟨info, hinfo, htried⟩
    exact ⟨(n, info), mem_filter.mpr ⟨mem_toList.mpr hinfo, htried⟩, rfl⟩

theorem size_setTried :
    s.setTried.size = (s.mapInfo.toList.filter fun item => item.2.fInTried).length := by
  rw [setTried, TreeSet.size_ofList, length_map]
  rw [pairwise_map]
  exact TreeMap.distinct_keys_toList.sublist filter_sublist

theorem distinct_mapNew : List.Pairwise (fun a b : Int × Int => ¬compare a.1 b.1 = .eq)
    ((s.mapInfo.toList.filter fun item => !item.2.fInTried).map fun item =>
      (item.1, item.2.nRefCount)) := by
  rw [pairwise_map]
  exact TreeMap.distinct_keys_toList.sublist filter_sublist

theorem size_mapNew :
    s.mapNew.size = (s.mapInfo.toList.filter fun item => !item.2.fInTried).length := by
  rw [mapNew, TreeMap.size_ofList distinct_mapNew, length_map]

theorem getElem?_mapNew :
    s.mapNew[n]? = (s.mapInfo[n]?.filter fun info => !info.fInTried).map (·.nRefCount) := by
  cases hinfo : s.mapInfo[n]?.filter fun info => !info.fInTried with
  | some info =>
    obtain ⟨hget, hnot⟩ := Option.filter_eq_some_iff.mp hinfo
    refine TreeMap.getElem?_ofList_of_mem (k := n) Std.ReflCmp.compare_self distinct_mapNew ?_
    exact mem_map.mpr ⟨(n, info), mem_filter.mpr ⟨mem_toList.mpr hget, hnot⟩, rfl⟩
  | none =>
    refine TreeMap.getElem?_ofList_of_contains_eq_false ?_
    rw [← Bool.not_eq_true, contains_iff_mem, map_map, mem_map]
    rintro ⟨⟨k, info⟩, hitem, rfl⟩
    obtain ⟨hmem, hnot⟩ := mem_filter.mp hitem
    have hsome : (s.mapInfo[k]?.filter fun info => !info.fInTried) = some info :=
      Option.filter_eq_some_iff.mpr ⟨mem_toList.mp hmem, hnot⟩
    cases hinfo.symm.trans hsome

/-! ## The loops over the buckets -/

theorem checkTried_eq_ok {set set' : TreeSet Int} :
    checkTried set n = .ok set' ↔ n ∈ set ∧ set.erase n = set' := by
  rw [checkTried, require_bind_eq_ok]
  simp [pure, Except.pure]

/-- Taking the ids out succeeds and leaves nothing if the set has exactly these ids, once each. -/
theorem checkTried_all (ids : List Int) : ∀ set : TreeSet Int,
    (∃ set', foldAll checkTried set ids = .ok set' ∧ set'.isEmpty) ↔
      ∀ n, ids.count n = if n ∈ set then 1 else 0 := by
  induction ids with
  | nil =>
    intro set
    simp only [Guard.foldAll_nil, Except.ok.injEq, exists_eq_left', count_nil,
      TreeSet.isEmpty_iff_forall_not_mem]
    refine forall_congr' fun n => ?_
    split <;> simp_all
  | cons a ids ih =>
    intro set
    by_cases ha : a ∈ set
    · have hcons : (∃ set', foldAll checkTried set (a :: ids) = .ok set' ∧ set'.isEmpty) ↔
          ∃ set', foldAll checkTried (set.erase a) ids = .ok set' ∧ set'.isEmpty := by
        simp [Guard.foldAll_cons_eq_ok, checkTried_eq_ok, ha]
      rw [hcons, ih]
      refine forall_congr' fun n => ?_
      rcases eq_or_ne n a with rfl | hne
      · simp [TreeSet.mem_erase, ha]
      · simp [TreeSet.mem_erase, hne.symm]
    · constructor
      · rintro ⟨set', hfold, -⟩
        obtain ⟨set₁, hstep, -⟩ := Guard.foldAll_cons_eq_ok.mp hfold
        exact absurd (checkTried_eq_ok.mp hstep).1 ha
      · intro hcount
        have hzero := hcount a
        rw [if_neg ha, count_cons_self] at hzero
        omega

theorem checkNew_eq_ok {m m' : TreeMap Int Int} :
    checkNew m n = .ok m' ↔ ∃ r, m[n]? = some r ∧
      (if r - 1 = 0 then m.erase n else m.insert n (r - 1)) = m' := by
  unfold checkNew
  cases m[n]? with
  | none => simp
  | some r => simp

theorem getD_after_checkNew (m : TreeMap Int Int) {a r : Int} (n : Int) :
    ((if r - 1 = 0 then m.erase a else m.insert a (r - 1))[n]?).getD 0 =
      if n = a then r - 1 else (m[n]?).getD 0 := by
  rcases eq_or_ne n a with rfl | hne
  · split
    · next hzero => simp [hzero]
    · simp
  · split
    · simp [TreeMap.getElem?_erase, hne.symm]
    · simp [TreeMap.getElem?_insert, hne.symm]

/-- Each id met lowers its count, and one at 0 is erased: none is left exactly if all counts agree.
-/
theorem checkNew_all (ids : List Int) : ∀ m : TreeMap Int Int,
    (∀ (n : Int) r, m[n]? = some r → 0 < r) →
    ((∃ m', foldAll checkNew m ids = .ok m' ∧ m'.isEmpty) ↔
      ∀ n : Int, (ids.count n : Int) = (m[n]?).getD 0) := by
  induction ids with
  | nil =>
    intro m hpos
    simp only [Guard.foldAll_nil, Except.ok.injEq, exists_eq_left', count_nil,
      TreeMap.isEmpty_iff_forall_not_mem]
    refine forall_congr' fun n => ?_
    rw [TreeMap.mem_iff_isSome_getElem?]
    cases hn : m[n]? with
    | none => simp
    | some r =>
      have := hpos n r hn
      simp
      omega
  | cons a ids ih =>
    intro m hpos
    cases ha : m[a]? with
    | some r =>
      have hr := hpos a r ha
      have hcons : (∃ m', foldAll checkNew m (a :: ids) = .ok m' ∧ m'.isEmpty) ↔
          ∃ m', foldAll checkNew (if r - 1 = 0 then m.erase a else m.insert a (r - 1)) ids = .ok m' ∧
            m'.isEmpty := by
        simp [Guard.foldAll_cons_eq_ok, checkNew_eq_ok, ha]
      have hpos' : ∀ (n : Int) r', (if r - 1 = 0 then m.erase a else m.insert a (r - 1))[n]? = some r' →
          0 < r' := by
        intro n r' hn
        split at hn
        · rw [TreeMap.getElem?_erase] at hn
          split at hn
          · cases hn
          · exact hpos n r' hn
        · rw [TreeMap.getElem?_insert] at hn
          split at hn
          · cases hn
            omega
          · exact hpos n r' hn
      rw [hcons, ih _ hpos']
      refine forall_congr' fun n => ?_
      rw [getD_after_checkNew]
      rcases eq_or_ne n a with rfl | hne
      · rw [ha]
        simp
        omega
      · simp [hne, hne.symm]
    | none =>
      constructor
      · rintro ⟨m', hfold, -⟩
        obtain ⟨m₁, hstep, -⟩ := Guard.foldAll_cons_eq_ok.mp hfold
        obtain ⟨r, hr, -⟩ := checkNew_eq_ok.mp hstep
        rw [ha] at hr
        cases hr
      · intro hcount
        have hzero := hcount a
        rw [ha] at hzero
        simp at hzero
        omega

theorem count_tried (n : Int) : ((List.finRange 64).flatMap s.vvTried).count n = s.places n :=
  Buckets.count_flatMap_finRange s.vvTried id n

theorem nodup_toList (t : TreeSet Int) : t.toList.Nodup :=
  TreeSet.distinct_toList.imp fun {a b} (hne : ¬compare a b = .eq) (heq : a = b) =>
    hne (heq ▸ Std.ReflCmp.compare_self)

theorem count_new (n : Int) :
    ((List.finRange 256).flatMap fun b => (s.vvNew b).toList).count n = s.refs n := by
  rw [Buckets.count_flatMap_finRange s.vvNew TreeSet.toList n]
  congr 1
  funext t
  rw [(nodup_toList t).count]
  simp only [TreeSet.mem_toList]

/-! ## The entries -/

theorem checkInfo_eq_ok :
    s.checkInfo n info = .ok () ↔
      (info.fInTried ∧ info.nRefCount = 0 ∧ info.nLastSuccess ≠ 0 ∨
        info.fInTried = false ∧ 1 ≤ info.nRefCount ∧ info.nRefCount ≤ 4) ∧
      (s.mapAddr.lookup info.toCNetAddr).getD 0 = n ∧
      (0 ≤ info.nRandomPos ∧ s.vRandom[info.nRandomPos.toNat]? = some n) ∧
      0 ≤ info.nLastTry ∧ 0 ≤ info.nLastSuccess := by
  unfold checkInfo
  cases info.fInTried with
  | true =>
    simp [require_bind_eq_ok]
    tauto
  | false =>
    simp [require_bind_eq_ok]
    rw [← and_assoc]
    refine and_congr_left fun _ => ?_
    omega

theorem check_eq_ok : s.check_ = .ok () ↔ (s.vRandom.length : Int) = s.nTried.toInt + s.nNew.toInt ∧
    (∀ (n : Int) info, s.mapInfo[n]? = some info → s.checkInfo n info = .ok ()) ∧
    (s.setTried.size : Int) = s.nTried.toInt ∧ (s.mapNew.size : Int) = s.nNew.toInt ∧
    (∃ set, foldAll checkTried s.setTried ((List.finRange 64).flatMap s.vvTried) = .ok set ∧
      set.isEmpty) ∧
    ∃ m, foldAll checkNew s.mapNew ((List.finRange 256).flatMap fun b => (s.vvNew b).toList) = .ok m ∧
      m.isEmpty := by
  have hinfo : (∀ item ∈ s.mapInfo.toList, s.checkInfo item.1 item.2 = .ok ()) ↔
      ∀ (n : Int) info, s.mapInfo[n]? = some info → s.checkInfo n info = .ok () := by
    simp only [Prod.forall, mem_toList]
  rw [check_, require_bind_eq_ok, beq_iff_eq]
  simp only [Guard.forAll_eq_ok, hinfo, bind_eq_ok]
  simp only [exists_const, Guard.require_eq_ok, beq_iff_eq]
  constructor
  · rintro ⟨hlen, hall, hT, hN, set, hset, m, hm, hset', hm'⟩
    exact ⟨hlen, hall, hT, hN, ⟨set, hset, hset'⟩, m, hm, hm'⟩
  · rintro ⟨hlen, hall, hT, hN, ⟨set, hset, hset'⟩, m, hm, hm'⟩
    exact ⟨hlen, hall, hT, hN, set, hset, m, hm, hset', hm'⟩

theorem mapNew_pos (h : ∀ (n : Int) info, s.mapInfo[n]? = some info →
    info.fInTried = false → 1 ≤ info.nRefCount) (n : Int) (r : Int) (hr : s.mapNew[n]? = some r) :
    0 < r := by
  rw [getElem?_mapNew] at hr
  obtain ⟨info, hfilter, rfl⟩ := Option.map_eq_some_iff.mp hr
  obtain ⟨hget, hnot⟩ := Option.filter_eq_some_iff.mp hfilter
  exact h n info hget (by simpa using hnot)

/-- `Check_` removes what it meets from its copies of the tables, so it passes exactly if they
match. -/
theorem check_eq_ok_iff : s.check_ = .ok () ↔ s.Checked := by
  rw [check_eq_ok, checkTried_all, size_setTried, size_mapNew]
  simp only [count_tried]
  constructor
  · rintro ⟨hlen, hinfo, hnTried, hnNew, htried, hnew⟩
    have hpos := mapNew_pos fun n info hget hnot => by
      obtain ⟨⟨ht, -⟩ | ⟨-, hlow, -⟩, -⟩ := checkInfo_eq_ok.mp (hinfo n info hget)
      · rw [hnot] at ht
        cases ht
      · exact hlow
    rw [checkNew_all _ _ hpos] at hnew
    simp only [count_new, getElem?_mapNew] at hnew
    refine ⟨fun n => ?_, fun n info hget => ?_, fun n info hget => ?_, hlen, hnTried, hnNew⟩
    · have htn := htried n
      have hnn := hnew n
      simp only [mem_setTried] at htn
      cases hget : s.mapInfo[n]? with
      | none =>
        simp only [hget, reduceCtorEq, false_and, exists_false, if_false] at htn
        simp only [hget, Option.filter_none, Option.map_none, Option.getD_none] at hnn
        exact ⟨by omega, htn⟩
      | some info =>
        obtain ⟨hkind, -, -, htry, hsucc⟩ := checkInfo_eq_ok.mp (hinfo n info hget)
        simp only [hget, Option.some.injEq, exists_eq_left'] at htn
        simp only [hget] at hnn
        rcases hkind with ⟨ht, hzero, hne⟩ | ⟨ht, hlow, hhigh⟩
        · simp [Option.filter, ht] at htn hnn
          exact ⟨by omega, .inl ⟨ht, hnn, htn, hne⟩, htry, hsucc⟩
        · simp [Option.filter, ht] at htn hnn
          exact ⟨by omega, .inr ⟨ht, by omega, by omega, htn⟩, htry, hsucc⟩
    · exact (checkInfo_eq_ok.mp (hinfo n info hget)).2.1
    · exact (checkInfo_eq_ok.mp (hinfo n info hget)).2.2.1
  · intro h
    have hok : ∀ (n : Int) info, s.mapInfo[n]? = some info → InfoOk (s.refs n) (s.places n) info := by
      intro n info hget
      have hentry := h.entry n
      rwa [hget] at hentry
    have hpos := mapNew_pos fun n info hget hnot => by
      obtain ⟨ht, -⟩ | ⟨-, hlow, -⟩ := (hok n info hget).kind
      · rw [hnot] at ht
        cases ht
      · have := (hok n info hget).nRefCount_eq
        omega
    rw [checkNew_all _ _ hpos]
    simp only [count_new, getElem?_mapNew, mem_setTried]
    refine ⟨h.length_vRandom, fun n info hget => ?_, h.nTried_eq, h.nNew_eq, fun n => ?_, fun n => ?_⟩
    · have hi := hok n info hget
      have hcount := hi.nRefCount_eq
      refine checkInfo_eq_ok.mpr ⟨?_, h.addr n info hget, h.random n info hget, hi.nLastTry_nonneg,
        hi.nLastSuccess_nonneg⟩
      rcases hi.kind with ⟨ht, hzero, -, hne⟩ | ⟨ht, hlow, hhigh, -⟩
      · exact .inl ⟨ht, by omega, hne⟩
      · exact .inr ⟨ht, by omega, by omega⟩
    · have hentry := h.entry n
      cases hget : s.mapInfo[n]? with
      | none =>
        rw [hget] at hentry
        simp [hentry.2]
      | some info =>
        rcases (hok n info hget).kind with ⟨ht, -, hp, -⟩ | ⟨ht, -, -, hp⟩ <;> simp [ht, hp]
    · have hentry := h.entry n
      cases hget : s.mapInfo[n]? with
      | none =>
        rw [hget] at hentry
        simp [hentry.1]
      | some info =>
        have hcount := (hok n info hget).nRefCount_eq
        rcases (hok n info hget).kind with ⟨ht, hr, -⟩ | ⟨ht, -⟩
        · simp [Option.filter, ht, hr]
        · simp [Option.filter, ht, hcount]

end CAddrMan

end NovaCoin
