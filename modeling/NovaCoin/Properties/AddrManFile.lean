import NovaCoin.AddrMan
import NovaCoin.Properties.AddrMan

/-!
# The address manager survives a restart

What is written is read back. The ids of the new state are the places in the order of writing; up to
this renumbering the entries, the tried buckets and the new buckets are the same.
-/

namespace NovaCoin

open List

open Function (update)
open Std (TreeMap TreeSet)
open Wire (ByteStream Reader Reads)
open Buckets (total)

/-! ## The bytes -/

section Format

variable {σ : Type} [ByteStream σ] {n : Nat}

theorem CNetAddr.reads (addr : CNetAddr) :
    Reads (σ := σ) CNetAddr.unserialize addr.ip addr := by
  have htake := Reads.take (σ := σ) addr.ip
  rw [addr.length_ip] at htake
  rw [← append_nil addr.ip]
  refine htake.bind ?_
  rw [dif_pos addr.length_ip]
  exact Reads.pure addr

theorem byteSwap_lt (h : n < 2 ^ 16) : byteSwap n < 256 ^ 2 := by
  unfold byteSwap
  omega

theorem byteSwap_byteSwap (h : n < 2 ^ 16) : byteSwap (byteSwap n) = n := by
  unfold byteSwap
  omega

theorem CAddrInfo.reads (info : CAddrInfo) :
    Reads (σ := σ) CAddrInfo.unserialize info.serialize info.stored := by
  have hport := reads_le (σ := σ) (w := 2) (byteSwap_lt info.port.toNat_lt)
  have hversion := reads_int32 (σ := σ) 0
  unfold CAddrInfo.serialize
  simp only [append_assoc]
  refine hversion.bind ((reads_uint32 info.nTime).bind ((reads_uint64 info.nServices).bind
    (info.toCNetAddr.reads.bind (hport.bind (info.source.reads.bind
    ((reads_int64 info.nLastSuccess).bind ?_))))))
  rw [byteSwap_byteSwap info.port.toNat_lt, UInt16.ofNat_toNat]
  exact (reads_int32 (σ := σ) info.nAttempts).map fun nAttempts => { info.stored with nAttempts }

/-- The counts that the loops go by are those of the lists. -/
structure AddrManData.Sized (d : AddrManData) : Prop where
  nKey_le : d.nKey.length ≤ MAX_SIZE
  nNew_eq : rounds d.nNew = d.vInfoNew.length
  nTried_eq : rounds d.nTried = d.vInfoTried.length
  nUBuckets_eq : rounds d.nUBuckets = d.vvIndex.length
  vvIndex_le : d.vvIndex.length ≤ 256
  vIndex_lt : ∀ v ∈ d.vvIndex, v.length < 2 ^ 31

theorem reads_infos (v : List CAddrInfo) :
    Reads (σ := σ) (Wire.many CAddrInfo.unserialize v.length) (v.flatMap CAddrInfo.serialize)
      (v.map CAddrInfo.stored) := by
  have hread : ∀ info ∈ v.map CAddrInfo.stored,
      Reads (σ := σ) CAddrInfo.unserialize info.serialize info := by
    intro info hinfo
    obtain ⟨i, -, rfl⟩ := mem_map.mp hinfo
    exact i.stored.reads
  have hmany := Reads.many hread
  rwa [length_map, flatMap_map] at hmany

theorem reads_indices {v : List Int32} (h : v.length < 2 ^ 31) :
    Reads (σ := σ) AddrManData.readIndices (serializeIndices v) v := by
  have hsize : AddrManData.rounds (Int32.ofNat v.length) = v.length := by
    rw [AddrManData.rounds, Int32.toInt_ofNat_of_lt h, Int.toNat_natCast]
  refine (reads_int32 (Int32.ofNat v.length)).bind ?_
  rw [hsize]
  exact Reads.many fun n _ => reads_int32 n

/-- What is written is read back, except for the fields that are in memory only. -/
theorem AddrManData.reads {d : AddrManData} (h : d.Sized) :
    Reads (σ := σ) AddrManData.unserialize d.serialize { d with
      vInfoNew := d.vInfoNew.map CAddrInfo.stored
      vInfoTried := d.vInfoTried.map CAddrInfo.stored } := by
  have hversion := reads_le (σ := σ) (w := 1) (n := 0) (by decide)
  have hindices : Reads (σ := σ) (Wire.many AddrManData.readIndices d.vvIndex.length)
      (d.vvIndex.flatMap serializeIndices) d.vvIndex :=
    Reads.many fun v hv => reads_indices (h.vIndex_lt v hv)
  unfold AddrManData.serialize
  simp only [append_assoc]
  refine hversion.bind ((reads_bytes h.nKey_le).bind ((reads_int32 d.nNew).bind
    ((reads_int32 d.nTried).bind ((reads_int32 d.nUBuckets).bind ?_))))
  rw [h.nNew_eq, h.nTried_eq, h.nUBuckets_eq]
  refine (reads_infos d.vInfoNew).bind ((reads_infos d.vInfoTried).bind ?_)
  rw [if_neg (Nat.not_lt.mpr h.vvIndex_le)]
  exact hindices.map fun vvIndex => { d with
    vInfoNew := d.vInfoNew.map CAddrInfo.stored, vInfoTried := d.vInfoTried.map CAddrInfo.stored,
    vvIndex }

end Format

namespace CAddrMan

variable {s : CAddrMan}

/-! ## What is written -/

def newItems (s : CAddrMan) : List (Int × CAddrInfo) :=
  s.mapInfo.toList.filter fun item => !item.2.fInTried

def triedItems (s : CAddrMan) : List (Int × CAddrInfo) :=
  s.mapInfo.toList.filter fun item => item.2.fInTried

/-- The entries in the order in which they are written. -/
def order (s : CAddrMan) : List (Int × CAddrInfo) := s.newItems ++ s.triedItems

/-- The id of an entry after the restart. -/
def newId (s : CAddrMan) (n : Int) : Int := (s.order.map Prod.fst).idxOf n

variable {n n' : Int} {info info' a : CAddrInfo} {all : List CAddrInfo} {b : Fin 64}
  {crypto : Crypto} {i : Nat} {item : Int × CAddrInfo}

theorem mem_order : (n, info) ∈ s.order ↔ s.mapInfo[n]? = some info := by
  rw [order, mem_append, newItems, triedItems, mem_filter, mem_filter]
  cases info.fInTried <;> simp

theorem nodup_order (s : CAddrMan) : (s.order.map Prod.fst).Nodup := by
  have hperm : s.order.Perm s.mapInfo.toList := by
    have hsplit := filter_append_perm (fun item : Int × CAddrInfo => !item.2.fInTried)
      s.mapInfo.toList
    simp only [Bool.not_not] at hsplit
    exact hsplit
  exact (hperm.map Prod.fst).nodup_iff.mpr (nodup_keys s)

theorem newId_eq (h : s.order[i]? = some item) :
    s.newId item.1 = i := by
  obtain ⟨hlt, rfl⟩ := List.getElem?_eq_some_iff.mp h
  have hlt' : i < (s.order.map Prod.fst).length := by rwa [length_map]
  have hidx := (nodup_order s).idxOf_getElem i hlt'
  rw [getElem_map] at hidx
  rw [newId, hidx]

theorem exists_getElem?_order (h : s.mapInfo[n]? = some info) :
    ∃ i : Nat, s.order[i]? = some (n, info) ∧ s.newId n = i := by
  obtain ⟨i, hi⟩ := mem_iff_getElem?.mp (mem_order.mpr h)
  exact ⟨i, hi, newId_eq hi⟩

theorem newId_injective (h : s.mapInfo[n]? = some info) (h' : s.mapInfo[n']? = some info')
    (heq : s.newId n = s.newId n') : n = n' := by
  obtain ⟨i, hi, hid⟩ := exists_getElem?_order h
  obtain ⟨i', hi', hid'⟩ := exists_getElem?_order h'
  have hii : i = i' := by omega
  rw [hii, hi'] at hi
  cases hi
  rfl

/-- Other ids keep what `mapUnkIds` says about them. -/
theorem writeNew_of_not_mem (nNew : Int) :
    ∀ {l : List (Int × CAddrInfo)} {nIds : Int} {m : TreeMap Int Int}, n ∉ l.map Prod.fst →
      (writeNew nNew l nIds m).2[n]? = m[n]?
  | [], _, _, _ => rfl
  | (k, info) :: l, nIds, m, h => by
    rw [map_cons, mem_cons, not_or] at h
    have hinsert : (m.insert k nIds)[n]? = m[n]? := by
      rw [Inverse.getElem?_insert_eq, if_neg h.1]
    unfold writeNew
    split
    · rfl
    · split
      · exact (writeNew_of_not_mem nNew h.2).trans hinsert
      · exact (writeNew_of_not_mem nNew h.2).trans hinsert

section

variable {l : List (Int × CAddrInfo)} {nIds nMax : Int} {m : TreeMap Int Int} {k : Nat}

theorem writeNew_fst (h : nIds + k = nMax) : (writeNew nMax l nIds m).1 =
    ((l.filter fun item => item.2.nRefCount != 0).map Prod.snd).take k := by
  induction l generalizing nIds m k with
  | nil => simp [writeNew]
  | cons item l ih =>
    unfold writeNew
    split
    · rw [show k = 0 by omega, take_zero]
    · split
      · next hnew =>
        obtain ⟨j, rfl⟩ : ∃ j, k = j + 1 := ⟨k - 1, by omega⟩
        have hrest : nIds + 1 + (j : Int) = nMax := by omega
        simp [hnew, ih hrest]
      · next hnew => simp [not_not.mp hnew, ih h]

/-- `mapUnkIds` has the places of the entries that are written. -/
theorem writeNew_snd (h : nIds + k = nMax) (hnodup : (l.map Prod.fst).Nodup) (hi : i < k)
    (hitem : (l.filter fun item => item.2.nRefCount != 0)[i]? = some item) :
    (writeNew nMax l nIds m).2[item.1]? = some (nIds + i) := by
  induction l generalizing nIds m k i with
  | nil => cases hitem
  | cons first l ih =>
    rw [map_cons, nodup_cons] at hnodup
    unfold writeNew
    rw [if_neg (by omega)]
    split
    · next hnew =>
      rw [filter_cons_of_pos (by simpa using hnew)] at hitem
      cases i with
      | zero =>
        cases hitem
        have hkeep : (writeNew nMax l (nIds + 1) (m.insert item.1 nIds)).2[item.1]? =
            (m.insert item.1 nIds)[item.1]? := writeNew_of_not_mem nMax hnodup.1
        simpa using hkeep
      | succ i =>
        have hnext : nIds + 1 + (k - 1 : Nat) = nMax := by omega
        have hi' : i < k - 1 := by omega
        rw [ih hnext hnodup.2 hi' hitem]
        congr 1
        omega
    · next hnew =>
      rw [filter_cons_of_neg (by simpa using hnew)] at hitem
      exact ih h hnodup.2 hi hitem

theorem writeTried_eq (h : nIds + k = nMax) : writeTried nMax l nIds =
    ((l.filter fun item => item.2.fInTried).map Prod.snd).take k := by
  induction l generalizing nIds k with
  | nil => simp [writeTried]
  | cons item l ih =>
    unfold writeTried
    split
    · rw [show k = 0 by omega, take_zero]
    · split
      · next htried =>
        obtain ⟨j, rfl⟩ : ∃ j, k = j + 1 := ⟨k - 1, by omega⟩
        have hrest : nIds + 1 + (j : Int) = nMax := by omega
        simp [htried, ih hrest]
      · next htried => simp [htried, ih h]

end

theorem Checked.filter_new (h : s.Checked) :
    (s.mapInfo.toList.filter fun item => item.2.nRefCount != 0) = s.newItems := by
  refine filter_congr fun item hitem => ?_
  have hentry := h.entry item.1
  rw [mem_toList.mp hitem] at hentry
  have hcount := hentry.nRefCount_eq
  rcases hentry.kind with ⟨ht, hr, -⟩ | ⟨ht, hr, -⟩
  · simp [ht, hcount, hr]
  · have hne : item.2.nRefCount ≠ 0 := by omega
    simp [ht, hne]

theorem Checked.exists_of_mem_new (h : s.Checked) {b : Fin 256} (hn : n ∈ s.vvNew b) :
    ∃ info, s.mapInfo[n]? = some info ∧ info.fInTried = false := by
  have hone := one_le_refs hn
  have hentry := h.entry n
  cases hinfo : s.mapInfo[n]? with
  | none =>
    rw [hinfo] at hentry
    have := hentry.1
    omega
  | some info =>
    rw [hinfo] at hentry
    rcases hentry.kind with ⟨-, hr, -⟩ | ⟨ht, -⟩
    · omega
    · exact ⟨info, rfl, ht⟩

theorem Checked.exists_place_new (h : s.Checked) {b : Fin 256} (hn : n ∈ s.vvNew b) :
    ∃ (i : Nat) (info : CAddrInfo), s.newItems[i]? = some (n, info) ∧ s.newId n = i := by
  obtain ⟨info, hinfo, hnot⟩ := h.exists_of_mem_new hn
  have hmem : (n, info) ∈ s.newItems := mem_filter.mpr ⟨mem_toList.mpr hinfo, by simp [hnot]⟩
  obtain ⟨i, hi⟩ := mem_iff_getElem?.mp hmem
  have horder : s.order[i]? = some (n, info) := by
    rw [order, getElem?_append_left (List.getElem?_eq_some_iff.mp hi).1, hi]
  exact ⟨i, info, hi, newId_eq horder⟩

/-- The counters match the tables, so the file has all entries, numbered in their order. -/
theorem Checked.toData_eq (h : s.Checked) : s.toData =
    { nKey := s.nKey, nNew := s.nNew, nTried := s.nTried, nUBuckets := 256,
      vInfoNew := s.newItems.map Prod.snd, vInfoTried := s.triedItems.map Prod.snd,
      vvIndex := (List.finRange 256).map fun b =>
        (s.vvNew b).toList.map fun n => Int32.ofInt (s.newId n) } := by
  have hstart : 0 + ((s.newItems.length : Nat) : Int) = s.nNew.toInt :=
    (Int.zero_add _).trans h.nNew_eq
  have hwritten : (writeNew s.nNew.toInt s.mapInfo.toList 0 ∅).1 = s.newItems.map Prod.snd := by
    rw [writeNew_fst hstart, h.filter_new, take_of_length_le (length_map _).le]
  have htried : writeTried s.nTried.toInt s.mapInfo.toList 0 = s.triedItems.map Prod.snd := by
    rw [writeTried_eq ((Int.zero_add _).trans h.nTried_eq), take_of_length_le (length_map _).le]
    rfl
  rw [AddrManData.mk.injEq]
  refine ⟨rfl, rfl, rfl, rfl, hwritten, htried, ?_⟩
  refine map_congr_left fun b _ => map_congr_left fun n hn => ?_
  -- an id of a new bucket is the one of a new entry
  obtain ⟨i, info, hi, hid⟩ := h.exists_place_new (TreeSet.mem_toList.mp hn)
  have hget : (writeNew s.nNew.toInt s.mapInfo.toList 0 ∅).2[n]? = some (0 + (i : Int)) :=
    writeNew_snd hstart (nodup_keys s) (List.getElem?_eq_some_iff.mp hi).1
      ((congrArg (·[i]?) h.filter_new).trans hi)
  rw [TreeMap.getD_eq_getD_getElem?, hget, hid]
  simp

/-! ## What is loaded -/

/-- The entry of an id, if the ids are the places in a list. -/
def entryAt (all : List CAddrInfo) (n : Int) : Option CAddrInfo :=
  if 0 ≤ n then all[n.toNat]?.map (CAddrInfo.moveTo n) else none

theorem entryAt_natCast (all : List CAddrInfo) (i : Nat) :
    entryAt all i = all[i]?.map (CAddrInfo.moveTo i) := by
  rw [entryAt, if_pos (Int.natCast_nonneg i), Int.toNat_natCast]

theorem exists_of_entryAt (h : entryAt all n = some info) :
    ∃ (i : Nat) (a : CAddrInfo), n = i ∧ all[i]? = some a ∧
      info = a.moveTo i := by
  unfold entryAt at h
  split at h
  · next hpos =>
    obtain ⟨a, ha, rfl⟩ := Option.map_eq_some_iff.mp h
    have hn : n = (n.toNat : Int) := by omega
    exact ⟨n.toNat, a, hn, ha, by rw [← hn]⟩
  · cases h

theorem entryAt_push (all : List CAddrInfo) (a : CAddrInfo) (n : Int) :
    entryAt (all ++ [a]) n =
      if n = all.length then some (a.moveTo all.length) else entryAt all n := by
  split
  · next heq =>
    rw [heq, entryAt_natCast]
    simp
  · next hne =>
    unfold entryAt
    split
    · congr 1
      rcases Nat.lt_or_ge n.toNat all.length with hlt | hge
      · rw [getElem?_append_left hlt]
      · rw [getElem?_eq_none hge, getElem?_eq_none (by simp; omega)]
    · rfl

/-- The entries are those of a list, with their places as ids, and the indices fit. -/
structure Loaded (all : List CAddrInfo) (s : CAddrMan) : Prop where
  entry : ∀ n : Int, s.mapInfo[n]? = entryAt all n
  length_vRandom : s.vRandom.length = all.length
  random : Inverse (s.vRandom[·]?) (Inverse.column s.mapInfo (·.nRandomPos.toNat))
  addr : Inverse s.mapAddr.lookup (Inverse.column s.mapInfo (·.toCNetAddr))

theorem Loaded.push (h : Loaded all s) (hfresh : ∀ b ∈ all, b.toCNetAddr ≠ a.toCNetAddr)
    {s' : CAddrMan} (hm : s'.mapInfo = s.mapInfo.insert all.length (a.moveTo all.length))
    (ha : s'.mapAddr = s.mapAddr.insert a.toCNetAddr all.length)
    (hv : s'.vRandom = s.vRandom ++ [(all.length : Int)]) : Loaded (all ++ [a]) s' := by
  have hnone : s.mapInfo[(all.length : Int)]? = none := by
    rw [h.entry, entryAt_natCast, getElem?_eq_none (Nat.le_refl _)]
    rfl
  refine ⟨fun n => ?_, ?_, ?_, ?_⟩
  · rw [hm, Inverse.getElem?_insert_eq, entryAt_push, h.entry]
  · rw [hv, length_append, length_append, h.length_vRandom]
    rfl
  · rw [hm, hv, Inverse.column_insert, Inverse.getElem?_push, h.length_vRandom]
    refine h.random.insert ?_ (Inverse.column_of_none hnone _)
    exact getElem?_eq_none h.length_vRandom.le
  · have halist := Inverse.alist_insert s.mapAddr a.toCNetAddr (all.length : Int)
    rw [hm, ha, Inverse.column_insert]
    simp only [congrFun halist]
    refine h.addr.insert ?_ (Inverse.column_of_none hnone _)
    cases hlook : s.mapAddr.lookup a.toCNetAddr with
    | none => rfl
    | some n =>
      obtain ⟨info, hinfo, haddr⟩ := Inverse.column_eq_some.mp ((h.addr _ n).mp hlook)
      obtain ⟨i, b, -, hb, rfl⟩ := exists_of_entryAt ((h.entry n).symm.trans hinfo)
      exact absurd haddr (hfresh b (mem_of_getElem? hb))

def DistinctAddrs (all : List CAddrInfo) : Prop := (all.map (·.toCNetAddr)).Nodup

theorem DistinctAddrs.fresh {rest : List CAddrInfo} (h : DistinctAddrs (all ++ a :: rest)) :
    ∀ b ∈ all, b.toCNetAddr ≠ a.toCNetAddr := by
  rw [DistinctAddrs, map_append, nodup_append] at h
  intro b hb
  exact h.2.2 _ (mem_map_of_mem hb) _ mem_cons_self

theorem loaded_new (crypto : Crypto) : ∀ {rest all : List CAddrInfo} {s : CAddrMan}, Loaded all s →
    DistinctAddrs (all ++ rest) →
    ∃ m a v, (rest.zipIdx all.length).foldl (loadNew crypto false) s =
        { s with mapInfo := m, mapAddr := a, vRandom := v } ∧
      Loaded (all ++ rest) { s with mapInfo := m, mapAddr := a, vRandom := v }
  | [], all, s, h, _ => ⟨s.mapInfo, s.mapAddr, s.vRandom, rfl, by rwa [append_nil]⟩
  | info :: rest, all, s, h, hdistinct => by
    have hstep : Loaded (all ++ [info]) (loadNew crypto false s (info, all.length)) :=
      h.push hdistinct.fresh (by rw [← h.length_vRandom]; rfl) rfl rfl
    rw [append_cons] at hdistinct
    obtain ⟨m, a, v, hfold, hloaded⟩ := loaded_new crypto hstep hdistinct
    rw [length_append] at hfold
    rw [← append_cons] at hloaded
    exact ⟨m, a, v, hfold, hloaded⟩

def markTried (info : CAddrInfo) : CAddrInfo := { info with fInTried := true }

/-- The ids of the tried entries, from `k` on, that a bucket gets. -/
def bucketIds (crypto : Crypto) (nKey : List UInt8) (tried : List CAddrInfo) (k : Nat) (b : Fin 64) :
    List Int :=
  ((tried.zipIdx k).filter fun item => decide (item.1.getTriedBucket crypto nKey = b)).map
    fun item => (item.2 : Int)

theorem bucketIds_cons (crypto : Crypto) (nKey : List UInt8) (info : CAddrInfo)
    (tried : List CAddrInfo) (k : Nat) (b : Fin 64) :
    bucketIds crypto nKey (info :: tried) k b =
      if info.getTriedBucket crypto nKey = b then (k : Int) :: bucketIds crypto nKey tried (k + 1) b
      else bucketIds crypto nKey tried (k + 1) b := by
  unfold bucketIds
  rw [zipIdx_cons, filter_cons]
  by_cases hb : info.getTriedBucket crypto nKey = b
  · rw [if_pos hb, if_pos (decide_eq_true hb), map_cons]
  · rw [if_neg hb, if_neg (by simpa using hb)]

/-- Nothing is lost if every bucket has place for its entries. -/
theorem loaded_tried (crypto : Crypto) : ∀ {tried all : List CAddrInfo} {s : CAddrMan}, Loaded all s →
    s.nIdCount = all.length → DistinctAddrs (all ++ tried) →
    (∀ b, (s.vvTried b).length + (bucketIds crypto s.nKey tried all.length b).length ≤ 64) →
    ∃ m a v, tried.foldl (loadTried crypto) s = { s with
        mapInfo := m, mapAddr := a, vRandom := v, nIdCount := all.length + tried.length,
        vvTried := fun b => s.vvTried b ++ bucketIds crypto s.nKey tried all.length b } ∧
      Loaded (all ++ tried.map markTried) { s with mapInfo := m, mapAddr := a, vRandom := v }
  | [], all, s, h, hid, _, _ => by
    refine ⟨s.mapInfo, s.mapAddr, s.vRandom, ?_, by rwa [map_nil, append_nil]⟩
    simp [bucketIds, ← hid]
  | info :: tried, all, s, h, hid, hdistinct, hroom => by
    simp only [bucketIds_cons] at hroom
    have hplace : (s.vvTried (info.getTriedBucket crypto s.nKey)).length < 64 := by
      have := hroom (info.getTriedBucket crypto s.nKey)
      rw [if_pos rfl, length_cons] at this
      omega
    have hdef : loadTried crypto s info = { s with
        vRandom := s.vRandom ++ [(all.length : Int)]
        mapInfo := s.mapInfo.insert all.length ((markTried info).moveTo all.length)
        mapAddr := s.mapAddr.insert info.toCNetAddr all.length
        vvTried := update s.vvTried (info.getTriedBucket crypto s.nKey)
          (s.vvTried (info.getTriedBucket crypto s.nKey) ++ [(all.length : Int)])
        nIdCount := all.length + 1 } := by
      unfold loadTried
      simp only [if_pos hplace, hid, h.length_vRandom]
      rfl
    have hvv : ∀ b, (update s.vvTried (info.getTriedBucket crypto s.nKey)
        (s.vvTried (info.getTriedBucket crypto s.nKey) ++ [(all.length : Int)]) b) ++
        bucketIds crypto s.nKey tried (all.length + 1) b =
          s.vvTried b ++ bucketIds crypto s.nKey (info :: tried) all.length b := by
      intro b
      rw [bucketIds_cons, Function.update_apply]
      rcases eq_or_ne b (info.getTriedBucket crypto s.nKey) with rfl | hne
      · simp
      · rw [if_neg hne, if_neg hne.symm]
    have hstep : Loaded (all ++ [markTried info]) (loadTried crypto s info) := by
      rw [hdef]
      exact h.push (a := markTried info) hdistinct.fresh rfl rfl rfl
    have hlen : (all ++ [markTried info]).length = all.length + 1 := by
      rw [length_append, length_singleton]
    obtain ⟨m, a, v, hfold, hloaded⟩ := loaded_tried crypto hstep (by rw [hdef, hlen]; rfl)
      (by
        simpa [DistinctAddrs, markTried] using hdistinct)
      (by
        intro b
        have hb := congrArg length (hvv b)
        rw [length_append, length_append, bucketIds_cons] at hb
        rw [hdef, hlen]
        exact hb.trans_le (hroom b))
    rw [hdef, hlen] at hfold
    refine ⟨m, a, v, ?_, ?_⟩
    · rw [foldl_cons, hdef, hfold]
      simp only [hvv]
      congr 1
      rw [length_cons]
      omega
    · rw [map_cons, append_cons]
      exact ⟨hloaded.entry, hloaded.length_vRandom, hloaded.random, hloaded.addr⟩

/-- The references that indices stand for. -/
def refIds (indices : List (Fin 256 × Int32)) : List Int := indices.map fun item => item.2.toInt

/-- Every index counts if no entry is in more than four buckets. -/
theorem loaded_indices (indices : List (Fin 256 × Int32)) :
    (∀ item ∈ indices, ∃ info, s.mapInfo[item.2.toInt]? = some info) →
    (∀ (n : Int) info, s.mapInfo[n]? = some info → info.nRefCount = 0) →
    (∀ b (n : Int), n ∉ s.vvNew b) → (∀ n, (refIds indices).count n ≤ 4) →
    ∃ m vv, indices.foldl (loadIndex true) s = { s with mapInfo := m, vvNew := vv } ∧
      (∀ n : Int, m[n]? = s.mapInfo[n]?.map fun info =>
        { info with nRefCount := (refIds indices).count n }) ∧
      ∀ b (n : Int), n ∈ vv b ↔ ∃ item ∈ indices, item.1 = b ∧ item.2.toInt = n := by
  intro hentry hzero hempty hcount
  induction indices using reverseRecOn with
  | nil =>
    refine ⟨s.mapInfo, s.vvNew, rfl, fun n => ?_, fun b n => by simp [hempty b n]⟩
    cases hinfo : s.mapInfo[n]? with
    | none => rfl
    | some info =>
      have hz := hzero n info hinfo
      simp [refIds, ← hz]
  | append_singleton indices item ih =>
    have hids : refIds (indices ++ [item]) = refIds indices ++ [item.2.toInt] := by
      simp [refIds]
    rw [hids] at hcount
    obtain ⟨m, vv, hfold, hm, hvv⟩ := ih
      (fun item' hitem' => hentry item' (mem_append_left _ hitem'))
      fun n => (count_append.ge.trans' (Nat.le_add_right _ _)).trans (hcount n)
    obtain ⟨info, hinfo⟩ := hentry item (by simp)
    have hget : m[item.2.toInt]? =
        some { info with nRefCount := (refIds indices).count item.2.toInt } := by
      rw [hm, hinfo]
      rfl
    have hlt : (refIds indices).count item.2.toInt < 4 := by
      have := hcount item.2.toInt
      rw [count_append, count_singleton_self] at this
      omega
    have hstep : loadIndex true { s with mapInfo := m, vvNew := vv } item = { s with
        mapInfo := m.insert item.2.toInt
          { info with nRefCount := (refIds indices).count item.2.toInt + 1 }
        vvNew := update vv item.1 ((vv item.1).insert item.2.toInt) } := by
      unfold loadIndex
      simp only [TreeMap.getD_eq_getD_getElem?, hget, Option.getD_some]
      rw [if_pos ⟨trivial, by exact_mod_cast hlt⟩]
      rfl
    refine ⟨_, _, by rw [foldl_append, hfold]; exact hstep, fun n => ?_, fun b n => ?_⟩
    · rw [Inverse.getElem?_insert_eq, hm, hids, count_append]
      split
      · next heq =>
        rw [heq, hinfo, count_singleton_self]
        rfl
      · next hne =>
        rw [count_singleton, if_neg (by simpa using Ne.symm hne), Nat.add_zero]
    · rw [Function.update_apply]
      split
      · next heq =>
        subst heq
        rw [mem_insert, hvv]
        simp only [mem_append, mem_singleton, or_and_right, exists_or, exists_eq_left,
          true_and]
        rw [or_comm, eq_comm (a := n)]
      · next hne =>
        rw [hvv]
        simp [Ne.symm hne]

/-! ## The tables before and after -/

def reloadInfo (info : CAddrInfo) : CAddrInfo := { info.stored with fInTried := info.fInTried }

theorem Checked.distinctAddrs (h : s.Checked) (f : CAddrInfo → CAddrInfo)
    (hf : ∀ info, (f info).toCNetAddr = info.toCNetAddr) :
    DistinctAddrs (s.order.map fun item => f item.2) := by
  rw [DistinctAddrs, map_map]
  refine List.Nodup.map_on ?_ (nodup_order s).of_map
  rintro ⟨n, info⟩ hitem ⟨n', info'⟩ hitem' heq
  have hinfo := mem_order.mp hitem
  have hinfo' := mem_order.mp hitem'
  have haddr : info.toCNetAddr = info'.toCNetAddr := by
    simpa only [Function.comp_apply, hf] using heq
  have hid : n = n' := by
    rw [← h.addr n info hinfo, ← h.addr n' info' hinfo', haddr]
  subst hid
  cases hinfo.symm.trans hinfo'
  rfl

theorem mem_bucketIds {nKey : List UInt8} {tried : List CAddrInfo} {k : Nat} :
    n ∈ bucketIds crypto nKey tried k b ↔
      ∃ j info, tried[j]? = some info ∧ n = ((k + j : Nat) : Int) ∧
        info.getTriedBucket crypto nKey = b := by
  simp only [bucketIds, mem_map, mem_filter, decide_eq_true_eq, Prod.exists,
    mk_mem_zipIdx_iff_le_and_getElem?_sub]
  constructor
  · rintro ⟨info, i, ⟨⟨hle, hget⟩, hb⟩, rfl⟩
    exact ⟨i - k, info, hget, by rw [Nat.add_sub_cancel' hle], hb⟩
  · rintro ⟨j, info, hget, rfl, hb⟩
    exact ⟨info, k + j, ⟨⟨Nat.le_add_right k j, by rwa [Nat.add_sub_cancel_left]⟩, hb⟩, rfl⟩

theorem nodup_bucketIds (crypto : Crypto) (nKey : List UInt8) (tried : List CAddrInfo) (k : Nat)
    (b : Fin 64) : (bucketIds crypto nKey tried k b).Nodup := by
  have hsub : (((tried.zipIdx k).filter fun item =>
      decide (item.1.getTriedBucket crypto nKey = b)).map Prod.snd).Nodup := by
    refine List.Nodup.sublist (filter_sublist.map Prod.snd) ?_
    rw [zipIdx_map_snd]
    exact nodup_range'
  have hmap := hsub.map (f := fun i : Nat => (i : Int)) fun _ _ heq => Int.ofNat.inj heq
  rwa [map_map] at hmap

/-- Every tried entry is in the bucket that `GetTriedBucket` gives. -/
def TriedInPlace (crypto : Crypto) (s : CAddrMan) : Prop :=
  ∀ (n : Int) info, s.mapInfo[n]? = some info → info.fInTried = true →
    n ∈ s.vvTried (info.getTriedBucket crypto s.nKey)

theorem Checked.infoOk (h : s.Checked) (hinfo : s.mapInfo[n]? = some info) :
    InfoOk (s.refs n) (s.places n) info := by
  have hentry := h.entry n
  rwa [hinfo] at hentry

theorem Checked.exists_of_mem_tried (h : s.Checked) (hn : n ∈ s.vvTried b) :
    ∃ info, s.mapInfo[n]? = some info ∧ info.fInTried ∧ s.places n = 1 := by
  have hone := one_le_places hn
  have hentry := h.entry n
  cases hinfo : s.mapInfo[n]? with
  | none =>
    rw [hinfo] at hentry
    have := hentry.2
    omega
  | some info =>
    rcases (h.infoOk hinfo).kind with ⟨ht, -, hp, -⟩ | ⟨-, -, -, hp⟩
    · exact ⟨info, rfl, ht, hp⟩
    · omega

theorem Checked.mem_tried_iff (h : s.Checked) (hplace : s.TriedInPlace crypto)
    (hinfo : s.mapInfo[n]? = some info) :
    n ∈ s.vvTried b ↔ info.fInTried ∧ info.getTriedBucket crypto s.nKey = b := by
  constructor
  · intro hn
    obtain ⟨info', hinfo', ht, hp⟩ := h.exists_of_mem_tried hn
    cases hinfo.symm.trans hinfo'
    exact ⟨ht, Buckets.eq_of_total_le_one (w := count n) (f := s.vvTried) hp.le
      (count_pos_iff.mpr (hplace n info hinfo ht)) (count_pos_iff.mpr hn)⟩
  · rintro ⟨ht, rfl⟩
    exact hplace n info hinfo ht

def storedTried (s : CAddrMan) : List CAddrInfo := s.triedItems.map fun item => item.2.stored

theorem getElem?_order_tried {j : Nat} :
    s.order[s.newItems.length + j]? = s.triedItems[j]? := by
  rw [order, getElem?_append_right (Nat.le_add_right _ _), Nat.add_sub_cancel_left]

/-- The ids that a tried bucket gets are the new ones of its ids. -/
theorem Checked.mem_bucketIds_iff (h : s.Checked) (hplace : s.TriedInPlace crypto) :
    n' ∈ bucketIds crypto s.nKey s.storedTried s.newItems.length b ↔
      ∃ n ∈ s.vvTried b, s.newId n = n' := by
  rw [mem_bucketIds]
  constructor
  · rintro ⟨j, i, hget, rfl, hb⟩
    rw [storedTried, getElem?_map] at hget
    obtain ⟨⟨n, info⟩, hitem, rfl⟩ := Option.map_eq_some_iff.mp hget
    obtain ⟨hmem, ht⟩ := mem_filter.mp (mem_of_getElem? hitem)
    have hid := newId_eq (getElem?_order_tried.trans hitem)
    exact ⟨n, (h.mem_tried_iff hplace (mem_toList.mp hmem)).mpr ⟨ht, hb⟩, hid⟩
  · rintro ⟨n, hn, rfl⟩
    obtain ⟨info, hinfo, ht, -⟩ := h.exists_of_mem_tried hn
    have hmem : (n, info) ∈ s.triedItems := mem_filter.mpr ⟨mem_toList.mpr hinfo, ht⟩
    obtain ⟨j, hj⟩ := mem_iff_getElem?.mp hmem
    refine ⟨j, info.stored, by rw [storedTried, getElem?_map, hj]; rfl,
      newId_eq (getElem?_order_tried.trans hj), ?_⟩
    exact ((h.mem_tried_iff hplace hinfo).mp hn).2

theorem Checked.length_bucketIds_le (h : s.Checked) (hplace : s.TriedInPlace crypto) (b : Fin 64) :
    (bucketIds crypto s.nKey s.storedTried s.newItems.length b).length ≤ (s.vvTried b).length := by
  have hsub : bucketIds crypto s.nKey s.storedTried s.newItems.length b ⊆
      (s.vvTried b).map s.newId := by
    intro n' hn'
    obtain ⟨n, hn, hid⟩ := (h.mem_bucketIds_iff hplace).mp hn'
    exact mem_map.mpr ⟨n, hn, hid⟩
  have hle := ((nodup_bucketIds crypto s.nKey _ _ b).subperm hsub).length_le
  rwa [length_map] at hle

theorem indices_finRange (f : Fin 256 → List Int32) :
    indices ((List.finRange 256).map f) =
      (List.finRange 256).flatMap fun b => (f b).map fun nIndex => (b, nIndex) := by
  have hzip : (finRange 256).zipIdx = (finRange 256).map fun b => (b, b.val) := by
    refine ext_getElem (by simp) fun i h₁ h₂ => ?_
    simp
  unfold indices
  rw [zipIdx_map, hzip, map_map, flatMap_map]
  refine flatMap_congr fun b _ => ?_
  simp only [CAddrInfo.newBucket, Function.comp_apply, Prod.map_apply, id_eq, Fin.ofNat_eq_cast, Fin.cast_val_eq_self]

theorem Checked.toInt_newId (h : s.Checked) {b : Fin 256} (hn : n ∈ s.vvNew b) :
    (Int32.ofInt (s.newId n)).toInt = s.newId n := by
  obtain ⟨i, info, hi, hid⟩ := h.exists_place_new hn
  have hlt := (List.getElem?_eq_some_iff.mp hi).1
  have hcount : (s.newItems.length : Int) = s.nNew.toInt := h.nNew_eq
  have hmax := s.nNew.toInt_lt
  exact Int32.toInt_ofInt_of_le (by omega) (by omega)

def storedIndices (s : CAddrMan) : List (Fin 256 × Int32) :=
  indices ((List.finRange 256).map fun b => (s.vvNew b).toList.map fun n => Int32.ofInt (s.newId n))

theorem Checked.mem_storedIndices (h : s.Checked) {b : Fin 256} :
    (∃ item ∈ s.storedIndices, item.1 = b ∧ item.2.toInt = n') ↔ ∃ n ∈ s.vvNew b, s.newId n = n' := by
  simp only [storedIndices, indices_finRange, mem_flatMap, mem_map, mem_finRange,
    true_and]
  constructor
  · rintro ⟨_, ⟨c, _, ⟨n, hn, rfl⟩, rfl⟩, rfl, rfl⟩
    have hmem := TreeSet.mem_toList.mp hn
    exact ⟨n, hmem, (h.toInt_newId hmem).symm⟩
  · rintro ⟨n, hn, rfl⟩
    exact ⟨_, ⟨b, _, ⟨n, TreeSet.mem_toList.mpr hn, rfl⟩, rfl⟩, rfl, h.toInt_newId hn⟩

/-- An id stands in the file once for each new bucket that has its entry. -/
theorem Checked.count_refIds (h : s.Checked) (hinfo : s.mapInfo[n]? = some info) :
    (refIds s.storedIndices).count (s.newId n) = s.refs n := by
  have hids : refIds s.storedIndices =
      (finRange 256).flatMap fun b => (s.vvNew b).toList.map s.newId := by
    simp only [refIds, storedIndices, indices_finRange, map_flatMap, map_map]
    refine flatMap_congr fun b _ => map_congr_left fun n hn => ?_
    exact h.toInt_newId (TreeSet.mem_toList.mp hn)
  have htotal : total (fun t : TreeSet Int => (t.toList.map s.newId).count (s.newId n)) s.vvNew =
      s.refs n := by
    refine Buckets.total_congr fun b => ?_
    have hentry : ∀ k ∈ (s.vvNew b).toList, ∃ i, s.mapInfo[k]? = some i := fun k hk =>
      (h.exists_of_mem_new (TreeSet.mem_toList.mp hk)).imp fun _ => And.left
    have hnodup : ((s.vvNew b).toList.map s.newId).Nodup := by
      refine List.Nodup.map_on (fun k hk k' hk' heq => ?_) (nodup_toList _)
      obtain ⟨i, hi⟩ := hentry k hk
      obtain ⟨i', hi'⟩ := hentry k' hk'
      exact newId_injective hi hi' heq
    have hmem : s.newId n ∈ (s.vvNew b).toList.map s.newId ↔ n ∈ s.vvNew b := by
      rw [mem_map]
      constructor
      · rintro ⟨k, hk, heq⟩
        obtain ⟨i, hi⟩ := hentry k hk
        exact newId_injective hi hinfo heq ▸ TreeSet.mem_toList.mp hk
      · exact fun hn => ⟨n, TreeSet.mem_toList.mpr hn, rfl⟩
    rw [hnodup.count]
    simp only [hmem]
  rw [hids, ← htotal]
  exact Buckets.count_flatMap_finRange s.vvNew (fun t => t.toList.map s.newId) (s.newId n)

theorem Checked.count_refIds_le (h : s.Checked) (n' : Int) :
    (refIds s.storedIndices).count n' ≤ 4 := by
  by_cases hmem : n' ∈ refIds s.storedIndices
  · obtain ⟨item, hitem, rfl⟩ := mem_map.mp hmem
    obtain ⟨n, hn, hid⟩ := h.mem_storedIndices.mp ⟨item, hitem, rfl, rfl⟩
    obtain ⟨info, hinfo, hnot⟩ := h.exists_of_mem_new hn
    have hok := h.infoOk hinfo
    rw [← hid, h.count_refIds hinfo]
    rcases hok.kind with ⟨ht, -⟩ | ⟨-, -, hle, -⟩
    · rw [hnot] at ht
      cases ht
    · exact hle
  · rw [count_eq_zero.mpr hmem]
    exact Nat.zero_le 4

/-! ## The state after the restart -/

def storedData (s : CAddrMan) : AddrManData :=
  { s.toData with
    vInfoNew := s.toData.vInfoNew.map CAddrInfo.stored
    vInfoTried := s.toData.vInfoTried.map CAddrInfo.stored }

/-- An entry after the restart, with its references. -/
def rebuiltInfo (s : CAddrMan) (n : Int) (info : CAddrInfo) : CAddrInfo :=
  { (reloadInfo info).moveTo (s.newId n) with nRefCount := s.refs n }

/-- A state with the new ids: entry by entry and bucket by bucket. -/
structure Rebuilt (s s' : CAddrMan) : Prop where
  nKey_eq : s'.nKey = s.nKey
  nTried_eq : s'.nTried = s.nTried
  nNew_eq : s'.nNew = s.nNew
  entry : ∀ (n' : Int) info', s'.mapInfo[n']? = some info' ↔ ∃ (n : Int) (info : CAddrInfo),
    s.mapInfo[n]? = some info ∧ s.newId n = n' ∧ info' = s.rebuiltInfo n info
  length_vRandom : s'.vRandom.length = s.order.length
  random : Inverse (s'.vRandom[·]?) (Inverse.column s'.mapInfo (·.nRandomPos.toNat))
  addr : Inverse s'.mapAddr.lookup (Inverse.column s'.mapInfo (·.toCNetAddr))
  tried : ∀ b n', n' ∈ s'.vvTried b ↔ ∃ n ∈ s.vvTried b, s.newId n = n'
  nodup_tried : ∀ b, (s'.vvTried b).Nodup
  new : ∀ b (n' : Int), n' ∈ s'.vvNew b ↔ ∃ n ∈ s.vvNew b, s.newId n = n'

theorem loaded_nil (nKey : List UInt8) (nNew nTried : Int32) :
    Loaded [] { new nKey with nNew, nTried } := by
  have hnone : ∀ n : Int, ({ new nKey with nNew, nTried } : CAddrMan).mapInfo[n]? = none :=
    fun n => TreeMap.getElem?_emptyc
  refine ⟨fun n => ?_, rfl, fun i n => ?_, fun addr n => ?_⟩
  · rw [hnone]
    simp [entryAt]
  · rw [Inverse.column_of_none (hnone n)]
    simp [new]
  · rw [Inverse.column_of_none (hnone n)]
    simp [new]

theorem map_reloadInfo_order (s : CAddrMan) :
    (s.newItems.map fun item => item.2.stored) ++ s.storedTried.map markTried =
      s.order.map fun item => reloadInfo item.2 := by
  rw [order, map_append, storedTried, map_map]
  congr 1
  · refine map_congr_left fun item hitem => ?_
    have hnot : item.2.fInTried = false := by simpa using (mem_filter.mp hitem).2
    rw [reloadInfo, hnot]
    rfl
  · refine map_congr_left fun item hitem => ?_
    have ht : item.2.fInTried := (mem_filter.mp hitem).2
    rw [reloadInfo, ht]
    rfl

theorem entryAt_order :
    entryAt (s.order.map fun item => reloadInfo item.2) n' = some info' ↔
      ∃ (n : Int) (info : CAddrInfo), s.mapInfo[n]? = some info ∧ s.newId n = n' ∧
        info' = (reloadInfo info).moveTo n' := by
  constructor
  · intro hentry
    obtain ⟨i, a, rfl, hget, rfl⟩ := exists_of_entryAt hentry
    rw [getElem?_map] at hget
    obtain ⟨⟨n, info⟩, hitem, rfl⟩ := Option.map_eq_some_iff.mp hget
    exact ⟨n, info, mem_order.mp (mem_of_getElem? hitem), newId_eq hitem, rfl⟩
  · rintro ⟨n, info, hinfo, rfl, rfl⟩
    obtain ⟨i, hi, hid⟩ := exists_getElem?_order hinfo
    rw [hid, entryAt_natCast, getElem?_map, hi]
    rfl

/-- Loading gives each entry the id of its place in the file: the new ones first, then the tried
ones. -/
theorem Checked.rebuilt (h : s.Checked) (hplace : s.TriedInPlace crypto)
    (hroom : ∀ b, (s.vvTried b).length ≤ 64) : Rebuilt s (load crypto s.storedData) := by
  have hnNew : s.nNew.toInt = ((s.newItems.map fun item => item.2.stored).length : Int) := by
    rw [length_map]
    exact h.nNew_eq.symm
  have hall : (s.newItems.map fun item => item.2.stored) ++ s.storedTried =
      s.order.map fun item => item.2.stored := by
    rw [order, map_append, storedTried]
  have hdistinct := h.distinctAddrs CAddrInfo.stored fun _ => rfl
  rw [← hall] at hdistinct
  -- the new entries
  obtain ⟨m₁, a₁, v₁, hnew, hloaded₁⟩ := loaded_new crypto (loaded_nil s.nKey s.nNew s.nTried)
    (List.Nodup.sublist ((sublist_append_left _ _).map _) hdistinct)
  -- the tried entries
  obtain ⟨m₂, a₂, v₂, htried, hloaded₂⟩ := loaded_tried crypto
    (s := { new s.nKey with
      nNew := s.nNew, nTried := s.nTried, mapInfo := m₁, mapAddr := a₁, vRandom := v₁,
      nIdCount := s.nNew.toInt })
    ⟨hloaded₁.entry, hloaded₁.length_vRandom, hloaded₁.random, hloaded₁.addr⟩ hnNew hdistinct
    fun b => by
      have hle := (h.length_bucketIds_le hplace b).trans (hroom b)
      simpa [new] using hle
  have hentry₂ : ∀ (n' : Int) info', m₂[n']? = some info' ↔ ∃ (n : Int) (info : CAddrInfo),
      s.mapInfo[n]? = some info ∧ s.newId n = n' ∧ info' = (reloadInfo info).moveTo n' := by
    intro n' info'
    rw [← entryAt_order, ← map_reloadInfo_order]
    exact iff_of_eq (congrArg (· = some info') (hloaded₂.entry n'))
  -- the new buckets
  obtain ⟨m₃, vv, hindices, hentry₃, hvv⟩ := loaded_indices s.storedIndices
    (s := { new s.nKey with
      nNew := s.nNew, nTried := s.nTried, mapInfo := m₂, mapAddr := a₂, vRandom := v₂,
      nIdCount := ((s.newItems.map fun item => item.2.stored).length : Int) + s.storedTried.length,
      vvTried := bucketIds crypto s.nKey s.storedTried s.newItems.length })
    (by
      intro item hitem
      obtain ⟨n, hn, hid⟩ := h.mem_storedIndices.mp ⟨item, hitem, rfl, rfl⟩
      obtain ⟨info, hinfo, -⟩ := h.exists_of_mem_new hn
      exact ⟨_, (hentry₂ _ _).mpr ⟨n, info, hinfo, hid, rfl⟩⟩)
    (by
      intro n' info' hinfo'
      obtain ⟨n, info, -, -, rfl⟩ := (hentry₂ n' info').mp hinfo'
      rfl)
    (fun b n => TreeSet.not_mem_emptyc)
    h.count_refIds_le
  have hload : load crypto s.storedData = { new s.nKey with
      nNew := s.nNew, nTried := s.nTried, mapInfo := m₃, mapAddr := a₂, vRandom := v₂,
      nIdCount := ((s.newItems.map fun item => item.2.stored).length : Int) + s.storedTried.length,
      vvTried := bucketIds crypto s.nKey s.storedTried s.newItems.length, vvNew := vv } := by
    have hdef : load crypto s.storedData = s.storedIndices.foldl (loadIndex true)
        (s.storedTried.foldl (loadTried crypto)
          { (s.newItems.map fun item => item.2.stored).zipIdx.foldl (loadNew crypto false)
            { new s.nKey with nNew := s.nNew, nTried := s.nTried } with nIdCount := s.nNew.toInt }) := by
      rw [storedData, h.toData_eq]
      simp only [load, map_map]
      rfl
    have hvvTried : (fun b => [] ++ bucketIds crypto s.nKey s.storedTried
        (s.newItems.map fun item => item.2.stored).length b) =
          bucketIds crypto s.nKey s.storedTried s.newItems.length := by
      funext b
      rw [length_map, nil_append]
    have hnew' : (s.newItems.map fun item => item.2.stored).zipIdx.foldl (loadNew crypto false)
        { new s.nKey with nNew := s.nNew, nTried := s.nTried } = { new s.nKey with
          nNew := s.nNew, nTried := s.nTried, mapInfo := m₁, mapAddr := a₁, vRandom := v₁ } := hnew
    rw [hdef, hnew', ← hindices, ← hvvTried]
    exact congrArg (fun s₂ => s.storedIndices.foldl (loadIndex true) s₂) htried
  have hcolumn : ∀ {γ : Type} (g : CAddrInfo → γ), (∀ info k, g { info with nRefCount := k } = g info) →
      Inverse.column m₃ g = Inverse.column m₂ g := by
    intro γ g hg
    funext n'
    rw [Inverse.column, hentry₃, Option.map_map]
    exact congrArg (Option.map · _) (funext fun info => hg info _)
  rw [hload]
  refine ⟨rfl, rfl, rfl, fun n' info' => ?_, ?_, ?_, ?_, fun b n' => h.mem_bucketIds_iff hplace,
    fun b => nodup_bucketIds _ _ _ _ b, fun b n' => (hvv b n').trans h.mem_storedIndices⟩
  · simp only [hentry₃, Option.map_eq_some_iff, hentry₂]
    constructor
    · rintro ⟨_, ⟨n, info, hinfo, rfl, rfl⟩, rfl⟩
      refine ⟨n, info, hinfo, rfl, ?_⟩
      rw [rebuiltInfo, h.count_refIds hinfo]
    · rintro ⟨n, info, hinfo, rfl, rfl⟩
      refine ⟨_, ⟨n, info, hinfo, rfl, rfl⟩, ?_⟩
      rw [rebuiltInfo, h.count_refIds hinfo]
  · have hlen : s.order.length = (s.order.map fun item => reloadInfo item.2).length := by
      rw [length_map]
    rw [hlen, ← map_reloadInfo_order]
    exact hloaded₂.length_vRandom
  · rw [hcolumn _ fun _ _ => rfl]
    exact hloaded₂.random
  · rw [hcolumn _ fun _ _ => rfl]
    exact hloaded₂.addr

section Rebuilt

variable {s' : CAddrMan}

section

variable (h : Rebuilt s s') (hinfo : s.mapInfo[n]? = some info)
include h hinfo

/-- The entry of an id in the new state, as the old one has it. -/
theorem Rebuilt.entry_of : s'.mapInfo[s.newId n]? = some (s.rebuiltInfo n info) :=
  (h.entry _ _).mpr ⟨n, info, hinfo, rfl, rfl⟩

theorem Rebuilt.mem_new_iff (hc : s.Checked) {b : Fin 256} :
    s.newId n ∈ s'.vvNew b ↔ n ∈ s.vvNew b := by
  rw [h.new]
  constructor
  · rintro ⟨k, hk, heq⟩
    obtain ⟨i, hi, -⟩ := hc.exists_of_mem_new hk
    exact newId_injective hi hinfo heq ▸ hk
  · exact fun hn => ⟨n, hn, rfl⟩

theorem Rebuilt.mem_tried_iff (hc : s.Checked) :
    s.newId n ∈ s'.vvTried b ↔ n ∈ s.vvTried b := by
  rw [h.tried]
  constructor
  · rintro ⟨k, hk, heq⟩
    obtain ⟨i, hi, -⟩ := hc.exists_of_mem_tried hk
    exact newId_injective hi hinfo heq ▸ hk
  · exact fun hn => ⟨n, hn, rfl⟩

theorem Rebuilt.refs_eq (hc : s.Checked) : s'.refs (s.newId n) = s.refs n := by
  refine Buckets.total_congr fun b => ?_
  simp only [h.mem_new_iff hinfo hc]

theorem Rebuilt.places_eq (hc : s.Checked) : s'.places (s.newId n) = s.places n := by
  have hone : s.places n ≤ 1 := by
    rcases (hc.infoOk hinfo).kind with ⟨-, -, hp, -⟩ | ⟨-, -, -, hp⟩ <;> omega
  refine Buckets.total_congr fun b => ?_
  rw [(h.nodup_tried b).count]
  simp only [h.mem_tried_iff hinfo hc]
  split
  · next hn =>
    have hle := (Buckets.le_total (count n) s.vvTried b).trans hone
    have hpos := count_pos_iff.mpr hn
    omega
  · next hn => exact (count_eq_zero.mpr hn).symm

end

/-- Ids change and entries do not, so both kinds are counted alike. -/
theorem Rebuilt.length_filter (h : Rebuilt s s') (p : CAddrInfo → Bool)
    (hp : ∀ info info' : CAddrInfo, info'.fInTried = info.fInTried → p info' = p info) :
    (s'.mapInfo.toList.filter fun item => p item.2).length =
      (s.mapInfo.toList.filter fun item => p item.2).length := by
  have hperm : ((s'.mapInfo.toList.filter fun item => p item.2).map Prod.fst).Perm
      ((s.mapInfo.toList.filter fun item => p item.2).map fun item => s.newId item.1) := by
    refine (perm_ext_iff_of_nodup ?_ ?_).mpr fun n' => ?_
    · exact (nodup_keys s').sublist (filter_sublist.map _)
    · refine List.Nodup.map_on ?_ ((nodup_keys s).of_map.filter _)
      rintro ⟨n, info⟩ hitem ⟨k, i⟩ hitem' heq
      have hinfo := mem_toList.mp (mem_filter.mp hitem).1
      have hi := mem_toList.mp (mem_filter.mp hitem').1
      have hid : n = k := newId_injective hinfo hi heq
      subst hid
      cases hinfo.symm.trans hi
      rfl
    · simp only [mem_map, mem_filter, Prod.exists, mem_toList]
      constructor
      · rintro ⟨_, info', ⟨hinfo', hp'⟩, rfl⟩
        obtain ⟨n, info, hinfo, hid, rfl⟩ := (h.entry _ _).mp hinfo'
        exact ⟨n, info, ⟨hinfo, (hp info (s.rebuiltInfo n info) rfl).symm.trans hp'⟩, hid⟩
      · rintro ⟨n, info, ⟨hinfo, hp'⟩, rfl⟩
        exact ⟨_, _, ⟨h.entry_of hinfo, (hp info (s.rebuiltInfo n info) rfl).trans hp'⟩, rfl⟩
  simpa using hperm.length_eq

theorem Rebuilt.checked (h : Rebuilt s s') (hc : s.Checked) : s'.Checked := by
  refine ⟨fun n' => ?_, fun n' info' hinfo' => ?_, fun n' info' hinfo' => ?_, ?_, ?_, ?_⟩
  · cases hinfo' : s'.mapInfo[n']? with
    | none =>
      -- an id that is in a bucket has an entry
      constructor
      · by_contra hne
        obtain ⟨b, hb⟩ := exists_of_refs (Nat.one_le_iff_ne_zero.mpr hne)
        obtain ⟨n, hn, rfl⟩ := (h.new b n').mp hb
        obtain ⟨info, hinfo, -⟩ := hc.exists_of_mem_new hn
        cases hinfo'.symm.trans (h.entry_of hinfo)
      · by_contra hne
        obtain ⟨b, hb⟩ := exists_of_places (Nat.one_le_iff_ne_zero.mpr hne)
        obtain ⟨n, hn, rfl⟩ := (h.tried b n').mp hb
        obtain ⟨info, hinfo, -⟩ := hc.exists_of_mem_tried hn
        cases hinfo'.symm.trans (h.entry_of hinfo)
    | some info' =>
      obtain ⟨n, info, hinfo, rfl, rfl⟩ := (h.entry n' info').mp hinfo'
      have hok := hc.infoOk hinfo
      rw [h.refs_eq hinfo hc, h.places_eq hinfo hc]
      exact ⟨rfl, hok.kind, Int64.le_refl 0, hok.nLastSuccess_nonneg⟩
  · have hlookup : s'.mapAddr.lookup info'.toCNetAddr = some n' :=
      (h.addr _ n').mpr (Inverse.column_of_some hinfo' _)
    rw [hlookup]
    rfl
  · obtain ⟨n, info, hinfo, rfl, rfl⟩ := (h.entry n' info').mp hinfo'
    obtain ⟨i, -, hid⟩ := exists_getElem?_order hinfo
    have hpos : 0 ≤ s.newId n := by
      rw [hid]
      exact Int.natCast_nonneg i
    exact ⟨hpos, (h.random _ _).mpr (Inverse.column_of_some hinfo' _)⟩
  · have hnew : (s.newItems.length : Int) = s.nNew.toInt := hc.nNew_eq
    have htried : (s.triedItems.length : Int) = s.nTried.toInt := hc.nTried_eq
    rw [h.length_vRandom, h.nTried_eq, h.nNew_eq, order, length_append]
    omega
  · rw [h.nTried_eq, ← hc.nTried_eq, h.length_filter (·.fInTried) fun _ _ heq => heq]
  · rw [h.nNew_eq, ← hc.nNew_eq, h.length_filter (!·.fInTried) fun _ _ heq => congrArg _ heq]

end Rebuilt

/-! ## The round trip -/

theorem Checked.sized (h : s.Checked) (hkey : s.nKey.length ≤ MAX_SIZE) : s.toData.Sized := by
  have hnew : (s.newItems.length : Int) = s.nNew.toInt := h.nNew_eq
  have htried : (s.triedItems.length : Int) = s.nTried.toInt := h.nTried_eq
  have hmax := s.nNew.toInt_lt
  rw [h.toData_eq]
  refine ⟨hkey, ?_, ?_, by simp [AddrManData.rounds], ?_, ?_⟩
  · rw [AddrManData.rounds, ← hnew, Int.toNat_natCast, length_map]
  · rw [AddrManData.rounds, ← htried, Int.toNat_natCast, length_map]
  · simp
  · intro v hv
    obtain ⟨b, -, rfl⟩ := mem_map.mp hv
    -- the ids of a bucket are among those of the new entries
    have hsub : (s.vvNew b).toList ⊆ s.newItems.map Prod.fst := by
      intro n hn
      obtain ⟨i, info, hi, -⟩ := h.exists_place_new (TreeSet.mem_toList.mp hn)
      exact mem_map_of_mem (mem_of_getElem? hi)
    have hle := ((nodup_toList (s.vvNew b)).subperm hsub).length_le
    rw [length_map] at hle ⊢
    omega

/-- What is written by a consistent state is read as what `load` makes of it. -/
theorem Checked.reads (h : s.Checked) (crypto : Crypto) (hkey : s.nKey.length ≤ MAX_SIZE) {σ : Type}
    [ByteStream σ] : Reads (σ := σ) (unserialize crypto) s.serialize (load crypto s.storedData) :=
  (AddrManData.reads (h.sized hkey)).map (load crypto)

/-- A state that is another one with other ids. -/
structure Reloaded (f : Int → Int) (s s' : CAddrMan) : Prop where
  nKey_eq : s'.nKey = s.nKey
  /-- the entries, with their stored fields -/
  entry : ∀ (n : Int) info, s.mapInfo[n]? = some info → ∃ info', s'.mapInfo[f n]? = some info' ∧
    info'.stored = info.stored ∧ info'.fInTried = info.fInTried
  onto : ∀ (n' : Int) info', s'.mapInfo[n']? = some info' → ∃ n info, s.mapInfo[n]? = some info ∧
    f n = n'
  injective : ∀ (n k : Int) info i, s.mapInfo[n]? = some info → s.mapInfo[k]? = some i → f n = f k →
    n = k
  tried : ∀ b n', n' ∈ s'.vvTried b ↔ ∃ n ∈ s.vvTried b, f n = n'
  new : ∀ b (n' : Int), n' ∈ s'.vvNew b ↔ ∃ n ∈ s.vvNew b, f n = n'

theorem Rebuilt.reloaded {s' : CAddrMan} (h : Rebuilt s s') : Reloaded s.newId s s' where
  nKey_eq := h.nKey_eq
  entry n info hinfo := ⟨_, h.entry_of hinfo, rfl, rfl⟩
  onto n' info' hinfo' := by
    obtain ⟨n, info, hinfo, hid, -⟩ := (h.entry n' info').mp hinfo'
    exact ⟨n, info, hinfo, hid⟩
  injective _ _ _ _ hinfo hi heq := newId_injective hinfo hi heq
  tried := h.tried
  new := h.new

/-- If no tried bucket is larger than its place, the state read is consistent and differs in the ids
only. -/
theorem addrMan_persistent (crypto : Crypto) (s : CAddrMan) (hcheck : s.check_ = .ok ())
    (hplace : s.TriedInPlace crypto) (hroom : ∀ b, (s.vvTried b).length ≤ 64)
    (hkey : s.nKey.length ≤ MAX_SIZE) :
    ∃ s' f, (∀ (σ : Type) [ByteStream σ], Reads (σ := σ) (unserialize crypto) s.serialize s') ∧
      s'.check_ = .ok () ∧ Reloaded f s s' := by
  have hchecked := check_eq_ok_iff.mp hcheck
  have hrebuilt := hchecked.rebuilt hplace hroom
  exact ⟨load crypto s.storedData, s.newId, fun σ _ => hchecked.reads crypto hkey,
    check_eq_ok_iff.mpr (hrebuilt.checked hchecked), hrebuilt.reloaded⟩

theorem load_tried_le (crypto : Crypto) (d : AddrManData) (b : Fin 64) :
    ((load crypto d).vvTried b).length ≤ 64 := by
  have hindices : ∀ (fKnown : Bool) (l : List (Fin 256 × Int32)) (s : CAddrMan),
      (l.foldl (loadIndex fKnown) s).vvTried = s.vvTried := by
    intro fKnown l s
    refine foldlRecOn l (loadIndex fKnown) (motive := fun s' => s'.vvTried = s.vvTried) rfl ?_
    intro s' hs' item _
    rw [← hs', loadIndex]
    split <;> rfl
  have hnew : ∀ (fRebucket : Bool) (l : List (CAddrInfo × Nat)) (s : CAddrMan),
      (l.foldl (loadNew crypto fRebucket) s).vvTried = s.vvTried := by
    intro fRebucket l s
    refine foldlRecOn l (loadNew crypto fRebucket) (motive := fun s' => s'.vvTried = s.vvTried)
      rfl ?_
    intro s' hs' item _
    rw [← hs']
    cases fRebucket <;> rfl
  rw [load, hindices]
  refine foldlRecOn (motive := fun s' : CAddrMan => (s'.vvTried b).length ≤ 64) _ _ ?_ ?_
  · rw [hnew]
    exact Nat.zero_le 64
  · intro s hs info _
    rw [loadTried]
    split
    · next hlt =>
      simp only [Function.update_apply]
      split
      · next heq =>
        rw [length_append]
        exact hlt
      · exact hs
    · exact hs

def crowdInfo (n : Fin 65) : CAddrInfo :=
  { ip := [UInt8.ofNat n, 0, 0, 0, 0, 0, 0, 0, 0, 0, 0, 0, 0, 0, 0, 1], length_ip := rfl,
    port := 7777, nServices := 1, nTime := 1400000000, nLastTry := 0, source := CAddress.null.toCNetAddr,
    nLastSuccess := 1, nAttempts := 0, nRefCount := 0, fInTried := true, nRandomPos := n.val }

theorem nodupKeys_crowd {ids : List (Fin 65)} (h : ids.Nodup) : (ids.map fun n =>
    (⟨(crowdInfo n).toCNetAddr, n.val⟩ : Sigma fun _ : CNetAddr => Int)).NodupKeys := by
  rw [List.NodupKeys, keys, map_map]
  refine List.Nodup.map (fun n k heq => ?_) h
  have hbyte : UInt8.ofNat n = UInt8.ofNat k := by simpa [crowdInfo] using heq
  have hmod := congrArg UInt8.toNat hbyte
  simp only [UInt8.toNat_ofNat'] at hmod
  omega

/-- Tried entries in one bucket. -/
def crowd (ids : List (Fin 65)) (h : ids.Nodup) : CAddrMan :=
  { new [] with
    nIdCount := ids.length
    mapInfo := .ofList (ids.map fun n => ((n.val : Int), crowdInfo n))
    mapAddr := ⟨ids.map fun n => ⟨(crowdInfo n).toCNetAddr, (n.val : Int)⟩, nodupKeys_crowd h⟩
    vRandom := ids.map fun n => (n.val : Int)
    nTried := Int32.ofNat ids.length
    vvTried := fun b => if b.val = 0 then ids.map fun n => (n.val : Int) else [] }

def crowded : CAddrMan := crowd (List.finRange 65) (nodup_finRange 65)

def sameBucket : Crypto := { Crypto.sample with sha256 := fun _ => [] }

theorem triedInPlace_of_all
    (h : (s.mapInfo.toList.all fun item => !item.2.fInTried || (s.vvTried (item.2.getTriedBucket
      crypto s.nKey)).contains item.1)) : s.TriedInPlace crypto := by
  intro n info hinfo htried
  have hitem := all_eq_true.mp h (n, info) (mem_toList.mpr hinfo)
  simpa [htried] using hitem

theorem crowded_check : crowded.check_ = .ok () := by
  have heval : decide (crowded.check_ = .ok ()) := by decide +kernel
  exact of_decide_eq_true heval

theorem crowded_triedInPlace : crowded.TriedInPlace sameBucket :=
  triedInPlace_of_all (by decide +kernel)

/-- `Check_` does not look at the size of the buckets: of an overfull one an entry is lost. -/
theorem crowded_loses_entry : crowded.check_ = .ok () ∧ crowded.TriedInPlace sameBucket ∧
    ∃ s', (∀ (σ : Type) [ByteStream σ],
        Reads (σ := σ) (unserialize sameBucket) crowded.serialize s') ∧
      (crowded.vvTried 0).length = 65 ∧ (∀ b, (s'.vvTried b).length ≤ 64) ∧
      ¬∃ f, Reloaded f crowded s' := by
  have hchecked := check_eq_ok_iff.mp crowded_check
  have hlen : (crowded.vvTried 0).length = 65 := by decide +kernel
  have hnodup : (crowded.vvTried 0).Nodup := by decide +kernel
  have hle := load_tried_le sameBucket crowded.storedData
  refine ⟨crowded_check, crowded_triedInPlace, load sameBucket crowded.storedData,
    fun σ _ => hchecked.reads sameBucket (Nat.zero_le _), hlen, hle, ?_⟩
  rintro ⟨f, hf⟩
  have hsub : (crowded.vvTried 0).map f ⊆ (load sameBucket crowded.storedData).vvTried 0 := by
    intro n' hn'
    exact (hf.tried 0 n').mpr (mem_map.mp hn')
  have hmap : ((crowded.vvTried 0).map f).Nodup := by
    refine List.Nodup.map_on (fun n hn k hk heq => ?_) hnodup
    obtain ⟨info, hinfo, -⟩ := hchecked.exists_of_mem_tried hn
    obtain ⟨i, hi, -⟩ := hchecked.exists_of_mem_tried hk
    exact hf.injective n k info i hinfo hi heq
  have hcount := (hmap.subperm hsub).length_le
  rw [length_map, hlen] at hcount
  have := hle 0
  omega

theorem nodup_pair : ([0, 1] : List (Fin 65)).Nodup := by decide

def pair : CAddrMan := crowd [0, 1] nodup_pair

/-- A tried entry, and a new one in two buckets. -/
def mixed : CAddrMan :=
  { pair with
    mapInfo := .ofList [((0 : Int), crowdInfo 0),
      (1, { crowdInfo 1 with nLastSuccess := 0, nRefCount := 2, fInTried := false })]
    nTried := 1
    vvTried := fun b => if b.val = 0 then [0] else []
    nNew := 1
    vvNew := fun b => if b.val = 3 ∨ b.val = 7 then .ofList [(1 : Int)] else ∅ }

theorem addrMan_persistent_mixed : mixed.check_ = .ok () ∧ mixed.TriedInPlace sameBucket ∧
    (∀ b, (mixed.vvTried b).length ≤ 64) ∧
    ∃ s' f, (∀ (σ : Type) [ByteStream σ],
        Reads (σ := σ) (unserialize sameBucket) mixed.serialize s') ∧
      s'.check_ = .ok () ∧ Reloaded f mixed s' := by
  have hcheck : mixed.check_ = .ok () := by decide +kernel
  have hplace : mixed.TriedInPlace sameBucket := triedInPlace_of_all (by decide +kernel)
  have hroom : ∀ b, (mixed.vvTried b).length ≤ 64 := by
    intro b
    simp only [mixed]
    split <;> decide
  exact ⟨hcheck, hplace, hroom,
    addrMan_persistent sameBucket mixed hcheck hplace hroom (Nat.zero_le _)⟩

end CAddrMan

end NovaCoin
