import NovaCoin.Properties.AddrManIndex
import NovaCoin.Spec.AddrManCheck

/-!
# The counts of the address manager

Every entry is tried, without references and once in the tried buckets, or not tried, with as many
references as there are new buckets that have its id. `Add_` counts a reference before it makes room
and inserts the id: `Counted e` has `e n` references of `n` that are not in a bucket yet.
-/

namespace NovaCoin

open List

open Function (update)
open Std (TreeSet TreeMap)
open Buckets (total total_update)

/-- The times that a call may be told: `GetAdjustedTime`, as the callers give it, is one. -/
def AddrManCall.TimeOk : AddrManCall → Prop
  | .good _ nTime _ => 0 < nTime
  | .attempt _ nTime => 0 ≤ nTime
  | _ => True

namespace CAddrMan

variable {s : CAddrMan} {e : Int → Nat}

/-! ## The invariant -/

structure Counted (e : Int → Nat) (s : CAddrMan) : Prop where
  entry : ∀ n : Int, EntryOk (s.refs n + e n) (s.places n) s.mapInfo[n]?
  tried_le : ∀ b, (s.vvTried b).length ≤ 64
  new_le : ∀ b, (s.vvNew b).size ≤ 64
  nTried_eq : s.nTried.toInt = total List.length s.vvTried
  length_vRandom : (s.vRandom.length : Int) = s.nTried.toInt + s.nNew.toInt

structure Inv (e : Int → Nat) (s : CAddrMan) : Prop where
  linked : s.Linked
  counted : s.Counted e

theorem inv_new (nKey : List UInt8) : (new nKey).Inv fun _ => 0 where
  linked := linked_new nKey
  counted := by
    refine ⟨fun n => ?_, fun b => Nat.zero_le _, fun b => Nat.zero_le _, ?_, rfl⟩
    · simp [new, refs, places, EntryOk, total]
    · simp [new, total]

variable {n a nId nOld : Int} {info : CAddrInfo} {t : TreeSet Int} {b nOrigin : Fin 256}
  {k : Fin 64} {p i r : Nat} {f : CAddrInfo → CAddrInfo} {x : Int32} {nTime : Int64}

theorem Counted.infoOk (h : s.Counted e) (hinfo : s.mapInfo[n]? = some info) :
    InfoOk (s.refs n + e n) (s.places n) info := by
  have hentry := h.entry n
  rwa [hinfo] at hentry

/-- An id of a new bucket has an entry. -/
theorem Counted.exists_info (h : s.Counted e) (hpos : 0 < s.refs n + e n ∨ 0 < s.places n) :
    ∃ info, s.mapInfo[n]? = some info := by
  have hentry := h.entry n
  cases hinfo : s.mapInfo[n]? with
  | some info => exact ⟨info, rfl⟩
  | none =>
    rw [hinfo] at hentry
    obtain ⟨hr, hp⟩ := hentry
    omega

theorem EntryOk.map {o : Option CAddrInfo} (h : EntryOk r p o)
    (hf : ∀ info, InfoOk r p info → InfoOk r p (f info)) :
    EntryOk r p (o.map f) := by
  cases o with
  | none => exact h
  | some info => exact hf info h

theorem EntryOk.moved {m m' : TreeMap Int CAddrInfo} (h : EntryOk r p m[n]?)
    (hmoved : Moved m m' n) : EntryOk r p m'[n]? := by
  obtain ⟨q, hq⟩ := hmoved
  rw [hq]
  exact h.map fun info hinfo => ⟨hinfo.1, hinfo.2, hinfo.3, hinfo.4⟩

theorem Inv.modifyInfo (h : s.Inv e) (nId : Int)
    (hpos : ∀ info, (f info).nRandomPos = info.nRandomPos)
    (haddr : ∀ info, (f info).toCNetAddr = info.toCNetAddr)
    (hok : ∀ r p info, InfoOk r p info → InfoOk r p (f info)) : (s.modifyInfo nId f).Inv e where
  linked := h.linked.modifyInfo nId hpos haddr
  counted := by
    refine ⟨fun n => ?_, h.counted.tried_le, h.counted.new_le, h.counted.nTried_eq,
      h.counted.length_vRandom⟩
    have hentry := h.counted.entry n
    rw [getElem?_modifyInfo]
    split
    · next heq =>
      subst heq
      exact hentry.map (hok _ _)
    · exact hentry

/-! ## Buckets -/

theorem mem_insert : n ∈ t.insert a ↔ n = a ∨ n ∈ t := by
  simp only [TreeSet.mem_insert, Std.LawfulEqCmp.compare_eq_iff_eq, eq_comm (a := a)]

theorem mem_erase : n ∈ t.erase a ↔ n ≠ a ∧ n ∈ t := by
  simp only [TreeSet.mem_erase, ne_eq, Std.LawfulEqCmp.compare_eq_iff_eq, eq_comm (a := a)]

theorem one_le_refs (h : n ∈ s.vvNew b) : 1 ≤ s.refs n := by
  have hle := Buckets.le_total (fun t : TreeSet Int => if n ∈ t then 1 else 0) s.vvNew b
  rwa [if_pos h] at hle

theorem one_le_places {b : Fin 64} (h : n ∈ s.vvTried b) : 1 ≤ s.places n :=
  (one_le_count_iff.mpr h).trans (Buckets.le_total (count n) s.vvTried b)

theorem exists_of_refs (h : 1 ≤ s.refs n) : ∃ b, n ∈ s.vvNew b := by
  obtain ⟨b, hb⟩ := Buckets.exists_of_total_pos h
  refine ⟨b, ?_⟩
  by_contra hnot
  rw [if_neg hnot] at hb
  exact absurd hb (lt_irrefl 0)

theorem exists_of_places (h : 1 ≤ s.places n) : ∃ b, n ∈ s.vvTried b := by
  obtain ⟨b, hb⟩ := Buckets.exists_of_total_pos h
  exact ⟨b, count_pos_iff.mp hb⟩

theorem refs_insert (h : nId ∉ s.vvNew b) (n : Int) :
    (s.setNew b ((s.vvNew b).insert nId)).refs n = s.refs n + if n = nId then 1 else 0 := by
  have htotal := total_update (fun t : TreeSet Int => if n ∈ t then 1 else 0) s.vvNew b
    ((s.vvNew b).insert nId)
  simp only [mem_insert] at htotal
  unfold refs setNew
  rcases eq_or_ne n nId with rfl | hne
  · simp only [true_or, if_true, if_neg h] at htotal ⊢
    omega
  · simp only [hne, false_or, if_false] at htotal ⊢
    omega

theorem refs_erase (h : nId ∈ s.vvNew b) (n : Int) :
    (s.setNew b ((s.vvNew b).erase nId)).refs n + (if n = nId then 1 else 0) = s.refs n := by
  have htotal := total_update (fun t : TreeSet Int => if n ∈ t then 1 else 0) s.vvNew b
    ((s.vvNew b).erase nId)
  simp only [mem_erase] at htotal
  unfold refs setNew
  rcases eq_or_ne n nId with rfl | hne
  · simp only [ne_eq, not_true, false_and, if_false, if_pos h, if_true] at htotal ⊢
    omega
  · simp only [ne_eq, hne, not_false_iff, true_and, if_false] at htotal ⊢
    omega

theorem size_insert (h : a ∉ t) : (t.insert a).size = t.size + 1 := by
  have hsize := TreeSet.size_insert (t := t) (k := a)
  rwa [if_neg (mt TreeSet.contains_iff_mem.mp h)] at hsize

theorem size_erase (h : a ∈ t) : (t.erase a).size + 1 = t.size := by
  have hpos : 0 < t.size := by
    rw [← TreeSet.length_toList]
    exact length_pos_of_mem (TreeSet.mem_toList.mpr h)
  have hsize := TreeSet.size_erase (t := t) (k := a)
  rw [if_pos (TreeSet.contains_iff_mem.mpr h)] at hsize
  omega

theorem size_erase_le (t : TreeSet Int) (a : Int) : (t.erase a).size ≤ t.size :=
  TreeSet.size_erase_le

/-! ## Machine integers -/

theorem toInt_inc (h : x.toInt < 2 ^ 31 - 1) : (x + 1).toInt = x.toInt + 1 := by
  have hlow := x.minValue_le_toInt
  rw [Int32.toInt_add]
  simp only [Int32.reduceToInt, Int.bmod_def]
  simp only [Int32.toInt_minValue] at hlow
  omega

theorem toInt_dec (h : -2 ^ 31 < x.toInt) : (x - 1).toInt = x.toInt - 1 := by
  have hhigh := x.toInt_lt
  rw [Int32.toInt_sub]
  simp only [Int32.reduceToInt, Int.bmod_def]
  omega

theorem Counted.nTried_le (h : s.Counted e) : 0 ≤ s.nTried.toInt ∧ s.nTried.toInt ≤ 64 * 64 := by
  have hle := Buckets.total_le (w := length) h.tried_le
  rw [Fintype.card_fin] at hle
  rw [h.nTried_eq]
  omega

/-! ## Making room -/

theorem new_le_update (h : ∀ b, (s.vvNew b).size ≤ 64) (ht : t.size ≤ 64) (b' : Fin 256) :
    (update s.vvNew b t b').size ≤ 64 := by
  rw [Function.update_apply]
  split
  · exact ht
  · exact h b'

/-- What the loss of a reference does to the tables, whether the entry goes or not. -/
structure Released (s s' : CAddrMan) (nId : Int) (info : CAddrInfo) : Prop where
  linked : s'.Linked
  entry : s'.mapInfo[nId]? = if (dropRef info).nRefCount = 0 then none else some (dropRef info)
  others : ∀ n, n ≠ nId → Moved s.mapInfo s'.mapInfo n
  vvNew_eq : s'.vvNew = s.vvNew
  vvTried_eq : s'.vvTried = s.vvTried
  nTried_eq : s'.nTried = s.nTried
  length_eq : (s'.vRandom.length : Int) - s'.nNew.toInt = s.vRandom.length - s.nNew.toInt

/-- One reference fewer; the last one takes the entry with it. -/
theorem Inv.releaseInfo (h : s.Inv e) (hinfo : s.mapInfo[nId]? = some info) :
    ∃ s', s.releaseInfo nId = some s' ∧ s.Released s' nId info := by
  have hlinked : (s.modifyInfo nId dropRef).Linked :=
    h.linked.modifyInfo nId (fun _ => rfl) fun _ => rfl
  have hget := getElem?_modifyInfo s nId dropRef
  have hself : (s.modifyInfo nId dropRef).mapInfo[nId]? = some (dropRef info) := by
    rw [hget, if_pos rfl, hinfo]
    rfl
  have hmoved₁ : ∀ n, n ≠ nId → Moved s.mapInfo (s.modifyInfo nId dropRef).mapInfo n := fun n hne =>
    moved_of_eq ((hget n).trans (if_neg hne))
  unfold CAddrMan.releaseInfo
  rw [hinfo]
  by_cases hlast : (dropRef info).nRefCount = 0
  · obtain ⟨m, v, herase, hlinked', hnone, hlen, hmoved⟩ := hlinked.eraseInfo hself
    have hnTried := h.counted.nTried_le
    have hsum := h.counted.length_vRandom
    have hdec : (s.nNew - 1).toInt = s.nNew.toInt - 1 := toInt_dec (by omega)
    refine ⟨_, (if_pos hlast).trans herase, hlinked', hnone.trans (if_pos hlast).symm, ?_, rfl, rfl,
      rfl, ?_⟩
    · intro n hne
      obtain ⟨q, hq⟩ := hmoved n hne
      exact ⟨q, by rw [hq, hget, if_neg hne]⟩
    · have hlen' : v.length + 1 = s.vRandom.length := hlen
      show (v.length : Int) - (s.nNew - 1).toInt = _
      omega
  · exact ⟨_, if_neg hlast, hlinked, hself.trans (if_neg hlast).symm, hmoved₁, rfl, rfl, rfl, rfl⟩

theorem Linked.setNew (h : s.Linked) (b : Fin 256) (t : TreeSet Int) : (s.setNew b t).Linked :=
  ⟨h.random, h.nonneg, h.addr, h.fresh⟩

/-- An entry without another reference goes with its last place. -/
theorem Inv.removeFromNew (h : s.Inv e) (hmem : nId ∈ s.vvNew b) :
    ∃ s', s.removeFromNew b nId = some s' ∧ s'.Inv e ∧ s'.vvNew b = (s.vvNew b).erase nId := by
  have hrefs := one_le_refs hmem
  have herased := refs_erase hmem
  obtain ⟨info, hinfo⟩ := h.counted.exists_info (n := nId) (.inl (by omega))
  have hok := h.counted.infoOk hinfo
  have hcount := hok.nRefCount_eq
  obtain ⟨s', hs', hrel⟩ := h.releaseInfo hinfo
  have hvvNew := hrel.vvNew_eq
  have hrefs' : ∀ n, (s'.setNew b ((s'.vvNew b).erase nId)).refs n =
      (s.setNew b ((s.vvNew b).erase nId)).refs n := fun n => by
    simp only [refs, CAddrMan.setNew, hvvNew]
  have hplaces' : ∀ n, (s'.setNew b ((s'.vvNew b).erase nId)).places n = s.places n := fun n => by
    simp only [places, CAddrMan.setNew, hrel.vvTried_eq]
  refine ⟨s'.setNew b ((s'.vvNew b).erase nId), by rw [CAddrMan.removeFromNew, hs']; rfl,
    ⟨hrel.linked.setNew b _, ⟨fun n => ?_, ?_, ?_, ?_, ?_⟩⟩, ?_⟩
  · rw [hrefs', hplaces']
    have hn := herased n
    rcases eq_or_ne n nId with rfl | hne
    · rw [if_pos rfl] at hn
      -- an id of a new bucket is not tried
      obtain ⟨-, hzero, -⟩ | ⟨hnot, hlow, hhigh, hplaces⟩ := hok.kind
      · omega
      have hdrop : (dropRef info).nRefCount = info.nRefCount - 1 := rfl
      show EntryOk _ _ s'.mapInfo[n]?
      rw [hrel.entry]
      split
      · exact ⟨by omega, hplaces⟩
      · exact ⟨by omega, .inr ⟨hnot, by omega, by omega, hplaces⟩, hok.nLastTry_nonneg,
          hok.nLastSuccess_nonneg⟩
    · rw [if_neg hne, Nat.add_zero] at hn
      rw [hn]
      exact (h.counted.entry n).moved (hrel.others n hne)
  · intro b'
    show (s'.vvTried b').length ≤ 64
    rw [hrel.vvTried_eq]
    exact h.counted.tried_le b'
  · refine new_le_update ?_ ?_
    · rw [hvvNew]
      exact h.counted.new_le
    · rw [hvvNew]
      exact (size_erase_le _ _).trans (h.counted.new_le b)
  · show s'.nTried.toInt = total length s'.vvTried
    rw [hrel.nTried_eq, hrel.vvTried_eq]
    exact h.counted.nTried_eq
  · have hsum := h.counted.length_vRandom
    have hlen := hrel.length_eq
    show (s'.vRandom.length : Int) = s'.nTried.toInt + s'.nNew.toInt
    rw [hrel.nTried_eq]
    omega
  · rw [← hvvNew]
    exact Function.update_self ..

theorem Counted.exists_of_mem (h : s.Counted e) (hn : n ∈ s.vvNew b) :
    ∃ info, s.mapInfo[n]? = some info :=
  h.exists_info (.inl (Nat.lt_of_lt_of_le (one_le_refs hn) (Nat.le_add_right _ _)))

theorem exists_firstTerrible (nNow : Int64) :
    ∀ {vNew : List Int}, (∀ n ∈ vNew, ∃ info, s.mapInfo[n]? = some info) →
      ∃ o, s.firstTerrible nNow vNew = some o ∧ ∀ n, o = some n → n ∈ vNew
  | [], _ => ⟨none, rfl, by simp⟩
  | nId :: vNew, h => by
    rw [forall_mem_cons] at h
    obtain ⟨⟨info, hinfo⟩, hrest⟩ := h
    simp only [firstTerrible, hinfo, Option.bind_eq_bind, Option.bind_some]
    split
    · exact ⟨some nId, rfl, by rintro n ⟨⟩; exact mem_cons_self⟩
    · obtain ⟨o, ho, hmem⟩ := exists_firstTerrible nNow hrest
      exact ⟨o, ho, fun n hn => mem_cons_of_mem nId (hmem n hn)⟩

/-- The loop over the bucket: the oldest is of the bucket, and there is one once a drawn place was
passed. -/
theorem exists_inspectNew {n : List Nat} {all : List Int}
    (h : ∀ nId ∈ all, ∃ info, s.mapInfo[nId]? = some info) :
    ∀ {items : List (Int × Nat)} {nOldest : Option Int}, (∀ item ∈ items, item.1 ∈ all) →
      (∀ nId, nOldest = some nId → nId ∈ all) →
      ∃ o, items.foldlM (s.inspectNew n) nOldest = some o ∧ (∀ nId, o = some nId → nId ∈ all) ∧
        (nOldest.isSome ∨ (∃ item ∈ items, item.2 ∈ n) → o.isSome)
  | [], nOldest, _, hold => ⟨nOldest, rfl, hold, by simp⟩
  | item :: items, nOldest, hitems, hold => by
    rw [forall_mem_cons] at hitems
    have hstep : ∃ o, s.inspectNew n nOldest item = some o ∧ (∀ nId, o = some nId → nId ∈ all) ∧
        (nOldest.isSome ∨ item.2 ∈ n → o.isSome) := by
      unfold inspectNew
      by_cases hin : item.2 ∈ n
      · rw [if_pos hin]
        cases nOldest with
        | none => exact ⟨some item.1, rfl, by rintro nId ⟨⟩; exact hitems.1, by simp⟩
        | some nOld =>
          obtain ⟨info, hinfo⟩ := h item.1 hitems.1
          obtain ⟨infoOld, hinfoOld⟩ := h nOld (hold nOld rfl)
          simp only [hinfo, hinfoOld, Option.bind_eq_bind, Option.bind_some]
          refine ⟨_, rfl, ?_, by simp⟩
          rintro nId ⟨⟩
          split
          · exact hitems.1
          · exact hold nOld rfl
      · rw [if_neg hin]
        exact ⟨nOldest, rfl, hold, fun hor => hor.resolve_right hin⟩
    obtain ⟨o₁, ho₁, hmem₁, hsome₁⟩ := hstep
    obtain ⟨o, ho, hmem, hsome⟩ := exists_inspectNew h hitems.2 hmem₁
    refine ⟨o, by rw [foldlM_cons, ho₁]; exact ho, hmem, ?_⟩
    rintro (hold' | ⟨item', hitem', hin⟩)
    · exact hsome (.inl (hsome₁ (.inl hold')))
    · rcases mem_cons.mp hitem' with rfl | hitem'
      · exact hsome (.inl (hsome₁ (.inr hin)))
      · exact hsome (.inr ⟨item', hitem', hin⟩)

/-- Whichever branch runs, one entry leaves the bucket. -/
theorem Inv.shrinkNew (h : s.Inv e) (nNow : Int64) (rnd : Nat → Nat) (hpos : 0 < (s.vvNew b).size) :
    ∃ s' r nId, s.shrinkNew nNow rnd b = some (s', r) ∧ s'.Inv e ∧ nId ∈ s.vvNew b ∧
      s'.vvNew b = (s.vvNew b).erase nId := by
  have hall : ∀ n ∈ (s.vvNew b).toList, ∃ info, s.mapInfo[n]? = some info := fun n hn =>
    h.counted.exists_of_mem (TreeSet.mem_toList.mp hn)
  have hlen : 0 < (s.vvNew b).toList.length := by rwa [TreeSet.length_toList]
  unfold CAddrMan.shrinkNew
  obtain ⟨o, ho, hmem⟩ := exists_firstTerrible nNow hall
  simp only [ho, Option.bind_eq_bind, Option.bind_some]
  cases o with
  | some nId =>
    have hin : nId ∈ s.vvNew b := TreeSet.mem_toList.mp (hmem nId rfl)
    obtain ⟨s', hs', hinv, hvv⟩ := h.removeFromNew hin
    exact ⟨s', 0, nId, by simp only [hs', Option.bind_some]; rfl, hinv, hin, hvv⟩
  | none =>
    have hitems : ∀ item ∈ (s.vvNew b).toList.zipIdx, item.1 ∈ (s.vvNew b).toList :=
      fun item hitem => fst_mem_of_mem_zipIdx hitem
    have hstart : ∀ nId, (none : Option Int) = some nId → nId ∈ (s.vvNew b).toList := nofun
    obtain ⟨o, ho, hmem, hsome⟩ := exists_inspectNew
      (n := [getRandInt rnd 0 (s.vvNew b).toList.length, getRandInt rnd 1 (s.vvNew b).toList.length,
        getRandInt rnd 2 (s.vvNew b).toList.length, getRandInt rnd 3 (s.vvNew b).toList.length])
      hall hitems hstart
    -- the place that is drawn first is a place of the bucket
    have hdrawn : o.isSome := by
      have hlt := getRandInt_lt rnd 0 hlen
      refine hsome (.inr ⟨((s.vvNew b).toList[getRandInt rnd 0 (s.vvNew b).toList.length], _), ?_,
        mem_cons_self⟩)
      rw [mk_mem_zipIdx_iff_getElem?]
      exact getElem?_eq_getElem hlt
    obtain ⟨nId, rfl⟩ := Option.isSome_iff_exists.mp hdrawn
    have hin : nId ∈ s.vvNew b := TreeSet.mem_toList.mp (hmem nId rfl)
    obtain ⟨s', hs', hinv, hvv⟩ := h.removeFromNew hin
    exact ⟨s', 1, nId, by simp only [ho, hs', Option.bind_some]; rfl, hinv, hin, hvv⟩

/-! ## From new to tried -/

/-- What holds in the loop of `SelectTried` after its first round, over a bucket `v`. -/
def Inspected (v : List Int) (st : List Int × Option (Int × Nat)) : Prop :=
  st.1.Perm v ∧ ∃ nOldest nOldestPos, st.2 = some (nOldest, nOldestPos) ∧ nOldest ∈ v ∧
    nOldestPos < v.length

/-- A round swaps two places of the bucket, so it stays a permutation. -/
theorem exists_inspectTried (rnd : Nat → Nat) {v : List Int}
    (hall : ∀ n ∈ v, ∃ info, s.mapInfo[n]? = some info) (st : List Int × Option (Int × Nat))
    (hi : i < v.length) (hperm : st.1.Perm v)
    (hold : ∀ nOldest nOldestPos, st.2 = some (nOldest, nOldestPos) →
      nOldest ∈ v ∧ nOldestPos < v.length) :
    ∃ st', s.inspectTried rnd st i = some st' ∧ Inspected v st' := by
  have hlen := hperm.length_eq
  have hleft : 0 < st.1.length - i := by omega
  have hdraw := getRandInt_lt rnd i hleft
  have hpos : getRandInt rnd i (st.1.length - i) + i < st.1.length := by omega
  have hmem := hperm.mem_iff.mp (getElem_mem hpos)
  have hswap := (set_set_perm hpos (hlen ▸ hi)).trans hperm
  unfold inspectTried
  simp only [getElem?_eq_getElem hpos, getElem?_eq_getElem (hlen ▸ hi),
    Option.bind_eq_bind, Option.bind_some]
  cases hoption : st.2 with
  | none => exact ⟨_, rfl, hswap, _, _, rfl, hmem, hlen ▸ hpos⟩
  | some oldest =>
    obtain ⟨nOldest, nOldestPos⟩ := oldest
    obtain ⟨hmemOld, hltOld⟩ := hold nOldest nOldestPos hoption
    obtain ⟨info, hinfo⟩ := hall _ hmem
    obtain ⟨infoOld, hinfoOld⟩ := hall nOldest hmemOld
    simp only [hinfo, hinfoOld, Option.bind_some]
    refine ⟨_, rfl, hswap, ?_⟩
    split
    · exact ⟨_, _, rfl, hmem, hlen ▸ hpos⟩
    · exact ⟨_, _, rfl, hmemOld, hltOld⟩

/-- The place is in the bucket, which has been shuffled. -/
theorem exists_selectTried (rnd : Nat → Nat) {b : Fin 64} (hpos : 0 < (s.vvTried b).length)
    (hall : ∀ n ∈ s.vvTried b, ∃ info, s.mapInfo[n]? = some info) :
    ∃ v p, s.selectTried rnd b = some (v, p) ∧ v.Perm (s.vvTried b) ∧
      p < (s.vvTried b).length := by
  obtain ⟨k, hk⟩ : ∃ k, min 4 (s.vvTried b).length = k + 1 := ⟨min 4 (s.vvTried b).length - 1, by omega⟩
  obtain ⟨st₁, hst₁, hinspected⟩ := exists_inspectTried rnd hall
    (s.vvTried b, none) hpos (List.Perm.refl _) (by simp)
  have hrounds : ∀ i ∈ (range k).map Nat.succ, ∀ st, Inspected (s.vvTried b) st →
      ∃ st', s.inspectTried rnd st i = some st' ∧ Inspected (s.vvTried b) st' := by
    rintro i hi st ⟨hperm, nOldest, nOldestPos, hold, hmem, hlt⟩
    obtain ⟨j, hj, rfl⟩ := mem_map.mp hi
    rw [mem_range] at hj
    refine exists_inspectTried rnd hall st (by omega) hperm ?_
    rintro n p hnp
    cases hold.symm.trans hnp
    exact ⟨hmem, hlt⟩
  obtain ⟨⟨v, o⟩, hloop, hperm, nOldest, nOldestPos, hold, -, hlt⟩ :=
    Runs.exists_run_of hrounds hinspected
  have hfold : (range (min 4 (s.vvTried b).length)).foldlM (s.inspectTried rnd)
      (s.vvTried b, none) = some (v, o) := by
    rw [hk, range_succ_eq_map, foldlM_cons, hst₁]
    exact hloop
  refine ⟨v, nOldestPos, ?_, hperm, hlt⟩
  unfold selectTried
  simp only [hfold, Option.bind_eq_bind, Option.bind_some]
  rw [show o = some (nOldest, nOldestPos) from hold]
  rfl

theorem refs_removeFromAll (s : CAddrMan) (nId n : Int) :
    (s.removeFromAll nId).refs n = if n = nId then 0 else s.refs n := by
  have hvvNew : (s.removeFromAll nId).vvNew = fun b => (s.vvNew b).erase nId := rfl
  simp only [refs, total, hvvNew, mem_erase]
  split
  · next heq => simp [heq]
  · next hne => simp only [ne_eq, hne, not_false_iff, true_and]

theorem getElem?_removeFromAll (s : CAddrMan) (nId n : Int) :
    (s.removeFromAll nId).mapInfo[n]? =
      if n = nId then s.mapInfo[nId]?.map fun info =>
        { info with nRefCount := info.nRefCount - s.refs nId }
      else s.mapInfo[n]? := by
  have hcount := Buckets.countP_finRange s.vvNew (fun t => nId ∈ t)
  unfold refs
  rw [← hcount]
  exact getElem?_modifyInfo s nId _ n

theorem Linked.removeFromAll (h : s.Linked) (nId : Int) : (s.removeFromAll nId).Linked := by
  have hmod := h.modifyInfo nId (f := fun info => { info with
    nRefCount := info.nRefCount - ((finRange 256).countP fun b => decide (nId ∈ s.vvNew b) : Nat) })
    (fun _ => rfl) fun _ => rfl
  exact ⟨hmod.random, hmod.nonneg, hmod.addr, hmod.fresh⟩

/-- An entry that is not tried, seen from `MakeTried`. -/
structure Promotable (s : CAddrMan) (nId : Int) (info : CAddrInfo) : Prop where
  entry : s.mapInfo[nId]? = some info
  fInTried_eq : info.fInTried = false
  nLastSuccess_ne : info.nLastSuccess ≠ 0

def promoted (info : CAddrInfo) : CAddrInfo := { info with nRefCount := 0, fInTried := true }

section

variable (hp : s.Promotable nId info) (h : s.Inv fun _ => 0)
include hp h

theorem Promotable.places_eq : s.places nId = 0 := by
  obtain ⟨htried, -⟩ | ⟨-, -, -, hplaces⟩ := (h.counted.infoOk hp.entry).kind
  · rw [hp.fInTried_eq] at htried
    cases htried
  · exact hplaces

theorem Promotable.infoOk : InfoOk 0 1 (promoted info) :=
  have hok := h.counted.infoOk hp.entry
  ⟨rfl, .inl ⟨rfl, rfl, rfl, hp.nLastSuccess_ne⟩, hok.nLastTry_nonneg, hok.nLastSuccess_nonneg⟩

/-- After it has left the new buckets, the entry has no references. -/
theorem Promotable.getElem?_removeFromAll (n : Int) : (s.removeFromAll nId).mapInfo[n]? =
      if n = nId then some { info with nRefCount := 0 } else s.mapInfo[n]? := by
  have hcount := (h.counted.infoOk hp.entry).nRefCount_eq
  have hzero : info.nRefCount - (s.refs nId : Int) = 0 := by omega
  rw [CAddrMan.getElem?_removeFromAll, hp.entry, Option.map_some, hzero]

/-- Tried entries have no references, and the bucket has room. -/
theorem Inv.pushTried (hk : (s.vvTried k).length < 64) :
    ((s.removeFromAll nId).pushTried nId k).Inv fun _ => 0 := by
  have hnTried := h.counted.nTried_le
  have hsum := h.counted.length_vRandom
  have hlink := (h.linked.removeFromAll nId).modifyInfo nId
    (f := fun info => { info with fInTried := true }) (fun _ => rfl) fun _ => rfl
  have hrefs := refs_removeFromAll s nId
  have hlen := total_update length s.vvTried k (s.vvTried k ++ [nId])
  rw [length_append, length_singleton] at hlen
  have hinc : (s.nTried + 1).toInt = s.nTried.toInt + 1 := toInt_inc (by omega)
  have hdec : (s.nNew - 1).toInt = s.nNew.toInt - 1 := toInt_dec (by omega)
  refine ⟨⟨hlink.random, hlink.nonneg, hlink.addr, hlink.fresh⟩, ⟨fun n => ?_, fun b => ?_,
    fun b => (size_erase_le _ _).trans (h.counted.new_le b), ?_, ?_⟩⟩
  · have hplaces := total_update (count n) s.vvTried k (s.vvTried k ++ [nId])
    rw [count_append, count_singleton] at hplaces
    show EntryOk ((s.removeFromAll nId).refs n + 0) (total (count n) _)
      (CAddrMan.modifyInfo ..).mapInfo[n]?
    rw [getElem?_modifyInfo, hrefs, hp.getElem?_removeFromAll h, hp.getElem?_removeFromAll h]
    rcases eq_or_ne n nId with rfl | hne
    · have hzero : total (count n) s.vvTried = 0 := hp.places_eq h
      simp only [beq_self_eq_true, if_true] at hplaces ⊢
      have hone : total (count n) (update s.vvTried k (s.vvTried k ++ [n])) = 1 := by omega
      exact hone.symm ▸ hp.infoOk h
    · simp only [beq_iff_eq, hne.symm, hne, if_false] at hplaces ⊢
      have hsame : total (count n) (update s.vvTried k (s.vvTried k ++ [nId])) = s.places n :=
        Nat.add_right_cancel hplaces
      exact hsame.symm ▸ h.counted.entry n
  · show (update s.vvTried k _ b).length ≤ 64
    rw [Function.update_apply]
    split
    · rw [length_append]
      exact hk
    · exact h.counted.tried_le b
  · show (s.nTried + 1).toInt = total length (update s.vvTried k (s.vvTried k ++ [nId]))
    have hold := h.counted.nTried_eq
    omega
  · show (s.vRandom.length : Int) = (s.nTried + 1).toInt + (s.nNew - 1).toInt
    omega

end

theorem Inv.of_mem_tried (h : s.Inv fun _ => 0) (hn : n ∈ s.vvTried k) :
    ∃ info, s.mapInfo[n]? = some info ∧ info.fInTried ∧ s.refs n = 0 ∧ s.places n = 1 := by
  have hone := one_le_places hn
  obtain ⟨info, hinfo⟩ := h.counted.exists_info (.inr hone)
  obtain ⟨htried, hrefs, hplaces, -⟩ | ⟨-, -, -, hzero⟩ := (h.counted.infoOk hinfo).kind
  · exact ⟨info, hinfo, htried, hrefs, hplaces⟩
  · omega

theorem places_replace {v : List Int} (hperm : v.Perm (s.vvTried k)) (hp : v[p]? = some nOld)
    (nId n : Int) :
    total (List.count n) (update s.vvTried k (v.set p nId)) + (if n = nOld then 1 else 0) =
      s.places n + if n = nId then 1 else 0 := by
  obtain ⟨hlt, rfl⟩ := List.getElem?_eq_some_iff.mp hp
  have htotal := total_update (count n) s.vvTried k (v.set p nId)
  have hset := count_set (a := nId) (b := n) hlt
  have hcount := hperm.count_eq n
  have hpos : (if n = v[p] then 1 else 0) ≤ v.count n := by
    split
    · next heq => exact one_le_count_iff.mpr (heq ▸ getElem_mem hlt)
    · exact Nat.zero_le _
  simp only [beq_iff_eq, eq_comm (b := n)] at hset
  unfold places
  omega

/-- The oldest entry changes its table: it leaves the tried bucket for the new one as `nId` takes
its place. -/
theorem Inv.evictTried (h : s.Inv fun _ => 0) (hp : s.Promotable nId info) {v : List Int}
    (hperm : v.Perm (s.vvTried k)) (hv : v[p]? = some nOld)
    (hroom : ((s.removeFromAll nId).vvNew b).size < 64) :
    ((s.removeFromAll nId).evictTried nId nOld b k (v.set p nId)).Inv fun _ => 0 := by
  obtain ⟨hltv, hget⟩ := List.getElem?_eq_some_iff.mp hv
  obtain ⟨infoOld, hinfoOld, -, hrefsOld, hplacesOld⟩ :=
    h.of_mem_tried (hperm.mem_iff.mp (hget ▸ getElem_mem hltv))
  have hokOld := h.counted.infoOk hinfoOld
  have hplacesId := hp.places_eq h
  have hne : nOld ≠ nId := by
    rintro rfl
    omega
  have hnotin : nOld ∉ (s.removeFromAll nId).vvNew b := by
    intro hin
    have hone := one_le_refs (s := s) (mem_erase.mp hin).2
    omega
  have hlink := ((h.linked.removeFromAll nId).modifyInfo nOld
    (f := fun info => { info with fInTried := false, nRefCount := 1 }) (fun _ => rfl)
    fun _ => rfl).modifyInfo nId (f := fun info => { info with fInTried := true }) (fun _ => rfl)
    fun _ => rfl
  have hlen := total_update length s.vvTried k (v.set p nId)
  rw [length_set, hperm.length_eq] at hlen
  refine ⟨⟨hlink.random, hlink.nonneg, hlink.addr, hlink.fresh⟩, ⟨fun n => ?_, fun b' => ?_,
    ?_, ?_, ?_⟩⟩
  · have hplaces : ((s.removeFromAll nId).evictTried nId nOld b k (v.set p nId)).places n +
        (if n = nOld then 1 else 0) = s.places n + if n = nId then 1 else 0 :=
      places_replace hperm hv nId n
    have hrefs : ((s.removeFromAll nId).evictTried nId nOld b k (v.set p nId)).refs n =
        (s.removeFromAll nId).refs n + if n = nOld then 1 else 0 := refs_insert hnotin n
    have hentry : ((s.removeFromAll nId).evictTried nId nOld b k (v.set p nId)).mapInfo[n]? =
        if n = nId then some (promoted info)
        else if n = nOld then some { infoOld with fInTried := false, nRefCount := 1 }
        else s.mapInfo[n]? := by
      refine (getElem?_modifyInfo _ nId _ n).trans ?_
      have hold := getElem?_modifyInfo (s.removeFromAll nId) nOld
        fun info => { info with fInTried := false, nRefCount := 1 }
      have hall := hp.getElem?_removeFromAll h
      simp only [CAddrMan.setNew, hold, hall, if_neg hne, if_neg hne.symm, hinfoOld]
      split
      · rfl
      · rfl
    rw [refs_removeFromAll] at hrefs
    rw [hrefs, hentry]
    rcases eq_or_ne n nId with rfl | hneId
    · rw [if_neg hne.symm, if_pos rfl, Nat.add_zero, hplacesId] at hplaces
      rw [if_pos rfl, if_neg hne.symm, if_pos rfl, hplaces]
      exact hp.infoOk h
    · rw [if_neg hneId] at hplaces
      rw [if_neg hneId, if_neg hneId]
      rcases eq_or_ne n nOld with rfl | hneOld
      · rw [if_pos rfl] at hplaces
        rw [if_pos rfl, if_pos rfl, hrefsOld]
        exact ⟨rfl, .inr ⟨rfl, by omega, by omega, by omega⟩, hokOld.nLastTry_nonneg,
          hokOld.nLastSuccess_nonneg⟩
      · rw [if_neg hneOld] at hplaces
        rw [if_neg hneOld, if_neg hneOld, Nat.add_right_cancel hplaces]
        exact h.counted.entry n
  · show (update s.vvTried k (v.set p nId) b').length ≤ 64
    rw [Function.update_apply]
    split
    · rw [length_set, hperm.length_eq]
      exact h.counted.tried_le k
    · exact h.counted.tried_le b'
  · refine new_le_update (s := s.removeFromAll nId)
      (fun b' => (size_erase_le _ _).trans (h.counted.new_le b')) ?_
    exact (size_insert hnotin).trans_le hroom
  · show s.nTried.toInt = total length (update s.vvTried k (v.set p nId))
    have hold := h.counted.nTried_eq
    omega
  · show (s.vRandom.length : Int) = s.nTried.toInt + (s.nNew - 1 + 1).toInt
    rw [Int32.sub_add_cancel]
    exact h.counted.length_vRandom

theorem size_target_lt (h : s.Inv fun _ => 0) (hmem : nId ∈ s.vvNew nOrigin) (b : Fin 256) :
    ((s.removeFromAll nId).vvNew
      (if ((s.removeFromAll nId).vvNew b).size < 64 then b else nOrigin)).size < 64 := by
  split
  · next hlt => exact hlt
  · have hsize := size_erase hmem
    have hle := h.counted.new_le nOrigin
    show ((s.vvNew nOrigin).erase nId).size < 64
    omega

/-- The bucket is full: one of its entries goes back to a new bucket. -/
theorem Inv.replaceTried (crypto : Crypto) (rnd : Nat → Nat) (h : s.Inv fun _ => 0)
    (hp : s.Promotable nId info) (hmem : nId ∈ s.vvNew nOrigin) (hk : ¬(s.vvTried k).length < 64) :
    ∃ s', (s.removeFromAll nId).replaceTried crypto rnd nId nOrigin k = some s' ∧
      s'.Inv fun _ => 0 := by
  have hget := hp.getElem?_removeFromAll h
  have hplacesId := hp.places_eq h
  -- the ids of the bucket are other ones, and have entries
  have hall : ∀ n ∈ s.vvTried k, ∃ i, (s.removeFromAll nId).mapInfo[n]? = some i := by
    intro n hn
    obtain ⟨i, hi, -, -, hone⟩ := h.of_mem_tried hn
    have hne : n ≠ nId := by
      rintro rfl
      omega
    exact ⟨i, by rw [hget, if_neg hne, hi]⟩
  obtain ⟨v, p, hselect, hperm, hlt⟩ := exists_selectTried rnd
    (s := s.removeFromAll nId) (b := k) (Nat.lt_of_lt_of_le (Nat.zero_lt_succ 63) (not_lt.mp hk)) hall
  have hltv : p < v.length := hperm.length_eq ▸ hlt
  have hv : v[p]? = some v[p] := getElem?_eq_getElem hltv
  obtain ⟨infoOld, hinfoOld⟩ := hall v[p] (hperm.mem_iff.mp (getElem_mem hltv))
  have hroom := size_target_lt h hmem (infoOld.getNewBucket crypto s.nKey infoOld.source)
  refine ⟨_, ?_, h.evictTried hp hperm hv hroom⟩
  unfold CAddrMan.replaceTried
  simp only [hselect, Option.bind_eq_bind, Option.bind_some, hv, hinfoOld]
  rfl

theorem Inv.makeTried (crypto : Crypto) (rnd : Nat → Nat) (h : s.Inv fun _ => 0)
    (hp : s.Promotable nId info) (hmem : nId ∈ s.vvNew nOrigin) :
    ∃ s', s.makeTried crypto rnd nId nOrigin = some s' ∧ s'.Inv fun _ => 0 := by
  have hget := hp.getElem?_removeFromAll h nId
  unfold CAddrMan.makeTried
  simp only [guard, if_pos hmem, hget, Option.bind_eq_bind, Option.bind_some, Option.pure_def, if_true]
  split
  · next hlt => exact ⟨_, rfl, h.pushTried hp hlt⟩
  · next hfull => exact h.replaceTried crypto rnd hp hmem hfull

/-! ## The calls -/

theorem findBucket_spec {nRnd : Nat} (h : s.findBucket nRnd nId = some b) : nId ∈ s.vvNew b := by
  have hfound := find?_some h
  exact of_decide_eq_true hfound

theorem Inv.good (crypto : Crypto) (rnd : Nat → Nat) (h : s.Inv fun _ => 0) (addr : CService)
    (hTime : 0 < nTime) :
    ∃ s', s.good_ crypto rnd addr nTime = some s' ∧ s'.Inv fun _ => 0 := by
  unfold good_
  cases hfind : s.find addr.toCNetAddr with
  | none => exact ⟨s, rfl, h⟩
  | some item =>
    obtain ⟨nId, info⟩ := item
    obtain ⟨hinfo, -⟩ := h.linked.find_eq_some.mp hfind
    simp only
    split
    · exact ⟨s, rfl, h⟩
    · have hinv : (s.modifyInfo nId fun info => { info with
          nLastSuccess := nTime, nLastTry := nTime, nTime := nTime.toUInt64.toUInt32,
          nAttempts := 0 }).Inv fun _ => 0 := by
        refine h.modifyInfo nId (fun _ => rfl) (fun _ => rfl) fun r p i hi => ?_
        have hne : nTime ≠ 0 := fun heq => absurd hTime (heq ▸ Int64.lt_irrefl)
        refine ⟨hi.nRefCount_eq, ?_, Int64.le_of_lt hTime, Int64.le_of_lt hTime⟩
        exact hi.kind.imp (fun hk => ⟨hk.1, hk.2.1, hk.2.2.1, hne⟩) id
      split
      · exact ⟨_, rfl, hinv⟩
      · next hnot =>
        split
        · exact ⟨_, rfl, hinv⟩
        · next b hb =>
          have hp : (s.modifyInfo nId fun info => { info with
              nLastSuccess := nTime, nLastTry := nTime, nTime := nTime.toUInt64.toUInt32,
              nAttempts := 0 }).Promotable nId { info with
              nLastSuccess := nTime, nLastTry := nTime, nTime := nTime.toUInt64.toUInt32,
              nAttempts := 0 } := by
            refine ⟨?_, eq_false_of_ne_true hnot, fun heq => absurd hTime (heq ▸ Int64.lt_irrefl)⟩
            rw [getElem?_modifyInfo, if_pos rfl, hinfo]
            rfl
          exact hinv.makeTried crypto _ hp (findBucket_spec hb)

theorem Inv.attempt (h : s.Inv fun _ => 0) (addr : CService) (hTime : 0 ≤ nTime) :
    (s.attempt_ addr nTime).Inv fun _ => 0 := by
  unfold attempt_
  split
  · exact h
  · split
    · exact h
    · exact h.modifyInfo _ (fun _ => rfl) (fun _ => rfl) fun r p i hi =>
        ⟨hi.nRefCount_eq, hi.kind, hTime, hi.nLastSuccess_nonneg⟩

theorem Inv.connected (h : s.Inv fun _ => 0) (addr : CService) (nTime : Int64) :
    (s.connected_ addr nTime).Inv fun _ => 0 := by
  unfold connected_
  split
  · exact h
  · split
    · exact h
    · split
      · exact h.modifyInfo _ (fun _ => rfl) (fun _ => rfl) fun r p i hi =>
          ⟨hi.nRefCount_eq, hi.kind, hi.nLastTry_nonneg, hi.nLastSuccess_nonneg⟩
      · exact h

theorem Inv.length_vRandom_le (h : s.Inv fun _ => 0) : s.vRandom.length ≤ 320 * 64 := by
  have hle := Buckets.length_le_of_cover (k := 64)
    (f := Sum.elim s.vvTried fun b => (s.vvNew b).toList) h.linked.random.nodup ?_ ?_
  · rwa [Fintype.card_sum, Fintype.card_fin, Fintype.card_fin] at hle
  · intro n hn
    obtain ⟨i, hi⟩ := h.linked.random.mem_iff.mp hn
    obtain ⟨info, hinfo, -⟩ := Inverse.column_eq_some.mp hi
    rcases (h.counted.infoOk hinfo).kind with ⟨-, -, hplaces, -⟩ | ⟨-, hrefs, -, -⟩
    · obtain ⟨b, hb⟩ := exists_of_places hplaces.ge
      exact ⟨.inl b, hb⟩
    · obtain ⟨b, hb⟩ := exists_of_refs hrefs
      exact ⟨.inr b, TreeSet.mem_toList.mpr hb⟩
  · rintro (b | b)
    · exact h.counted.tried_le b
    · exact TreeSet.length_toList.trans_le (h.counted.new_le b)

def single (nId n : Int) : Nat := if n = nId then 1 else 0

/-- The reference gets into a bucket. -/
theorem Inv.insertNew (h : s.Inv (single nId)) (hnot : nId ∉ s.vvNew b)
    (hroom : (s.vvNew b).size < 64) :
    (s.setNew b ((s.vvNew b).insert nId)).Inv fun _ => 0 where
  linked := h.linked.setNew b _
  counted := by
    refine ⟨fun n => ?_, h.counted.tried_le, ?_, h.counted.nTried_eq, h.counted.length_vRandom⟩
    · have hentry := h.counted.entry n
      rwa [single, ← refs_insert hnot n] at hentry
    · exact new_le_update h.counted.new_le ((size_insert hnot).trans_le hroom)

theorem exists_addReference (nNow : Int64) (rnd : Nat → Nat)
    (hin : nId ∈ s.vvNew b → s.Inv fun _ => 0)
    (hout : nId ∉ s.vvNew b → (s.modifyInfo nId addRef).Inv (single nId)) :
    ∃ s', s.addReference nNow rnd nId b = some s' ∧ s'.Inv fun _ => 0 := by
  unfold addReference
  by_cases hnot : nId ∈ s.vvNew b
  · exact ⟨s, if_pos hnot, hin hnot⟩
  have h := hout hnot
  rw [if_neg hnot]
  simp only
  split
  · next hfull =>
    have hpos : 0 < ((s.modifyInfo nId addRef).vvNew b).size := by omega
    obtain ⟨s', r, nGone, hs', hinv, hgone, hvv⟩ := h.shrinkNew nNow rnd hpos
    have hsize := size_erase hgone
    have hnot' : nId ∉ s'.vvNew b := by
      rw [hvv, mem_erase]
      exact fun hin => hnot hin.2
    refine ⟨_, by rw [hs']; rfl, hinv.insertNew hnot' ?_⟩
    rw [hvv]
    omega
  · next hroom =>
    have hle := h.counted.new_le b
    exact ⟨_, rfl, h.insertNew hnot (by omega)⟩

theorem Inv.addRef (h : s.Inv fun _ => 0) (hinfo : s.mapInfo[nId]? = some info)
    (hnot : info.fInTried = false) (hne : info.nRefCount ≠ 4) :
    (s.modifyInfo nId addRef).Inv (single nId) where
  linked := h.linked.modifyInfo nId (fun _ => rfl) fun _ => rfl
  counted := by
    refine ⟨fun n => ?_, h.counted.tried_le, h.counted.new_le, h.counted.nTried_eq,
      h.counted.length_vRandom⟩
    show EntryOk (s.refs n + single nId n) (s.places n) _
    rw [getElem?_modifyInfo, single]
    split
    · next heq =>
      subst heq
      have hok := h.counted.infoOk hinfo
      have hcount := hok.nRefCount_eq
      rw [hinfo]
      obtain ⟨htried, -⟩ | ⟨-, hlow, hhigh, hplaces⟩ := hok.kind
      · rw [hnot] at htried
        cases htried
      · exact ⟨by show info.nRefCount + 1 = _; omega, .inr ⟨hnot, by omega, by omega, hplaces⟩,
          hok.nLastTry_nonneg, hok.nLastSuccess_nonneg⟩
    · exact h.counted.entry n

/-- The fresh entry has one reference more than places, until it is put into a bucket. -/
theorem Inv.addInfo (h : s.Inv fun _ => 0) {addr : CAddress} (source : CNetAddr)
    (nTimePenalty : Int64) (haddr : s.mapAddr.lookup addr.toCNetAddr = none) :
    ((s.addInfo addr source nTimePenalty).modifyInfo s.nIdCount CAddrMan.addRef).Inv
      (single s.nIdCount) where
  linked := by
    have hlink := (h.linked.create source haddr).modifyInfo s.nIdCount (f := fun info =>
      { info with nTime := (max 0 (CAddrInfo.time64 info.nTime - nTimePenalty)).toUInt64.toUInt32 })
      (fun _ => rfl) fun _ => rfl
    have hnew : (s.addInfo addr source nTimePenalty).Linked :=
      ⟨hlink.random, hlink.nonneg, hlink.addr, hlink.fresh⟩
    exact hnew.modifyInfo s.nIdCount (fun _ => rfl) fun _ => rfl
  counted := by
    refine ⟨fun n => ?_, h.counted.tried_le, h.counted.new_le, h.counted.nTried_eq, ?_⟩
    · have hentry := h.counted.entry n
      show EntryOk (s.refs n + single s.nIdCount n) (s.places n) _
      rw [getElem?_modifyInfo, single]
      split
      · next heq =>
        subst heq
        rw [h.linked.getElem?_nIdCount] at hentry
        obtain ⟨hrefs, hplaces⟩ := hentry
        have hnew : (s.addInfo addr source nTimePenalty).mapInfo[s.nIdCount]? =
            some { (CAddrInfo.new addr source).moveTo s.vRandom.length with
              nTime := (max 0 (CAddrInfo.time64 addr.nTime - nTimePenalty)).toUInt64.toUInt32 } := by
          refine (getElem?_modifyInfo (s.create addr source) s.nIdCount _ s.nIdCount).trans ?_
          rw [if_pos rfl, getElem?_create, if_pos rfl]
          rfl
        rw [hnew, hplaces]
        exact ⟨by show (0 : Int) + 1 = _; omega, .inr ⟨rfl, by omega, by omega, rfl⟩, Int64.le_refl 0,
          Int64.le_refl 0⟩
      · next hne =>
        have hsame : (s.addInfo addr source nTimePenalty).mapInfo[n]? = s.mapInfo[n]? := by
          refine (getElem?_modifyInfo (s.create addr source) s.nIdCount _ n).trans ?_
          rw [if_neg hne, getElem?_create, if_neg hne]
        rw [hsame]
        exact hentry
    · have hle := h.length_vRandom_le
      have hsum := h.counted.length_vRandom
      have hnTried := h.counted.nTried_le
      show ((s.vRandom ++ [s.nIdCount]).length : Int) = s.nTried.toInt + (s.nNew + 1).toInt
      rw [toInt_inc (by omega), length_append, length_singleton]
      omega

theorem Inv.add (crypto : Crypto) (rnd : Nat → Nat) (nNow : Int64) (h : s.Inv fun _ => 0)
    (addr : CAddress) (source : CNetAddr) (nTimePenalty : Int64) :
    ∃ s' f, s.add_ crypto rnd nNow addr source nTimePenalty = some (s', f) ∧ s'.Inv fun _ => 0 := by
  unfold add_
  split
  · exact ⟨s, false, rfl, h⟩
  · cases hfind : s.find addr.toCNetAddr with
    | some item =>
      obtain ⟨nId, info⟩ := item
      obtain ⟨hinfo, -⟩ := h.linked.find_eq_some.mp hfind
      have hinv : (s.modifyInfo nId (refreshInfo addr nTimePenalty nNow)).Inv fun _ => 0 :=
        h.modifyInfo nId (fun _ => rfl) (fun _ => rfl) fun r p i hi =>
          ⟨hi.nRefCount_eq, hi.kind, hi.nLastTry_nonneg, hi.nLastSuccess_nonneg⟩
      have hget : (s.modifyInfo nId (refreshInfo addr nTimePenalty nNow)).mapInfo[nId]? =
          some (refreshInfo addr nTimePenalty nNow info) := by
        rw [getElem?_modifyInfo, if_pos rfl, hinfo]
        rfl
      simp only
      split
      · exact ⟨_, false, rfl, hinv⟩
      · next hsettled =>
        simp only [isSettled, Bool.or_eq_true, not_or, Bool.not_eq_true, beq_eq_false_iff_ne] at hsettled
        obtain ⟨⟨⟨-, hnot⟩, hne⟩, -⟩ := hsettled
        obtain ⟨s', hs', hinv'⟩ := exists_addReference nNow (fun k => rnd (k + 1))
          (b := (refreshInfo addr nTimePenalty nNow info).getNewBucket crypto
            (s.modifyInfo nId (refreshInfo addr nTimePenalty nNow)).nKey source)
          (fun _ => hinv) fun _ => hinv.addRef hget hnot hne
        exact ⟨s', false, by rw [hs']; rfl, hinv'⟩
    | none =>
      have hfresh : s.refs s.nIdCount = 0 := by
        have hentry := h.counted.entry s.nIdCount
        rw [h.linked.getElem?_nIdCount] at hentry
        exact hentry.1
      have hnot : s.nIdCount ∉ (s.addInfo addr source nTimePenalty).vvNew
          ((CAddrInfo.new addr source).getNewBucket crypto s.nKey source) := by
        intro hin
        have hone := one_le_refs (s := s) hin
        omega
      obtain ⟨s', hs', hinv'⟩ := exists_addReference nNow (fun k => rnd (k + 1))
        (fun hin => absurd hin hnot)
        fun _ => h.addInfo source nTimePenalty (h.linked.lookup_of_find hfind)
      exact ⟨s', true, by simp only; rw [hs']; rfl, hinv'⟩

theorem Inv.swapRandom (h : s.Inv e) {p₁ p₂ : Nat} (h₁ : p₁ < s.vRandom.length)
    (h₂ : p₂ < s.vRandom.length) :
    ∃ s', s.swapRandom p₁ p₂ = some s' ∧ s'.Inv e ∧ s'.vRandom.length = s.vRandom.length := by
  obtain ⟨m, v, hswap, hlinked, -, hlen, hmoved⟩ := h.linked.swapRandom
    (getElem?_eq_getElem h₁) (getElem?_eq_getElem h₂)
  refine ⟨_, hswap, ⟨hlinked, ⟨fun n => (h.counted.entry n).moved (hmoved n), h.counted.tried_le,
    h.counted.new_le, h.counted.nTried_eq, ?_⟩⟩, hlen⟩
  show (v.length : Int) = s.nTried.toInt + s.nNew.toInt
  rw [hlen]
  exact h.counted.length_vRandom

/-- The shuffle only swaps places of `vRandom`. -/
theorem Inv.getAddr (rnd : Nat → Nat) (h : s.Inv fun _ => 0) :
    ∃ s' vAddr, s.getAddr_ rnd = some (s', vAddr) ∧ s'.Inv fun _ => 0 := by
  have hrounds : ∀ n ∈ range (min (23 * s.vRandom.length / 100) 2500),
      ∀ st : CAddrMan × List CAddress,
        st.1.Inv (fun _ => 0) ∧ st.1.vRandom.length = s.vRandom.length →
        ∃ st', shuffleRound rnd st n = some st' ∧ st'.1.Inv (fun _ => 0) ∧
          st'.1.vRandom.length = s.vRandom.length := by
    rintro n hn st ⟨hinv, hlen⟩
    have hlt : n < st.1.vRandom.length := by
      have := mem_range.mp hn
      omega
    have hleft : 0 < st.1.vRandom.length - n := by omega
    have hdraw := getRandInt_lt rnd n hleft
    have hlt' : getRandInt rnd n (st.1.vRandom.length - n) + n < st.1.vRandom.length := by omega
    obtain ⟨s', hs', hinv', hlen'⟩ := hinv.swapRandom hlt hlt'
    obtain ⟨nId, hget⟩ : ∃ nId, s'.vRandom[n]? = some nId :=
      ⟨_, getElem?_eq_getElem (by omega)⟩
    obtain ⟨info, hinfo, -⟩ := hinv'.linked.exists_info hget
    refine ⟨(s', st.2 ++ [info.toCAddress]), ?_, hinv', by rw [hlen', hlen]⟩
    unfold shuffleRound
    simp only [hs', hget, hinfo, Option.bind_eq_bind, Option.bind_some]
    rfl
  obtain ⟨⟨s', vAddr⟩, hrun, hinv, -⟩ := Runs.exists_run_of hrounds (s := (s, [])) ⟨h, rfl⟩
  exact ⟨s', vAddr, hrun, hinv⟩

theorem exists_selectFrom {table : Nat → List Int}
    (hall : ∀ b, ∀ n ∈ table b, ∃ info, s.mapInfo[n]? = some info) :
    ∀ draws, ∃ addr, s.selectFrom table draws = some addr
  | [] => ⟨_, rfl⟩
  | draw :: draws => by
    obtain ⟨addr, hrest⟩ := exists_selectFrom hall draws
    simp only [selectFrom]
    split
    · exact ⟨addr, hrest⟩
    · next hne =>
      have hlt := Nat.mod_lt draw.nPos (Nat.pos_of_ne_zero hne)
      obtain ⟨info, hinfo⟩ := hall _ _ (getElem_mem hlt)
      simp only [getElem?_eq_getElem hlt, hinfo, Option.bind_eq_bind, Option.bind_some]
      split
      · exact ⟨_, rfl⟩
      · exact ⟨addr, hrest⟩

theorem Inv.select (h : s.Inv fun _ => 0) (fTried : Bool) (draws : List SelectDraw) :
    ∃ addr, s.select_ fTried draws = some addr := by
  unfold select_
  split
  · exact ⟨_, rfl⟩
  · split
    · exact exists_selectFrom (fun b n hn => (h.of_mem_tried hn).imp fun _ => And.left) draws
    · exact exists_selectFrom (fun b n hn =>
        h.counted.exists_of_mem (TreeSet.mem_toList.mp hn)) draws

/-! ## What `Check_` says -/

theorem nodup_keys (s : CAddrMan) : (s.mapInfo.toList.map Prod.fst).Nodup := by
  rw [List.Nodup, pairwise_map]
  exact TreeMap.distinct_keys_toList.imp fun {a b} (hne : ¬compare a.1 b.1 = .eq)
    (heq : a.1 = b.1) => hne (heq ▸ Std.ReflCmp.compare_self)

theorem mem_keys : n ∈ s.mapInfo.toList.map Prod.fst ↔ ∃ info, s.mapInfo[n]? = some info := by
  simp only [mem_map, Prod.exists, mem_toList, exists_eq_right, exists_and_right]

theorem Linked.perm_keys (h : s.Linked) : s.vRandom.Perm (s.mapInfo.toList.map Prod.fst) := by
  refine (perm_ext_iff_of_nodup h.random.nodup (nodup_keys s)).mpr fun n => ?_
  rw [h.random.mem_iff, mem_keys]
  constructor
  · rintro ⟨i, hi⟩
    obtain ⟨info, hinfo, -⟩ := Inverse.column_eq_some.mp hi
    exact ⟨info, hinfo⟩
  · rintro ⟨info, hinfo⟩
    exact ⟨_, Inverse.column_of_some hinfo _⟩

theorem Counted.perm_tried (h : s.Counted fun _ => 0) :
    ((List.finRange 64).flatMap s.vvTried).Perm
      ((s.mapInfo.toList.filter fun item => item.2.fInTried).map Prod.fst) := by
  have hnodup : ((s.mapInfo.toList.filter fun item => item.2.fInTried).map Prod.fst).Nodup :=
    (nodup_keys s).sublist (filter_sublist.map Prod.fst)
  have hmem : ∀ n, n ∈ (s.mapInfo.toList.filter fun item => item.2.fInTried).map Prod.fst ↔
      ∃ info, s.mapInfo[n]? = some info ∧ info.fInTried := by
    simp only [mem_map, mem_filter, Prod.exists, mem_toList, exists_and_right,
      exists_eq_right, implies_true]
  refine perm_iff_count.mpr fun n => ?_
  rw [count_tried, hnodup.count]
  simp only [hmem]
  have hentry := h.entry n
  cases hinfo : s.mapInfo[n]? with
  | none =>
    rw [hinfo] at hentry
    simp [hentry.2]
  | some info =>
    rcases (h.infoOk hinfo).kind with ⟨ht, -, hp, -⟩ | ⟨ht, -, -, hp⟩ <;> simp [ht, hp]

theorem Inv.checked (h : s.Inv fun _ => 0) : s.Checked := by
  have hsum := h.counted.length_vRandom
  have hkeys := h.linked.perm_keys.length_eq
  have hsplit := length_eq_length_filter_add (l := s.mapInfo.toList) fun item => item.2.fInTried
  rw [length_map] at hkeys
  have hnTried : ((s.mapInfo.toList.filter fun item => item.2.fInTried).length : Int) =
      s.nTried.toInt := by
    have htried := h.counted.perm_tried.length_eq
    rw [Buckets.length_flatMap_finRange, length_map] at htried
    rw [h.counted.nTried_eq, htried]
  refine ⟨h.counted.entry, fun n info hinfo => ?_, fun n info hinfo => ?_, hsum, hnTried, by omega⟩
  · have hlook : s.mapAddr.lookup info.toCNetAddr = some n :=
      (h.linked.addr _ n).mpr (Inverse.column_of_some hinfo _)
    rw [hlook]
    rfl
  · exact ⟨h.linked.nonneg n info hinfo, h.linked.getElem?_vRandom hinfo⟩

/-! ## Runs -/

theorem Inv.step (crypto : Crypto) (h : s.Inv fun _ => 0) {call : AddrManCall} (hcall : call.TimeOk) :
    ∃ s', s.step crypto call = some s' ∧ s'.Inv fun _ => 0 := by
  cases call with
  | add addr source nTimePenalty nNow rnd =>
    obtain ⟨s', f, hs', hinv⟩ := h.add crypto rnd nNow addr source nTimePenalty
    exact ⟨s', by rw [CAddrMan.step, hs']; rfl, hinv⟩
  | good addr nTime rnd => exact h.good crypto rnd addr hcall
  | attempt addr nTime => exact ⟨_, rfl, h.attempt addr hcall⟩
  | connected addr nTime => exact ⟨_, rfl, h.connected addr nTime⟩
  | getAddr rnd =>
    obtain ⟨s', vAddr, hs', hinv⟩ := h.getAddr rnd
    exact ⟨s', by rw [CAddrMan.step, hs']; rfl, hinv⟩
  | select fTried draws =>
    obtain ⟨addr, haddr⟩ := h.select fTried draws
    exact ⟨s, by rw [CAddrMan.step, haddr]; rfl, h⟩

theorem inv_run (crypto : Crypto) (nKey : List UInt8) {calls : List AddrManCall}
    (hcalls : ∀ call ∈ calls, call.TimeOk) :
    ∃ s, run crypto (new nKey) calls = some s ∧ s.Inv fun _ => 0 :=
  Runs.exists_run_of (fun call hcall _ h => h.step crypto (hcalls call hcall)) (inv_new nKey)

/-- The tables fit together: `vRandom` and `mapAddr` lead to the entries and back, an entry is
tried, once and without references, or has one to four, as many as new buckets with its id; the
counters are right, and no bucket is over its size. -/
structure Consistent (s : CAddrMan) : Prop where
  random : ∀ (p : Nat) (n : Int), s.vRandom[p]? = some n ↔
    ∃ info, s.mapInfo[n]? = some info ∧ info.nRandomPos = p
  addr : ∀ (addr : CNetAddr) (n : Int), s.mapAddr.lookup addr = some n ↔
    ∃ info, s.mapInfo[n]? = some info ∧ info.toCNetAddr = addr
  entry : ∀ n : Int, EntryOk (s.refs n) (s.places n) s.mapInfo[n]?
  nTried_eq : s.nTried.toInt = (s.mapInfo.toList.filter fun item => item.2.fInTried).length
  nNew_eq : s.nNew.toInt = (s.mapInfo.toList.filter fun item => !item.2.fInTried).length
  tried_le : ∀ b, (s.vvTried b).length ≤ 64
  new_le : ∀ b, (s.vvNew b).size ≤ 64

theorem Inv.consistent (h : s.Inv fun _ => 0) : s.Consistent where
  random p n := by
    constructor
    · exact h.linked.exists_info
    · rintro ⟨info, hinfo, hpos⟩
      have hget := h.linked.getElem?_vRandom hinfo
      rwa [hpos] at hget
  addr addr n := (h.linked.addr addr n).trans Inverse.column_eq_some
  entry := h.counted.entry
  nTried_eq := h.checked.nTried_eq.symm
  nNew_eq := h.checked.nNew_eq.symm
  tried_le := h.counted.tried_le
  new_le := h.counted.new_le

/-- After every run no `assert` has failed, `Check_` finds nothing, and the tables fit together. -/
theorem addrMan_consistent (crypto : Crypto) (nKey : List UInt8) (calls : List AddrManCall)
    (hcalls : ∀ call ∈ calls, call.TimeOk) :
    ∃ s, run crypto (new nKey) calls = some s ∧ s.check_ = .ok () ∧ s.Consistent := by
  obtain ⟨s, hrun, hinv⟩ := inv_run crypto nKey hcalls
  exact ⟨s, hrun, check_eq_ok_iff.mpr hinv.checked, hinv.consistent⟩

def sampleAddr : CAddress :=
  { ip := [0, 0, 0, 0, 0, 0, 0, 0, 0, 0, 0xff, 0xff, 8, 8, 8, 8], length_ip := rfl, port := 7777,
    nServices := 1, nTime := 1400000000, nLastTry := 0 }

def sampleCalls (nTime : Int64) : List AddrManCall :=
  [.add sampleAddr sampleAddr.toCNetAddr 0 1400000000 fun _ => 0,
    .good sampleAddr.toCService nTime fun _ => 0]

/-- A connection at the time 0 makes the entry a tried one that was never connected to. -/
theorem good_at_zero : ∃ s, run .sample (new []) (sampleCalls 0) = some s ∧
    s.check_ = .error (-1) := by
  decide +kernel

/-- Two calls after which `Check_` passes. -/
theorem addrMan_consistent_sample :
    (∀ call ∈ sampleCalls 1400000000, call.TimeOk) ∧
      ∃ s, run .sample (new []) (sampleCalls 1400000000) = some s ∧ s.check_ = .ok () ∧
        s.Consistent := by
  have hcalls : ∀ call ∈ sampleCalls 1400000000, call.TimeOk := by
    intro call hcall
    simp only [sampleCalls, mem_cons, not_mem_nil, or_false] at hcall
    rcases hcall with rfl | rfl
    · trivial
    · exact (by decide : (0 : Int64) < 1400000000)
  exact ⟨hcalls, addrMan_consistent .sample [] _ hcalls⟩

/-! ## Eviction -/

def lastSuccess (s : CAddrMan) (n : Int) : Int64 := (s.mapInfo[n]?.map (·.nLastSuccess)).getD 0

/-- The entry that is drawn in the round `i` changes places with the one at `i`. -/
def swapDrawn (rnd : Nat → Nat) (v : List Int) (i : Nat) : List Int :=
  let nPos := getRandInt rnd i (v.length - i) + i
  (v.set nPos (v.getD i 0)).set i (v.getD nPos 0)

/-- The bucket after `n` rounds: the entries that were inspected are at the first `n` places. -/
def shuffled (rnd : Nat → Nat) (v : List Int) (n : Nat) : List Int := (range n).foldl (swapDrawn rnd) v

/-- None of the first `n` entries had its last success before the one at `p`. -/
def Oldest (s : CAddrMan) (v : List Int) (n p : Nat) : Prop :=
  ∀ j < n, s.lastSuccess (v.getD p 0) ≤ s.lastSuccess (v.getD j 0)

/-- The first of the oldest ones among the first `n` entries. -/
structure FirstOldest (s : CAddrMan) (v : List Int) (n i : Nat) : Prop where
  lt : i < n
  first : ∀ j < i, s.lastSuccess (v.getD i 0) < s.lastSuccess (v.getD j 0)
  oldest : s.Oldest v n i

section

variable {rnd : Nat → Nat} {v : List Int} {st st' : List Int × Option (Int × Nat)} {n : Nat}

@[simp] theorem length_swapDrawn (rnd : Nat → Nat) (v : List Int) (i : Nat) :
    (swapDrawn rnd v i).length = v.length := by
  simp [swapDrawn]

theorem getD_swapDrawn_of_lt (rnd : Nat → Nat) (v : List Int) {j : Nat} (hj : j < i) :
    (swapDrawn rnd v i).getD j 0 = v.getD j 0 := by
  simp [swapDrawn, getD_eq_getElem?_getD, getElem?_set_ne (show i ≠ j by omega),
    getElem?_set_ne (show getRandInt rnd i (v.length - i) + i ≠ j by omega)]

/-- A round moves the drawn entry, but what it remembers is the place the entry came from. -/
theorem inspectTried_cases (h : s.inspectTried rnd st n = some st') :
    st'.1 = swapDrawn rnd st.1 n ∧
      st'.2 = match st.2 with
        | none => some (st'.1.getD n 0, getRandInt rnd n (st.1.length - n) + n)
        | some o => if s.lastSuccess (st'.1.getD n 0) < s.lastSuccess o.1 then
            some (st'.1.getD n 0, getRandInt rnd n (st.1.length - n) + n)
          else some o := by
  unfold inspectTried at h
  simp only [Option.bind_eq_bind, Option.bind_eq_some_iff] at h
  obtain ⟨nTemp, htemp, nSwap, hswap, h⟩ := h
  obtain ⟨hlt, -⟩ := List.getElem?_eq_some_iff.mp hswap
  have hv : (st.1.set (getRandInt rnd n (st.1.length - n) + n) nSwap).set n nTemp =
      swapDrawn rnd st.1 n := by
    simp only [swapDrawn, getD_eq_getElem?_getD, htemp, hswap, Option.getD_some]
  have hget : (swapDrawn rnd st.1 n).getD n 0 = nTemp := by
    rw [← hv]
    simp [hlt]
  cases hst : st.2 with
  | none =>
    rw [hst] at h
    cases h
    exact ⟨hv, by rw [hv, hget]⟩
  | some o =>
    simp only [hst, Option.bind_eq_some_iff] at h
    obtain ⟨info, hinfo, infoOldest, hold, h⟩ := h
    cases h
    refine ⟨hv, ?_⟩
    simp only [hv, hget, lastSuccess, hinfo, hold, Option.map_some, Option.getD_some]

theorem FirstOldest.swap (h : FirstOldest s v n i) (rnd : Nat → Nat) :
    FirstOldest s (swapDrawn rnd v n) (n + 1)
      (if s.lastSuccess ((swapDrawn rnd v n).getD n 0) < s.lastSuccess (v.getD i 0) then n else i) := by
  have hkeep : ∀ j < n, (swapDrawn rnd v n).getD j 0 = v.getD j 0 :=
    fun j hj => getD_swapDrawn_of_lt rnd v hj
  have hi := hkeep i h.lt
  split
  · next hless =>
    have hall : ∀ j < n, s.lastSuccess ((swapDrawn rnd v n).getD n 0) <
        s.lastSuccess ((swapDrawn rnd v n).getD j 0) := fun j hj => by
      rw [hkeep j hj]
      exact Int64.lt_of_lt_of_le hless (h.oldest j hj)
    refine ⟨n.lt_succ_self, hall, fun j hj => ?_⟩
    rcases Nat.lt_succ_iff_lt_or_eq.mp hj with hj | rfl
    · exact Int64.le_of_lt (hall j hj)
    · exact Int64.le_refl _
  · next hnot =>
    refine ⟨h.lt.trans n.lt_succ_self, fun j hj => ?_, fun j hj => ?_⟩
    · rw [hi, hkeep j (hj.trans h.lt)]
      exact h.first j hj
    · rw [hi]
      rcases Nat.lt_succ_iff_lt_or_eq.mp hj with hj | rfl
      · rw [hkeep j hj]
        exact h.oldest j hj
      · exact Int64.not_lt.mp hnot

/-- After `n + 1` rounds the bucket is shuffled, and the place that is kept is the one from which the
first of the oldest entries was drawn. -/
theorem inspectTried_run (h : (range (n + 1)).foldlM (s.inspectTried rnd) (v, none) = some st) :
    st.1 = shuffled rnd v (n + 1) ∧ st.1.length = v.length ∧ ∃ i, FirstOldest s st.1 (n + 1) i ∧
      st.2 = some (st.1.getD i 0, getRandInt rnd i (v.length - i) + i) := by
  induction n generalizing st with
  | zero =>
    simp only [zero_add, range_one, foldlM_cons, foldlM_nil, bind_pure] at h
    obtain ⟨hv, hfirst⟩ := inspectTried_cases h
    refine ⟨hv, by rw [hv, length_swapDrawn], 0, ⟨Nat.one_pos, nofun, fun j hj => ?_⟩, hfirst⟩
    rw [Nat.lt_one_iff.mp hj]
    exact Int64.le_refl _
  | succ n ih =>
    rw [range_succ, foldlM_append] at h
    obtain ⟨st₁, hst₁, h⟩ := Option.bind_eq_some_iff.mp h
    simp only [foldlM_cons, foldlM_nil, bind_pure] at h
    obtain ⟨hv₁, hlen₁, i, hi, hplace⟩ := ih hst₁
    obtain ⟨hv, hnext⟩ := inspectTried_cases h
    have hswap := hi.swap rnd
    rw [← hv] at hswap
    rw [hplace, hlen₁] at hnext
    have hkeep : st.1.getD i 0 = st₁.1.getD i 0 := by
      rw [hv]
      exact getD_swapDrawn_of_lt rnd _ hi.lt
    refine ⟨?_, by rw [hv, length_swapDrawn, hlen₁], ?_⟩
    · rw [hv, hv₁, shuffled, shuffled, range_succ (n := n + 1), foldl_append]
      rfl
    · simp only at hnext
      split at hnext
      · next hless =>
        rw [if_pos hless] at hswap
        exact ⟨n + 1, hswap, hnext⟩
      · next hnot =>
        rw [if_neg hnot] at hswap
        exact ⟨i, hswap, by rw [hnext, hkeep]⟩

end

/-- `SelectTried` shuffles the bucket and returns the place from which the first of the oldest
inspected entries was drawn, although that entry is at the place `i` afterwards. This is right exactly
if the entry that came in its place is not younger: if the number drawn in the round `i` is 0, so that
nothing was moved; and if the returned place was inspected and no two entries are equally old, only
then. -/
theorem selectTried_oldest (rnd : Nat → Nat) {b : Fin 64} {n : Nat}
    (hn : n = min 4 (s.vvTried b).length) (hpos : 0 < (s.vvTried b).length)
    (hall : ∀ id ∈ s.vvTried b, ∃ info, s.mapInfo[id]? = some info) :
    (shuffled rnd (s.vvTried b) n).Perm (s.vvTried b) ∧
    ∃ i, FirstOldest s (shuffled rnd (s.vvTried b) n) n i ∧
      ∃ p, p = getRandInt rnd i ((s.vvTried b).length - i) + i ∧
        s.selectTried rnd b = some (shuffled rnd (s.vvTried b) n, p) ∧
        (s.Oldest (shuffled rnd (s.vvTried b) n) n p ↔
          s.lastSuccess ((shuffled rnd (s.vvTried b) n).getD p 0) ≤
            s.lastSuccess ((shuffled rnd (s.vvTried b) n).getD i 0)) ∧
        (getRandInt rnd i ((s.vvTried b).length - i) = 0 →
          s.Oldest (shuffled rnd (s.vvTried b) n) n p) ∧
        (((s.vvTried b).map s.lastSuccess).Nodup → p < n →
          s.Oldest (shuffled rnd (s.vvTried b) n) n p →
            getRandInt rnd i ((s.vvTried b).length - i) = 0) := by
  obtain ⟨_, _, hselect, hperm, hlt⟩ := exists_selectTried rnd hpos hall
  have hloop := hselect
  unfold selectTried at hloop
  simp only [Option.bind_eq_bind, Option.bind_eq_some_iff] at hloop
  obtain ⟨⟨v, o⟩, hrun, ⟨nOldest, p⟩, ho, hret⟩ := hloop
  cases hret
  obtain ⟨k, rfl⟩ : ∃ k, n = k + 1 := ⟨n - 1, by omega⟩
  rw [← hn] at hrun
  obtain ⟨hv, -, i, hi, hplace⟩ := inspectTried_run hrun
  have hp : p = getRandInt rnd i ((s.vvTried b).length - i) + i :=
    (Prod.ext_iff.mp (Option.some.inj (ho.symm.trans hplace))).2
  simp only at hv hi
  rw [← hv]
  refine ⟨hperm, i, hi, p, hp, hselect,
    ⟨fun h => h i hi.lt, fun h j hj => Int64.le_trans h (hi.oldest j hj)⟩, fun h0 => ?_,
    fun hnodup hinspected hold => ?_⟩
  · rw [hp, h0, Nat.zero_add]
    exact hi.oldest
  · -- two inspected entries as old as each other are one entry
    have heq : s.lastSuccess (v.getD p 0) = s.lastSuccess (v.getD i 0) :=
      Int64.le_antisymm (hold i hi.lt) (hi.oldest p hinspected)
    have hlen : v.length = (s.vvTried b).length := hperm.length_eq
    have hi_lt : i < v.length := by
      have := hi.lt
      omega
    have hp_lt : p < v.length := hlen ▸ hlt
    have hmap : (v.map s.lastSuccess).Nodup := (hperm.map _).nodup_iff.mpr hnodup
    simp only [getD_eq_getElem?_getD, getElem?_eq_getElem, hi_lt, hp_lt, Option.getD_some] at heq
    have hpi : p = i :=
      (getElem?_inj (by rwa [length_map]) hmap).mp (by simp [hp_lt, hi_lt, heq])
    omega

/-- A full bucket of entries with different times, the second of which is the oldest. -/
def fullBucket : CAddrMan :=
  { new [] with
    mapInfo := TreeMap.ofList ((range 64).map fun (n : Nat) =>
      ((n : Int), { CAddrInfo.new sampleAddr sampleAddr.toCNetAddr with
        nLastSuccess := if n = 1 then 1 else .ofNat (1000 + n) }))
    vvTried := fun _ => (range 64).map Nat.cast }

theorem fullBucket_info : ∀ n ∈ fullBucket.vvTried 0, ∃ info, fullBucket.mapInfo[n]? = some info := by
  have hsome : ∀ n ∈ fullBucket.vvTried 0, fullBucket.mapInfo[n]?.isSome := by decide +kernel
  exact fun n hn => Option.isSome_iff_exists.mp (hsome n hn)

/-- The oldest entry is drawn from the second place and moved to the first one; the second place is
returned, where the entry of the first one is now. -/
theorem fullBucket_wrong : (fullBucket.vvTried 0).length = 64 ∧
    fullBucket.selectTried (fun i => if i = 0 then 1 else 0) 0 =
      some (1 :: 0 :: (range 62).map fun (n : Nat) => (n + 2 : Int), 1) ∧
    fullBucket.lastSuccess 1 < fullBucket.lastSuccess 0 := by
  decide +kernel

/-- Without a move the oldest entry is found. -/
theorem fullBucket_right : ∃ v p, fullBucket.selectTried (fun _ => 0) 0 = some (v, p) ∧
    fullBucket.Oldest v 4 p := by
  obtain ⟨-, i, -, p, -, hselect, -, hright, -⟩ :=
    selectTried_oldest (fun _ => 0) (n := 4) rfl (by decide : 0 < (fullBucket.vvTried 0).length)
      fullBucket_info
  exact ⟨_, p, hselect, hright (by simp [getRandInt])⟩

end CAddrMan

end NovaCoin
