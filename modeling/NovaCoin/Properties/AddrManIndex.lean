import NovaCoin.AddrMan
import NovaCoin.Infra.Inverse

/-!
# The indices of the address manager

`vRandom` and the field `nRandomPos`, and `mapAddr` and the addresses of the entries, lead back and
forth (`Linked`). `SwapRandom`, `Create` and the deletion of an entry keep it so, and no `assert` in
them fails.
-/

namespace NovaCoin

open List

open Function (update)

def CAddrInfo.moveTo (q : Int) (info : CAddrInfo) : CAddrInfo := { info with nRandomPos := q }

namespace CAddrMan

structure Linked (s : CAddrMan) : Prop where
  random : Inverse (s.vRandom[·]?) (Inverse.column s.mapInfo (·.nRandomPos.toNat))
  nonneg : ∀ (n : Int) info, s.mapInfo[n]? = some info → 0 ≤ info.nRandomPos
  addr : Inverse s.mapAddr.lookup (Inverse.column s.mapInfo (·.toCNetAddr))
  fresh : ∀ (n : Int) info, s.mapInfo[n]? = some info → n < s.nIdCount

variable {s : CAddrMan}

theorem linked_new (nKey : List UInt8) : (new nKey).Linked where
  random _ _ := by simp [new, Inverse.column]
  nonneg n info h := by simp [new] at h
  addr _ _ := by simp [new, Inverse.column]
  fresh n info h := by simp [new] at h

/-! ## Changes of one entry -/

theorem getElem?_modifyInfo (s : CAddrMan) (nId : Int) (f : CAddrInfo → CAddrInfo) (n : Int) :
    (s.modifyInfo nId f).mapInfo[n]? =
      if n = nId then s.mapInfo[nId]?.map f else s.mapInfo[n]? :=
  Inverse.getElem?_modify_eq s.mapInfo nId f n

variable {nId n n₁ n₂ : Int} {info info' : CAddrInfo} {m m' : Std.TreeMap Int CAddrInfo}
  {f : CAddrInfo → CAddrInfo} {addr : CNetAddr}

theorem exists_of_modifyInfo (h : (s.modifyInfo nId f).mapInfo[n]? = some info') :
    ∃ info, s.mapInfo[n]? = some info ∧ info' = if n = nId then f info else info := by
  rw [getElem?_modifyInfo] at h
  split at h
  · next heq =>
    obtain ⟨info, hinfo, rfl⟩ := Option.map_eq_some_iff.mp h
    exact ⟨info, heq ▸ hinfo, (if_pos heq).symm⟩
  · next hne => exact ⟨info', h, (if_neg hne).symm⟩

/-- Changes that leave the place and the address of an entry. -/
theorem Linked.modifyInfo (h : s.Linked) (nId : Int)
    (hpos : ∀ info, (f info).nRandomPos = info.nRandomPos)
    (haddr : ∀ info, (f info).toCNetAddr = info.toCNetAddr) : (s.modifyInfo nId f).Linked where
  random := by
    unfold CAddrMan.modifyInfo
    rw [Inverse.column_modify_of fun info => by rw [hpos]]
    exact h.random
  nonneg n info' h' := by
    obtain ⟨info, hinfo, rfl⟩ := exists_of_modifyInfo h'
    have hnonneg := h.nonneg n info hinfo
    split
    · rwa [hpos]
    · exact hnonneg
  addr := by
    unfold CAddrMan.modifyInfo
    rw [Inverse.column_modify_of haddr]
    exact h.addr
  fresh n info' h' := by
    obtain ⟨info, hinfo, -⟩ := exists_of_modifyInfo h'
    exact h.fresh n info hinfo

/-! ## `Find` and `Create` -/

theorem Linked.find_eq_some (h : s.Linked) :
    s.find addr = some (nId, info) ↔ s.mapInfo[nId]? = some info ∧ info.toCNetAddr = addr := by
  simp only [find, Option.bind_eq_bind, Option.bind_eq_some_iff, Option.pure_def,
    Option.some.injEq, Prod.mk.injEq]
  constructor
  · rintro ⟨n, hn, i, hi, rfl, rfl⟩
    obtain ⟨i', hi', haddr⟩ := Inverse.column_eq_some.mp ((h.addr addr n).mp hn)
    cases hi.symm.trans hi'
    exact ⟨hi, haddr⟩
  · rintro ⟨hi, rfl⟩
    exact ⟨nId, (h.addr _ nId).mpr (Inverse.column_of_some hi _), info, hi, rfl, rfl⟩

theorem Linked.lookup_of_find (h : s.Linked) (hfind : s.find addr = none) :
    s.mapAddr.lookup addr = none := by
  cases hlook : s.mapAddr.lookup addr with
  | none => rfl
  | some n =>
    obtain ⟨info, hinfo, haddr⟩ := Inverse.column_eq_some.mp ((h.addr addr n).mp hlook)
    rw [h.find_eq_some.mpr ⟨hinfo, haddr⟩] at hfind
    cases hfind

theorem Linked.getElem?_nIdCount (h : s.Linked) : s.mapInfo[s.nIdCount]? = none := by
  cases hinfo : s.mapInfo[s.nIdCount]? with
  | none => rfl
  | some info => exact absurd (h.fresh _ info hinfo) (lt_irrefl _)

theorem getElem?_create (s : CAddrMan) (addr : CAddress) (source : CNetAddr) (n : Int) :
    (s.create addr source).mapInfo[n]? =
      if n = s.nIdCount then some ((CAddrInfo.new addr source).moveTo s.vRandom.length)
      else s.mapInfo[n]? :=
  Inverse.getElem?_insert_eq s.mapInfo s.nIdCount _ n

theorem Linked.create (h : s.Linked) {addr : CAddress} (source : CNetAddr)
    (haddr : s.mapAddr.lookup addr.toCNetAddr = none) : (s.create addr source).Linked where
  random := by
    unfold CAddrMan.create
    rw [Inverse.column_insert, Inverse.getElem?_push]
    exact h.random.insert (getElem?_eq_none (le_refl _))
      (Inverse.column_of_none h.getElem?_nIdCount _)
  nonneg n info hinfo := by
    rw [getElem?_create] at hinfo
    split at hinfo
    · cases hinfo
      exact Int.natCast_nonneg _
    · exact h.nonneg n info hinfo
  addr := by
    have hlook := Inverse.alist_insert s.mapAddr addr.toCNetAddr s.nIdCount
    unfold CAddrMan.create
    rw [Inverse.column_insert]
    simp only [congrFun hlook]
    exact h.addr.insert haddr (Inverse.column_of_none h.getElem?_nIdCount _)
  fresh n info hinfo := by
    rw [getElem?_create] at hinfo
    show n < s.nIdCount + 1
    split at hinfo
    · omega
    · have := h.fresh n info hinfo
      omega

/-! ## `SwapRandom` and deletion -/

/-- At an id, two tables differ in the place only. -/
def Moved (m m' : Std.TreeMap Int CAddrInfo) (n : Int) : Prop :=
  ∃ q, m'[n]? = m[n]?.map (CAddrInfo.moveTo q)

theorem moved_of_eq (h : m'[n]? = m[n]?) : Moved m m' n := by
  cases hm : m[n]? with
  | none => exact ⟨0, by rw [h, hm]; rfl⟩
  | some info => exact ⟨info.nRandomPos, by rw [h, hm]; rfl⟩

theorem Moved.exists_info (h : Moved m m' n) (hinfo' : m'[n]? = some info') :
    ∃ info q, m[n]? = some info ∧ info' = info.moveTo q := by
  obtain ⟨q, hq⟩ := h
  obtain ⟨info, hinfo, rfl⟩ := Option.map_eq_some_iff.mp (hq.symm.trans hinfo')
  exact ⟨info, q, hinfo, rfl⟩

theorem Linked.exists_info (h : s.Linked) {p : Nat} (hp : s.vRandom[p]? = some n) :
    ∃ info, s.mapInfo[n]? = some info ∧ info.nRandomPos = p := by
  obtain ⟨info, hinfo, hpos⟩ := Inverse.column_eq_some.mp ((h.random p n).mp hp)
  have hnonneg := h.nonneg n info hinfo
  exact ⟨info, hinfo, by omega⟩

theorem Linked.getElem?_vRandom (h : s.Linked) (hinfo : s.mapInfo[n]? = some info) :
    s.vRandom[info.nRandomPos.toNat]? = some n :=
  (h.random _ n).mpr (Inverse.column_of_some hinfo _)

/-- The entries after two of them have exchanged their places. -/
def swapPlaces (m : Std.TreeMap Int CAddrInfo) (n₁ n₂ : Int) (p₁ p₂ : Nat) :
    Std.TreeMap Int CAddrInfo :=
  (m.modify n₁ (CAddrInfo.moveTo p₂)).modify n₂ (CAddrInfo.moveTo p₁)

theorem getElem?_swapPlaces (hne : n₁ ≠ n₂) (p₁ p₂ : Nat) (n : Int) :
    (swapPlaces m n₁ n₂ p₁ p₂)[n]? =
      if n = n₂ then m[n₂]?.map (CAddrInfo.moveTo p₁)
      else if n = n₁ then m[n₁]?.map (CAddrInfo.moveTo p₂) else m[n]? := by
  rw [swapPlaces, Inverse.getElem?_modify_eq, Inverse.getElem?_modify_eq,
    Inverse.getElem?_modify_eq, if_neg hne.symm]

theorem moved_swapPlaces (hne : n₁ ≠ n₂) (p₁ p₂ : Nat) (n : Int) :
    Moved m (swapPlaces m n₁ n₂ p₁ p₂) n := by
  have hget := getElem?_swapPlaces (m := m) hne p₁ p₂ n
  split at hget
  · next heq => exact ⟨p₁, heq ▸ hget⟩
  · split at hget
    · next heq => exact ⟨p₂, heq ▸ hget⟩
    · exact moved_of_eq hget

/-- The two entries exchange their `nRandomPos` with their places. -/
theorem Linked.swapRandom (h : s.Linked) {p₁ p₂ : Nat} (h₁ : s.vRandom[p₁]? = some n₁)
    (h₂ : s.vRandom[p₂]? = some n₂) :
    ∃ m v, s.swapRandom p₁ p₂ = some { s with mapInfo := m, vRandom := v } ∧
      Linked { s with mapInfo := m, vRandom := v } ∧ v[p₂]? = some n₁ ∧
      v.length = s.vRandom.length ∧ ∀ n, Moved s.mapInfo m n := by
  unfold CAddrMan.swapRandom
  rcases eq_or_ne p₁ p₂ with rfl | hne
  · exact ⟨s.mapInfo, s.vRandom, if_pos rfl, h, h₁, rfl, fun n => moved_of_eq rfl⟩
  · obtain ⟨info₁, hinfo₁, hpos₁⟩ := h.exists_info h₁
    obtain ⟨info₂, hinfo₂, hpos₂⟩ := h.exists_info h₂
    have hlt₁ : p₁ < s.vRandom.length := (List.getElem?_eq_some_iff.mp h₁).1
    have hlt₂ : p₂ < (s.vRandom.set p₁ n₂).length := by
      rw [length_set]
      exact (List.getElem?_eq_some_iff.mp h₂).1
    have hneId : n₁ ≠ n₂ := fun heq => hne (h.random.injective h₁ (heq ▸ h₂))
    have hmem : n₁ ∈ s.mapInfo ∧ n₂ ∈ s.mapInfo := by
      simp [Std.TreeMap.mem_iff_isSome_getElem?, hinfo₁, hinfo₂]
    have hmoved := moved_swapPlaces (m := s.mapInfo) hneId p₁ p₂
    refine ⟨swapPlaces s.mapInfo n₁ n₂ p₁ p₂, (s.vRandom.set p₁ n₂).set p₂ n₁, ?_,
      ⟨?_, ?_, ?_, ?_⟩, ?_, ?_, hmoved⟩
    · rw [if_neg hne, h₁, h₂]
      simp only [Option.bind_eq_bind, Option.bind_some, guard, if_pos hmem]
      rfl
    · -- two places of the vector and two entries are exchanged
      have hmod : (s.mapInfo.modify n₁ (CAddrInfo.moveTo p₂))[n₂]? = some info₂ := by
        rw [Inverse.getElem?_modify_eq, if_neg hneId.symm, hinfo₂]
      have hcol := Inverse.column_modify (fun info : CAddrInfo => info.nRandomPos.toNat)
        (f := CAddrInfo.moveTo p₁) hmod
      rw [Inverse.column_modify (fun info : CAddrInfo => info.nRandomPos.toNat) hinfo₁] at hcol
      rw [Inverse.getElem?_exchange hlt₂, Inverse.getElem?_exchange hlt₁]
      exact hcol ▸ h.random.swap h₁ h₂ hne
    · intro n info' hinfo'
      rw [getElem?_swapPlaces hneId] at hinfo'
      split at hinfo'
      · rw [hinfo₂] at hinfo'
        cases hinfo'
        exact Int.natCast_nonneg p₁
      · split at hinfo'
        · rw [hinfo₁] at hinfo'
          cases hinfo'
          exact Int.natCast_nonneg p₂
        · exact h.nonneg n info' hinfo'
    · -- the addresses stay
      have hcol : Inverse.column (swapPlaces s.mapInfo n₁ n₂ p₁ p₂) (·.toCNetAddr) =
          Inverse.column s.mapInfo (·.toCNetAddr) :=
        (Inverse.column_modify_of (f := CAddrInfo.moveTo p₁) fun _ => rfl).trans
          (Inverse.column_modify_of (f := CAddrInfo.moveTo p₂) fun _ => rfl)
      exact hcol ▸ h.addr
    · intro n info' hinfo'
      obtain ⟨info, q, hinfo, -⟩ := (hmoved n).exists_info hinfo'
      exact h.fresh n info hinfo
    · exact getElem?_set_self hlt₂
    · rw [length_set, length_set]

/-- The entry is swapped to the end of `vRandom`, and dropped there. -/
theorem Linked.eraseInfo (h : s.Linked) (hinfo : s.mapInfo[nId]? = some info) :
    ∃ m v, s.eraseInfo nId info = some { s with
        mapInfo := m, vRandom := v, mapAddr := s.mapAddr.erase info.toCNetAddr, nNew := s.nNew - 1 } ∧
      Linked { s with
        mapInfo := m, vRandom := v, mapAddr := s.mapAddr.erase info.toCNetAddr, nNew := s.nNew - 1 } ∧
      m[nId]? = none ∧ v.length + 1 = s.vRandom.length ∧
      ∀ n, n ≠ nId → Moved s.mapInfo m n := by
  have hpos := h.getElem?_vRandom hinfo
  have hlt : info.nRandomPos.toNat < s.vRandom.length := (List.getElem?_eq_some_iff.mp hpos).1
  have hlast : s.vRandom[s.vRandom.length - 1]? = some s.vRandom[s.vRandom.length - 1] :=
    getElem?_eq_getElem (by omega)
  obtain ⟨m, v, hswap, hlinked, hv, hlen, hmoved⟩ := h.swapRandom hpos hlast
  have herase := Inverse.getElem?_erase_eq m nId
  have hsub : ∀ (n : Int) i, (m.erase nId)[n]? = some i → m[n]? = some i := by
    intro n i hi
    rw [herase] at hi
    split at hi
    · cases hi
    · exact hi
  refine ⟨m.erase nId, v.dropLast, by rw [CAddrMan.eraseInfo, hswap]; rfl,
    ⟨?_, fun n i hi => hlinked.nonneg n i (hsub n i hi), ?_,
      fun n i hi => hlinked.fresh n i (hsub n i hi)⟩, ?_, ?_, ?_⟩
  · have hpop := hlinked.random.erase (a := s.vRandom.length - 1) (b := nId) hv
    rw [Inverse.getElem?_pop, Inverse.column_erase, hlen]
    exact hpop
  · have hlook : s.mapAddr.lookup info.toCNetAddr = some nId :=
      (h.addr _ nId).mpr (Inverse.column_of_some hinfo _)
    have halist := Inverse.alist_erase s.mapAddr info.toCNetAddr
    rw [Inverse.column_erase]
    simp only [congrFun halist]
    exact hlinked.addr.erase hlook
  · rw [herase, if_pos rfl]
  · rw [length_dropLast]
    omega
  · intro n hn
    obtain ⟨q, hq⟩ := hmoved n
    exact ⟨q, by rw [herase, if_neg hn, hq]⟩

end CAddrMan

end NovaCoin
