import NovaCoin.KeyPool
import NovaCoin.Infra.Runs

/-!
# Reserved keys and new indices

New indices come after the last index of `setKeyPool`, or from 1 on, and what is reserved is not in
the set. So a record may be written where a reservation has its key: then two holders get the same
index, or the first takes the record of an index in the set away. `KeyPoolSystem.Careful` says that
this does not happen in a step, and that the default key is not handed out.
-/

namespace NovaCoin

open List

variable {K : Type} {k : K} {i : Nat}

/-! ## What is to be shown -/

namespace KeyEvent

def handedOut : KeyEvent K → Option K
  | reserved vchPubKey => some vchPubKey
  | fromPool vchPubKey => some vchPubKey
  | kept _ => none

/-- The key that is not to be handed out again. -/
def usedUp : KeyEvent K → Option K
  | reserved _ => none
  | fromPool vchPubKey => some vchPubKey
  | kept vchPubKey => some vchPubKey

end KeyEvent

namespace KeyPoolSystem

/-- No event hands out a key that an earlier one used up. -/
def Once (history : List (KeyEvent K)) : Prop :=
  history.Pairwise fun e e' => ∀ k, e.handedOut = some k → e'.usedUp ≠ some k

structure Safe (s : KeyPoolSystem K) : Prop where
  record : ∀ i ∈ s.wallet.setKeyPool, ∃ k, s.wallet.mapPool.lookup i = some k
  distinct : ∀ a b i, a ≠ b → (s.holders a).nIndex = some i → (s.holders b).nIndex ≠ some i
  once : Once s.history

/-- The indices that a call writes records for. -/
def writes (s : KeyPoolSystem K) (call : KeyPoolCall) : List Nat :=
  if call.fLocked then []
  else match call.op with
    | .getReservedKey id =>
      if (s.holders id).nIndex = none then List.range' s.wallet.nEnd (s.wallet.nMissing 0) else []
    | .getKeyFromPool _ => List.range' s.wallet.nEnd (s.wallet.nMissing 0)
    | .topUpKeyPool nSize => List.range' s.wallet.nEnd (s.wallet.nMissing nSize)
    | .newKeyPool nSize => List.range' 1 (s.wallet.nTargetSize nSize).toNat
    | .keepKey _ => []
    | .returnKey _ => []

def Drained (s : KeyPoolSystem K) (fLocked : Bool) : Prop :=
  s.wallet.setKeyPool = ∅ ∧ (fLocked = true ∨ s.wallet.nMissing 0 = 0)

/-- A call hands out the default key. -/
def UsesDefault (s : KeyPoolSystem K) (call : KeyPoolCall) : Prop :=
  match call.op with
  | .getReservedKey id => (s.holders id).nIndex = none ∧ s.Drained call.fLocked
  | .getKeyFromPool fAllowReuse =>
    fAllowReuse = true ∧ s.wallet.vchDefaultKey.isSome ∧ s.Drained call.fLocked
  | _ => False

/-- No record is written where a reservation has its key, and the default key is not handed out. -/
def Careful (s : KeyPoolSystem K) (call : KeyPoolCall) : Prop :=
  (∀ i ∈ s.writes call, ∀ id, (s.holders id).nIndex ≠ some i) ∧ ¬ s.UsesDefault call

end KeyPoolSystem

/-! ## The wallet -/

namespace KeyPoolWallet

variable (generated : Nat → K)

/-- Indices have records, recorded and used keys are known and not generated again, and no key is
recorded twice or after it was used up. -/
structure Inv (used : K → Prop) (w : KeyPoolWallet K) : Prop where
  record : ∀ i ∈ w.setKeyPool, ∃ k, w.mapPool.lookup i = some k
  known : ∀ i k, w.mapPool.lookup i = some k → k ∈ w.vKeys
  fresh : ∀ k ∈ w.vKeys, ∀ n, w.nGenerated ≤ n → generated n ≠ k
  inj : ∀ i j k, w.mapPool.lookup i = some k → w.mapPool.lookup j = some k → i = j
  used : ∀ k, used k → k ∈ w.vKeys ∧ ∀ i, w.mapPool.lookup i ≠ some k

/-- Outside of the set, only the records at some indices are changed. -/
structure Frame (written : List Nat) (w w' : KeyPoolWallet K) : Prop where
  set : ∀ j, j ∉ written → j ∉ w.setKeyPool → j ∉ w'.setKeyPool
  record : ∀ j, j ∉ written → j ∉ w.setKeyPool → w'.mapPool.lookup j = w.mapPool.lookup j

variable {generated} {used : K → Prop} {w w' w'' : KeyPoolWallet K}

theorem Frame.refl (w : KeyPoolWallet K) : Frame [] w w := ⟨fun _ _ h => h, fun _ _ _ => rfl⟩

theorem Frame.trans {l l' : List Nat} (h : Frame l w w') (h' : Frame l' w' w'') :
    Frame (l ++ l') w w'' := by
  refine ⟨fun j hj hset => ?_, fun j hj hset => ?_⟩
  all_goals
    rw [mem_append, not_or] at hj
    have hset' := h.set j hj.1 hset
  · exact h'.set j hj.2 hset'
  · rw [h'.record j hj.2 hset', h.record j hj.1 hset]

/-- A generated key is not a known one. -/
theorem Inv.not_known (h : Inv generated used w) (hk : k ∈ w.vKeys) :
    generated w.nGenerated ≠ k :=
  h.fresh k hk _ (Nat.le_refl _)

theorem Inv.fresh_cons (hgen : Function.Injective generated) (h : Inv generated used w) :
    ∀ k ∈ generated w.nGenerated :: w.vKeys, ∀ n, w.nGenerated + 1 ≤ n → generated n ≠ k := by
  intro k hk n hn
  rcases mem_cons.mp hk with rfl | hk
  · intro heq
    have hn' := hgen heq
    omega
  · exact h.fresh k hk n (by omega)

theorem lookup_addToPool (i j : Nat) :
    (w.addToPool generated i).mapPool.lookup j =
      if j = i then some (generated w.nGenerated) else w.mapPool.lookup j :=
  AssocMap.lookup_insert_ite ..

theorem Inv.addToPool (hgen : Function.Injective generated) (h : Inv generated used w) (i : Nat) :
    Inv generated used (w.addToPool generated i) := by
  refine ⟨?_, ?_, h.fresh_cons hgen, ?_, ?_⟩
  · intro j hj
    rw [lookup_addToPool]
    split
    · exact ⟨_, rfl⟩
    · next hne => exact h.record j (Finset.mem_of_mem_insert_of_ne hj hne)
  · intro j k hk
    rw [lookup_addToPool] at hk
    split at hk
    · cases hk
      exact mem_cons_self
    · exact mem_cons_of_mem _ (h.known j k hk)
  · intro j j' k hj hj'
    rw [lookup_addToPool] at hj hj'
    split at hj <;> split at hj'
    · next hji hji' => rw [hji, hji']
    · cases hj
      exact absurd rfl (h.not_known (h.known _ _ hj'))
    · cases hj'
      exact absurd rfl (h.not_known (h.known _ _ hj))
    · exact h.inj j j' k hj hj'
  · intro k hk
    obtain ⟨hknown, hno⟩ := h.used k hk
    refine ⟨mem_cons_of_mem _ hknown, fun j hj => ?_⟩
    rw [lookup_addToPool] at hj
    split at hj
    · exact h.not_known hknown (Option.some.inj hj)
    · exact hno j hj

theorem frame_addToPool (i : Nat) : Frame [i] w (w.addToPool generated i) := by
  refine ⟨fun j hj hset => ?_, fun j hj _ => ?_⟩ <;> rw [mem_singleton] at hj
  · exact fun hmem => hset (Finset.mem_of_mem_insert_of_ne hmem hj)
  · rw [lookup_addToPool, if_neg hj]

theorem lookup_clearPool (j : Nat) :
    w.clearPool.mapPool.lookup j = (w.mapPool.lookup j).filter fun _ => decide (j ∉ w.setKeyPool) :=
  AssocMap.lookup_filter ..

theorem Inv.clearPool (h : Inv generated used w) : Inv generated used w.clearPool := by
  have hsub : ∀ i k, w.clearPool.mapPool.lookup i = some k → w.mapPool.lookup i = some k := by
    intro i k hk
    rw [lookup_clearPool, Option.filter_eq_some_iff] at hk
    exact hk.1
  refine ⟨?_, fun i k hk => h.known i k (hsub i k hk), h.fresh,
    fun i j k hi hj => h.inj i j k (hsub i k hi) (hsub j k hj), fun k hk => ?_⟩
  · intro i hi
    exact absurd hi (Finset.notMem_empty i)
  · obtain ⟨hknown, hno⟩ := h.used k hk
    exact ⟨hknown, fun i hi => hno i (hsub i k hi)⟩

theorem frame_clearPool : Frame [] w w.clearPool := by
  refine ⟨fun j _ _ => Finset.notMem_empty j, fun j _ hset => ?_⟩
  rw [lookup_clearPool]
  cases w.mapPool.lookup j <;> simp [hset]

theorem Inv.newKeys (hgen : Function.Injective generated) (n : Nat) :
    ∀ {w : KeyPoolWallet K} (i : Nat), Inv generated used w →
      Inv generated used (w.newKeys generated i n) ∧
        Frame (List.range' (i + 1) n) w (w.newKeys generated i n) := by
  induction n with
  | zero => exact fun {w} i h => ⟨h, Frame.refl w⟩
  | succ n ih =>
    intro w i h
    obtain ⟨hinv, hframe⟩ := ih (i + 1) (h.addToPool hgen (i + 1))
    exact ⟨hinv, (frame_addToPool (i + 1)).trans hframe⟩

theorem nEnd_addToPool : (w.addToPool generated w.nEnd).nEnd = w.nEnd + 1 := by
  have hle : w.setKeyPool.sup id ≤ w.nEnd := Nat.le_succ _
  have hsup : (insert w.nEnd w.setKeyPool).sup id = w.nEnd := by
    rw [Finset.sup_insert]
    exact sup_of_le_left hle
  exact congrArg (· + 1) hsup

theorem nEnd_not_mem : w.nEnd ∉ w.setKeyPool := by
  intro hmem
  have hle : id w.nEnd ≤ w.setKeyPool.sup id := Finset.le_sup hmem
  simp only [nEnd, id_eq] at hle
  omega

theorem card_topUpLoop (n : Nat) : ∀ {w : KeyPoolWallet K},
    (w.topUpLoop generated n).setKeyPool.card = w.setKeyPool.card + n := by
  induction n with
  | zero => exact fun {w} => rfl
  | succ n ih =>
    intro w
    have hcard : (w.addToPool generated w.nEnd).setKeyPool.card = w.setKeyPool.card + 1 :=
      Finset.card_insert_of_notMem nEnd_not_mem
    rw [topUpLoop, ih]
    omega

theorem Inv.topUpLoop (hgen : Function.Injective generated) (n : Nat) :
    ∀ {w : KeyPoolWallet K}, Inv generated used w → Inv generated used (w.topUpLoop generated n) ∧
        Frame (List.range' w.nEnd n) w (w.topUpLoop generated n) := by
  induction n with
  | zero => exact fun {w} h => ⟨h, Frame.refl w⟩
  | succ n ih =>
    intro w h
    obtain ⟨hinv, hframe⟩ := ih (h.addToPool hgen w.nEnd)
    rw [nEnd_addToPool] at hframe
    exact ⟨hinv, (frame_addToPool w.nEnd).trans hframe⟩

theorem Inv.reserveOldest [DecidableEq K] (h : Inv generated used w) :
    (w.setKeyPool = ∅ ∧ w.reserveOldest = (w, .none)) ∨
    ∃ i k, i ∈ w.setKeyPool ∧ w.mapPool.lookup i = some k ∧
      w.reserveOldest = ({ w with setKeyPool := w.setKeyPool.erase i }, .key i k) := by
  unfold KeyPoolWallet.reserveOldest
  by_cases hne : w.setKeyPool.Nonempty
  · have hmem := w.setKeyPool.min'_mem hne
    obtain ⟨k, hk⟩ := h.record _ hmem
    refine .inr ⟨_, k, hmem, hk, ?_⟩
    rw [dif_pos hne]
    simp only [hk, elem_iff, h.known _ _ hk, if_true]
  · rw [dif_neg hne]
    exact .inl ⟨Finset.not_nonempty_iff_eq_empty.mp hne, rfl⟩

theorem Inv.erase (h : Inv generated used w) (i : Nat) :
    Inv generated used { w with setKeyPool := w.setKeyPool.erase i } :=
  ⟨fun j hj => h.record j (Finset.mem_of_mem_erase hj), h.known, h.fresh, h.inj, h.used⟩

theorem lookup_keepKey (i j : Nat) :
    (w.keepKey i).mapPool.lookup j = if j = i then none else w.mapPool.lookup j :=
  AssocMap.lookup_erase_ite ..

theorem Inv.keepKey (h : Inv generated used w) (hi : i ∉ w.setKeyPool)
    (hk : w.mapPool.lookup i = some k) :
    Inv generated (fun k' => k' = k ∨ used k') (w.keepKey i) := by
  have hsub : ∀ j k', (w.keepKey i).mapPool.lookup j = some k' →
      j ≠ i ∧ w.mapPool.lookup j = some k' := by
    intro j k' hj
    rw [lookup_keepKey] at hj
    split at hj
    · cases hj
    · next hne => exact ⟨hne, hj⟩
  refine ⟨?_, fun j k' hj => h.known j k' (hsub j k' hj).2, h.fresh,
    fun j j' k' hj hj' => h.inj j j' k' (hsub j k' hj).2 (hsub j' k' hj').2, ?_⟩
  · intro j hj
    have hne : j ≠ i := fun heq => hi (heq ▸ hj)
    rw [lookup_keepKey, if_neg hne]
    exact h.record j hj
  · rintro k' (rfl | hused)
    · exact ⟨h.known i k' hk, fun j hj => (hsub j k' hj).1 (h.inj j i k' (hsub j k' hj).2 hk)⟩
    · obtain ⟨hknown, hno⟩ := h.used k' hused
      exact ⟨hknown, fun j hj => hno j (hsub j k' hj).2⟩

theorem Inv.returnKey (h : Inv generated used w) (hk : w.mapPool.lookup i = some k) :
    Inv generated used (w.returnKey i) := by
  refine ⟨?_, h.known, h.fresh, h.inj, h.used⟩
  intro j hj
  rcases Finset.mem_insert.mp hj with rfl | hj
  · exact ⟨k, hk⟩
  · exact h.record j hj

theorem Inv.generate (hgen : Function.Injective generated) (h : Inv generated used w) :
    Inv generated (fun k => k = generated w.nGenerated ∨ used k)
      { w with
        vKeys := generated w.nGenerated :: w.vKeys
        nGenerated := w.nGenerated + 1 } := by
  refine ⟨h.record, fun i k hk => mem_cons_of_mem _ (h.known i k hk), h.fresh_cons hgen, h.inj, ?_⟩
  rintro k (rfl | hused)
  · exact ⟨mem_cons_self, fun i hi => h.not_known (h.known i _ hi) rfl⟩
  · obtain ⟨hknown, hno⟩ := h.used k hused
    exact ⟨mem_cons_of_mem _ hknown, hno⟩

end KeyPoolWallet

/-! ## The system -/

namespace KeyPoolSystem

open KeyPoolWallet (Frame)

def Used (s : KeyPoolSystem K) (k : K) : Prop := ∃ e ∈ s.history, e.usedUp = some k

/-- The wallet is in order, and a holder has an index out of the set for itself, with its record. -/
structure Inv (generated : Nat → K) (s : KeyPoolSystem K) : Prop where
  wallet : s.wallet.Inv generated s.Used
  held : ∀ id i, (s.holders id).nIndex = some i → i ∉ s.wallet.setKeyPool ∧
    ∃ k, (s.holders id).vchPubKey = some k ∧ s.wallet.mapPool.lookup i = some k
  free : ∀ id, (s.holders id).nIndex = none → (s.holders id).vchPubKey = none
  distinct : ∀ a b i, a ≠ b → (s.holders a).nIndex = some i → (s.holders b).nIndex ≠ some i
  once : Once s.history

variable {generated : Nat → K} {s s' : KeyPoolSystem K} {w : KeyPoolWallet K}

theorem Inv.safe (h : Inv generated s) : s.Safe := ⟨h.wallet.record, h.distinct, h.once⟩

/-- The wallet changes, but not where a holder has its key. -/
theorem Inv.withWallet {written : List Nat} (h : Inv generated s) (hw : w.Inv generated s.Used)
    (hframe : Frame written s.wallet w)
    (hwritten : ∀ i ∈ written, ∀ id, (s.holders id).nIndex ≠ some i) :
    Inv generated { s with wallet := w } := by
  refine ⟨hw, ?_, h.free, h.distinct, h.once⟩
  intro id i hi
  have hnot : i ∉ written := fun hmem => hwritten i hmem id hi
  obtain ⟨hset, k, hk, hrecord⟩ := h.held id i hi
  exact ⟨hframe.set i hnot hset, k, hk, (hframe.record i hnot hset).trans hrecord⟩

variable {fLocked : Bool}

section

variable {nSize : UInt32} (hgen : Function.Injective generated) (h : Inv generated s)
include hgen h

theorem Inv.topUpKeyPool
    (hwritten : fLocked = false → ∀ i ∈ List.range' s.wallet.nEnd (s.wallet.nMissing nSize), ∀ id, (s.holders id).nIndex ≠ some i) :
    Inv generated { s with wallet := s.wallet.topUpKeyPool generated fLocked nSize } := by
  cases fLocked with
  | true => exact h
  | false =>
    obtain ⟨hinv, hframe⟩ := KeyPoolWallet.Inv.topUpLoop hgen (s.wallet.nMissing nSize) h.wallet
    exact h.withWallet hinv hframe (hwritten rfl)

theorem Inv.newKeyPool
    (hwritten : fLocked = false → ∀ i ∈ List.range' 1 (s.wallet.nTargetSize nSize).toNat, ∀ id, (s.holders id).nIndex ≠ some i) :
    Inv generated { s with wallet := s.wallet.newKeyPool generated fLocked nSize } := by
  have hclear := h.withWallet h.wallet.clearPool KeyPoolWallet.frame_clearPool (by simp)
  cases fLocked with
  | true => exact hclear
  | false =>
    obtain ⟨hinv, hframe⟩ :=
      KeyPoolWallet.Inv.newKeys hgen (s.wallet.nTargetSize nSize).toNat 0 hclear.wallet
    exact hclear.withWallet hinv hframe (hwritten rfl)

end

theorem Inv.not_used (h : Inv generated s) (hk : s.wallet.mapPool.lookup i = some k) :
    ∀ e ∈ s.history, e.usedUp ≠ some k :=
  fun e he hused => (h.wallet.used k ⟨e, he, hused⟩).2 i hk

theorem Inv.reserve (h : Inv generated s) {id : Nat} (hi : i ∈ s.wallet.setKeyPool)
    (hk : s.wallet.mapPool.lookup i = some k) :
    Inv generated
      { wallet := { s.wallet with setKeyPool := s.wallet.setKeyPool.erase i }
        holders := Function.update s.holders id ⟨some i, some k⟩
        history := .reserved k :: s.history } := by
  have hne : ∀ id', (s.holders id').nIndex ≠ some i := fun id' hid => (h.held id' i hid).1 hi
  have hused : ∀ k', Used ⟨s.wallet, s.holders, .reserved k :: s.history⟩ k' → s.Used k' := by
    rintro k' ⟨e, he, hk'⟩
    rcases mem_cons.mp he with rfl | he
    · cases hk'
    · exact ⟨e, he, hk'⟩
  have hwallet := h.wallet.erase i
  refine ⟨⟨hwallet.record, hwallet.known, hwallet.fresh, hwallet.inj,
    fun k' hk' => hwallet.used k' (hused k' hk')⟩, ?_, ?_, ?_, ?_⟩
  · intro id' j hj
    simp only [Function.update_apply] at hj ⊢
    split at hj
    · next heq =>
      cases hj
      rw [if_pos heq]
      exact ⟨Finset.notMem_erase i _, k, rfl, hk⟩
    · next hid =>
      rw [if_neg hid]
      obtain ⟨hset, hrecord⟩ := h.held id' j hj
      exact ⟨fun hmem => hset (Finset.mem_of_mem_erase hmem), hrecord⟩
  · intro id' hid'
    simp only [Function.update_apply] at hid' ⊢
    split at hid'
    · cases hid'
    · next hid =>
      rw [if_neg hid]
      exact h.free id' hid'
  · intro a b j hab ha hb
    simp only [Function.update_apply] at ha hb
    split at ha <;> split at hb
    · next h₁ h₂ => exact hab (h₁.trans h₂.symm)
    · cases ha
      exact hne b hb
    · cases hb
      exact hne a ha
    · exact h.distinct a b j hab ha hb
  · refine pairwise_cons.mpr ⟨fun e he k' hk' => ?_, h.once⟩
    cases hk'
    exact h.not_used hk e he

theorem Inv.release (h : Inv generated s) (id : Nat) {history : List (KeyEvent K)}
    (hw : w.Inv generated fun k => ∃ e ∈ history, e.usedUp = some k)
    (hheld : ∀ id', id' ≠ id → ∀ i, (s.holders id').nIndex = some i → i ∉ w.setKeyPool ∧
      w.mapPool.lookup i = s.wallet.mapPool.lookup i) (honce : Once history) :
    Inv generated ⟨w, Function.update s.holders id .new, history⟩ := by
  refine ⟨hw, ?_, ?_, ?_, honce⟩
  · intro id' i hi
    simp only [Function.update_apply] at hi ⊢
    split at hi
    · cases hi
    · next hid =>
      rw [if_neg hid]
      obtain ⟨-, k, hk, hrecord⟩ := h.held id' i hi
      obtain ⟨hset, hlookup⟩ := hheld id' hid i hi
      exact ⟨hset, k, hk, hlookup.trans hrecord⟩
  · intro id' hid'
    simp only [Function.update_apply] at hid' ⊢
    split
    · rfl
    · next hid =>
      rw [if_neg hid] at hid'
      exact h.free id' hid'
  · intro a b j hab ha hb
    simp only [Function.update_apply] at ha hb
    split at ha
    · cases ha
    · split at hb
      · cases hb
      · exact h.distinct a b j hab ha hb

theorem used_cons {e : KeyEvent K} (he : e.usedUp = some k) (history : List (KeyEvent K)) (k' : K) :
    (∃ e' ∈ e :: history, e'.usedUp = some k') ↔
      k' = k ∨ ∃ e' ∈ history, e'.usedUp = some k' := by
  simp [he, eq_comm]

theorem Inv.keepKey (h : Inv generated s) (id : Nat) : Inv generated (s.keepKey id) := by
  unfold KeyPoolSystem.keepKey
  cases hid : (s.holders id).nIndex with
  | none =>
    rw [h.free id hid]
    exact h.release id h.wallet (fun id' _ i hi => ⟨(h.held id' i hi).1, rfl⟩) h.once
  | some i =>
    obtain ⟨hset, k, hk, hrecord⟩ := h.held id i hid
    rw [hk]
    refine h.release id ?_ ?_ ?_
    · have hw := h.wallet.keepKey hset hrecord
      exact ⟨hw.record, hw.known, hw.fresh, hw.inj,
        fun k' hk' => hw.used k' ((used_cons rfl s.history k').mp hk')⟩
    · intro id' hne j hj
      have hji : j ≠ i := by
        rintro rfl
        exact h.distinct id' id j hne hj hid
      refine ⟨(h.held id' j hj).1, ?_⟩
      rw [KeyPoolWallet.lookup_keepKey, if_neg hji]
    · exact pairwise_cons.mpr ⟨by nofun, h.once⟩

theorem Inv.returnKey (h : Inv generated s) (id : Nat) : Inv generated (s.returnKey id) := by
  unfold KeyPoolSystem.returnKey
  cases hid : (s.holders id).nIndex with
  | none => exact h.release id h.wallet (fun id' _ i hi => ⟨(h.held id' i hi).1, rfl⟩) h.once
  | some i =>
    obtain ⟨-, k, -, hrecord⟩ := h.held id i hid
    refine h.release id (h.wallet.returnKey hrecord) ?_ h.once
    intro id' hne j hj
    refine ⟨fun hmem => ?_, rfl⟩
    rcases Finset.mem_insert.mp hmem with rfl | hmem
    · exact h.distinct id' id j hne hj hid
    · exact (h.held id' j hj).1 hmem

theorem drained_of_topUp (h : (s.wallet.topUpKeyPool generated fLocked 0).setKeyPool = ∅) :
    s.Drained fLocked := by
  unfold KeyPoolWallet.topUpKeyPool at h
  cases fLocked with
  | true => exact ⟨h, .inl rfl⟩
  | false =>
    have hcard : (s.wallet.topUpLoop generated (s.wallet.nMissing 0)).setKeyPool.card =
        s.wallet.setKeyPool.card + s.wallet.nMissing 0 :=
      KeyPoolWallet.card_topUpLoop _
    rw [if_neg (by decide)] at h
    rw [h, Finset.card_empty] at hcard
    exact ⟨Finset.card_eq_zero.mp (by omega), .inr (by omega)⟩

section

variable (hgen : Function.Injective generated) (h : Inv generated s)
include hgen h

theorem Inv.reserveKeyFromKeyPool [DecidableEq K]
    (hwritten : fLocked = false → ∀ i ∈ List.range' s.wallet.nEnd (s.wallet.nMissing 0), ∀ id,
      (s.holders id).nIndex ≠ some i) :
    (s.Drained fLocked ∧ ∃ w, s.wallet.reserveKeyFromKeyPool generated fLocked = (w, .none) ∧
      w.vchDefaultKey = s.wallet.vchDefaultKey ∧ Inv generated { s with wallet := w }) ∨
    ∃ w i k, i ∈ w.setKeyPool ∧ w.mapPool.lookup i = some k ∧
      s.wallet.reserveKeyFromKeyPool generated fLocked =
        ({ w with setKeyPool := w.setKeyPool.erase i }, .key i k) ∧
      Inv generated { s with wallet := w } := by
  have htop := h.topUpKeyPool hgen hwritten
  rcases htop.wallet.reserveOldest with ⟨hempty, hres⟩ | ⟨i, k, hi, hk, hres⟩
  · have hdrained := drained_of_topUp hempty
    refine .inl ⟨hdrained, _, hres, ?_, htop⟩
    rcases hdrained.2 with rfl | hmissing
    · rfl
    · unfold KeyPoolWallet.topUpKeyPool
      rw [hmissing]
      split <;> rfl
  · exact .inr ⟨_, i, k, hi, hk, hres, htop⟩

/-- A holder with a key keeps it; otherwise a key leaves the pool for it. -/
theorem Inv.getReservedKey [DecidableEq K] {id : Nat}
    (hcareful : s.Careful ⟨fLocked, .getReservedKey id⟩)
    (hstep : s.getReservedKey generated fLocked id = some s') : Inv generated s' := by
  obtain ⟨hwrites, hdefault⟩ := hcareful
  unfold KeyPoolSystem.getReservedKey at hstep
  cases hid : (s.holders id).nIndex with
  | some i =>
    obtain ⟨-, k, hk, hrecord⟩ := h.held id i hid
    simp only [hid, hk, Option.some.injEq] at hstep
    subst hstep
    have hused : ∀ k', (∃ e ∈ KeyEvent.reserved k :: s.history, e.usedUp = some k') → s.Used k' := by
      rintro k' ⟨e, he, hk'⟩
      rcases mem_cons.mp he with rfl | he
      · cases hk'
      · exact ⟨e, he, hk'⟩
    refine ⟨⟨h.wallet.record, h.wallet.known, h.wallet.fresh, h.wallet.inj,
      fun k' hk' => h.wallet.used k' (hused k' hk')⟩, h.held, h.free, h.distinct, ?_⟩
    refine pairwise_cons.mpr ⟨fun e he k' hk' => ?_, h.once⟩
    cases hk'
    exact h.not_used hrecord e he
  | none =>
    have hwritten : fLocked = false → ∀ i ∈ range' s.wallet.nEnd (s.wallet.nMissing 0),
        ∀ id, (s.holders id).nIndex ≠ some i := by
      rintro rfl i hi
      exact hwrites i (by simpa [writes, hid] using hi)
    rcases h.reserveKeyFromKeyPool hgen hwritten with ⟨hdrained, -⟩ | ⟨w, i, k, hi, hk, hres, hinv⟩
    · exact absurd ⟨hid, hdrained⟩ hdefault
    · simp only [hid, hres, Option.some.injEq] at hstep
      subst hstep
      exact hinv.reserve hi hk

/-- A key of the pool is reserved and kept in one call, so no holder has it in between. -/
theorem Inv.getKeyFromPool [DecidableEq K] {fAllowReuse : Bool}
    (hcareful : s.Careful ⟨fLocked, .getKeyFromPool fAllowReuse⟩) :
    Inv generated (s.getKeyFromPool generated fLocked fAllowReuse) := by
  obtain ⟨hwrites, hdefault⟩ := hcareful
  have hwritten : fLocked = false → ∀ i ∈ range' s.wallet.nEnd (s.wallet.nMissing 0),
      ∀ id, (s.holders id).nIndex ≠ some i := by
    rintro rfl i hi
    exact hwrites i (by simpa [writes] using hi)
  unfold KeyPoolSystem.getKeyFromPool KeyPoolWallet.getKeyFromPool
  rcases h.reserveKeyFromKeyPool hgen hwritten with
    ⟨hdrained, w, hres, hkey, hinv⟩ | ⟨w, i, k, hi, hk, hres, hinv⟩
  · rw [hres]
    simp only [KeyPoolWallet.getKeyWithoutPool]
    have hreuse : (fAllowReuse && w.vchDefaultKey.isSome) = false := by
      rw [Bool.eq_false_iff, hkey]
      intro hboth
      rw [Bool.and_eq_true] at hboth
      exact hdefault ⟨hboth.1, hboth.2, hdrained⟩
    rw [hreuse]
    cases fLocked with
    | true => exact hinv
    | false =>
      have hw := hinv.wallet.generate hgen
      refine ⟨⟨hw.record, hw.known, hw.fresh, hw.inj,
        fun k' hk' => hw.used k' ((used_cons rfl s.history k').mp hk')⟩,
        hinv.held, hinv.free, hinv.distinct, ?_⟩
      refine pairwise_cons.mpr ⟨fun e he k' hk' hused => ?_, h.once⟩
      cases hk'
      exact hinv.wallet.not_known (hinv.wallet.used _ ⟨e, he, hused⟩).1 rfl
  · rw [hres]
    have hset : i ∉ (w.setKeyPool.erase i) := Finset.notMem_erase i _
    have hw := (hinv.wallet.erase i).keepKey hset hk
    refine ⟨⟨hw.record, hw.known, hw.fresh, hw.inj,
      fun k' hk' => hw.used k' ((used_cons rfl s.history k').mp hk')⟩,
      ?_, hinv.free, hinv.distinct, ?_⟩
    · intro id j hj
      obtain ⟨hnot, k', hk', hrecord⟩ := hinv.held id j hj
      have hji : j ≠ i := fun heq => hnot (heq ▸ hi)
      refine ⟨fun hmem => hnot (Finset.mem_of_mem_erase hmem), k', hk', ?_⟩
      rw [KeyPoolWallet.lookup_keepKey, if_neg hji]
      exact hrecord
    · refine pairwise_cons.mpr ⟨fun e he k' hk' => ?_, h.once⟩
      cases hk'
      exact hinv.not_used hk e he

/-- The step lemma. -/
theorem Inv.step [DecidableEq K] {call : KeyPoolCall} (hcareful : s.Careful call)
    (hstep : s.step generated call = some s') : Inv generated s' := by
  obtain ⟨fLocked, op⟩ := call
  cases op with
  | getReservedKey id => exact h.getReservedKey hgen hcareful hstep
  | keepKey id =>
    obtain rfl := Option.some.inj hstep
    exact h.keepKey id
  | returnKey id =>
    obtain rfl := Option.some.inj hstep
    exact h.returnKey id
  | topUpKeyPool nSize =>
    obtain rfl := Option.some.inj hstep
    refine h.topUpKeyPool hgen ?_
    rintro rfl
    exact hcareful.1
  | newKeyPool nSize =>
    obtain rfl := Option.some.inj hstep
    refine h.newKeyPool hgen ?_
    rintro rfl
    exact hcareful.1
  | getKeyFromPool fAllowReuse =>
    obtain rfl := Option.some.inj hstep
    exact h.getKeyFromPool hgen hcareful

end

/-! ## Runs -/

variable {mapPool : AList fun _ : Nat => K} {vchDefaultKey : Option K} {nKeyPool : UInt64}

theorem mem_load_vKeys (h : mapPool.lookup i = some k) :
    k ∈ (load mapPool vchDefaultKey nKeyPool).wallet.vKeys :=
  mem_map_of_mem (f := fun item => item.2) (AList.mem_lookup_iff.mp h)

theorem inv_load (hnew : ∀ i k n, mapPool.lookup i = some k → generated n ≠ k)
    (hinj : ∀ i j k, mapPool.lookup i = some k → mapPool.lookup j = some k → i = j) :
    Inv generated (load mapPool vchDefaultKey nKeyPool) := by
  refine ⟨⟨?_, fun i k hk => mem_load_vKeys hk, ?_, hinj, ?_⟩, by nofun, fun _ _ => rfl, by nofun,
    List.Pairwise.nil⟩
  · intro i hi
    exact AssocMap.exists_lookup (mem_toFinset.mp hi)
  · intro k hk n _
    obtain ⟨⟨i, k'⟩, hitem, rfl⟩ := mem_map.mp hk
    exact hnew i k' n (AList.mem_lookup_iff.mpr hitem)
  · rintro k ⟨e, he, -⟩
    cases he

/-- A run from a loaded wallet in which no record is written where a reservation has its key, the
default key is not handed out, and keys are generated anew. -/
theorem keyPool_safe [DecidableEq K] (hgen : Function.Injective generated)
    (hnew : ∀ i k n, mapPool.lookup i = some k → generated n ≠ k)
    (hinj : ∀ i j k, mapPool.lookup i = some k → mapPool.lookup j = some k → i = j)
    {calls : List KeyPoolCall}
    (hcareful : ∀ pre call, pre ++ [call] <+: calls → ∀ t,
      Runs.run (step generated) (load mapPool vchDefaultKey nKeyPool) pre = some t → t.Careful call)
    (hrun : Runs.run (step generated) (load mapPool vchDefaultKey nKeyPool) calls = some s) :
    s.Safe :=
  (Runs.run_invariant_of (fun _ _ _ h hc hstep => h.step hgen hc hstep) (inv_load hnew hinj) calls
    hcareful hrun).safe

def recordLost : List KeyPoolCall :=
  [⟨false, .getReservedKey 0⟩, ⟨false, .newKeyPool 1⟩, ⟨false, .keepKey 0⟩]

def indexShared : List KeyPoolCall :=
  [⟨false, .getReservedKey 0⟩, ⟨true, .getKeyFromPool false⟩, ⟨false, .getReservedKey 1⟩]

def keyReused : List KeyPoolCall :=
  indexShared ++ [⟨false, .returnKey 0⟩, ⟨false, .getReservedKey 2⟩, ⟨false, .keepKey 1⟩,
    ⟨false, .getReservedKey 2⟩]

def sample : KeyPoolSystem Nat := load ∅ none 1

/-- An index in the set without a record, an index that two hold, a key that is handed out after it
was kept: one in each of these runs. -/
theorem keyPool_unsafe :
    (∃ s, Runs.run (step id) sample recordLost = some s ∧
      1 ∈ s.wallet.setKeyPool ∧ s.wallet.mapPool.lookup 1 = none) ∧
    (∃ s, Runs.run (step id) sample indexShared = some s ∧
      (s.holders 0).nIndex = some 1 ∧ (s.holders 1).nIndex = some 1) ∧
    ∃ s, Runs.run (step id) sample keyReused = some s ∧ ¬ Once s.history := by
  refine ⟨⟨_, rfl, ?_, ?_⟩, ⟨_, rfl, ?_, ?_⟩, _, rfl, fun honce => ?_⟩
  · decide +kernel
  · decide +kernel
  · decide +kernel
  · decide +kernel
  · have hhistory : Once [KeyEvent.reserved 2, .kept 2, .reserved 2, .reserved 2, .fromPool 1,
      .reserved 0] := honce
    exact (pairwise_cons.mp hhistory).1 (.kept 2) (by simp) 2 rfl rfl

def carefulRun : List KeyPoolCall :=
  [⟨false, .getReservedKey 0⟩, ⟨false, .keepKey 0⟩, ⟨false, .getReservedKey 0⟩]

theorem carefulRun_careful : ∀ pre call, pre ++ [call] <+: carefulRun → ∀ t,
    Runs.run (step id) sample pre = some t → t.Careful call := by
  refine Runs.forall_prefix_of_getElem ?_
  rintro (_ | _ | _ | k) hk call ⟨⟩ t ⟨⟩
  · refine ⟨fun i _ id => by nofun, fun h => ?_⟩
    exact absurd h.2.2 (by decide)
  · exact ⟨by nofun, by nofun⟩
  · refine ⟨fun i _ id => ?_, fun h => ?_⟩
    · by_cases hid : id = 0
      · rw [hid]
        nofun
      · have hframe : ∀ (f : Nat → CReserveKey Nat) r, Function.update f 0 r id = f id :=
          fun f r => Function.update_of_ne hid r f
        show (Function.update (Function.update (fun _ => CReserveKey.new) 0 _) 0 .new id).nIndex ≠
          some i
        rw [hframe, hframe]
        nofun
    · exact absurd h.2.1 (by decide +kernel)

/-- A holder reserves a key, keeps it and reserves again. -/
theorem keyPool_safe_sample : ∃ s, Runs.run (step id) sample carefulRun = some s ∧ s.Safe :=
  ⟨_, rfl, keyPool_safe Function.injective_id (by nofun) (by nofun) carefulRun_careful rfl⟩

end KeyPoolSystem

end NovaCoin
