import NovaCoin.Properties.DiskPositions
import NovaCoin.WalletRecords

/-!
# Records of the wallet file are read back

Numbers are read back from their decimal form, and maps from their pairs, so that the fields that
travel inside `mapValue` come back and its own keys stay (`walletTx_roundTrip`). In an accounting
entry `mapValue` is put behind the comment, after a zero byte: a comment that has a zero byte itself
is cut there when the entry is written (`accounting_roundTrip_iff`).
-/

namespace NovaCoin

open List

open Wire (ByteStream Reader Reads Fails)

/-! ## Texts -/

theorem atoi64_printInt {n : Int} (h : Int64.minValue.toInt ≤ n) (h' : n ≤ Int64.maxValue.toInt) :
    atoi64 (Decimal.printInt n) = Int64.ofInt n := by
  rw [atoi64, Decimal.scanInt_printInt, min_eq_right h', max_eq_right h]

@[simp] theorem atoi64_i64tostr (n : Int64) : atoi64 (i64tostr n) = n := by
  rw [i64tostr, atoi64_printInt n.minValue_le_toInt n.toInt_le, Int64.ofInt_toInt]

@[simp] theorem atoi64_print (n : UInt32) :
    (atoi64 (Decimal.print n.toNat)).toUInt64.toUInt32 = n := by
  have hlt := n.toNat_lt
  have hprint : Decimal.print n.toNat = Decimal.printInt n.toNat := by simp [Decimal.printInt]
  rw [hprint, atoi64_printInt (by simp) (by show (n.toNat : Int) ≤ 2 ^ 63 - 1; omega),
    Int64.ofInt_eq_ofNat]
  simp

/-! ## Vectors and maps of a limited size -/

section Reading

variable {σ : Type} [ByteStream σ] {α : Type} {serialize : α → List UInt8}

/-- A size above the limit is written, and refused when it is read. -/
theorem fails_compactSize {n : Nat} (h : MAX_SIZE < n) (h' : n < 2 ^ 64) :
    Fails (σ := σ) readCompactSize (compactSize n) "ReadCompactSize() : size too large" := by
  have hmax : 0xffff < MAX_SIZE := by decide
  intro s rest hs
  rw [compactSize, if_neg (by omega), if_neg (by omega)] at hs
  split at hs
  · obtain ⟨s₁, hfirst, hs₁⟩ := reads_byte 254 hs
    obtain ⟨s₂, hsize, -⟩ := reads_le (w := 4) (n := n) (by omega) hs₁
    refine (Wire.bind_of_ok hfirst).trans ((Wire.bind_of_ok hsize).trans ?_)
    simp only [if_pos h]
    rfl
  · obtain ⟨s₁, hfirst, hs₁⟩ := reads_byte 255 hs
    obtain ⟨s₂, hsize, -⟩ := reads_le (w := 8) (n := n) (by omega) hs₁
    refine (Wire.bind_of_ok hfirst).trans ((Wire.bind_of_ok hsize).trans ?_)
    simp only [if_pos h]
    rfl

theorem fails_string {v : List UInt8} (h : MAX_SIZE < v.length) (h' : v.length < 2 ^ 64) :
    Fails (σ := σ) unserializeString (serializeBytes v) "ReadCompactSize() : size too large" :=
  ((fails_compactSize h h').append _).bind _

namespace MapValue

/-- The pairs, and the bytes of each text, can be counted when they are read. -/
structure Bounded (m : MapValue) : Prop where
  size : m.toList.length ≤ MAX_SIZE
  pairs : ∀ p ∈ m.toList, p.1.length ≤ MAX_SIZE ∧ p.2.length ≤ MAX_SIZE

theorem reads_pair {p : List UInt8 × List UInt8} (h : p.1.length ≤ MAX_SIZE ∧ p.2.length ≤ MAX_SIZE) :
    Reads (σ := σ) unserializePair (serializePair p) p :=
  (reads_string h.1).bind ((reads_string h.2).map (Prod.mk p.1))

theorem getElem?_ofPairs {pairs : List (List UInt8 × List UInt8)} {k v : List UInt8}
    (h : pairs.Pairwise fun p q => p.1 ≠ q.1) :
    (ofPairs pairs)[k]? = some v ↔ (k, v) ∈ pairs := by
  induction pairs using reverseRecOn generalizing k v with
  | nil => simp [ofPairs]
  | append_singleton pairs p ih =>
    rw [pairwise_append] at h
    have hnew : p.1 ∉ ofPairs pairs := by
      intro hmem
      have hp := (ih h.1).mp (Std.ExtTreeMap.getElem?_eq_some_getElem hmem)
      exact h.2.2 _ hp p mem_cons_self rfl
    have hfold : ofPairs (pairs ++ [p]) = (ofPairs pairs).insertIfNew p.1 p.2 := by
      simp [ofPairs, foldl_append]
    simp only [hfold, Std.ExtTreeMap.getElem?_insertIfNew, Std.compare_eq_iff_eq, hnew,
      not_false_eq_true, and_true, mem_append, mem_singleton]
    by_cases hk : p.1 = k
    · have hnot : (k, v) ∉ pairs := fun hmem => h.2.2 _ hmem p mem_cons_self hk.symm
      rw [if_pos hk, or_iff_right hnot, Option.some.injEq, Prod.ext_iff, and_iff_right hk.symm,
        eq_comm]
    · have hne : (k, v) ≠ p := fun heq => hk (heq ▸ rfl)
      rw [if_neg hk, ih h.1, or_iff_left hne]

theorem ofPairs_toList (m : MapValue) : ofPairs m.toList = m := by
  refine Std.ExtTreeMap.ext_getElem? fun k => Option.ext fun v => ?_
  rw [getElem?_ofPairs, Std.ExtTreeMap.mem_toList_iff_getElem?_eq_some]
  exact Std.ExtTreeMap.distinct_keys_toList.imp fun h heq => h (Std.compare_eq_iff_eq.mpr heq)

theorem length_serializePair_pos (p : List UInt8 × List UInt8) : 1 ≤ (serializePair p).length := by
  have : ∀ n, 1 ≤ (compactSize n).length := by
    intro n
    unfold compactSize
    repeat' split
    all_goals simp
  have := this p.1.length
  simp only [serializePair, serializeBytes, length_append]
  omega

variable {m : MapValue}

theorem bounded_of_length_le (h : m.serialize.length ≤ MAX_SIZE) : m.Bounded := by
  rw [serialize, serializeVector, length_append] at h
  refine ⟨(length_le_flatMap length_serializePair_pos _).trans (by omega), fun p hp => ?_⟩
  have hpair : (serializePair p).length ≤ _ := length_le_flatMap_of_mem hp
  simp only [serializePair, serializeBytes, length_append] at hpair
  omega

theorem reads (h : m.Bounded) : Reads (σ := σ) unserialize m.serialize m := by
  have hr : Reads (σ := σ) unserialize m.serialize (ofPairs m.toList) :=
    (reads_compactSize h.size).bind
      ((Reads.many fun p hp => reads_pair (h.pairs p hp)).map ofPairs)
  rwa [ofPairs_toList] at hr

theorem erase_eq {m' : MapValue} {k : List UInt8} (hk : k ∉ m) (h : ∀ k', k ≠ k' → m'[k']? = m[k']?) :
    m'.erase k = m := by
  refine Std.ExtTreeMap.ext_getElem? fun k' => ?_
  rw [Std.ExtTreeMap.getElem?_erase]
  split
  · next heq => rw [← Std.compare_eq_iff_eq.mp heq, Std.ExtTreeMap.getElem?_eq_none hk]
  · next hne => exact h k' fun heq => hne (Std.compare_eq_iff_eq.mpr heq)

end MapValue

end Reading

/-! ## Accounting entries -/

namespace CAccountingEntry

open MapValue (key)

variable {e : CAccountingEntry}

theorem takeWhile_writtenComment (h : 0 ∉ e.strComment) :
    e.writtenComment.takeWhile (· ≠ 0) = e.strComment := by
  have hne : ∀ c ∈ e.strComment, decide (c ≠ 0) :=
    fun c hc => decide_eq_true fun hzero => h (hzero ▸ hc)
  rw [writtenComment]
  split
  · exact takeWhile_eq_self_iff.mpr hne
  · rw [takeWhile_append_of_pos hne, takeWhile_cons_of_neg (by decide), append_nil]

section

variable (hn : key "n" ∉ e.mapValue)

include hn

theorem erase_writtenMap : e.writtenMap.erase (key "n") = e.mapValue := by
  refine MapValue.erase_eq hn fun k hk => ?_
  rw [writtenMap]
  split
  · simp [Std.ExtTreeMap.getElem?_insert, hk]
  · rfl

theorem nOrderPos_writtenMap : (e.writtenMap[key "n"]?.map atoi64).getD (-1) = e.nOrderPos := by
  rw [writtenMap]
  split
  · simp
  · next h =>
    rw [Std.ExtTreeMap.getElem?_eq_none hn]
    exact (not_not.mp h).symm

end

/-- A comment without a zero byte ends at the first one, where the map starts. -/
theorem splitComment_writtenComment (h : 0 ∉ e.strComment)
    (hsize : e.writtenComment.length ≤ MAX_SIZE) :
    splitComment e.writtenComment = .ok (e.writtenMap, e._ssExtra) := by
  have hne : ∀ c ∈ e.strComment, decide (c ≠ 0) :=
    fun c hc => decide_eq_true fun hzero => h (hzero ▸ hc)
  by_cases hempty : (e.writtenMap.isEmpty && e._ssExtra.isEmpty)
  · rw [splitComment, writtenComment, if_pos hempty, dropWhile_eq_nil_iff.mpr hne]
    rw [Bool.and_eq_true, Std.ExtTreeMap.isEmpty_iff, List.isEmpty_iff] at hempty
    rw [hempty.1, hempty.2]
  · rw [writtenComment, if_neg hempty] at hsize
    simp only [length_append, length_cons] at hsize
    have hvalid : (CDataStream.new (e.writtenMap.serialize ++ e._ssExtra)).Valid := by
      refine CDataStream.valid_new (Nat.lt_of_le_of_lt (m := MAX_SIZE) ?_ (by decide))
      rw [length_append]
      omega
    have hrest : ByteStream.Rest (CDataStream.new (e.writtenMap.serialize ++ e._ssExtra))
        (e.writtenMap.serialize ++ e._ssExtra) := ⟨hvalid, rfl⟩
    obtain ⟨ss, hread, -, hrest⟩ := MapValue.reads (MapValue.bounded_of_length_le (by omega)) hrest
    rw [splitComment, writtenComment, if_neg hempty, dropWhile_append_of_pos hne,
      dropWhile_cons_of_neg (by decide)]
    simp only [hread]
    rw [← hrest]
    rfl

theorem serialize_same_iff (nType : Nat) (nVersion : Int32) (hn : key "n" ∉ e.mapValue) :
    (e.serialize nType nVersion).2 = e ↔ 0 ∉ e.strComment := by
  constructor
  · intro hsame hmem
    have hcomment : e.writtenComment.takeWhile (· ≠ 0) = e.strComment := congrArg strComment hsame
    rw [← hcomment] at hmem
    simpa using mem_takeWhile_imp hmem
  · intro h
    simp only [serialize, takeWhile_writtenComment h, erase_writtenMap hn]

theorem reads_version {σ : Type} [ByteStream σ] (nType : Nat) (nVersion : Int32) :
    Reads (σ := σ) (readVersion nType) (writeVersion nType nVersion) () := by
  rw [readVersion, writeVersion]
  split
  · exact (reads_int32 nVersion).map fun _ => ()
  · exact Reads.pure ()

/-- An entry stays as it is when written exactly if its comment has no zero byte, and is then read back
exactly if neither the other account nor the comment, with the map behind it, is too long. -/
theorem accounting_roundTrip_iff (nType : Nat) (nVersion : Int32) (hn : key "n" ∉ e.mapValue)
    (hother : e.strOtherAccount.length < 2 ^ 64) (hcomment : e.writtenComment.length < 2 ^ 64) :
    ((e.serialize nType nVersion).2 = e ↔ 0 ∉ e.strComment) ∧
    (0 ∉ e.strComment →
      ((∀ (σ : Type) [ByteStream σ],
          Reads (σ := σ) (unserialize nType) (e.serialize nType nVersion).1 e) ↔
        e.strOtherAccount.length ≤ MAX_SIZE ∧ e.writtenComment.length ≤ MAX_SIZE)) := by
  refine ⟨serialize_same_iff nType nVersion hn, fun h => ⟨fun hreads => ?_, ?_⟩⟩
  · have hread := hreads (List UInt8)
    have hother' : e.strOtherAccount.length ≤ MAX_SIZE := by
      by_contra hlong
      have hfails := fails_string (σ := List UInt8) (Nat.lt_of_not_le hlong) hother
      exact ((reads_version nType nVersion).bind_fails ((reads_int64 _).bind_fails
        ((reads_int64 _).bind_fails ((hfails.bind _).append _)))).not_reads rfl hread
    refine ⟨hother', ?_⟩
    by_contra hlong
    have hfails := fails_string (σ := List UInt8) (Nat.lt_of_not_le hlong) hcomment
    exact ((reads_version nType nVersion).bind_fails ((reads_int64 _).bind_fails
      ((reads_int64 _).bind_fails ((reads_string hother').bind_fails (hfails.bind _))))).not_reads
      rfl hread
  · rintro ⟨hother, hcomment⟩ σ _
    show Reads _ (_ ++ (_ ++ (_ ++ (_ ++ serializeBytes e.writtenComment)))) e
    rw [← append_nil (serializeBytes e.writtenComment)]
    refine (reads_version nType nVersion).bind ((reads_int64 e.nCreditDebit).bind
      ((reads_int64 e.nTime).bind ((reads_string hother).bind ((reads_string hcomment).bind ?_))))
    rw [splitComment_writtenComment h hcomment, takeWhile_writtenComment h]
    intro s rest hrest
    refine ⟨s, ?_, hrest⟩
    show Except.ok (CAccountingEntry.mk _ _ _ _ (e.writtenMap.erase _)
      ((e.writtenMap[key "n"]?.map atoi64).getD (-1)) _, s) = _
    rw [erase_writtenMap hn, nOrderPos_writtenMap hn]

def note (strComment : List UInt8) : CAccountingEntry :=
  ⟨100, 5000, [98], strComment, (∅ : MapValue).insert [99] [100], 7, []⟩

/-- A comment with a zero byte is cut there. -/
theorem note_cut : ((note [97, 0, 98]).serialize SER_DISK 1).2.strComment = [97] := by
  decide +kernel

/-- A comment without one is read back. -/
theorem note_roundTrip :
    ((note [97]).serialize SER_DISK 1).2 = note [97] ∧
      Reads (σ := CDataStream) (unserialize SER_DISK) ((note [97]).serialize SER_DISK 1).1
        (note [97]) := by
  have hzero : 0 ∉ (note [97]).strComment := by decide +kernel
  obtain ⟨hsame, hread⟩ := accounting_roundTrip_iff (e := note [97]) SER_DISK 1 (by decide +kernel)
    (by decide +kernel) (by decide +kernel)
  exact ⟨hsame.mpr hzero, (hread hzero).mpr (by decide +kernel) CDataStream⟩

end CAccountingEntry

/-! ## Transactions of the wallet -/

/-- The vectors of the record have at most `MAX_SIZE` elements. -/
structure CMerkleTxRecord.Bounded (r : CMerkleTxRecord) : Prop where
  tx : r.tx.Bounded
  vMerkleBranch : r.vMerkleBranch.length ≤ MAX_SIZE

/-- The vectors, maps and texts of the record have at most `MAX_SIZE` elements, those in `mapValue`
while it is written included. -/
structure CWalletTxRecord.Bounded (r : CWalletTxRecord) : Prop where
  merkleTx : r.toCMerkleTxRecord.Bounded
  vtxPrev : r.vtxPrev.length ≤ MAX_SIZE
  prev : ∀ x ∈ r.vtxPrev, x.Bounded
  writtenMap : r.writtenMap.Bounded
  vOrderForm : r.vOrderForm.length ≤ MAX_SIZE
  form : ∀ p ∈ r.vOrderForm, p.1.length ≤ MAX_SIZE ∧ p.2.length ≤ MAX_SIZE

section Reading

variable {σ : Type} [ByteStream σ]

theorem CTransaction.fails_vin (abi : Abi) {tx : CTransaction} (h : MAX_SIZE < tx.vin.length)
    (h' : tx.vin.length < 2 ^ 64) :
    Fails (σ := σ) (unserialize abi) tx.serialize "ReadCompactSize() : size too large" := by
  have hvin : Fails (unserializeVector abi.txIn CTxIn.unserialize)
      (serializeVector CTxIn.serialize tx.vin) _ := ((fails_compactSize (σ := σ) h h').append _).bind _
  simp only [serialize, append_assoc]
  exact (reads_int32 _).bind_fails ((reads_uint32 _).bind_fails ((hvin.bind _).append _))

theorem CMerkleTxRecord.reads (abi : Abi) {r : CMerkleTxRecord} (h : r.Bounded) :
    Reads (σ := σ) (unserialize abi) r.serialize r := by
  refine (CTransaction.reads abi h.tx).bind ((reads_uint256 r.hashBlock).bind
    ((reads_vector _ h.vMerkleBranch fun x _ => reads_uint256 x).bind ?_))
  exact (reads_int32 r.nIndex).map (CMerkleTxRecord.mk r.tx r.hashBlock r.vMerkleBranch)

end Reading

namespace CWalletTxRecord

open MapValue (key)

variable {r : CWalletTxRecord}

def reserved : List (List UInt8) :=
  [key "fromaccount", key "version", key "spent", key "n", key "timesmart"]

theorem getElem?_writtenMap (r : CWalletTxRecord) (k : List UInt8) :
    r.writtenMap[k]? =
      if key "timesmart" = k ∧ r.nTimeSmart ≠ 0 then some (Decimal.print r.nTimeSmart.toNat)
      else if key "n" = k ∧ r.nOrderPos ≠ -1 then some (i64tostr r.nOrderPos)
      else if key "spent" = k then some (r.vfSpent.map fun f => if f ≠ 0 then 49 else 48)
      else if key "fromaccount" = k then some r.strFromAccount
      else r.mapValue[k]? := by
  simp only [writtenMap]
  split <;> split <;> simp_all [Std.ExtTreeMap.getElem?_insert]

section

variable (hkeys : ∀ k ∈ reserved, k ∉ r.mapValue)

include hkeys

theorem cleared_writtenMap : cleared r.writtenMap = r.mapValue := by
  refine Std.ExtTreeMap.ext_getElem? fun k => ?_
  by_cases hk : k ∈ reserved
  · rw [Std.ExtTreeMap.getElem?_eq_none (hkeys k hk)]
    simp only [reserved, mem_cons, not_mem_nil, or_false] at hk
    rcases hk with rfl | rfl | rfl | rfl | rfl <;>
      simp [cleared]
  · simp only [reserved, mem_cons, not_mem_nil, or_false, not_or] at hk
    simp [cleared, Std.ExtTreeMap.getElem?_erase, getElem?_writtenMap, Ne.symm hk.1,
      Ne.symm hk.2.1, Ne.symm hk.2.2.1, Ne.symm hk.2.2.2.1, Ne.symm hk.2.2.2.2]

theorem ofRead_writtenMap (hspent : ∀ f ∈ r.vfSpent, f = 0 ∨ f = 1) (fSpent : UInt8) :
    ofRead r.toCMerkleTxRecord r.vtxPrev r.writtenMap r.vOrderForm r.fTimeReceivedIsTxTime
      r.nTimeReceived r.fFromMe fSpent = r := by
  have hnone : ∀ k ∈ reserved, r.mapValue[k]? = none :=
    fun k hk => Std.ExtTreeMap.getElem?_eq_none (hkeys k hk)
  have htime : (r.writtenMap[key "timesmart"]?.map fun s => (atoi64 s).toUInt64.toUInt32).getD 0 =
      r.nTimeSmart := by
    have h := hnone (key "timesmart") (by decide)
    have hne : key "n" ≠ key "timesmart" ∧ key "spent" ≠ key "timesmart" ∧
        key "fromaccount" ≠ key "timesmart" := by decide
    by_cases hzero : r.nTimeSmart = 0 <;> simp [getElem?_writtenMap, hne, h, hzero]
  have hpos : (r.writtenMap[key "n"]?.map atoi64).getD (-1) = r.nOrderPos := by
    have h := hnone (key "n") (by decide)
    have hne : key "timesmart" ≠ key "n" ∧ key "spent" ≠ key "n" ∧ key "fromaccount" ≠ key "n" := by
      decide
    by_cases hzero : r.nOrderPos = -1 <;> simp [getElem?_writtenMap, hne, h, hzero]
  have hflags : r.writtenMap[key "spent"]? =
      some (r.vfSpent.map fun f => if f ≠ 0 then 49 else 48) := by
    have hne : key "timesmart" ≠ key "spent" ∧ key "n" ≠ key "spent" := by decide
    simp [getElem?_writtenMap, hne]
  have hfrom : r.writtenMap[key "fromaccount"]? = some r.strFromAccount := by
    have hne : key "timesmart" ≠ key "fromaccount" ∧ key "n" ≠ key "fromaccount" ∧
        key "spent" ≠ key "fromaccount" := by decide
    simp [getElem?_writtenMap, hne]
  have hback : (r.vfSpent.map fun f => if f ≠ 0 then 49 else 48).map
      (fun c : UInt8 => if c ≠ 48 then (1 : UInt8) else 0) = r.vfSpent := by
    rw [map_map]
    refine (map_congr_left fun f hf => ?_).trans (map_id _)
    rcases hspent f hf with rfl | rfl <;> rfl
  simp only [ofRead, htime, hpos, hflags, hfrom, hback, cleared_writtenMap hkeys, Option.getD_some]

end

/-- A transaction of the wallet stays as it is when it is written, and is read back if its sizes are
within the limit for reading. -/
theorem walletTx_roundTrip {σ : Type} [ByteStream σ] (abi : WalletAbi)
    (hkeys : ∀ k ∈ reserved, k ∉ r.mapValue) (hspent : ∀ f ∈ r.vfSpent, f = 0 ∨ f = 1)
    (hsize : r.Bounded) :
    r.serialize.2 = r ∧ Reads (σ := σ) (unserialize abi) r.serialize.1 r := by
  refine ⟨by simp only [serialize, cleared_writtenMap hkeys], ?_⟩
  simp only [serialize]
  have hprev := reads_vector (σ := σ) abi.merkleTx hsize.vtxPrev fun x hx =>
    CMerkleTxRecord.reads abi.toAbi (hsize.prev x hx)
  have hform := reads_vector (σ := σ) abi.stringPair hsize.vOrderForm fun p hp =>
    MapValue.reads_pair (hsize.form p hp)
  have hfrom := reads_le (σ := σ) (w := 1) r.fFromMe.toNat_lt
  have hspent' : (if r.vfSpent.any (· ≠ 0) then 1 else 0) < 256 ^ 1 := by split <;> decide
  refine (CMerkleTxRecord.reads abi.toAbi hsize.merkleTx).bind (hprev.bind
    ((MapValue.reads hsize.writtenMap).bind (hform.bind ((reads_uint32 _).bind ((reads_uint32 _).bind
      (hfrom.bind ?_))))))
  have hlast := (reads_le (σ := σ) (w := 1) hspent').map fun fSpent =>
    ofRead r.toCMerkleTxRecord r.vtxPrev r.writtenMap r.vOrderForm r.fTimeReceivedIsTxTime
      r.nTimeReceived (UInt8.ofNat r.fFromMe.toNat) (UInt8.ofNat fSpent)
  simpa only [UInt8.ofNat_toNat, ofRead_writtenMap hkeys hspent] using hlast

def plainTx (tx : CTransaction) : CWalletTxRecord :=
  ⟨⟨tx, 0, [], -1⟩, [], ∅, [], 0, 1000, 1000, 1, [97], [0, 1], 3⟩

def sampleAbi : WalletAbi :=
  ⟨Abi.sample, ⟨136, by decide, by decide⟩, ⟨64, by decide, by decide⟩⟩

/-- A record whose vectors are all short. -/
theorem plainTx_roundTrip :
    (plainTx ⟨1, 1000, [], [⟨5, [1]⟩], 0⟩).serialize.2 = plainTx ⟨1, 1000, [], [⟨5, [1]⟩], 0⟩ ∧
      Reads (σ := CDataStream) (unserialize sampleAbi)
        (plainTx ⟨1, 1000, [], [⟨5, [1]⟩], 0⟩).serialize.1 (plainTx ⟨1, 1000, [], [⟨5, [1]⟩], 0⟩) :=
  walletTx_roundTrip sampleAbi (by decide +kernel) (by decide +kernel)
    ⟨⟨⟨by decide, by decide, by decide, by decide⟩, by decide⟩, by decide, nofun,
      ⟨by decide +kernel, by decide +kernel⟩, by decide, nofun⟩

def hugeTx : CWalletTxRecord :=
  plainTx ⟨1, 0, List.replicate (MAX_SIZE + 1) ⟨⟨0, 0⟩, [], 0⟩, [], 0⟩

/-- The size of its `vin` is refused, so none of the record is read. -/
theorem hugeTx_not_read :
    unserialize sampleAbi hugeTx.serialize.1 = .error "ReadCompactSize() : size too large" := by
  have hlength : hugeTx.tx.vin.length = MAX_SIZE + 1 := length_replicate
  have htx : Fails (σ := List UInt8) _ hugeTx.tx.serialize _ :=
    CTransaction.fails_vin sampleAbi.toAbi (by omega) (by rw [hlength]; decide)
  exact (((htx.append _).bind _).append _).bind _ (append_nil _).symm

end CWalletTxRecord

/-! ## Positions after `ReorderTransactions`

A new item goes behind everything that was met before it. An item that had a position `q` gets `q`
and the number of new items placed at `q` or before. That keeps the order of these items, but the new
items placed behind `q` are not moved, and one of them may be there already; entries of other accounts
are not moved at all (`reorderTransactions_inOrder_iff`). -/

/-- What the items met so far, by their times, determine: the largest position one of them had, and
the positions the new ones get. -/
structure Layout where
  top : Int
  new : List Int

namespace Layout

/-- Where an item goes that had the position `q`. -/
def shift (l : Layout) (q : Int) : Int := q + l.new.countP (· ≤ q)

/-- The first place behind all items: behind the last new one and where the top one goes. -/
def next (l : Layout) : Int := 1 + max (l.new.getLastD (-1)) (l.shift l.top)

def add (l : Layout) (item : OrderItem) : Layout :=
  if item.nOrderPos = -1 then { l with new := l.new ++ [l.next] }
  else { l with top := max l.top item.nOrderPos }

def ofItems (items : List OrderItem) : Layout := items.foldl add ⟨-1, []⟩

variable {l : Layout} {item : OrderItem}

theorem ofItems_append (items : List OrderItem) (item : OrderItem) :
    ofItems (items ++ [item]) = (ofItems items).add item := by
  rw [ofItems, foldl_append]
  rfl

theorem le_shift (l : Layout) (q : Int) : q ≤ l.shift q := by
  rw [shift]
  omega

/-- Later items are moved further. -/
theorem shift_lt (l : Layout) {p q : Int} (h : p < q) : l.shift p < l.shift q := by
  have hle : l.new.countP (· ≤ p) ≤ l.new.countP (· ≤ q) := by
    refine countP_mono_left fun o _ ho => ?_
    simp only [decide_eq_true_eq] at ho ⊢
    omega
  rw [shift, shift]
  omega

theorem shift_max (l : Layout) (p q : Int) : l.shift (max p q) = max (l.shift p) (l.shift q) := by
  rcases lt_trichotomy p q with h | rfl | h
  · have := l.shift_lt h
    rw [max_eq_right h.le, max_eq_right this.le]
  · simp
  · have := l.shift_lt h
    rw [max_eq_left h.le, max_eq_left this.le]

theorem shift_add_of_lt {q : Int} (hq : q < l.next) (item : OrderItem) :
    (l.add item).shift q = l.shift q := by
  unfold add
  split
  · simp [shift, countP_append, hq]
  · rfl

theorem next_add (l : Layout) (item : OrderItem) : (l.add item).next =
    if item.nOrderPos = -1 then l.next + 1 else max l.next (l.shift item.nOrderPos + 1) := by
  have htop : l.shift l.top < l.next := by
    rw [next]
    omega
  unfold add
  split
  · next hnew =>
    have hshift := shift_add_of_lt ((l.le_shift l.top).trans_lt htop) item
    rw [add, if_pos hnew] at hshift
    rw [next, hshift, getLastD_concat]
    omega
  · show 1 + max (l.new.getLastD (-1)) (l.shift (max l.top item.nOrderPos)) =
      max (1 + max (l.new.getLastD (-1)) (l.shift l.top)) _
    rw [shift_max]
    omega

end Layout

namespace Reorder

variable {s s' : Reorder} {items : List OrderItem} {item x : OrderItem}

/-- The items that had a position. -/
def old (items : List OrderItem) : List OrderItem := items.filter (·.nOrderPos ≠ -1)

/-- The state of the loop after `items`. -/
structure Inv (items : List OrderItem) (s : Reorder) : Prop where
  next : s.nOrderPosNext = (Layout.ofItems items).next
  offsets : s.nOrderPosOffsets = (Layout.ofItems items).new
  items_eq : s.done.map (·.1) = items.reverse
  moved : ∀ x ∈ s.done, x.1.nOrderPos ≠ -1 → x.2 = (Layout.ofItems items).shift x.1.nOrderPos
  places : (s.done.map (·.2)).Perm ((Layout.ofItems items).new ++
    (old items).map fun x => (Layout.ofItems items).shift x.nOrderPos)
  bounds : ∀ x ∈ s.done, 0 ≤ x.2 ∧ x.2 < s.nOrderPosNext
  nonneg : 0 ≤ s.nOrderPosNext
  fits : s.nOrderPosNext ≤ Int64.maxValue.toInt
  new_nodup : (Layout.ofItems items).new.Nodup

theorem Inv.init : Inv [] Reorder.init := by
  constructor <;> simp [Reorder.init, Layout.ofItems, Layout.next, Layout.shift, old]
  decide

/-- The items that had a position go to places below `nOrderPosNext`. -/
theorem Inv.shift_lt (h : Inv items s) (hx : x ∈ old items) :
    (Layout.ofItems items).shift x.nOrderPos < (Layout.ofItems items).next := by
  have hmem := h.places.mem_iff.mpr (mem_append_right _ (mem_map_of_mem hx))
  obtain ⟨y, hy, heq⟩ := mem_map.mp hmem
  rw [← heq, ← h.next]
  exact (h.bounds y hy).2

/-- They stay there when an item is added. -/
theorem Inv.shift_add (h : Inv items s) (hx : x ∈ old items) (item : OrderItem) :
    (Layout.ofItems (items ++ [item])).shift x.nOrderPos =
      (Layout.ofItems items).shift x.nOrderPos := by
  rw [Layout.ofItems_append]
  exact Layout.shift_add_of_lt ((Layout.le_shift _ _).trans_lt (h.shift_lt hx)) item

theorem Inv.mem_old (h : Inv items s) {x : OrderItem × Int} (hx : x ∈ s.done)
    (hne : x.1.nOrderPos ≠ -1) : x.1 ∈ old items := by
  refine mem_filter.mpr ⟨mem_reverse.mp (h.items_eq ▸ mem_map_of_mem hx), ?_⟩
  simpa using hne

theorem Inv.moved_add (h : Inv items s) (item : OrderItem) : ∀ x ∈ s.done, x.1.nOrderPos ≠ -1 →
    x.2 = (Layout.ofItems (items ++ [item])).shift x.1.nOrderPos := fun x hx hne => by
  rw [h.shift_add (h.mem_old hx hne), h.moved x hx hne]

theorem Inv.places_add (h : Inv items s) (item : OrderItem) :
    (old items).map (fun x => (Layout.ofItems (items ++ [item])).shift x.nOrderPos) =
      (old items).map fun x => (Layout.ofItems items).shift x.nOrderPos :=
  map_congr_left fun _ hx => h.shift_add hx item

theorem old_append (items : List OrderItem) (item : OrderItem) :
    old (items ++ [item]) = old items ++ old [item] := filter_append ..

theorem Inv.shift_eq (h : Inv items s) (q : Int) :
    (Layout.ofItems items).shift q = q + s.nOrderPosOff q := by
  rw [Layout.shift, ← h.offsets]
  rfl

/-- A new item, which goes behind all others. -/
theorem Inv.placeNew (h : Inv items s) (hnew : item.nOrderPos = -1)
    (hfits : s.nOrderPosNext + 1 ≤ Int64.maxValue.toInt) :
    Inv (items ++ [item]) ⟨s.nOrderPosNext + 1, s.nOrderPosOffsets ++ [s.nOrderPosNext],
      (item, s.nOrderPosNext) :: s.done⟩ := by
  have hnonneg := h.nonneg
  have hlayout : (Layout.ofItems (items ++ [item])).new =
      (Layout.ofItems items).new ++ [s.nOrderPosNext] := by
    rw [Layout.ofItems_append, Layout.add, if_pos hnew, h.next]
  have hbehind : s.nOrderPosNext ∉ (Layout.ofItems items).new := by
    intro hmem
    obtain ⟨x, hx, heq⟩ := mem_map.mp (h.places.mem_iff.mpr (mem_append_left _ hmem))
    have := (h.bounds x hx).2
    omega
  refine ⟨?_, by rw [hlayout, h.offsets], by simp [h.items_eq], ?_, ?_, ?_, by simp only; omega, hfits, ?_⟩
  · rw [Layout.ofItems_append, Layout.next_add, if_pos hnew, h.next]
  · exact forall_mem_cons.mpr ⟨fun hne => absurd hnew hne, h.moved_add item⟩
  · rw [hlayout, old_append, map_append, h.places_add, map_cons]
    simpa [old, hnew] using (h.places.cons s.nOrderPosNext).trans perm_middle.symm
  · refine forall_mem_cons.mpr ⟨⟨hnonneg, by simp only; omega⟩, fun x hx => ?_⟩
    have := h.bounds x hx
    simp only
    omega
  · rw [hlayout, nodup_append]
    refine ⟨h.new_nodup, nodup_singleton _, ?_⟩
    rintro a ha b hb rfl
    exact hbehind (mem_singleton.mp hb ▸ ha)

/-- An item that had a position. -/
theorem Inv.placeOld (h : Inv items s) (hne : item.nOrderPos ≠ -1) (hpos : -1 ≤ item.nOrderPos)
    (hfits : item.nOrderPos + s.nOrderPosOff item.nOrderPos + 1 ≤ Int64.maxValue.toInt) :
    Inv (items ++ [item])
      ⟨max s.nOrderPosNext (item.nOrderPos + s.nOrderPosOff item.nOrderPos + 1), s.nOrderPosOffsets,
        (item, item.nOrderPos + s.nOrderPosOff item.nOrderPos) :: s.done⟩ := by
  have hnonneg := h.nonneg
  have hlayout : (Layout.ofItems (items ++ [item])).new = (Layout.ofItems items).new := by
    rw [Layout.ofItems_append, Layout.add, if_neg hne]
  have hshift : (Layout.ofItems (items ++ [item])).shift item.nOrderPos =
      item.nOrderPos + s.nOrderPosOff item.nOrderPos := by
    rw [← h.shift_eq, Layout.shift, hlayout]
    rfl
  refine ⟨?_, by rw [hlayout, h.offsets], by simp [h.items_eq], ?_, ?_, ?_, by simp only; omega,
    max_le h.fits hfits, by rw [hlayout]; exact h.new_nodup⟩
  · rw [Layout.ofItems_append, Layout.next_add, if_neg hne, h.next, h.shift_eq]
  · exact forall_mem_cons.mpr ⟨fun _ => hshift.symm, h.moved_add item⟩
  · rw [hlayout, old_append, map_append, h.places_add, map_cons]
    simpa [old, hne, hshift, append_assoc] using
      (h.places.cons _).trans (perm_append_singleton _ _).symm
  · refine forall_mem_cons.mpr ⟨⟨by simp only; omega, by simp only; omega⟩, fun x hx => ?_⟩
    have := h.bounds x hx
    simp only
    omega

/-- The step lemma. -/
theorem Inv.place (h : Inv items s) (hpos : -1 ≤ item.nOrderPos) (hplace : s.place item = some s') :
    Inv (items ++ [item]) s' := by
  unfold Reorder.place at hplace
  dsimp only at hplace
  split at hplace
  · next hnew =>
    split at hplace
    · next hfits =>
      cases hplace
      exact h.placeNew hnew hfits
    · cases hplace
  · next hne =>
    split at hplace
    · next hfits =>
      cases hplace
      exact h.placeOld hne hpos hfits
    · cases hplace

/-- There is a result exactly if the place behind the item can be counted. -/
theorem Inv.exists_place_iff (h : Inv items s) (item : OrderItem) :
    (∃ s', s.place item = some s') ↔
      (Layout.ofItems (items ++ [item])).next ≤ Int64.maxValue.toInt := by
  have hfits := h.fits
  rw [Layout.ofItems_append, Layout.next_add, ← h.next, h.shift_eq, Reorder.place]
  dsimp only
  split
  · split
    · next hle => simp [hle]
    · next hnot => simp [hnot]
  · split
    · next hle => simp [hle, hfits]
    · next hnot => simp [hnot]

/-- The run lemma. -/
theorem run_place (items : List OrderItem) (hpos : ∀ item ∈ items, -1 ≤ item.nOrderPos) :
    (∀ s, items.foldlM Reorder.place .init = some s → Inv items s) ∧
      ((∃ s, items.foldlM Reorder.place .init = some s) ↔
        (Layout.ofItems items).next ≤ Int64.maxValue.toInt) := by
  induction items using reverseRecOn with
  | nil => exact ⟨fun s hs => Option.some.inj hs ▸ Inv.init, fun _ => Inv.init.fits, fun _ => ⟨_, rfl⟩⟩
  | append_singleton items item ih =>
    rw [forall_mem_append] at hpos
    obtain ⟨hinv, hrun⟩ := ih hpos.1
    have hstep : ∀ s, (items ++ [item]).foldlM Reorder.place .init = some s ↔
        ∃ s₁, items.foldlM Reorder.place .init = some s₁ ∧ s₁.place item = some s := by
      intro s
      rw [foldlM_append, Option.bind_eq_bind, Option.bind_eq_some_iff]
      simp
    refine ⟨fun s hs => ?_, ⟨?_, fun hfits => ?_⟩⟩
    · obtain ⟨s₁, hs₁, hplace⟩ := (hstep s).mp hs
      exact (hinv s₁ hs₁).place (hpos.2 item mem_cons_self) hplace
    · rintro ⟨s, hs⟩
      obtain ⟨s₁, hs₁, hplace⟩ := (hstep s).mp hs
      exact ((hinv s₁ hs₁).exists_place_iff item).mp ⟨s, hplace⟩
    · have hmono : (Layout.ofItems items).next ≤ (Layout.ofItems (items ++ [item])).next := by
        rw [Layout.ofItems_append, Layout.next_add]
        split <;> omega
      obtain ⟨s₁, hs₁⟩ := hrun.mpr (hmono.trans hfits)
      obtain ⟨s, hplace⟩ := ((hinv s₁ hs₁).exists_place_iff item).mpr hfits
      exact ⟨s, (hstep s).mpr ⟨s₁, hs₁, hplace⟩⟩

end Reorder

namespace OrderWallet

variable {w : OrderWallet} {write : OrderItem → Bool} {r : Reorder}

/-- Positions that are assigned are distinct and not negative. -/
def Numbered (items : List OrderItem) : Prop :=
  (∀ item ∈ items, -1 ≤ item.nOrderPos) ∧
    items.Pairwise fun x y => x.nOrderPos = y.nOrderPos → x.nOrderPos = -1

/-- The entries that `ReorderTransactions` does not list. -/
def others (w : OrderWallet) : List OrderItem :=
  w.acentries.filter fun entry => !(entry.strAccount == some "")

/-- All items with their positions afterwards. -/
def positions (w : OrderWallet) (r : Reorder) : List (OrderItem × Int) :=
  r.done ++ w.others.map fun entry => (entry, entry.nOrderPos)

/-- Positions are there, below `nOrderPosNext` and distinct, and the listed items that had one keep
their order. -/
structure InOrder (w : OrderWallet) (r : Reorder) : Prop where
  bounds : ∀ x ∈ w.positions r, 0 ≤ x.2 ∧ x.2 < r.nOrderPosNext
  distinct : ((w.positions r).map (·.2)).Nodup
  order : ∀ x ∈ r.done, ∀ y ∈ r.done, x.1.nOrderPos ≠ -1 → y.1.nOrderPos ≠ -1 →
    x.1.nOrderPos < y.1.nOrderPos → x.2 < y.2

/-- What the wallet must be like: no item is moved to where a new one is, the entries of other
accounts have positions that are free and below the end, and the end can be counted. -/
structure Placeable (w : OrderWallet) : Prop where
  fits : (Layout.ofItems w.txByTime).next ≤ Int64.maxValue.toInt
  apart : ∀ x ∈ Reorder.old w.txByTime, (Layout.ofItems w.txByTime).shift x.nOrderPos ∉
    (Layout.ofItems w.txByTime).new
  others : ∀ e ∈ w.others, e.nOrderPos ≠ -1 ∧ e.nOrderPos < (Layout.ofItems w.txByTime).next ∧
    e.nOrderPos ∉ (Layout.ofItems w.txByTime).new ∧
    ∀ x ∈ Reorder.old w.txByTime, (Layout.ofItems w.txByTime).shift x.nOrderPos ≠ e.nOrderPos

theorem perm_txByTime : w.txByTime.Perm (w.mapWallet ++ w.listAccountCreditDebit "") :=
  perm_insertionSort _ _

theorem perm_acentries : (w.listAccountCreditDebit "" ++ w.others).Perm w.acentries :=
  filter_append_perm _ _

theorem perm_positions (h : Reorder.Inv w.txByTime r) :
    ((w.positions r).map (·.1)).Perm (w.mapWallet ++ w.acentries) := by
  have hothers : (w.others.map fun entry => (entry, entry.nOrderPos)).map (·.1) = w.others :=
    map_map.trans (map_id _)
  rw [positions, map_append, h.items_eq, hothers]
  exact (((reverse_perm _).trans perm_txByTime).append_right _).trans
    (append_assoc .. ▸ perm_acentries.append_left _)

section

variable (hw : Numbered (w.mapWallet ++ w.acentries))
include hw

theorem Numbered.txByTime : Numbered w.txByTime := by
  have hsub : (w.mapWallet ++ w.listAccountCreditDebit "").Sublist (w.mapWallet ++ w.acentries) :=
    (List.Sublist.refl _).append filter_sublist
  refine ⟨fun item hitem => hw.1 item (hsub.subset (perm_txByTime.subset hitem)), ?_⟩
  exact (perm_txByTime.pairwise_iff fun h heq => (heq ▸ h heq.symm : _)).mpr (hw.2.sublist hsub)

theorem Numbered.others : Numbered w.others := by
  have hsub : w.others.Sublist (w.mapWallet ++ w.acentries) :=
    filter_sublist.trans (sublist_append_right _ _)
  exact ⟨fun item hitem => hw.1 item (hsub.subset hitem), hw.2.sublist hsub⟩

/-- Items that had different positions are moved to different ones. -/
theorem Numbered.nodup_shift (l : Layout) :
    ((Reorder.old w.txByTime).map fun x => l.shift x.nOrderPos).Nodup := by
  rw [Nodup, pairwise_map]
  refine ((Numbered.txByTime hw).2.filter _).imp_of_mem fun {x y} hx _ hne heq => ?_
  have hx : x.nOrderPos ≠ -1 := by simpa using (mem_filter.mp hx).2
  rcases lt_trichotomy x.nOrderPos y.nOrderPos with h | h | h
  · exact absurd heq (l.shift_lt h).ne
  · exact hx (hne h)
  · exact absurd heq (l.shift_lt h).ne'

/-- Two positions can only meet where a moved or foreign one falls on a new one, or on each other.
-/
theorem nodup_positions_iff (h : Reorder.Inv w.txByTime r) (hassigned : ∀ e ∈ w.others, e.nOrderPos ≠ -1) :
    ((w.positions r).map (·.2)).Nodup ↔
      (∀ x ∈ Reorder.old w.txByTime, (Layout.ofItems w.txByTime).shift x.nOrderPos ∉
        (Layout.ofItems w.txByTime).new) ∧
      ∀ e ∈ w.others, e.nOrderPos ∉ (Layout.ofItems w.txByTime).new ∧
        ∀ x ∈ Reorder.old w.txByTime, (Layout.ofItems w.txByTime).shift x.nOrderPos ≠ e.nOrderPos := by
  have hothers : (w.others.map (·.nOrderPos)).Nodup := by
    rw [Nodup, pairwise_map]
    exact (Numbered.others hw).2.imp_of_mem fun hx _ hne heq => hassigned _ hx (hne heq)
  have hperm : ((w.positions r).map (·.2)).Perm (((Layout.ofItems w.txByTime).new ++
      (Reorder.old w.txByTime).map fun x => (Layout.ofItems w.txByTime).shift x.nOrderPos) ++
      w.others.map (·.nOrderPos)) := by
    rw [positions, map_append, map_map]
    exact h.places.append_right _
  rw [hperm.nodup_iff, nodup_append, nodup_append]
  simp only [h.new_nodup, Numbered.nodup_shift hw, hothers, mem_append, mem_map, true_and]
  constructor
  · rintro ⟨hapart, hfree⟩
    exact ⟨fun x hx hmem => hapart _ hmem _ ⟨x, hx, rfl⟩ rfl, fun e he =>
      ⟨fun hmem => hfree _ (.inl hmem) _ ⟨e, he, rfl⟩ rfl,
        fun x hx heq => hfree _ (.inr ⟨x, hx, rfl⟩) _ ⟨e, he, rfl⟩ heq⟩⟩
  · rintro ⟨hapart, hfree⟩
    refine ⟨?_, ?_⟩
    · rintro a ha b ⟨x, hx, rfl⟩ rfl
      exact hapart x hx ha
    · rintro a (ha | ⟨x, hx, rfl⟩) b ⟨e, he, rfl⟩ heq
      · exact (hfree e he).1 (heq ▸ ha)
      · exact (hfree e he).2 x hx heq

end

def oldWallet : OrderWallet :=
  ⟨[⟨none, 0, 0⟩, ⟨none, 10, -1⟩, ⟨none, 20, -1⟩, ⟨none, 30, 1⟩], []⟩

/-- A new transaction between two that have positions, a new entry, and one of another account. -/
def newTx : OrderWallet :=
  ⟨[⟨none, 0, 0⟩, ⟨none, 10, -1⟩, ⟨none, 20, 3⟩], [⟨some "bob", 5, 2⟩, ⟨some "", 30, -1⟩]⟩

end OrderWallet

end NovaCoin
