import NovaCoin.Properties.Disconnect
import NovaCoin.Properties.Timestamps
import NovaCoin.Spec.Block

/-!
# Coinbases and coinstakes mature

`ConnectInputs` does not know the height of the transaction it spends from. It goes back over the
last `nCoinbaseMaturity` blocks and compares their places on disk with that of the transaction. In a
run where every block is the one its place on disk has, this finds the block.
-/

namespace NovaCoin

open Guard SpentIndex List

/-! ## Block files -/

abbrev BlockFiles := UInt32 → UInt32 → Option CBlock

def CBlockIndex.ofPlace (nFile nBlockPos : UInt32) : CBlockIndex :=
  ⟨0, nFile, nBlockPos, 0, 0, 0, 0, false, 0, 0⟩

/-- `CTransaction::ReadFromDisk`: the transaction that begins at the position. -/
def BlockFiles.readTx (files : BlockFiles) (pos : CDiskTxPos) : Option CTransaction :=
  (files pos.nFile pos.nBlockPos).bind fun b =>
    (b.stored (.ofPlace pos.nFile pos.nBlockPos)).lookup pos

variable {pindex : CBlockIndex} {files : BlockFiles} {b : CBlock} {pos : CDiskTxPos}
  {pprev base : PIndex} {chain : Chain}

/-- The positions of transactions are different, if all of them fit into 32 bits. -/
theorem nodup_txPositions : ∀ {vtx : List CTransaction} {nTxPos : UInt32},
    (vtx.map (·.getSerializeSize)).sum < 2 ^ 32 →
      ((txPositions pindex false nTxPos vtx).map (·.1)).Nodup
  | [], _, _ => nodup_nil
  | tx :: vtx, nTxPos, hsum => by
    have hpos := tx.getSerializeSize_pos
    rw [map_cons, sum_cons] at hsum
    have hlater : ∀ (vtx : List CTransaction) (nTxPos : UInt32),
        ∀ t ∈ txPositions pindex false nTxPos vtx, ∃ k ≤ (vtx.map (·.getSerializeSize)).sum,
          t.1.nTxPos = nTxPos + UInt32.ofNat k := by
      intro vtx
      induction vtx with
      | nil => simp [txPositions]
      | cons tx vtx ih =>
        intro nTxPos
        refine forall_mem_cons.mpr ⟨⟨0, Nat.zero_le _, by simp⟩, fun t ht => ?_⟩
        obtain ⟨k, hk, he⟩ := ih _ t ht
        refine ⟨tx.getSerializeSize + k, by rw [map_cons, sum_cons]; omega, ?_⟩
        rw [he]
        simp [nextTxPos, UInt32.add_assoc]
    refine nodup_cons.mpr ⟨fun hmem => ?_, nodup_txPositions (by omega)⟩
    obtain ⟨t, ht, he⟩ := mem_map.mp hmem
    obtain ⟨k, hk, hnext⟩ := hlater vtx _ t ht
    -- the way from the first position to the later one is neither 0 nor a multiple of 2^32
    have hsame : (nTxPos + UInt32.ofNat tx.getSerializeSize + UInt32.ofNat k).toNat = nTxPos.toNat := by
      rw [← congrArg (·.nTxPos.toNat) he, hnext]
      rfl
    rw [UInt32.toNat_add, UInt32.toNat_add, UInt32.toNat_ofNat', UInt32.toNat_ofNat'] at hsame
    omega

theorem lookup_of_nodup {α β : Type} [DecidableEq α] : ∀ {l : List (α × β)}, (l.map (·.1)).Nodup →
    ∀ {t : α × β}, t ∈ l → l.lookup t.1 = some t.2
  | p :: l, hnodup, t, ht => by
    rw [map_cons, nodup_cons] at hnodup
    rcases mem_cons.mp ht with rfl | ht
    · exact lookup_cons_self
    · have hne : t.1 ≠ p.1 := by
        intro he
        exact hnodup.1 (mem_map.mpr ⟨t, ht, he⟩)
      rw [lookup_cons, beq_false_of_ne hne]
      exact lookup_of_nodup hnodup.2 ht

theorem BlockFiles.readTx_stored (hfile : files pindex.nFile pindex.nBlockPos = some b)
    (hsize : b.getSerializeSize ≤ MAX_BLOCK_SIZE) :
    ∀ t ∈ b.stored pindex, files.readTx t.1 = some t.2 := by
  intro t ht
  have hplace : b.stored (.ofPlace t.1.nFile t.1.nBlockPos) = b.stored pindex :=
    stored_congr (stored_nFile ht) (stored_nBlockPos t ht) b
  have hnodup : ((b.stored pindex).map (·.1)).Nodup := by
    have hsum := b.sum_getSerializeSize_le
    have hmax : MAX_BLOCK_SIZE < 2 ^ 32 := by decide
    exact nodup_txPositions (by omega)
  rw [readTx, stored_nFile ht, stored_nBlockPos t ht, hfile, Option.bind_some, ← stored_nFile ht,
    ← stored_nBlockPos t ht, hplace]
  exact lookup_of_nodup hnodup ht

/-- What is found in `files` is found by any other way of reading the files that has the blocks where
they are. -/
theorem BlockFiles.readTx_of_onDisk {readTx : CDiskTxPos → Option CTransaction}
    (hdisk : ∀ nFile nBlockPos b, files nFile nBlockPos = some b →
      OnDisk readTx (.ofPlace nFile nBlockPos) b) {tx : CTransaction}
    (h : files.readTx pos = some tx) : readTx pos = some tx := by
  obtain ⟨b, hfile, hlookup⟩ := Option.bind_eq_some_iff.mp h
  obtain ⟨before, after, hstored, -⟩ := lookup_eq_some_iff.mp hlookup
  exact (hdisk _ _ b hfile).readTx (pos, tx) (hstored ▸ mem_append_right _ mem_cons_self)

/-! ## Runs -/

/-- A run of `ConnectBlock` and `DisconnectBlock` over blocks that are where their records say. The
files may grow: where a transaction of the connected blocks or of the new one is stored, a read may fail,
but finds no other transaction. -/
inductive DiskRun (crypto : Crypto) (fTestNet : Bool) (files : BlockFiles) (base : PIndex) :
    TxDB → Chain → Prop
  | empty : DiskRun crypto fTestNet files base ∅ []
  | connect {db db' : TxDB} {chain : Chain} {env : Env} {pindex pindex' : CBlockIndex} {b : CBlock}
      (run : DiskRun crypto fTestNet files base db chain) (henv : env.crypto = crypto)
      (hnet : env.fTestNet = fTestNet)
      (hread : ∀ t ∈ b.stored pindex ++ chain.txs, ∀ tx, env.readTx t.1 = some tx → tx = t.2)
      (hplace : files pindex.nFile pindex.nBlockPos = some b)
      (nFile : pindex.nFile ≠ 0xffffffff) (nBlockPos : pindex.nBlockPos ≠ 1)
      (hheight : heightFollows pindex (chain.pindex base))
      (ok : connectBlock env db pindex (chain.pindex base) b false = .ok (db', pindex')) :
      DiskRun crypto fTestNet files base db' ((pindex', b) :: chain)
  | disconnect {db db' : TxDB} {chain : Chain} {pindex : CBlockIndex} {b : CBlock}
      (run : DiskRun crypto fTestNet files base db ((pindex, b) :: chain))
      (ok : disconnectBlock crypto db b = .ok db') : DiskRun crypto fTestNet files base db' chain

/-- The connected transactions with the records of their blocks and their positions, newest first.
-/
def Chain.placed (chain : Chain) : List (CBlockIndex × CDiskTxPos × CTransaction) :=
  chain.flatMap fun p => ((p.2.stored p.1).map fun t => (p.1, t)).reverse

theorem Chain.placed_cons (p : CBlockIndex × CBlock) (chain : Chain) :
    Chain.placed (p :: chain) = ((p.2.stored p.1).map fun t => (p.1, t)).reverse ++ chain.placed := rfl

theorem Chain.txs_eq_placed (chain : Chain) : chain.txs = chain.placed.map (·.2) := by
  induction chain with
  | nil => rfl
  | cons p chain ih =>
    rw [placed_cons, map_append, ← ih, map_reverse, map_map]
    exact congrArg (· ++ Chain.txs chain) (congrArg reverse (map_id _).symm)

theorem Chain.exists_of_mem_placed {t : CBlockIndex × CDiskTxPos × CTransaction}
    (h : t ∈ chain.placed) : ∃ b, (t.1, b) ∈ chain ∧ t.2 ∈ b.stored t.1 := by
  obtain ⟨p, hp, ht⟩ := mem_flatMap.mp h
  obtain ⟨u, hu, rfl⟩ := mem_map.mp (mem_reverse.mp ht)
  exact ⟨p.2, hp, hu⟩

theorem getSerializeSize_of_checkBlock {env : Env} {fCheckPOW fCheckMerkleRoot fCheckSig : Bool}
    (h : checkBlock env b fCheckPOW fCheckMerkleRoot fCheckSig = .ok ()) :
    b.getSerializeSize ≤ MAX_BLOCK_SIZE := by
  obtain ⟨hsize, -⟩ := require_bind_eq_ok.mp h
  simp only [Bool.and_eq_true, decide_eq_true_eq] at hsize
  exact hsize.2

/-- `ConnectBlock` leaves the place and the height of the record. -/
theorem place_of_connectBlock {env : Env} {db db' : TxDB} {pindex' : CBlockIndex}
    (h : connectBlock env db pindex pprev b false = .ok (db', pindex')) :
    pindex'.nFile = pindex.nFile ∧ pindex'.nBlockPos = pindex.nBlockPos ∧
      pindex'.nHeight = pindex.nHeight := by
  obtain ⟨_, _, _, -, -, -, -, rfl⟩ := connectBlock_eq_ok h
  exact ⟨rfl, rfl, rfl⟩

section DiskRun

variable {crypto : Crypto} {fTestNet : Bool} {db : TxDB}

theorem DiskRun.reachable (h : DiskRun crypto fTestNet files base db chain) :
    Reachable crypto base db chain := by
  induction h with
  | empty => exact .empty
  | connect _ henv _ _ _ hfile _ _ hok ih => exact .connect ih henv hfile hok
  | disconnect _ hok ih => exact .disconnect ih hok

theorem onDisk_of_connectBlock {env : Env} {db' : TxDB} {pindex' : CBlockIndex}
    (hplace : files pindex.nFile pindex.nBlockPos = some b) (hfile : pindex.nFile ≠ 0xffffffff)
    (hpos : pindex.nBlockPos ≠ 1)
    (hok : connectBlock env db pindex pprev b false = .ok (db', pindex')) :
    OnDisk files.readTx pindex b ∧ OnDisk files.readTx pindex' b := by
  obtain ⟨hfile', hpos', -⟩ := place_of_connectBlock hok
  obtain ⟨_, hcheck, -⟩ := bind_eq_ok.mp hok
  have hread := files.readTx_stored hplace (getSerializeSize_of_checkBlock hcheck)
  refine ⟨⟨hfile, hpos, hread⟩, by rwa [hfile'], by rwa [hpos'], ?_⟩
  rw [(items_of_connectBlock hok env.crypto).2]
  exact hread

theorem DiskRun.onDisk (h : DiskRun crypto fTestNet files base db chain) :
    ∀ p ∈ chain, OnDisk files.readTx p.1 p.2 := by
  induction h with
  | empty => simp
  | connect _ _ _ _ hplace hfile hpos _ hok ih =>
    exact forall_mem_cons.mpr ⟨(onDisk_of_connectBlock hplace hfile hpos hok).2, ih⟩
  | disconnect _ _ ih => exact (forall_mem_cons.mp ih).2

theorem heightFollows_head {pindex' : CBlockIndex} (hheight : heightFollows pindex (chain.pindex base))
    (hsame : pindex'.nHeight = pindex.nHeight) (h : EachBlock heightFollows (chain.map (·.1))) :
    EachBlock heightFollows (pindex' :: chain.map (·.1)) := by
  cases chain with
  | nil => trivial
  | cons p chain =>
    refine ⟨?_, h⟩
    intro prev hprev
    rw [hsame]
    exact hheight prev hprev

theorem DiskRun.heights (h : DiskRun crypto fTestNet files base db chain) :
    EachBlock heightFollows (chain.map (·.1)) := by
  induction h with
  | empty => trivial
  | connect _ _ _ _ _ _ _ hheight hok ih =>
    exact heightFollows_head hheight (place_of_connectBlock hok).2.2 ih
  | disconnect _ _ ih => exact ih.of_cons

theorem DiskRun.exists_readTx (h : DiskRun crypto fTestNet files base db chain)
    {t : Item Uint256 CDiskTxPos} (ht : t ∈ chain.history crypto) :
    ∃ tx, files.readTx t.pos = some tx ∧ t = tx.item crypto t.pos := by
  obtain ⟨u, hu, rfl⟩ := mem_map.mp ht
  obtain ⟨p, hp, hstored⟩ := mem_flatMap.mp hu
  exact ⟨u.2, (h.onDisk p hp).readTx u (mem_reverse.mp hstored), rfl⟩

/-- What an entry of the transaction index points to is in the block files: the transaction with the
hash and, for each spent output, one that spends it. -/
theorem txindex_of_diskRun (h : DiskRun crypto fTestNet files base db chain) (hash : Uint256)
    (e : CTxIndex) (he : db.lookup hash = some e) :
    (∃ tx, files.readTx e.pos = some tx ∧ crypto.txHash tx = hash ∧
      e.vSpent.length = tx.vout.length) ∧
    ∀ (n : UInt32) p, e.vSpent[n.toNat]? = some p → p.isNull = false →
      ∃ tx, files.readTx p = some tx ∧ ⟨hash, n⟩ ∈ tx.spends := by
  have ha := h.reachable.agrees
  constructor
  · obtain ⟨t, ht, hpos, hlen⟩ := ha.find_key he
    obtain ⟨tx, hread, hitem⟩ := h.exists_readTx (mem_of_find?_eq_some ht)
    have hkey := find?_some ht
    rw [hitem] at hlen hkey
    exact ⟨tx, hpos ▸ hread, of_decide_eq_true hkey, hlen⟩
  · intro n p hp hnull
    obtain ⟨t, ht, hspends, rfl⟩ := ha.pointer_pos he hp hnull
    obtain ⟨tx, hread, hitem⟩ := h.exists_readTx (mem_of_mem_since ht)
    rw [hitem] at hspends
    exact ⟨tx, hread, mem_item_spends (o := ⟨hash, n⟩).mp hspends⟩

end DiskRun

/-! ## The comparison of places -/

theorem maturity_le_of_isImmature {fTestNet : Bool} {block i : CBlockIndex} {rest newer older : PIndex}
    (h : isImmature fTestNet (block :: (rest ++ base)) pos = false)
    (hchain : block :: rest = newer ++ i :: older) (hheights : EachBlock heightFollows (block :: rest))
    (hfile : i.nFile = pos.nFile) (hpos : i.nBlockPos = pos.nBlockPos) :
    nCoinbaseMaturity fTestNet ≤ block.nHeight - i.nHeight := by
  by_contra hlt
  rw [not_le] at hlt
  -- all blocks down to `i` are looked at
  have hwalk : ∀ x ∈ newer ++ [i],
      decide (block.nHeight - x.nHeight < nCoinbaseMaturity fTestNet) := by
    intro x hx
    rw [decide_eq_true_eq]
    rcases mem_append.mp hx with hx | hx
    · obtain ⟨above, below, rfl⟩ := append_of_mem hx
      rw [hchain, append_assoc] at hheights
      have hle := height_le_of_ancestor hheights.of_append
      omega
    · rw [mem_singleton.mp hx]
      exact hlt
  rw [isImmature, ← cons_append, hchain, append_cons, append_assoc,
    takeWhile_append_of_pos hwalk] at h
  rw [any_append, Bool.or_eq_false_iff] at h
  have hi := any_eq_false.mp h.1 i (by simp)
  simp [hfile, hpos] at hi

/-! ## What a transaction of a block spends -/

theorem txPositions_of_append : ∀ {before after : List (CDiskTxPos × CTransaction)}
    {vtx : List CTransaction} {nTxPos : UInt32},
    txPositions pindex false nTxPos vtx = before ++ after →
      txPositions pindex false nTxPos (before.map (·.2)) = before ∧
        vtx = before.map (·.2) ++ after.map (·.2)
  | [], after, [], _, h => by
    cases h
    exact ⟨rfl, rfl⟩
  | [], after, tx :: vtx, nTxPos, h => by
    rw [nil_append] at h
    rw [← h, txPositions_txs]
    exact ⟨rfl, rfl⟩
  | t :: before, after, tx :: vtx, nTxPos, h => by
    rw [txPositions, cons_append, cons.injEq] at h
    obtain ⟨rfl, h⟩ := h
    obtain ⟨hpos, hvtx⟩ := txPositions_of_append h
    rw [map_cons, txPositions, hpos, cons_append, ← hvtx]
    exact ⟨rfl, rfl⟩

section Spent

variable {env : Env} {db db' : TxDB} {pindex' : CBlockIndex}

section

variable {before after : List (CDiskTxPos × CTransaction)}
  (hagrees : Agrees (chain.history env.crypto) (index db))
  (hok : connectBlock env db pindex (chain.pindex base) b false = .ok (db', pindex'))
  (hfile : pindex.nFile ≠ 0xffffffff)
include hagrees hok hfile

/-- The invariant of the run holds in the middle of a block too, with its first transactions. -/
theorem agrees_before (hstored : b.stored pindex = before ++ after) {s : ConnectState}
    (hrounds : Rounds env db pindex false (.init pindex b false) (before.map (·.2)) s) :
    Agrees ((before.map fun t => t.2.item env.crypto t.1).reverse ++ chain.history env.crypto)
      (view db s.mapQueuedChanges) := by
  obtain ⟨coinbase, rest, _, hb, -, -, -, -⟩ := connectBlock_eq_ok hok
  obtain ⟨hpos, hvtx⟩ := txPositions_of_append hstored
  have hitems : blockItems env.crypto pindex false (firstTxPos pindex b false) (before.map (·.2)) =
      before.map fun t => t.2.item env.crypto t.1 := congrArg (map _) hpos
  have hnodup := hb.nodup
  rw [hvtx, map_append] at hnodup
  have hfresh : Fresh (index db)
      (blockItems env.crypto pindex false (firstTxPos pindex b false) (before.map (·.2))) := by
    refine ⟨?_, fun t ht => ?_⟩
    · rw [blockItems_keys]
      exact (nodup_append.mp hnodup).1
    · have hk := mem_map_of_mem (f := Item.key) ht
      rw [blockItems_keys] at hk
      obtain ⟨tx, htx, he⟩ := mem_map.mp hk
      rw [← he]
      exact hrounds.allSpent tx htx
  obtain ⟨hcan, hview⟩ := hrounds.view (by simpa [ConnectState.init] using hfresh)
  simp only [ConnectState.init, view_empty, hitems] at hcan hview
  rw [hview]
  refine hagrees.connectAll hcan fun t ht => ?_
  have hmem : t ∈ b.items env.crypto pindex := by
    obtain ⟨u, hu, rfl⟩ := mem_map.mp ht
    refine mem_map.mpr ⟨u, ?_, rfl⟩
    show u ∈ b.stored pindex
    rw [hstored]
    exact mem_append_left _ hu
  exact items_pos hfile t hmem

/-- The transaction a generated output is spent from is the last one of its hash, and has passed the
comparison. -/
theorem isImmature_of_connectBlock
    {u p : CDiskTxPos × CTransaction} (hread : ∀ tx, env.readTx p.1 = some tx → tx = p.2)
    (hstored : b.stored pindex = before ++ u :: after) {o : COutPoint} (ho : o ∈ u.2.spends)
    {between older : List (CDiskTxPos × CTransaction)}
    (hearlier : before.reverse ++ chain.txs = between ++ p :: older)
    (hlast : ∀ t ∈ between, env.txHash t.2 ≠ o.hash) (hhash : env.txHash p.2 = o.hash)
    (hmem : p.1.nBlockPos ≠ 1) (hgenerated : (p.2.isCoinBase || p.2.isCoinStake)) :
    isImmature env.fTestNet (pindex :: chain.pindex base) p.1 = false := by
  have hcb : u.2.isCoinBase = false := by
    by_contra hcb
    rw [CTransaction.spends, if_pos (by simpa using hcb)] at ho
    cases ho
  rw [CTransaction.spends_of_not_isCoinBase hcb] at ho
  obtain ⟨txin, htxin, rfl⟩ := mem_map.mp ho
  obtain ⟨-, hvtx⟩ := txPositions_of_append hstored
  obtain ⟨s, inputs, queue, vChecks, hrounds, hspend, -⟩ := connectBlock_spends hok hvtx hcb
  obtain ⟨txindex, txPrev, txout, hinput⟩ := hspend.inputOk hcb txin htxin
  obtain ⟨hentry, hprev⟩ := fetchInputs_eq_ok (by rfl) hspend.fetched _ _ _ hinput.found
  -- the entry is that of the last transaction of the hash
  obtain ⟨t, hfind, hpos, -⟩ := (agrees_before hagrees hok hfile hstored hrounds).find_key hentry
  have hlist : (before.map fun t => t.2.item env.crypto t.1).reverse ++ chain.history env.crypto =
      (between.map fun t => t.2.item env.crypto t.1) ++ p.2.item env.crypto p.1 ::
        older.map fun t => t.2.item env.crypto t.1 := by
    rw [← map_reverse, Chain.history, ← map_append, hearlier, map_append, map_cons]
  rw [hlist, find?_append, find?_eq_none.mpr, Option.none_or,
    find?_cons_of_pos (by exact decide_eq_true hhash)] at hfind
  · cases hfind
    have htx : txPrev = p.2 := by
      have hpos' : txindex.pos = p.1 := hpos
      rw [hpos'] at hprev
      exact hread _ (readPrev_eq_ok hmem hprev)
    have hmature := hinput.mature
    rw [htx, hgenerated, hpos] at hmature
    exact hmature
  · intro t ht
    obtain ⟨v, hv, rfl⟩ := mem_map.mp ht
    exact fun hkey => hlast v hv (of_decide_eq_true hkey)

end

end Spent

/-! ## Maturity -/

theorem reverse_append_eq_append_cons {α : Type} {l m newer older : List α} {a : α}
    (h : l.reverse ++ m = newer ++ a :: older) :
    (∃ newer', m = newer' ++ a :: older) ∨
      ∃ before after, l = before ++ a :: after ∧ older = before.reverse ++ m := by
  rcases append_eq_append_iff.mp h with ⟨newer', -, hm⟩ | ⟨rest, hl, hrest⟩
  · exact .inl ⟨newer', hm⟩
  · cases rest with
    | nil => exact .inl ⟨[], hrest.symm⟩
    | cons x rest =>
      rw [cons_append] at hrest
      obtain ⟨rfl, rfl⟩ := hrest
      refine .inr ⟨rest.reverse, newer.reverse, ?_, by rw [reverse_reverse]⟩
      rw [← reverse_reverse l, hl]
      simp

theorem DiskRun.block_of_placed {crypto : Crypto} {fTestNet : Bool} {db : TxDB}
    (run : DiskRun crypto fTestNet files base db chain) {pindex' ip : CBlockIndex}
    (hdisk : OnDisk files.readTx pindex b) {before : List (CDiskTxPos × CTransaction)}
    (hbefore : ∀ t ∈ before, t ∈ b.stored pindex) (hheight : pindex'.nHeight = pindex.nHeight)
    {p : CDiskTxPos × CTransaction}
    (hp : (ip, p) ∈ (before.map fun t => (pindex', t)).reverse ++ chain.placed) :
    ∃ i bp, i ∈ pindex :: chain.map (·.1) ∧ p ∈ bp.stored i ∧ OnDisk files.readTx i bp ∧
      i.nHeight = ip.nHeight := by
  rcases mem_append.mp hp with hmem | hmem
  · obtain ⟨t, ht, hpair⟩ := mem_map.mp (mem_reverse.mp hmem)
    obtain ⟨rfl, rfl⟩ := Prod.mk.inj hpair
    exact ⟨pindex, b, mem_cons_self, hbefore t ht, hdisk, hheight.symm⟩
  · obtain ⟨bp, hbp, hp⟩ := Chain.exists_of_mem_placed hmem
    exact ⟨ip, bp, mem_cons_of_mem _ (mem_map.mpr ⟨_, hbp, rfl⟩), hp, run.onDisk _ hbp, rfl⟩

/-- In every run, an output of a coinbase or coinstake is spent `nCoinbaseMaturity` blocks after the
block that has it, or later. It is of the last transaction of its hash before. -/
theorem maturity_of_diskRun (crypto : Crypto) (fTestNet : Bool) (files : BlockFiles) (base : PIndex)
    (db : TxDB) (chain : Chain) (h : DiskRun crypto fTestNet files base db chain) :
    ∀ newer iu u between ip p older,
      chain.placed = newer ++ (iu, u) :: (between ++ (ip, p) :: older) →
      ∀ o ∈ u.2.spends, crypto.txHash p.2 = o.hash → (∀ t ∈ between, crypto.txHash t.2.2 ≠ o.hash) →
        (p.2.isCoinBase || p.2.isCoinStake) = true →
        nCoinbaseMaturity fTestNet ≤ iu.nHeight - ip.nHeight := by
  induction h with
  | empty =>
    intro newer iu u between ip p older hplaced
    exact absurd hplaced.symm (by simp [Chain.placed])
  | @disconnect db db' chain pindex b _ _ ih =>
    intro newer iu u between ip p older hplaced
    refine ih (((b.stored pindex).map fun t => (pindex, t)).reverse ++ newer) iu u between ip p older ?_
    rw [Chain.placed_cons, hplaced, append_assoc]
  | @connect db db' chain env pindex pindex' b run henv hnet hread hplace hfile hpos hheight hok ih =>
    subst henv hnet
    intro newer iu u between ip p older hplaced o ho hhash hlast hgenerated
    obtain ⟨hfile', hpos', hheight'⟩ := place_of_connectBlock hok
    rw [Chain.placed_cons] at hplaced
    rcases reverse_append_eq_append_cons hplaced with ⟨newer', hchain⟩ | ⟨before, after, hblock, hrest⟩
    · exact ih newer' iu u between ip p older hchain o ho hhash hlast hgenerated
    -- the transaction that spends is in the new block
    obtain ⟨before', after', hstored, rfl, hafter⟩ := map_eq_append_iff.mp hblock
    obtain ⟨u', after'', rfl, hu, rfl⟩ := map_eq_cons_iff.mp hafter
    obtain ⟨rfl, rfl⟩ := Prod.mk.inj hu
    rw [(items_of_connectBlock hok env.crypto).2] at hstored
    have hearlier : before'.reverse ++ chain.txs = between.map (·.2) ++ p :: older.map (·.2) := by
      have hmap := congrArg (map (·.2)) hrest
      rw [map_append, map_append, ← Chain.txs_eq_placed, map_reverse, map_map] at hmap
      exact (hmap.trans (congrArg (· ++ chain.txs) (congrArg reverse (map_id _)))).symm
    -- the block of the transaction it spends from
    have hplacedp : (ip, p) ∈ (before'.map fun t => (pindex', t)).reverse ++ chain.placed := by
      rw [← hrest]
      simp
    obtain ⟨i, bp, hi, hp, hdisk, hsame⟩ := run.block_of_placed
      (onDisk_of_connectBlock hplace hfile hpos hok).1
      (fun t ht => hstored ▸ mem_append_left _ ht) hheight' hplacedp
    have hmem : p.1.nBlockPos ≠ 1 := by
      rw [stored_nBlockPos p hp]
      exact hdisk.nBlockPos
    have hconnected : p ∈ b.stored pindex ++ chain.txs := by
      have hmem : p ∈ before'.reverse ++ chain.txs := by simp [hearlier]
      rw [hstored]
      simp only [mem_append, mem_reverse] at hmem ⊢
      exact hmem.imp_left .inl
    have himmature := isImmature_of_connectBlock run.reachable.agrees hok hfile (hread p hconnected)
      hstored ho hearlier (forall_mem_map.mpr hlast) hhash hmem hgenerated
    obtain ⟨above, below, hsplit⟩ := append_of_mem hi
    rw [hheight', ← hsame]
    exact maturity_le_of_isImmature himmature hsplit (heightFollows_head hheight rfl run.heights)
      (stored_nFile hp).symm (stored_nBlockPos p hp).symm

/-! ## A coinbase that is spent as soon as it may -/

def BlockFiles.ofChain (chain : Chain) : BlockFiles := fun nFile nBlockPos =>
  (chain.find? fun p => p.1.nFile == nFile && p.1.nBlockPos == nBlockPos).map (·.2)

/-- Connecting blocks one after the other, each found in the files at its place. -/
theorem diskRun_of_connectBlocks {env : Env} {blocks : Chain} {db : TxDB}
    (hread : env.readTx = files.readTx) (h : connectBlocks env base blocks = .ok (db, chain))
    (hplace : ∀ p ∈ blocks, files p.1.nFile p.1.nBlockPos = some p.2 ∧ p.1.nFile ≠ 0xffffffff ∧
      p.1.nBlockPos ≠ 1) (hbase : base ≠ []) :
    EachBlock heightFollows (chain.pindex base) →
      DiskRun env.crypto env.fTestNet files base db chain := by
  refine connectBlocks_induct (P := fun db chain => EachBlock heightFollows (chain.pindex base) →
    DiskRun _ _ files base db chain) (fun _ => .empty) (fun p hp _ chain _ _ hrun hc hheights => ?_) h
  have hfollows : heightFollows p.1 (chain.pindex base) := by
    have hblock := hheights.head (by simp [hbase])
    rwa [heightFollows, (place_of_connectBlock hc).2.2] at hblock
  obtain ⟨hfile, hnull, hpos⟩ := hplace p hp
  have hchain := hrun hheights.of_cons
  have hstored : ∀ t ∈ p.2.stored p.1 ++ chain.txs, files.readTx t.1 = some t.2 := by
    intro t ht
    rcases mem_append.mp ht with ht | ht
    · exact (onDisk_of_connectBlock hfile hnull hpos hc).1.readTx t ht
    · obtain ⟨q, hq, ht⟩ := mem_flatMap.mp ht
      exact (hchain.onDisk q hq).readTx t (mem_reverse.mp ht)
  refine .connect hchain rfl rfl (fun t ht tx htx => ?_) hfile hnull hpos hfollows hc
  rw [hread, hstored t ht] at htx
  exact (Option.some.inj htx).symm

def maturingBlocks : Chain := repeatingBlocks.tail

def maturingEnv : Env := { repeatingEnv with readTx := (BlockFiles.ofChain maturingBlocks).readTx }

/-- The coinbase of the block at height 1 is spent in the block at height 11 of the test network. -/
theorem coinbaseSpend_mature : ∃ db chain newer iu u between ip p older,
    DiskRun Crypto.sample true (.ofChain maturingBlocks) [sampleIndex 0 8] db chain ∧
    chain.placed = newer ++ (iu, u) :: (between ++ (ip, p) :: older) ∧ u.2 = coinbaseSpend ∧
    p.2 = numberedCoinbase 1 ∧ nCoinbaseMaturity true ≤ iu.nHeight - ip.nHeight := by
  obtain ⟨⟨db, chain⟩, hrun, hheights, t, -, t', -, hsplit, hu, hp, hbetween⟩ :
      ∃ r, connectBlocks maturingEnv [sampleIndex 0 8] maturingBlocks = .ok r ∧
        EachBlock heightFollows (r.2.pindex [sampleIndex 0 8]) ∧
        ∃ t, r.2.placed.head? = some t ∧ ∃ t', r.2.placed.getLast? = some t' ∧
          r.2.placed = [] ++ t :: (r.2.placed.tail.dropLast ++ t' :: []) ∧
          t.2.2 = coinbaseSpend ∧ t'.2.2 = numberedCoinbase 1 ∧
          ∀ m ∈ r.2.placed.tail.dropLast, Crypto.sample.txHash m.2.2 ≠ firstCoinbaseOut.hash := by
    decide +kernel
  have hdisk := diskRun_of_connectBlocks (by rfl) hrun (by decide +kernel) (by simp) hheights
  refine ⟨db, chain, [], t.1, t.2, _, t'.1, t'.2, [], hdisk, hsplit, hu, hp, ?_⟩
  refine maturity_of_diskRun Crypto.sample true (.ofChain maturingBlocks) [sampleIndex 0 8] db chain hdisk
    [] t.1 t.2 _ t'.1 t'.2 [] hsplit firstCoinbaseOut ?_ ?_ hbetween ?_
  · rw [hu]
    decide +kernel
  · exact congrArg Crypto.sample.txHash hp
  · rw [hp]
    decide +kernel

/-- The spent pointer of the coinbase leads to the transaction that spends it. -/
theorem coinbaseSpend_read : ∃ p tx, (BlockFiles.ofChain maturingBlocks).readTx p = some tx ∧
    firstCoinbaseOut ∈ tx.spends := by
  obtain ⟨⟨db, chain⟩, hrun, hheights, e, he, p, hp, hnull⟩ :
      ∃ r, connectBlocks maturingEnv [sampleIndex 0 8] maturingBlocks = .ok r ∧
        EachBlock heightFollows (r.2.pindex [sampleIndex 0 8]) ∧
        ∃ e, r.1.lookup firstCoinbaseOut.hash = some e ∧
          ∃ p, e.vSpent[0]? = some p ∧ p.isNull = false := by
    decide +kernel
  have hdisk := diskRun_of_connectBlocks (by rfl) hrun (by decide +kernel) (by simp) hheights
  exact ⟨p, (txindex_of_diskRun hdisk _ e he).2 0 p hp hnull⟩

end NovaCoin
