import NovaCoin.Properties.BestChain
import NovaCoin.Properties.Disconnect
import NovaCoin.Properties.StakeModifier
import NovaCoin.Wallet

/-!
# Merkle branches are complete

A branch read off the flat `vMerkleTree` leads from its transaction to the root of the block, so the
branch `SetMerkleBranch` fills in is one `GetDepthInMainChain` accepts.
-/

namespace NovaCoin

open Guard List

/-- The block `b` with the record `r` is on the main chain, and has passed `CheckBlock`. -/
structure OnMainChain (env : Env) (m : MainChain) (b : CBlock) (r : FullIndex) (pprev : PFullIndex) :
    Prop where
  best : OnBestChain m.mapBlockIndex m.pnext m.pindexBest
  suffix : r :: pprev <:+ m.pindexBest
  hashBlock : r.hashBlock = env.crypto.blockHash b
  hashMerkleRoot : r.hashMerkleRoot = b.hashMerkleRoot
  checked : ∃ fCheckPOW fCheckSig, checkBlock env b fCheckPOW true fCheckSig = .ok ()

section OnMainChain

variable {env : Env} {m : MainChain} {b : CBlock} {r : FullIndex} {pprev : PFullIndex}

theorem merkleRoot_of_checkBlock {fCheckPOW fCheckSig : Bool}
    (h : checkBlock env b fCheckPOW true fCheckSig = .ok ()) :
    b.hashMerkleRoot = buildMerkleTree env.crypto b := by
  simp only [checkBlock, bind_eq_ok, require_eq_ok, exists_const] at h
  obtain ⟨-, _, -, -, _, -, _, -, _, -, -, -, h⟩ := h
  simpa using h

/-- A block of the chain has a successor or is the best one. -/
theorem OnMainChain.isInMainChain (h : OnMainChain env m b r pprev) :
    m.isInMainChain (r :: pprev) := by
  obtain ⟨newer, hchain⟩ := h.suffix
  rw [MainChain.isInMainChain, Bool.or_eq_true, beq_iff_eq]
  rcases eq_nil_or_concat newer with rfl | ⟨newer, next, rfl⟩
  · exact .inr hchain
  · refine .inl (Option.isSome_iff_exists.mpr ?_)
    rw [concat_eq_append, append_assoc] at hchain
    obtain ⟨hash, hnext, -⟩ := Option.bind_eq_some_iff.mp (h.best.next hchain.symm)
    exact ⟨hash, hnext⟩

theorem OnMainChain.find (h : OnMainChain env m b r pprev) :
    m.find (env.crypto.blockHash b) = some (r :: pprev) := by
  rw [MainChain.find, ← h.hashBlock, h.best.indexed r pprev h.suffix]
  exact Option.filter_some_pos h.isInMainChain

theorem OnMainChain.merkleRoot (h : OnMainChain env m b r pprev) :
    r.hashMerkleRoot = buildMerkleTree env.crypto b := by
  obtain ⟨fCheckPOW, fCheckSig, hchecked⟩ := h.checked
  rw [h.hashMerkleRoot, merkleRoot_of_checkBlock hchecked]

end OnMainChain

theorem setMerkleBranch_eq {C : Crypto} {m : MainChain} {db : TxDB}
    {readBlock : UInt32 → UInt32 → Option CBlock} {pblock : Option (TreeBlock C)} {p : TreeBlock C}
    {wtx : CMerkleTx} (hp : blockOfTx C db readBlock pblock wtx.tx = some p)
    (htx : wtx.tx ∈ p.block.vtx) :
    ∃ i : Nat, ∃ hi : i < p.block.vtx.length, p.block.vtx[i] = wtx.tx ∧
      CMerkleTx.setMerkleBranch C m db readBlock wtx pblock =
        ({ wtx with
            hashBlock := C.blockHash p.block, vMerkleBranch := getMerkleBranch p i, nIndex := i },
          ((m.find (C.blockHash p.block)).map m.depth).getD 0) := by
  have hlt : p.block.vtx.findIdx (· == wtx.tx) < p.block.vtx.length :=
    findIdx_lt_length_of_exists ⟨wtx.tx, htx, beq_self_eq_true _⟩
  refine ⟨_, hlt, by simpa using findIdx_getElem (w := hlt), ?_⟩
  unfold CMerkleTx.setMerkleBranch
  simp only [fClient, hp, Bool.false_eq_true, if_false, if_neg (Nat.ne_of_lt hlt)]

/-- Every branch leads to the root, and after `SetMerkleBranch` for a main-chain block the
comparison of `GetDepthInMainChain` succeeds. -/
theorem merkleBranch_complete (env : Env) :
    (∀ (p : TreeBlock env.crypto) (i : Nat) (hi : i < p.block.vtx.length),
      checkMerkleBranch env.crypto (env.txHash p.block.vtx[i]) (getMerkleBranch p i) i =
        buildMerkleTree env.crypto p.block) ∧
    ∀ (m : MainChain) (db : TxDB) (readBlock : UInt32 → UInt32 → Option CBlock)
      (pblock : Option (TreeBlock env.crypto)) (p : TreeBlock env.crypto) (wtx : CMerkleTx)
      (r : FullIndex) (pprev : PFullIndex),
      blockOfTx env.crypto db readBlock pblock wtx.tx = some p → OnMainChain env m p.block r pprev →
      wtx.tx ∈ p.block.vtx →
      let result := CMerkleTx.setMerkleBranch env.crypto m db readBlock wtx pblock
      result.2 = m.depth (r :: pprev) ∧ result.1.hashBlock = env.crypto.blockHash p.block ∧
        checkMerkleBranch env.crypto (env.txHash result.1.tx) result.1.vMerkleBranch result.1.nIndex =
          r.hashMerkleRoot ∧
        (env.crypto.blockHash p.block ≠ 0 → CMerkleTx.getDepthInMainChain env.crypto m result.1 =
          ({ result.1 with fMerkleVerified := true }, some (r :: pprev), m.depth (r :: pprev))) := by
  refine ⟨fun p i hi => checkMerkleBranch_getMerkleBranch p hi, ?_⟩
  intro m db readBlock pblock p wtx r pprev hp hmain htx
  obtain ⟨i, hi, hget, hset⟩ := setMerkleBranch_eq (m := m) hp htx
  have hroot : checkMerkleBranch env.crypto (env.txHash wtx.tx) (getMerkleBranch p i) i =
      r.hashMerkleRoot := by
    rw [hmain.merkleRoot, ← hget]
    exact checkMerkleBranch_getMerkleBranch p hi
  intro result
  have hresult : result = _ := hset
  rw [hresult, hmain.find]
  refine ⟨rfl, rfl, hroot, fun hzero => ?_⟩
  have hnot : ¬(env.crypto.blockHash p.block = 0 ∨ (i : Int) = -1) := by
    rintro (h | h)
    · exact hzero h
    · omega
  unfold CMerkleTx.getDepthInMainChain
  simp only [hmain.find, if_neg hnot]
  cases wtx with
  | mk tx hashBlock vMerkleBranch nIndex fMerkleVerified =>
    cases fMerkleVerified with
    | true => rfl
    | false =>
      have hnot : ¬(some (checkMerkleBranch env.crypto (env.txHash tx) (getMerkleBranch p i) i) ≠
          some r.hashMerkleRoot) := fun hne => hne (congrArg some hroot)
      exact if_neg hnot

/-! ### The last of three transactions -/

def branchEnv : Env := { Env.sample with crypto := headerCrypto }

def branchRecord : FullIndex :=
  { sampleRecord (headerCrypto.blockHash spendingBlock) 0 1599999999 4 with
    hashMerkleRoot := spendingBlock.hashMerkleRoot }

def MainChain.ofChain (chain : PFullIndex) : MainChain :=
  ⟨chainIndex chain, Links.links (chain.map (·.hashBlock)), chain⟩

theorem onMainChain_ofChain {env : Env} {b : CBlock} {r : FullIndex} {pprev : PFullIndex}
    (hnodup : ((r :: pprev).map (·.hashBlock)).Nodup)
    (hheights : EachBlock heightFollows (PFullIndex.pindex (r :: pprev)))
    (hhash : r.hashBlock = env.crypto.blockHash b) (hroot : r.hashMerkleRoot = b.hashMerkleRoot)
    (hchecked : checkBlock env b false true false = .ok ()) :
    OnMainChain env (.ofChain (r :: pprev)) b r pprev :=
  ⟨onBestChain_chainIndex hnodup hheights, suffix_rfl, hhash, hroot, false, false, hchecked⟩

/-- A transaction of the best block has depth 1. -/
theorem secondSpend_depth : (CMerkleTx.getDepthInMainChain headerCrypto (.ofChain [branchRecord])
    (CMerkleTx.setMerkleBranch headerCrypto (.ofChain [branchRecord]) ∅ (fun _ _ => none) (.new secondSpend)
      (some (.ofBlock headerCrypto spendingBlock))).1).2 = (some [branchRecord], 1) := by
  have hmain : OnMainChain branchEnv (.ofChain [branchRecord]) spendingBlock branchRecord [] :=
    onMainChain_ofChain (nodup_singleton _) trivial rfl rfl (by decide +kernel)
  obtain ⟨-, -, -, hdepth⟩ := (merkleBranch_complete branchEnv).2 (.ofChain [branchRecord]) ∅ (fun _ _ => none)
    (some (.ofBlock headerCrypto spendingBlock)) (.ofBlock headerCrypto spendingBlock)
    (.new secondSpend) branchRecord [] rfl hmain
    (.tail _ (.tail _ (.head _)))
  exact congrArg Prod.snd (hdepth (by decide +kernel))

/-! ## The root binds the block

A block with some transactions repeated can have the root of one without. -/

/-- What `CheckBlock` knows of a block at its uniqueness test. -/
structure PassesUniqueTx (env : Env) (b : CBlock) : Prop where
  nonempty : b.vtx ≠ []
  unique : uniqueTxCount env b = b.vtx.length

/-- Blocks that pass the test and have one root have the same transaction hashes, if the pair hash
separates the two trees. -/
theorem txHashes_eq_of_merkleRoot_eq (env : Env) (b₁ b₂ : CBlock)
    (h₁ : PassesUniqueTx env b₁) (h₂ : PassesUniqueTx env b₂)
    (hs : MerkleTree.Separated env.crypto.pairHash (b₁.vtx.map env.txHash) (b₂.vtx.map env.txHash))
    (hroot : buildMerkleTree env.crypto b₁ = buildMerkleTree env.crypto b₂) :
    b₁.vtx.map env.txHash = b₂.vtx.map env.txHash := by
  rw [buildMerkleTree_eq_root, buildMerkleTree_eq_root] at hroot
  refine MerkleTree.root_injective 0 hs ?_ ?_ (nodup_of_uniqueTxCount h₁.unique)
    (nodup_of_uniqueTxCount h₂.unique) hroot
  · simpa using h₁.nonempty
  · simpa using h₂.nonempty

def twoTxBlock (nNonce : UInt32) : CBlock :=
  { nVersion := 6, hashPrevBlock := 0, hashMerkleRoot := 0, nTime := 0, nBits := 0, nNonce,
    vtx := [⟨1, 1, [], [], 0⟩, ⟨1, 2, [], [], 0⟩], vchBlockSig := [] }

/-- Two blocks that differ in their headers only. -/
theorem twoTxBlock_txHashes_eq :
    buildMerkleTree Crypto.sample (twoTxBlock 0) = buildMerkleTree Crypto.sample (twoTxBlock 1) ∧
    (twoTxBlock 0).vtx.map Env.sample.txHash = (twoTxBlock 1).vtx.map Env.sample.txHash := by
  have hroot : buildMerkleTree Crypto.sample (twoTxBlock 0) =
      buildMerkleTree Crypto.sample (twoTxBlock 1) := by decide +kernel
  refine ⟨hroot, txHashes_eq_of_merkleRoot_eq Env.sample (twoTxBlock 0) (twoTxBlock 1)
    ⟨by decide, by decide +kernel⟩ ⟨by decide, by decide +kernel⟩ ⟨?_, ?_⟩ hroot⟩
  · simp [twoTxBlock, MerkleTree.hashed, MerkleTree.level, MerkleTree.pairs, Set.InjOn]
  · simp only [twoTxBlock, map_cons, map_nil, MerkleTree.hashed, MerkleTree.level,
      MerkleTree.pairs]
    simp only [append_nil, or_self, mem_cons, not_mem_nil, or_false, forall_eq,
      forall_eq_or_imp]
    decide +kernel

end NovaCoin
