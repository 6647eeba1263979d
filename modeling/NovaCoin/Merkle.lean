import NovaCoin.Infra.Merkle
import NovaCoin.Serialize

/-!
# The Merkle tree of a block

`BuildMerkleTree`, `GetMerkleBranch` and `CheckMerkleBranch`. `vMerkleTree` holds all levels one after
the other; `j` is where the level being read starts and `nSize` its width. The two loops over this
vector give the levels of `Infra/Merkle.lean`, and the branches there.
-/

namespace NovaCoin

open List

/-- The inner loop: the hashes of one level are appended to the vector. -/
@[semireducible]
def hashLevel (hash : Uint256 × Uint256 → Uint256) (j nSize i : Nat) (vMerkleTree : List Uint256) :
    List Uint256 :=
  if i < nSize then
    let i2 := min (i + 1) (nSize - 1)
    hashLevel hash j nSize (i + 2)
      (vMerkleTree ++ [hash (vMerkleTree.getD (j + i) 0, vMerkleTree.getD (j + i2) 0)])
  else vMerkleTree
termination_by nSize - i

/-- The outer loop over the levels. -/
@[semireducible]
def hashLevels (hash : Uint256 × Uint256 → Uint256) (j nSize : Nat) (vMerkleTree : List Uint256) :
    List Uint256 :=
  if 1 < nSize then
    hashLevels hash (j + nSize) ((nSize + 1) / 2) (hashLevel hash j nSize 0 vMerkleTree)
  else vMerkleTree
termination_by nSize

/-- `vMerkleTree` after `BuildMerkleTree`. -/
def vMerkleTree (C : Crypto) (b : CBlock) : List Uint256 :=
  hashLevels C.pairHash 0 b.vtx.length (b.vtx.map C.txHash)

def buildMerkleTree (C : Crypto) (b : CBlock) : Uint256 := (vMerkleTree C b).getLast?.getD 0

/-- A block with its `vMerkleTree`, which is `mutable` and kept from the last `BuildMerkleTree`. -/
structure TreeBlock (C : Crypto) where
  block : CBlock
  vMerkleTree : List Uint256
  cached : vMerkleTree = [] ∨ vMerkleTree = NovaCoin.vMerkleTree C block

/-- A block as it is read from disk. -/
def TreeBlock.ofBlock (C : Crypto) (block : CBlock) : TreeBlock C := ⟨block, [], .inl rfl⟩

/-- The loop of `GetMerkleBranch`. -/
@[semireducible]
def branchLoop (vMerkleTree : List Uint256) (j nSize nIndex : Nat) : List Uint256 :=
  if 1 < nSize then
    let i := min (nIndex ^^^ 1) (nSize - 1)
    vMerkleTree.getD (j + i) 0 :: branchLoop vMerkleTree (j + nSize) ((nSize + 1) / 2) (nIndex >>> 1)
  else []
termination_by nSize

def getMerkleBranch {C : Crypto} (p : TreeBlock C) (nIndex : Nat) : List Uint256 :=
  branchLoop (if p.vMerkleTree.isEmpty then vMerkleTree C p.block else p.vMerkleTree) 0
    p.block.vtx.length nIndex

/-- The loop of `CheckMerkleBranch`. -/
def checkLoop (hash : Uint256 × Uint256 → Uint256) : Uint256 → List Uint256 → Int → Uint256
  | node, [], _ => node
  | node, otherside :: rest, nIndex =>
    checkLoop hash (if nIndex % 2 = 1 then hash (otherside, node) else hash (node, otherside)) rest
      (nIndex / 2)

def checkMerkleBranch (C : Crypto) (hash : Uint256) (vMerkleBranch : List Uint256) (nIndex : Int) :
    Uint256 :=
  if nIndex = -1 then 0 else checkLoop C.pairHash hash vMerkleBranch nIndex

/-! ## The vector as levels -/

variable (hash : Uint256 × Uint256 → Uint256) {C : Crypto}

/-- The loop appends one level of the tree to the vector. -/
theorem hashLevel_eq (done lvl : List Uint256) :
    ∀ (i : Nat) (acc : List Uint256), hashLevel hash done.length lvl.length i (done ++ lvl ++ acc) =
        done ++ lvl ++ acc ++ MerkleTree.level hash (lvl.drop i) := by
  intro i
  induction hn : lvl.length - i using Nat.strong_induction_on generalizing i with
  | _ n ih =>
    intro acc
    have hget : ∀ k, k < lvl.length →
        (done ++ lvl ++ acc).getD (done.length + k) 0 = lvl.getD k 0 := by
      intro k hk
      rw [getD_eq_getElem?_getD, append_assoc, getElem?_append_right (by omega),
        getElem?_append_left (by omega)]
      congr 2
      omega
    rw [hashLevel]
    dsimp only
    by_cases hi : i < lvl.length
    · rw [hget i hi, hget (min (i + 1) (lvl.length - 1)) (by omega), append_assoc,
        ih _ (by omega) (i + 2) rfl]
      -- the last node of an odd level is its own neighbour
      by_cases hlast : i + 1 < lvl.length
      · rw [Nat.min_eq_left (by omega), drop_eq_getElem_cons hi,
          drop_eq_getElem_cons hlast]
        simp [MerkleTree.level, MerkleTree.pairs, hi, hlast]
      · rw [drop_eq_getElem_cons hi, drop_eq_nil_of_le (show lvl.length ≤ i + 1 by omega),
          drop_eq_nil_of_le (show lvl.length ≤ i + 2 by omega)]
        simp [MerkleTree.level, MerkleTree.pairs, hi, show lvl.length - 1 = i by omega]
    · rw [if_neg hi, drop_eq_nil_of_le (by omega)]
      simp [MerkleTree.level, MerkleTree.pairs]

theorem hashLevels_eq (lvl : List Uint256) :
    ∀ done : List Uint256, hashLevels hash done.length lvl.length (done ++ lvl) =
      done ++ MerkleTree.nodes hash lvl := by
  induction lvl using MerkleTree.level_induction hash with
  | nil => intro done; rw [hashLevels]; simp [MerkleTree.nodes]
  | single a => intro done; rw [hashLevels]; simp [MerkleTree.nodes]
  | step lvl h ih =>
    intro done
    have hinner := hashLevel_eq hash done lvl 0 []
    rw [append_nil, drop_zero] at hinner
    rw [hashLevels, if_pos (by omega), hinner, ← MerkleTree.length_level hash lvl,
      ← length_append, ih, MerkleTree.nodes_of_two_le hash h, append_assoc]

theorem vMerkleTree_eq_nodes (C : Crypto) (b : CBlock) :
    vMerkleTree C b = MerkleTree.nodes C.pairHash (b.vtx.map C.txHash) := by
  have h := hashLevels_eq C.pairHash (b.vtx.map C.txHash) []
  simpa [vMerkleTree] using h

/-- `BuildMerkleTree` returns the root of the hash tree over the transaction hashes. -/
theorem buildMerkleTree_eq_root (C : Crypto) (b : CBlock) :
    buildMerkleTree C b = MerkleTree.root C.pairHash 0 (b.vtx.map C.txHash) := by
  rw [buildMerkleTree, vMerkleTree_eq_nodes, MerkleTree.root_eq_getLast]

/-! ## Branches -/

theorem branchLoop_eq (lvl : List Uint256) :
    ∀ (done : List Uint256) (nIndex : Nat),
      branchLoop (done ++ MerkleTree.nodes hash lvl) done.length lvl.length nIndex =
        MerkleTree.branch hash 0 lvl nIndex := by
  induction lvl using MerkleTree.level_induction hash with
  | nil => intro done nIndex; rw [branchLoop]; simp [MerkleTree.branch]
  | single a => intro done nIndex; rw [branchLoop]; simp [MerkleTree.branch]
  | step lvl h ih =>
    intro done nIndex
    have hread : (done ++ MerkleTree.nodes hash lvl).getD
        (done.length + MerkleTree.sibling lvl.length nIndex) 0 =
        lvl.getD (MerkleTree.sibling lvl.length nIndex) 0 := by
      have hlt : MerkleTree.sibling lvl.length nIndex < lvl.length := by
        rw [MerkleTree.sibling]
        omega
      rw [MerkleTree.nodes_of_two_le hash h, getD_eq_getElem?_getD, getD_eq_getElem?_getD,
        getElem?_append_right (by omega), Nat.add_sub_cancel_left, getElem?_append_left hlt]
    have hrest := ih (done ++ lvl) (nIndex / 2)
    rw [append_assoc, ← MerkleTree.nodes_of_two_le hash h, length_append,
      MerkleTree.length_level] at hrest
    rw [branchLoop, if_pos (by omega), MerkleTree.branch_of_two_le hash 0 h, ← hrest, ← hread]
    rfl

theorem getMerkleBranch_eq_branch (p : TreeBlock C) (nIndex : Nat) :
    getMerkleBranch p nIndex = MerkleTree.branch C.pairHash 0 (p.block.vtx.map C.txHash) nIndex := by
  have htree : (if p.vMerkleTree.isEmpty then vMerkleTree C p.block else p.vMerkleTree) =
      vMerkleTree C p.block := by
    split
    · rfl
    · next hne => exact p.cached.resolve_left fun hnil => hne (by rw [hnil]; rfl)
  have hloop := branchLoop_eq C.pairHash (p.block.vtx.map C.txHash) [] nIndex
  rw [nil_append, length_nil, length_map, ← vMerkleTree_eq_nodes] at hloop
  rw [getMerkleBranch, htree, hloop]

theorem checkLoop_eq_climb : ∀ (vMerkleBranch : List Uint256)
    (node : Uint256) (nIndex : Nat), checkLoop hash node vMerkleBranch nIndex =
      MerkleTree.climb hash node vMerkleBranch nIndex
  | [], _, _ => rfl
  | otherside :: rest, node, nIndex => by
    have hodd : ((nIndex : Int) % 2 = 1) ↔ nIndex % 2 = 1 := by omega
    have hhalf : (nIndex : Int) / 2 = ((nIndex / 2 : Nat) : Int) := by omega
    rw [checkLoop, MerkleTree.climb, MerkleTree.join, hhalf, checkLoop_eq_climb rest]
    simp only [hodd]

theorem checkMerkleBranch_getMerkleBranch (p : TreeBlock C) {i : Nat}
    (hi : i < p.block.vtx.length) :
    checkMerkleBranch C (C.txHash p.block.vtx[i]) (getMerkleBranch p i) i =
      buildMerkleTree C p.block := by
  have hclimb := MerkleTree.climb_branch C.pairHash 0 (l := p.block.vtx.map C.txHash) (i := i)
    (by rwa [length_map])
  rw [checkMerkleBranch, if_neg (by omega), checkLoop_eq_climb, getMerkleBranch_eq_branch,
    buildMerkleTree_eq_root, ← hclimb, getD_eq_getElem _ _ (by rwa [length_map]),
    getElem_map]

end NovaCoin
