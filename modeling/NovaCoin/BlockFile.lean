import NovaCoin.Messages

/-!
# Block files

`AppendBlockFile`, `CBlock::WriteToDisk` and `CTransaction::ReadFromDisk` (`main.cpp`, `main.h`)
over the bytes of the block files. Errors of the file system are left out: a file that does not
exist yet is an empty one.
-/

namespace NovaCoin

/-- The bytes of the block files, by number, and the file that blocks are appended to. -/
structure BlockStore where
  files : UInt32 → List UInt8
  nCurrentBlockFile : UInt32

namespace BlockStore

/-- The file numbers that `OpenBlockFile` opens. -/
def opens (nFile : UInt32) : Bool := !(nFile < 1 || nFile == 0xffffffff)

variable {nFile : UInt32}

theorem lt_of_opens (h : opens nFile) : nFile.toNat + 1 < 2 ^ 32 := by
  have hlt := nFile.toNat_lt
  have hne : nFile ≠ 0xffffffff := by
    rintro rfl
    cases h
  have hne' : nFile.toNat ≠ 0xffffffff := fun he => hne (UInt32.toNat_inj.mp he)
  omega

/-- `AppendBlockFile`: the first file from the current one on with room for an object of `MAX_SIZE`
below 2 GB. -/
def appendBlockFile (files : UInt32 → List UInt8) (nCurrentBlockFile : UInt32) : Option UInt32 :=
  if h : opens nCurrentBlockFile = true then
    if (files nCurrentBlockFile).length < 0x7F000000 - MAX_SIZE then some nCurrentBlockFile
    else appendBlockFile files (nCurrentBlockFile + 1)
  else none
termination_by 2 ^ 32 - nCurrentBlockFile.toNat
decreasing_by
  have hlt := lt_of_opens h
  rw [UInt32.toNat_add, UInt32.toNat_one, Nat.mod_eq_of_lt hlt]
  omega

/-- What `WriteToDisk` puts before the block. -/
def indexHeader (fTestNet : Bool) (b : CBlock) : List UInt8 :=
  pchMessageStart fTestNet ++ leBytes 4 b.nSerSize.toNat

/-- `CBlock::WriteToDisk`: the files afterwards, `nFileRet` and `nBlockPosRet`. -/
def writeToDisk (fTestNet : Bool) (store : BlockStore) (b : CBlock) :
    Option (BlockStore × UInt32 × UInt32) := do
  let nFileRet ← appendBlockFile store.files store.nCurrentBlockFile
  let fileout := store.files nFileRet ++ indexHeader fTestNet b
  let nBlockPosRet := UInt32.ofNat fileout.length
  let files := Function.update store.files nFileRet (fileout ++ b.serializeAs SER_DISK)
  return (⟨files, nFileRet⟩, nFileRet, nBlockPosRet)

theorem writeToDisk_of_append {fTestNet : Bool} {store : BlockStore} {b : CBlock}
    (h : appendBlockFile store.files store.nCurrentBlockFile = some nFile) :
    store.writeToDisk fTestNet b =
      some (⟨Function.update store.files nFile (store.files nFile ++ indexHeader fTestNet b ++
        b.serialize), nFile⟩, nFile,
        UInt32.ofNat (store.files nFile ++ indexHeader fTestNet b).length) := by
  rw [writeToDisk, h]
  rfl

/-- `CTransaction::ReadFromDisk`. -/
def readTx (abi : Abi) (store : BlockStore) (pos : CDiskTxPos) : Option CTransaction :=
  if opens pos.nFile then
    match CTransaction.unserialize abi (CAutoFile.mk (store.files pos.nFile) pos.nTxPos.toNat) with
    | .ok (tx, _) => some tx
    | .error _ => none
  else none

theorem appendBlockFile_eq_some {files : UInt32 → List UInt8} {nCurrentBlockFile : UInt32}
    (h : appendBlockFile files nCurrentBlockFile = some nFile) :
    opens nFile ∧ (files nFile).length < 0x7F000000 - MAX_SIZE := by
  fun_induction appendBlockFile files nCurrentBlockFile with
  | case1 n hopens hroom =>
    cases h
    exact ⟨hopens, hroom⟩
  | case2 n hopens hfull ih => exact ih h
  | case3 n hclosed => cases h

end BlockStore

end NovaCoin
