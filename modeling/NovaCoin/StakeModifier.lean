import NovaCoin.BestChain

/-!
# The stake modifier

`kernel.cpp` as far as it is about the stake modifier: which blocks contribute a bit to a new
modifier (`ComputeNextStakeModifier`), which modifier a coin is hashed with
(`GetKernelStakeModifier`) and the checksum over the modifiers of a chain.

`FullIndex` is `CBlockIndex` with the fields these functions need on top of those of
`Primitives.lean`. As there, a pointer is the list of the records from it down to the root.
-/

namespace NovaCoin

open Guard

/-! ## Parameters -/

/-- The constants of a network, and the functions from outside. -/
structure ChainParams where
  crypto : Crypto
  fTestNet : Bool
  /-- `hashGenesisBlock` or `hashGenesisBlockTestNet` -/
  hashGenesisBlock : Uint256

/-- The ratio of the length of the last group of candidates to that of the first. -/
def MODIFIER_INTERVAL_RATIO : Int := 3

/-- The time to elapse before a new modifier is computed. -/
def nModifierInterval (fTestNet : Bool) : Int := if fTestNet then 20 * 60 else 6 * nOneHour

def nModifierSwitchTime : UInt32 := 1413763200
def nModifierTestSwitchTime : UInt32 := 1397520000

def isFixedModifierInterval (fTestNet : Bool) (nTimeBlock : UInt32) : Bool :=
  (if fTestNet then nModifierTestSwitchTime else nModifierSwitchTime) ≤ nTimeBlock

/-- Hard checkpoints of the checksum by height. -/
def mapStakeModifierCheckpoints : List (Int × UInt32) :=
  [(0, 0x0e00670b), (12661, 0x5d84115d), (143990, 0x9c592c78), (149000, 0x48f2bdc4),
    (160000, 0x789df0f0), (200000, 0x01ec1503), (221047, 0x0b39ef50), (243100, 0xe928d83a),
    (532000, 0x3e5c2b81), (561108, 0x9c1860b0), (712891, 0xee193895)]

def mapStakeModifierCheckpointsTestNet : List (Int × UInt32) := [(0, 0x0e00670b)]

def checkStakeModifierCheckpoints (fTestNet : Bool) (nHeight : Int) (nStakeModifierChecksum : UInt32) :
    Bool :=
  match (if fTestNet then mapStakeModifierCheckpointsTestNet else mapStakeModifierCheckpoints).lookup
      nHeight with
  | some checksum => nStakeModifierChecksum == checksum
  | none => true

/-- The entropy bits of the first blocks, packed into 256-bit integers. -/
def entropyStore : List Uint256 :=
  [0x4555b4dcc1d690ddd9b810c90c66e82b18bf4f43cc887246c418383ec120a5ab,
    0xaa6d1198412fa77608addf6549c9198a22155e8afd7a9ded6179f6b7cfc66b0c,
    0x9442fabfa4116fb14a9769c2eea003845a1f5c3a0260f36b497d68f3a3cd4078,
    0x0e769042a9a98e42388195d699574b822d06515f7053ad884c53d7ee059f05b1,
    0x7005aac20baf70251aebfe3f1b95987d83ef1e3e6963de8fed601d4dd07bf7cf,
    0x58952c5c3de188f2e33c38d3f53d7bf44f9bc545a4289d266696273fa821be66,
    0x50b6c2ed780c08aaec3f7665b1b6004206243e3866456fc910b83b52d07eeb63,
    0x563841eefca85ba3384986c58100408ae3f1ba2ac727e1ac910ce154a06c702f,
    0x79275b03938b3e27a9b01a7f7953c6c487c58355f5d4169accfbb800213ffd13,
    0xd783f2538b3ed18f135af90adc687c5646d93aeaeaabc6667be94f7aa0a2d366,
    0xb441d0c175c40c8e88b09d88ea008af79cbed2d28219427d2e72fda682974db8,
    0x3204c43bd41f2e19628af3b0c9aca3db15bca4c8705d51056e7b17a319c04715,
    0x7e80e6ab7857d8f2f261a0a49c783bd800b365b8c9b85cc0e13f73904b0dcaa9,
    0xefaaee60ed82d2ad145c0e347941fdb131eb8fd289a45eef07121a93f283c5f1,
    0x3efc86e4334da332c1fd4c12513c40cff689f3efdc7f9913230822adacdda4f9,
    0xf0d6b8f38599a017fa35d1fbbf9ef51eca5ebc5b286aadba40c4c3e1d9bace0c,
    0x286a67f27323486036a0a92d35382fc8963c0c00bad331723318b4b9fdb2b56e,
    0xecbfaaa6567c54f08c4d5bd0118a2d7b58740f42cbfc73aa1536c1f5f76de87c,
    0xf9a4de1c5c46520de5aaf10d3796cf0e27ddce98b3398357f5726a949664e308,
    0xd75e6c4dc4be08401e3478d2467d9ab96a62af4f255c04a82c41af0de0a487bb,
    0x1a82c3bc6ad6047294c16571b5e2b7316c97bf8813e7da15798b9820d67e39f2,
    0xb49be0080de564e01829ded7e7971979565a741c5975dc9978dcc020192d396c,
    0x0d8eed113be67663b5a15a0625a9b49792b5ea59c005c4f405914877acab7000,
    0x8f9d46e2bc05a218ffa942965b747056197d393b097085523640cd59e07fe7c7,
    0x7a63ab40bc7f40ac2ebe9ede438d97b45fa6ed6f8419016da8d5f7a670111dda,
    0x63fbcc080448c43d6cf915c958314feff7a95a52ba43a68c05fc281d3a522d25,
    0xf834cf824c326d3ea861ea1e85dc3289265e37045981e28208e7344a7f8081d7,
    0xb4edc22ec98cc49b2f5af5bae3f52f5e6058280f74f2c432c2dd89ae49acceb8,
    0x0fe596037dcf81bf5c64f39755261c404ed088af5c8c31dd7549b6657ee92365,
    0xbbad51a0aeba254b01d18c328de9e932b9b859b61e622c325d64e2211b5e413d,
    0xabf0194cc787be938bc51c7fdf1cae4ec79e65ebab8fa8b8f40541c44ef384b0,
    0x83bc12d6fdbd3e854cb91c4ca7dfba3c38e8714121af88c8a8abdb33e5002438,
    0x71a2513026cabaedcbe55aeb6dc8049e5b763a3f54f10c33dd333624f764b38c,
    0xee6725632ff5c025dff6a18cd059875dcae20f399b03bccba13d9d5fcf6d9d9a,
    0xa168a2741d1e7e50cc74b79f695c25ffd3576e6bd61353c2a20e569fd63b2dac,
    0x6e462d2a87bfde9398b6747f94a8ed6a01e4d96c5b4372df5c910c106c48bd13,
    0x8eeb696181957c4b22434028990f49cb30006827c73860e77e2eecf5c38be99d,
    0x3188aaa65877b166f05cdc48f55b1f77a7d6fb221c395596d990ae5647e9ba96]

/-! ## Records -/

def BLOCK_PROOF_OF_STAKE : UInt32 := 1
def BLOCK_STAKE_ENTROPY : UInt32 := 2
def BLOCK_STAKE_MODIFIER : UInt32 := 4

/-- A block index record with the header, the flags and the stake modifier. -/
structure FullIndex extends CBlockIndex where
  nVersion : Int32
  hashMerkleRoot : Uint256
  nNonce : UInt32
  nFlags : UInt32
  nStakeModifier : UInt64
  nStakeModifierChecksum : UInt32
  hashProofOfStake : Uint256
  /-- `IsProofOfStake` is a flag. -/
  flag : fProofOfStake = (nFlags &&& BLOCK_PROOF_OF_STAKE != 0)
  deriving DecidableEq

namespace FullIndex

def getStakeEntropyBit (i : FullIndex) : UInt32 := (i.nFlags &&& BLOCK_STAKE_ENTROPY) >>> 1

def generatedStakeModifier (i : FullIndex) : Bool := i.nFlags &&& BLOCK_STAKE_MODIFIER != 0

/-- What the selection hash is computed from. -/
def hashProof (i : FullIndex) : Uint256 := if i.isProofOfStake then i.hashProofOfStake else i.hashBlock

end FullIndex

/-- `CBlockIndex*`: the records from a block down to the root, following `pprev`. -/
abbrev PFullIndex := List FullIndex

/-- The same with the fields of `Primitives.lean` alone. -/
def PFullIndex.pindex (pindex : PFullIndex) : PIndex := pindex.map (·.toCBlockIndex)

/-- `CBlock::GetStakeEntropyBit`: the last bit of the hash or, in the first blocks of the main
network, one of the table. -/
def CBlock.getStakeEntropyBit (params : ChainParams) (b : CBlock) (nHeight : Nat) : UInt32 :=
  if 9689 ≤ nHeight || params.fTestNet then UInt32.ofNat ((params.crypto.blockHash b).toNat % 2)
  else
    let nBitNum := nHeight % 256
    let nItemNum := nHeight / 0xff
    UInt32.ofNat ((((entropyStore.getD nItemNum 0) &&& (1 <<< nBitNum)) >>> nBitNum).toNat % 2 ^ 64)

/-! ## Selection -/

/-- `GetLastStakeModifier`: the last modifier that was generated, and when. -/
def getLastStakeModifier : PFullIndex → Except String (UInt64 × Int)
  | [] => .error "GetLastStakeModifier: null pindex"
  | [pindex] =>
    if pindex.generatedStakeModifier then .ok (pindex.nStakeModifier, pindex.getBlockTime)
    else .error "GetLastStakeModifier: no generation at genesis block"
  | pindex :: prev :: rest =>
    if pindex.generatedStakeModifier then .ok (pindex.nStakeModifier, pindex.getBlockTime)
    else getLastStakeModifier (prev :: rest)

/-- `GetStakeModifierSelectionIntervalSection`, in seconds. -/
def getStakeModifierSelectionIntervalSection (fTestNet : Bool) (nSection : Nat) : Int :=
  (nModifierInterval fTestNet * 63).tdiv (63 + (63 - nSection) * ( MODIFIER_INTERVAL_RATIO - 1))

/-- `GetStakeModifierSelectionInterval`, in seconds. -/
def getStakeModifierSelectionInterval (fTestNet : Bool) : Int :=
  ((List.range 64).map (getStakeModifierSelectionIntervalSection fTestNet)).sum

/-- The hash of the proof of a block and the modifier before. It is divided by 2^32 for proof of
stake, which is so preferred. -/
def hashSelection (crypto : Crypto) (nStakeModifierPrev : UInt64) (pindex : FullIndex) : Uint256 :=
  let hash := crypto.hash (serializeUint256 pindex.hashProof ++ leBytes 8 nStakeModifierPrev.toNat)
  if pindex.isProofOfStake then hash >>> 32 else hash

/-- The loop of `SelectBlockFromCandidates`; `best` is `hashBest` and `*pindexSelected`. -/
def selectLoop (crypto : Crypto) (mapBlockIndex : Uint256 → Option PFullIndex)
    (mapSelectedBlocks : List FullIndex) (nSelectionIntervalStop : Int) (nStakeModifierPrev : UInt64) :
    Option FullIndex → List (Int × Uint256) → Except String (Option FullIndex)
  | best, [] => .ok best
  | best, item :: rest => do
    let pindex ← getOr ((mapBlockIndex item.2).bind List.head?)
      "SelectBlockFromCandidates: failed to find block index for candidate block"
    if best.isSome && nSelectionIntervalStop < pindex.getBlockTime then .ok best
    else if mapSelectedBlocks.any (·.hashBlock == pindex.hashBlock) then
      selectLoop crypto mapBlockIndex mapSelectedBlocks nSelectionIntervalStop nStakeModifierPrev best
        rest
    else
      let better : Bool := match best with
        | some b => decide (hashSelection crypto nStakeModifierPrev pindex <
            hashSelection crypto nStakeModifierPrev b)
        | none => true
      selectLoop crypto mapBlockIndex mapSelectedBlocks nSelectionIntervalStop nStakeModifierPrev
        (if better then some pindex else best) rest

/-- `SelectBlockFromCandidates`; nothing selected is what makes it return `false`. -/
def selectBlockFromCandidates (crypto : Crypto) (mapBlockIndex : Uint256 → Option PFullIndex)
    (vSortedByTimestamp : List (Int × Uint256)) (mapSelectedBlocks : List FullIndex)
    (nSelectionIntervalStop : Int) (nStakeModifierPrev : UInt64) : Except String FullIndex := do
  let best ← selectLoop crypto mapBlockIndex mapSelectedBlocks nSelectionIntervalStop
    nStakeModifierPrev none vSortedByTimestamp
  getOr best ""

/-- What the rounds of `ComputeNextStakeModifier` change. -/
structure ModifierState where
  nStakeModifierNew : UInt64
  nSelectionIntervalStop : Int
  /-- in the order they were selected -/
  mapSelectedBlocks : List FullIndex

/-- One round: a section is added to the interval, and the entropy bit of a selected block written.
-/
def modifierRound (params : ChainParams) (mapBlockIndex : Uint256 → Option PFullIndex)
    (vSortedByTimestamp : List (Int × Uint256)) (nStakeModifier : UInt64) (s : ModifierState)
    (nRound : Nat) : Except String ModifierState := do
  let nSelectionIntervalStop :=
    s.nSelectionIntervalStop + getStakeModifierSelectionIntervalSection params.fTestNet nRound
  let pindex ← (selectBlockFromCandidates params.crypto mapBlockIndex vSortedByTimestamp
    s.mapSelectedBlocks nSelectionIntervalStop nStakeModifier).mapError fun _ =>
      "ComputeNextStakeModifier: unable to select block at round"
  pure
    { nStakeModifierNew :=
        s.nStakeModifierNew ||| (pindex.getStakeEntropyBit.toUInt64 <<< UInt64.ofNat nRound)
      nSelectionIntervalStop
      mapSelectedBlocks := s.mapSelectedBlocks ++ [pindex] }

/-- The order of `std::pair<int64_t, uint256>`. -/
def pairLe (a b : Int × Uint256) : Prop := a.1 < b.1 ∨ a.1 = b.1 ∧ a.2.toNat ≤ b.2.toNat

instance : DecidableRel pairLe := fun a b =>
  inferInstanceAs (Decidable (a.1 < b.1 ∨ a.1 = b.1 ∧ a.2.toNat ≤ b.2.toNat))

/-- Where the candidates for a block after `prev` begin. -/
def selectionIntervalStart (fTestNet : Bool) (prev : FullIndex) : Int :=
  prev.getBlockTime.tdiv (nModifierInterval fTestNet) * nModifierInterval fTestNet -
    getStakeModifierSelectionInterval fTestNet

/-- The blocks from `pindexPrev` back to the first that is too old. -/
def candidates (nSelectionIntervalStart : Int) (pindexPrev : PFullIndex) : List FullIndex :=
  pindexPrev.takeWhile fun pindex => nSelectionIntervalStart ≤ pindex.getBlockTime

/-- `vSortedByTimestamp`. -/
def sortCandidates (candidates : List FullIndex) : List (Int × Uint256) :=
  ((candidates.map fun pindex => (pindex.getBlockTime, pindex.hashBlock)).reverse).insertionSort pairLe

/-- The part of `ComputeNextStakeModifier` that computes a new modifier. -/
def generateStakeModifier (params : ChainParams) (mapBlockIndex : Uint256 → Option PFullIndex)
    (prev : FullIndex) (pprev : PFullIndex) (nStakeModifier : UInt64) :
    Except String ModifierState :=
  let nSelectionIntervalStart := selectionIntervalStart params.fTestNet prev
  let vSortedByTimestamp := sortCandidates (candidates nSelectionIntervalStart (prev :: pprev))
  foldAll (modifierRound params mapBlockIndex vSortedByTimestamp nStakeModifier)
    ⟨0, nSelectionIntervalStart, []⟩ (List.range (min 64 vSortedByTimestamp.length))

/-- Whether the last modifier, of `nModifierTime`, is kept for a block of the time `nTime` after
`prev`. The fixed interval protocol asks for a block in a new interval. -/
def keepsModifier (fTestNet : Bool) (nModifierTime : Int) (prev : FullIndex) (nTime : UInt32) : Bool :=
  let nInterval (t : Int) : Int := t.tdiv (nModifierInterval fTestNet)
  nInterval prev.getBlockTime ≤ nInterval nModifierTime ||
    nInterval nTime.toNat ≤ nInterval nModifierTime && isFixedModifierInterval fTestNet nTime

/-- `ComputeNextStakeModifier` for a block of the time `nTime` on `pindexPrev`: the modifier and
whether it was generated. -/
def computeNextStakeModifier (params : ChainParams) (mapBlockIndex : Uint256 → Option PFullIndex)
    (pindexPrev : PFullIndex) (nTime : UInt32) : Except String (UInt64 × Bool) :=
  match pindexPrev with
  | [] => .ok (0, true)
  | prev :: pprev => do
    let (nStakeModifier, nModifierTime) ← (getLastStakeModifier (prev :: pprev)).mapError fun _ =>
      "ComputeNextStakeModifier: unable to get last modifier"
    if keepsModifier params.fTestNet nModifierTime prev nTime then pure (nStakeModifier, false)
    else
      let s ← generateStakeModifier params mapBlockIndex prev pprev nStakeModifier
      pure (s.nStakeModifierNew, true)

/-! ## The modifier of a kernel -/

/-- The loop of `GetKernelStakeModifier`, for a coin of the time `nTimeFrom`: `pindex` is the block
reached, the height and time are those of the last generated modifier. The fuel is for a `pnext`
that leads in a circle. -/
def kernelLoop (params : ChainParams) (mapBlockIndex : Uint256 → Option PFullIndex)
    (pnext : Uint256 → Option Uint256) (nAdjustedTime : Int) (fPrintProofOfStake : Bool)
    (nTimeFrom : Int) : Nat → FullIndex → Int → Int → Except String (UInt64 × Int × Int)
  | 0, _, _, _ => .error "out of fuel"
  | fuel + 1, pindex, nStakeModifierHeight, nStakeModifierTime =>
    let nSelectionInterval := getStakeModifierSelectionInterval params.fTestNet
    if nStakeModifierTime < nTimeFrom + nSelectionInterval then
      match (pnext pindex.hashBlock).bind fun hash => (mapBlockIndex hash).bind List.head? with
      | none =>
        -- reached best block
        if fPrintProofOfStake || nAdjustedTime <
            pindex.getBlockTime + nStakeMinAge params.fTestNet - nSelectionInterval then
          .error "GetKernelStakeModifier() : reached best block"
        else .error ""
      | some next =>
        if next.generatedStakeModifier then
          kernelLoop params mapBlockIndex pnext nAdjustedTime fPrintProofOfStake nTimeFrom fuel next
            next.nHeight next.getBlockTime
        else
          kernelLoop params mapBlockIndex pnext nAdjustedTime fPrintProofOfStake nTimeFrom fuel next
            nStakeModifierHeight nStakeModifierTime
    else .ok (pindex.nStakeModifier, nStakeModifierHeight, nStakeModifierTime)

/-- `GetKernelStakeModifier`: the modifier with its height and time. -/
def getKernelStakeModifier (params : ChainParams) (mapBlockIndex : Uint256 → Option PFullIndex)
    (pnext : Uint256 → Option Uint256) (nAdjustedTime : Int) (fPrintProofOfStake : Bool)
    (fuel : Nat) (hashBlockFrom : Uint256) : Except String (UInt64 × Int × Int) := do
  let pindexFrom ← getOr ((mapBlockIndex hashBlockFrom).bind List.head?)
    "GetKernelStakeModifier() : block not indexed"
  kernelLoop params mapBlockIndex pnext nAdjustedTime fPrintProofOfStake pindexFrom.getBlockTime fuel
    pindexFrom pindexFrom.nHeight pindexFrom.getBlockTime

/-! ## The checksum -/

/-- `GetStakeModifierChecksum` of a record; `none` where the assertion on the genesis block fails.
-/
def getStakeModifierChecksum (params : ChainParams) (pprev : PFullIndex) (hashBlock : Uint256)
    (nFlags : UInt32) (hashProofOfStake : Uint256) (nStakeModifier : UInt64) : Option UInt32 :=
  if pprev.isEmpty && hashBlock != params.hashGenesisBlock then none
  else
    let prevChecksum := (pprev.head?.map fun prev => leBytes 4 prev.nStakeModifierChecksum.toNat).getD []
    let hashChecksum := params.crypto.hash (prevChecksum ++ leBytes 4 nFlags.toNat ++
      serializeUint256 hashProofOfStake ++ leBytes 8 nStakeModifier.toNat)
    some (UInt32.ofNat (hashChecksum >>> (256 - 32)).toNat)

end NovaCoin
