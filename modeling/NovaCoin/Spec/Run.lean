import NovaCoin.Infra.SpentHistory
import NovaCoin.Spec.Block

/-!
# Runs of ConnectBlock and DisconnectBlock

The states of the transaction index that are reached from the empty index by connecting blocks
to the tip and disconnecting the tip. The surroundings (the clock, the memory pool, the
checkpoints) may be different at every step, only the hash functions are the same.
-/

namespace NovaCoin

open Guard SpentIndex

/-- The connected blocks, the tip first, with the records that `ConnectBlock` completed. -/
abbrev Chain := List (CBlockIndex × CBlock)

/-- The block index from the tip of a chain on `base` (the genesis block is not connected). -/
def Chain.pindex (chain : Chain) (base : PIndex) : PIndex := chain.map (·.1) ++ base

/-- The index and the chain after a run. `AppendBlockFile` never gives the number of a null
position. -/
inductive Reachable (crypto : Crypto) (base : PIndex) : TxDB → Chain → Prop
  | empty : Reachable crypto base ∅ []
  | connect {db db' : TxDB} {chain : Chain} {env : Env} {pindex pindex' : CBlockIndex} {b : CBlock}
      (reachable : Reachable crypto base db chain) (henv : env.crypto = crypto)
      (nFile : pindex.nFile ≠ 0xffffffff)
      (ok : connectBlock env db pindex (chain.pindex base) b false = .ok (db', pindex')) :
      Reachable crypto base db' ((pindex', b) :: chain)
  | disconnect {db db' : TxDB} {chain : Chain} {pindex : CBlockIndex} {b : CBlock}
      (reachable : Reachable crypto base db ((pindex, b) :: chain))
      (ok : disconnectBlock crypto db b = .ok db') : Reachable crypto base db' chain

def Chain.txs (chain : Chain) : List (CDiskTxPos × CTransaction) :=
  chain.flatMap fun p => (p.2.stored p.1).reverse

def Chain.history (crypto : Crypto) (chain : Chain) : List (Item Uint256 CDiskTxPos) :=
  chain.txs.map fun t => t.2.item crypto t.1

theorem Chain.history_cons (crypto : Crypto) (p : CBlockIndex × CBlock) (chain : Chain) :
    Chain.history crypto (p :: chain) =
      (p.2.items crypto p.1).reverse ++ chain.history crypto := by
  simp [history, txs, CBlock.items, CBlock.stored, blockItems]

theorem txPositions_txs (pindex : CBlockIndex) (nTxPos : UInt32) (vtx : List CTransaction) :
    (txPositions pindex false nTxPos vtx).map (·.2) = vtx := by
  induction vtx generalizing nTxPos with
  | nil => rfl
  | cons tx vtx ih => exact congrArg (tx :: ·) (ih _)

theorem txPositions_congr {i j : CBlockIndex} (hfile : i.nFile = j.nFile)
    (hblock : i.nBlockPos = j.nBlockPos) (nTxPos : UInt32) (vtx : List CTransaction) :
    txPositions i false nTxPos vtx = txPositions j false nTxPos vtx := by
  induction vtx generalizing nTxPos with
  | nil => rfl
  | cons tx vtx ih => rw [txPositions, txPositions, ih, hfile, hblock]

/-- Where the transactions are is a matter of the place of the block alone. -/
theorem stored_congr {i j : CBlockIndex} (hfile : i.nFile = j.nFile) (hblock : i.nBlockPos = j.nBlockPos)
    (b : CBlock) : b.stored i = b.stored j := by
  rw [CBlock.stored, CBlock.stored, txPositions_congr hfile hblock, firstTxPos, firstTxPos, hblock]

variable {pindex : CBlockIndex} {crypto : Crypto} {b : CBlock}

theorem items_of_connectBlock {env : Env} {db db' : TxDB} {pindex' : CBlockIndex} {pprev : PIndex}
    (h : connectBlock env db pindex pprev b false = .ok (db', pindex')) (crypto : Crypto) :
    b.items crypto pindex' = b.items crypto pindex ∧ b.stored pindex' = b.stored pindex := by
  have hstored : b.stored pindex' = b.stored pindex := by
    obtain ⟨_, _, _, -, -, -, -, rfl⟩ := connectBlock_eq_ok h
    exact stored_congr (by rfl) (by rfl) b
  exact ⟨congrArg (List.map fun p : CDiskTxPos × CTransaction => p.2.item crypto p.1) hstored, hstored⟩

theorem stored_nFile {t : CDiskTxPos × CTransaction} (h : t ∈ b.stored pindex) :
    t.1.nFile = pindex.nFile := by
  have hall : ∀ (nTxPos : UInt32) (vtx : List CTransaction),
      ∀ t ∈ txPositions pindex false nTxPos vtx, t.1.nFile = pindex.nFile := by
    intro nTxPos vtx
    induction vtx generalizing nTxPos with
    | nil => simp [txPositions]
    | cons tx vtx ih => exact List.forall_mem_cons.mpr ⟨rfl, ih _⟩
  exact hall _ _ t h

theorem items_pos (hfile : pindex.nFile ≠ 0xffffffff) :
    ∀ t ∈ b.items crypto pindex, isNull t.pos = false := by
  intro t ht
  obtain ⟨p, hp, rfl⟩ := List.mem_map.mp ht
  show (p.1.nFile == 0xffffffff) = false
  rw [stored_nFile hp]
  exact beq_eq_false_iff_ne.mpr hfile

/-- The index of a run is the history of its chain. -/
theorem Reachable.agrees {base : PIndex} {db : TxDB} {chain : Chain}
    (h : Reachable crypto base db chain) : Agrees (chain.history crypto) (index db) := by
  induction h with
  | empty => exact Agrees.nil
  | @connect db db' chain env pindex pindex' b _ henv hfile hok ih =>
    subst henv
    obtain ⟨-, hc, hi⟩ := connectBlock_index hok
    rw [Chain.history_cons, (items_of_connectBlock hok _).1, hi]
    exact ih.connectAll hc (items_pos hfile)
  | @disconnect db db' chain pindex b _ hok ih =>
    obtain ⟨hd, hi⟩ := disconnectBlock_eq_ok pindex hok
    rw [Chain.history_cons] at ih
    rw [hi]
    exact ih.disconnectAll hd

/-! ## Blocks in a row -/

def connectBlocks (env : Env) (base : PIndex) : Chain → Except Reject (TxDB × Chain)
  | [] => .ok (∅, [])
  | (pindex, b) :: rest => do
    let (db, chain) ← connectBlocks env base rest
    let (db', pindex') ← connectBlock env db pindex (chain.pindex base) b false
    pure (db', (pindex', b) :: chain)

section ConnectBlocks

variable {env : Env} {base : PIndex} {blocks chain : Chain} {db : TxDB}

theorem connectBlocks_induct {P : TxDB → Chain → Prop} (hempty : P ∅ []) (hconnect :
      ∀ p ∈ blocks, ∀ {db chain db' pindex'}, P db chain →
        connectBlock env db p.1 (chain.pindex base) p.2 false = .ok (db', pindex') →
        P db' ((pindex', p.2) :: chain))
    (h : connectBlocks env base blocks = .ok (db, chain)) : P db chain := by
  induction blocks generalizing db chain with
  | nil =>
    cases h
    exact hempty
  | cons p blocks ih =>
    rw [List.forall_mem_cons] at hconnect
    obtain ⟨⟨db₁, chain₁⟩, h₁, h⟩ := bind_eq_ok.mp h
    obtain ⟨⟨db', pindex'⟩, hc, h⟩ := bind_eq_ok.mp h
    cases h
    exact hconnect.1 (ih hconnect.2 h₁) hc

theorem reachable_of_connectBlocks (h : connectBlocks env base blocks = .ok (db, chain))
    (hfile : ∀ p ∈ blocks, p.1.nFile ≠ 0xffffffff) : Reachable env.crypto base db chain :=
  connectBlocks_induct .empty (fun p hp _ _ _ _ hrun hc => .connect hrun rfl (hfile p hp) hc) h

end ConnectBlocks

end NovaCoin
