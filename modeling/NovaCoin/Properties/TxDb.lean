import NovaCoin.TxDb

/-!
# Transactions of the database

The pending writes are a log that is gone through for every read. What the scanner has found is
the last operation on the key, so a read sees the log laid over LevelDB: `Read` refines the
transactional map of `Infra/Overlay.lean`, call by call.

`Exists` asks the scanner too, but goes on to LevelDB when it has found that the key was erased.
-/

namespace NovaCoin.LevelDB

open List Option

open Overlay (Update Map TxnCall Txn Encodes overlay lastOn)

/-! ## The scanner -/

/-- What the scanner says when it has gone over a batch. -/
structure Scanned (activeBatch : WriteBatch) (key : List UInt8) (scanner : CBatchScanner) :
    Prop where
  needle : scanner.needle = key
  untouched : lastOn key activeBatch = none → scanner.foundEntry = false ∧ scanner.deleted = false
  erased : lastOn key activeBatch = some (.delete key) →
    scanner.foundEntry = true ∧ scanner.deleted = true
  written : ∀ value, lastOn key activeBatch = some (.put key value) →
    scanner.foundEntry = true ∧ scanner.deleted = false ∧ scanner.foundValue = value

/-- The scan keeps the last operation on the key. -/
theorem scanned_scanBatch (activeBatch : WriteBatch) (key : List UInt8) :
    Scanned activeBatch key (scanBatch activeBatch key) := by
  induction activeBatch using reverseRecOn with
  | nil =>
    refine ⟨rfl, fun _ => ⟨rfl, rfl⟩, fun h => ?_, fun _ h => ?_⟩
    · cases h
    · cases h
  | append_singleton activeBatch op ih =>
    have hlast := Overlay.lastOn_append key activeBatch op
    have hscan : scanBatch (activeBatch ++ [op]) key = (scanBatch activeBatch key).handle op := by
      rw [scanBatch, foldl_append]
      rfl
    by_cases hkey : op.key = key
    · -- the handler takes over what the operation does to the key
      rw [if_pos hkey] at hlast
      rw [hscan]
      cases op with
      | put key' value =>
        have hneedle : key' = (scanBatch activeBatch key).needle := hkey.trans ih.needle.symm
        rw [CBatchScanner.handle, if_pos hneedle]
        refine ⟨ih.needle, fun h => ?_, fun h => ?_, fun value' h => ?_⟩
        · rw [hlast] at h
          cases h
        · rw [hlast] at h
          cases h
        · rw [hlast] at h
          cases h
          exact ⟨rfl, rfl, rfl⟩
      | delete key' =>
        have hneedle : key' = (scanBatch activeBatch key).needle := hkey.trans ih.needle.symm
        rw [CBatchScanner.handle, if_pos hneedle]
        refine ⟨ih.needle, fun h => ?_, fun _ => ⟨rfl, rfl⟩, fun value' h => ?_⟩
        · rw [hlast] at h
          cases h
        · rw [hlast] at h
          cases h
    · have hneedle : op.key ≠ (scanBatch activeBatch key).needle := by
        rw [ih.needle]
        exact hkey
      have hsame : (scanBatch activeBatch key).handle op = scanBatch activeBatch key := by
        cases op <;> exact if_neg hneedle
      rw [if_neg hkey] at hlast
      rw [hscan, hsame]
      exact ⟨ih.needle, fun h => ih.untouched (hlast ▸ h), fun h => ih.erased (hlast ▸ h),
        fun value h => ih.written value (hlast ▸ h)⟩

/-! ## What is read -/

/-- What the database holds, with the pending operations. -/
def CTxDB.current (db : CTxDB) : LevelDb :=
  match db.activeBatch with
  | some activeBatch => overlay db.pdb activeBatch
  | none => db.pdb

theorem CTxDB.strValue_eq (db : CTxDB) (ssKey : List UInt8) : db.strValue ssKey = db.current ssKey := by
  unfold strValue current
  cases db.activeBatch with
  | none => rfl
  | some activeBatch =>
    have hscan := scanned_scanBatch activeBatch ssKey
    simp only
    rcases Overlay.lastOn_cases ssKey activeBatch with h | h | ⟨value, h⟩
    · obtain ⟨hfound, hdeleted⟩ := hscan.untouched h
      rw [hfound, hdeleted, Overlay.overlay_of_lastOn_none db.pdb h]
      rfl
    · obtain ⟨-, hdeleted⟩ := hscan.erased h
      rw [hdeleted, Overlay.overlay_of_lastOn_delete db.pdb h]
      rfl
    · obtain ⟨hfound, hdeleted, hvalue⟩ := hscan.written value h
      rw [hfound, hdeleted, hvalue, Overlay.overlay_of_lastOn_put db.pdb h]
      rfl

section

variable {κ : Type} {τ : κ → Type} {S : Schema κ τ} {db db' : CTxDB} {a : Txn κ τ} {ok : Bool}

/-- The database stands for a transactional map. -/
structure CTxDB.Refines (S : Schema κ τ) (db : CTxDB) (a : Txn κ τ) : Prop where
  committed : Encodes S.key S.value db.pdb a.committed
  isSome : db.activeBatch.isSome = a.pending.isSome
  current : Encodes S.key S.value db.current a.view

theorem CTxDB.Refines.read (h : db.Refines S a) (key : κ) : db.read S key = a.view key := by
  rw [CTxDB.read, CTxDB.strValue_eq, h.current key]
  cases a.view key with
  | none => rfl
  | some value => exact S.unserialize_value key value

theorem CTxDB.refines_idle {pdb : LevelDb} {m : Map κ τ} {fReadOnly : Bool}
    (h : Encodes S.key S.value pdb m) : CTxDB.Refines S ⟨pdb, none, fReadOnly⟩ ⟨m, none⟩ :=
  ⟨h, rfl, h⟩

theorem CTxDB.txnBegin_eq_some (h : db.txnBegin = some db') :
    db.activeBatch = none ∧ db' = { db with activeBatch := some [] } := by
  unfold txnBegin at h
  split at h
  · cases h
  · next hbatch =>
    cases h
    exact ⟨hbatch, rfl⟩

theorem CTxDB.txnCommit_eq_some (h : db.txnCommit ok = some db') :
    db' = ⟨if ok then db.current else db.pdb, none, db.fReadOnly⟩ := by
  unfold txnCommit at h
  split at h
  · next activeBatch hbatch =>
    cases h
    rw [current, hbatch]
  · cases h

theorem CTxDB.existsKey_of_batch (S : Schema κ τ) (pdb : LevelDb) (activeBatch : WriteBatch)
    (fReadOnly : Bool) (key : κ) :
    (CTxDB.mk pdb (some activeBatch) fReadOnly).existsKey S key =
      ((scanBatch activeBatch (S.key key)).foundEntry &&
        !(scanBatch activeBatch (S.key key)).deleted || (pdb (S.key key)).isSome) := by
  unfold existsKey
  simp only
  cases (scanBatch activeBatch (S.key key)).foundEntry &&
    !(scanBatch activeBatch (S.key key)).deleted with
  | true => rfl
  | false => rfl

/-- In an open transaction nothing but the batch changes. -/
theorem CTxDB.txnAbort_run_ops : ∀ {ops : List (Update κ τ)} {db : CTxDB},
    db.activeBatch.isSome → db.run S (ops.map (.op ok)) = some db' →
      db'.activeBatch.isSome ∧ db'.txnAbort = db.txnAbort
  | [], _, hopen, h => by
    cases h
    exact ⟨hopen, rfl⟩
  | op :: ops, db, hopen, h => by
    obtain ⟨db₁, hstep, hrest⟩ := bind_eq_some_iff.mp h
    have hput : db.put S ok op = some db₁ := by cases op <;> exact hstep
    have hfirst : db₁.activeBatch.isSome ∧ db₁.txnAbort = db.txnAbort := by
      unfold CTxDB.put at hput
      split at hput
      · cases hput
      · obtain ⟨activeBatch, hbatch⟩ := isSome_iff_exists.mp hopen
        rw [hbatch] at hput
        cases hput
        exact ⟨rfl, rfl⟩
    obtain ⟨hopen', habort⟩ := txnAbort_run_ops hfirst.1 hrest
    exact ⟨hopen', habort.trans hfirst.2⟩

variable [DecidableEq κ]

theorem CTxDB.Refines.put (h : db.Refines S a) {op : Update κ τ} (hput : db.put S ok op = some db') :
    db'.Refines S (a.step (.op ok op)) := by
  unfold CTxDB.put at hput
  split at hput
  · cases hput
  · obtain ⟨pdb, activeBatch, fReadOnly⟩ := db
    obtain ⟨committed, pending⟩ := a
    have hsome := h.isSome
    cases activeBatch with
    | some activeBatch =>
      cases hput
      cases pending with
      | none => cases hsome
      | some m =>
        refine ⟨h.committed, rfl, ?_⟩
        show Encodes S.key S.value (overlay pdb (activeBatch ++ [op.encode S.key S.value])) (op.apply m)
        rw [Overlay.overlay_append]
        exact h.current.apply S.key_injective op
    | none =>
      cases hput
      cases pending with
      | some m => cases hsome
      | none =>
        cases ok with
        | true => exact refines_idle (h.committed.apply S.key_injective op)
        | false => exact h

theorem CTxDB.Refines.step (h : db.Refines S a) {call : TxnCall κ τ}
    (hstep : db.step S call = some db') : db'.Refines S (a.step call) := by
  cases call with
  | begin =>
    obtain ⟨-, rfl⟩ := txnBegin_eq_some hstep
    exact ⟨h.committed, rfl, h.committed⟩
  | op ok op =>
    cases op with
    | put key value => exact h.put hstep
    | delete key => exact h.put hstep
  | commit ok =>
    obtain rfl := txnCommit_eq_some hstep
    cases ok with
    | true => exact refines_idle h.current
    | false => exact refines_idle h.committed
  | abort =>
    cases hstep
    exact refines_idle h.committed

theorem CTxDB.Refines.run : ∀ {calls : List (TxnCall κ τ)} {db : CTxDB} {a : Txn κ τ},
    db.Refines S a → db.run S calls = some db' → db'.Refines S (a.run calls)
  | [], _, _, h, hrun => by
    cases hrun
    exact h
  | call :: calls, db, a, h, hrun => by
    obtain ⟨db₁, hstep, hrest⟩ := bind_eq_some_iff.mp hrun
    exact (h.step hstep).run hrest

/-- In every sequence of calls a read gives what the transactional map has. A transaction reads its
operations over what is committed; aborting it leaves the database as it was, committing it makes
that overlay the map. -/
theorem CTxDB.run_transactions (S : Schema κ τ) {pdb : LevelDb} {m : Map κ τ} {fReadOnly : Bool}
    (hm : Encodes S.key S.value pdb m) (calls : List (TxnCall κ τ)) {db : CTxDB}
    (h : (CTxDB.mk pdb none fReadOnly).run S calls = some db) :
    (∀ key, db.read S key = (Txn.run ⟨m, none⟩ calls).view key) ∧
    ∀ (ops : List (Update κ τ)) (ok : Bool) {db₁ : CTxDB},
      db.run S (.begin :: ops.map (.op ok)) = some db₁ →
      (∀ key, db₁.read S key = overlay (Txn.run ⟨m, none⟩ calls).committed ops key) ∧
      db₁.txnAbort = db ∧
      ∃ db₂, db₁.txnCommit true = some db₂ ∧ db₂.activeBatch = none ∧
        Encodes S.key S.value db₂.pdb (overlay (Txn.run ⟨m, none⟩ calls).committed ops) := by
  have hrefines := (refines_idle hm).run h
  refine ⟨hrefines.read, ?_⟩
  intro ops ok db₁ h₁
  have hopen := hrefines.run h₁
  rw [Txn.run_begin] at hopen
  -- the transaction that is begun sees the committed map
  obtain ⟨db₀, hbegin, hops⟩ := bind_eq_some_iff.mp h₁
  obtain ⟨hidle, rfl⟩ := txnBegin_eq_some hbegin
  obtain ⟨hsome, habort⟩ := txnAbort_run_ops (S := S) rfl hops
  obtain ⟨activeBatch, hbatch⟩ := isSome_iff_exists.mp hsome
  refine ⟨hopen.read, ?_, ?_⟩
  · rw [habort]
    cases db
    cases hidle
    rfl
  · have hcommit : db₁.txnCommit true = some ⟨db₁.current, none, db₁.fReadOnly⟩ := by
      rw [txnCommit, current, hbatch]
      rfl
    exact ⟨_, hcommit, rfl, hopen.current⟩

/-- The hash of the best chain is written, read back, and erased in a second transaction. -/
theorem nodeSchema_run_transactions : ∃ db db₁, (CTxDB.mk (fun _ => none) none false).run nodeSchema
      [.begin, .op true (.put .hashBestChain (5 : Uint256)), .commit true] = some db ∧
    db.run nodeSchema (.begin :: [Update.delete DbKey.hashBestChain].map (.op true)) = some db₁ ∧
    db.read nodeSchema .hashBestChain = some (5 : Uint256) ∧
    db₁.read nodeSchema .hashBestChain = none ∧ db₁.txnAbort = db := by
  have hm : Encodes nodeSchema.key nodeSchema.value (fun _ => none) fun _ => none := fun _ => rfl
  obtain ⟨db, h⟩ : ∃ db, (CTxDB.mk (fun _ => none) none false).run nodeSchema
      [.begin, .op true (.put .hashBestChain (5 : Uint256)), .commit true] = some db := ⟨_, rfl⟩
  obtain ⟨hread, hnext⟩ := CTxDB.run_transactions nodeSchema hm _ h
  obtain ⟨db₁, h₁⟩ : ∃ db₁, db.run nodeSchema
      (.begin :: [Update.delete DbKey.hashBestChain].map (.op true)) = some db₁ := by
    cases h
    exact ⟨_, rfl⟩
  obtain ⟨hread₁, habort, -⟩ := hnext _ true h₁
  exact ⟨db, db₁, h, h₁, hread .hashBestChain, hread₁ .hashBestChain, habort⟩

/-! ## Exists -/

/-- `Exists` is right about a key unless it is in the database and the last pending operation on it
is an erase. -/
theorem CTxDB.existsKey_iff_read (S : Schema κ τ) {pdb : LevelDb} {m : Map κ τ}
    (hm : Encodes S.key S.value pdb m) (ops : List (Update κ τ)) (fReadOnly : Bool) (key : κ) :
    let db : CTxDB := ⟨pdb, some (ops.map (Update.encode S.key S.value)), fReadOnly⟩
    ((db.existsKey S key = true ↔ (overlay m ops key).isSome = true) ∧
      (db.existsKey S key = true ↔ (db.read S key).isSome = true)) ↔
    ¬ (lastOn key ops = some (.delete key) ∧ (m key).isSome = true) := by
  intro db
  have hread : db.read S key = overlay m ops key := by
    have hrefines : db.Refines S ⟨m, some (overlay m ops)⟩ :=
      ⟨hm, rfl, hm.overlay S.key_injective ops⟩
    exact hrefines.read key
  have hscan := scanned_scanBatch (ops.map (Update.encode S.key S.value)) (S.key key)
  have hlast := Overlay.lastOn_map_encode S.key_injective S.value key ops
  have hpdb : (pdb (S.key key)).isSome = (m key).isSome := by rw [hm key, isSome_map]
  rw [hread]
  rcases Overlay.lastOn_cases key ops with h | h | ⟨value, h⟩
  · -- the batch does not touch the key
    obtain ⟨hfound, -⟩ := hscan.untouched (by rw [hlast, h]; rfl)
    have hexists : db.existsKey S key = (m key).isSome := by
      rw [existsKey_of_batch, hfound, hpdb]
      rfl
    rw [hexists, Overlay.overlay_of_lastOn_none m h, h]
    simp
  · -- the batch erases it: `Exists` goes on to the database
    obtain ⟨hfound, hdeleted⟩ := hscan.erased (by rw [hlast, h]; rfl)
    have hexists : db.existsKey S key = (m key).isSome := by
      rw [existsKey_of_batch, hfound, hdeleted, hpdb]
      rfl
    rw [hexists, Overlay.overlay_of_lastOn_delete m h, h]
    simp
  · obtain ⟨hfound, hdeleted, -⟩ := hscan.written (S.value key value) (by rw [hlast, h]; rfl)
    have hexists : db.existsKey S key := by
      rw [existsKey_of_batch, hfound, hdeleted]
      rfl
    rw [hexists, Overlay.overlay_of_lastOn_put m h, h]
    simp

end

def bestChainDb : LevelDb :=
  Function.update (fun _ => none) (DbKey.serialize .hashBestChain) (some (serializeUint256 5))

def bestChainMap : Map DbKey DbKey.Value
  | .tx _ => none
  | .hashBestChain => some (5 : Uint256)
  | .hashSyncCheckpoint => none

theorem bestChainDb_encodes : Encodes nodeSchema.key nodeSchema.value bestChainDb bestChainMap := by
  intro k
  cases k <;> rfl

/-- In a batch that writes another key, `Exists` and `Read` agree about this one. -/
theorem bestChainDb_existsKey_iff_read :
    let ops : List (Update DbKey DbKey.Value) := [.put .hashSyncCheckpoint (7 : Uint256)]
    let db : CTxDB :=
      ⟨bestChainDb, some (ops.map (Update.encode nodeSchema.key nodeSchema.value)), false⟩
    db.existsKey nodeSchema .hashBestChain ↔
      (db.read nodeSchema .hashBestChain).isSome := by
  intro ops db
  have hiff := CTxDB.existsKey_iff_read nodeSchema bestChainDb_encodes ops false .hashBestChain
  have hlast : lastOn DbKey.hashBestChain ops ≠ some (.delete .hashBestChain) := by
    intro h
    cases h
  exact (hiff.mpr fun h => hlast h.1).2

/-- The hash of the best chain is erased in a transaction: `Exists` finds it and `Read` does not. -/
theorem nodeSchema_exists_erased : ∃ db, (CTxDB.mk (fun _ => none) none false).run nodeSchema
      [.op true (.put .hashBestChain (5 : Uint256)), .begin, .op true (.delete .hashBestChain)] =
        some db ∧
    db.existsKey nodeSchema .hashBestChain = true ∧ db.read nodeSchema .hashBestChain = none :=
  ⟨_, rfl, rfl, rfl⟩

end NovaCoin.LevelDB
