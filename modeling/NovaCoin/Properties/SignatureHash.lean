import NovaCoin.Script.Signature

/-!
# What a signature hash depends on

A signature commits to the parts of a transaction that its hash type does not leave out. `SignedAlike`
says for two transactions that they differ in other parts only; they then have the same signature hash.
Both runs of `SignatureHash` blank out the same parts, so they come to the same transaction, or both
return 1.
-/

namespace NovaCoin

open List

/-- `SIGHASH_NONE`: no output is signed. -/
def SignsNoOutput (nHashType : UInt32) : Prop := nHashType &&& 0x1f = SIGHASH_NONE

/-- `SIGHASH_SINGLE`: the output with the number of the input is signed. -/
def SignsOneOutput (nHashType : UInt32) : Prop := nHashType &&& 0x1f = SIGHASH_SINGLE

/-- `SIGHASH_ANYONECANPAY`: no other input is signed. -/
def SignsOneInput (nHashType : UInt32) : Prop := nHashType &&& SIGHASH_ANYONECANPAY ≠ 0

def InputsAlike (fSequence : Prop) (a b : CTxIn) : Prop :=
  a.prevout = b.prevout ∧ (fSequence → a.nSequence = b.nSequence)

/-- The transactions differ only in what a signature of the type for the two inputs leaves out. -/
structure SignedAlike (nHashType : UInt32) (txA txB : CTransaction) (nInA nInB : Nat) : Prop where
  nVersion : txA.nVersion = txB.nVersion
  nTime : txA.nTime = txB.nTime
  nLockTime : txA.nLockTime = txB.nLockTime
  /-- the inputs exist and agree in all but the signature -/
  own : ∃ a b, txA.vin[nInA]? = some a ∧ txB.vin[nInB]? = some b ∧ InputsAlike True a b
  /-- the other inputs; their sequence numbers are covered if all outputs are -/
  others : ¬SignsOneInput nHashType → nInA = nInB ∧ List.Forall₂
    (InputsAlike (¬SignsNoOutput nHashType ∧ ¬SignsOneOutput nHashType)) txA.vin txB.vin
  /-- with `SIGHASH_SINGLE` the inputs have the same number, and so have the signed outputs -/
  output : SignsOneOutput nHashType → nInA = nInB ∧ txA.vout[nInA]? = txB.vout[nInB]?
  outputs : ¬SignsNoOutput nHashType → ¬SignsOneOutput nHashType → txA.vout = txB.vout

/-! ## Inputs -/

def signedInputs (vin : List CTxIn) (nIn : Nat) (own : CTxIn) : List CTxIn :=
  (vin.map fun t => { t with scriptSig := [] }).set nIn own

def clearSequences (vin : List CTxIn) (nIn : Nat) : List CTxIn :=
  vin.mapIdx fun i t => if i != nIn then { t with nSequence := 0 } else t

variable {vin : List CTxIn} {nIn : Nat}

theorem getElem?_signedInputs (h : nIn < vin.length) (own : CTxIn) :
    (signedInputs vin nIn own)[nIn]? = some own := by
  simp [signedInputs, h]

theorem getElem?_clearSequences {own : CTxIn} (h : vin[nIn]? = some own) :
    (clearSequences vin nIn)[nIn]? = some own := by
  simp [clearSequences, h]

theorem take_one_drop {α : Type} {l : List α} {n : Nat} {a : α} (h : l[n]? = some a) :
    (l.drop n).take 1 = [a] := by
  obtain ⟨hlt, rfl⟩ := List.getElem?_eq_some_iff.mp h
  rw [drop_eq_getElem_cons hlt]
  rfl

section

variable {fSequence : Prop} {vinA vinB : List CTxIn}
  (h : List.Forall₂ (InputsAlike fSequence) vinA vinB) (nIn : Nat) (own : CTxIn)
include h

theorem signedInputs_congr (hseq : fSequence) :
    signedInputs vinA nIn own = signedInputs vinB nIn own := by
  have hmap : vinA.map (fun t => { t with scriptSig := [] }) =
      vinB.map (fun t => { t with scriptSig := [] }) := by
    induction h with
    | nil => rfl
    | cons hab _ ih => rw [map_cons, map_cons, ih, hab.1, hab.2 hseq]
  rw [signedInputs, hmap, signedInputs]

theorem clearSequences_congr :
    clearSequences (signedInputs vinA nIn own) nIn = clearSequences (signedInputs vinB nIn own) nIn := by
  refine ext_getElem? fun i => ?_
  by_cases hi : i = nIn
  · subst hi
    simp [clearSequences, signedInputs, getElem?_set, h.length_eq]
  · -- another input: what is left of it is its outpoint
    have hget : ∀ vin : List CTxIn, (clearSequences (signedInputs vin nIn own) nIn)[i]? =
        (vin[i]?).map fun t => ⟨t.prevout, [], 0⟩ := by
      intro vin
      simp [clearSequences, signedInputs, getElem?_set_ne (Ne.symm hi), hi, Function.comp_def]
    have hprev : ∀ {k : Nat}, (vinA[k]?).map CTxIn.prevout = (vinB[k]?).map CTxIn.prevout := by
      intro k
      rw [← getElem?_map, ← getElem?_map]
      congr 1
      induction h with
      | nil => rfl
      | cons hab _ ih => rw [map_cons, map_cons, ih, hab.1]
    rw [hget, hget]
    have hcomp := congrArg (Option.map fun o => (⟨o, [], 0⟩ : CTxIn)) (hprev (k := i))
    rwa [Option.map_map, Option.map_map] at hcomp

end

def keptInputs (nHashType : UInt32) (vin : List CTxIn) (nIn : Nat) : List CTxIn :=
  if nHashType &&& SIGHASH_ANYONECANPAY != 0 then (vin.drop nIn).take 1 else vin

theorem keptInputs_of_one {nHashType : UInt32} (h : SignsOneInput nHashType) {own : CTxIn}
    (hown : vin[nIn]? = some own) : keptInputs nHashType vin nIn = [own] := by
  rw [keptInputs, if_pos (bne_iff_ne.mpr h), take_one_drop hown]

/-! ## Outputs -/

/-- The outputs with `SIGHASH_SINGLE`: those before the signed one are blanked out. -/
def singleOutputs (vout : List CTxOut) (nIn : Nat) : List CTxOut :=
  (vout.take (nIn + 1)).mapIdx fun i t => if i < nIn then CTxOut.null else t

theorem singleOutputs_eq {vout : List CTxOut} {txout : CTxOut} (h : vout[nIn]? = some txout) :
    singleOutputs vout nIn = List.replicate nIn CTxOut.null ++ [txout] := by
  obtain ⟨hlt, rfl⟩ := List.getElem?_eq_some_iff.mp h
  refine ext_getElem (by simp [singleOutputs]; omega) fun i h₁ h₂ => ?_
  simp only [singleOutputs, getElem_mapIdx, getElem_take, getElem_append,
    getElem_replicate, length_replicate]
  split
  · rfl
  · have hi : i = nIn := by
      simp only [length_append, length_replicate, length_singleton] at h₂
      omega
    simp [hi]

/-- The transaction that is hashed, by the parts. -/
theorem signatureTx_eq {scriptCode : CScript} {tx : CTransaction} {txin : CTxIn}
    (h : tx.vin[nIn]? = some txin) (nHashType : UInt32) :
    signatureTx scriptCode tx nIn nHashType =
      let vin := signedInputs tx.vin nIn
        { txin with scriptSig := findAndDelete scriptCode [Op.OP_CODESEPARATOR.toByte] }
      if nHashType &&& 0x1f == SIGHASH_NONE then
        some { tx with vin := keptInputs nHashType (clearSequences vin nIn) nIn, vout := [] }
      else if nHashType &&& 0x1f == SIGHASH_SINGLE then
        if tx.vout.length ≤ nIn then none
        else some { tx with
          vin := keptInputs nHashType (clearSequences vin nIn) nIn
          vout := singleOutputs tx.vout nIn }
      else some { tx with vin := keptInputs nHashType vin nIn } := by
  unfold signatureTx keptInputs
  rw [h]
  split_ifs <;> rfl

/-! ## Two transactions -/

section TwoRuns

variable {nHashType : UInt32} {txA txB : CTransaction} {nInA nInB : Nat} (scriptCode : CScript)

/-- Each hash type blanks what the two may differ in before the copy is hashed. -/
theorem SignedAlike.signatureTx_eq (h : SignedAlike nHashType txA txB nInA nInB) :
    signatureTx scriptCode txA nInA nHashType = signatureTx scriptCode txB nInB nHashType := by
  obtain ⟨a, b, ha, hb, hprev, hseq⟩ := h.own
  rw [NovaCoin.signatureTx_eq ha, NovaCoin.signatureTx_eq hb]
  have hown : ({ a with scriptSig := findAndDelete scriptCode [Op.OP_CODESEPARATOR.toByte] } : CTxIn) =
      { b with scriptSig := findAndDelete scriptCode [Op.OP_CODESEPARATOR.toByte] } := by
    rw [hprev, hseq trivial]
  rw [hown]
  generalize ({ b with scriptSig := findAndDelete scriptCode [Op.OP_CODESEPARATOR.toByte] } : CTxIn) = own
  have hinA := getElem?_signedInputs (List.getElem?_eq_some_iff.mp ha).1 own
  have hinB := getElem?_signedInputs (List.getElem?_eq_some_iff.mp hb).1 own
  -- the inputs that are kept, with and without the sequence numbers of the others
  have hcleared : keptInputs nHashType (clearSequences (signedInputs txA.vin nInA own) nInA) nInA =
      keptInputs nHashType (clearSequences (signedInputs txB.vin nInB own) nInB) nInB := by
    by_cases hone : SignsOneInput nHashType
    · rw [keptInputs_of_one hone (getElem?_clearSequences hinA),
        keptInputs_of_one hone (getElem?_clearSequences hinB)]
    · obtain ⟨rfl, hall⟩ := h.others hone
      rw [clearSequences_congr hall]
  have hkept : ¬SignsNoOutput nHashType → ¬SignsOneOutput nHashType →
      keptInputs nHashType (signedInputs txA.vin nInA own) nInA =
        keptInputs nHashType (signedInputs txB.vin nInB own) nInB := by
    intro hnone hsingle
    by_cases hone : SignsOneInput nHashType
    · rw [keptInputs_of_one hone hinA, keptInputs_of_one hone hinB]
    · obtain ⟨rfl, hall⟩ := h.others hone
      rw [signedInputs_congr hall _ _ ⟨hnone, hsingle⟩]
  by_cases hnone : SignsNoOutput nHashType
  · simp only [beq_iff_eq.mpr hnone, if_true, hcleared, h.nVersion, h.nTime, h.nLockTime]
  · have hnone' : (nHashType &&& 0x1f == SIGHASH_NONE) = false := beq_false_of_ne hnone
    simp only [hnone', Bool.false_eq_true, if_false]
    by_cases hsingle : SignsOneOutput nHashType
    · simp only [beq_iff_eq.mpr hsingle, if_true]
      obtain ⟨rfl, hout⟩ := h.output hsingle
      cases hsome : txB.vout[nInA]? with
      | none =>
        rw [hsome] at hout
        rw [if_pos (List.getElem?_eq_none_iff.mp hout), if_pos (List.getElem?_eq_none_iff.mp hsome)]
      | some txout =>
        rw [hsome] at hout
        have hltA := (List.getElem?_eq_some_iff.mp hout).1
        have hltB := (List.getElem?_eq_some_iff.mp hsome).1
        rw [if_neg (not_le.mpr hltA), if_neg (not_le.mpr hltB), singleOutputs_eq hout,
          singleOutputs_eq hsome, hcleared, h.nVersion, h.nTime, h.nLockTime]
    · have hsingle' : (nHashType &&& 0x1f == SIGHASH_SINGLE) = false := beq_false_of_ne hsingle
      simp only [hsingle', Bool.false_eq_true, if_false, hkept hnone hsingle,
        h.outputs hnone hsingle, h.nVersion, h.nTime, h.nLockTime]

end TwoRuns

/-- A signature hash does not depend on what its type leaves out. -/
theorem signatureHash_noninterference (C : Crypto) (scriptCode : CScript) (nHashType : UInt32)
    (txA txB : CTransaction) (nInA nInB : Nat) (h : SignedAlike nHashType txA txB nInA nInB) :
    signatureHash C scriptCode txA nInA nHashType = signatureHash C scriptCode txB nInB nHashType := by
  unfold signatureHash
  rw [h.signatureTx_eq scriptCode]

/-- One input and no output. -/
def openTx : CTransaction := ⟨1, 1700000000, [⟨⟨7, 0⟩, [], 5⟩], [], 0⟩

/-- The same after someone has put an input before it and added an output. -/
def completedTx : CTransaction :=
  ⟨1, 1700000000, [⟨⟨8, 1⟩, [0x51], 0⟩, ⟨⟨7, 0⟩, [0x52], 5⟩], [⟨1000, [0x51]⟩], 0⟩

/-- With `SIGHASH_NONE | SIGHASH_ANYONECANPAY` the signature of the first remains valid. -/
theorem signatureHash_completedTx :
    SignedAlike (SIGHASH_NONE ||| SIGHASH_ANYONECANPAY) openTx completedTx 0 1 ∧
    signatureHash Crypto.sample [0xac] openTx 0 (SIGHASH_NONE ||| SIGHASH_ANYONECANPAY) =
      signatureHash Crypto.sample [0xac] completedTx 1 (SIGHASH_NONE ||| SIGHASH_ANYONECANPAY) := by
  have hone : SignsOneInput (SIGHASH_NONE ||| SIGHASH_ANYONECANPAY) := by
    unfold SignsOneInput
    decide
  have hnone : SignsNoOutput (SIGHASH_NONE ||| SIGHASH_ANYONECANPAY) := by
    unfold SignsNoOutput
    decide
  have hnotSingle : ¬SignsOneOutput (SIGHASH_NONE ||| SIGHASH_ANYONECANPAY) := by
    unfold SignsOneOutput
    decide
  have h : SignedAlike (SIGHASH_NONE ||| SIGHASH_ANYONECANPAY) openTx completedTx 0 1 :=
    ⟨rfl, rfl, rfl, ⟨_, _, rfl, rfl, rfl, fun _ => rfl⟩, fun hnot => absurd hone hnot,
      fun hsingle => absurd hsingle hnotSingle, fun hnot => absurd hnone hnot⟩
  exact ⟨h, signatureHash_noninterference Crypto.sample [0xac] _ openTx completedTx 0 1 h⟩

end NovaCoin
