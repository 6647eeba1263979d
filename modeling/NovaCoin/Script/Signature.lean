import NovaCoin.Script.Basic

/-!
# Signatures and lock times in scripts

The checks `EvalScript` makes outside the stack: encoding rules for keys and signatures,
`SignatureHash`, `CheckSig`, `CheckLockTime` and `CheckSequence`.

The signature cache is left out: it only holds triples for which `CPubKey::Verify` returned
true, so a hit gives the result the oracle gives.
-/

namespace NovaCoin

/-! ## Verification flags -/

def SCRIPT_VERIFY_P2SH : UInt32 := 0x1
def SCRIPT_VERIFY_STRICTENC : UInt32 := 0x2
def SCRIPT_VERIFY_LOW_S : UInt32 := 0x4
def SCRIPT_VERIFY_NOCACHE : UInt32 := 0x8
def SCRIPT_VERIFY_NULLDUMMY : UInt32 := 0x10
def SCRIPT_VERIFY_CHECKLOCKTIMEVERIFY : UInt32 := 0x200
def SCRIPT_VERIFY_CHECKSEQUENCEVERIFY : UInt32 := 0x400

def STRICT_FORMAT_FLAGS : UInt32 :=
  SCRIPT_VERIFY_STRICTENC ||| SCRIPT_VERIFY_LOW_S ||| SCRIPT_VERIFY_NULLDUMMY

def MANDATORY_SCRIPT_VERIFY_FLAGS : UInt32 := SCRIPT_VERIFY_P2SH

/-- The flags `CTxMemPool::accept` uses. -/
def STRICT_FLAGS : UInt32 := MANDATORY_SCRIPT_VERIFY_FLAGS ||| STRICT_FORMAT_FLAGS

/-- `flags & flag` as a condition. -/
def hasFlag (flags flag : UInt32) : Bool := flags &&& flag != 0

/-! ## Encodings -/

def isCanonicalPubKey (vchPubKey : Valtype) (flags : UInt32) : Bool :=
  if !hasFlag flags SCRIPT_VERIFY_STRICTENC then true
  else if vchPubKey.length < 33 then false
  else if vchPubKey.getD 0 0 == 0x04 then vchPubKey.length == 65
  else if vchPubKey.getD 0 0 == 0x02 || vchPubKey.getD 0 0 == 0x03 then vchPubKey.length == 33
  else false

/-- `vchMaxModHalfOrder`: half of the order of the generator of secp256k1, less one. -/
def maxModHalfOrder : Nat := 0x7fffffffffffffffffffffffffffffff5d576e7357a4501ddfe92f46681b20a0

def SIGHASH_ALL : UInt32 := 1
def SIGHASH_NONE : UInt32 := 2
def SIGHASH_SINGLE : UInt32 := 3
def SIGHASH_ANYONECANPAY : UInt32 := 0x80

/-- `CKey::CheckSignatureElement` with `half = true`; `CompareBigEndian` compares the values. -/
def checkSignatureElement (vch : List UInt8) : Bool := 0 < beNat vch && beNat vch ≤ maxModHalfOrder

/-- `IsDERSignature`: `<30> <total len> <02> <len R> <R> <02> <len S> <S> <hashtype>`. -/
def isDERSignature (vchSig : Valtype) (fWithHashType fCheckLow : Bool) : Bool :=
  let byte (i : Nat) : Nat := (vchSig.getD i 0).toNat
  let size := vchSig.length
  -- without `SIGHASH_ANYONECANPAY`
  let nHashType := byte (size - 1) % 0x80
  let nLenR := byte 3
  let nLenS := byte (5 + nLenR)
  if size < 9 then false
  else if 73 < size then false
  else if byte 0 != 0x30 then false
  else if byte 1 != size - (if fWithHashType then 3 else 2) then false
  else if fWithHashType && (nHashType < SIGHASH_ALL.toNat || SIGHASH_SINGLE.toNat < nHashType) then
    false
  else if size ≤ 5 + nLenR then false
  else if nLenR + nLenS + (if fWithHashType then 7 else 6) != size then false
  else if byte 2 != 0x02 then false
  else if nLenR == 0 then false
  else if 0x80 ≤ byte 4 then false
  else if 1 < nLenR && byte 4 == 0 && byte 5 < 0x80 then false
  else if byte (4 + nLenR) != 0x02 then false
  else if nLenS == 0 then false
  else if 0x80 ≤ byte (6 + nLenR) then false
  else if 1 < nLenS && byte (6 + nLenR) == 0 && byte (7 + nLenR) < 0x80 then false
  else if fCheckLow && !checkSignatureElement ((vchSig.drop (6 + nLenR)).take nLenS) then false
  else true

def isCanonicalSignature (vchSig : Valtype) (flags : UInt32) : Bool :=
  if !hasFlag flags SCRIPT_VERIFY_STRICTENC then true
  else isDERSignature vchSig true (hasFlag flags SCRIPT_VERIFY_LOW_S)

/-- `CPubKey(vch).IsValid()`: the first byte fixes the length. -/
def pubKeyIsValid (vch : Valtype) : Bool :=
  match vch with
  | [] => false
  | chHeader :: _ =>
    if chHeader == 2 || chHeader == 3 then vch.length == 33
    else if chHeader == 4 || chHeader == 6 || chHeader == 7 then vch.length == 65
    else false

/-! ## Signature hashes -/

/-- The transaction `SignatureHash` hashes; `none` where it returns 1 instead. -/
def signatureTx (scriptCode : CScript) (txTo : CTransaction) (nIn : Nat) (nHashType : UInt32) :
    Option CTransaction :=
  match txTo.vin[nIn]? with
  | none => none
  | some txin =>
    let code := findAndDelete scriptCode [Op.OP_CODESEPARATOR.toByte]
    -- blank out the other inputs' signatures
    let vin := (txTo.vin.map fun t => { t with scriptSig := [] }).set nIn { txin with scriptSig := code }
    let others (vin : List CTxIn) : List CTxIn :=
      vin.mapIdx fun i t => if i != nIn then { t with nSequence := 0 } else t
    let anyone (tx : CTransaction) : CTransaction :=
      if nHashType &&& SIGHASH_ANYONECANPAY != 0 then { tx with vin := (tx.vin.drop nIn).take 1 }
      else tx
    if nHashType &&& 0x1f == SIGHASH_NONE then
      some (anyone { txTo with vin := others vin, vout := [] })
    else if nHashType &&& 0x1f == SIGHASH_SINGLE then
      if txTo.vout.length ≤ nIn then none
      else
        let vout := (txTo.vout.take (nIn + 1)).mapIdx fun i t => if i < nIn then CTxOut.null else t
        some (anyone { txTo with vin := others vin, vout := vout })
    else some (anyone { txTo with vin := vin })

def signatureHash (C : Crypto) (scriptCode : CScript) (txTo : CTransaction) (nIn : Nat)
    (nHashType : UInt32) : Uint256 :=
  match signatureTx scriptCode txTo nIn nHashType with
  | none => 1
  | some txTmp => C.hash (txTmp.serialize ++ leBytes 4 nHashType.toNat)

/-- `CheckSig`. The hash type is one byte tacked on to the end of the signature. -/
def checkSig (C : Crypto) (vchSig vchPubKey : Valtype) (scriptCode : CScript) (txTo : CTransaction)
    (nIn : Nat) (nHashType : UInt32) : Bool :=
  if !pubKeyIsValid vchPubKey then false
  else match vchSig.getLast? with
    | none => false
    | some back =>
      if nHashType != 0 && nHashType != back.toUInt32 then false
      else
        let sighash := signatureHash C scriptCode txTo nIn back.toUInt32
        !vchSig.dropLast.isEmpty && C.verify vchPubKey sighash vchSig.dropLast

/-! ## Lock times -/

def LOCKTIME_THRESHOLD : Int64 := 500000000
def SEQUENCE_FINAL : UInt32 := 0xffffffff
def SEQUENCE_LOCKTIME_DISABLE_FLAG : UInt32 := 0x80000000
def SEQUENCE_LOCKTIME_TYPE_FLAG : UInt32 := 0x00400000
def SEQUENCE_LOCKTIME_MASK : UInt32 := 0x0000ffff

/-- `CheckLockTime` of an input. -/
def checkLockTime (nLockTime : Int64) (txTo : CTransaction) (nIn : Nat) : Bool :=
  let txLockTime := txTo.nLockTime.toUInt64.toInt64
  if !((txLockTime < LOCKTIME_THRESHOLD && nLockTime < LOCKTIME_THRESHOLD) ||
      (LOCKTIME_THRESHOLD ≤ txLockTime && LOCKTIME_THRESHOLD ≤ nLockTime)) then false
  else if txLockTime < nLockTime then false
  else match txTo.vin[nIn]? with
    | none => false
    | some txin => txin.nSequence != SEQUENCE_FINAL

/-- `CheckSequence` of an input. -/
def checkSequence (nSequence : Int64) (txTo : CTransaction) (nIn : Nat) : Bool :=
  match txTo.vin[nIn]? with
  | none => false
  | some txin =>
    let nLockTimeMask := SEQUENCE_LOCKTIME_TYPE_FLAG ||| SEQUENCE_LOCKTIME_MASK
    let typeFlag := SEQUENCE_LOCKTIME_TYPE_FLAG.toUInt64.toInt64
    let txToSequenceMasked := (txin.nSequence &&& nLockTimeMask).toUInt64.toInt64
    let nSequenceMasked := nSequence &&& nLockTimeMask.toUInt64.toInt64
    if txin.nSequence &&& SEQUENCE_LOCKTIME_DISABLE_FLAG != 0 then false
    else if !((txToSequenceMasked < typeFlag && nSequenceMasked < typeFlag) ||
        (typeFlag ≤ txToSequenceMasked && typeFlag ≤ nSequenceMasked)) then false
    else !(txToSequenceMasked < nSequenceMasked)

end NovaCoin
