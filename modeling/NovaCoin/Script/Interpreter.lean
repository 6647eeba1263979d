import NovaCoin.Script.Signature

/-!
# EvalScript and VerifyScript

The interpreter of `script.cpp`. Stacks are lists with the top first. Everything that makes
`EvalScript` return false, an exception included, ends in `error` with the state reached.

Most opcodes do not depend on the verification flags; they are `plainOp`. Four kinds of checks do,
and the state keeps a log of those made (`Check`). The log has no counterpart in the source and
nothing reads it during execution.
-/

namespace NovaCoin

/-! ## Casts -/

/-- `CastToBigNum`; `none` where it throws. -/
def castToBigNum (vch : Valtype) : Option Int :=
  if 4 < vch.length then none else some (setvch (getvch (setvch vch)))

/-- An operand has at most four bytes, so it is far from the limits of 64 bits. -/
theorem natAbs_castToBigNum_lt {vch : Valtype} {n : Int} (h : castToBigNum vch = some n) :
    n.natAbs < 256 ^ 5 := by
  unfold castToBigNum at h
  split at h
  · cases h
  · next hlen =>
    cases h
    have hvch : (setvch vch).natAbs < 128 * 256 ^ 3 :=
      natAbs_mpi2bn_lt (by rw [List.length_reverse]; omega)
    rw [setvch_getvch]
    omega

/-- `CastToBool`. The last byte may be the sign of a negative zero. -/
def castToBool : Valtype → Bool
  | [] => false
  | [b] => b != 0 && b != 0x80
  | b :: rest => b != 0 || castToBool rest

def vchTrue : Valtype := [1]
def vchFalse : Valtype := []

def ofBool (b : Bool) : Valtype := if b then vchTrue else vchFalse

/-! ## Opcodes that only see the stacks -/

structure Stacks where
  stack : List Valtype
  altstack : List Valtype
  vfExec : List Bool
  deriving DecidableEq, Repr

/-- The number a unary opcode leaves. -/
def unaryOp (op : Op) (bn : Int) : Int :=
  match op with
  | .OP_1ADD => bn + 1
  | .OP_1SUB => bn - 1
  | .OP_NEGATE => -bn
  | .OP_ABS => if bn < 0 then -bn else bn
  | .OP_NOT => if bn = 0 then 1 else 0
  | _ => if bn ≠ 0 then 1 else 0  -- OP_0NOTEQUAL

/-- The number a binary opcode leaves. -/
def binaryOp (op : Op) (bn1 bn2 : Int) : Int :=
  let flag (p : Bool) : Int := if p then 1 else 0
  match op with
  | .OP_ADD => bn1 + bn2
  | .OP_SUB => bn1 - bn2
  | .OP_BOOLAND => flag (bn1 ≠ 0 && bn2 ≠ 0)
  | .OP_BOOLOR => flag (bn1 ≠ 0 || bn2 ≠ 0)
  | .OP_NUMEQUAL | .OP_NUMEQUALVERIFY => flag (bn1 = bn2)
  | .OP_NUMNOTEQUAL => flag (bn1 ≠ bn2)
  | .OP_LESSTHAN => flag (bn1 < bn2)
  | .OP_GREATERTHAN => flag (bn2 < bn1)
  | .OP_LESSTHANOREQUAL => flag (bn1 ≤ bn2)
  | .OP_GREATERTHANOREQUAL => flag (bn2 ≤ bn1)
  | .OP_MIN => if bn1 < bn2 then bn1 else bn2
  | _ => if bn2 < bn1 then bn1 else bn2  -- OP_MAX

def hashOp (C : Crypto) (op : Op) (vch : Valtype) : Valtype :=
  match op with
  | .OP_RIPEMD160 => C.ripemd160 vch
  | .OP_SHA1 => C.sha1 vch
  | .OP_SHA256 => C.sha256 vch
  | .OP_HASH160 => C.hash160 vch
  | _ => serializeUint256 (C.hash vch)  -- OP_HASH256

/-- The new stack of the opcodes that rearrange it or compute on it. -/
def stackOp (C : Crypto) (op : Op) (stack : List Valtype) : Option (List Valtype) :=
  match op, stack with
  | .OP_VERIFY, vch :: rest => if castToBool vch then some rest else none
  | .OP_2DROP, _ :: _ :: rest => some rest
  | .OP_2DUP, x2 :: x1 :: rest => some (x2 :: x1 :: x2 :: x1 :: rest)
  | .OP_3DUP, x3 :: x2 :: x1 :: rest => some (x3 :: x2 :: x1 :: x3 :: x2 :: x1 :: rest)
  | .OP_2OVER, x4 :: x3 :: x2 :: x1 :: rest => some (x2 :: x1 :: x4 :: x3 :: x2 :: x1 :: rest)
  | .OP_2ROT, x6 :: x5 :: x4 :: x3 :: x2 :: x1 :: rest =>
    some (x2 :: x1 :: x6 :: x5 :: x4 :: x3 :: rest)
  | .OP_2SWAP, x4 :: x3 :: x2 :: x1 :: rest => some (x2 :: x1 :: x4 :: x3 :: rest)
  | .OP_IFDUP, x :: rest => some (if castToBool x then x :: x :: rest else x :: rest)
  | .OP_DEPTH, stack => some (getvch ((stack.length % 2 ^ 16 : Nat) : Int) :: stack)
  | .OP_DROP, _ :: rest => some rest
  | .OP_DUP, x :: rest => some (x :: x :: rest)
  | .OP_NIP, x2 :: _ :: rest => some (x2 :: rest)
  | .OP_OVER, x2 :: x1 :: rest => some (x1 :: x2 :: x1 :: rest)
  | .OP_PICK, top :: x :: rest =>
    (castToBigNum top).bind fun bn =>
      let n := getint32 bn
      if n < 0 then none else ((x :: rest)[n.toNat]?).map fun vch => vch :: x :: rest
  | .OP_ROLL, top :: x :: rest =>
    (castToBigNum top).bind fun bn =>
      let n := getint32 bn
      if n < 0 then none
      else ((x :: rest)[n.toNat]?).map fun vch => vch :: (x :: rest).eraseIdx n.toNat
  | .OP_ROT, x3 :: x2 :: x1 :: rest => some (x1 :: x3 :: x2 :: rest)
  | .OP_SWAP, x2 :: x1 :: rest => some (x1 :: x2 :: rest)
  | .OP_TUCK, x2 :: x1 :: rest => some (x2 :: x1 :: x2 :: rest)
  | .OP_SIZE, x :: rest => some (getvch ((x.length % 2 ^ 16 : Nat) : Int) :: x :: rest)
  | .OP_EQUAL, x2 :: x1 :: rest => some (ofBool (x1 == x2) :: rest)
  | .OP_EQUALVERIFY, x2 :: x1 :: rest => if x1 == x2 then some rest else none
  | .OP_1ADD, x :: rest | .OP_1SUB, x :: rest | .OP_NEGATE, x :: rest | .OP_ABS, x :: rest
  | .OP_NOT, x :: rest | .OP_0NOTEQUAL, x :: rest =>
    (castToBigNum x).map fun bn => getvch (unaryOp op bn) :: rest
  | .OP_ADD, x2 :: x1 :: rest | .OP_SUB, x2 :: x1 :: rest | .OP_BOOLAND, x2 :: x1 :: rest
  | .OP_BOOLOR, x2 :: x1 :: rest | .OP_NUMEQUAL, x2 :: x1 :: rest
  | .OP_NUMNOTEQUAL, x2 :: x1 :: rest | .OP_LESSTHAN, x2 :: x1 :: rest
  | .OP_GREATERTHAN, x2 :: x1 :: rest | .OP_LESSTHANOREQUAL, x2 :: x1 :: rest
  | .OP_GREATERTHANOREQUAL, x2 :: x1 :: rest | .OP_MIN, x2 :: x1 :: rest
  | .OP_MAX, x2 :: x1 :: rest =>
    (castToBigNum x1).bind fun bn1 => (castToBigNum x2).map fun bn2 =>
      getvch (binaryOp op bn1 bn2) :: rest
  | .OP_NUMEQUALVERIFY, x2 :: x1 :: rest =>
    (castToBigNum x1).bind fun bn1 => (castToBigNum x2).bind fun bn2 =>
      if castToBool (getvch (binaryOp op bn1 bn2)) then some rest else none
  | .OP_WITHIN, x3 :: x2 :: x1 :: rest =>
    (castToBigNum x1).bind fun bn1 => (castToBigNum x2).bind fun bn2 =>
      (castToBigNum x3).map fun bn3 => ofBool (bn2 ≤ bn1 && bn1 < bn3) :: rest
  | .OP_RIPEMD160, x :: rest | .OP_SHA1, x :: rest | .OP_SHA256, x :: rest
  | .OP_HASH160, x :: rest | .OP_HASH256, x :: rest => some (hashOp C op x :: rest)
  | _, _ => none

/-- The opcodes that do not depend on the flags. The last case is also a stack that is too small. -/
def plainOp (C : Crypto) (op : Op) (fExec : Bool) (s : Stacks) : Option Stacks :=
  match op with
  | .OP_1NEGATE | .OP_1 | .OP_2 | .OP_3 | .OP_4 | .OP_5 | .OP_6 | .OP_7 | .OP_8 | .OP_9 | .OP_10
  | .OP_11 | .OP_12 | .OP_13 | .OP_14 | .OP_15 | .OP_16 =>
    some { s with stack := getvch ((op.toByte.toNat : Int) - (Op.OP_1.toByte.toNat - 1)) :: s.stack }
  | .OP_NOP | .OP_NOP1 | .OP_NOP4 | .OP_NOP5 | .OP_NOP6 | .OP_NOP7 | .OP_NOP8 | .OP_NOP9
  | .OP_NOP10 => some s
  | .OP_IF | .OP_NOTIF =>
    if fExec then
      match s.stack with
      | [] => none
      | vch :: rest =>
        let fValue := if op == .OP_NOTIF then !castToBool vch else castToBool vch
        some { s with stack := rest, vfExec := fValue :: s.vfExec }
    else some { s with vfExec := false :: s.vfExec }
  | .OP_ELSE =>
    match s.vfExec with
    | [] => none
    | back :: rest => some { s with vfExec := (!back) :: rest }
  | .OP_ENDIF =>
    match s.vfExec with
    | [] => none
    | _ :: rest => some { s with vfExec := rest }
  | .OP_TOALTSTACK =>
    match s.stack with
    | [] => none
    | vch :: rest => some { s with stack := rest, altstack := vch :: s.altstack }
  | .OP_FROMALTSTACK =>
    match s.altstack with
    | [] => none
    | vch :: rest => some { s with stack := vch :: s.stack, altstack := rest }
  | op => (stackOp C op s.stack).map fun stack => { s with stack := stack }

/-! ## Opcodes with checks -/

/-- A check whose outcome depends on the verification flags. -/
inductive Check
  /-- one signature against one key -/
  | sig (vchSig vchPubKey : Valtype) (scriptCode : CScript)
  /-- `OP_CHECKLOCKTIMEVERIFY` on a stack -/
  | lockTime (stack : List Valtype)
  /-- `OP_CHECKSEQUENCEVERIFY` on a stack -/
  | sequence (stack : List Valtype)
  /-- the extra argument of `OP_CHECKMULTISIG` -/
  | dummy (vch : Valtype)
  deriving DecidableEq, Repr

structure EvalState extends Stacks where
  nOpCount : Nat
  /-- the script from the last code separator on -/
  pbegincodehash : CScript
  log : List Check
  deriving DecidableEq, Repr

/-- The arguments of `EvalScript` other than the stack and the script. -/
structure ScriptContext where
  crypto : Crypto
  txTo : CTransaction
  nIn : Nat
  flags : UInt32
  nHashType : UInt32

namespace ScriptContext

variable (ctx : ScriptContext)

/-- The condition of one signature check. -/
def sigOk (vchSig vchPubKey : Valtype) (scriptCode : CScript) : Bool :=
  isCanonicalSignature vchSig ctx.flags && isCanonicalPubKey vchPubKey ctx.flags &&
    checkSig ctx.crypto vchSig vchPubKey scriptCode ctx.txTo ctx.nIn ctx.nHashType

/-- `OP_CHECKLOCKTIMEVERIFY` where it is enabled. -/
def lockTimeOk : List Valtype → Bool
  | [] => false
  | vch :: _ =>
    match castToBigNum vch with
    | none => false
    | some nLockTime =>
      if nLockTime < 0 then false
      else checkLockTime (getuint64 nLockTime).toInt64 ctx.txTo ctx.nIn

/-- `OP_CHECKSEQUENCEVERIFY` where it is enabled. -/
def sequenceOk : List Valtype → Bool
  | [] => false
  | vch :: _ =>
    match castToBigNum vch with
    | none => false
    | some nSequence =>
      if nSequence < 0 then false
      else if (Int32.ofInt (getint32 nSequence)).toUInt32 &&& SEQUENCE_LOCKTIME_DISABLE_FLAG != 0 then
        true
      else checkSequence (getuint64 nSequence).toInt64 ctx.txTo ctx.nIn

/-- Whether a check lets the script go on. The outcome of a signature check goes on the stack. -/
def passes : Check → Bool
  | .sig .. => true
  | .lockTime stack => !hasFlag ctx.flags SCRIPT_VERIFY_CHECKLOCKTIMEVERIFY || ctx.lockTimeOk stack
  | .sequence stack => !hasFlag ctx.flags SCRIPT_VERIFY_CHECKSEQUENCEVERIFY || ctx.sequenceOk stack
  | .dummy vch => !hasFlag ctx.flags SCRIPT_VERIFY_NULLDUMMY || vch.isEmpty

end ScriptContext

/-- Leaves the outcome of a check on the stack, or nothing for the `VERIFY` form. -/
def pushResult (fVerify fSuccess : Bool) (st : EvalState) : Except EvalState EvalState :=
  if fVerify then (if fSuccess then .ok st else .error st)
  else .ok { st with stack := ofBool fSuccess :: st.stack }

/-- Logs a check and goes on if it passes. -/
def makeCheck (ctx : ScriptContext) (c : Check) (st : EvalState) : Except EvalState EvalState :=
  let st := { st with log := c :: st.log }
  if ctx.passes c then .ok st else .error st

def evalCheckSig (ctx : ScriptContext) (fVerify : Bool) (st : EvalState) :
    Except EvalState EvalState :=
  match st.stack with
  | vchPubKey :: vchSig :: rest =>
    let scriptCode := findAndDelete st.pbegincodehash (pushData vchSig)
    let st := { st with stack := rest, log := .sig vchSig vchPubKey scriptCode :: st.log }
    pushResult fVerify (ctx.sigOk vchSig vchPubKey scriptCode) st
  | _ => .error st

/-- The loop over signatures and keys: each key is tried once, in order. -/
def matchSigs (ctx : ScriptContext) (scriptCode : CScript) :
    List Valtype → List Valtype → List Check → Bool × List Check
  | [], _, log => (true, log)
  | _ :: _, [], log => (false, log)
  | vchSig :: sigs, vchPubKey :: keys, log =>
    let fOk := ctx.sigOk vchSig vchPubKey scriptCode
    let sigs' := if fOk then sigs else vchSig :: sigs
    let log := .sig vchSig vchPubKey scriptCode :: log
    if keys.length < sigs'.length then (false, log)
    else matchSigs ctx scriptCode sigs' keys log
termination_by structural _ keys => keys

/-- Takes the arguments of `CHECKMULTISIG`, `(dummy [sig ...] num_of_signatures [pubkey ...]
num_of_pubkeys -- )`, off the stack. -/
def popMultisig (st : EvalState) :
    Except EvalState (EvalState × List Valtype × List Valtype × Valtype) :=
  match st.stack.head?.bind castToBigNum with
  | none => .error st
  | some bnKeys =>
    let nKeysCount := getint32 bnKeys
    if nKeysCount < 0 || 20 < nKeysCount then .error st
    else
      let nKeys := nKeysCount.toNat
      let st := { st with nOpCount := st.nOpCount + nKeys }
      if 201 < st.nOpCount then .error st
      else match (st.stack[1 + nKeys]?).bind castToBigNum with
        | none => .error st
        | some bnSigs =>
          let nSigsCount := getint32 bnSigs
          if nSigsCount < 0 || nKeysCount < nSigsCount then .error st
          else
            let nSigs := nSigsCount.toNat
            match st.stack.drop (2 + nKeys + nSigs) with
            | [] => .error st
            | vchDummy :: rest =>
              .ok ({ st with stack := rest }, (st.stack.drop 1).take nKeys,
                (st.stack.drop (2 + nKeys)).take nSigs, vchDummy)

def evalCheckMultisig (ctx : ScriptContext) (fVerify : Bool) (st : EvalState) :
    Except EvalState EvalState :=
  match popMultisig st with
  | .error st => .error st
  | .ok (st, keys, sigs, vchDummy) =>
    let scriptCode := sigs.foldl (fun code vchSig => findAndDelete code (pushData vchSig))
      st.pbegincodehash
    let (fSuccess, log) := matchSigs ctx scriptCode sigs keys st.log
    match makeCheck ctx (.dummy vchDummy) { st with log := log } with
    | .error st => .error st
    | .ok st => pushResult fVerify fSuccess st

/-- One executed opcode; `pc` is the script after it. -/
def evalOp (ctx : ScriptContext) (op : Op) (fExec : Bool) (pc : CScript) (st : EvalState) :
    Except EvalState EvalState :=
  match op with
  | .OP_CHECKLOCKTIMEVERIFY => makeCheck ctx (.lockTime st.stack) st
  | .OP_CHECKSEQUENCEVERIFY => makeCheck ctx (.sequence st.stack) st
  | .OP_CODESEPARATOR => .ok { st with pbegincodehash := pc }
  | .OP_CHECKSIG => evalCheckSig ctx false st
  | .OP_CHECKSIGVERIFY => evalCheckSig ctx true st
  | .OP_CHECKMULTISIG => evalCheckMultisig ctx false st
  | .OP_CHECKMULTISIGVERIFY => evalCheckMultisig ctx true st
  | op =>
    match plainOp ctx.crypto op fExec st.toStacks with
    | none => .error st
    | some s => .ok { st with toStacks := s }

/-! ## The loop -/

/-- Pushes the operand, or executes the opcode if the branch is taken or it delimits one. -/
def execOp (ctx : ScriptContext) (opcode : UInt8) (vchPushValue : Valtype) (pc : CScript)
    (st : EvalState) : Except EvalState EvalState :=
  let fExec := st.vfExec.all id
  if fExec && opcode ≤ OP_PUSHDATA4 then .ok { st with stack := vchPushValue :: st.stack }
  else if fExec || (Op.OP_IF.toByte ≤ opcode && opcode ≤ Op.OP_ENDIF.toByte) then
    match Op.ofByte opcode with
    | none => .error st
    | some op => evalOp ctx op fExec pc st
  else .ok st

/-- Opcodes above `OP_16` count towards the limit of operations. -/
def countOp (opcode : UInt8) (st : EvalState) : EvalState :=
  if Op.OP_16.toByte < opcode then { st with nOpCount := st.nOpCount + 1 } else st

/-- The body of the loop for an operation that was read. -/
def evalStep (ctx : ScriptContext) (opcode : UInt8) (vchPushValue : Valtype) (pc : CScript)
    (st : EvalState) : Except EvalState EvalState :=
  let counted := countOp opcode st
  if MAX_SCRIPT_ELEMENT_SIZE < vchPushValue.length then .error st
  else if Op.OP_16.toByte < opcode && 201 < counted.nOpCount then .error counted
  else if ((Op.ofByte opcode).map Op.isDisabled).getD false then .error counted
  else match execOp ctx opcode vchPushValue pc counted with
    | .error st => .error st
    | .ok st => if 1000 < st.stack.length + st.altstack.length then .error st else .ok st

@[semireducible]
def evalLoop (ctx : ScriptContext) (pc : CScript) (st : EvalState) : Except EvalState EvalState :=
  if pc.isEmpty then .ok st
  else match _h : getOp pc with
    | none => .error st
    | some (opcode, vchPushValue, pc') =>
      match evalStep ctx opcode vchPushValue pc' st with
      | .error st => .error st
      | .ok st => evalLoop ctx pc' st
termination_by pc.length
decreasing_by exact length_getOp _h

/-- A run of the loop that succeeds: it is at the end, or one step is followed by a run. -/
theorem evalLoop_ok_iff {ctx : ScriptContext} {pc : CScript} {st st' : EvalState} :
    evalLoop ctx pc st = .ok st' ↔ (pc = [] ∧ st = st') ∨ ∃ opcode vch pc' st₁,
      getOp pc = some (opcode, vch, pc') ∧ evalStep ctx opcode vch pc' st = .ok st₁ ∧
      evalLoop ctx pc' st₁ = .ok st' := by
  rw [evalLoop]
  cases pc with
  | nil => simp [getOp]
  | cons b rest =>
    simp only [List.isEmpty_cons, Bool.false_eq_true, if_false, reduceCtorEq, false_and, false_or]
    split
    · next hop => simp [hop]
    · next opcode vch pc' hop =>
      cases hstep : evalStep ctx opcode vch pc' st with
      | error e => simp [hop, hstep]
      | ok st₁ => simp [hop, hstep]

/-- `EvalScript` on a stack, continuing a log. -/
def evalScript (ctx : ScriptContext) (stack : List Valtype) (script : CScript) (log : List Check) :
    Except EvalState EvalState :=
  let st : EvalState :=
    { stack, altstack := [], vfExec := [], nOpCount := 0, pbegincodehash := script, log }
  if 10000 < script.length then .error st
  else match evalLoop ctx script st with
    | .error st => .error st
    | .ok st => if st.vfExec.isEmpty then .ok st else .error st

/-! ## VerifyScript -/

/-- An `EvalScript` whose result must be true on top of the stack. -/
def evalToTrue (ctx : ScriptContext) (stack : List Valtype) (script : CScript) (log : List Check) :
    Option EvalState :=
  match evalScript ctx stack script log with
  | .error _ => none
  | .ok st =>
    match st.stack with
    | [] => none
    | back :: _ => if castToBool back then some st else none

/-- `VerifyScript` with the log of the checks it made; `none` where it returns false. -/
def verifyScriptLog (ctx : ScriptContext) (scriptSig scriptPubKey : CScript) : Option (List Check) :=
  match evalScript ctx [] scriptSig [] with
  | .error _ => none
  | .ok st =>
    match evalToTrue ctx st.stack scriptPubKey st.log with
    | none => none
    | some st' =>
      if hasFlag ctx.flags SCRIPT_VERIFY_P2SH && isPayToScriptHash scriptPubKey then
        if !isPushOnly scriptSig then none
        else match st.stack with
          | [] => none
          | pubKeySerialized :: stackCopy =>
            (evalToTrue ctx stackCopy pubKeySerialized st'.log).map (·.log)
      else some st'.log

def verifyScript (ctx : ScriptContext) (scriptSig scriptPubKey : CScript) : Bool :=
  (verifyScriptLog ctx scriptSig scriptPubKey).isSome

/-! ## Standard scripts -/

/-- `CKeyID`: the bytes of a `uint160`. -/
abbrev CKeyID := { bytes : List UInt8 // bytes.length = 20 }

/-- `SetDestination` for a key id. -/
def setDestination (keyID : CKeyID) : CScript :=
  [Op.OP_DUP.toByte, Op.OP_HASH160.toByte] ++ pushData keyID.1 ++
    [Op.OP_EQUALVERIFY.toByte, Op.OP_CHECKSIG.toByte]

end NovaCoin
