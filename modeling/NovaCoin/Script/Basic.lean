import NovaCoin.Bignum
import NovaCoin.Serialize

/-!
# Scripts

The opcodes and the class `CScript` of `script.h`: reading operations, pushing data, removing a
pattern, counting signature operations. A `const_iterator` into a script is the rest of the
script from there.
-/

namespace NovaCoin

open List

/-- The opcodes above the immediate pushes; a number in a name is spelled as in the source. -/
inductive Op
  | OP_1NEGATE | OP_RESERVED
  | OP_1 | OP_2 | OP_3 | OP_4 | OP_5 | OP_6 | OP_7 | OP_8
  | OP_9 | OP_10 | OP_11 | OP_12 | OP_13 | OP_14 | OP_15 | OP_16
  -- control
  | OP_NOP | OP_VER | OP_IF | OP_NOTIF | OP_VERIF | OP_VERNOTIF | OP_ELSE | OP_ENDIF | OP_VERIFY
  | OP_RETURN | OP_CHECKLOCKTIMEVERIFY | OP_CHECKSEQUENCEVERIFY
  -- stack ops
  | OP_TOALTSTACK | OP_FROMALTSTACK | OP_2DROP | OP_2DUP | OP_3DUP | OP_2OVER | OP_2ROT | OP_2SWAP
  | OP_IFDUP | OP_DEPTH | OP_DROP | OP_DUP | OP_NIP | OP_OVER | OP_PICK | OP_ROLL | OP_ROT
  | OP_SWAP | OP_TUCK
  -- splice ops
  | OP_CAT | OP_SUBSTR | OP_LEFT | OP_RIGHT | OP_SIZE
  -- bit logic
  | OP_INVERT | OP_AND | OP_OR | OP_XOR | OP_EQUAL | OP_EQUALVERIFY | OP_RESERVED1 | OP_RESERVED2
  -- numeric
  | OP_1ADD | OP_1SUB | OP_2MUL | OP_2DIV | OP_NEGATE | OP_ABS | OP_NOT | OP_0NOTEQUAL
  | OP_ADD | OP_SUB | OP_MUL | OP_DIV | OP_MOD | OP_LSHIFT | OP_RSHIFT
  | OP_BOOLAND | OP_BOOLOR | OP_NUMEQUAL | OP_NUMEQUALVERIFY | OP_NUMNOTEQUAL | OP_LESSTHAN
  | OP_GREATERTHAN | OP_LESSTHANOREQUAL | OP_GREATERTHANOREQUAL | OP_MIN | OP_MAX | OP_WITHIN
  -- crypto
  | OP_RIPEMD160 | OP_SHA1 | OP_SHA256 | OP_HASH160 | OP_HASH256 | OP_CODESEPARATOR
  | OP_CHECKSIG | OP_CHECKSIGVERIFY | OP_CHECKMULTISIG | OP_CHECKMULTISIGVERIFY
  -- expansion
  | OP_NOP1 | OP_NOP4 | OP_NOP5 | OP_NOP6 | OP_NOP7 | OP_NOP8 | OP_NOP9 | OP_NOP10
  deriving DecidableEq, Repr

namespace Op

/-- The opcodes with their bytes, in the order of the bytes. -/
def table : List (UInt8 × Op) :=
  [(0x4f, OP_1NEGATE), (0x50, OP_RESERVED), (0x51, OP_1), (0x52, OP_2), (0x53, OP_3),
   (0x54, OP_4), (0x55, OP_5), (0x56, OP_6), (0x57, OP_7), (0x58, OP_8), (0x59, OP_9),
   (0x5a, OP_10), (0x5b, OP_11), (0x5c, OP_12), (0x5d, OP_13), (0x5e, OP_14), (0x5f, OP_15),
   (0x60, OP_16), (0x61, OP_NOP), (0x62, OP_VER), (0x63, OP_IF), (0x64, OP_NOTIF),
   (0x65, OP_VERIF), (0x66, OP_VERNOTIF), (0x67, OP_ELSE), (0x68, OP_ENDIF), (0x69, OP_VERIFY),
   (0x6a, OP_RETURN), (0x6b, OP_TOALTSTACK), (0x6c, OP_FROMALTSTACK), (0x6d, OP_2DROP),
   (0x6e, OP_2DUP), (0x6f, OP_3DUP), (0x70, OP_2OVER), (0x71, OP_2ROT), (0x72, OP_2SWAP),
   (0x73, OP_IFDUP), (0x74, OP_DEPTH), (0x75, OP_DROP), (0x76, OP_DUP), (0x77, OP_NIP),
   (0x78, OP_OVER), (0x79, OP_PICK), (0x7a, OP_ROLL), (0x7b, OP_ROT), (0x7c, OP_SWAP),
   (0x7d, OP_TUCK), (0x7e, OP_CAT), (0x7f, OP_SUBSTR), (0x80, OP_LEFT), (0x81, OP_RIGHT),
   (0x82, OP_SIZE), (0x83, OP_INVERT), (0x84, OP_AND), (0x85, OP_OR), (0x86, OP_XOR),
   (0x87, OP_EQUAL), (0x88, OP_EQUALVERIFY), (0x89, OP_RESERVED1), (0x8a, OP_RESERVED2),
   (0x8b, OP_1ADD), (0x8c, OP_1SUB), (0x8d, OP_2MUL), (0x8e, OP_2DIV), (0x8f, OP_NEGATE),
   (0x90, OP_ABS), (0x91, OP_NOT), (0x92, OP_0NOTEQUAL), (0x93, OP_ADD), (0x94, OP_SUB),
   (0x95, OP_MUL), (0x96, OP_DIV), (0x97, OP_MOD), (0x98, OP_LSHIFT), (0x99, OP_RSHIFT),
   (0x9a, OP_BOOLAND), (0x9b, OP_BOOLOR), (0x9c, OP_NUMEQUAL), (0x9d, OP_NUMEQUALVERIFY),
   (0x9e, OP_NUMNOTEQUAL), (0x9f, OP_LESSTHAN), (0xa0, OP_GREATERTHAN),
   (0xa1, OP_LESSTHANOREQUAL), (0xa2, OP_GREATERTHANOREQUAL), (0xa3, OP_MIN), (0xa4, OP_MAX),
   (0xa5, OP_WITHIN), (0xa6, OP_RIPEMD160), (0xa7, OP_SHA1), (0xa8, OP_SHA256),
   (0xa9, OP_HASH160), (0xaa, OP_HASH256), (0xab, OP_CODESEPARATOR), (0xac, OP_CHECKSIG),
   (0xad, OP_CHECKSIGVERIFY), (0xae, OP_CHECKMULTISIG), (0xaf, OP_CHECKMULTISIGVERIFY),
   (0xb0, OP_NOP1), (0xb1, OP_CHECKLOCKTIMEVERIFY), (0xb2, OP_CHECKSEQUENCEVERIFY),
   (0xb3, OP_NOP4), (0xb4, OP_NOP5), (0xb5, OP_NOP6), (0xb6, OP_NOP7), (0xb7, OP_NOP8),
   (0xb8, OP_NOP9), (0xb9, OP_NOP10)]

/-- The opcode of a byte; the template parameters and unassigned bytes have none. -/
def ofByte (b : UInt8) : Option Op := (table.find? (·.1 == b)).map (·.2)

/-- The byte of an opcode. -/
def toByte (op : Op) : UInt8 := ((table.find? (·.2 == op)).map (·.1)).getD 0xff

/-- Opcodes that `EvalScript` refuses even in a branch that is not executed. -/
def isDisabled : Op → Bool
  | OP_CAT | OP_SUBSTR | OP_LEFT | OP_RIGHT | OP_INVERT | OP_AND | OP_OR | OP_XOR | OP_2MUL
  | OP_2DIV | OP_MUL | OP_DIV | OP_MOD | OP_LSHIFT | OP_RSHIFT => true
  | _ => false

end Op

def OP_PUSHDATA1 : UInt8 := 0x4c
def OP_PUSHDATA2 : UInt8 := 0x4d
def OP_PUSHDATA4 : UInt8 := 0x4e
def OP_INVALIDOPCODE : UInt8 := 0xff

def MAX_SCRIPT_ELEMENT_SIZE : Nat := 520

/-! ## Reading and writing -/

/-- The length word of an immediate operand and what follows it. -/
def readPushSize (opcode : UInt8) (pc : CScript) : Option (Nat × CScript) :=
  let word (w : Nat) := if pc.length < w then none else some (leNat (pc.take w), pc.drop w)
  if opcode < OP_PUSHDATA1 then some (opcode.toNat, pc)
  else if opcode == OP_PUSHDATA1 then word 1
  else if opcode == OP_PUSHDATA2 then word 2
  else word 4

/-- `GetOp2`: the opcode, its operand and the position after it. -/
def getOp : CScript → Option (UInt8 × Valtype × CScript)
  | [] => none
  | opcode :: pc =>
    if opcode ≤ OP_PUSHDATA4 then
      match readPushSize opcode pc with
      | none => none
      | some (nSize, pc) =>
        if pc.length < nSize then none else some (opcode, pc.take nSize, pc.drop nSize)
    else some (opcode, [], pc)

/-- `CScript() << b`. -/
def pushData (b : Valtype) : CScript :=
  if b.length < OP_PUSHDATA1.toNat then UInt8.ofNat b.length :: b
  else if b.length ≤ 0xff then OP_PUSHDATA1 :: UInt8.ofNat b.length :: b
  else if b.length ≤ 0xffff then OP_PUSHDATA2 :: leBytes 2 b.length ++ b
  else OP_PUSHDATA4 :: leBytes 4 b.length ++ b

variable {opcode : UInt8} {vch : Valtype}

theorem readPushSize_append {pc pc' : CScript} {n : Nat}
    (h : readPushSize opcode pc = some (n, pc')) :
    ∃ v, pc = v ++ pc' ∧ ∀ rest, readPushSize opcode (v ++ rest) = some (n, rest) := by
  have hword (w : Nat) (hw : ¬ pc.length < w)
      (h : some (leNat (pc.take w), pc.drop w) = some (n, pc')) :
      ∃ v, pc = v ++ pc' ∧ ∀ rest : CScript, (if (v ++ rest).length < w then none
        else some (leNat ((v ++ rest).take w), (v ++ rest).drop w)) = some (n, rest) := by
    cases h
    have hlen : (pc.take w).length = w := length_take_of_le (by omega)
    refine ⟨pc.take w, (take_append_drop w pc).symm, fun rest => ?_⟩
    rw [take_left' hlen, drop_left' hlen, if_neg (by simp [hlen])]
  simp only [readPushSize] at h ⊢
  split_ifs at h ⊢
  · cases h
    exact ⟨[], rfl, fun _ => rfl⟩
  · next hw => exact hword 1 hw h
  · next hw => exact hword 2 hw h
  · next hw => exact hword 4 hw h

/-- An operation is read off the front, whatever follows. -/
theorem getOp_append {pc pc' : CScript} (h : getOp pc = some (opcode, vch, pc')) :
    ∃ w, pc = w ++ pc' ∧ ∀ rest, getOp (w ++ rest) = some (opcode, vch, rest) := by
  cases pc with
  | nil => cases h
  | cons op pc =>
    simp only [getOp] at h
    split at h
    · next hpush =>
      split at h
      · cases h
      · next nSize after hsize =>
        obtain ⟨v, rfl, hread⟩ := readPushSize_append hsize
        split at h
        · cases h
        · next hlen =>
          cases h
          have htake : (after.take nSize).length = nSize := length_take_of_le (by omega)
          refine ⟨opcode :: (v ++ after.take nSize), by simp, fun rest => ?_⟩
          rw [cons_append, append_assoc, getOp, if_pos hpush, hread]
          simp [take_left' htake, drop_left' htake, htake]
    · next hpush =>
      cases h
      exact ⟨[opcode], rfl, fun rest => by rw [singleton_append, getOp, if_neg hpush]⟩

/-- Reading an operation moves on. -/
theorem length_getOp {pc pc' : CScript} (h : getOp pc = some (opcode, vch, pc')) :
    pc'.length < pc.length := by
  obtain ⟨w, rfl, hw⟩ := getOp_append h
  cases w with
  | nil => cases hw []
  | cons b w => simp

/-! ## Scanning a script -/

@[semireducible]
def isPushOnly (pc : CScript) : Bool :=
  if pc.isEmpty then true
  else match _h : getOp pc with
    | none => false
    | some (opcode, _, pc') => if Op.OP_16.toByte < opcode then false else isPushOnly pc'
termination_by pc.length
decreasing_by exact length_getOp _h

def isPayToScriptHash (script : CScript) : Bool :=
  script.length == 23 && script.getD 0 0 == Op.OP_HASH160.toByte && script.getD 1 0 == 0x14 &&
    script.getD 22 0 == Op.OP_EQUAL.toByte

/-- `DecodeOP_N` for the opcodes `OP_1` to `OP_16`. -/
def decodeOpN (opcode : UInt8) : Nat := (opcode - (Op.OP_1.toByte - 1)).toNat

/-- The loop of `GetSigOpCount(bool)`. -/
@[semireducible]
def countSigOps (fAccurate : Bool) (pc : CScript) (lastOpcode : UInt8) (n : Nat) : Nat :=
  match h : getOp pc with
  | none => n
  | some (opcode, _, pc') =>
    let n' :=
      if opcode == Op.OP_CHECKSIG.toByte || opcode == Op.OP_CHECKSIGVERIFY.toByte then n + 1
      else if opcode == Op.OP_CHECKMULTISIG.toByte || opcode == Op.OP_CHECKMULTISIGVERIFY.toByte then
        if fAccurate && Op.OP_1.toByte ≤ lastOpcode && lastOpcode ≤ Op.OP_16.toByte then
          n + decodeOpN lastOpcode
        else n + 20
      else n
    countSigOps fAccurate pc' opcode n'
termination_by pc.length
decreasing_by exact length_getOp h

def getSigOpCount (script : CScript) (fAccurate : Bool) : Nat :=
  countSigOps fAccurate script OP_INVALIDOPCODE 0

/-- The last item a script of pushes puts on the stack; `none` if it is not one. -/
@[semireducible]
def lastPush (pc : CScript) (data : Valtype) : Option Valtype :=
  if pc.isEmpty then some data
  else match _h : getOp pc with
    | none => none
    | some (opcode, data', pc') => if Op.OP_16.toByte < opcode then none else lastPush pc' data'
termination_by pc.length
decreasing_by exact length_getOp _h

/-- `GetSigOpCount(const CScript& scriptSig)`. -/
def getP2SHSigOpCount (scriptPubKey scriptSig : CScript) : Nat :=
  if !isPayToScriptHash scriptPubKey then getSigOpCount scriptPubKey true
  else match lastPush scriptSig [] with
    | none => 0
    | some data => getSigOpCount data true

theorem length_drop_lt {b pc : CScript} (h : b ≠ [] ∧ b.isPrefixOf pc) :
    (pc.drop b.length).length < pc.length := by
  have hb := length_pos_iff.mpr h.1
  have hp := ( isPrefixOf_iff_prefix.mp h.2).length_le
  rw [length_drop]
  omega

/-- The inner loop of `FindAndDelete`: copies of `b` right at the iterator are erased. -/
@[semireducible]
def eraseCopies (b pc : CScript) : CScript :=
  if _h : b ≠ [] ∧ b.isPrefixOf pc then eraseCopies b (pc.drop b.length) else pc
termination_by pc.length
decreasing_by exact length_drop_lt _h

/-- By how much the inner loop raises `nFound`. -/
@[semireducible]
def countCopies (b pc : CScript) : Nat :=
  if _h : b ≠ [] ∧ b.isPrefixOf pc then countCopies b (pc.drop b.length) + 1 else 0
termination_by pc.length
decreasing_by exact length_drop_lt _h

theorem length_eraseCopies (b pc : CScript) : (eraseCopies b pc).length ≤ pc.length := by
  fun_induction eraseCopies b pc with
  | case1 pc h ih =>
    rw [length_drop] at ih
    omega
  | case2 pc h => exact le_rfl

/-- The loop of `FindAndDelete` from an iterator on: what is left of the script there. -/
@[semireducible]
def findAndDeleteFrom (b pc : CScript) : CScript :=
  match _h : getOp (eraseCopies b pc) with
  | none => eraseCopies b pc
  | some (_, _, pc') =>
    (eraseCopies b pc).take ((eraseCopies b pc).length - pc'.length) ++ findAndDeleteFrom b pc'
termination_by pc.length
decreasing_by exact (length_getOp _h).trans_le (length_eraseCopies b pc)

/-- By how much the loop raises `nFound` from an iterator on. -/
@[semireducible]
def nFoundFrom (b pc : CScript) : Nat :=
  match _h : getOp (eraseCopies b pc) with
  | none => countCopies b pc
  | some (_, _, pc') => countCopies b pc + nFoundFrom b pc'
termination_by pc.length
decreasing_by exact (length_getOp _h).trans_le (length_eraseCopies b pc)

/-- `FindAndDelete`: removes the pattern wherever it starts at an operation. -/
def findAndDelete (script b : CScript) : CScript :=
  if b.isEmpty then script else findAndDeleteFrom b script

/-- What `FindAndDelete` returns. -/
def nFound (script b : CScript) : Nat := if b.isEmpty then 0 else nFoundFrom b script

example : findAndDelete [0x51, 0x02, 0xaa, 0xbb, 0x02, 0xaa, 0xbb, 0x52] [0x02, 0xaa, 0xbb] =
    [0x51, 0x52] := by decide

end NovaCoin
