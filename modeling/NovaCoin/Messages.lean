import NovaCoin.Unserialize

/-!
# Messages

`CMessageHeader` (`protocol.h`, `protocol.cpp`): the start bytes, the command, the size of the
message and its checksum.
-/

namespace NovaCoin

open List

open Wire (ByteStream Reader Reads)

/-- `pchMessageStart`, which also precedes every block in a block file. -/
def pchMessageStart (fTestNet : Bool) : List UInt8 :=
  if fTestNet then [0xcd, 0xf2, 0xc0, 0xef] else [0xe4, 0xe8, 0xe9, 0xe5]

@[simp] theorem length_pchMessageStart (fTestNet : Bool) :
    (pchMessageStart fTestNet).length = 4 := by
  cases fTestNet <;> rfl

structure CMessageHeader where
  pchMessageStart : List UInt8
  pchCommand : List UInt8
  nMessageSize : UInt32
  nChecksum : UInt32
  deriving DecidableEq, Repr

namespace CMessageHeader

def COMMAND_SIZE : Nat := 12

/-- `vRecv.GetSerializeSize(CMessageHeader())`. -/
def nHeaderSize : Nat := 4 + COMMAND_SIZE + 4 + 4

def unserialize {σ : Type} [ByteStream σ] : Reader σ CMessageHeader := do
  let pchMessageStart ← Wire.take 4
  let pchCommand ← Wire.take COMMAND_SIZE
  let nMessageSize ← readUInt32
  let nChecksum ← readUInt32
  return ⟨pchMessageStart, pchCommand, nMessageSize, nChecksum⟩

/-- The header that the first `nHeaderSize` bytes are. -/
def ofBytes (w : List UInt8) : CMessageHeader :=
  ⟨w.take 4, (w.drop 4).take COMMAND_SIZE, UInt32.ofNat (leNat ((w.drop 16).take 4)),
    UInt32.ofNat (leNat ((w.drop 20).take 4))⟩

theorem reads {σ : Type} [ByteStream σ] {w : List UInt8} (h : w.length = nHeaderSize) :
    Reads (σ := σ) unserialize w (ofBytes w) := by
  have hlen : w.length = 24 := h
  have hword : ∀ v : List UInt8, v.length = 4 →
      Reads (σ := σ) readUInt32 v (UInt32.ofNat (leNat v)) := by
    intro v hv
    have hv' := ((Reads.take (σ := σ) v).map leNat).map UInt32.ofNat
    rwa [hv] at hv'
  have hbytes : ∀ (n : Nat) (v : List UInt8), v.length = n → Reads (σ := σ) (Wire.take n) v v := by
    rintro _ v rfl
    exact Reads.take v
  have hsplit : w = w.take 4 ++ ((w.drop 4).take COMMAND_SIZE ++ ((w.drop 16).take 4 ++
      (w.drop 20).take 4)) := by
    have h₃ : (w.drop 20).take 4 = w.drop 20 := take_of_length_le (by simp; omega)
    have h₂ : (w.drop 16).take 4 ++ w.drop 20 = w.drop 16 := by
      rw [← drop_drop (i := 4) (j := 16), take_append_drop]
    have h₁ : (w.drop 4).take COMMAND_SIZE ++ w.drop 16 = w.drop 4 := by
      rw [← drop_drop (i := 12) (j := 4)]
      exact take_append_drop _ _
    rw [h₃, h₂, h₁, take_append_drop]
  have h := (hbytes 4 (w.take 4) (by simp; omega)).bind
    (f := fun start => do
      let pchCommand ← Wire.take COMMAND_SIZE
      let nMessageSize ← readUInt32
      let nChecksum ← readUInt32
      return CMessageHeader.mk start pchCommand nMessageSize nChecksum)
    ((hbytes COMMAND_SIZE ((w.drop 4).take COMMAND_SIZE) (by simp [COMMAND_SIZE]; omega)).bind
      ((hword ((w.drop 16).take 4) (by simp; omega)).bind
        ((hword ((w.drop 20).take 4) (by simp; omega)).map
          (CMessageHeader.mk (w.take 4) ((w.drop 4).take COMMAND_SIZE)
            (UInt32.ofNat (leNat ((w.drop 16).take 4)))))))
  rw [← hsplit] at h
  exact h

/-- `GetCommand`: up to the first zero, if the last byte is one. -/
def getCommand (hdr : CMessageHeader) : List UInt8 :=
  if hdr.pchCommand.getLast? == some 0 then hdr.pchCommand.takeWhile (· != 0) else hdr.pchCommand

/-- The check of the command in `IsValid`: printable characters, and only zeros after the first
zero. -/
def commandOk : List UInt8 → Bool
  | [] => true
  | c :: rest =>
    if c == 0 then rest.all (· == 0)
    else 0x20 ≤ c && c ≤ 0x7E && commandOk rest

def isValid (fTestNet : Bool) (hdr : CMessageHeader) : Bool :=
  hdr.pchMessageStart == NovaCoin.pchMessageStart fTestNet && commandOk hdr.pchCommand &&
    hdr.nMessageSize.toNat ≤ MAX_SIZE

end CMessageHeader

def headerBytes (hdr : CMessageHeader) : List UInt8 :=
  hdr.pchMessageStart ++ (hdr.pchCommand ++
    (leBytes 4 hdr.nMessageSize.toNat ++ leBytes 4 hdr.nChecksum.toNat))

/-! ## ProcessMessages

The loop that cuts messages off the receive buffer of a peer (`main.cpp`). The send buffer is
never full here, and `ProcessMessage` is any function of what it has been given so far; an
exception that it throws counts as `false`, as it does in the source. -/

/-- What `ProcessMessage` is given. -/
structure Message where
  strCommand : List UInt8
  vMsg : List UInt8
  deriving DecidableEq, Repr

/-- Why `ProcessMessages` returned `false`, or ended with an exception. -/
inductive Closed
  | header
  | checksum
  | message
  | exception (what : String)
  deriving DecidableEq, Repr

/-- A peer: its receive buffer, what was given to `ProcessMessage`, and the state that works on. -/
structure CNode (σ : Type) where
  vRecv : CDataStream
  messages : List Message
  state : σ

/-- `std::search`: where the pattern first begins, or the end. -/
def search (pattern : List UInt8) : List UInt8 → Nat
  | [] => 0
  | c :: l => if pattern.isPrefixOf (c :: l) then 0 else search pattern l + 1

/-- The first four bytes of the hash of a message. -/
def messageChecksum (crypto : Crypto) (vMsg : List UInt8) : UInt32 :=
  UInt32.ofNat (crypto.hash vMsg).toNat

/-- How the body of the loop ends. -/
inductive Iteration (σ : Type)
  | brk (pfrom : CNode σ)
  | cont (pfrom : CNode σ)
  | ret (pfrom : CNode σ) (why : Closed)

section

variable {σ : Type} (crypto : Crypto) (fTestNet : Bool) (processMessage : σ → Message → σ × Bool)

open CMessageHeader (nHeaderSize)

/-- From the checksum of a complete message on. -/
def takeMessage (pfrom : CNode σ) (vRecv : CDataStream) (hdr : CMessageHeader) : Iteration σ :=
  let nMessageSize := hdr.nMessageSize.toNat
  let vMsg := vRecv.bytes.take nMessageSize
  if messageChecksum crypto vMsg != hdr.nChecksum then .ret { pfrom with vRecv } .checksum
  else
    match vRecv.ignore nMessageSize with
    | .error what => .ret { pfrom with vRecv } (.exception what)
    | .ok vRecv =>
      let message : Message := ⟨hdr.getCommand, vMsg⟩
      let (state, fRet) := processMessage pfrom.state message
      let pfrom : CNode σ := ⟨vRecv, pfrom.messages ++ [message], state⟩
      if fRet then .cont pfrom else .ret pfrom .message

/-- The body of the loop of `ProcessMessages`. `(int)vRecv.size()` is negative for a buffer of
2 GB. -/
def iteration (pfrom : CNode σ) : Iteration σ :=
  let vRecv := pfrom.vRecv
  let pstart := search (pchMessageStart fTestNet) vRecv.bytes
  if vRecv.bytes.length - pstart < nHeaderSize then
    if nHeaderSize < (Int32.ofNat vRecv.bytes.length).toInt then
      .brk { pfrom with vRecv := vRecv.eraseFront (vRecv.bytes.length - nHeaderSize) }
    else .brk pfrom
  else
    let vRecv := vRecv.eraseFront pstart
    let vHeaderSave := vRecv.bytes.take nHeaderSize
    match CMessageHeader.unserialize vRecv with
    | .error what => .ret { pfrom with vRecv } (.exception what)
    | .ok (hdr, vRecv) =>
      if !hdr.isValid fTestNet then .ret { pfrom with vRecv } .header
      else if MAX_SIZE < hdr.nMessageSize.toNat then .cont { pfrom with vRecv }
      else if vRecv.bytes.length < hdr.nMessageSize.toNat then
        .brk { pfrom with vRecv := vRecv.insertFront vHeaderSave }
      else takeMessage crypto processMessage pfrom vRecv hdr

/-- The loop of `ProcessMessages`. Every round takes a header off the buffer. -/
def messageLoop : Nat → CNode σ → Option (CNode σ × Option Closed)
  | 0, _ => none
  | fuel + 1, pfrom =>
    match iteration crypto fTestNet processMessage pfrom with
    | .brk pfrom => some ({ pfrom with vRecv := pfrom.vRecv.compact }, none)
    | .cont pfrom => messageLoop fuel pfrom
    | .ret pfrom why => some (pfrom, some why)

def processMessages (pfrom : CNode σ) : Option (CNode σ × Option Closed) :=
  if pfrom.vRecv.vch.length = pfrom.vRecv.nReadPos then some (pfrom, none)
  else messageLoop crypto fTestNet processMessage (pfrom.vRecv.bytes.length + 1) pfrom

/-- A chunk arrives and `ProcessMessages` is called, unless the connection was closed. -/
def receive : CNode σ × Option Closed → List UInt8 → Option (CNode σ × Option Closed)
  | (pfrom, some why), _ => some (pfrom, some why)
  | (pfrom, none), chunk =>
    processMessages crypto fTestNet processMessage { pfrom with vRecv := pfrom.vRecv.append chunk }

/-- All chunks, one after the other. -/
def receiveAll (node : CNode σ × Option Closed) (chunks : List (List UInt8)) :
    Option (CNode σ × Option Closed) :=
  chunks.foldlM (receive crypto fTestNet processMessage) node

end

end NovaCoin
