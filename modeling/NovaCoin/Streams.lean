import Mathlib.Algebra.GroupWithZero.Nat
import NovaCoin.Infra.Wire

/-!
# Streams

The two streams objects are unserialized from (`streams.h`, `streams.cpp`): the buffer
`CDataStream` of the network code and of the database, and `CAutoFile` around a block file.
-/

namespace NovaCoin

open List

open Wire (ByteStream)

/-- The bytes of the buffer and how many of them, an `unsigned int`, have been read. -/
structure CDataStream where
  vch : List UInt8
  nReadPos : Nat
  deriving DecidableEq, Repr

namespace CDataStream

/-- A stream constructed over given bytes. -/
def new (bytes : List UInt8) : CDataStream := ⟨bytes, 0⟩

/-- The bytes from `begin()` to `end()`. -/
def bytes (s : CDataStream) : List UInt8 := s.vch.drop s.nReadPos

/-- `CDataStream::read`. At its end the buffer is cleared; `setstate` throws, as `failbit` is in the
exception mask. -/
def read (nSize : Nat) (s : CDataStream) : Except String (List UInt8 × CDataStream) :=
  let nReadPosNext := (s.nReadPos + nSize) % 2 ^ 32
  if s.vch.length ≤ nReadPosNext then
    if s.vch.length < nReadPosNext then .error "CDataStream::read() : end of data"
    else .ok (s.bytes.take nSize, ⟨[], 0⟩)
  else .ok (s.bytes.take nSize, { s with nReadPos := nReadPosNext })

/-- `resize(size() + n)` and a copy of `n` bytes to the end. -/
def append (s : CDataStream) (pch : List UInt8) : CDataStream := { s with vch := s.vch ++ pch }

/-- `erase(begin(), begin() + n)`. -/
def eraseFront (s : CDataStream) (n : Nat) : CDataStream :=
  if s.nReadPos + n = s.vch.length then ⟨[], 0⟩
  else { s with nReadPos := (s.nReadPos + n) % 2 ^ 32 }

/-- `insert(begin(), ..)`, over what has been read if there is room. -/
def insertFront (s : CDataStream) (data : List UInt8) : CDataStream :=
  if data.length ≤ s.nReadPos then
    let nReadPos := s.nReadPos - data.length
    ⟨s.vch.take nReadPos ++ data ++ s.vch.drop s.nReadPos, nReadPos⟩
  else { s with vch := s.vch.take s.nReadPos ++ data ++ s.vch.drop s.nReadPos }

def ignore (nSize : Nat) (s : CDataStream) : Except String CDataStream :=
  let nReadPosNext := (s.nReadPos + nSize) % 2 ^ 32
  if s.vch.length ≤ nReadPosNext then
    if s.vch.length < nReadPosNext then .error "CDataStream::ignore() : end of data"
    else .ok ⟨[], 0⟩
  else .ok { s with nReadPos := nReadPosNext }

def compact (s : CDataStream) : CDataStream := ⟨s.vch.drop s.nReadPos, 0⟩

/-- The position is inside a buffer that an `unsigned int` can index. -/
structure Valid (s : CDataStream) : Prop where
  nReadPos_le : s.nReadPos ≤ s.vch.length
  length_lt : s.vch.length < 2 ^ 32

theorem valid_new {v : List UInt8} (h : v.length < 2 ^ 32) : (new v).Valid :=
  ⟨Nat.zero_le _, h⟩

@[simp] theorem bytes_new (v : List UInt8) : (new v).bytes = v := rfl

variable {s : CDataStream}

theorem Valid.length_eq (h : s.Valid) : s.vch.length = s.nReadPos + s.bytes.length := by
  have := h.nReadPos_le
  rw [bytes, length_drop]
  omega

/-- As long as there are `nSize` bytes, they are read and the rest is left. -/
theorem Valid.read_eq (h : s.Valid) (nSize : Nat) (hn : nSize ≤ s.bytes.length) :
    ∃ s', s.read nSize = .ok (s.bytes.take nSize, s') ∧ s'.Valid ∧
      s'.bytes = s.bytes.drop nSize := by
  have hlen := h.length_eq
  have hlt := h.length_lt
  have hnext : (s.nReadPos + nSize) % 2 ^ 32 = s.nReadPos + nSize := Nat.mod_eq_of_lt (by omega)
  have hbytes : s.bytes.drop nSize = s.vch.drop (s.nReadPos + nSize) := by
    rw [bytes, drop_drop]
  unfold read
  simp only [hnext, hbytes]
  by_cases hend : s.vch.length ≤ s.nReadPos + nSize
  · -- the end of the buffer: it is cleared
    rw [if_pos hend, if_neg (by omega), drop_of_length_le hend]
    exact ⟨_, rfl, ⟨Nat.le_refl 0, Nat.two_pow_pos 32⟩, rfl⟩
  · rw [if_neg hend]
    exact ⟨_, rfl, ⟨by simp only; omega, hlt⟩, rfl⟩

theorem ignore_of_read {nSize : Nat} {pch : List UInt8} {s' : CDataStream}
    (h : s.read nSize = .ok (pch, s')) : s.ignore nSize = .ok s' := by
  unfold read at h
  unfold ignore
  simp only at h ⊢
  split_ifs at h ⊢ <;> cases h <;> rfl

theorem Valid.ignore_eq (h : s.Valid) (nSize : Nat) (hn : nSize ≤ s.bytes.length) :
    ∃ s', s.ignore nSize = .ok s' ∧ s'.Valid ∧ s'.bytes = s.bytes.drop nSize := by
  obtain ⟨s', hread, hs'⟩ := h.read_eq nSize hn
  exact ⟨s', ignore_of_read hread, hs'⟩

theorem Valid.eraseFront (h : s.Valid) {n : Nat} (hn : n ≤ s.bytes.length) :
    (s.eraseFront n).Valid ∧ (s.eraseFront n).bytes = s.bytes.drop n := by
  have hlen := h.length_eq
  have hlt := h.length_lt
  have hbytes : s.bytes.drop n = s.vch.drop (s.nReadPos + n) := by
    rw [bytes, drop_drop]
  unfold CDataStream.eraseFront
  rw [hbytes]
  split
  · next hend =>
    rw [drop_of_length_le (Nat.le_of_eq hend.symm)]
    exact ⟨⟨Nat.le_refl 0, Nat.two_pow_pos 32⟩, rfl⟩
  · have hmod : (s.nReadPos + n) % 2 ^ 32 = s.nReadPos + n := Nat.mod_eq_of_lt (by omega)
    rw [hmod]
    exact ⟨⟨by simp only; omega, hlt⟩, rfl⟩

theorem bytes_insertFront (h : s.Valid) (data : List UInt8) :
    (s.insertFront data).bytes = data ++ s.bytes := by
  have hpos := h.nReadPos_le
  unfold insertFront
  split
  · next hroom =>
    have htake : (s.vch.take (s.nReadPos - data.length)).length = s.nReadPos - data.length := by
      rw [length_take]
      omega
    simp only [bytes]
    rw [append_assoc, drop_left' htake]
  · have htake : (s.vch.take s.nReadPos).length = s.nReadPos := by
      rw [length_take]
      omega
    simp only [bytes]
    rw [append_assoc, drop_left' htake]

instance : ByteStream CDataStream where
  read := read
  Rest s rest := s.Valid ∧ s.bytes = rest
  read_append := by
    rintro s w rest ⟨hs, hbytes⟩
    obtain ⟨s', hread, hs', hrest⟩ := hs.read_eq w.length (by simp [hbytes])
    rw [hbytes, take_left] at hread
    rw [hbytes, drop_left] at hrest
    exact ⟨s', hread, hs', hrest⟩

end CDataStream

/-- An open file: what it contains and where the next read starts. -/
structure CAutoFile where
  data : List UInt8
  pos : Nat
  deriving DecidableEq, Repr

namespace CAutoFile

def read (nSize : Nat) (f : CAutoFile) : Except String (List UInt8 × CAutoFile) :=
  let pch := (f.data.drop f.pos).take nSize
  if pch.length = nSize then .ok (pch, { f with pos := f.pos + nSize })
  else .error "CAutoFile::read : end of file"

instance : ByteStream CAutoFile where
  read := read
  Rest f rest := f.data.drop f.pos = rest
  read_append := by
    rintro f w rest h
    refine ⟨{ f with pos := f.pos + w.length }, ?_, ?_⟩
    · simp [read, h]
    · rw [← drop_drop, h, drop_left]

end CAutoFile

end NovaCoin
