import Mathlib.Data.List.Basic

/-!
# Reading values off a byte stream

Unserializing code is generic in the stream it reads from: a buffer with a read position, an
open file. `ByteStream` is what such code uses of a stream, and a reader is a step that takes a
value off a stream or fails. `Reads r w a` says that `r`, on every stream that goes on with the
bytes `w`, returns `a` and leaves the stream right behind them; the rules put such facts together
the way readers are put together.
-/

namespace Wire

open List

/-- A stream of bytes. `Rest s bytes` holds if `bytes` is what is left to be read from `s`. -/
class ByteStream (σ : Type) where
  read : Nat → σ → Except String (List UInt8 × σ)
  Rest : σ → List UInt8 → Prop
  read_append : ∀ {s : σ} {w rest : List UInt8}, Rest s (w ++ rest) →
    ∃ s', read w.length s = .ok (w, s') ∧ Rest s' rest

/-- A value taken off a stream, or the text of the exception. -/
abbrev Reader (σ α : Type) := StateT σ (Except String) α

/-- The bytes themselves, as a stream. -/
instance : ByteStream (List UInt8) where
  read n s := if n ≤ s.length then .ok (s.take n, s.drop n) else .error "end of data"
  Rest s bytes := s = bytes
  read_append := by
    rintro _ w rest rfl
    exact ⟨rest, by simp, rfl⟩

variable {σ α β : Type} {f : α → Reader σ β} {a : α} {r : Reader σ α} {w : List UInt8}

/-! ## Readers -/

def take [ByteStream σ] (n : Nat) : Reader σ (List UInt8) := fun s => ByteStream.read n s

def many (r : Reader σ α) : Nat → Reader σ (List α)
  | 0 => pure []
  | n + 1 => do
    let a ← r
    let l ← many r n
    return a :: l

/-- The values from `nMid` to `nSize`, with room made for `chunk` of them at a time. -/
def chunked (chunk : Nat) (hchunk : 0 < chunk) (r : Reader σ α) (nSize nMid : Nat) :
    Reader σ (List α) :=
  if nMid < nSize then do
    let next := min (nMid + chunk) nSize
    let front ← many r (next - nMid)
    let rest ← chunked chunk hchunk r nSize next
    return front ++ rest
  else return []
termination_by nSize - nMid
decreasing_by omega

def blocks [ByteStream σ] (blk : Nat) (hblk : 0 < blk) (n : Nat) : Reader σ (List UInt8) :=
  if 0 < n then do
    let front ← take (min n blk)
    let rest ← blocks blk hblk (n - min n blk)
    return front ++ rest
  else return []
termination_by n
decreasing_by omega

theorem many_add (r : Reader σ α) (n : Nat) :
    ∀ m, many r (m + n) = (do
      let front ← many r m
      let rest ← many r n
      return front ++ rest)
  | 0 => by simp [many]
  | m + 1 => by
    rw [Nat.add_right_comm, many, many, many_add r n m]
    simp

/-- Making room in chunks does not show in what is read. -/
theorem chunked_eq_many (chunk : Nat) (hchunk : 0 < chunk) (r : Reader σ α) (nSize nMid : Nat) :
    chunked chunk hchunk r nSize nMid = many r (nSize - nMid) := by
  fun_induction chunked chunk hchunk r nSize nMid with
  | case1 nMid h next ih =>
    have hsplit : nSize - nMid = (next - nMid) + (nSize - next) := by omega
    rw [ih, hsplit, many_add]
  | case2 nMid h =>
    rw [Nat.sub_eq_zero_of_le (Nat.le_of_not_lt h)]
    rfl

theorem bind_of_ok {s s' : σ} (h : r s = .ok (a, s')) : (r >>= f) s = f a s' := by
  show Except.bind (r s) (fun p => f p.1 p.2) = _
  rw [h]
  rfl

/-! ## What is read from bytes that are known -/

/-- On every stream that goes on with `w`, the reader returns `a` and stops behind `w`. -/
def Reads [ByteStream σ] (r : Reader σ α) (w : List UInt8) (a : α) : Prop :=
  ∀ ⦃s : σ⦄ ⦃rest : List UInt8⦄, ByteStream.Rest s (w ++ rest) →
    ∃ s', r s = .ok (a, s') ∧ ByteStream.Rest s' rest

/-- On every stream that goes on with `w`, the reader fails. -/
def Fails [ByteStream σ] (r : Reader σ α) (w : List UInt8) (e : String) : Prop :=
  ∀ ⦃s : σ⦄ ⦃rest : List UInt8⦄, ByteStream.Rest s (w ++ rest) → r s = .error e

namespace Fails

variable [ByteStream σ] {e : String}

theorem append (h : Fails r w e) (w' : List UInt8) : Fails r (w ++ w') e := by
  intro s rest hs
  rw [append_assoc] at hs
  exact h hs

theorem bind (h : Fails r w e) (f : α → Reader σ β) : Fails (r >>= f) w e := by
  intro s rest hs
  show Except.bind (r s) _ = _
  rw [h hs]
  rfl

theorem not_reads (h : Fails r w e) {s : σ} (hs : ByteStream.Rest s w) : ¬ Reads r w a := by
  intro hr
  rw [← append_nil w] at hs
  obtain ⟨s', hok, -⟩ := hr hs
  rw [h hs] at hok
  cases hok

end Fails

namespace Reads

variable [ByteStream σ]

theorem take (w : List UInt8) : Reads (σ := σ) (take w.length) w w :=
  fun _ _ h => ByteStream.read_append h

theorem pure (a : α) : Reads (σ := σ) (Pure.pure a) [] a := fun s _ h => ⟨s, rfl, h⟩

variable {write : α → List UInt8}

theorem bind {w₁ w₂ : List UInt8} {b : β} (h₁ : Reads r w₁ a) (h₂ : Reads (f a) w₂ b) :
    Reads (r >>= f) (w₁ ++ w₂) b := by
  intro s rest h
  rw [append_assoc] at h
  obtain ⟨s₁, hr, hs₁⟩ := h₁ h
  obtain ⟨s₂, hf, hs₂⟩ := h₂ hs₁
  exact ⟨s₂, (bind_of_ok hr).trans hf, hs₂⟩

theorem bind_fails {w₁ w₂ : List UInt8} {e : String} (h₁ : Reads r w₁ a) (h₂ : Fails (f a) w₂ e) :
    Fails (r >>= f) (w₁ ++ w₂) e := by
  intro s rest h
  rw [append_assoc] at h
  obtain ⟨s₁, hr, hs₁⟩ := h₁ h
  exact (bind_of_ok hr).trans (h₂ hs₁)

/-- The last step of a reader only puts together what has been read. -/
theorem map (h : Reads r w a) (g : α → β) :
    Reads (r >>= fun a => Pure.pure (g a)) w (g a) := by
  have hb : Reads (r >>= fun a => Pure.pure (g a)) (w ++ []) (g a) := h.bind (Reads.pure (g a))
  rwa [append_nil] at hb

theorem many :
    ∀ {l : List α}, (∀ a ∈ l, Reads r (write a) a) → Reads (many r l.length) (l.flatMap write) l
  | [], _ => Reads.pure []
  | a :: l, h => by
    rw [forall_mem_cons] at h
    exact h.1.bind ((many h.2).map (a :: ·))

theorem chunked {chunk : Nat} {hchunk : 0 < chunk} {l : List α} (h : ∀ a ∈ l, Reads r (write a) a) :
    Reads (chunked chunk hchunk r l.length 0) (l.flatMap write) l := by
  rw [chunked_eq_many]
  exact many h

theorem blocks (blk : Nat) (hblk : 0 < blk) (w : List UInt8) :
    Reads (σ := σ) (blocks blk hblk w.length) w w := by
  rw [Wire.blocks]
  split
  · next hpos =>
    -- the first block, and the recursion for what is behind it
    have hfront := Reads.take (σ := σ) (w.take (min w.length blk))
    have hrest := (blocks blk hblk (w.drop (min w.length blk))).map
      (w.take (min w.length blk) ++ ·)
    rw [length_take, Nat.min_eq_left (Nat.min_le_left _ _)] at hfront
    rw [length_drop] at hrest
    have h := hfront.bind (f := fun front => do
      let rest ← Wire.blocks blk hblk (w.length - min w.length blk)
      return front ++ rest) hrest
    rwa [take_append_drop] at h
  · next hzero =>
    have hw : w = [] := eq_nil_of_length_eq_zero (by omega)
    subst hw
    exact Reads.pure []
termination_by w.length
decreasing_by
  rw [length_drop]
  omega

theorem unique {r : Reader (List UInt8) α} {b : α} (ha : Reads r w a)
    (hb : Reads r w b) : a = b := by
  obtain ⟨_, h₁, -⟩ := ha (s := w ++ []) rfl
  obtain ⟨_, h₂, -⟩ := hb (s := w ++ []) rfl
  rw [h₁] at h₂
  cases h₂
  rfl

end Reads

end Wire
