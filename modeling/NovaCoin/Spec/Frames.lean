import Mathlib.Data.List.Infix
import NovaCoin.Infra.Framing
import NovaCoin.Messages

/-!
# The messages in a stream

What one round of `ProcessMessages` does, as a function of the bytes in the buffer: `nextFrame`
finds the start bytes, and either a complete message behind them, or an error, or that more bytes
are needed. It is a format in the sense of `Infra/Framing.lean`. The reason is in the search: it
finds the same place when more bytes follow, and when bytes before that place are dropped.
-/

namespace NovaCoin

open List

open CMessageHeader (nHeaderSize)
open Framing (Next Format)

/-! ## The search -/

section Search

variable {pattern l : List UInt8}

theorem search_le (pattern : List UInt8) : ∀ l : List UInt8, search pattern l ≤ l.length
  | [] => Nat.le_refl 0
  | c :: l => by
    rw [search]
    split
    · exact Nat.zero_le _
    · exact Nat.succ_le_succ (search_le pattern l)

theorem prefix_of_search_lt : ∀ {l : List UInt8}, search pattern l < l.length →
    pattern <+: l.drop (search pattern l)
  | c :: l, h => by
    rw [search] at h ⊢
    split at h
    · next hp =>
      rw [if_pos hp]
      exact isPrefixOf_iff_prefix.mp hp
    · next hp =>
      rw [if_neg hp]
      exact prefix_of_search_lt (Nat.lt_of_succ_lt_succ h)

theorem not_prefix_of_lt_search : ∀ {l : List UInt8} {i : Nat}, i < search pattern l →
    ¬ pattern <+: l.drop i
  | c :: l, i, h => by
    rw [search] at h
    split at h
    · cases h
    · next hp =>
      cases i with
      | zero => exact fun hpre => hp ( isPrefixOf_iff_prefix.mpr hpre)
      | succ i =>
        have hi : i < search pattern l := Nat.lt_of_succ_lt_succ h
        rw [drop_succ_cons]
        exact not_prefix_of_lt_search hi

theorem search_eq (hne : pattern ≠ []) {k : Nat} (hk : pattern <+: l.drop k)
    (hfirst : ∀ i < k, ¬ pattern <+: l.drop i) : search pattern l = k := by
  have hlt : k < l.length := by
    by_contra hge
    rw [drop_of_length_le (Nat.le_of_not_lt hge), prefix_nil] at hk
    exact hne hk
  rcases Nat.lt_trichotomy (search pattern l) k with h | h | h
  · exact absurd (prefix_of_search_lt (Nat.lt_trans h hlt)) (hfirst _ h)
  · exact h
  · exact absurd hk (not_prefix_of_lt_search h)

theorem prefix_of_prefix_append {more : List UInt8} (h : pattern <+: l ++ more)
    (hlen : pattern.length ≤ l.length) : pattern <+: l :=
  prefix_of_prefix_length_le h (prefix_append l more) hlen

theorem search_append (hne : pattern ≠ []) (h : search pattern l < l.length)
    (more : List UInt8) : search pattern (l ++ more) = search pattern l := by
  have hfound := prefix_of_search_lt h
  have hlen := hfound.length_le
  rw [length_drop] at hlen
  refine search_eq hne ?_ fun i hi hpre => ?_
  · rw [drop_append_of_le_length (Nat.le_of_lt h)]
    exact hfound.trans (prefix_append _ _)
  · rw [drop_append_of_le_length (by omega)] at hpre
    refine not_prefix_of_lt_search hi (prefix_of_prefix_append hpre ?_)
    rw [length_drop]
    omega

theorem search_append_ge (pattern l more : List UInt8) : search pattern l ≤ search pattern (l ++ more) ∨
    l.length < search pattern (l ++ more) + pattern.length := by
  by_contra hcon
  rw [not_or, Nat.not_le] at hcon
  obtain ⟨hlt, hlen⟩ := hcon
  have hle := search_le pattern l
  have hfound : pattern <+: (l ++ more).drop (search pattern (l ++ more)) := by
    refine prefix_of_search_lt ?_
    rw [length_append]
    omega
  rw [drop_append_of_le_length (by omega)] at hfound
  refine not_prefix_of_lt_search hlt (prefix_of_prefix_append hfound ?_)
  rw [length_drop]
  omega

theorem search_drop : ∀ {l : List UInt8} {d : Nat}, d ≤ search pattern l →
    search pattern (l.drop d) = search pattern l - d
  | l, 0, _ => by rw [drop_zero, Nat.sub_zero]
  | [], d + 1, h => by cases h
  | c :: l, d + 1, h => by
    rw [search] at h ⊢
    split at h
    · cases h
    · next hp =>
      rw [if_neg hp, drop_succ_cons, search_drop (Nat.le_of_succ_le_succ h),
        Nat.add_sub_add_right]

end Search

/-! ## One look at the buffer -/

section Next

variable (crypto : Crypto) (fTestNet : Bool)

/-- From the start bytes on, with a complete header. -/
def frameAt (msg : List UInt8) : Next UInt8 Message Closed :=
  let hdr := CMessageHeader.ofBytes (msg.take nHeaderSize)
  let rest := msg.drop nHeaderSize
  let nMessageSize := hdr.nMessageSize.toNat
  if !hdr.isValid fTestNet then .stop .header
  else if MAX_SIZE < nMessageSize then .skip rest
  else if rest.length < nMessageSize then .wait msg
  else if messageChecksum crypto (rest.take nMessageSize) != hdr.nChecksum then .stop .checksum
  else .frame ⟨hdr.getCommand, rest.take nMessageSize⟩ (rest.drop nMessageSize)

/-- The whole look: if there is no complete header, the size of one is kept. -/
def nextFrame (l : List UInt8) : Next UInt8 Message Closed :=
  let pstart := search (pchMessageStart fTestNet) l
  if l.length - pstart < nHeaderSize then .wait (l.drop (l.length - nHeaderSize))
  else frameAt crypto fTestNet (l.drop pstart)

variable {crypto fTestNet}

theorem pchMessageStart_ne_nil : pchMessageStart fTestNet ≠ [] := by
  cases fTestNet <;> exact cons_ne_nil _ _

variable {msg l kept : List UInt8}

theorem frameAt_eq_wait (h : frameAt crypto fTestNet msg = .wait kept) :
    kept = msg ∧ (msg.drop nHeaderSize).length < MAX_SIZE := by
  simp only [frameAt] at h
  split at h
  · cases h
  · split at h
    · cases h
    · split at h
      · cases h
        exact ⟨rfl, by omega⟩
      · split at h <;> cases h

theorem frameAt_lt (hlen : nHeaderSize ≤ msg.length) :
    (∀ rest, frameAt crypto fTestNet msg = .skip rest → rest.length < msg.length) ∧
    ∀ m rest, frameAt crypto fTestNet msg = .frame m rest → rest.length < msg.length := by
  have hpos : 0 < nHeaderSize := by decide
  constructor
  · intro rest h
    simp only [frameAt] at h
    repeat' split at h
    all_goals cases h
    rw [length_drop]
    omega
  · intro m rest h
    simp only [frameAt] at h
    repeat' split at h
    all_goals cases h
    rw [length_drop, length_drop]
    omega

/-- More bytes behind a complete header change nothing but what is behind the message. -/
theorem frameAt_append (hlen : nHeaderSize ≤ msg.length) (more : List UInt8) :
    frameAt crypto fTestNet (msg ++ more) =
      match frameAt crypto fTestNet msg with
      | .stop e => .stop e
      | .skip rest => .skip (rest ++ more)
      | .frame m rest => .frame m (rest ++ more)
      | .wait _ => frameAt crypto fTestNet (msg ++ more) := by
  have htake : (msg ++ more).take nHeaderSize = msg.take nHeaderSize :=
    take_append_of_le_length hlen
  have hdrop : (msg ++ more).drop nHeaderSize = msg.drop nHeaderSize ++ more :=
    drop_append_of_le_length hlen
  unfold frameAt
  simp only [htake, hdrop]
  generalize CMessageHeader.ofBytes (msg.take nHeaderSize) = hdr
  generalize msg.drop nHeaderSize = rest
  by_cases hvalid : (!hdr.isValid fTestNet)
  · rw [if_pos hvalid, if_pos hvalid]
  rw [if_neg hvalid, if_neg hvalid]
  by_cases hmax : MAX_SIZE < hdr.nMessageSize.toNat
  · rw [if_pos hmax, if_pos hmax]
  rw [if_neg hmax, if_neg hmax]
  by_cases hshort : rest.length < hdr.nMessageSize.toNat
  · -- more bytes may complete the message
    rw [if_pos hshort]
  have hfull : hdr.nMessageSize.toNat ≤ rest.length := Nat.le_of_not_lt hshort
  have hshort' : ¬ (rest ++ more).length < hdr.nMessageSize.toNat := by
    rw [length_append]
    omega
  rw [if_neg hshort, if_neg hshort', take_append_of_le_length hfull,
    drop_append_of_le_length hfull]
  by_cases hsum : (messageChecksum crypto (rest.take hdr.nMessageSize.toNat) != hdr.nChecksum)
  · rw [if_pos hsum, if_pos hsum]
  · rw [if_neg hsum, if_neg hsum]

theorem nextFrame_drop {d : Nat} (hd : d ≤ search (pchMessageStart fTestNet) l)
    (hlen : d + nHeaderSize ≤ l.length) :
    nextFrame crypto fTestNet (l.drop d) = nextFrame crypto fTestNet l := by
  have hsize : (l.drop d).length - (search (pchMessageStart fTestNet) l - d) =
      l.length - search (pchMessageStart fTestNet) l := by
    rw [length_drop]
    omega
  simp only [nextFrame, search_drop hd, hsize, drop_drop]
  split
  · rw [length_drop, show d + (l.length - d - nHeaderSize) = l.length - nHeaderSize by omega]
  · rw [show d + (search (pchMessageStart fTestNet) l - d) = search (pchMessageStart fTestNet) l by
      omega]

theorem nextFrame_eq_wait (h : nextFrame crypto fTestNet l = .wait kept) :
    kept.length ≤ MAX_SIZE + nHeaderSize ∧ ∃ d, kept = l.drop d ∧
      (d = 0 ∨ d + nHeaderSize ≤ l.length ∧
        ∀ more, d ≤ search (pchMessageStart fTestNet) (l ++ more)) := by
  have hle := search_le (pchMessageStart fTestNet) l
  simp only [nextFrame] at h
  split at h
  · next hshort =>
    cases h
    refine ⟨by rw [length_drop]; omega, l.length - nHeaderSize, rfl, ?_⟩
    by_cases hsmall : l.length ≤ nHeaderSize
    · exact .inl (by omega)
    · refine .inr ⟨by omega, fun more => ?_⟩
      have hfour : (pchMessageStart fTestNet).length < nHeaderSize := by
        rw [length_pchMessageStart]
        decide
      rcases search_append_ge (pchMessageStart fTestNet) l more with hge | hge
      · omega
      · omega
  · next hlong =>
    obtain ⟨rfl, hrest⟩ := frameAt_eq_wait h
    rw [length_drop] at hrest
    refine ⟨by omega, _, rfl, .inr ⟨by omega, fun more => ?_⟩⟩
    have hpos : 0 < nHeaderSize := by decide
    exact Nat.le_of_eq (search_append pchMessageStart_ne_nil (by omega) more).symm

theorem nextFrame_of_le (h : nHeaderSize ≤ l.length - search (pchMessageStart fTestNet) l)
    (more : List UInt8) :
    nextFrame crypto fTestNet (l ++ more) =
      frameAt crypto fTestNet (l.drop (search (pchMessageStart fTestNet) l) ++ more) := by
  have hpos : 0 < nHeaderSize := by decide
  have hlt : search (pchMessageStart fTestNet) l < l.length := by omega
  rw [nextFrame, search_append pchMessageStart_ne_nil hlt more,
    if_neg (by rw [length_append]; omega), drop_append_of_le_length (Nat.le_of_lt hlt)]

theorem nextFrame_complete (h : ∀ kept, nextFrame crypto fTestNet l ≠ .wait kept) :
    nHeaderSize ≤ l.length - search (pchMessageStart fTestNet) l ∧ nextFrame crypto fTestNet l =
        frameAt crypto fTestNet (l.drop (search (pchMessageStart fTestNet) l)) := by
  by_cases hshort : l.length - search (pchMessageStart fTestNet) l < nHeaderSize
  · refine absurd ?_ (h (l.drop (l.length - nHeaderSize)))
    rw [nextFrame, if_pos hshort]
  · refine ⟨Nat.le_of_not_lt hshort, ?_⟩
    rw [nextFrame, if_neg hshort]

variable (crypto fTestNet)

def messageFormat : Format UInt8 Message Closed where
  next := nextFrame crypto fTestNet
  next_nil := rfl
  skip_lt {l rest} h := by
    obtain ⟨hlen, heq⟩ := nextFrame_complete (l := l) (by rw [h]; nofun)
    have hlt := (frameAt_lt (by rw [length_drop]; exact hlen)).1 rest (heq ▸ h)
    rw [length_drop] at hlt
    omega
  frame_lt {l m rest} h := by
    obtain ⟨hlen, heq⟩ := nextFrame_complete (l := l) (by rw [h]; nofun)
    have hlt := (frameAt_lt (by rw [length_drop]; exact hlen)).2 m rest (heq ▸ h)
    rw [length_drop] at hlt
    omega
  stop_append {l e} h more := by
    obtain ⟨hlen, heq⟩ := nextFrame_complete (l := l) (by rw [h]; nofun)
    rw [nextFrame_of_le hlen, frameAt_append (by rw [length_drop]; exact hlen), ← heq, h]
  skip_append {l rest} h more := by
    obtain ⟨hlen, heq⟩ := nextFrame_complete (l := l) (by rw [h]; nofun)
    rw [nextFrame_of_le hlen, frameAt_append (by rw [length_drop]; exact hlen), ← heq, h]
  frame_append {l m rest} h more := by
    obtain ⟨hlen, heq⟩ := nextFrame_complete (l := l) (by rw [h]; nofun)
    rw [nextFrame_of_le hlen, frameAt_append (by rw [length_drop]; exact hlen), ← heq, h]
  wait_append {l kept} h more := by
    obtain ⟨-, d, rfl, rfl | ⟨hlen, hd⟩⟩ := nextFrame_eq_wait h
    · rw [drop_zero]
    · rw [← drop_append_of_le_length (by omega)]
      refine nextFrame_drop (hd more) ?_
      rw [length_append]
      omega

end Next

/-! ## Garbage before a message -/

/-- A valid message, and bytes in front of it in which the start bytes do not occur. -/
structure Frame (fTestNet : Bool) where
  garbage : List UInt8
  pchCommand : List UInt8
  vMsg : List UInt8
  garbage_free : ¬ pchMessageStart fTestNet <:+: garbage
  length_command : pchCommand.length = CMessageHeader.COMMAND_SIZE
  command_ok : CMessageHeader.commandOk pchCommand = true
  length_le : vMsg.length ≤ MAX_SIZE

/-- No end of the start bytes is a beginning of them. -/
theorem pchMessageStart_no_overlap {fTestNet : Bool} {k : Nat} (h0 : 0 < k) (h4 : k < 4) :
    ¬ (pchMessageStart fTestNet).drop k <+: pchMessageStart fTestNet := by
  have hall : ∀ k ∈ [1, 2, 3], ∀ b : Bool, ¬ (pchMessageStart b).drop k <+: pchMessageStart b := by
    decide
  refine hall k ?_ fTestNet
  simp only [mem_cons, not_mem_nil, or_false]
  omega

theorem search_garbage {fTestNet : Bool} {garbage : List UInt8}
    (h : ¬ pchMessageStart fTestNet <:+: garbage) (x : List UInt8) :
    search (pchMessageStart fTestNet) (garbage ++ (pchMessageStart fTestNet ++ x)) =
      garbage.length := by
  refine search_eq pchMessageStart_ne_nil ?_ fun i hi hpre => ?_
  · rw [drop_left]
    exact prefix_append _ _
  · rw [drop_append_of_le_length (Nat.le_of_lt hi)] at hpre
    have hlen : (garbage.drop i).length = garbage.length - i := length_drop
    by_cases hfour : 4 ≤ (garbage.drop i).length
    · -- inside the garbage
      have hin := prefix_of_prefix_append hpre (by rw [length_pchMessageStart]; exact hfour)
      exact h (hin.isInfix.trans (drop_suffix i garbage).isInfix)
    · -- across its end: the start bytes would overlap themselves
      have hend := hpre.drop (garbage.drop i).length
      rw [drop_left] at hend
      refine pchMessageStart_no_overlap (by omega) (by omega) (prefix_of_prefix_append hend ?_)
      rw [length_drop]
      exact Nat.sub_le _ _

section

variable {hdr : CMessageHeader} (hstart : hdr.pchMessageStart.length = 4)
  (hcmd : hdr.pchCommand.length = CMessageHeader.COMMAND_SIZE)
include hstart hcmd

theorem length_headerBytes : (headerBytes hdr).length = nHeaderSize := by
  simp only [headerBytes, nHeaderSize, length_append, length_leBytes, hstart, hcmd,
    Nat.add_assoc]

theorem ofBytes_headerBytes : CMessageHeader.ofBytes (headerBytes hdr) = hdr := by
  have hword : ∀ n : UInt32, UInt32.ofNat (leNat (leBytes 4 n.toNat)) = n := by
    intro n
    have hlt : n.toNat < 256 ^ 4 := n.toNat_lt
    rw [leNat_leBytes, Nat.mod_eq_of_lt hlt, UInt32.ofNat_toNat]
  have h16 : (headerBytes hdr).drop 16 =
      leBytes 4 hdr.nMessageSize.toNat ++ leBytes 4 hdr.nChecksum.toNat := by
    rw [headerBytes, ← append_assoc]
    exact drop_left' (by rw [length_append, hstart, hcmd]; rfl)
  have h20 : (headerBytes hdr).drop 20 = leBytes 4 hdr.nChecksum.toNat := by
    rw [← drop_drop (i := 4) (j := 16), h16]
    exact drop_left' (length_leBytes _ _)
  have h4 : (headerBytes hdr).drop 4 = hdr.pchCommand ++
      (leBytes 4 hdr.nMessageSize.toNat ++ leBytes 4 hdr.nChecksum.toNat) :=
    drop_left' hstart
  have hcommand : ((headerBytes hdr).drop 4).take CMessageHeader.COMMAND_SIZE = hdr.pchCommand := by
    rw [h4]
    exact take_left' hcmd
  have hsize : ((headerBytes hdr).drop 16).take 4 = leBytes 4 hdr.nMessageSize.toNat := by
    rw [h16]
    exact take_left' (length_leBytes _ _)
  have hsum : ((headerBytes hdr).drop 20).take 4 = leBytes 4 hdr.nChecksum.toNat := by
    rw [h20]
    exact take_of_length_le (Nat.le_of_eq (length_leBytes _ _))
  have hfirst : (headerBytes hdr).take 4 = hdr.pchMessageStart := take_left' hstart
  rw [CMessageHeader.ofBytes, hfirst, hcommand, hsize, hsum, hword, hword]

end

namespace Frame

variable {fTestNet : Bool} (crypto : Crypto) (f : Frame fTestNet)

def header : CMessageHeader :=
  ⟨pchMessageStart fTestNet, f.pchCommand, UInt32.ofNat f.vMsg.length,
    messageChecksum crypto f.vMsg⟩

def bytes : List UInt8 := f.garbage ++ (headerBytes (f.header crypto) ++ f.vMsg)

def message : Message := ⟨(f.header crypto).getCommand, f.vMsg⟩

theorem nextFrame_bytes (more : List UInt8) :
    nextFrame crypto fTestNet (f.bytes crypto ++ more) = .frame (f.message crypto) more := by
  have hstart : (f.header crypto).pchMessageStart.length = 4 := length_pchMessageStart fTestNet
  have hcmd : (f.header crypto).pchCommand.length = CMessageHeader.COMMAND_SIZE := f.length_command
  have hlen := length_headerBytes hstart hcmd
  have hbytes : f.bytes crypto ++ more =
      f.garbage ++ (headerBytes (f.header crypto) ++ (f.vMsg ++ more)) := by
    rw [bytes, append_assoc, append_assoc]
  have hsearch : search (pchMessageStart fTestNet)
      (f.garbage ++ (headerBytes (f.header crypto) ++ (f.vMsg ++ more))) = f.garbage.length := by
    rw [headerBytes, append_assoc]
    exact search_garbage f.garbage_free _
  have hlong : ¬ (f.garbage ++ (headerBytes (f.header crypto) ++ (f.vMsg ++ more))).length -
      f.garbage.length < nHeaderSize := by
    rw [length_append, length_append]
    omega
  have hn : (f.header crypto).nMessageSize.toNat = f.vMsg.length :=
    UInt32.toNat_ofNat_of_lt' (Nat.lt_of_le_of_lt f.length_le (by decide))
  have hvalid : (f.header crypto).isValid fTestNet := by
    simp only [CMessageHeader.isValid, hn, Bool.and_eq_true, decide_eq_true_eq, beq_iff_eq]
    exact ⟨⟨rfl, f.command_ok⟩, f.length_le⟩
  rw [hbytes, nextFrame, hsearch, if_neg hlong, drop_left, frameAt, take_left' hlen,
    drop_left' hlen, ofBytes_headerBytes hstart hcmd, hn, take_left, drop_left,
    hvalid, if_neg (by decide), if_neg (Nat.not_lt_of_le f.length_le),
    if_neg (by rw [length_append]; omega), if_neg (by simp [header])]
  rfl

end Frame

end NovaCoin
