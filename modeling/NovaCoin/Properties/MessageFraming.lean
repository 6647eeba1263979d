import NovaCoin.Spec.Frames

/-!
# Chunks of the stream do not matter

`ProcessMessages` after every chunk does what `Framing.Format.run` does with the whole stream, as
long as the buffer can be indexed. A buffer of 4 GB is cut in the wrong place, because `erase` keeps
the position as an `unsigned int`.
-/

namespace NovaCoin

open List

open CMessageHeader (nHeaderSize)
open Framing (Next Format Status)
open Wire (ByteStream)

section

variable {σ : Type} (crypto : Crypto) (fTestNet : Bool) (processMessage : σ → Message → σ × Bool)

/-- The handler, with the messages it is given written down. -/
def handleLogged (s : List Message × σ) (m : Message) : (List Message × σ) × Bool :=
  ((s.1 ++ [m], (processMessage s.2 m).1), (processMessage s.2 m).2)

/-- A peer is where a receiver of the format is. -/
inductive Matches : CNode σ × Option Closed → (List Message × σ) × Status UInt8 Closed → Prop
  | waiting {pfrom : CNode σ} (hpos : pfrom.vRecv.nReadPos = 0)
      (hlen : pfrom.vRecv.bytes.length ≤ MAX_SIZE + nHeaderSize) :
      Matches (pfrom, none) ((pfrom.messages, pfrom.state), .waiting pfrom.vRecv.bytes)
  | refused {pfrom : CNode σ} :
      Matches (pfrom, some .message) ((pfrom.messages, pfrom.state), .closed none)
  | closed {pfrom : CNode σ} {why : Closed} :
      Matches (pfrom, some why) ((pfrom.messages, pfrom.state), .closed (some why))

/-- What the body of the loop has to do when a look at the buffer finds `next`. -/
def IterationSpec (pfrom : CNode σ) (result : Iteration σ) : Next UInt8 Message Closed → Prop
  | .wait kept => ∃ vRecv, result = .brk { pfrom with vRecv } ∧ vRecv.bytes = kept
  | .stop why => ∃ vRecv, result = .ret { pfrom with vRecv } why
  | .skip rest => ∃ vRecv : CDataStream, result = .cont { pfrom with vRecv } ∧ vRecv.Valid ∧
      vRecv.bytes = rest
  | .frame m rest => ∃ vRecv : CDataStream, vRecv.Valid ∧ vRecv.bytes = rest ∧
      let pfrom' : CNode σ :=
        ⟨vRecv, pfrom.messages ++ [m], (processMessage pfrom.state m).1⟩
      result = if (processMessage pfrom.state m).2 then .cont pfrom' else .ret pfrom' .message

variable {crypto fTestNet processMessage}

variable {pfrom : CNode σ}

theorem takeMessage_spec {vRecv : CDataStream} (hv : vRecv.Valid) {hdr : CMessageHeader}
    (hfull : hdr.nMessageSize.toNat ≤ vRecv.bytes.length) :
    IterationSpec processMessage pfrom (takeMessage crypto processMessage pfrom vRecv hdr)
      (if messageChecksum crypto (vRecv.bytes.take hdr.nMessageSize.toNat) != hdr.nChecksum then
        .stop .checksum
      else .frame ⟨hdr.getCommand, vRecv.bytes.take hdr.nMessageSize.toNat⟩
        (vRecv.bytes.drop hdr.nMessageSize.toNat)) := by
  unfold takeMessage
  by_cases hsum :
      (messageChecksum crypto (vRecv.bytes.take hdr.nMessageSize.toNat) != hdr.nChecksum)
  · simp only [if_pos hsum]
    exact ⟨_, rfl⟩
  · obtain ⟨vRecv', hignore, hv', hbytes⟩ := hv.ignore_eq _ hfull
    simp only [if_neg hsum, hignore]
    exact ⟨vRecv', hv', hbytes, rfl⟩

variable (crypto fTestNet processMessage)

/-- A round of the loop is a look at the buffer. -/
theorem iteration_spec (hv : pfrom.vRecv.Valid) (hlen : pfrom.vRecv.bytes.length < 2 ^ 31) :
    IterationSpec processMessage pfrom (iteration crypto fTestNet processMessage pfrom)
      (nextFrame crypto fTestNet pfrom.vRecv.bytes) := by
  have hle := search_le (pchMessageStart fTestNet) pfrom.vRecv.bytes
  unfold iteration nextFrame
  by_cases hshort : pfrom.vRecv.bytes.length -
      search (pchMessageStart fTestNet) pfrom.vRecv.bytes < nHeaderSize
  · simp only [if_pos hshort, Int32.toInt_ofNat_of_lt hlen, Int.ofNat_lt]
    split
    · exact ⟨_, rfl, (hv.eraseFront (Nat.sub_le _ _)).2⟩
    · next hsmall =>
      refine ⟨_, rfl, ?_⟩
      rw [Nat.sub_eq_zero_of_le (Nat.le_of_not_lt hsmall), drop_zero]
  · obtain ⟨hv₁, hbytes₁⟩ := hv.eraseFront hle
    simp only [if_neg hshort, frameAt, ← hbytes₁]
    have hlen₁ : nHeaderSize ≤ (pfrom.vRecv.eraseFront
        (search (pchMessageStart fTestNet) pfrom.vRecv.bytes)).bytes.length := by
      rw [hbytes₁, length_drop]
      exact Nat.le_of_not_lt hshort
    generalize pfrom.vRecv.eraseFront (search (pchMessageStart fTestNet) pfrom.vRecv.bytes) = vRecv
      at hv₁ hlen₁ ⊢
    have hsplit : ByteStream.Rest vRecv
        (vRecv.bytes.take nHeaderSize ++ vRecv.bytes.drop nHeaderSize) :=
      ⟨hv₁, (take_append_drop _ _).symm⟩
    obtain ⟨vRecv', hread, hv', hrest⟩ := CMessageHeader.reads (length_take_of_le hlen₁) hsplit
    simp only [hread, ← hrest]
    split
    · exact ⟨_, rfl⟩
    · split
      · exact ⟨vRecv', rfl, hv', rfl⟩
      · split
        · -- the header is put back
          refine ⟨_, rfl, ?_⟩
          rw [CDataStream.bytes_insertFront hv', hrest, take_append_drop]
        · next hfull => exact takeMessage_spec hv' (Nat.le_of_not_lt hfull)

/-- The loop is a run: as many rounds as there are bytes are enough. -/
theorem messageLoop_matches : ∀ (fuel : Nat) (pfrom : CNode σ), pfrom.vRecv.Valid →
    pfrom.vRecv.bytes.length < 2 ^ 31 → pfrom.vRecv.bytes.length < fuel →
    ∃ node, messageLoop crypto fTestNet processMessage fuel pfrom = some node ∧
      Matches node ((messageFormat crypto fTestNet).run (handleLogged processMessage)
        (pfrom.messages, pfrom.state) pfrom.vRecv.bytes)
  | fuel + 1, pfrom, hv, hlen, hfuel => by
    have hspec := iteration_spec crypto fTestNet processMessage hv hlen
    unfold messageLoop
    cases hnext : nextFrame crypto fTestNet pfrom.vRecv.bytes with
    | wait kept =>
      have hkept := (nextFrame_eq_wait hnext).1
      rw [hnext] at hspec
      obtain ⟨vRecv, hiter, rfl⟩ := hspec
      rw [hiter, Format.run_of_wait hnext]
      exact ⟨_, rfl, .waiting rfl hkept⟩
    | stop why =>
      rw [hnext] at hspec
      obtain ⟨vRecv, hiter⟩ := hspec
      rw [hiter, Format.run_of_stop hnext]
      exact ⟨_, rfl, .closed⟩
    | skip rest =>
      have hlt := (messageFormat crypto fTestNet).skip_lt hnext
      rw [hnext] at hspec
      obtain ⟨vRecv, hiter, hv', rfl⟩ := hspec
      rw [hiter, Format.run_of_skip hnext]
      exact messageLoop_matches fuel { pfrom with vRecv } hv'
        (Nat.lt_trans hlt hlen) (by simp only; omega)
    | frame m rest =>
      have hlt := (messageFormat crypto fTestNet).frame_lt hnext
      rw [hnext] at hspec
      obtain ⟨vRecv, hv', rfl, hiter⟩ := hspec
      rw [hiter]
      have hhandle : handleLogged processMessage (pfrom.messages, pfrom.state) m =
          ((pfrom.messages ++ [m], (processMessage pfrom.state m).1),
            (processMessage pfrom.state m).2) := rfl
      cases hm : (processMessage pfrom.state m).2 with
      | false =>
        rw [hm] at hhandle
        rw [Format.run_of_refused hnext hhandle]
        exact ⟨_, rfl, .refused⟩
      | true =>
        rw [hm] at hhandle
        rw [Format.run_of_frame hnext hhandle]
        exact messageLoop_matches fuel
          ⟨vRecv, pfrom.messages ++ [m], (processMessage pfrom.state m).1⟩ hv'
          (Nat.lt_trans hlt hlen) (by simp only; omega)

variable {node : CNode σ × Option Closed} {r : (List Message × σ) × Status UInt8 Closed}

/-- One chunk: the node keeps exactly the bytes that make no whole frame yet. -/
theorem receive_matches (h : Matches node r) {chunk : List UInt8}
    (hchunk : chunk.length + MAX_SIZE + nHeaderSize < 2 ^ 31) :
    ∃ node', receive crypto fTestNet processMessage node chunk = some node' ∧
      Matches node' ((messageFormat crypto fTestNet).feed (handleLogged processMessage) r chunk) := by
  cases h with
  | refused => exact ⟨_, rfl, .refused⟩
  | closed => exact ⟨_, rfl, .closed⟩
  | @waiting pfrom hpos hlen =>
    have hvch : pfrom.vRecv.bytes = pfrom.vRecv.vch := by
      rw [CDataStream.bytes, hpos, drop_zero]
    have hbytes : (pfrom.vRecv.append chunk).bytes = pfrom.vRecv.bytes ++ chunk := by
      rw [hvch, CDataStream.bytes, CDataStream.append, hpos, drop_zero]
    have hsmall : (pfrom.vRecv.append chunk).bytes.length < 2 ^ 31 := by
      rw [hbytes, length_append]
      omega
    have hvalid : (pfrom.vRecv.append chunk).Valid := by
      refine ⟨by rw [CDataStream.append, hpos]; exact Nat.zero_le _, ?_⟩
      rw [CDataStream.append, length_append, ← hvch]
      omega
    show ∃ node', processMessages crypto fTestNet processMessage
        { pfrom with vRecv := pfrom.vRecv.append chunk } = some node' ∧
      Matches node' ((messageFormat crypto fTestNet).run (handleLogged processMessage)
        (pfrom.messages, pfrom.state) (pfrom.vRecv.bytes ++ chunk))
    rw [← hbytes]
    unfold processMessages
    split
    · -- an empty buffer
      next hempty =>
      have hnil : (pfrom.vRecv.append chunk).bytes = [] := by
        exact drop_of_length_le (Nat.le_of_eq hempty)
      rw [Format.run_of_wait (hnil ▸ (messageFormat crypto fTestNet).next_nil)]
      exact ⟨_, rfl, .waiting hpos (by rw [hnil]; exact Nat.zero_le _)⟩
    · exact messageLoop_matches _ _ _ _ _ hvalid hsmall (Nat.lt_succ_self _)

theorem receiveAll_matches : ∀ (chunks : List (List UInt8)) {node : CNode σ × Option Closed}
    {r : (List Message × σ) × Status UInt8 Closed}, Matches node r →
    (∀ chunk ∈ chunks, chunk.length + MAX_SIZE + nHeaderSize < 2 ^ 31) →
    ∃ node', receiveAll crypto fTestNet processMessage node chunks = some node' ∧ Matches node'
        (chunks.foldl ((messageFormat crypto fTestNet).feed (handleLogged processMessage)) r)
  | [], node, r, h, _ => ⟨node, rfl, h⟩
  | chunk :: chunks, node, r, h, hchunks => by
    obtain ⟨node', hreceive, h'⟩ := receive_matches crypto fTestNet processMessage h
      (hchunks chunk (mem_cons_self ..))
    obtain ⟨node'', hall, h''⟩ := receiveAll_matches chunks h'
      fun c hc => hchunks c (mem_cons_of_mem _ hc)
    refine ⟨node'', ?_, h''⟩
    rw [receiveAll, foldlM_cons, hreceive]
    exact hall

def CNode.fresh (state : σ) : CNode σ := ⟨⟨[], 0⟩, [], state⟩

/-- The chunks of a stream, against a run on the stream. -/
theorem receiveAll_fresh (state : σ) {chunks : List (List UInt8)}
    (hchunks : ∀ chunk ∈ chunks, chunk.length + MAX_SIZE + nHeaderSize < 2 ^ 31) :
    ∃ node, receiveAll crypto fTestNet processMessage (CNode.fresh state, none) chunks = some node ∧
      Matches node ((messageFormat crypto fTestNet).run (handleLogged processMessage) ([], state)
        chunks.flatten) := by
  have hstart : Matches (CNode.fresh state, none) (([], state), .waiting []) :=
    .waiting rfl (Nat.zero_le _)
  rw [← Format.foldl_feed_eq_run]
  exact receiveAll_matches _ _ _ chunks hstart hchunks

/-- Why a receiver has closed the connection. -/
def closedBecause : Status UInt8 Closed → Option Closed
  | .waiting _ => none
  | .closed none => some .message
  | .closed (some why) => some why

theorem Matches.messages_eq (h : Matches node r) : (node.1.messages, node.1.state) = r.1 := by
  cases h <;> rfl

theorem Matches.closed_eq (h : Matches node r) : node.2 = closedBecause r.2 := by
  cases h <;> rfl

/-! ## Nothing is lost -/

theorem prefix_run_messages (s : List Message × σ) (l : List UInt8) :
    s.1 <+: ((messageFormat crypto fTestNet).run (handleLogged processMessage) s l).1.1 := by
  cases hnext : (messageFormat crypto fTestNet).next l with
  | wait kept => rw [Format.run_of_wait hnext]
  | stop why => rw [Format.run_of_stop hnext]
  | skip rest =>
    rw [Format.run_of_skip hnext]
    exact prefix_run_messages s rest
  | frame m rest =>
    have hlog : s.1 <+: (handleLogged processMessage s m).1.1 := prefix_append _ _
    cases hm : (handleLogged processMessage s m).2 with
    | false =>
      rw [Format.run_of_refused hnext (Prod.ext rfl hm)]
      exact hlog
    | true =>
      rw [Format.run_of_frame hnext (Prod.ext rfl hm)]
      exact hlog.trans (prefix_run_messages _ rest)
termination_by l.length
decreasing_by
  · exact (messageFormat crypto fTestNet).skip_lt hnext
  · exact (messageFormat crypto fTestNet).frame_lt hnext

/-- The frames at the beginning of a stream are all handed over, unless the handler refuses one. -/
theorem run_frames (more : List UInt8) : ∀ (frames : List (Frame fTestNet)) (s : List Message × σ),
    let r := (messageFormat crypto fTestNet).run (handleLogged processMessage) s
      (frames.flatMap (Frame.bytes crypto) ++ more)
    s.1 ++ frames.map (Frame.message crypto) <+: r.1.1 ∨
      (closedBecause r.2 = some .message ∧ r.1.1 <+: s.1 ++ frames.map (Frame.message crypto))
  | [], s => by
    refine .inl ?_
    rw [map_nil, append_nil]
    exact prefix_run_messages crypto fTestNet processMessage s _
  | f :: frames, s => by
    have hnext : (messageFormat crypto fTestNet).next
        (f.bytes crypto ++ (frames.flatMap (Frame.bytes crypto) ++ more)) =
        .frame (f.message crypto) (frames.flatMap (Frame.bytes crypto) ++ more) :=
      f.nextFrame_bytes crypto _
    have hlog : s.1 ++ (f :: frames).map (Frame.message crypto) =
        (handleLogged processMessage s (f.message crypto)).1.1 ++
          frames.map (Frame.message crypto) := by
      simp [handleLogged]
    rw [flatMap_cons, append_assoc, hlog]
    cases hm : (handleLogged processMessage s (f.message crypto)).2 with
    | false =>
      rw [Format.run_of_refused hnext (Prod.ext rfl hm)]
      exact .inr ⟨rfl, prefix_append _ _⟩
    | true =>
      rw [Format.run_of_frame hnext (Prod.ext rfl hm)]
      exact run_frames more frames _

/-- Two ways to cut a stream into chunks lead to the same messages, state of the handler and end of
the connection; and the messages at its beginning, with garbage without the start bytes between
them, are all handed over, unless the handler refuses one. -/
theorem receiveAll_chunks (state : σ) (chunks₁ chunks₂ : List (List UInt8))
    (hstream : chunks₁.flatten = chunks₂.flatten)
    (hchunks : ∀ chunk ∈ chunks₁ ++ chunks₂, chunk.length + MAX_SIZE + nHeaderSize < 2 ^ 31) :
    ∃ node₁ node₂,
      receiveAll crypto fTestNet processMessage (CNode.fresh state, none) chunks₁ = some node₁ ∧
      receiveAll crypto fTestNet processMessage (CNode.fresh state, none) chunks₂ = some node₂ ∧
      node₁.1.messages = node₂.1.messages ∧ node₁.1.state = node₂.1.state ∧ node₁.2 = node₂.2 ∧
      ∀ (frames : List (Frame fTestNet)) (more : List UInt8),
        chunks₁.flatten = frames.flatMap (Frame.bytes crypto) ++ more →
        frames.map (Frame.message crypto) <+: node₁.1.messages ∨ (node₁.2 = some .message ∧
            node₁.1.messages <+: frames.map (Frame.message crypto)) := by
  obtain ⟨node₁, hall₁, h₁⟩ := receiveAll_fresh crypto fTestNet processMessage state
    fun c hc => hchunks c (mem_append_left _ hc)
  obtain ⟨node₂, hall₂, h₂⟩ := receiveAll_fresh crypto fTestNet processMessage state
    fun c hc => hchunks c (mem_append_right _ hc)
  rw [← hstream] at h₂
  have hsame := h₁.messages_eq.trans h₂.messages_eq.symm
  refine ⟨node₁, node₂, hall₁, hall₂, congrArg Prod.fst hsame, congrArg Prod.snd hsame,
    h₁.closed_eq.trans h₂.closed_eq.symm, ?_⟩
  intro frames more hframes
  have hrun := run_frames crypto fTestNet processMessage more frames ([], state)
  rw [← hframes] at hrun
  rwa [h₁.closed_eq, show node₁.1.messages = _ from congrArg Prod.fst h₁.messages_eq]

end

def acceptAll (s : Unit) (_ : Message) : Unit × Bool := (s, true)

theorem not_infix_zeros (fTestNet : Bool) (n : Nat) :
    ¬ pchMessageStart fTestNet <:+: List.replicate n 0 := by
  intro h
  have hzero : ∀ c ∈ pchMessageStart fTestNet, c = 0 := fun c hc =>
    eq_of_mem_replicate (h.subset hc)
  cases fTestNet
  · exact absurd (hzero 0xe4 (by decide)) (by decide)
  · exact absurd (hzero 0xcd (by decide)) (by decide)

def verack (n : Nat) : Frame false where
  garbage := List.replicate n 0
  pchCommand := [0x76, 0x65, 0x72, 0x61, 0x63, 0x6b, 0, 0, 0, 0, 0, 0]
  vMsg := []
  garbage_free := not_infix_zeros false n
  length_command := rfl
  command_ok := by decide
  length_le := Nat.zero_le _

def zeroChunks (k m : Nat) : List (List UInt8) :=
  List.replicate k (List.replicate m 0) ++ [(verack 0).bytes Crypto.sample]

theorem flatten_zeroChunks (k m : Nat) :
    (zeroChunks k m).flatten = (verack (k * m)).bytes Crypto.sample := by
  rw [zeroChunks, flatten_append]
  simp [Frame.bytes, verack, Frame.header]

theorem length_zeroChunks_lt {k m : Nat} (hm : m + MAX_SIZE + nHeaderSize < 2 ^ 31) :
    ∀ chunk ∈ zeroChunks k m, chunk.length + MAX_SIZE + nHeaderSize < 2 ^ 31 := by
  intro chunk hchunk
  rcases mem_append.mp hchunk with h | h
  · rw [eq_of_mem_replicate h, length_replicate]
    exact hm
  · rw [mem_singleton.mp h]
    decide

theorem length_verack (n : Nat) : ((verack n).bytes Crypto.sample).length = n + nHeaderSize := by
  rw [Frame.bytes, length_append, length_append,
    length_headerBytes (length_pchMessageStart false) (verack n).length_command]
  simp [verack]

/-- Three chunks and the one chunk of their bytes. -/
theorem zeroChunks_three_chunks :
    (∀ chunk ∈ zeroChunks 3 1 ++ [(zeroChunks 3 1).flatten],
      chunk.length + MAX_SIZE + nHeaderSize < 2 ^ 31) ∧
    ∃ node₁ node₂,
      receiveAll Crypto.sample false acceptAll (CNode.fresh (), none) (zeroChunks 3 1) =
        some node₁ ∧
      receiveAll Crypto.sample false acceptAll (CNode.fresh (), none)
        [(zeroChunks 3 1).flatten] = some node₂ ∧
      node₁.1.messages = node₂.1.messages ∧ node₁.1.state = node₂.1.state ∧
      node₁.2 = node₂.2 := by
  have hlen : ∀ chunk ∈ zeroChunks 3 1 ++ [(zeroChunks 3 1).flatten],
      chunk.length + MAX_SIZE + nHeaderSize < 2 ^ 31 := by
    intro chunk hchunk
    rcases mem_append.mp hchunk with h | h
    · exact length_zeroChunks_lt (by decide) chunk h
    · rw [mem_singleton.mp h, flatten_zeroChunks]
      decide
  obtain ⟨node₁, node₂, h₁, h₂, hmessages, hstate, hclosed, -⟩ :=
    receiveAll_chunks Crypto.sample false acceptAll () (zeroChunks 3 1)
      [(zeroChunks 3 1).flatten] (append_nil _).symm hlen
  exact ⟨hlen, node₁, node₂, h₁, h₂, hmessages, hstate, hclosed⟩

/-! ## A buffer of 4 GB -/

/-- In small chunks, the message arrives. -/
theorem receiveAll_zeroChunks {k m : Nat} (hm : m + MAX_SIZE + nHeaderSize < 2 ^ 31) :
    ∃ node, receiveAll Crypto.sample false acceptAll (CNode.fresh (), none) (zeroChunks k m) =
        some node ∧
      node.1.messages = [(verack (k * m)).message Crypto.sample] ∧ node.2 = none := by
  obtain ⟨node, hall, h⟩ :=
    receiveAll_fresh Crypto.sample false acceptAll () (length_zeroChunks_lt (k := k) hm)
  have hnext : (messageFormat Crypto.sample false).next ((verack (k * m)).bytes Crypto.sample) =
      .frame ((verack (k * m)).message Crypto.sample) [] := by
    have hframe := (verack (k * m)).nextFrame_bytes Crypto.sample []
    rwa [append_nil] at hframe
  rw [flatten_zeroChunks, Format.run_of_frame hnext rfl,
    Format.run_of_wait (messageFormat Crypto.sample false).next_nil] at h
  exact ⟨node, hall, congrArg Prod.fst h.messages_eq, h.closed_eq⟩

theorem CDataStream.read_of_lt {s : CDataStream} {nSize : Nat}
    (hlt : s.nReadPos + nSize < s.vch.length) (hpos : s.nReadPos + nSize < 2 ^ 32) :
    s.read nSize = .ok (s.bytes.take nSize, { s with nReadPos := s.nReadPos + nSize }) := by
  rw [read, Nat.mod_eq_of_lt hpos, if_neg (Nat.not_le_of_lt hlt)]

theorem CMessageHeader.unserialize_start {v : List UInt8} (h : nHeaderSize < v.length) :
    ∃ hdr s, CMessageHeader.unserialize (⟨v, 0⟩ : CDataStream) = .ok (hdr, s) ∧
      hdr.pchMessageStart = v.take 4 := by
  have hread : ∀ pos n, pos + n ≤ nHeaderSize → Wire.take n (⟨v, pos⟩ : CDataStream) =
      .ok ((v.drop pos).take n, ⟨v, pos + n⟩) := by
    intro pos n hle
    exact CDataStream.read_of_lt (Nat.lt_of_le_of_lt hle h) (Nat.lt_of_le_of_lt hle (by decide))
  have hread32 : ∀ pos, pos + 4 ≤ nHeaderSize → readUInt32 (⟨v, pos⟩ : CDataStream) =
      .ok (UInt32.ofNat (leNat ((v.drop pos).take 4)), ⟨v, pos + 4⟩) := fun pos hle =>
    Wire.bind_of_ok (Wire.bind_of_ok (hread pos 4 hle))
  refine ⟨ofBytes v, ⟨v, nHeaderSize⟩, ?_, rfl⟩
  unfold CMessageHeader.unserialize
  rw [Wire.bind_of_ok (hread 0 4 (by decide)),
    Wire.bind_of_ok (hread 4 COMMAND_SIZE (by decide)),
    Wire.bind_of_ok (hread32 (4 + COMMAND_SIZE) (by decide)),
    Wire.bind_of_ok (hread32 (4 + COMMAND_SIZE + 4) (by decide))]
  rfl

/-- The read position wraps to 0 as the zeros are skipped, so the header is read out of the zeros. -/
theorem receiveAll_flatten_zeroChunks {k m : Nat} (hwrap : k * m % 2 ^ 32 = 0) (hpos : 0 < k * m) :
    ∃ node, receiveAll Crypto.sample false acceptAll (CNode.fresh (), none)
        [(zeroChunks k m).flatten] = some node ∧
      node.1.messages = [] ∧ node.2 = some .header := by
  rw [flatten_zeroChunks]
  generalize k * m = n at hwrap hpos
  have hbytes : (verack n).bytes Crypto.sample = replicate n 0 ++
      headerBytes ((verack n).header Crypto.sample) := by
    rfl
  have hlen := length_verack n
  have hsearch : search (pchMessageStart false) ((verack n).bytes Crypto.sample) = n := by
    have h := search_garbage (verack n).garbage_free
    exact (h _).trans length_replicate
  have herase : CDataStream.eraseFront ⟨(verack n).bytes Crypto.sample, 0⟩ n =
      ⟨(verack n).bytes Crypto.sample, 0⟩ := by
    have hsize : 0 < nHeaderSize := by decide
    rw [CDataStream.eraseFront, if_neg (by rw [hlen]; simp only; omega)]
    simp only [Nat.zero_add, hwrap]
  obtain ⟨hdr, s, hread, hstart⟩ :=
    CMessageHeader.unserialize_start (v := (verack n).bytes Crypto.sample) (by rw [hlen]; omega)
  have hzero : hdr.pchMessageStart.head? = some 0 := by
    obtain ⟨n, rfl⟩ := Nat.exists_eq_succ_of_ne_zero (Nat.ne_of_gt hpos)
    rw [hstart, hbytes]
    rfl
  have hinvalid : hdr.isValid false = false := by
    have hne : (hdr.pchMessageStart == pchMessageStart false) = false := by
      refine beq_eq_false_iff_ne.mpr fun heq => ?_
      rw [heq] at hzero
      exact absurd hzero (by decide)
    simp only [CMessageHeader.isValid, hne, Bool.false_and]
  let pfrom : CNode Unit := ⟨⟨(verack n).bytes Crypto.sample, 0⟩, [], ()⟩
  have hpfrom : pfrom.vRecv.bytes = (verack n).bytes Crypto.sample := rfl
  have hiter : iteration Crypto.sample false acceptAll pfrom =
      .ret { pfrom with vRecv := s } .header := by
    unfold iteration
    simp only [hpfrom, hsearch, hlen]
    rw [if_neg (by omega), show pfrom.vRecv.eraseFront n = pfrom.vRecv from herase]
    simp only [show CMessageHeader.unserialize pfrom.vRecv = _ from hread, hinvalid, Bool.not_false,
      if_true]
  refine ⟨({ pfrom with vRecv := s }, some .header), ?_, rfl, rfl⟩
  have hloop : processMessages Crypto.sample false acceptAll pfrom =
      some ({ pfrom with vRecv := s }, some .header) := by
    rw [processMessages, if_neg (by simp only [pfrom]; omega), messageLoop, hiter]
  show (processMessages Crypto.sample false acceptAll pfrom).bind _ = _
  rw [hloop]
  rfl

/-- The same stream, as one chunk and as five: only the second hands over the message behind 4 GB of
zeros. -/
theorem zeroChunks_chunks_differ :
    [(zeroChunks 4 (2 ^ 30)).flatten].flatten = (zeroChunks 4 (2 ^ 30)).flatten ∧
    ∃ node₁ node₂, receiveAll Crypto.sample false acceptAll (CNode.fresh (), none)
        [(zeroChunks 4 (2 ^ 30)).flatten] = some node₁ ∧
      receiveAll Crypto.sample false acceptAll (CNode.fresh (), none)
        (zeroChunks 4 (2 ^ 30)) = some node₂ ∧
      node₁.1.messages = [] ∧ node₁.2 = some .header ∧
      node₂.1.messages = [(verack (4 * 2 ^ 30)).message Crypto.sample] ∧ node₂.2 = none := by
  obtain ⟨node₁, h₁, hmessages₁, hclosed₁⟩ :=
    receiveAll_flatten_zeroChunks (k := 4) (m := 2 ^ 30) (by decide) (by decide)
  obtain ⟨node₂, h₂, hmessages₂, hclosed₂⟩ :=
    receiveAll_zeroChunks (k := 4) (m := 2 ^ 30) (by decide)
  exact ⟨append_nil _, node₁, node₂, h₁, h₂, hmessages₁, hclosed₁, hmessages₂, hclosed₂⟩

end NovaCoin
