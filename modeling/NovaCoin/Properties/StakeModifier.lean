import NovaCoin.Infra.Window
import NovaCoin.Properties.Timestamps
import NovaCoin.StakeModifier

/-!
# The blocks that make a stake modifier

The rounds of `ComputeNextStakeModifier` are the picks of `Infra/Window.lean`: the candidates are
scanned in the order of their times for the least selection hash, up to the end of the round's
interval. The block index is only asked for the candidates themselves, which are ancestors.
-/

namespace NovaCoin

open Guard List

def IndexedChain (mapBlockIndex : Uint256 → Option PFullIndex) (chain : PFullIndex) : Prop :=
  ∀ pindex pprev, pindex :: pprev <:+ chain → mapBlockIndex pindex.hashBlock = some (pindex :: pprev)

variable {pindex : FullIndex} {mapBlockIndex : Uint256 → Option PFullIndex} {chain : PFullIndex}

theorem IndexedChain.of_suffix (h : IndexedChain mapBlockIndex chain) {older : PFullIndex}
    (hs : older <:+ chain) : IndexedChain mapBlockIndex older :=
  fun pindex pprev hp => h pindex pprev (hp.trans hs)

theorem exists_suffix_of_mem {α : Type} {a : α} {l : List α} (h : a ∈ l) : ∃ older, a :: older <:+ l := by
  obtain ⟨newer, older, rfl⟩ := append_of_mem h
  exact ⟨older, suffix_append _ _⟩

/-- The record found for the hash of a block of the chain is that of the block. -/
theorem IndexedChain.find (h : IndexedChain mapBlockIndex chain) (hmem : pindex ∈ chain) :
    (mapBlockIndex pindex.hashBlock).bind List.head? = some pindex := by
  obtain ⟨pprev, hs⟩ := exists_suffix_of_mem hmem
  rw [h pindex pprev hs]
  rfl

theorem IndexedChain.hash_inj (h : IndexedChain mapBlockIndex chain) {a b : FullIndex}
    (ha : a ∈ chain) (hb : b ∈ chain) (he : a.hashBlock = b.hashBlock) : a = b := by
  have hfind := h.find ha
  rw [he, h.find hb] at hfind
  exact (Option.some.inj hfind).symm

/-- No record comes twice: its ancestors would be among themselves. -/
theorem IndexedChain.nodup (h : IndexedChain mapBlockIndex chain) : chain.Nodup := by
  induction chain with
  | nil => exact nodup_nil
  | cons pindex pprev ih =>
    refine nodup_cons.mpr ⟨fun hmem => ?_, ih (h.of_suffix (suffix_cons _ _))⟩
    obtain ⟨older, hs⟩ := exists_suffix_of_mem hmem
    have h₁ := h pindex pprev suffix_rfl
    rw [h pindex older (hs.trans (suffix_cons _ _)), Option.some.injEq, List.cons.injEq] at h₁
    have hlen := hs.length_le
    rw [h₁.2, length_cons] at hlen
    omega

/-! ## Candidates -/

instance : Std.Total pairLe where
  total a b := by
    unfold pairLe
    omega

instance : IsTrans (Int × Uint256) pairLe where
  trans a b c h₁ h₂ := by
    unfold pairLe at *
    omega

def FullIndex.timeAndHash (pindex : FullIndex) : Int × Uint256 := (pindex.getBlockTime, pindex.hashBlock)

def sortedRecords (candidates : List FullIndex) : List FullIndex :=
  candidates.reverse.insertionSort fun a b => pairLe a.timeAndHash b.timeAndHash

theorem sortCandidates_eq (candidates : List FullIndex) :
    sortCandidates candidates = (sortedRecords candidates).map FullIndex.timeAndHash := by
  rw [sortedRecords, map_insertionSort _ pairLe _ _ (fun _ _ _ _ => Iff.rfl), map_reverse]
  rfl

theorem sortedRecords_perm (candidates : List FullIndex) : (sortedRecords candidates).Perm candidates :=
  (perm_insertionSort _ _).trans (reverse_perm _)

theorem mem_sortedRecords {candidates : List FullIndex} :
    pindex ∈ sortedRecords candidates ↔ pindex ∈ candidates := (sortedRecords_perm candidates).mem_iff

theorem pairwise_sortedRecords (candidates : List FullIndex) :
    (sortedRecords candidates).Pairwise fun a b => pairLe a.timeAndHash b.timeAndHash := by
  have hsorted := pairwise_insertionSort pairLe (candidates.reverse.map FullIndex.timeAndHash)
  rw [← map_insertionSort (fun a b : FullIndex => pairLe a.timeAndHash b.timeAndHash) pairLe _ _
    (fun _ _ _ _ => Iff.rfl)] at hsorted
  exact pairwise_map.mp hsorted

theorem pairwise_times (candidates : List FullIndex) :
    (sortedRecords candidates).Pairwise fun a b => a.getBlockTime ≤ b.getBlockTime := by
  refine (pairwise_sortedRecords candidates).imp fun {a b} h => ?_
  have h' : a.getBlockTime < b.getBlockTime ∨ a.getBlockTime = b.getBlockTime ∧ _ := h
  omega

/-! ## One round -/

section Round

variable (params : ChainParams) (mapBlockIndex : Uint256 → Option PFullIndex)

/-- What a round looks for the least of. -/
def selectionKey (nStakeModifierPrev : UInt64) (pindex : FullIndex) : Nat :=
  (hashSelection params.crypto nStakeModifierPrev pindex).toNat

/-- `SelectBlockFromCandidates` scans the records of the candidates. -/
theorem selectLoop_eq_scan {mapSelectedBlocks : List FullIndex} {nSelectionIntervalStop : Int}
    {nStakeModifierPrev : UInt64} : ∀ {l : List FullIndex} {best : Option FullIndex},
      (∀ pindex ∈ l, (mapBlockIndex pindex.hashBlock).bind List.head? = some pindex) →
      selectLoop params.crypto mapBlockIndex mapSelectedBlocks nSelectionIntervalStop
          nStakeModifierPrev best (l.map FullIndex.timeAndHash) =
        .ok (Window.scan (·.getBlockTime) (selectionKey params nStakeModifierPrev)
          (fun pindex => mapSelectedBlocks.any (·.hashBlock == pindex.hashBlock))
          nSelectionIntervalStop best l)
  | [], _, _ => rfl
  | pindex :: l, best, h => by
    rw [forall_mem_cons] at h
    have hfind : getOr ((mapBlockIndex pindex.timeAndHash.2).bind head?)
        "SelectBlockFromCandidates: failed to find block index for candidate block" = .ok pindex :=
      getOr_eq_ok.mpr h.1
    rw [map_cons, selectLoop, hfind, Window.scan]
    show (if _ then _ else _) = _
    split
    · rfl
    · split
      · exact selectLoop_eq_scan h.2
      · cases best with
        | none => exact selectLoop_eq_scan h.2
        | some b =>
          show selectLoop _ _ _ _ _ (if _ then _ else _) _ = _
          rw [Window.better]
          by_cases hlt : hashSelection params.crypto nStakeModifierPrev pindex <
              hashSelection params.crypto nStakeModifierPrev b
          · have hkey : selectionKey params nStakeModifierPrev pindex <
                selectionKey params nStakeModifierPrev b := hlt
            rw [if_pos (decide_eq_true hlt), if_pos hkey]
            exact selectLoop_eq_scan h.2
          · have hkey : ¬ selectionKey params nStakeModifierPrev pindex <
                selectionKey params nStakeModifierPrev b := hlt
            rw [if_neg (by simpa using hlt), if_neg hkey]
            exact selectLoop_eq_scan h.2

/-- The end of the interval after some rounds: their sections, added to its start. -/
def intervalStop (fTestNet : Bool) (nSelectionIntervalStart : Int) (nRounds : Nat) : Int :=
  nSelectionIntervalStart +
    ((List.range nRounds).map (getStakeModifierSelectionIntervalSection fTestNet)).sum

theorem intervalStop_succ (fTestNet : Bool) (nSelectionIntervalStart : Int) (n : Nat) :
    intervalStop fTestNet nSelectionIntervalStart (n + 1) =
      intervalStop fTestNet nSelectionIntervalStart n +
        getStakeModifierSelectionIntervalSection fTestNet n := by
  rw [intervalStop, intervalStop, range_succ, map_append, Int.add_assoc]
  simp

theorem entropyBit_cases (pindex : FullIndex) :
    pindex.getStakeEntropyBit = 0 ∨ pindex.getStakeEntropyBit = 1 := by
  have hbit : pindex.nFlags.toNat &&& BLOCK_STAKE_ENTROPY.toNat =
      (pindex.nFlags.toNat.testBit 1).toNat * 2 ^ 1 := Nat.and_two_pow _ 1
  have hnat : pindex.getStakeEntropyBit.toNat = (pindex.nFlags.toNat.testBit 1).toNat := by
    rw [FullIndex.getStakeEntropyBit, UInt32.toNat_shiftRight, UInt32.toNat_and, hbit]
    cases pindex.nFlags.toNat.testBit 1 <;> rfl
  rw [← UInt32.toNat_inj, ← UInt32.toNat_inj, hnat]
  cases pindex.nFlags.toNat.testBit 1
  · exact .inl rfl
  · exact .inr rfl

/-- The bit a round writes. -/
theorem testBit_entropyBit (pindex : FullIndex) {nRound : Nat} (hround : nRound < 64) (r : Nat) :
    (pindex.getStakeEntropyBit.toUInt64 <<< UInt64.ofNat nRound).toNat.testBit r =
      (decide (r = nRound) && pindex.getStakeEntropyBit == 1) := by
  have hshift : (UInt64.ofNat nRound).toNat % 64 = nRound := by
    rw [UInt64.toNat_ofNat_of_lt' (show nRound < 2 ^ 64 by omega)]
    omega
  rw [UInt64.toNat_shiftLeft, hshift]
  rcases entropyBit_cases pindex with h | h
  · rw [h]
    simp
  · have hpow : 2 ^ nRound < 2 ^ 64 := Nat.pow_lt_pow_right (by omega) hround
    rw [h]
    show ((1 <<< nRound) % 2 ^ 64).testBit r = _
    rw [Nat.shiftLeft_eq, Nat.one_mul, Nat.mod_eq_of_lt hpow, Nat.testBit_two_pow]
    simp [eq_comm]

end Round

/-! ## All rounds -/

section Rounds

variable (params : ChainParams) (mapBlockIndex : Uint256 → Option PFullIndex)
  (nStakeModifier : UInt64) (nSelectionIntervalStart : Int) (l : List FullIndex)

/-- The blocks of the first `n` rounds over the sorted candidates `l`. -/
def selectedBlocks (n : Nat) : List FullIndex :=
  Window.picks (·.getBlockTime) (selectionKey params nStakeModifier)
    (fun r => intervalStop params.fTestNet nSelectionIntervalStart (r + 1)) l n

variable {mapBlockIndex l}

section

variable (hindex : IndexedChain mapBlockIndex chain) (hsub : ∀ a ∈ l, a ∈ chain) (hnodup : l.Nodup)
  (hsorted : l.Pairwise fun a b => a.getBlockTime ≤ b.getBlockTime)
include hindex hsub hnodup hsorted

/-- A round selects the next block and writes its bit. -/
theorem modifierRound_eq_ok {n : Nat} (hn : n < l.length) (nStakeModifierNew : UInt64) :
    ∃ pindex, selectedBlocks params nStakeModifier nSelectionIntervalStart l (n + 1) =
        selectedBlocks params nStakeModifier nSelectionIntervalStart l n ++ [pindex] ∧
      modifierRound params mapBlockIndex (l.map FullIndex.timeAndHash) nStakeModifier
        ⟨nStakeModifierNew, intervalStop params.fTestNet nSelectionIntervalStart n,
          selectedBlocks params nStakeModifier nSelectionIntervalStart l n⟩ n =
        .ok ⟨nStakeModifierNew ||| (pindex.getStakeEntropyBit.toUInt64 <<< UInt64.ofNat n),
          intervalStop params.fTestNet nSelectionIntervalStart (n + 1),
          selectedBlocks params nStakeModifier nSelectionIntervalStart l (n + 1)⟩ := by
  obtain ⟨pindex, hsucc, hpick⟩ := Window.picks_succ (·.getBlockTime)
    (selectionKey params nStakeModifier)
    (fun r => intervalStop params.fTestNet nSelectionIntervalStart (r + 1)) hnodup hn
  have hblocks : selectedBlocks params nStakeModifier nSelectionIntervalStart l (n + 1) =
      selectedBlocks params nStakeModifier nSelectionIntervalStart l n ++ [pindex] := hsucc
  refine ⟨pindex, hblocks, ?_⟩
  -- selected blocks are recognised by their hashes
  have htaken : ∀ a ∈ l, ((selectedBlocks params nStakeModifier nSelectionIntervalStart l n).any
      (·.hashBlock == a.hashBlock)) =
      decide (a ∈ selectedBlocks params nStakeModifier nSelectionIntervalStart l n) := by
    intro a ha
    rw [Bool.eq_iff_iff, any_eq_true, decide_eq_true_eq]
    constructor
    · rintro ⟨b, hb, he⟩
      have hbl := Window.picks_subset _ _ _ n b hb
      rwa [← hindex.hash_inj (hsub b hbl) (hsub a ha) (by simpa using he)]
    · exact fun hmem => ⟨a, hmem, by simp⟩
  have hselect : selectBlockFromCandidates params.crypto mapBlockIndex (l.map FullIndex.timeAndHash)
      (selectedBlocks params nStakeModifier nSelectionIntervalStart l n)
      (intervalStop params.fTestNet nSelectionIntervalStart (n + 1)) nStakeModifier = .ok pindex := by
    rw [selectBlockFromCandidates, selectLoop_eq_scan _ _ fun a ha => hindex.find (hsub a ha),
      Window.scan_eq_pick hsorted, Window.pick_congr htaken]
    exact getOr_eq_ok.mpr hpick
  rw [modifierRound, ← intervalStop_succ, hselect, hblocks]
  rfl

/-- Round `r` sets bit `r` to the entropy of the block it selects. -/
theorem modifierRounds_eq_ok : ∀ {n : Nat}, n ≤ min 64 l.length → ∃ nStakeModifierNew : UInt64,
      foldAll (modifierRound params mapBlockIndex (l.map FullIndex.timeAndHash) nStakeModifier)
        ⟨0, nSelectionIntervalStart, []⟩ (List.range n) =
        .ok ⟨nStakeModifierNew, intervalStop params.fTestNet nSelectionIntervalStart n,
          selectedBlocks params nStakeModifier nSelectionIntervalStart l n⟩ ∧
      ∀ r, nStakeModifierNew.toNat.testBit r =
        ((selectedBlocks params nStakeModifier nSelectionIntervalStart l n)[r]?.map
          (·.getStakeEntropyBit == 1)).getD false
  | 0, _ => by
    refine ⟨0, ?_, fun r => by simp [selectedBlocks, Window.picks]⟩
    simp [intervalStop, selectedBlocks, Window.picks]
  | n + 1, hn => by
    obtain ⟨v, hfold, hbits⟩ := modifierRounds_eq_ok (show n ≤ min 64 l.length by omega)
    obtain ⟨pindex, hsucc, hround⟩ := modifierRound_eq_ok params nStakeModifier
      nSelectionIntervalStart hindex hsub hnodup hsorted (show n < l.length by omega) v
    refine ⟨v ||| (pindex.getStakeEntropyBit.toUInt64 <<< UInt64.ofNat n), ?_, fun r => ?_⟩
    · rw [range_succ]
      exact foldAll_append_eq_ok.mpr ⟨_, hfold, foldAll_cons_eq_ok.mpr ⟨_, hround, rfl⟩⟩
    · have hlen : (selectedBlocks params nStakeModifier nSelectionIntervalStart l n).length = n :=
        Window.length_picks _ _ _ hnodup (by omega)
      rw [UInt64.toNat_or, Nat.testBit_or, hbits, testBit_entropyBit pindex (by omega), hsucc]
      rcases Nat.lt_trichotomy r n with hr | hr | hr
      · rw [getElem?_append_left (by omega)]
        simp [hr.ne]
      · simp [hr, hlen]
      · rw [getElem?_eq_none (by omega), getElem?_eq_none (by simp; omega)]
        simp [hr.ne']

end

end Rounds

/-! ## The selection -/

/-- The block of a round: of the candidates left, it has the least selection hash of those up to the
round's stop time or, if there are none, it is the first. -/
structure RoundChoice (crypto : Crypto) (nStakeModifierPrev : UInt64) (candidates : List FullIndex)
    (before : List FullIndex) (stop : Int) (block : FullIndex) : Prop where
  candidate : block ∈ candidates
  new : block ∉ before
  least : ∀ other ∈ candidates, other ∉ before → other.getBlockTime ≤ stop →
    block.getBlockTime ≤ stop ∧
      hashSelection crypto nStakeModifierPrev block ≤ hashSelection crypto nStakeModifierPrev other
  first : (∀ other ∈ candidates, other ∉ before → stop < other.getBlockTime) →
    ∀ other ∈ candidates, other ∉ before → pairLe block.timeAndHash other.timeAndHash

variable {block pindexFrom : FullIndex} {after : List FullIndex}

theorem roundChoice_of_picked {params : ChainParams} {nStakeModifier : UInt64} {stop : Int}
    {candidates before : List FullIndex}
    (h : Window.Picked (·.getBlockTime) (selectionKey params nStakeModifier)
      (fun a => decide (a ∈ before)) stop (sortedRecords candidates) block) :
    RoundChoice params.crypto nStakeModifier candidates before stop block where
  candidate := mem_sortedRecords.mp h.mem
  new := of_decide_eq_false h.free
  least other hother hnew htime :=
    h.least other (mem_sortedRecords.mpr hother) (decide_eq_false hnew) htime
  first hlate other hother hnew := by
    have hhead := h.first fun b hb hfree =>
      hlate b (mem_sortedRecords.mp hb) (of_decide_eq_false hfree)
    have hmem : other ∈ Window.free (fun a => decide (a ∈ before)) (sortedRecords candidates) :=
      Window.mem_free.mpr ⟨mem_sortedRecords.mpr hother, decide_eq_false hnew⟩
    have hsorted := (pairwise_sortedRecords candidates).filter fun a => !decide (a ∈ before)
    change (Window.free (fun a => decide (a ∈ before)) (sortedRecords candidates)).Pairwise _ at hsorted
    cases hl : Window.free (fun a => decide (a ∈ before)) (sortedRecords candidates) with
    | nil =>
      rw [hl] at hhead
      cases hhead
    | cons b rest =>
      rw [hl] at hhead hmem hsorted
      cases hhead
      rcases mem_cons.mp hmem with rfl | hmem
      · exact .inr ⟨rfl, le_refl _⟩
      · exact (pairwise_cons.mp hsorted).1 other hmem

section Selection

variable (params : ChainParams) (prev : FullIndex) (pprev : PFullIndex) (nStakeModifier : UInt64)

/-- The candidates for the modifier of a block after `prev`. -/
def newCandidates : List FullIndex :=
  candidates (selectionIntervalStart params.fTestNet prev) (prev :: pprev)

def newSelected : List FullIndex :=
  selectedBlocks params nStakeModifier (selectionIntervalStart params.fTestNet prev)
    (sortedRecords (newCandidates params prev pprev)) (min 64 (newCandidates params prev pprev).length)

variable {prev pprev}

theorem length_sortedRecords (l : List FullIndex) : (sortedRecords l).length = l.length :=
  (sortedRecords_perm l).length_eq

theorem newCandidates_sublist : (newCandidates params prev pprev).Sublist (prev :: pprev) :=
  takeWhile_sublist _

section

variable (hindex : IndexedChain mapBlockIndex (prev :: pprev))
  {mapBlockIndex' : Uint256 → Option PFullIndex}
include hindex

theorem nodup_newCandidates : (sortedRecords (newCandidates params prev pprev)).Nodup :=
  (sortedRecords_perm _).nodup_iff.mpr (hindex.nodup.sublist (newCandidates_sublist params))

/-- A new modifier is always found, whatever else is in the block index. -/
theorem generateStakeModifier_eq_ok :
    ∃ s : ModifierState, generateStakeModifier params mapBlockIndex prev pprev nStakeModifier = .ok s ∧
      ∀ r, s.nStakeModifierNew.toNat.testBit r = ((newSelected params prev pprev nStakeModifier)[r]?.map
        (·.getStakeEntropyBit == 1)).getD false := by
  have hsub : ∀ a ∈ sortedRecords (newCandidates params prev pprev), a ∈ prev :: pprev := fun a ha =>
    (newCandidates_sublist params).subset (mem_sortedRecords.mp ha)
  obtain ⟨v, hfold, hbits⟩ := modifierRounds_eq_ok params nStakeModifier
    (selectionIntervalStart params.fTestNet prev) hindex hsub (nodup_newCandidates params hindex)
    (pairwise_times _) (le_refl _)
  rw [length_sortedRecords] at hfold hbits
  refine ⟨_, Eq.trans ?_ hfold, hbits⟩
  simp only [generateStakeModifier, sortCandidates_eq, length_map, length_sortedRecords]
  rfl

theorem generateStakeModifier_congr (hindex' : IndexedChain mapBlockIndex' (prev :: pprev)) :
    ∃ s s', generateStakeModifier params mapBlockIndex prev pprev nStakeModifier = .ok s ∧
      generateStakeModifier params mapBlockIndex' prev pprev nStakeModifier = .ok s' ∧
      s.nStakeModifierNew = s'.nStakeModifierNew := by
  obtain ⟨s, hs, hbits⟩ := generateStakeModifier_eq_ok params nStakeModifier hindex
  obtain ⟨s', hs', hbits'⟩ := generateStakeModifier_eq_ok params nStakeModifier hindex'
  refine ⟨s, s', hs, hs', UInt64.toNat_inj.mp (Nat.eq_of_testBit_eq fun r => ?_)⟩
  rw [hbits, hbits']

theorem computeNextStakeModifier_indexed (hindex' : IndexedChain mapBlockIndex' (prev :: pprev))
    (nTime : UInt32) :
    computeNextStakeModifier params mapBlockIndex' (prev :: pprev) nTime =
      computeNextStakeModifier params mapBlockIndex (prev :: pprev) nTime := by
  rw [computeNextStakeModifier, computeNextStakeModifier]
  cases hlast : getLastStakeModifier (prev :: pprev) with
  | error e => rfl
  | ok last =>
    obtain ⟨s, s', hs, hs', heq⟩ := generateStakeModifier_congr params last.1 hindex' hindex
    show (if _ then _ else _) = (if _ then _ else _)
    split
    · rfl
    · rw [hs, hs']
      show Except.ok (_, true) = Except.ok (_, true)
      rw [heq]

theorem roundChoice_newSelected {r : Nat}
    (h : (newSelected params prev pprev nStakeModifier)[r]? = some block) :
    RoundChoice params.crypto nStakeModifier (newCandidates params prev pprev)
      ((newSelected params prev pprev nStakeModifier).take r)
      (intervalStop params.fTestNet (selectionIntervalStart params.fTestNet prev) (r + 1)) block := by
  have hle : min 64 (newCandidates params prev pprev).length ≤
      (sortedRecords (newCandidates params prev pprev)).length := by
    rw [length_sortedRecords]
    omega
  obtain ⟨htake, hpicked⟩ := Window.picked_of_getElem _ _ _ (nodup_newCandidates params hindex) hle h
  rw [show (newSelected params prev pprev nStakeModifier).take r = _ from htake]
  exact roundChoice_of_picked hpicked

end

end Selection

/-- When `ComputeNextStakeModifier` gets to the rounds, they all succeed, each selects what it
should, and the bits of the new modifier are those of the selected blocks, for every block index
that has the ancestors. -/
theorem computeNextStakeModifier_selects (params : ChainParams)
    (mapBlockIndex : Uint256 → Option PFullIndex) (prev : FullIndex) (pprev : PFullIndex)
    (nTime : UInt32) (hindex : IndexedChain mapBlockIndex (prev :: pprev)) :
    (∀ nStakeModifier nModifierTime,
      getLastStakeModifier (prev :: pprev) = .ok (nStakeModifier, nModifierTime) →
      keepsModifier params.fTestNet nModifierTime prev nTime = false →
      ∃ (nStakeModifierNew : UInt64) (selected : List FullIndex),
        computeNextStakeModifier params mapBlockIndex (prev :: pprev) nTime =
          .ok (nStakeModifierNew, true) ∧
        selected.length = min 64 (newCandidates params prev pprev).length ∧
        (∀ r block, selected[r]? = some block →
          RoundChoice params.crypto nStakeModifier (newCandidates params prev pprev) (selected.take r)
            (intervalStop params.fTestNet (selectionIntervalStart params.fTestNet prev) (r + 1)) block) ∧
        ∀ r, nStakeModifierNew.toNat.testBit r =
          (selected[r]?.map (·.getStakeEntropyBit == 1)).getD false) ∧
    ∀ mapBlockIndex', IndexedChain mapBlockIndex' (prev :: pprev) →
      computeNextStakeModifier params mapBlockIndex' (prev :: pprev) nTime =
        computeNextStakeModifier params mapBlockIndex (prev :: pprev) nTime := by
  constructor
  · intro nStakeModifier nModifierTime hlast hkeep
    obtain ⟨s, hgen, hbits⟩ := generateStakeModifier_eq_ok params nStakeModifier hindex
    refine ⟨s.nStakeModifierNew, newSelected params prev pprev nStakeModifier, ?_, ?_, ?_, hbits⟩
    · rw [computeNextStakeModifier, hlast]
      show (if _ then _ else _) = _
      rw [hkeep, hgen]
      rfl
    · refine Window.length_picks _ _ _ (nodup_newCandidates params hindex) ?_
      rw [length_sortedRecords]
      omega
    · exact fun r block h => roundChoice_newSelected params nStakeModifier hindex h
  · exact fun mapBlockIndex' hindex' => computeNextStakeModifier_indexed params hindex hindex' nTime

/-! ### A modifier of three blocks -/

def chainIndex : PFullIndex → Uint256 → Option PFullIndex
  | [], _ => none
  | pindex :: pprev, hash => if pindex.hashBlock = hash then some (pindex :: pprev) else chainIndex pprev hash

theorem indexedChain_chainIndex : ∀ {chain : PFullIndex}, (chain.map (·.hashBlock)).Nodup →
    IndexedChain (chainIndex chain) chain
  | [], _ => fun _ _ hs => absurd (suffix_nil.mp hs) (cons_ne_nil _ _)
  | top :: rest, hnodup => by
    intro pindex pprev hs
    rw [map_cons, nodup_cons] at hnodup
    rcases suffix_cons_iff.mp hs with he | hs
    · rw [cons.injEq] at he
      rw [he.1, he.2, chainIndex, if_pos rfl]
    · have hne : top.hashBlock ≠ pindex.hashBlock := by
        intro he
        have hmem : pindex ∈ rest := hs.subset mem_cons_self
        exact hnodup.1 (he ▸ mem_map_of_mem hmem)
      rw [chainIndex, if_neg hne]
      exact indexedChain_chainIndex hnodup.2 pindex pprev hs

def sampleRecord (hashBlock : Uint256) (nHeight : Int) (nTime : UInt32) (nFlags : UInt32) : FullIndex :=
  { hashBlock, nFile := 1, nBlockPos := 0, nChainTrust := 0, nHeight, nMint := 0, nMoneySupply := 0,
    fProofOfStake := nFlags &&& BLOCK_PROOF_OF_STAKE != 0, nTime, nBits := 0x1e0fffff, nVersion := 6,
    hashMerkleRoot := 0, nNonce := 0, nFlags, nStakeModifier := 0, nStakeModifierChecksum := 0,
    hashProofOfStake := hashBlock, flag := rfl }

def sampleParams : ChainParams := ⟨Crypto.sample, true, 1⟩

/-- The root has a modifier. The two blocks after it were made in the intervals that follow. -/
def modifierChain : PFullIndex :=
  [sampleRecord 3 2 1600003000 3, sampleRecord 2 1 1600001500 0, sampleRecord 1 0 1600000000 6]

/-- Three blocks are selected, one bit of the modifier from each. -/
theorem modifierChain_selects : ∃ (nStakeModifierNew : UInt64) (selected : List FullIndex),
    computeNextStakeModifier sampleParams (chainIndex modifierChain) modifierChain 1600003100 =
      .ok (nStakeModifierNew, true) ∧ selected.length = 3 ∧
    ∀ r, nStakeModifierNew.toNat.testBit r = (selected[r]?.map (·.getStakeEntropyBit == 1)).getD false := by
  obtain ⟨v, selected, hcompute, hlen, -, hbits⟩ := (computeNextStakeModifier_selects sampleParams
    (chainIndex modifierChain) _ _ 1600003100
    (indexedChain_chainIndex (by decide : (modifierChain.map (·.hashBlock)).Nodup))).1 0 1600000000
    (by decide) (by decide)
  exact ⟨v, selected, hcompute, hlen, hbits⟩

/-! ## The stake modifier of a kernel on different chains

`GetKernelStakeModifier` follows `pnext` from the block of a coin, so its result depends on which
chain is the best. Along a chain it finds the first block after the coin's that generated a modifier
and is late enough (`kernelLoop_eq_find`); blocks in between are looked at, but leave no trace. Two
best chains that are the same up to the block found therefore give the same modifier. -/

open Option

/-- The block index and the links of a node whose best chain is `chain`. -/
structure OnBestChain (mapBlockIndex : Uint256 → Option PFullIndex) (pnext : Uint256 → Option Uint256)
    (chain : PFullIndex) : Prop where
  indexed : IndexedChain mapBlockIndex chain
  pnext : pnext = Links.links (chain.map (·.hashBlock))
  heights : EachBlock heightFollows chain.pindex

/-- A generated modifier that is late enough for a coin of the time `nTimeFrom`. -/
def usableModifier (params : ChainParams) (nTimeFrom : Int) (pindex : FullIndex) : Bool :=
  pindex.generatedStakeModifier &&
    nTimeFrom + getStakeModifierSelectionInterval params.fTestNet ≤ pindex.getBlockTime

theorem selectionInterval_pos (fTestNet : Bool) : 0 < getStakeModifierSelectionInterval fTestNet := by
  cases fTestNet <;> decide

section Walk

variable {params : ChainParams} {pnext : Uint256 → Option Uint256}

section

variable (h : OnBestChain mapBlockIndex pnext chain)
include h

theorem OnBestChain.nodup_hashes : (chain.map (·.hashBlock)).Nodup :=
  List.Nodup.map_on (fun _ ha _ hb he => h.indexed.hash_inj ha hb he) h.indexed.nodup

variable {older : PFullIndex}

/-- The block after one of the chain. -/
theorem OnBestChain.next {newer : PFullIndex} {next : FullIndex}
    (hc : chain = newer ++ next :: pindex :: older) :
    ((pnext pindex.hashBlock).bind fun hash => (mapBlockIndex hash).bind List.head?) = some next := by
  have hnodup := h.nodup_hashes
  have hlink : pnext pindex.hashBlock = some next.hashBlock := by
    rw [h.pnext]
    rw [hc, map_append, map_cons] at hnodup ⊢
    exact Links.links_append _ hnodup
  rw [hlink]
  exact h.indexed.find (by rw [hc]; simp)

theorem OnBestChain.next_tip (hc : chain = pindex :: older) :
    ((pnext pindex.hashBlock).bind fun hash => (mapBlockIndex hash).bind List.head?) = none := by
  have hnodup := h.nodup_hashes
  have hlink : pnext pindex.hashBlock = none := by
    rw [h.pnext, hc]
    rw [hc] at hnodup
    exact Links.links_of_notMem (nodup_cons.mp hnodup).1
  rw [hlink, bind_none]

/-- The loop goes up the chain to the first modifier generated late enough. -/
theorem kernelLoop_eq_find (nAdjustedTime : Int) (fPrintProofOfStake : Bool) {nTimeFrom : Int} :
    ∀ {after : List FullIndex} {pindex : FullIndex} {older : PFullIndex} {fuel : Nat}
      {nHeight nTime : Int}, chain = after.reverse ++ pindex :: older → after.length < fuel →
      nTime < nTimeFrom + getStakeModifierSelectionInterval params.fTestNet →
      (kernelLoop params mapBlockIndex pnext nAdjustedTime fPrintProofOfStake nTimeFrom fuel pindex
        nHeight nTime).toOption =
        (after.find? (usableModifier params nTimeFrom)).map fun block =>
          (block.nStakeModifier, block.nHeight, block.getBlockTime)
  | [], pindex, older, fuel + 1, nHeight, nTime, hc, _, ht => by
    simp only [kernelLoop, if_pos ht, h.next_tip hc]
    split <;> rfl
  | next :: after, pindex, older, fuel + 1, nHeight, nTime, hc, hfuel, ht => by
    rw [reverse_cons, append_assoc] at hc
    rw [length_cons] at hfuel
    simp only [kernelLoop, if_pos ht, h.next hc]
    by_cases hgen : next.generatedStakeModifier
    · rw [if_pos hgen]
      by_cases hlate : next.getBlockTime < nTimeFrom + getStakeModifierSelectionInterval params.fTestNet
      · have hnot : usableModifier params nTimeFrom next = false := by
          simp [usableModifier, hgen, not_le.mpr hlate]
        rw [find?_cons_of_neg (by simp [hnot])]
        exact kernelLoop_eq_find nAdjustedTime fPrintProofOfStake hc (by omega) hlate
      · have husable : usableModifier params nTimeFrom next := by
          simp [usableModifier, hgen, not_lt.mp hlate]
        obtain ⟨fuel, rfl⟩ : ∃ k, fuel = k + 1 := ⟨fuel - 1, by omega⟩
        rw [find?_cons_of_pos husable, kernelLoop]
        simp only [if_neg hlate]
        rfl
    · have hnot : usableModifier params nTimeFrom next = false := by
        simp [usableModifier, hgen]
      rw [if_neg hgen, find?_cons_of_neg (by simp [hnot])]
      exact kernelLoop_eq_find nAdjustedTime fPrintProofOfStake hc (by omega) ht

theorem getKernelStakeModifier_eq_find (params : ChainParams) (nAdjustedTime : Int)
    (fPrintProofOfStake : Bool) {fuel : Nat} (hc : chain = after.reverse ++ pindexFrom :: older)
    (hfuel : chain.length ≤ fuel) :
    (getKernelStakeModifier params mapBlockIndex pnext nAdjustedTime fPrintProofOfStake fuel
      pindexFrom.hashBlock).toOption =
      (after.find? (usableModifier params pindexFrom.getBlockTime)).map fun block =>
        (block.nStakeModifier, block.nHeight, block.getBlockTime) := by
  have hfind : getOr ((mapBlockIndex pindexFrom.hashBlock).bind head?)
      "GetKernelStakeModifier() : block not indexed" = .ok pindexFrom :=
    getOr_eq_ok.mpr (h.indexed.find (by rw [hc]; simp))
  have hlen : chain.length = after.length + older.length + 1 := by
    rw [hc]
    simp only [length_append, length_reverse, length_cons]
    omega
  have hpos := selectionInterval_pos params.fTestNet
  rw [getKernelStakeModifier, hfind]
  exact kernelLoop_eq_find h nAdjustedTime fPrintProofOfStake hc (by omega) (by omega)

end

end Walk

/-! ## Two chains -/

theorem split_at_height (nHeight : Int) : ∀ {chain : PFullIndex}, EachBlock heightFollows chain.pindex →
    chain = chain.filter (fun pindex => nHeight < pindex.nHeight) ++
      chain.filter (fun pindex => pindex.nHeight ≤ nHeight)
  | [], _ => rfl
  | pindex :: rest, hh => by
    have hrest : EachBlock heightFollows (PFullIndex.pindex rest) := hh.of_cons
    have ih := split_at_height nHeight hrest
    by_cases hlt : nHeight < pindex.nHeight
    · rw [filter_cons_of_pos (by simpa using hlt), filter_cons_of_neg (by simpa using hlt),
        cons_append, ← ih]
    · -- all that come after it are lower still
      have hlow : ∀ a ∈ rest, a.nHeight ≤ nHeight := by
        intro a ha
        obtain ⟨mid, older, rfl⟩ := append_of_mem ha
        have hpath : EachBlock heightFollows (pindex.toCBlockIndex ::
            (PFullIndex.pindex mid ++ a.toCBlockIndex :: PFullIndex.pindex older)) := by
          simpa [PFullIndex.pindex] using hh
        have hlower := height_le_of_ancestor hpath
        omega
      rw [filter_cons_of_neg (by simpa using hlt),
        filter_cons_of_pos (by simpa using hlt),
        filter_eq_nil_iff.mpr (fun a ha => by simpa using hlow a ha), nil_append,
        filter_eq_self.mpr (fun a ha => by simpa using hlow a ha)]

/-- The first of the blocks after `pindexFrom` on a chain that has a usable modifier. -/
structure FirstUsable (params : ChainParams) (chain : PFullIndex) (pindexFrom block : FullIndex) :
    Prop where
  usable : usableModifier params pindexFrom.getBlockTime block = true
  /-- It comes after `pindexFrom`, and no block between them is usable. -/
  first : ∃ newer between older, chain = newer ++ block :: (between ++ pindexFrom :: older) ∧
    ∀ b ∈ between, usableModifier params pindexFrom.getBlockTime b = false

theorem firstUsable_of_find {params : ChainParams} {older : PFullIndex}
    (hc : chain = after.reverse ++ pindexFrom :: older)
    (h : after.find? (usableModifier params pindexFrom.getBlockTime) = some block) :
    FirstUsable params chain pindexFrom block := by
  obtain ⟨husable, between, newer, hsplit, hbetween⟩ := find?_eq_some_iff_append.mp h
  refine ⟨husable, newer.reverse, between.reverse, older, ?_, fun b hb => ?_⟩
  · rw [hc, hsplit]
    simp
  · simpa using hbetween b (mem_reverse.mp hb)

/-- What is found among the blocks up to a height is found whatever follows them. -/
theorem find_append_of_height {nHeight : Int} {p : FullIndex → Bool} {common rest : List FullIndex}
    (hrest : ∀ b ∈ rest, nHeight < b.nHeight) (hblock : block.nHeight ≤ nHeight)
    (h : (common ++ rest).find? p = some block) : common.find? p = some block := by
  rw [find?_append] at h
  cases hcommon : common.find? p with
  | some b => rwa [hcommon] at h
  | none =>
    rw [hcommon] at h
    exact absurd (hrest block (mem_of_find?_eq_some h)) (not_lt.mpr hblock)

/-- If two best chains have the same blocks up to a height and the modifier for a block on one of
them is not above it, the other gives the same: that of the first generated modifier that is late
enough. -/
theorem getKernelStakeModifier_agrees (params : ChainParams)
    (mapBlockIndex mapBlockIndex' : Uint256 → Option PFullIndex)
    (pnext pnext' : Uint256 → Option Uint256) (chain chain' : PFullIndex)
    (h : OnBestChain mapBlockIndex pnext chain) (h' : OnBestChain mapBlockIndex' pnext' chain')
    (nCommon : Int)
    (hcommon : chain.filter (fun pindex => pindex.nHeight ≤ nCommon) =
      chain'.filter (fun pindex => pindex.nHeight ≤ nCommon))
    (pindexFrom : FullIndex) (hmem : pindexFrom ∈ chain) (hfrom : pindexFrom.nHeight ≤ nCommon)
    (nAdjustedTime nAdjustedTime' : Int) (fPrint fPrint' : Bool) (fuel fuel' : Nat)
    (hfuel : chain.length ≤ fuel) (hfuel' : chain'.length ≤ fuel')
    (nStakeModifier : UInt64) (nStakeModifierHeight nStakeModifierTime : Int)
    (hok : getKernelStakeModifier params mapBlockIndex pnext nAdjustedTime fPrint fuel
      pindexFrom.hashBlock = .ok (nStakeModifier, nStakeModifierHeight, nStakeModifierTime))
    (hheight : nStakeModifierHeight ≤ nCommon) :
    getKernelStakeModifier params mapBlockIndex' pnext' nAdjustedTime' fPrint' fuel'
      pindexFrom.hashBlock = .ok (nStakeModifier, nStakeModifierHeight, nStakeModifierTime) ∧
    ∃ block, FirstUsable params chain pindexFrom block ∧ block.nStakeModifier = nStakeModifier ∧
      block.nHeight = nStakeModifierHeight ∧ block.getBlockTime = nStakeModifierTime := by
  -- both chains are something above the common blocks, and the block is one of these
  have hsplit := split_at_height nCommon h.heights
  have hsplit' := split_at_height nCommon h'.heights
  rw [← hcommon] at hsplit'
  have hin : pindexFrom ∈ chain.filter (fun pindex => pindex.nHeight ≤ nCommon) :=
    mem_filter.mpr ⟨hmem, by simpa using hfrom⟩
  obtain ⟨above, older, hcut⟩ := append_of_mem hin
  rw [hcut] at hsplit hsplit'
  have hpath : ∀ {top c : PFullIndex}, c = top ++ (above ++ pindexFrom :: older) →
      c = (above.reverse ++ top.reverse).reverse ++ pindexFrom :: older := by
    intro top c hc
    rw [hc]
    simp
  have hfind := getKernelStakeModifier_eq_find h params nAdjustedTime fPrint (hpath hsplit) hfuel
  have hfind' := getKernelStakeModifier_eq_find h' params nAdjustedTime' fPrint' (hpath hsplit') hfuel'
  rw [hok] at hfind
  obtain ⟨block, hblock, hres⟩ := map_eq_some_iff.mp hfind.symm
  cases hres
  have habove := find_append_of_height (by simp) hheight hblock
  rw [find?_append, habove] at hfind'
  refine ⟨?_, block, firstUsable_of_find (hpath hsplit) hblock, rfl, rfl, rfl⟩
  cases hrun : getKernelStakeModifier params mapBlockIndex' pnext' nAdjustedTime' fPrint' fuel'
      pindexFrom.hashBlock with
  | ok r =>
    rw [hrun] at hfind'
    exact congrArg Except.ok (some.inj hfind')
  | error e =>
    rw [hrun] at hfind'
    cases hfind'

/-! ### A fork -/

def forkStem : PFullIndex :=
  [{ sampleRecord 3 2 1600072000 4 with nStakeModifier := 77 }, sampleRecord 2 1 1600001000 0,
    sampleRecord 1 0 1600000000 4]

def forkLeft : PFullIndex := sampleRecord 4 3 1600073000 0 :: forkStem
def forkRight : PFullIndex :=
  sampleRecord 6 4 1600160000 4 :: sampleRecord 5 3 1600150000 0 :: forkStem

theorem onBestChain_chainIndex (hnodup : (chain.map (·.hashBlock)).Nodup)
    (hheights : EachBlock heightFollows chain.pindex) :
    OnBestChain (chainIndex chain) (Links.links (chain.map (·.hashBlock))) chain :=
  ⟨indexedChain_chainIndex hnodup, rfl, hheights⟩

/-- Two branches from one block give its kernel the same modifier. -/
theorem forkBranches_agree :
    getKernelStakeModifier sampleParams (chainIndex forkLeft)
      (Links.links (forkLeft.map (·.hashBlock))) 0 false 4 1 = .ok (77, 2, 1600072000) ∧
    getKernelStakeModifier sampleParams (chainIndex forkRight)
      (Links.links (forkRight.map (·.hashBlock))) 0 false 5 1 = .ok (77, 2, 1600072000) := by
  have hleft : getKernelStakeModifier sampleParams (chainIndex forkLeft)
      (Links.links (forkLeft.map (·.hashBlock))) 0 false 4 1 = .ok (77, 2, 1600072000) := by
    decide +kernel
  have hchain : OnBestChain (chainIndex forkLeft) (Links.links (forkLeft.map (·.hashBlock))) forkLeft :=
    onBestChain_chainIndex (by decide) (by decide)
  have hchain' : OnBestChain (chainIndex forkRight) (Links.links (forkRight.map (·.hashBlock)))
      forkRight := onBestChain_chainIndex (by decide) (by decide)
  exact ⟨hleft, (getKernelStakeModifier_agrees sampleParams _ _ _ _ forkLeft forkRight hchain hchain' 2
    (by decide) (sampleRecord 1 0 1600000000 4) (by decide) (by decide) 0 0 false false 4 5 (by decide)
    (by decide) 77 2 1600072000 hleft (by decide)).1⟩

end NovaCoin
