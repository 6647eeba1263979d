import Mathlib.Data.List.Count
import NovaCoin.Infra.Median
import NovaCoin.Infra.Runs
import NovaCoin.TimeData

/-!
# What peers can do to the clock

`GetTimeOffset` lets offsets through whose `std::abs` is small. The least `int64_t` is its own
`std::abs`, so it is let through as well; peers bring it in as the median if more than half of the
values in the filter are this number (`timeOffset_bounded_iff`). A median that is looked at lies
between two honest values while fewer than half of the values come from adversarial addresses
(`median_between_honest`).
-/

namespace NovaCoin

open List

/-! ## `std::abs` and the median -/

theorem toInt_abs (x : Int64) :
    x.abs.toInt = if x = Int64.minValue then Int64.minValue.toInt else (x.toInt.natAbs : Int) := by
  show x.abs.toBitVec.toInt = _
  rw [Int64.toBitVec_abs, BitVec.toInt_abs_eq_natAbs]
  simp only [← Int64.toBitVec_inj, Int64.toBitVec_minValue]
  rfl

/-- The least `int64_t` is the only number that passes a test it should fail. -/
theorem natAbs_lt_iff_of_abs_lt {x : Int64} (h : x.abs < 70 * 60) :
    (x.toInt.natAbs : Int) < 70 * 60 ↔ x ≠ Int64.minValue := by
  rw [Int64.lt_iff_toInt_lt, toInt_abs] at h
  by_cases hx : x = Int64.minValue
  · subst hx
    exact iff_of_false (by decide) (by simp)
  · rw [if_neg hx] at h
    exact iff_of_true h hx

theorem ne_minValue_of_not_abs_lt {x c : Int64} (h : ¬x.abs < c) (hc : Int64.minValue < c) :
    x ≠ Int64.minValue := by
  rintro rfl
  exact h hc

theorem CMedianFilter.toInt_median_input {filter : CMedianFilter Int64} {value : Int64}
    (hodd : (filter.input value).size % 2 = 1) :
    (filter.input value).median.toInt =
      Median.median 0 ((filter.input value).vValues.map Int64.toInt) := by
  have hlen : (filter.input value).vSorted.length = (filter.input value).size :=
    length_insertionSort _ _
  have hsorted : (filter.input value).vSorted.map Int64.toInt =
      ((filter.input value).vValues.map Int64.toInt).insertionSort (· ≤ ·) :=
    map_insertionSort _ _ _ _ fun _ _ _ _ => Int64.le_iff_toInt_le
  have hdefault : (default : Int64).toInt = 0 := rfl
  rw [median, hlen, if_pos hodd, Median.median, ← hsorted, length_map, ← hdefault]
  simp only [getD_eq_getElem?_getD, getElem?_map, Option.getD_map]
  rfl

namespace TimeData

/-! ## Calls -/

structure TimeCall where
  ip : CNetAddr
  nTime : Int64
  now : Int64

variable (t : TimeData) (c : TimeCall)

def call : TimeData := t.addTimeData c.ip c.nTime c.now

def after (calls : List TimeCall) : TimeData := calls.foldl call init

theorem after_append_singleton (calls : List TimeCall) (c : TimeCall) :
    after (calls ++ [c]) = (after calls).call c := by
  rw [after, foldl_append]
  rfl

def nextFilter : CMedianFilter Int64 := t.vTimeOffsets.input (c.nTime - c.now)

def consults : Bool := t.accepts c.ip && consulted (t.nextFilter c)

variable {t c}

theorem size_of_consults (h : t.consults c) : (t.nextFilter c).size % 2 = 1 := by
  simp only [consults, consulted, Bool.and_eq_true, beq_iff_eq] at h
  exact h.2.2

theorem nNodesOffset_setNodesOffset (t : TimeData) : t.setNodesOffset.nNodesOffset =
    if t.vTimeOffsets.median.abs < 70 * 60 then t.vTimeOffsets.median else Int64.maxValue := by
  unfold setNodesOffset
  by_cases h : t.vTimeOffsets.median.abs < 70 * 60
  · simp only [h, if_true]
  · simp only [h, if_false]
    split <;> rfl

theorem nNodesOffset_call : (t.call c).nNodesOffset =
    if t.consults c then
      if (t.nextFilter c).median.abs < 70 * 60 then (t.nextFilter c).median else Int64.maxValue
    else t.nNodesOffset := by
  unfold call addTimeData consults
  cases t.accepts c.ip with
  | false => rfl
  | true =>
    simp only [Bool.not_true, Bool.false_eq_true, if_false, Bool.true_and]
    show (if consulted (t.nextFilter c) then setNodesOffset _ else _).nNodesOffset = _
    split
    · exact nNodesOffset_setNodesOffset _
    · rfl

/-- A new offset that is finite is the median. -/
theorem nNodesOffset_call_eq_median (hconsults : t.consults c)
    (hfinite : (t.call c).nNodesOffset ≠ Int64.maxValue) :
    (t.call c).nNodesOffset = (t.nextFilter c).median := by
  rw [nNodesOffset_call, if_pos hconsults] at hfinite ⊢
  split at hfinite
  · next hsmall => rw [if_pos hsmall]
  · exact absurd rfl hfinite

/-! ## The limit -/

def Bounded (nNtpOffset : Int64) (t : TimeData) : Prop :=
  ((t.getTimeOffset nNtpOffset).toInt.natAbs : Int) < 70 * 60

def Outvoted (vValues : List Int64) : Prop := vValues.length < 2 * vValues.count Int64.minValue

theorem bounded_iff {nNtpOffset : Int64} : Bounded nNtpOffset t ↔ nNtpOffset ≠ Int64.minValue ∧
      (nNtpOffset.abs < 40 * 60 ∨ t.nNodesOffset ≠ Int64.minValue) := by
  unfold Bounded getTimeOffset
  by_cases hntp : nNtpOffset.abs < 40 * 60
  · rw [if_pos hntp, natAbs_lt_iff_of_abs_lt (Int64.lt_trans hntp (by decide))]
    simp only [hntp, true_or, and_true]
  · have hne : nNtpOffset ≠ Int64.minValue := ne_minValue_of_not_abs_lt hntp (by decide)
    rw [if_neg hntp]
    simp only [hne, hntp, ne_eq, not_false_eq_true, true_and, false_or]
    by_cases hnodes : t.nNodesOffset.abs < 70 * 60
    · rw [if_pos hnodes]
      exact natAbs_lt_iff_of_abs_lt hnodes
    · rw [if_neg hnodes]
      exact iff_of_true (by decide) (ne_minValue_of_not_abs_lt hnodes (by decide))

theorem median_eq_minValue_iff (h : t.consults c) :
    (t.nextFilter c).median = Int64.minValue ↔ Outvoted (t.nextFilter c).vValues := by
  have hodd := size_of_consults h
  have hne : (t.nextFilter c).vValues.map Int64.toInt ≠ [] := by
    intro he
    have := congrArg length he
    rw [length_map] at this
    rw [CMedianFilter.size, this] at hodd
    cases hodd
  have hleast : ∀ y ∈ (t.nextFilter c).vValues.map Int64.toInt, Int64.minValue.toInt ≤ y := by
    intro y hy
    obtain ⟨x, -, rfl⟩ := mem_map.mp hy
    exact Int64.minValue_le_toInt x
  have hcount : ((t.nextFilter c).vValues.map Int64.toInt).count Int64.minValue.toInt =
      (t.nextFilter c).vValues.count Int64.minValue :=
    count_map_of_injective _ _ (fun _ _ => Int64.toInt_inj.mp) _
  rw [← Int64.toInt_inj, nextFilter, CMedianFilter.toInt_median_input hodd, ← nextFilter,
    Median.median_eq_least_iff 0 hne hleast, length_map, Outvoted]
  omega

theorem nNodesOffset_call_ne_iff (h : t.nNodesOffset ≠ Int64.minValue) :
    (t.call c).nNodesOffset ≠ Int64.minValue ↔
      (t.consults c → ¬Outvoted (t.nextFilter c).vValues) := by
  rw [nNodesOffset_call]
  cases hc : t.consults c with
  | false => simpa using h
  | true =>
    rw [if_pos rfl, ← median_eq_minValue_iff hc]
    split
    · simp
    · next hlarge =>
      have hne := ne_minValue_of_not_abs_lt hlarge (by decide)
      simpa [hne] using (by decide : Int64.maxValue ≠ Int64.minValue)

/-- `GetTimeOffset` stays below the limit unless it is given the least `int64_t`: as the NTP offset,
or by more than half of the values of the filter while the NTP servers do not agree with the clock.
-/
theorem timeOffset_bounded_iff (nNtpOffset : Int64) (calls : List TimeCall) :
    (∀ pre, pre <+: calls → Bounded nNtpOffset (after pre)) ↔
      nNtpOffset ≠ Int64.minValue ∧ (nNtpOffset.abs < 40 * 60 ∨
        ∀ pre c, pre ++ [c] <+: calls → (after pre).consults c = true →
          ¬Outvoted ((after pre).nextFilter c).vValues) := by
  have hinit : init.nNodesOffset ≠ Int64.minValue := by decide
  have hnodes := Runs.forall_prefix_foldl_iff (f := call)
    (P := fun t => t.nNodesOffset ≠ Int64.minValue)
    (fun _ _ => nNodesOffset_call_ne_iff) hinit calls
  simp only [bounded_iff]
  unfold after
  rw [← hnodes]
  constructor
  · intro h
    refine ⟨(h [] nil_prefix).1, or_iff_not_imp_left.mpr fun hntp pre hpre => ?_⟩
    exact (h pre hpre).2.resolve_left hntp
  · rintro ⟨hne, hntp | hall⟩ pre hpre
    · exact ⟨hne, .inl hntp⟩
    · exact ⟨hne, .inr (hall pre hpre)⟩

theorem length_sampleIp (n : UInt8) : (pchIPv4 ++ [203, 0, 113, n]).length = 16 := rfl

def sampleIp (n : UInt8) : CNetAddr := ⟨pchIPv4 ++ [203, 0, 113, n], length_sampleIp n⟩

def sampleLiar (n : UInt8) : TimeCall :=
  ⟨sampleIp n, Int64.minValue + 1700000000, 1700000000⟩

/-- Four such peers set the clock while there is no offset from the NTP servers. -/
theorem timeOffset_minValue :
    (after [sampleLiar 1, sampleLiar 2, sampleLiar 3, sampleLiar 4]).getTimeOffset
      Int64.maxValue = Int64.minValue := by
  decide +kernel

/-! ## Honest and adversarial peers -/

/-- The state together with where the values of the filter come from. -/
structure TimeTrace where
  data : TimeData
  /-- The values of the filter and their peers. The first value has none. -/
  entries : List (Option CNetAddr × Int64)
  /-- All samples that were ever added to the filter, the newest first. -/
  samples : List (CNetAddr × Int64)

namespace TimeTrace

def init : TimeTrace := ⟨TimeData.init, [(none, 0)], []⟩

def call (t : TimeTrace) (c : TimeCall) : TimeTrace where
  data := t.data.call c
  entries :=
    if t.data.accepts c.ip then
      CMedianFilter.shift t.data.vTimeOffsets.nSize t.entries (some c.ip, c.nTime - c.now)
    else t.entries
  samples := if t.data.accepts c.ip then (c.ip, c.nTime - c.now) :: t.samples else t.samples

def after (calls : List TimeCall) : TimeTrace := calls.foldl call init

/-- The entries are those of the filter, and the samples are of the addresses that are known. -/
structure Traced (t : TimeTrace) : Prop where
  entries : t.entries.map Prod.snd = t.data.vTimeOffsets.vValues
  samples : t.samples.map Prod.fst = t.data.setKnown
  nodup : t.data.setKnown.Nodup

end TimeTrace

theorem map_shift {α β : Type} (f : α → β) (nSize : Nat) (vValues : List α) (value : α) :
    (CMedianFilter.shift nSize vValues value).map f =
      CMedianFilter.shift nSize (vValues.map f) (f value) := by
  unfold CMedianFilter.shift
  rw [map_append, length_map]
  split
  · rw [map_tail]
    rfl
  · rfl

theorem call_of_accepts (h : t.accepts c.ip) :
    (t.call c).vTimeOffsets = t.nextFilter c ∧ (t.call c).setKnown = c.ip :: t.setKnown := by
  unfold call addTimeData nextFilter
  simp only [h, Bool.not_true, Bool.false_eq_true, if_false]
  split
  · unfold setNodesOffset
    simp only
    split
    · exact ⟨rfl, rfl⟩
    · split <;> exact ⟨rfl, rfl⟩
  · exact ⟨rfl, rfl⟩

theorem call_of_not_accepts (h : t.accepts c.ip = false) : t.call c = t := by
  unfold call addTimeData
  rw [h]
  rfl

theorem notMem_of_accepts {ip : CNetAddr} (h : t.accepts ip) : ip ∉ t.setKnown := by
  simp only [accepts, Bool.and_eq_true, Bool.not_eq_true', contains_eq_mem,
    decide_eq_false_iff_not] at h
  exact h.2

namespace TimeTrace

theorem Traced.call {t : TimeTrace} (h : t.Traced) (c : TimeCall) : (t.call c).Traced := by
  cases hc : t.data.accepts c.ip with
  | false =>
    have hcall : t.call c = t := by
      simp only [TimeTrace.call, call_of_not_accepts hc, hc, Bool.false_eq_true, if_false]
    rwa [hcall]
  | true =>
    obtain ⟨hfilter, hknown⟩ := call_of_accepts hc
    constructor
    · show map _ (if t.data.accepts c.ip then _ else _) = (t.data.call c).vTimeOffsets.vValues
      rw [if_pos hc, map_shift, h.entries, hfilter]
      rfl
    · show map _ (if t.data.accepts c.ip then _ else _) = (t.data.call c).setKnown
      rw [if_pos hc, map_cons, h.samples, hknown]
    · show (t.data.call c).setKnown.Nodup
      rw [hknown]
      exact nodup_cons.mpr ⟨notMem_of_accepts hc, h.nodup⟩

theorem traced_after (calls : List TimeCall) : (after calls).Traced := by
  induction calls using reverseRecOn with
  | nil => exact ⟨rfl, rfl, nodup_nil⟩
  | append_singleton calls c ih =>
    rw [after, foldl_append]
    exact ih.call c

theorem data_after (calls : List TimeCall) : (after calls).data = TimeData.after calls := by
  induction calls using reverseRecOn with
  | nil => rfl
  | append_singleton calls c ih =>
    rw [after_append_singleton, ← ih, after, foldl_append]
    rfl

def adversarialEntry (adversarial : CNetAddr → Bool) (entry : Option CNetAddr × Int64) : Bool :=
  entry.1.any adversarial

/-- A new offset lies between two honest values if fewer than half of the values are adversarial. An
address adds at most one. -/
theorem median_between_honest (adversarial : CNetAddr → Bool) (calls : List TimeCall) :
    (∀ c, (TimeData.after calls).consults c = true →
      (TimeData.after (calls ++ [c])).nNodesOffset ≠ Int64.maxValue →
      2 * (after (calls ++ [c])).entries.countP (adversarialEntry adversarial) <
        (TimeData.after (calls ++ [c])).vTimeOffsets.vValues.length →
      (∃ low ∈ (after (calls ++ [c])).entries, adversarialEntry adversarial low = false ∧
        low.2 ≤ (TimeData.after (calls ++ [c])).nNodesOffset) ∧
      ∃ high ∈ (after (calls ++ [c])).entries, adversarialEntry adversarial high = false ∧
        (TimeData.after (calls ++ [c])).nNodesOffset ≤ high.2) ∧
    (after calls).entries.map Prod.snd = (TimeData.after calls).vTimeOffsets.vValues ∧
    ((after calls).samples.map Prod.fst).Nodup := by
  have htraced := traced_after calls
  refine ⟨?_, data_after calls ▸ htraced.entries, htraced.samples ▸ htraced.nodup⟩
  intro c hconsults hfinite hcount
  have hentries := (traced_after (calls ++ [c])).entries
  rw [data_after] at hentries
  rw [after_append_singleton] at hfinite hcount hentries ⊢
  have haccepts : (TimeData.after calls).accepts c.ip :=
    (Bool.and_eq_true_iff.mp hconsults).1
  have hvalues : (after (calls ++ [c])).entries.map (fun e => e.2.toInt) =
      ((TimeData.after calls).nextFilter c).vValues.map Int64.toInt := by
    rw [← (call_of_accepts haccepts).1, ← hentries, map_map]
    rfl
  have hmedian := nNodesOffset_call_eq_median hconsults hfinite
  have htoInt := CMedianFilter.toInt_median_input (size_of_consults hconsults)
  rw [← nextFilter, ← hmedian, ← hvalues] at htoInt
  rw [← hentries, length_map] at hcount
  obtain ⟨⟨low, hlow, hgood, hle⟩, high, hhigh, hgood', hle'⟩ :=
    Median.median_robust (f := fun e : Option CNetAddr × Int64 => e.2.toInt) 0 hcount
  rw [← htoInt] at hle hle'
  exact ⟨⟨low, hlow, hgood, Int64.le_iff_toInt_le.mpr hle⟩,
    high, hhigh, hgood', Int64.le_iff_toInt_le.mpr hle'⟩

def sampleCalls : List TimeCall :=
  [⟨sampleIp 1, 10, 0⟩, ⟨sampleIp 2, 60, 0⟩, ⟨sampleIp 3, 20, 0⟩]

def sampleAttack : TimeCall := ⟨sampleIp 4, Int64.maxValue, 0⟩

/-- One adversary among four peers. -/
theorem median_between_honest_sample :
    (TimeData.after (sampleCalls ++ [sampleAttack])).nNodesOffset = 20 ∧
      (∃ low ∈ (after (sampleCalls ++ [sampleAttack])).entries,
        adversarialEntry (· == sampleIp 4) low = false ∧
          low.2 ≤ (TimeData.after (sampleCalls ++ [sampleAttack])).nNodesOffset) ∧
      ∃ high ∈ (after (sampleCalls ++ [sampleAttack])).entries,
        adversarialEntry (· == sampleIp 4) high = false ∧
          (TimeData.after (sampleCalls ++ [sampleAttack])).nNodesOffset ≤ high.2 :=
  ⟨by decide +kernel, (median_between_honest (· == sampleIp 4) sampleCalls).1 sampleAttack
    (by decide +kernel) (by decide +kernel) (by decide +kernel)⟩

end TimeTrace

end TimeData

end NovaCoin
