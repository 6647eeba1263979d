import NovaCoin.Alert

/-!
# The final alert

The alert with the number `INT_MAX` says that the key of the alerts is compromised. Whoever has that
key can take it back: `ProcessAlert` first erases what the new alert cancels, and only then looks
whether the new alert is cancelled itself. The final alert stays exactly as long as no other alert
names `INT_MAX` (`finalAlert_iff`).
-/

namespace NovaCoin

open Guard List

variable {crypto : Crypto} {fTestNet : Bool} {nNow : Int64} {mapAlerts : AlertMap}
  {final alert : CAlert} {calls : List AlertCall}

/-- The alert that is reserved for a compromised key. -/
structure CAlert.IsFinal (final : CAlert) : Prop where
  nID : final.nID = maxInt
  form : final.hasFinalForm = true

/-- The alert says that it cancels the number of the final alert. -/
def CAlert.CancelsMaxInt (alert : CAlert) : Prop :=
  alert.nCancel = maxInt ∨ maxInt ∈ alert.setCancel

/-- The final alert in its place. -/
def AlertMap.Has (crypto : Crypto) (mapAlerts : AlertMap) (final : CAlert) : Prop :=
  mapAlerts.lookup (final.getHash crypto) = some final

namespace CAlert

theorem maxInt_le_iff {n : Int32} : maxInt ≤ n ↔ n = maxInt := by
  constructor
  · intro h
    have hle : maxInt.toInt ≤ n.toInt := Int32.le_iff_toInt_le.mp h
    have hmax : maxInt.toInt = 2147483647 := by decide
    have hn := n.toInt_lt
    exact Int32.toInt.inj (by omega)
  · rintro rfl
    exact Int32.le_refl maxInt

theorem le_pred_maxInt {n : Int32} (h : n ≠ maxInt) : n ≤ maxInt - 1 := by
  have hne : n.toInt ≠ maxInt.toInt := fun he => h (Int32.toInt.inj he)
  have hmax : maxInt.toInt = 2147483647 := by decide
  have hpred : (maxInt - 1).toInt = 2147483646 := by decide
  have hn := n.toInt_lt
  exact Int32.le_iff_toInt_le.mpr (by omega)

theorem isInEffect_of_isAdmitted (h : alert.isAdmitted nNow) :
    alert.isInEffect nNow := by
  rw [isAdmitted, Bool.and_eq_true] at h
  exact h.1

theorem cancels_iff {self : CAlert} (h : self.isInEffect nNow) :
    self.cancels nNow alert ↔ alert.nID ≤ self.nCancel ∨ alert.nID ∈ self.setCancel := by
  simp [cancels, h]

theorem cancels_final_iff (hfinal : final.IsFinal) (h : alert.isInEffect nNow) :
    alert.cancels nNow final ↔ alert.CancelsMaxInt := by
  rw [cancels_iff h, hfinal.nID, maxInt_le_iff]
  rfl

/-- While it is in effect, the final alert cancels every other number. -/
theorem IsFinal.cancels (hfinal : final.IsFinal) (h : final.isInEffect nNow)
    (hne : alert.nID ≠ maxInt) : CAlert.cancels nNow final alert := by
  have hform := hfinal.form
  simp only [hasFinalForm, Bool.and_eq_true, beq_iff_eq] at hform
  rw [cancels_iff h, hform.1.1.1.1.1.2]
  exact .inl (le_pred_maxInt hne)

end CAlert

namespace AlertMap

theorem lookup_expire {hash : Uint256} :
    (expire nNow alert mapAlerts).lookup hash =
      (mapAlerts.lookup hash).filter fun old => !alert.cancels nNow old && old.isInEffect nNow :=
  AssocMap.lookup_filter _ mapAlerts hash

theorem lookup_insertNew {hash k : Uint256} :
    (insertNew mapAlerts hash alert).lookup k =
      if k = hash ∧ hash ∉ mapAlerts then some alert else mapAlerts.lookup k := by
  unfold insertNew
  by_cases h : hash ∈ mapAlerts
  · rw [if_pos h, if_neg fun hk => hk.2 h]
  · rw [if_neg h, AssocMap.lookup_insert_ite]
    simp [h]

theorem isCancelled_iff : isCancelled nNow alert mapAlerts ↔
    ∃ hash old, mapAlerts.lookup hash = some old ∧ CAlert.cancels nNow old alert := by
  simp only [isCancelled, any_eq_true]
  constructor
  · rintro ⟨⟨hash, old⟩, hmem, hc⟩
    exact ⟨hash, old, AList.mem_lookup_iff.mpr hmem, hc⟩
  · rintro ⟨hash, old, hl, hc⟩
    exact ⟨⟨hash, old⟩, AList.mem_lookup_iff.mp hl, hc⟩

theorem Has.expire (h : mapAlerts.Has crypto final) (heffect : final.isInEffect nNow)
    (hc : alert.cancels nNow final = false) :
    (AlertMap.expire nNow alert mapAlerts).Has crypto final := by
  unfold Has at h ⊢
  rw [lookup_expire, h]
  simp [hc, heffect]

theorem Has.insertNew (h : mapAlerts.Has crypto final) (hash : Uint256) :
    (AlertMap.insertNew mapAlerts hash alert).Has crypto final := by
  have hmem := AssocMap.mem_of_lookup h
  unfold Has at h ⊢
  rw [lookup_insertNew, if_neg, h]
  rintro ⟨rfl, hnot⟩
  exact hnot hmem

theorem eq_of_has_add (hc : alert.cancels nNow final)
    (h : (add crypto nNow mapAlerts alert).1.Has crypto final) :
    alert = final ∧ (add crypto nNow mapAlerts alert).2 = true := by
  have hgone : (AlertMap.expire nNow alert mapAlerts).lookup (final.getHash crypto) ≠ some final := by
    rw [lookup_expire]
    simp [Option.filter_eq_some_iff, hc]
  unfold Has add at h
  unfold add
  by_cases hcancel : isCancelled nNow alert (AlertMap.expire nNow alert mapAlerts)
  · rw [if_pos hcancel] at h
    exact absurd h hgone
  · rw [if_neg hcancel, lookup_insertNew] at h
    rw [if_neg hcancel]
    split at h
    · exact ⟨Option.some.inj h, rfl⟩
    · exact absurd h hgone

section

variable (h : mapAlerts.Has crypto final) (heffect : final.isInEffect nNow)
include h heffect

theorem Has.add (hfinal : final.IsFinal) (hc : alert.cancels nNow final = false) :
    (add crypto nNow mapAlerts alert).1.Has crypto final ∧
      ((add crypto nNow mapAlerts alert).2 → alert.nID = CAlert.maxInt) := by
  have hkept := h.expire heffect hc
  unfold AlertMap.add
  by_cases hcancel : isCancelled nNow alert (AlertMap.expire nNow alert mapAlerts)
  · rw [if_pos hcancel]
    exact ⟨hkept, fun hf => absurd hf Bool.false_ne_true⟩
  · rw [if_neg hcancel]
    refine ⟨hkept.insertNew _, fun _ => ?_⟩
    by_contra hne
    exact hcancel (isCancelled_iff.mpr ⟨_, final, hkept, hfinal.cancels heffect hne⟩)

theorem Has.add_self (hfinal : final.IsFinal) :
    (AlertMap.add crypto nNow mapAlerts final).1.Has crypto final ∧
      ((AlertMap.add crypto nNow mapAlerts final).2 → final.nID = CAlert.maxInt) := by
  by_cases hc : final.cancels nNow final
  · -- everything is erased, so nothing cancels it
    have hall : ∀ old : CAlert, CAlert.cancels nNow final old := by
      intro old
      by_cases hold : old.nID = CAlert.maxInt
      · rw [CAlert.cancels_iff heffect, hold, ← hfinal.nID]
        exact (CAlert.cancels_iff heffect).mp hc
      · exact hfinal.cancels heffect hold
    have hempty : ∀ hash, (AlertMap.expire nNow final mapAlerts).lookup hash = none := by
      intro hash
      rw [lookup_expire]
      simp [hall]
    have hcancel : ¬ isCancelled nNow final (AlertMap.expire nNow final mapAlerts) := by
      rw [isCancelled_iff]
      rintro ⟨hash, old, hl, -⟩
      rw [hempty] at hl
      cases hl
    unfold AlertMap.add
    rw [if_neg hcancel]
    refine ⟨?_, fun _ => hfinal.nID⟩
    unfold Has
    rw [lookup_insertNew, if_pos]
    refine ⟨rfl, fun hmem => ?_⟩
    obtain ⟨old, hl⟩ := AssocMap.exists_lookup hmem
    rw [hempty] at hl
    cases hl
  · exact h.add heffect hfinal (Bool.eq_false_iff.mpr hc)

/-- What an alert in the map cancels is turned away, unless it cancels that alert in turn: the first
loop comes before the second. -/
theorem Has.add_cancelled_iff (hc : CAlert.cancels nNow final alert) :
    (AlertMap.add crypto nNow mapAlerts alert).2 = false ∧
      (AlertMap.add crypto nNow mapAlerts alert).1.Has crypto final ↔
        alert.cancels nNow final = false := by
  constructor
  · rintro ⟨hfalse, hhas⟩
    by_contra hne
    rw [(eq_of_has_add (Bool.eq_true_of_not_eq_false hne) hhas).2] at hfalse
    cases hfalse
  · intro hkeeps
    have hkept := h.expire heffect hkeeps
    unfold AlertMap.add
    rw [if_pos (isCancelled_iff.mpr ⟨_, final, hkept, hc⟩)]
    exact ⟨rfl, hkept⟩

end

end AlertMap

/-! ## Calls -/

variable {received : CAlert}

theorem processAlert_eq (hsig : received.checkSignature crypto fTestNet = .ok alert) :
    processAlert crypto fTestNet nNow mapAlerts received =
      if !alert.isAdmitted nNow then (mapAlerts, false)
      else AlertMap.add crypto nNow mapAlerts alert := by
  rw [processAlert, hsig]

/-- With the final alert in place, a call leaves it there and accepts no other number, exactly if
the alert is the final one, is not admitted, or does not cancel `INT_MAX`. -/
theorem processAlert_final_iff (hfinal : final.IsFinal) (h : mapAlerts.Has crypto final)
    (heffect : final.isInEffect nNow) (hsig : received.checkSignature crypto fTestNet = .ok alert) :
    ((processAlert crypto fTestNet nNow mapAlerts received).1.Has crypto final ∧
      ((processAlert crypto fTestNet nNow mapAlerts received).2 → alert.nID = CAlert.maxInt)) ↔
      (alert.isAdmitted nNow → alert.CancelsMaxInt → alert = final) := by
  rw [processAlert_eq hsig]
  cases hadm : alert.isAdmitted nNow with
  | false =>
    exact ⟨fun _ hf => absurd hf Bool.false_ne_true,
      fun _ => ⟨h, fun hf => absurd hf Bool.false_ne_true⟩⟩
  | true =>
    have halert := CAlert.isInEffect_of_isAdmitted hadm
    constructor
    · rintro ⟨hkept, -⟩ - hmax
      exact (AlertMap.eq_of_has_add ((CAlert.cancels_final_iff hfinal halert).mpr hmax) hkept).1
    · intro hcond
      by_cases hc : alert.cancels nNow final
      · obtain rfl := hcond rfl ((CAlert.cancels_final_iff hfinal halert).mp hc)
        exact h.add_self heffect hfinal
      · exact h.add heffect hfinal (Bool.eq_false_iff.mpr hc)

theorem processAlerts_append (crypto : Crypto) (fTestNet : Bool) (mapAlerts : AlertMap)
    (pre : List AlertCall) (call : AlertCall) :
    processAlerts crypto fTestNet mapAlerts (pre ++ [call]) =
      (processAlert crypto fTestNet call.nNow (processAlerts crypto fTestNet mapAlerts pre)
        call.alert).1 := by
  simp [processAlerts]

/-- The final alert stays, and no other number is accepted, as long as no other admitted alert
cancels `INT_MAX`. -/
theorem finalAlert_iff (hfinal : final.IsFinal) (hmap : mapAlerts.Has crypto final)
    (hsigned : ∀ call ∈ calls, ∃ alert, call.alert.checkSignature crypto fTestNet = .ok alert)
    (heffect : ∀ call ∈ calls, final.isInEffect call.nNow = true) :
    (∀ pre call, pre ++ [call] <+: calls →
      ∀ alert, call.alert.checkSignature crypto fTestNet = .ok alert →
        let result := processAlert crypto fTestNet call.nNow
          (processAlerts crypto fTestNet mapAlerts pre) call.alert
        result.1.Has crypto final ∧ (result.2 = true → alert.nID = CAlert.maxInt)) ↔
      ∀ call ∈ calls, ∀ alert, call.alert.checkSignature crypto fTestNet = .ok alert →
        alert.isAdmitted call.nNow = true → alert.CancelsMaxInt → alert = final := by
  -- the final alert is in place before every call
  have hbefore : (∀ call ∈ calls, ∀ alert, call.alert.checkSignature crypto fTestNet = .ok alert →
        alert.isAdmitted call.nNow → alert.CancelsMaxInt → alert = final) →
      ∀ pre, pre <+: calls → (processAlerts crypto fTestNet mapAlerts pre).Has crypto final := by
    intro hcond pre
    induction pre using reverseRecOn with
    | nil => exact fun _ => hmap
    | append_singleton pre call ih =>
      intro hpre
      have hmem : call ∈ calls := hpre.subset (by simp)
      have hhas := ih ((prefix_append pre [call]).trans hpre)
      obtain ⟨alert, hsig⟩ := hsigned call hmem
      rw [processAlerts_append]
      exact ((processAlert_final_iff hfinal hhas (heffect call hmem) hsig).mpr
        (hcond call hmem alert hsig)).1
  constructor
  · intro hall call hmem alert hsig
    obtain ⟨pre, rest, rfl⟩ := append_of_mem hmem
    have hpre : pre ++ [call] <+: pre ++ call :: rest := ⟨rest, by simp⟩
    have hhas : (processAlerts crypto fTestNet mapAlerts pre).Has crypto final := by
      rcases eq_nil_or_concat pre with rfl | ⟨front, last, rfl⟩
      · exact hmap
      · rw [concat_eq_append] at hpre hsigned hall ⊢
        have hlast : front ++ [last] <+: front ++ [last] ++ call :: rest := prefix_append _ _
        obtain ⟨alert', hsig'⟩ := hsigned last (by simp)
        rw [processAlerts_append]
        exact (hall front last hlast alert' hsig').1
    exact (processAlert_final_iff hfinal hhas (heffect call hmem) hsig).mp
      (hall pre call hpre alert hsig)
  · intro hcond pre call hpre alert hsig
    have hmem : call ∈ calls := hpre.subset (by simp)
    have hhas := hbefore hcond pre ((prefix_append pre [call]).trans hpre)
    exact (processAlert_final_iff hfinal hhas (heffect call hmem) hsig).mpr
      (hcond call hmem alert hsig)

/-! ## An alert that takes the final alert back -/

def alertMessage (nExpiration nID nCancel nMaxVer nPriority : Nat) (strStatusBar : List UInt8) :
    List UInt8 :=
  leBytes 4 1 ++ leBytes 8 0 ++ leBytes 8 nExpiration ++ leBytes 4 nID ++ leBytes 4 nCancel ++ [0] ++
    leBytes 4 0 ++ leBytes 4 nMaxVer ++ [0] ++ leBytes 4 nPriority ++ [0] ++
    serializeBytes strStatusBar ++ [0]

def sampleFinalMsg : List UInt8 :=
  alertMessage 2147483647 2147483647 2147483646 2147483647 2147483647
    (stringBytes "URGENT: Alert key compromised, upgrade required")

def sampleFinal : CAlert :=
  { nVersion := 1, nRelayUntil := 0, nExpiration := 2147483647, nID := 2147483647,
    nCancel := 2147483646, setCancel := ∅, nMinVer := 0, nMaxVer := 2147483647, setSubVer := ∅,
    nPriority := 2147483647, strComment := [],
    strStatusBar := stringBytes "URGENT: Alert key compromised, upgrade required",
    strReserved := [], vchMsg := sampleFinalMsg, vchSig := [] }

def sampleAlerts : AlertMap := processAlerts Crypto.sample false ∅ [⟨sampleFinalMsg, [], 1600000000⟩]

def sampleAlertCall (nCancel : Nat) : AlertCall :=
  ⟨alertMessage 2147483647 1 nCancel 2147483647 1 [], [], 1600000000⟩

theorem sampleFinal_isFinal : sampleFinal.IsFinal := ⟨by decide +kernel, by decide +kernel⟩

theorem sampleAlerts_has : sampleAlerts.Has Crypto.sample sampleFinal := by
  unfold AlertMap.Has
  decide +kernel

/-- With `nCancel` at `INT_MAX`, an ordinary alert erases the final alert and is accepted. -/
theorem finalAlert_erased :
    sampleFinal.IsFinal ∧ sampleAlerts.Has Crypto.sample sampleFinal ∧
      sampleFinal.isInEffect (sampleAlertCall 2147483647).nNow = true ∧
      (∃ alert, (sampleAlertCall 2147483647).alert.checkSignature Crypto.sample false = .ok alert ∧
        decide (alert.nID = 1) = true) ∧
      let result := processAlert Crypto.sample false (sampleAlertCall 2147483647).nNow sampleAlerts
        (sampleAlertCall 2147483647).alert
      result.1.lookup (sampleFinal.getHash Crypto.sample) = none ∧ result.2 = true :=
  ⟨sampleFinal_isFinal, sampleAlerts_has, by decide +kernel, by decide +kernel, by decide +kernel,
    by decide +kernel⟩

/-- An alert that cancels the numbers below is turned away. -/
theorem finalAlert_kept :
    ∃ alert, (sampleAlertCall 2147483646).alert.checkSignature Crypto.sample false = .ok alert ∧
      let result := processAlert Crypto.sample false (sampleAlertCall 2147483646).nNow sampleAlerts
        (sampleAlertCall 2147483646).alert
      result.1.Has Crypto.sample sampleFinal ∧ (result.2 = true → alert.nID = CAlert.maxInt) := by
  obtain ⟨alert, hsig, hcond⟩ :
      ∃ alert, (sampleAlertCall 2147483646).alert.checkSignature Crypto.sample false = .ok alert ∧
        alert.nCancel ≠ CAlert.maxInt ∧ CAlert.maxInt ∉ alert.setCancel := by
    decide +kernel
  refine ⟨alert, hsig, (finalAlert_iff sampleFinal_isFinal sampleAlerts_has
    (forall_mem_singleton.mpr ⟨alert, hsig⟩) (forall_mem_singleton.mpr (by decide +kernel))).mpr ?_
    [] (sampleAlertCall 2147483646) (prefix_refl _) alert hsig⟩
  refine forall_mem_singleton.mpr fun alert' hsig' _ hmax => ?_
  obtain rfl := Except.ok.inj (hsig.symm.trans hsig')
  rcases hmax with h | h
  · exact absurd h hcond.1
  · exact absurd h hcond.2

/-! ## Cancelled alerts -/

/-- The call takes `a` off the map because its alert `b` cancels it. -/
structure CancelledBy (crypto : Crypto) (fTestNet : Bool) (mapAlerts : AlertMap) (call : AlertCall)
    (a b : CAlert) : Prop where
  has : mapAlerts.Has crypto a
  signed : call.alert.checkSignature crypto fTestNet = .ok b
  admitted : b.isAdmitted call.nNow
  cancels : b.cancels call.nNow a

variable {a b : CAlert} {call callB : AlertCall}

/-- A cancelled alert stays cancelled, and what cancelled it in the map, exactly if it does not
cancel that one in turn. -/
theorem cancelledAlert_iff (pre mid : List AlertCall)
    (hsig : call.alert.checkSignature crypto fTestNet = .ok a)
    (hcancelled : CancelledBy crypto fTestNet (processAlerts crypto fTestNet mapAlerts pre) callB a b)
    (hb : (processAlerts crypto fTestNet mapAlerts (pre ++ callB :: mid)).Has crypto b)
    (heffect : b.isInEffect call.nNow) :
    let result := processAlert crypto fTestNet call.nNow
      (processAlerts crypto fTestNet mapAlerts (pre ++ callB :: mid)) call.alert
    result.2 = false ∧ result.1.Has crypto b ↔
      (a.isAdmitted call.nNow → a.cancels call.nNow b = false) := by
  -- what `b` cancels does not depend on the time, as long as it is in effect
  have hc : b.cancels call.nNow a := (CAlert.cancels_iff heffect).mpr
    ((CAlert.cancels_iff (CAlert.isInEffect_of_isAdmitted hcancelled.admitted)).mp hcancelled.cancels)
  rw [processAlert_eq hsig]
  cases hadm : a.isAdmitted call.nNow with
  | false => simpa using hb
  | true => simpa using hb.add_cancelled_iff heffect hc

def rivalCall (nID nCancel : Nat) : AlertCall :=
  ⟨alertMessage 2147483647 nID nCancel 2147483647 1 [], [], 1600000000⟩

def rivalAlert (nID nCancel : Nat) : CAlert :=
  (((rivalCall nID nCancel).alert.checkSignature Crypto.sample false).toOption).getD
    (rivalCall nID nCancel).alert

theorem rivalAlert_signed {nID nCancel : Nat}
    (h : ((rivalCall nID nCancel).alert.checkSignature Crypto.sample false).toOption.isSome) :
    (rivalCall nID nCancel).alert.checkSignature Crypto.sample false =
      .ok (rivalAlert nID nCancel) := by
  unfold rivalAlert
  cases hsig : (rivalCall nID nCancel).alert.checkSignature Crypto.sample false with
  | error e => simp [hsig, Except.toOption] at h
  | ok alert => rfl

/-- Two alerts that cancel each other: the first comes again and is accepted. -/
theorem cancelledAlert_returns :
    CancelledBy Crypto.sample false (processAlerts Crypto.sample false ∅ [rivalCall 1 2])
        (rivalCall 2 2) (rivalAlert 1 2) (rivalAlert 2 2) ∧
      let mapAlerts := processAlerts Crypto.sample false ∅ [rivalCall 1 2, rivalCall 2 2]
      let result := processAlert Crypto.sample false 1600000000 mapAlerts (rivalCall 1 2).alert
      mapAlerts.Has Crypto.sample (rivalAlert 2 2) ∧ (rivalAlert 2 2).isInEffect 1600000000 ∧
        result.2 ∧ result.1.lookup ((rivalAlert 2 2).getHash Crypto.sample) = none :=
  ⟨⟨(by decide +kernel : _ = _), rivalAlert_signed (by decide +kernel), by decide +kernel,
    by decide +kernel⟩, (by decide +kernel : _ = _), by decide +kernel, by decide +kernel,
    by decide +kernel⟩

/-- The first alert cancels nothing, and is turned away when it comes again. -/
theorem cancelledAlert_kept :
    let mapAlerts := processAlerts Crypto.sample false ∅ [rivalCall 1 0, rivalCall 2 1]
    let result := processAlert Crypto.sample false 1600000000 mapAlerts (rivalCall 1 0).alert
    result.2 = false ∧ result.1.Has Crypto.sample (rivalAlert 2 1) :=
  (cancelledAlert_iff [rivalCall 1 0] [] (rivalAlert_signed (by decide +kernel))
    ⟨(by decide +kernel : _ = _), rivalAlert_signed (by decide +kernel), by decide +kernel,
      by decide +kernel⟩
    (by decide +kernel : _ = _) (by decide +kernel)).mpr fun _ => by decide +kernel

end NovaCoin
