import NovaCoin.Infra.Runs
import NovaCoin.Relay

/-!
# What is relayed, and for how long

A transaction that is relayed again gets a second entry in the queue, and the first entry that
expires takes it out of the map (`relay_lifetime_iff`). `SendMessages` passes the flag `false` down
to where the time of the best block is expected, so that no transaction of a wallet is old enough
to be sent again (`resend_complete_iff`).
-/

namespace NovaCoin

open List

namespace RelayMemory

/-! ## One call -/

variable (mapRelay : AList fun _ : CInv => CDataStream) {x : Int × CInv} {k : CInv}

section Expire

variable {now : Int}

theorem vRelayExpiration_expire_sublist (queue : List (Int × CInv)) :
    (expire now mapRelay queue).vRelayExpiration.Sublist queue := by
  induction queue generalizing mapRelay with
  | nil => simp [expire]
  | cons e queue ih =>
    rw [expire]
    split
    · exact (ih (mapRelay.erase e.2)).cons e
    · exact List.Sublist.refl _

variable {queue : List (Int × CInv)} (hsorted : queue.Pairwise (·.1 ≤ ·.1))

include hsorted

theorem mem_vRelayExpiration_expire (x : Int × CInv) :
    x ∈ (expire now mapRelay queue).vRelayExpiration ↔ x ∈ queue ∧ now ≤ x.1 := by
  induction queue generalizing mapRelay with
  | nil => simp [expire]
  | cons e queue ih =>
    rw [pairwise_cons] at hsorted
    rw [expire]
    split
    · next he =>
      rw [ih _ hsorted.2, mem_cons, or_and_right]
      refine ⟨.inr, ?_⟩
      rintro (⟨rfl, hx⟩ | hx)
      · omega
      · exact hx
    · next he =>
      refine ⟨fun hx => ⟨hx, ?_⟩, And.left⟩
      rcases mem_cons.mp hx with rfl | hx
      · omega
      · have := hsorted.1 x hx
        omega

theorem mem_mapRelay_expire (inv : CInv) :
    inv ∈ (expire now mapRelay queue).mapRelay ↔
      inv ∈ mapRelay ∧ ∀ e ∈ queue, e.1 < now → e.2 ≠ inv := by
  induction queue generalizing mapRelay with
  | nil => simp [expire]
  | cons e queue ih =>
    rw [pairwise_cons] at hsorted
    rw [expire]
    split
    · next he =>
      rw [ih _ hsorted.2, AList.mem_erase, forall_mem_cons]
      exact ⟨fun ⟨⟨hne, hm⟩, hq⟩ => ⟨hm, fun _ => hne.symm, hq⟩,
        fun ⟨hm, hne, hq⟩ => ⟨⟨(hne he).symm, hm⟩, hq⟩⟩
    · next he =>
      refine ⟨fun hm => ⟨hm, fun x hx hlt => ?_⟩, And.left⟩
      rcases mem_cons.mp hx with rfl | hx
      · omega
      · have := hsorted.1 x hx
        omega

end Expire

theorem mem_insertNew (inv k : CInv) (ss : CDataStream) :
    k ∈ insertNew mapRelay inv ss ↔ k = inv ∨ k ∈ mapRelay := by
  rw [insertNew]
  split
  · next h => exact ⟨.inr, fun hk => hk.elim (fun hk => hk ▸ h) id⟩
  · rw [AList.mem_insert]

section Call

variable {s : RelayMemory} {call : RelayCall}
  (hsorted : s.vRelayExpiration.Pairwise (·.1 ≤ ·.1))

include hsorted

theorem mem_vRelayExpiration_relayTransaction :
    x ∈ (s.relayTransaction call).vRelayExpiration ↔
      (x ∈ s.vRelayExpiration ∧ call.now ≤ x.1) ∨ x = call.entry := by
  show x ∈ (expire call.now s.mapRelay s.vRelayExpiration).vRelayExpiration ++ [call.entry] ↔ _
  rw [mem_append, mem_vRelayExpiration_expire _ hsorted, mem_singleton]

theorem mem_mapRelay_relayTransaction :
    k ∈ (s.relayTransaction call).mapRelay ↔
      k = call.inv ∨ (k ∈ s.mapRelay ∧ ∀ e ∈ s.vRelayExpiration, e.1 < call.now → e.2 ≠ k) := by
  show k ∈ insertNew (expire call.now s.mapRelay s.vRelayExpiration).mapRelay _ _ ↔ _
  rw [mem_insertNew, mem_mapRelay_expire _ hsorted]

end Call

/-! ## All calls -/

variable {calls : List RelayCall}

theorem relayAll_append (calls : List RelayCall) (call : RelayCall) :
    relayAll (calls ++ [call]) = (relayAll calls).relayTransaction call := by
  rw [relayAll, foldl_append]
  rfl

theorem vRelayExpiration_relayAll_sublist (calls : List RelayCall) :
    (relayAll calls).vRelayExpiration.Sublist (calls.map RelayCall.entry) := by
  induction calls using reverseRecOn with
  | nil => exact List.Sublist.refl _
  | append_singleton calls call ih =>
    rw [relayAll_append, map_append]
    exact ((vRelayExpiration_expire_sublist _ _).trans ih).append (List.Sublist.refl _)

theorem sorted_vRelayExpiration (hcalls : calls.Pairwise (·.now ≤ ·.now)) :
    (relayAll calls).vRelayExpiration.Pairwise (·.1 ≤ ·.1) := by
  refine List.Pairwise.sublist (vRelayExpiration_relayAll_sublist calls) ?_
  rw [pairwise_map]
  refine hcalls.imp fun {c d} h => ?_
  show c.now + 15 * 60 ≤ d.now + 15 * 60
  omega

/-- An entry stays as long as no later call comes after its time. -/
theorem mem_vRelayExpiration_relayAll (hcalls : calls.Pairwise (·.now ≤ ·.now)) :
    x ∈ (relayAll calls).vRelayExpiration ↔ ∃ pre c post, calls = pre ++ c :: post ∧
      (∀ d ∈ post, d.now ≤ c.now + 15 * 60) ∧ x = c.entry := by
  induction calls using reverseRecOn with
  | nil => simp [relayAll, init]
  | append_singleton calls call ih =>
    have hpre := hcalls.sublist (sublist_append_left calls [call])
    rw [relayAll_append, mem_vRelayExpiration_relayTransaction (sorted_vRelayExpiration hpre),
      ih hpre]
    constructor
    · rintro (⟨⟨pre, c, post, rfl, hpost, rfl⟩, hle⟩ | rfl)
      · refine ⟨pre, c, post ++ [call], by simp, ?_, rfl⟩
        exact forall_mem_append.mpr ⟨hpost, forall_mem_singleton.mpr hle⟩
      · exact ⟨calls, call, [], rfl, by simp, rfl⟩
    · rintro ⟨pre, c, post, heq, hpost, rfl⟩
      -- the last call is the one of the entry, or one of those behind it
      rcases eq_nil_or_concat post with rfl | ⟨post, last, rfl⟩
      · obtain ⟨rfl, hlast⟩ := append_inj' heq rfl
        cases hlast
        exact .inr rfl
      · rw [concat_eq_append, ← cons_append, ← append_assoc] at heq
        obtain ⟨rfl, hlast⟩ := append_inj' heq rfl
        cases hlast
        rw [concat_eq_append, forall_mem_append] at hpost
        exact .inl ⟨⟨pre, c, post, rfl, hpost.1, rfl⟩, hpost.2 call (by simp)⟩

theorem exists_entry_of_mem_mapRelay (hcalls : calls.Pairwise (·.now ≤ ·.now))
    (hk : k ∈ (relayAll calls).mapRelay) : ∃ e ∈ (relayAll calls).vRelayExpiration, e.2 = k := by
  induction calls using reverseRecOn with
  | nil => cases hk
  | append_singleton calls call ih =>
    have hpre := hcalls.sublist (sublist_append_left calls [call])
    have hsorted := sorted_vRelayExpiration hpre
    rw [relayAll_append] at hk ⊢
    rcases (mem_mapRelay_relayTransaction hsorted).mp hk with rfl | ⟨hk, hlive⟩
    · exact ⟨call.entry, (mem_vRelayExpiration_relayTransaction hsorted).mpr (.inr rfl), rfl⟩
    · obtain ⟨e, he, rfl⟩ := ih hpre hk
      have hle : call.now ≤ e.1 := Int.not_lt.mp fun hlt => hlive e he hlt rfl
      exact ⟨e, (mem_vRelayExpiration_relayTransaction hsorted).mpr (.inl ⟨he, hle⟩), rfl⟩

/-- A call finds no expired entry of another transaction with an entry that has not expired. -/
def ExpiresTogether (s : RelayMemory) (call : RelayCall) : Prop :=
  ∀ e ∈ s.vRelayExpiration, e.1 < call.now → e.2 ≠ call.inv →
    ∀ e' ∈ s.vRelayExpiration, e'.2 = e.2 → e'.1 < call.now

def QueuedKept (s : RelayMemory) : Prop := ∀ e ∈ s.vRelayExpiration, e.2 ∈ s.mapRelay

theorem queuedKept_relayTransaction_iff {s : RelayMemory} {call : RelayCall}
    (hsorted : s.vRelayExpiration.Pairwise (·.1 ≤ ·.1)) (hs : s.QueuedKept) :
    (s.relayTransaction call).QueuedKept ↔ s.ExpiresTogether call := by
  constructor
  · intro hkept e he hlt hne e' he' heq
    by_contra hge
    have hmem := hkept e' ((mem_vRelayExpiration_relayTransaction hsorted).mpr
      (.inl ⟨he', Int.not_lt.mp hge⟩))
    rcases (mem_mapRelay_relayTransaction hsorted).mp hmem with hinv | ⟨-, hlive⟩
    · exact hne (heq ▸ hinv)
    · exact hlive e he hlt heq.symm
  · intro htogether x hx
    rw [mem_mapRelay_relayTransaction hsorted]
    rcases (mem_vRelayExpiration_relayTransaction hsorted).mp hx with ⟨hx, hle⟩ | rfl
    · by_cases hinv : x.2 = call.inv
      · exact .inl hinv
      · refine .inr ⟨hs x hx, fun e he hlt heq => ?_⟩
        have := htogether e he hlt (heq ▸ hinv) x hx heq.symm
        omega
    · exact .inl rfl

theorem queuedKept_iff (hcalls : calls.Pairwise (·.now ≤ ·.now)) :
    (∀ pre, pre <+: calls → (relayAll pre).QueuedKept) ↔
      ∀ pre call, pre ++ [call] <+: calls → (relayAll pre).ExpiresTogether call := by
  have hsorted : ∀ pre call, pre ++ [call] <+: calls →
      (relayAll pre).vRelayExpiration.Pairwise (·.1 ≤ ·.1) := fun pre call hpre =>
    sorted_vRelayExpiration (hcalls.sublist ((prefix_append pre [call]).trans hpre).sublist)
  constructor
  · intro hall pre call hpre
    have hnext := hall _ hpre
    rw [relayAll_append] at hnext
    exact (queuedKept_relayTransaction_iff (hsorted pre call hpre)
      (hall pre ((prefix_append pre [call]).trans hpre))).mp hnext
  · intro hall pre
    induction pre using reverseRecOn with
    | nil => simp [relayAll, init, QueuedKept]
    | append_singleton pre call ih =>
      intro hpre
      rw [relayAll_append]
      exact (queuedKept_relayTransaction_iff (hsorted pre call hpre)
        (ih ((prefix_append pre [call]).trans hpre))).mpr (hall pre call hpre)

/-- A transaction stays in the map for fifteen minutes after every call, and every key has an entry,
exactly if no call finds an expired entry of another transaction relayed again. -/
theorem relay_lifetime_iff (hcalls : calls.Pairwise (·.now ≤ ·.now)) :
    ((∀ pre call post, pre ++ call :: post <+: calls → (∀ c ∈ post, c.now ≤ call.now + 15 * 60) →
        call.inv ∈ (relayAll (pre ++ call :: post)).mapRelay) ∧
      ∀ pre, pre <+: calls → ∀ k ∈ (relayAll pre).mapRelay,
        ∃ e ∈ (relayAll pre).vRelayExpiration, e.2 = k) ↔
    ∀ pre call, pre ++ [call] <+: calls → (relayAll pre).ExpiresTogether call := by
  rw [← queuedKept_iff hcalls]
  constructor
  · rintro ⟨hlive, -⟩ pre hpre x hx
    obtain ⟨pre, c, post, rfl, hpost, rfl⟩ :=
      (mem_vRelayExpiration_relayAll (hcalls.sublist hpre.sublist)).mp hx
    exact hlive pre c post hpre hpost
  · intro hkept
    refine ⟨fun pre c post hpre hpost => ?_, fun pre hpre k hk =>
      exists_entry_of_mem_mapRelay (hcalls.sublist hpre.sublist) hk⟩
    exact hkept _ hpre c.entry
      ((mem_vRelayExpiration_relayAll (hcalls.sublist hpre.sublist)).mpr ⟨pre, c, post, rfl, hpost, rfl⟩)

def call (now : Int) (hash : Uint256) : RelayCall := ⟨now, hash, .new []⟩

/-- One transaction relayed three times: at 901 the entry of the first call has expired, and the
transaction is still there for the second. -/
theorem relay_lifetime_repeated :
    (relayAll [call 0 1, call 800 1, call 901 1]).vRelayExpiration.map Prod.fst = [1700, 1801] ∧
      (call 800 1).inv ∈ (relayAll [call 0 1, call 800 1, call 901 1]).mapRelay := by
  have hcalls : [call 0 1, call 800 1, call 901 1].Pairwise (·.now ≤ ·.now) := by decide
  have hsame : ∀ c ∈ [call 0 1, call 800 1, call 901 1], c.inv = ⟨MSG_TX, 1⟩ := by decide
  refine ⟨by decide +kernel, ((relay_lifetime_iff hcalls).mpr fun pre c hpre => ?_).1
    [call 0 1] _ [call 901 1] (prefix_refl _) (by decide)⟩
  -- all entries are of the transaction that is relayed
  intro e he _ hne
  obtain ⟨c', hc', rfl⟩ := mem_map.mp ((vRelayExpiration_relayAll_sublist pre).subset he)
  have hc := hsame c (hpre.subset (mem_append_right pre mem_cons_self))
  exact absurd ((hsame c' (hpre.subset (mem_append_left [c] hc'))).trans hc.symm) hne

/-- Relayed at 0 and at 800, gone at 901. -/
theorem relayed_again_lost :
    [call 0 1, call 800 1, call 901 2].Pairwise (·.now ≤ ·.now) ∧
      (call 901 2).now ≤ (call 800 1).now + 15 * 60 ∧
      (call 800 1).inv ∉ (relayAll ([call 0 1] ++ call 800 1 :: [call 901 2])).mapRelay := by
  decide +kernel

end RelayMemory

namespace ResendWallet

/-- What should be sent again: what was received at least five minutes before the best block. -/
def due (mapWallet : List (UInt32 × CWalletTx)) (nBestTime : Int) : List (UInt32 × CWalletTx) :=
  mapWallet.filter fun item => item.1.toNat + 5 * 60 ≤ nBestTime

/-- The flag `false` stands where the time of the best block is expected: five minutes before 0
comes before every transaction. -/
theorem sendMessages_eq_nil {wallet wallet' : ResendWallet} {nNow nPoisson : Int64}
    {relayed : List (UInt32 × CWalletTx)}
    (h : wallet.sendMessages nNow nPoisson = (wallet', some relayed)) : relayed = [] := by
  have hnil : ∀ mapWallet, resendWalletTransactionsBefore mapWallet (0 - 5 * 60) = [] := by
    intro mapWallet
    induction mapWallet with
    | nil => rfl
    | cons item mapWallet ih =>
      exact ih
  unfold sendMessages resendForced resendWalletTransactions at h
  simp only [hnil, Bool.false_eq_true, if_false] at h
  split at h
  · cases h
  split at h
  · cases h
  split at h
  · cases h
  · cases h
    rfl

/-- Where the time gates let the call through, each transaction that is due is sent again once, in
the order of the times, exactly if none is due. -/
theorem resend_complete_iff {wallet wallet' : ResendWallet} {nNow nPoisson : Int64}
    {relayed : List (UInt32 × CWalletTx)} (nBestTime : Int)
    (h : wallet.sendMessages nNow nPoisson = (wallet', some relayed)) :
    (relayed.Perm (due wallet.mapWallet nBestTime) ∧ relayed.Pairwise (·.1 ≤ ·.1)) ↔
      ∀ item ∈ wallet.mapWallet, nBestTime < item.1.toNat + 5 * 60 := by
  have hdue : due wallet.mapWallet nBestTime = [] ↔
      ∀ item ∈ wallet.mapWallet, nBestTime < item.1.toNat + 5 * 60 := by
    rw [due]
    simp
  rw [sendMessages_eq_nil h, ← hdue]
  simp

def oneTx : ResendWallet where
  mapWallet := [(1000, .new ⟨1, 1000, [], [], 0⟩)]
  nNextResend := 1
  nLastResend := 0

/-- The gates let the call through, one transaction is due, and none is relayed. -/
theorem oneTx_due_not_relayed :
    (oneTx.sendMessages 5000 5300).2.map List.length = some 0 ∧
      (due oneTx.mapWallet 4000).length = 1 := by
  decide +kernel

/-- With an older best block no transaction is due, and none is relayed. -/
theorem oneTx_complete_before :
    oneTx.sendMessages 5000 5300 =
        ({ oneTx with nNextResend := 5300, nLastResend := 5000 }, some []) ∧
      [].Perm (due oneTx.mapWallet 1200) :=
  have h : oneTx.sendMessages 5000 5300 = _ := rfl
  ⟨h, ((resend_complete_iff 1200 h).mpr (by decide)).1⟩

end ResendWallet

end NovaCoin
