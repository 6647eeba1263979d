import NovaCoin.Connect

/-!
# Scripts under different verification flags

Two runs of the interpreter that differ in the flags alone go through the same states as long as the
checks they make agree (`Agree`).

P2SH, NULLDUMMY, CHECKLOCKTIMEVERIFY and CHECKSEQUENCEVERIFY can only make a run stop. STRICTENC and
LOW_S change what a signature check leaves on the stack, so what the memory pool accepts is not
always accepted in a block (`connectBlockFlags_of_strictFlags`).
-/

namespace NovaCoin

open List

def ScriptContext.withFlags (ctx : ScriptContext) (flags : UInt32) : ScriptContext :=
  { ctx with flags := flags }

/-- A check made under the flags of `ctx` does no worse under `flags`. -/
def Agree (ctx : ScriptContext) (flags : UInt32) : Check → Prop
  | .sig vchSig vchPubKey scriptCode =>
    ctx.sigOk vchSig vchPubKey scriptCode =
      (ctx.withFlags flags).sigOk vchSig vchPubKey scriptCode
  | c => ctx.passes c = true → (ctx.withFlags flags).passes c = true

/-- The run `r` under other flags follows one from `st` to `st'`: the log grew, and if its checks
agree, `r` ends in `st'`. -/
structure Follows (ctx : ScriptContext) (flags : UInt32) (st st' : EvalState)
    (r : Except EvalState EvalState) : Prop where
  log_mono : ∀ c ∈ st.log, c ∈ st'.log
  same : (∀ c ∈ st'.log, Agree ctx flags c) → r = .ok st'

/-- A run of `ctx` that `r` follows; the checks it added have passed. -/
structure Ran (ctx : ScriptContext) (flags : UInt32) (st st' : EvalState)
    (r : Except EvalState EvalState) : Prop extends Follows ctx flags st st' r where
  passed : ∀ c ∈ st'.log, c ∈ st.log ∨ ctx.passes c

variable {ctx : ScriptContext} (flags : UInt32) {c : Check}

theorem agree_passes {flags : UInt32} (h : Agree ctx flags c) (hp : ctx.passes c) :
    (ctx.withFlags flags).passes c := by
  cases c with
  | sig => rfl
  | lockTime | sequence | dummy => exact h hp

/-! ## Opcodes -/

variable {st st' : EvalState} {log : List Check} {S F f : UInt32} {fVerify : Bool}
  {pc script scriptSig scriptPubKey : CScript} {opcode : UInt8} {vch : Valtype}
  {stack : List Valtype}

theorem pushResult_log {fSuccess : Bool} (h : pushResult fVerify fSuccess st = .ok st') :
    st'.log = st.log := by
  unfold pushResult at h
  split_ifs at h <;> cases h <;> rfl

theorem passed_cons {d : Check} (hc : ctx.passes c) (hd : d ∈ c :: log) :
    d ∈ log ∨ ctx.passes d := by
  rcases mem_cons.mp hd with rfl | hd
  · exact .inr hc
  · exact .inl hd

theorem makeCheck_follows (h : makeCheck ctx c st = .ok st') :
    Ran ctx flags st st' (makeCheck (ctx.withFlags flags) c st) := by
  simp only [makeCheck] at h
  split at h
  · next hp =>
    cases h
    refine ⟨⟨fun _ hc => mem_cons_of_mem _ hc, fun ha => ?_⟩, fun d => passed_cons hp⟩
    simp only [makeCheck, agree_passes (ha c mem_cons_self) hp, if_true]
  · cases h

theorem evalCheckSig_follows (h : evalCheckSig ctx fVerify st = .ok st') :
    Ran ctx flags st st' (evalCheckSig (ctx.withFlags flags) fVerify st) := by
  unfold evalCheckSig at h ⊢
  split at h
  · have hlog := pushResult_log h
    refine ⟨⟨fun c hc => by rw [hlog]; exact mem_cons_of_mem _ hc, fun ha => ?_⟩,
      fun d hd => passed_cons rfl (hlog ▸ hd)⟩
    have hsig := ha _ (by rw [hlog]; exact mem_cons_self)
    rw [← h]
    exact congrArg (fun b => pushResult fVerify b _) hsig.symm
  · cases h

/-- The loop of `CHECKMULTISIG`: the log grows by checks of signatures, and with agreeing checks the
loop is the same. -/
theorem matchSigs_agree (ctx : ScriptContext) (scriptCode : CScript) :
    ∀ (keys sigs : List Valtype) (log : List Check),
      (∀ c ∈ log, c ∈ (matchSigs ctx scriptCode sigs keys log).2) ∧
      ((∀ c ∈ (matchSigs ctx scriptCode sigs keys log).2, Agree ctx flags c) →
        matchSigs (ctx.withFlags flags) scriptCode sigs keys log =
          matchSigs ctx scriptCode sigs keys log) ∧
      ∀ c ∈ (matchSigs ctx scriptCode sigs keys log).2, c ∈ log ∨ ctx.passes c
  | _, [], log => by
    rw [matchSigs, matchSigs]
    exact ⟨fun _ hc => hc, fun _ => rfl, fun _ => .inl⟩
  | [], _ :: _, log => ⟨fun _ hc => hc, fun _ => rfl, fun _ => .inl⟩
  | vchPubKey :: keys, vchSig :: sigs, log => by
    simp only [matchSigs]
    by_cases hlt : keys.length <
        (if ctx.sigOk vchSig vchPubKey scriptCode then sigs else vchSig :: sigs).length
    · rw [if_pos hlt]
      refine ⟨fun c hc => mem_cons_of_mem _ hc, fun ha => ?_, fun c => passed_cons rfl⟩
      have hsig := ha (.sig vchSig vchPubKey scriptCode) mem_cons_self
      rw [← hsig, if_pos hlt]
    · rw [if_neg hlt]
      obtain ⟨hmono, hsame, hnew⟩ := matchSigs_agree ctx scriptCode keys
        (if ctx.sigOk vchSig vchPubKey scriptCode then sigs else vchSig :: sigs)
        (.sig vchSig vchPubKey scriptCode :: log)
      refine ⟨fun c hc => hmono c (mem_cons_of_mem _ hc), fun ha => ?_,
        fun c hc => (hnew c hc).elim (passed_cons rfl) .inr⟩
      have hsig := ha (.sig vchSig vchPubKey scriptCode) (hmono _ mem_cons_self)
      rw [← hsig, if_neg hlt]
      exact hsame ha

theorem popMultisig_log {keys sigs : List Valtype} {vchDummy : Valtype}
    (h : popMultisig st = .ok (st', keys, sigs, vchDummy)) : st'.log = st.log := by
  simp only [popMultisig] at h
  split at h
  · cases h
  · split_ifs at h
    split at h
    · cases h
    · split_ifs at h
      split at h
      · cases h
      · cases h
        rfl

theorem evalCheckMultisig_follows (h : evalCheckMultisig ctx fVerify st = .ok st') :
    Ran ctx flags st st' (evalCheckMultisig (ctx.withFlags flags) fVerify st) := by
  unfold evalCheckMultisig at h ⊢
  split at h
  · cases h
  · next st₁ keys sigs vchDummy hpop =>
    simp only at h ⊢
    split at h
    · cases h
    · next st₂ hcheck =>
      have hpushed := pushResult_log h
      have hdummy := makeCheck_follows flags hcheck
      obtain ⟨hmono, hsame, hnew⟩ := matchSigs_agree flags ctx
        (sigs.foldl (fun code vchSig => findAndDelete code (pushData vchSig)) st₁.pbegincodehash)
        keys sigs st₁.log
      have hpopped := popMultisig_log hpop
      refine ⟨⟨fun c hc => ?_, fun ha => ?_⟩, fun c hc => ?_⟩
      · rw [hpushed]
        exact hdummy.log_mono c (hmono c (hpopped ▸ hc))
      · rw [hpushed] at ha
        rw [hsame fun c hc => ha c (hdummy.log_mono c hc), hdummy.same ha]
        exact h
      · rw [← hpopped]
        exact (hdummy.passed c (hpushed ▸ hc)).elim (hnew c) .inr

theorem evalOp_follows {op : Op} {fExec : Bool} (h : evalOp ctx op fExec pc st = .ok st') :
    Ran ctx flags st st' (evalOp (ctx.withFlags flags) op fExec pc st) := by
  unfold evalOp at h ⊢
  split at h
  · exact makeCheck_follows flags h
  · exact makeCheck_follows flags h
  · cases h
    exact ⟨⟨fun _ hc => hc, fun _ => rfl⟩, fun _ => .inl⟩
  · exact evalCheckSig_follows flags h
  · exact evalCheckSig_follows flags h
  · exact evalCheckMultisig_follows flags h
  · exact evalCheckMultisig_follows flags h
  · split at h
    · cases h
    · next s hs =>
      cases h
      exact ⟨⟨fun _ hc => hc, fun _ => by simp only [ScriptContext.withFlags, hs]⟩, fun _ => .inl⟩

theorem execOp_follows (h : execOp ctx opcode vch pc st = .ok st') :
    Ran ctx flags st st' (execOp (ctx.withFlags flags) opcode vch pc st) := by
  simp only [execOp] at h ⊢
  split at h
  · next hpush =>
    cases h
    exact ⟨⟨fun _ hc => hc, fun _ => if_pos hpush⟩, fun _ => .inl⟩
  · next hpush =>
    rw [if_neg hpush]
    split at h
    · next hexec =>
      rw [if_pos hexec]
      split at h
      · cases h
      · exact evalOp_follows flags h
    · next hexec =>
      cases h
      exact ⟨⟨fun _ hc => hc, fun _ => if_neg hexec⟩, fun _ => .inl⟩

theorem countOp_log (opcode : UInt8) (st : EvalState) : (countOp opcode st).log = st.log := by
  unfold countOp
  split <;> rfl

theorem evalStep_follows (h : evalStep ctx opcode vch pc st = .ok st') :
    Ran ctx flags st st' (evalStep (ctx.withFlags flags) opcode vch pc st) := by
  simp only [evalStep] at h ⊢
  split_ifs at h with hsize hcount hdisabled
  split at h
  · cases h
  · next st₁ hexec =>
    split at h
    · cases h
    · next hlimit =>
      cases h
      obtain ⟨⟨hmono, hsame⟩, hnew⟩ := execOp_follows flags hexec
      rw [countOp_log] at hmono hnew
      refine ⟨⟨hmono, fun ha => ?_⟩, hnew⟩
      · rw [if_neg hsize, if_neg hcount, if_neg hdisabled, hsame ha]
        simp only [if_neg hlimit]

/-! ## Runs -/

theorem evalLoop_follows (pc : CScript) : ∀ {st st' : EvalState}, evalLoop ctx pc st = .ok st' →
    Ran ctx flags st st' (evalLoop (ctx.withFlags flags) pc st) := by
  induction hn : pc.length using Nat.strong_induction_on generalizing pc with
  | _ n ih =>
    intro st st' h
    rcases evalLoop_ok_iff.mp h with ⟨rfl, rfl⟩ | ⟨opcode, vch, pc', st₁, hop, hstep, hrest⟩
    · exact ⟨⟨fun _ hc => hc, fun _ => evalLoop_ok_iff.mpr (.inl ⟨rfl, rfl⟩)⟩, fun _ => .inl⟩
    · have hlt : pc'.length < n := hn ▸ length_getOp hop
      obtain ⟨⟨hmono₁, hsame₁⟩, hnew₁⟩ := evalStep_follows flags hstep
      obtain ⟨⟨hmono₂, hsame₂⟩, hnew₂⟩ := ih _ hlt pc' rfl hrest
      refine ⟨⟨fun c hc => hmono₂ c (hmono₁ c hc), fun ha => evalLoop_ok_iff.mpr (.inr ?_)⟩,
        fun c hc => (hnew₂ c hc).elim (hnew₁ c) .inr⟩
      exact ⟨opcode, vch, pc', st₁, hop, hsame₁ fun c hc => ha c (hmono₂ c hc), hsame₂ ha⟩

theorem evalScript_follows (h : evalScript ctx stack script log = .ok st') :
    (∀ c ∈ log, c ∈ st'.log) ∧ ((∀ c ∈ st'.log, Agree ctx flags c) →
      evalScript (ctx.withFlags flags) stack script log = .ok st') ∧
    ∀ c ∈ st'.log, c ∈ log ∨ ctx.passes c := by
  simp only [evalScript] at h ⊢
  split at h
  · cases h
  · next hlen =>
    split at h
    · cases h
    · next st₁ hloop =>
      split at h
      · next hend =>
        cases h
        obtain ⟨⟨hmono, hsame⟩, hnew⟩ := evalLoop_follows flags script hloop
        refine ⟨hmono, fun ha => ?_, hnew⟩
        rw [if_neg hlen, hsame ha]
        simp only [hend, if_true]
      · cases h

theorem evalToTrue_follows (h : evalToTrue ctx stack script log = some st') :
    (∀ c ∈ log, c ∈ st'.log) ∧ ((∀ c ∈ st'.log, Agree ctx flags c) →
      evalToTrue (ctx.withFlags flags) stack script log = some st') ∧
    ∀ c ∈ st'.log, c ∈ log ∨ ctx.passes c := by
  unfold evalToTrue at h ⊢
  split at h
  · cases h
  · next st₁ heval =>
    split at h
    · cases h
    · next back rest hstack =>
      split at h
      · next htrue =>
        cases h
        obtain ⟨hmono, hsame, hnew⟩ := evalScript_follows flags heval
        refine ⟨hmono, fun ha => ?_, hnew⟩
        simp only [hsame ha, hstack, htrue, if_true]
      · cases h

/-- `VerifyScript` also succeeds under other flags, if its checks agree and no script hash is newly
asked for. -/
theorem verifyScript_of_agree (h : verifyScriptLog ctx scriptSig scriptPubKey = some log)
    (hp : hasFlag flags SCRIPT_VERIFY_P2SH → hasFlag ctx.flags SCRIPT_VERIFY_P2SH)
    (ha : ∀ c ∈ log, Agree ctx flags c) :
    verifyScript (ctx.withFlags flags) scriptSig scriptPubKey := by
  unfold verifyScriptLog at h
  split at h
  · cases h
  · next st hsig =>
    split at h
    · cases h
    · next st' hpub =>
      obtain ⟨-, hsame₁, -⟩ := evalScript_follows flags hsig
      obtain ⟨hmono₂, hsame₂, -⟩ := evalToTrue_follows flags hpub
      unfold verifyScript verifyScriptLog
      split at h
      · next hp2sh =>
        split at h
        · cases h
        · next hpush =>
          split at h
          · cases h
          · next pubKey2 stackCopy hstack =>
            obtain ⟨st'', hsub, rfl⟩ := Option.map_eq_some_iff.mp h
            obtain ⟨hmono₃, hsame₃, -⟩ := evalToTrue_follows flags hsub
            have ha₂ : ∀ c ∈ st'.log, Agree ctx flags c := fun c hc => ha c (hmono₃ c hc)
            rw [hsame₁ fun c hc => ha₂ c (hmono₂ c hc)]
            simp only [hsame₂ ha₂]
            split
            · simp [hstack, hsame₃ ha]
            · rfl
      · next hp2sh =>
        cases h
        rw [hsame₁ fun c hc => ha c (hmono₂ c hc)]
        simp only [hsame₂ ha]
        have hno : ¬ (hasFlag (ctx.withFlags flags).flags SCRIPT_VERIFY_P2SH &&
            isPayToScriptHash scriptPubKey) := by
          intro hc
          rw [Bool.and_eq_true] at hc
          exact hp2sh (by rw [hp hc.1, hc.2]; rfl)
        rw [if_neg hno]
        rfl

/-! ## Flags that only restrict -/

theorem hasFlag_or (F S f : UInt32) : hasFlag (F ||| S) f = (hasFlag F f || hasFlag S f) := by
  have hiff : (F ||| S) &&& f = 0 ↔ F &&& f = 0 ∧ S &&& f = 0 := by
    simp only [← UInt32.toBitVec_inj, UInt32.toBitVec_and, UInt32.toBitVec_or,
      BitVec.and_or_distrib_right]
    exact BitVec.or_eq_zero_iff
  rw [Bool.eq_iff_iff]
  simp only [hasFlag, bne_iff_ne, ne_eq, hiff, Bool.or_eq_true]
  tauto

theorem hasFlag_of_subset {mask : UInt32} (hS : S &&& mask = S) (hf : mask &&& f = 0) :
    hasFlag S f = false := by
  rw [hasFlag, ← hS, UInt32.and_assoc, hf]
  simp

/-- The flags of rules that were added by soft forks. -/
def softForkFlags : UInt32 :=
  SCRIPT_VERIFY_P2SH ||| SCRIPT_VERIFY_NULLDUMMY ||| SCRIPT_VERIFY_CHECKLOCKTIMEVERIFY |||
    SCRIPT_VERIFY_CHECKSEQUENCEVERIFY

/-- A signature check reads two flags only. -/
theorem sigOk_congr {G : UInt32}
    (henc : hasFlag F SCRIPT_VERIFY_STRICTENC = hasFlag G SCRIPT_VERIFY_STRICTENC)
    (hlow : hasFlag F SCRIPT_VERIFY_LOW_S = hasFlag G SCRIPT_VERIFY_LOW_S)
    (vchSig vchPubKey : Valtype) (scriptCode : CScript) :
    (ctx.withFlags F).sigOk vchSig vchPubKey scriptCode =
      (ctx.withFlags G).sigOk vchSig vchPubKey scriptCode := by
  have hs : isCanonicalSignature vchSig F = isCanonicalSignature vchSig G := by
    rw [isCanonicalSignature, isCanonicalSignature, henc, hlow]
  have hk : isCanonicalPubKey vchPubKey F = isCanonicalPubKey vchPubKey G := by
    rw [isCanonicalPubKey, isCanonicalPubKey, henc]
  simp only [ScriptContext.sigOk, ScriptContext.withFlags, hs, hk]

theorem passes_of_or (h : (ctx.withFlags (F ||| S)).passes c) :
    (ctx.withFlags F).passes c := by
  cases c <;>
    simp only [ScriptContext.passes, ScriptContext.withFlags, hasFlag_or, Bool.or_eq_true,
      Bool.not_eq_true', Bool.or_eq_false_iff] at h ⊢
  case lockTime stack => exact h.imp And.left id
  case sequence stack => exact h.imp And.left id
  case dummy vch => exact h.imp And.left id

theorem agree_softFork (hS : S &&& softForkFlags = S) (c : Check) :
    Agree (ctx.withFlags (F ||| S)) F c := by
  have hkeep : ∀ f, softForkFlags &&& f = 0 → hasFlag (F ||| S) f = hasFlag F f := by
    intro f hf
    rw [hasFlag_or, hasFlag_of_subset hS hf, Bool.or_false]
  cases c with
  | sig vchSig vchPubKey scriptCode =>
    exact sigOk_congr (hkeep _ (by decide)) (hkeep _ (by decide)) vchSig vchPubKey scriptCode
  | lockTime | sequence | dummy => exact passes_of_or

/-- What `VerifyScript` accepts it also accepts without any of the soft-fork flags. -/
theorem verifyScript_of_softFork (ctx : ScriptContext) (F S : UInt32)
    (hS : S &&& softForkFlags = S) (scriptSig scriptPubKey : CScript)
    (h : verifyScript (ctx.withFlags (F ||| S)) scriptSig scriptPubKey = true) :
    verifyScript (ctx.withFlags F) scriptSig scriptPubKey = true := by
  obtain ⟨log, hlog⟩ := Option.isSome_iff_exists.mp h
  show verifyScript ((ctx.withFlags (F ||| S)).withFlags F) scriptSig scriptPubKey
  refine verifyScript_of_agree F hlog ?_ fun c _ => agree_softFork hS c
  intro hp
  show hasFlag (F ||| S) SCRIPT_VERIFY_P2SH
  rw [hasFlag_or, hp, Bool.true_or]

def sampleContext : ScriptContext :=
  { crypto := Crypto.sample, nIn := 0, flags := 0, nHashType := 0,
    txTo := ⟨1, 1700000000, [⟨⟨1, 0⟩, [], 0xffffffff⟩], [⟨1, []⟩], 0⟩ }

/-- One signature of one key, with an empty dummy. -/
theorem multisig_without_nullDummy :
    verifyScript (sampleContext.withFlags SCRIPT_VERIFY_NOCACHE)
      ([0x00, 0x02, 0x00, 0x01]) ([0x51, 0x21, 0x02] ++ List.replicate 32 0 ++ [0x51, 0xae]) = true :=
  verifyScript_of_softFork sampleContext SCRIPT_VERIFY_NOCACHE softForkFlags (by decide)
    [0x00, 0x02, 0x00, 0x01] ([0x51, 0x21, 0x02] ++ replicate 32 0 ++ [0x51, 0xae])
    (by decide +kernel)

/-! ## The memory pool and ConnectBlock -/

theorem sigOk_of_not_strictEnc {flags : UInt32}
    (henc : hasFlag flags SCRIPT_VERIFY_STRICTENC = false) (vchSig vchPubKey : Valtype)
    (scriptCode : CScript) :
    (ctx.withFlags flags).sigOk vchSig vchPubKey scriptCode =
      checkSig ctx.crypto vchSig vchPubKey scriptCode ctx.txTo ctx.nIn ctx.nHashType := by
  simp [ScriptContext.sigOk, ScriptContext.withFlags, isCanonicalSignature, isCanonicalPubKey, henc]

theorem hasFlag_connectBlockFlags (nTime : UInt32)
    (h : hasFlag (SCRIPT_VERIFY_NOCACHE ||| SCRIPT_VERIFY_P2SH |||
      SCRIPT_VERIFY_CHECKLOCKTIMEVERIFY ||| SCRIPT_VERIFY_CHECKSEQUENCEVERIFY) f = false) :
    hasFlag (connectBlockFlags nTime) f = false := by
  simp only [hasFlag_or, Bool.or_eq_false_iff] at h
  obtain ⟨⟨⟨h₁, h₂⟩, h₃⟩, h₄⟩ := h
  unfold connectBlockFlags
  split <;> split <;> simp [hasFlag_or, h₁, h₂, h₃, h₄]

theorem or_of_not_hasFlag {ok : Bool} (h : hasFlag flags f = false) :
    (!hasFlag flags f || ok) = true := by
  rw [h]
  rfl

/-- `ConnectBlock` accepts a script if no check of a signature fails for the encoding alone and the
lock times it asks for are met. -/
theorem verifyScript_connectBlockFlags (hp2sh : hasFlag flags SCRIPT_VERIFY_P2SH)
    (h : verifyScriptLog (ctx.withFlags flags) scriptSig scriptPubKey = some log)
    (hsig : ∀ vchSig vchPubKey scriptCode, .sig vchSig vchPubKey scriptCode ∈ log →
      (ctx.withFlags flags).sigOk vchSig vchPubKey scriptCode =
        checkSig ctx.crypto vchSig vchPubKey scriptCode ctx.txTo ctx.nIn ctx.nHashType)
    (hlock : ∀ stack, .lockTime stack ∈ log → CHECKLOCKTIMEVERIFY_SWITCH_TIME ≤ ctx.txTo.nTime →
      ctx.lockTimeOk stack)
    (hseq : ∀ stack, .sequence stack ∈ log → CHECKSEQUENCEVERIFY_SWITCH_TIME ≤ ctx.txTo.nTime →
      ctx.sequenceOk stack) :
    verifyScript (ctx.withFlags (connectBlockFlags ctx.txTo.nTime)) scriptSig scriptPubKey := by
  show verifyScript ((ctx.withFlags flags).withFlags (connectBlockFlags ctx.txTo.nTime))
    scriptSig scriptPubKey
  refine verifyScript_of_agree (connectBlockFlags ctx.txTo.nTime) h (fun _ => hp2sh) fun c hc => ?_
  cases c with
  | sig vchSig vchPubKey scriptCode =>
    have hblock := hasFlag_connectBlockFlags (f := SCRIPT_VERIFY_STRICTENC) ctx.txTo.nTime
      (by decide)
    exact (hsig _ _ _ hc).trans (sigOk_of_not_strictEnc hblock _ _ _).symm
  | lockTime stack =>
    intro _
    by_cases hnTime : CHECKLOCKTIMEVERIFY_SWITCH_TIME ≤ ctx.txTo.nTime
    · exact Bool.or_eq_true_iff.mpr (.inr (hlock stack hc hnTime))
    · refine or_of_not_hasFlag _ ?_
      show hasFlag (connectBlockFlags ctx.txTo.nTime) _ = false
      rw [connectBlockFlags, if_neg hnTime]
      split <;> decide
  | sequence stack =>
    intro _
    by_cases hnTime : CHECKSEQUENCEVERIFY_SWITCH_TIME ≤ ctx.txTo.nTime
    · exact Bool.or_eq_true_iff.mpr (.inr (hseq stack hc hnTime))
    · refine or_of_not_hasFlag _ ?_
      show hasFlag (connectBlockFlags ctx.txTo.nTime) _ = false
      rw [connectBlockFlags, if_neg hnTime]
      split <;> decide
  | dummy vch =>
    exact fun _ => or_of_not_hasFlag _ (hasFlag_connectBlockFlags ctx.txTo.nTime (by decide))

/-- A script the memory pool accepts is accepted in a block, if the signatures it checks with
success are well encoded and its lock times are met: the pool does not ask for these, and its
encoding rules can turn a good signature into a failed check, which `OP_NOT` makes a success. -/
theorem connectBlockFlags_of_strictFlags (ctx : ScriptContext) (scriptSig scriptPubKey : CScript)
    (log : List Check)
    (h : verifyScriptLog (ctx.withFlags STRICT_FLAGS) scriptSig scriptPubKey = some log)
    (hsig : ∀ vchSig vchPubKey scriptCode, .sig vchSig vchPubKey scriptCode ∈ log →
      checkSig ctx.crypto vchSig vchPubKey scriptCode ctx.txTo ctx.nIn ctx.nHashType = true →
      isCanonicalSignature vchSig STRICT_FLAGS = true ∧
        isCanonicalPubKey vchPubKey STRICT_FLAGS = true)
    (hlock : ∀ stack, .lockTime stack ∈ log → ctx.lockTimeOk stack = true)
    (hseq : ∀ stack, .sequence stack ∈ log → ctx.sequenceOk stack = true) :
    verifyScript (ctx.withFlags (connectBlockFlags ctx.txTo.nTime)) scriptSig scriptPubKey =
      true := by
  refine verifyScript_connectBlockFlags STRICT_FLAGS (by decide) h
    (fun vchSig vchPubKey scriptCode hc => ?_) (fun stack hc _ => hlock stack hc)
    fun stack hc _ => hseq stack hc
  cases hcheck : checkSig ctx.crypto vchSig vchPubKey scriptCode ctx.txTo ctx.nIn ctx.nHashType with
  | false => simp [ScriptContext.sigOk, ScriptContext.withFlags, hcheck]
  | true =>
    obtain ⟨h₁, h₂⟩ := hsig vchSig vchPubKey scriptCode hc hcheck
    simp [ScriptContext.sigOk, ScriptContext.withFlags, hcheck, h₁, h₂]

def badEncodingSig : CScript := [0x02, 0x00, 0x01, 0x21, 0x02] ++ List.replicate 32 0

def canonicalSig : Valtype := [0x30, 0x06, 0x02, 0x01, 0x01, 0x02, 0x01, 0x01, 0x01]

def canonicalKey : Valtype := 0x02 :: List.replicate 32 0

def lockedSigContext : ScriptContext :=
  { sampleContext with txTo := ⟨2, 1700000000, [⟨⟨1, 0⟩, [], 5⟩], [⟨1, []⟩], 5⟩ }

/-- `1 CHECKLOCKTIMEVERIFY DROP 1 CHECKSEQUENCEVERIFY DROP CHECKSIG`: a lock time and a sequence that
are met, and a signature that is accepted and well encoded. -/
def lockedPubKey : CScript := [0x51, 0xb1, 0x75, 0x51, 0xb2, 0x75, 0xac]

theorem lockedSig_accepted_in_block :
    checkSig Crypto.sample canonicalSig canonicalKey lockedPubKey lockedSigContext.txTo 0 0 = true ∧
      verifyScript (lockedSigContext.withFlags (connectBlockFlags 1700000000))
        (pushData canonicalSig ++ pushData canonicalKey) lockedPubKey = true := by
  refine ⟨by decide +kernel, connectBlockFlags_of_strictFlags lockedSigContext _ lockedPubKey
    [.sig canonicalSig canonicalKey lockedPubKey, .sequence [[1], canonicalKey, canonicalSig],
      .lockTime [[1], canonicalKey, canonicalSig]] (by decide +kernel) ?_ ?_ ?_⟩
  · intro vchSig vchPubKey scriptCode hmem _
    obtain ⟨rfl, rfl, -⟩ : vchSig = canonicalSig ∧ vchPubKey = canonicalKey ∧ _ := by simpa using hmem
    decide +kernel
  · intro stack hmem
    obtain rfl : stack = _ := by simpa using hmem
    decide +kernel
  · intro stack hmem
    obtain rfl : stack = _ := by simpa using hmem
    decide +kernel

/-- The pool accepts a lock time that is not met (`CHECKLOCKTIMEVERIFY`), and a good signature in a
bad encoding that has to fail (`CHECKSIG NOT`); a block refuses both. -/
theorem strictFlags_accept_connectBlockFlags_refuse :
    (CHECKLOCKTIMEVERIFY_SWITCH_TIME ≤ sampleContext.txTo.nTime ∧
      CHECKSEQUENCEVERIFY_SWITCH_TIME ≤ sampleContext.txTo.nTime) ∧
    (verifyScript (sampleContext.withFlags STRICT_FLAGS) [0x51] [0xb1] = true ∧
      verifyScript (sampleContext.withFlags (connectBlockFlags sampleContext.txTo.nTime))
        [0x51] [0xb1] = false) ∧
    (verifyScript (sampleContext.withFlags STRICT_FLAGS) badEncodingSig [0xac, 0x91] = true ∧
      verifyScript (sampleContext.withFlags (connectBlockFlags sampleContext.txTo.nTime))
        badEncodingSig [0xac, 0x91] = false) := by
  decide +kernel

end NovaCoin
