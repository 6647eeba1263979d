import Mathlib.Data.List.Basic

/-!
# Sequences of checks

Validation code is a sequence of checks, each of which may end it with an error. `require` is
one check; the lemmas say what a sequence that succeeds has established, so that proofs about
such code never unfold the monad.
-/

namespace Guard

variable {ε α β σ : Type} {cond : Bool} {e : ε} {u : Unit}

def require (cond : Bool) (e : ε) : Except ε Unit := if cond then .ok () else .error e

@[simp] theorem require_eq_ok :
    require cond e = .ok u ↔ cond := by
  cases cond <;> simp [require]

variable {x : Except ε α} {f : σ → α → Except ε σ} {b : β} {a : α} {ε' : Type} {s s' : σ}
  {l : List α} {I : σ → Prop}

theorem bind_eq_ok {f : α → Except ε β} :
    (x >>= f) = .ok b ↔ ∃ a, x = .ok a ∧ f a = .ok b := by
  cases x <;> simp [bind, Except.bind]

/-- A step that two computations share. -/
theorem bind_eq_map_bind {f : α → Except ε β} {γ : Type} {g : β → γ} {f' : α → Except ε γ}
    (h : ∀ a, f' a = (f a).map g) : (x >>= f') = (x >>= f).map g := by
  cases x with
  | error e => rfl
  | ok a => exact h a

instance decidableIsOk : Decidable (∃ a, x = .ok a) :=
  match x with
  | .ok a => .isTrue ⟨a, rfl⟩
  | .error _ => .isFalse nofun

instance decidableExistsOk {P : α → Prop} [DecidablePred P] : Decidable (∃ a, x = .ok a ∧ P a) :=
  match x with
  | .ok a => decidable_of_iff (P a) (by simp)
  | .error _ => .isFalse (by simp)

theorem unit_bind_eq_ok {x : Except ε Unit} {f : Unit → Except ε β} :
    (x >>= f) = .ok b ↔ x = .ok () ∧ f () = .ok b :=
  bind_eq_ok.trans ⟨fun ⟨_, h⟩ => h, fun h => ⟨(), h⟩⟩

theorem require_bind_eq_ok {f : Unit → Except ε β} :
    (require cond e >>= f) = .ok b ↔ cond ∧ f () = .ok b := by
  rw [unit_bind_eq_ok, require_eq_ok]

def getOr (x : Option α) (e : ε) : Except ε α :=
  match x with
  | some a => .ok a
  | none => .error e

@[simp] theorem getOr_eq_ok {x : Option α} : getOr x e = .ok a ↔ x = some a := by
  cases x <;> simp [getOr]

@[simp] theorem mapError_eq_ok {f : ε → ε'} :
    x.mapError f = .ok a ↔ x = .ok a := by
  cases x <;> simp [Except.mapError]

def forAll (f : α → Except ε Unit) : List α → Except ε Unit
  | [] => .ok ()
  | a :: l => do
    f a
    forAll f l

@[simp] theorem forAll_eq_ok {f : α → Except ε Unit} :
    ∀ {l : List α}, forAll f l = .ok u ↔ ∀ a ∈ l, f a = .ok ()
  | [] => by simp [forAll]
  | a :: l => by
    rw [forAll, bind_eq_ok, List.forall_mem_cons]
    constructor
    · rintro ⟨⟨⟩, ha, hl⟩
      exact ⟨ha, forAll_eq_ok.mp hl⟩
    · rintro ⟨ha, hl⟩
      exact ⟨(), ha, forAll_eq_ok.mpr hl⟩

def foldAll (f : σ → α → Except ε σ) : σ → List α → Except ε σ
  | s, [] => .ok s
  | s, a :: l => do
    let s ← f s a
    foldAll f s l

@[simp] theorem foldAll_nil : foldAll f s [] = .ok s := rfl

theorem foldAll_cons_eq_ok :
    foldAll f s (a :: l) = .ok s' ↔ ∃ s₁, f s a = .ok s₁ ∧ foldAll f s₁ l = .ok s' := by
  rw [foldAll, bind_eq_ok]

theorem foldAll_append_eq_ok {l₂ : List α} :
    ∀ {l₁ : List α} {s : σ}, foldAll f s (l₁ ++ l₂) = .ok s' ↔
      ∃ s₁, foldAll f s l₁ = .ok s₁ ∧ foldAll f s₁ l₂ = .ok s'
  | [], s => by simp
  | a :: l₁, s => by
    rw [List.cons_append, foldAll_cons_eq_ok]
    constructor
    · rintro ⟨s₁, ha, hl⟩
      obtain ⟨s₂, h₁, h₂⟩ := foldAll_append_eq_ok.mp hl
      exact ⟨s₂, foldAll_cons_eq_ok.mpr ⟨s₁, ha, h₁⟩, h₂⟩
    · rintro ⟨s₂, h₁, h₂⟩
      obtain ⟨s₁, ha, hl⟩ := foldAll_cons_eq_ok.mp h₁
      exact ⟨s₁, ha, foldAll_append_eq_ok.mpr ⟨s₂, hl, h₂⟩⟩

theorem exists_step_of_foldAll (h : foldAll f s l = .ok s') (ha : a ∈ l) :
    ∃ s s', f s a = .ok s' := by
  obtain ⟨l₁, l₂, rfl⟩ := List.append_of_mem ha
  obtain ⟨s₁, -, h⟩ := foldAll_append_eq_ok.mp h
  obtain ⟨s₂, h, -⟩ := foldAll_cons_eq_ok.mp h
  exact ⟨s₁, s₂, h⟩

theorem foldAll_invariant (hstep : ∀ a ∈ l, ∀ s s', I s → f s a = .ok s' → I s')
    (h : foldAll f s l = .ok s') (hs : I s) :
    I s' := by
  induction l generalizing s with
  | nil =>
    cases h
    exact hs
  | cons a l ih =>
    rw [List.forall_mem_cons] at hstep
    obtain ⟨s₁, h₁, hl⟩ := foldAll_cons_eq_ok.mp h
    exact ih hstep.2 hl (hstep.1 s s₁ hs h₁)

/-- A loop in which each step can be made; the invariant says what was done so far. -/
theorem exists_foldAll_done {I : List α → σ → Prop} {all : List α} (h : I [] s)
    (hstep : ∀ done a rest s, done ++ a :: rest = all → I done s →
      ∃ s', f s a = .ok s' ∧ I (done ++ [a]) s') : ∃ s', foldAll f s all = .ok s' ∧ I all s' := by
  have hrest (rest : List α) : ∀ {done s}, done ++ rest = all → I done s →
      ∃ s', foldAll f s rest = .ok s' ∧ I all s' := by
    induction rest with
    | nil => exact fun hall h => ⟨_, rfl, by rwa [← hall, List.append_nil]⟩
    | cons a rest ih =>
      intro done s hall h
      obtain ⟨s₁, ha, h₁⟩ := hstep done a rest s hall h
      rw [List.append_cons] at hall
      obtain ⟨s', hl, h'⟩ := ih hall h₁
      exact ⟨s', foldAll_cons_eq_ok.mpr ⟨s₁, ha, hl⟩, h'⟩
  exact hrest all rfl h

theorem exists_foldAll (h : I s) (hstep : ∀ a ∈ l, ∀ s, I s → ∃ s', f s a = .ok s' ∧ I s') :
    ∃ s', foldAll f s l = .ok s' ∧ I s' := by
  refine exists_foldAll_done (I := fun _ => I) h fun done a rest s hall => hstep a ?_ s
  exact hall ▸ List.mem_append_right done List.mem_cons_self

/-- A loop over states that stand for those of another, step by step. -/
theorem foldAll_map {τ : Type} {g : τ → α → Except ε τ} (abs : σ → τ)
    (h : ∀ s a, g (abs s) a = (f s a).map abs) :
    ∀ (l : List α) (s : σ), foldAll g (abs s) l = (foldAll f s l).map abs
  | [], _ => rfl
  | a :: l, s => by
    rw [foldAll, foldAll, h]
    cases f s a with
    | error e => rfl
    | ok s₁ => exact foldAll_map abs h l s₁

theorem foldAll_mono {g : σ → α → Except ε' σ} :
    ∀ {l : List α} {s : σ}, (∀ a ∈ l, ∀ s s', f s a = .ok s' → g s a = .ok s') →
      foldAll f s l = .ok s' → foldAll g s l = .ok s'
  | [], _, _, h => by
    cases h
    rfl
  | a :: l, s, hfg, h => by
    rw [List.forall_mem_cons] at hfg
    obtain ⟨s₁, h₁, hl⟩ := foldAll_cons_eq_ok.mp h
    exact foldAll_cons_eq_ok.mpr ⟨s₁, hfg.1 s s₁ h₁, foldAll_mono hfg.2 hl⟩

end Guard
