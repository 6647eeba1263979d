import Mathlib.Data.List.Induction

/-!
# Transactions on a map

A transaction collects its writes in a log and applies them to the map when it commits. While it
is open, what it reads is the map with the log laid over it. `overlay` is that map; `Txn` is what
such a store is for, with no log in it: a committed map and, while a transaction is open, the map
as the transaction sees it.
-/

namespace Overlay

abbrev Map (κ : Type) (ν : κ → Type) := (k : κ) → Option (ν k)

inductive Update (κ : Type) (ν : κ → Type)
  | put (k : κ) (v : ν k)
  | delete (k : κ)

variable {κ : Type} {ν : κ → Type}

def Update.key : Update κ ν → κ
  | put k _ => k
  | delete k => k

/-- The value an operation leaves at its key. -/
def Update.value : (op : Update κ ν) → Option (ν op.key)
  | put _ v => some v
  | delete _ => none

section

variable [DecidableEq κ]

def Update.apply (m : Map κ ν) (op : Update κ ν) : Map κ ν := Function.update m op.key op.value

/-- The map after the operations of a log, in their order. -/
def overlay (m : Map κ ν) (log : List (Update κ ν)) : Map κ ν := log.foldl Update.apply m

/-- The last operation of a log on a key. -/
def lastOn (k : κ) (log : List (Update κ ν)) : Option (Update κ ν) :=
  (log.filter fun op => op.key = k).getLast?

theorem overlay_append (m : Map κ ν) (log : List (Update κ ν)) (op : Update κ ν) :
    overlay m (log ++ [op]) = op.apply (overlay m log) := by
  rw [overlay, List.foldl_append]
  rfl

theorem lastOn_append (k : κ) (log : List (Update κ ν)) (op : Update κ ν) :
    lastOn k (log ++ [op]) = if op.key = k then some op else lastOn k log := by
  rw [lastOn]
  by_cases h : op.key = k
  · simp [h]
  · simp [h, lastOn]

variable {log : List (Update κ ν)} {k : κ}

/-- A key has the value its last operation left, or the one it had before the log. -/
theorem overlay_of_lastOn_none (m : Map κ ν) (h : lastOn k log = none) :
    overlay m log k = m k := by
  induction log using List.reverseRecOn with
  | nil => rfl
  | append_singleton log op ih =>
    rw [lastOn_append] at h
    split at h
    · cases h
    · next hne =>
      rw [overlay_append, Update.apply, Function.update_of_ne (Ne.symm hne)]
      exact ih h

theorem exists_overlay_of_lastOn (m : Map κ ν) {op : Update κ ν} (h : lastOn k log = some op) :
    ∃ m', overlay m log k = op.apply m' k := by
  induction log using List.reverseRecOn with
  | nil => cases h
  | append_singleton log op' ih =>
    rw [lastOn_append] at h
    rw [overlay_append]
    split at h
    · cases h
      exact ⟨overlay m log, rfl⟩
    · next hne =>
      rw [Update.apply, Function.update_of_ne (Ne.symm hne)]
      exact ih h

theorem overlay_of_lastOn_delete (m : Map κ ν) (h : lastOn k log = some (.delete k)) :
    overlay m log k = none := by
  obtain ⟨m', hm'⟩ := exists_overlay_of_lastOn m h
  rw [hm']
  exact Function.update_self k none m'

theorem overlay_of_lastOn_put (m : Map κ ν) {v : ν k} (h : lastOn k log = some (.put k v)) :
    overlay m log k = some v := by
  obtain ⟨m', hm'⟩ := exists_overlay_of_lastOn m h
  rw [hm']
  exact Function.update_self k (some v) m'

theorem lastOn_cases (k : κ) (log : List (Update κ ν)) :
    lastOn k log = none ∨ lastOn k log = some (.delete k) ∨
      ∃ v, lastOn k log = some (.put k v) := by
  induction log using List.reverseRecOn with
  | nil => exact .inl rfl
  | append_singleton log op ih =>
    rw [lastOn_append]
    by_cases h : op.key = k
    · rw [if_pos h]
      subst h
      cases op with
      | put k v => exact .inr (.inr ⟨v, rfl⟩)
      | delete k => exact .inr (.inl rfl)
    · rw [if_neg h]
      exact ih

end

/-! ## Keys and values in another form -/

section Encode

variable {κ' : Type} {ν' : Type}

/-- An operation on the encoded keys and values. -/
def Update.encode (key : κ → κ') (value : (k : κ) → ν k → ν') : Update κ ν → Update κ' fun _ => ν'
  | put k v => put (key k) (value k v)
  | delete k => delete (key k)

/-- A map that has the encoded values at the encoded keys. -/
def Encodes (key : κ → κ') (value : (k : κ) → ν k → ν') (m' : Map κ' fun _ => ν')
    (m : Map κ ν) : Prop :=
  ∀ k, m' (key k) = (m k).map (value k)

variable [DecidableEq κ] [DecidableEq κ'] {key : κ → κ'} {value : (k : κ) → ν k → ν'}
  {m' : Map κ' fun _ => ν'} {m : Map κ ν}

theorem Encodes.apply (hkey : Function.Injective key) (h : Encodes key value m' m)
    (op : Update κ ν) :
    Encodes key value ((op.encode key value).apply m') (op.apply m) := by
  intro k
  by_cases hk : k = op.key
  · subst hk
    cases op with
    | put k v =>
      show Function.update m' (key k) (some (value k v)) (key k) =
        (Function.update m k (some v) k).map (value k)
      rw [Function.update_self, Function.update_self, Option.map_some]
    | delete k =>
      show Function.update m' (key k) none (key k) = (Function.update m k none k).map (value k)
      rw [Function.update_self, Function.update_self, Option.map_none]
  · have hkey' : (op.encode key value).key = key op.key := by cases op <;> rfl
    rw [Update.apply, Update.apply, Function.update_of_ne hk, Function.update_of_ne]
    · exact h k
    · rw [hkey']
      exact fun he => hk (hkey he)

theorem Encodes.overlay (hkey : Function.Injective key) (h : Encodes key value m' m)
    (log : List (Update κ ν)) :
    Encodes key value (overlay m' (log.map (Update.encode key value))) (overlay m log) := by
  induction log generalizing m' m with
  | nil => exact h
  | cons op log ih => exact ih (h.apply hkey op)

theorem lastOn_map_encode (hkey : Function.Injective key) (value : (k : κ) → ν k → ν') (k : κ)
    (log : List (Update κ ν)) : lastOn (key k) (log.map (Update.encode key value)) =
      (lastOn k log).map (Update.encode key value) := by
  induction log using List.reverseRecOn with
  | nil => rfl
  | append_singleton log op ih =>
    have hkey' : (op.encode key value).key = key op.key := by cases op <;> rfl
    rw [List.map_append, List.map_singleton, lastOn_append, lastOn_append, hkey', ih]
    by_cases h : op.key = k
    · rw [if_pos h, if_pos (congrArg key h), Option.map_some]
    · rw [if_neg h, if_neg fun he => h (hkey he)]

end Encode

/-! ## Transactions -/

/-- The committed map, and the map an open transaction sees. -/
structure Txn (κ : Type) (ν : κ → Type) where
  committed : Map κ ν
  pending : Option (Map κ ν)

/-- What is asked of a store. `ok` says whether a write to the store itself succeeds. -/
inductive TxnCall (κ : Type) (ν : κ → Type)
  | begin
  | op (ok : Bool) (op : Update κ ν)
  | commit (ok : Bool)
  | abort

namespace Txn

variable [DecidableEq κ]

def view (a : Txn κ ν) : Map κ ν := a.pending.getD a.committed

def step (a : Txn κ ν) : TxnCall κ ν → Txn κ ν
  | .begin => { a with pending := some a.committed }
  | .op ok op =>
    match a.pending with
    | some m => { a with pending := some (op.apply m) }
    | none => if ok then { a with committed := op.apply a.committed } else a
  | .commit ok => ⟨if ok then a.view else a.committed, none⟩
  | .abort => { a with pending := none }

def run (a : Txn κ ν) (calls : List (TxnCall κ ν)) : Txn κ ν := calls.foldl step a

/-- In an open transaction the operations collect over the committed map. -/
theorem run_begin (a : Txn κ ν) (ops : List (Update κ ν)) (ok : Bool) :
    a.run (.begin :: ops.map (.op ok)) = ⟨a.committed, some (overlay a.committed ops)⟩ := by
  have hops : ∀ (ops : List (Update κ ν)) (m : Map κ ν),
      (Txn.mk a.committed (some m)).run (ops.map (.op ok)) =
        ⟨a.committed, some (overlay m ops)⟩ := by
    intro ops
    induction ops with
    | nil => exact fun _ => rfl
    | cons op ops ih => exact fun m => ih (op.apply m)
  exact hops ops a.committed

end Txn

end Overlay
