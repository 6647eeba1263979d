import Mathlib.Algebra.BigOperators.Group.Finset.Basic
import Mathlib.Data.List.Nodup
import Mathlib.Tactic.Ring

/-!
# Indexes of spent pointers

An index maps the key of an item to an entry: the position where the item is stored and, for
each of its outputs, a pointer to the item that spends it (null while it is unspent). `connect` marks
what an item spends and adds a fresh entry; `disconnect` resets those pointers and drops the entry.

An entry of which every output is spent may be overwritten by a later item of the same key. This is
why `disconnect` is an inverse of `connect` only away from the key of the item, and why a run of both
has to be followed with a history (`Agrees`).
-/

namespace SpentIndex

open List

/-- Pointers, of which several values may count as null; `null` is the one written. -/
class NullPtr (P : Type*) where
  null : P
  isNull : P → Bool
  isNull_null : isNull null = true

export NullPtr (null isNull isNull_null)

attribute [simp] isNull_null

structure Entry (P : Type*) where
  pos : P
  vSpent : List P
  deriving DecidableEq, Repr

/-- What an item does to an index. -/
structure Item (K P : Type*) where
  key : K
  nOutputs : Nat
  spends : List (K × Nat)
  pos : P

abbrev Index (K P : Type*) := K → Option (Entry P)

variable {K P : Type*}

instance [DecidableEq K] (o : K × Nat) (t : Item K P) : Decidable (o ∈ t.spends) :=
  List.instDecidableMemOfLawfulBEq o t.spends

/-! ## Slots -/

variable {e : Entry P}

/-- Entries with one position are compared pointer by pointer. -/
theorem Entry.ext_slots {e' : Entry P} (hpos : e.pos = e'.pos)
    (h : ∀ n : Nat, e.vSpent[n]? = e'.vSpent[n]?) : e = e' := by
  cases e
  cases e'
  simp only [Entry.mk.injEq]
  exact ⟨hpos, ext_getElem? h⟩

/-- The pointer at an outpoint, if the index has it. -/
def slot (idx : Index K P) (o : K × Nat) : Option P := (idx o.1).bind (·.vSpent[o.2]?)

variable {idx idx' : Index K P} {o : K × Nat} {k : K} {p : P}

theorem slot_eq_of_entry (h : idx o.1 = some e) :
    slot idx o = e.vSpent[o.2]? := by
  simp [slot, h]

theorem slot_congr (h : idx o.1 = idx' o.1) :
    slot idx o = slot idx' o := by
  rw [slot, slot, h]

theorem exists_entry_of_slot (h : slot idx o = some p) :
    ∃ e, idx o.1 = some e ∧ e.vSpent[o.2]? = some p :=
  Option.bind_eq_some_iff.mp h

section Mark

variable [DecidableEq K]

/-- Writes the pointer of one outpoint. -/
def mark (idx : Index K P) (o : K × Nat) (p : P) : Index K P := fun k =>
  if k = o.1 then (idx k).map fun e => { e with vSpent := e.vSpent.set o.2 p } else idx k

/-- Writes one pointer at every outpoint of a list. -/
def markAll (idx : Index K P) : List (K × Nat) → P → Index K P
  | [], _ => idx
  | o :: os, p => markAll (mark idx o p) os p

/-- An entry with the pointers of the listed outpoints written. -/
def Entry.markAt (e : Entry P) (k : K) (os : List (K × Nat)) (p : P) : Entry P :=
  { e with vSpent := e.vSpent.mapIdx fun n q => if (k, n) ∈ os then p else q }

theorem Entry.getElem?_markAt (e : Entry P) (k : K) (os : List (K × Nat)) (p : P) (n : Nat) :
    (e.markAt k os p).vSpent[n]? =
      (e.vSpent[n]?).map fun q => if (k, n) ∈ os then p else q := by
  simp [markAt]

variable {os : List (K × Nat)}

theorem Entry.markAt_of_notMem (e : Entry P) (p : P) (h : ∀ n, (k, n) ∉ os) :
    e.markAt k os p = e := by
  refine Entry.ext_slots rfl fun n => ?_
  simp [getElem?_markAt, h]

theorem mark_self (idx : Index K P) (o : K × Nat) (p : P) :
    mark idx o p o.1 = (idx o.1).map fun e => { e with vSpent := e.vSpent.set o.2 p } :=
  if_pos rfl

theorem mark_of_ne (h : k ≠ o.1) : mark idx o p k = idx k :=
  if_neg h

/-- Replacing the entry of an outpoint by one with the pointer written. -/
theorem update_eq_mark (he : idx o.1 = some e) (p : P) :
    (fun k => if k = o.1 then some { e with vSpent := e.vSpent.set o.2 p } else idx k) =
      mark idx o p := by
  funext k
  by_cases hk : k = o.1
  · simp only [mark, if_pos hk]
    rw [hk, he, Option.map_some]
  · simp only [mark, if_neg hk]

theorem Entry.markAt_cons (e : Entry P) (k : K) (n : Nat) (os : List (K × Nat)) (p : P) :
    ({ e with vSpent := e.vSpent.set n p } : Entry P).markAt k os p =
      e.markAt k ((k, n) :: os) p := by
  simp only [markAt, Entry.mk.injEq, true_and]
  refine ext_getElem? fun m => ?_
  by_cases hnm : n = m
  · subst hnm
    cases h : e.vSpent[n]? with
    | none => simp [getElem?_eq_none_iff.mp h]
    | some q => simp [(List.getElem?_eq_some_iff.mp h).1]
  · simp [hnm, Ne.symm hnm]

theorem markAll_apply (os : List (K × Nat)) (idx : Index K P) (p : P) (k : K) :
    markAll idx os p k = (idx k).map (·.markAt k os p) := by
  induction os generalizing idx with
  | nil => simp [markAll, Entry.markAt_of_notMem]
  | cons o os ih =>
    rw [markAll, ih]
    by_cases hk : k = o.1
    · subst hk
      rw [mark_self, Option.map_map]
      congr 1
      funext e
      exact Entry.markAt_cons e o.1 o.2 os p
    · rw [mark_of_ne hk]
      congr 1
      funext e
      have hne : ∀ n, (k, n) ≠ o := fun n he => hk (by rw [← he])
      simp only [Entry.markAt, mem_cons, hne, false_or]

theorem markAll_of_notMem (h : ∀ n, (k, n) ∉ os) : markAll idx os p k = idx k := by
  rw [markAll_apply]
  simp only [Entry.markAt_of_notMem _ p h, Option.map_id']

theorem slot_markAll (idx : Index K P) (os : List (K × Nat)) (p : P) (o : K × Nat) :
    slot (markAll idx os p) o = (slot idx o).map fun q => if o ∈ os then p else q := by
  cases h : idx o.1 with
  | none => simp [slot, markAll_apply, h]
  | some e => simp [slot, markAll_apply, h, Entry.getElem?_markAt]

theorem slot_mark_of_ne {o' : K × Nat} (h : o' ≠ o) :
    slot (mark idx o p) o' = slot idx o' := by
  have hm := slot_markAll idx [o] p o'
  simpa [markAll, h] using hm

theorem isSome_slot_mark (idx : Index K P) (o o' : K × Nat) (p : P) :
    (slot (mark idx o p) o').isSome = (slot idx o').isSome := by
  have hm := slot_markAll idx [o] p o'
  simp only [markAll] at hm
  rw [hm, Option.isSome_map]

theorem pos_mark (idx : Index K P) (o : K × Nat) (p : P) (k : K) :
    (mark idx o p k).map (·.pos) = (idx k).map (·.pos) := by
  unfold mark
  split
  · rw [Option.map_map]; rfl
  · rfl

theorem Entry.markAt_markAt (e : Entry P) (k : K) (os : List (K × Nat)) (p q : P) :
    (e.markAt k os p).markAt k os q = e.markAt k os q := by
  refine Entry.ext_slots rfl fun n => ?_
  simp only [getElem?_markAt, Option.map_map]
  congr 1
  funext x
  by_cases h : (k, n) ∈ os <;> simp [h]

theorem markAll_eq_self
    (h : ∀ n q, (k, n) ∈ os → slot idx (k, n) = some q → q = p) : markAll idx os p k = idx k := by
  rw [markAll_apply]
  cases he : idx k with
  | none => rfl
  | some e =>
    rw [Option.map_some, Option.some.injEq]
    refine Entry.ext_slots rfl fun n => ?_
    rw [Entry.getElem?_markAt]
    cases hn : e.vSpent[n]? with
    | none => rfl
    | some q =>
      rw [Option.map_some, Option.some.injEq]
      split
      · next hm => exact (h n q hm (by rw [slot_eq_of_entry (o := (k, n)) he, hn])).symm
      · rfl

end Mark

/-! ## Unspent outpoints -/

section Unspent

variable [NullPtr P]

/-- The outpoint is in the index and its pointer is null. -/
def Unspent (idx : Index K P) (o : K × Nat) : Prop := ∃ p, slot idx o = some p ∧ isNull p = true

/-- The key has no entry with an unspent output. -/
def AllSpent (idx : Index K P) (k : K) : Prop := ∀ n, ¬ Unspent idx (k, n)

theorem unspent_congr (h : idx o.1 = idx' o.1) :
    Unspent idx o ↔ Unspent idx' o := by
  rw [Unspent, Unspent, slot_congr h]

theorem allSpent_congr (h : idx k = idx' k) :
    AllSpent idx k ↔ AllSpent idx' k :=
  forall_congr' fun n => not_congr (unspent_congr (o := (k, n)) h)

theorem allSpent_of_none (h : idx k = none) : AllSpent idx k := by
  rintro n ⟨p, hp, -⟩
  simp [slot, h] at hp

theorem allSpent_iff :
    AllSpent idx k ↔ ∀ e, idx k = some e → ∀ p ∈ e.vSpent, isNull p = false := by
  constructor
  · intro h e he p hp
    obtain ⟨n, hn⟩ := getElem?_of_mem hp
    have hns := h n
    simp only [Unspent, slot_eq_of_entry (o := (k, n)) he, hn, Option.some.injEq] at hns
    by_contra hc
    exact hns ⟨p, rfl, by simpa using hc⟩
  · rintro h n ⟨p, hp, hnull⟩
    obtain ⟨e, he, hn⟩ := exists_entry_of_slot hp
    rw [h e he p (mem_of_getElem? hn)] at hnull
    cases hnull

/-- The item may be connected: it spends unspent outputs, each once, and overwrites nothing unspent.
-/
structure Connectable (idx : Index K P) (t : Item K P) : Prop where
  unspent : ∀ o ∈ t.spends, Unspent idx o
  nodup : t.spends.Nodup
  allSpent : AllSpent idx t.key

/-- The item may be disconnected: what it spent is still in the index. -/
def Disconnectable (idx : Index K P) (t : Item K P) : Prop :=
  ∀ o ∈ t.spends, (slot idx o).isSome

/-- A key without unspent outputs is not among those an item spends from. -/
theorem Connectable.notMem_spends {t : Item K P} (h : Connectable idx t)
    (hk : AllSpent idx k) (n : Nat) : (k, n) ∉ t.spends :=
  fun hm => hk n (h.unspent _ hm)

theorem Connectable.key_ne {t : Item K P} (hc : Connectable idx t)
    (ho : o ∈ t.spends) : t.key ≠ o.1 := by
  rintro hk
  exact hc.notMem_spends hc.allSpent o.2 (by rw [hk]; exact ho)

end Unspent

/-! ## Connecting and disconnecting an item -/

section Connect

variable [DecidableEq K] [NullPtr P]

def connect (idx : Index K P) (t : Item K P) : Index K P := fun k =>
  if k = t.key then some ⟨t.pos, List.replicate t.nOutputs null⟩ else markAll idx t.spends t.pos k

def disconnect (idx : Index K P) (t : Item K P) : Index K P := fun k =>
  if k = t.key then none else markAll idx t.spends null k

theorem connect_key (idx : Index K P) (t : Item K P) :
    connect idx t t.key = some ⟨t.pos, List.replicate t.nOutputs null⟩ :=
  if_pos rfl

variable {t : Item K P} {ts : List (Item K P)}

theorem connect_of_ne (h : k ≠ t.key) : connect idx t k = markAll idx t.spends t.pos k :=
  if_neg h

theorem disconnect_key (idx : Index K P) (t : Item K P) : disconnect idx t t.key = none :=
  if_pos rfl

theorem disconnect_of_ne (h : k ≠ t.key) : disconnect idx t k = markAll idx t.spends null k :=
  if_neg h

theorem pos_connect (h : connect idx t k = some e) :
    e.pos = t.pos ∨ ∃ e', idx k = some e' ∧ e.pos = e'.pos := by
  unfold connect at h
  split at h
  · cases h
    exact .inl rfl
  · rw [markAll_apply] at h
    obtain ⟨e', he', rfl⟩ := Option.map_eq_some_iff.mp h
    exact .inr ⟨e', he', rfl⟩

theorem Connectable.connect_of_allSpent (h : Connectable idx t) (hk : AllSpent idx k)
    (hne : k ≠ t.key) : connect idx t k = idx k := by
  rw [connect_of_ne hne, markAll_of_notMem (h.notMem_spends hk)]

theorem Connectable.allSpent_connect (h : Connectable idx t) (hk : AllSpent idx k)
    (hne : k ≠ t.key) : AllSpent (connect idx t) k :=
  (allSpent_congr (h.connect_of_allSpent hk hne)).mpr hk

/-- What is unspent after an item: an output of it, or what was unspent before and is not spent by
it. -/
theorem unspent_connect_iff (hpos : isNull t.pos = false) :
    Unspent (connect idx t) o ↔
      (o.1 = t.key ∧ o.2 < t.nOutputs) ∨ (o.1 ≠ t.key ∧ o ∉ t.spends ∧ Unspent idx o) := by
  by_cases hk : o.1 = t.key
  · have hslot : slot (connect idx t) o = (replicate t.nOutputs (null : P))[o.2]? := by
      rw [slot, hk, connect_key]
      rfl
    rw [Unspent, hslot]
    by_cases hn : o.2 < t.nOutputs <;> simp [hk, hn]
  · rw [Unspent, slot_congr (connect_of_ne hk), slot_markAll, Unspent]
    by_cases hm : o ∈ t.spends
    · simp [hk, hm, hpos]
    · simp [hk, hm]

theorem disconnect_connect_of_ne (h : k ≠ t.key) :
    disconnect (connect idx t) t k = markAll idx t.spends null k := by
  rw [disconnect_of_ne h, markAll_apply, connect_of_ne h, markAll_apply, markAll_apply,
    Option.map_map]
  congr 1
  funext e
  exact e.markAt_markAt k t.spends t.pos null

/-! ## Sequences of items -/

def connectAll (idx : Index K P) (ts : List (Item K P)) : Index K P := ts.foldl connect idx

def disconnectAll (idx : Index K P) (ts : List (Item K P)) : Index K P :=
  ts.foldr (fun t idx => disconnect idx t) idx

def ConnectableAll (idx : Index K P) : List (Item K P) → Prop
  | [] => True
  | t :: ts => Connectable idx t ∧ ConnectableAll (connect idx t) ts

def DisconnectableAll (idx : Index K P) : List (Item K P) → Prop
  | [] => True
  | t :: ts => DisconnectableAll idx ts ∧ Disconnectable (disconnectAll idx ts) t

@[simp] theorem connectAll_cons (idx : Index K P) (t : Item K P) (ts : List (Item K P)) :
    connectAll idx (t :: ts) = connectAll (connect idx t) ts := rfl

@[simp] theorem disconnectAll_cons (idx : Index K P) (t : Item K P) (ts : List (Item K P)) :
    disconnectAll idx (t :: ts) = disconnect (disconnectAll idx ts) t := rfl

/-- The index without the entries of some keys and with some pointers reset. -/
def reset (idx : Index K P) (keys : List K) (os : List (K × Nat)) : Index K P := fun k =>
  if k ∈ keys then none else (idx k).map (·.markAt k os null)

/-- The items of a block: their keys are different and hide nothing unspent. -/
structure Fresh (idx : Index K P) (ts : List (Item K P)) : Prop where
  nodup : (ts.map (·.key)).Nodup
  allSpent : ∀ t ∈ ts, AllSpent idx t.key

theorem Fresh.tail (hf : Fresh idx (t :: ts)) (hc : Connectable idx t) :
    Fresh (connect idx t) ts where
  nodup := (nodup_cons.mp hf.nodup).2
  allSpent u hu := by
    refine hc.allSpent_connect (hf.allSpent u (.tail _ hu)) ?_
    intro he
    exact (nodup_cons.mp hf.nodup).1 (mem_map.mpr ⟨u, hu, he⟩)

/-- Connecting a block and disconnecting it resets what the block spent and removes its keys. -/
theorem disconnectAll_connectAll :
    ∀ {idx : Index K P}, ConnectableAll idx ts → Fresh idx ts →
      DisconnectableAll (connectAll idx ts) ts ∧
      disconnectAll (connectAll idx ts) ts =
        reset idx (ts.map (·.key)) (ts.flatMap (·.spends)) := by
  induction ts with
  | nil =>
    intro idx _ _
    refine ⟨trivial, ?_⟩
    funext k
    simp [disconnectAll, connectAll, reset, Entry.markAt_of_notMem]
  | cons t ts ih =>
    intro idx hc hf
    obtain ⟨hd, he⟩ := ih hc.2 (hf.tail hc.1)
    rw [connectAll_cons]
    refine ⟨⟨hd, ?_⟩, ?_⟩
    · intro o ho
      -- what `t` spends is unspent in `idx`, so no item of the block has its key
      have hkey : o.1 ∉ (t :: ts).map (·.key) := by
        intro hm
        obtain ⟨u, hu, hk⟩ := mem_map.mp hm
        obtain ⟨k, n⟩ := o
        exact hf.allSpent u hu n (hk ▸ hc.1.unspent _ ho)
      simp only [map_cons, mem_cons, not_or] at hkey
      obtain ⟨p, hp, -⟩ := hc.1.unspent o ho
      obtain ⟨e, hke, hn⟩ := exists_entry_of_slot hp
      rw [he]
      simp [slot, reset, hkey.2, connect_of_ne hkey.1, markAll_apply, hke, Entry.getElem?_markAt, hn]
    · rw [disconnectAll_cons, he]
      funext k
      by_cases hk : k = t.key
      · subst hk
        simp [disconnect_key, reset]
      · rw [disconnect_of_ne hk, markAll_apply]
        by_cases hks : k ∈ ts.map (·.key)
        · simp only [reset, hks, if_true, Option.map_none, map_cons, mem_cons, or_true]
        · simp only [reset, hks, hk, if_false, map_cons, mem_cons, or_self,
            connect_of_ne hk, markAll_apply, Option.map_map, flatMap_cons]
          congr 1
          funext e
          refine Entry.ext_slots rfl fun n => ?_
          simp only [Function.comp_apply, Entry.getElem?_markAt, Option.map_map]
          congr 1
          funext q
          by_cases h₁ : (k, n) ∈ t.spends <;> by_cases h₂ : (k, n) ∈ ts.flatMap (·.spends) <;>
            simp only [Function.comp_apply, mem_append, h₁, h₂, if_true, if_false, or_self,
              or_true, true_or]

theorem ConnectableAll.unspent :
    ∀ {idx : Index K P}, ConnectableAll idx ts → ∀ {o : K × Nat}, o.1 ∉ ts.map (·.key) →
      o ∈ ts.flatMap (·.spends) → Unspent idx o := by
  induction ts with
  | nil => simp
  | cons t ts ih =>
    intro idx hc o hkey ho
    rw [map_cons, mem_cons, not_or] at hkey
    rw [flatMap_cons, mem_append] at ho
    by_cases hot : o ∈ t.spends
    · exact hc.1.unspent o hot
    · -- `t` does not touch the outpoint
      obtain ⟨p, hp, hn⟩ := ih hc.2 hkey.2 (ho.resolve_left hot)
      rw [slot_congr (connect_of_ne hkey.1), slot_markAll] at hp
      simp only [hot, if_false, Option.map_id'] at hp
      exact ⟨p, hp, hn⟩

/-- The entry with every null pointer written as `null`. -/
def Entry.normalize (e : Entry P) : Entry P :=
  { e with vSpent := e.vSpent.map fun p => if isNull p then null else p }

/-- Every null pointer of the index is `null` itself. -/
def NullsCanonical (idx : Index K P) : Prop := ∀ k, (idx k).map Entry.normalize = idx k

/-- Resetting pointers that are null already. -/
theorem Entry.normalize_markAt {os : List (K × Nat)}
    (h : ∀ n q, (k, n) ∈ os → e.vSpent[n]? = some q → isNull q) :
    (e.markAt k os null).normalize = e.normalize := by
  refine Entry.ext_slots rfl fun n => ?_
  simp only [normalize, getElem?_map, getElem?_markAt, Option.map_map]
  cases hn : e.vSpent[n]? with
  | none => rfl
  | some q =>
    by_cases hm : (k, n) ∈ os
    · simp [hm, h n q hm hn]
    · simp [hm]

/-- Disconnecting a block just connected restores all other keys, up to how null pointers are
written. -/
theorem normalize_disconnectAll_connectAll (hc : ConnectableAll idx ts) (hf : Fresh idx ts)
    (hk : k ∉ ts.map (·.key)) :
    (disconnectAll (connectAll idx ts) ts k).map Entry.normalize = (idx k).map Entry.normalize := by
  rw [(disconnectAll_connectAll hc hf).2, reset, if_neg hk]
  cases he : idx k with
  | none => rfl
  | some e =>
    rw [Option.map_some, Option.map_some, Option.map_some, Entry.normalize_markAt]
    intro n q hm hq
    obtain ⟨p, hp, hnull⟩ := hc.unspent (o := (k, n)) hk hm
    rw [slot_eq_of_entry he, hq, Option.some.injEq] at hp
    rw [hp, hnull]

theorem NullsCanonical.disconnectAll_connectAll (hn : NullsCanonical idx)
    (hc : ConnectableAll idx ts) (hf : Fresh idx ts) (hk : k ∉ ts.map (·.key)) :
    disconnectAll (connectAll idx ts) ts k = idx k := by
  rw [(SpentIndex.disconnectAll_connectAll hc hf).2, reset, if_neg hk, ← markAll_apply]
  refine markAll_eq_self fun n q hm hq => ?_
  obtain ⟨p, hp, hnull⟩ := hc.unspent hk hm
  rw [hq, Option.some.injEq] at hp
  subst hp
  obtain ⟨e, he, hq⟩ := exists_entry_of_slot hq
  -- the pointer is one of a normalized entry
  have hk := hn k
  rw [he, Option.map_some, Option.some.injEq] at hk
  rw [← hk] at hq
  simp only [Entry.normalize, getElem?_map, Option.map_eq_some_iff] at hq
  obtain ⟨p, -, rfl⟩ := hq
  split at hnull
  · next h => rw [if_pos h]
  · next h => exact absurd hnull h

end Connect

/-! ## The value of the unspent outputs

With a value `val p n` for output `n` of the item stored at `p`, `total` is the value of all
outputs whose pointer is null. -/

section Total

open Option

variable (val : P → Nat → Int)

def valueOf (idx : Index K P) (o : K × Nat) : Int :=
  match idx o.1 with
  | some e => val e.pos o.2
  | none => 0

theorem valueOf_mark [DecidableEq K] (idx : Index K P) (o o' : K × Nat) (p : P) :
    valueOf val (mark idx o p) o' = valueOf val idx o' := by
  have hpos := pos_mark idx o p o'.1
  unfold valueOf
  cases h : idx o'.1 with
  | none =>
    rw [h, map_none, map_eq_none_iff] at hpos
    simp [hpos]
  | some e =>
    rw [h, map_some, map_eq_some_iff] at hpos
    obtain ⟨e', he', hp⟩ := hpos
    simp [he', hp]

variable [NullPtr P]

def Entry.unspentValue (e : Entry P) : Int :=
  ∑ n ∈ Finset.range e.vSpent.length, if (e.vSpent[n]?).any isNull then val e.pos n else 0

def keyValue (idx : Index K P) (k : K) : Int :=
  match idx k with
  | some e => e.unspentValue val
  | none => 0

def total (keys : Finset K) (idx : Index K P) : Int := ∑ k ∈ keys, keyValue val idx k

variable {keys : Finset K}

theorem keyValue_congr (h : idx k = idx' k) :
    keyValue val idx k = keyValue val idx' k := by
  rw [keyValue, keyValue, h]

/-- The total does not depend on keys without an entry. -/
theorem total_eq_of_subset {keys' : Finset K} (hs : keys ⊆ keys')
    (h : ∀ k, (idx k).isSome → k ∈ keys) : total val keys' idx = total val keys idx := by
  refine (Finset.sum_subset hs fun k _ hk => ?_).symm
  have hnone : idx k = none := by
    cases he : idx k with
    | none => rfl
    | some e => exact absurd (h k (by rw [he]; rfl)) hk
  simp [keyValue, hnone]

theorem keyValue_of_allSpent (h : AllSpent idx k) : keyValue val idx k = 0 := by
  unfold keyValue
  split
  · next e he =>
    refine Finset.sum_eq_zero fun n _ => if_neg ?_
    cases hn : e.vSpent[n]? with
    | none => simp
    | some p =>
      intro hnull
      exact h n ⟨p, by rw [slot_eq_of_entry (o := (k, n)) he, hn], by simpa using hnull⟩
  · rfl

theorem unspentValue_replicate (p : P) (m : Nat) :
    (⟨p, List.replicate m null⟩ : Entry P).unspentValue val = ∑ n ∈ Finset.range m, val p n := by
  unfold Entry.unspentValue
  simp only [length_replicate]
  refine Finset.sum_congr rfl fun n hn => ?_
  rw [getElem?_replicate_of_lt (Finset.mem_range.mp hn)]
  simp

theorem unspentValue_set {n : Nat} {q : P} (hn : e.vSpent[n]? = some q) (hq : isNull q)
    (hp : isNull p = false) :
    ({ e with vSpent := e.vSpent.set n p } : Entry P).unspentValue val =
      e.unspentValue val - val e.pos n := by
  obtain ⟨hlt, -⟩ := List.getElem?_eq_some_iff.mp hn
  have hmem : n ∈ Finset.range e.vSpent.length := Finset.mem_range.mpr hlt
  unfold Entry.unspentValue
  simp only [length_set]
  rw [← Finset.add_sum_erase _ _ hmem, ← Finset.add_sum_erase _ _ hmem]
  have hrest : ∀ m ∈ (Finset.range e.vSpent.length).erase n,
      (if ((e.vSpent.set n p)[m]?).any isNull then val e.pos m else 0) =
        if (e.vSpent[m]?).any isNull then val e.pos m else 0 := by
    intro m hm
    rw [getElem?_set_ne (Finset.ne_of_mem_erase hm).symm]
  rw [Finset.sum_congr rfl hrest, getElem?_set_self hlt, hn]
  simp [hp, hq]

variable [DecidableEq K]

theorem total_mark (ho : Unspent idx o) (hk : o.1 ∈ keys) (hp : isNull p = false) :
    total val keys (mark idx o p) = total val keys idx - valueOf val idx o := by
  obtain ⟨q, hq, hnull⟩ := ho
  obtain ⟨e, he, hn⟩ := exists_entry_of_slot hq
  unfold total
  rw [← Finset.add_sum_erase _ _ hk, ← Finset.add_sum_erase _ _ hk]
  have hrest : ∀ k ∈ keys.erase o.1, keyValue val (mark idx o p) k = keyValue val idx k :=
    fun k hm => keyValue_congr val (mark_of_ne (Finset.ne_of_mem_erase hm))
  have hself : keyValue val (mark idx o p) o.1 = keyValue val idx o.1 - valueOf val idx o := by
    simp only [keyValue, mark_self, he, map_some, valueOf]
    exact unspentValue_set val hn hnull hp
  rw [Finset.sum_congr rfl hrest, hself]
  ring

theorem total_markAll {os : List (K × Nat)} (hp : isNull p = false) (hd : os.Nodup)
    (hk : ∀ o ∈ os, o.1 ∈ keys) :
    ∀ {idx : Index K P}, (∀ o ∈ os, Unspent idx o) →
      total val keys (markAll idx os p) = total val keys idx - (os.map (valueOf val idx)).sum := by
  induction os with
  | nil => intro idx _; simp [markAll]
  | cons o os ih =>
    intro idx hu
    obtain ⟨ho, hd⟩ := nodup_cons.mp hd
    have hrest : ∀ o' ∈ os, Unspent (mark idx o p) o' := by
      intro o' ho'
      have hne : o' ≠ o := fun he => ho (he ▸ ho')
      rw [Unspent, slot_mark_of_ne hne]
      exact hu o' (.tail _ ho')
    have hval : valueOf val (mark idx o p) = valueOf val idx :=
      funext fun o' => valueOf_mark val idx o o' p
    rw [markAll, ih hd (fun o' ho' => hk o' (.tail _ ho')) hrest, hval,
      total_mark val (hu o (by simp)) (hk o (by simp)) hp, map_cons, sum_cons]
    ring

theorem total_connect {t : Item K P} (hc : Connectable idx t) (hp : isNull t.pos = false)
    (hkey : t.key ∈ keys) (hk : ∀ o ∈ t.spends, o.1 ∈ keys) :
    total val keys (connect idx t) = total val keys idx -
      (t.spends.map (valueOf val idx)).sum + ∑ n ∈ Finset.range t.nOutputs, val t.pos n := by
  rw [← total_markAll val hp hc.nodup hk hc.unspent]
  unfold total
  rw [← Finset.add_sum_erase _ _ hkey, ← Finset.add_sum_erase _ _ hkey]
  have hrest : ∀ k ∈ keys.erase t.key, keyValue val (connect idx t) k =
      keyValue val (markAll idx t.spends t.pos) k :=
    fun k hm => keyValue_congr val (connect_of_ne (Finset.ne_of_mem_erase hm))
  have hnew : keyValue val (connect idx t) t.key = ∑ n ∈ Finset.range t.nOutputs, val t.pos n := by
    simp only [keyValue, connect_key, unspentValue_replicate]
  have hold : keyValue val (markAll idx t.spends t.pos) t.key = 0 := by
    rw [keyValue_congr val (markAll_of_notMem (hc.notMem_spends hc.allSpent))]
    exact keyValue_of_allSpent val hc.allSpent
  rw [Finset.sum_congr rfl hrest, hnew, hold]
  ring

/-! ## Sequences of items -/

theorem isSome_connect (t : Item K P) (h : (idx k).isSome) : (connect idx t k).isSome := by
  unfold connect
  split
  · rfl
  · rw [markAll_apply, isSome_map]
    exact h

theorem isSome_connectAll (ts : List (Item K P)) :
    ∀ {idx : Index K P}, (idx k).isSome → (connectAll idx ts k).isSome := by
  induction ts with
  | nil => exact id
  | cons t ts ih => exact fun h => ih (isSome_connect t h)

/-- The value of the outputs of items less that of what they spend, each item at the index it is
connected to. -/
def flow (idx : Index K P) : List (Item K P) → Int
  | [] => 0
  | t :: ts => ∑ n ∈ Finset.range t.nOutputs, val t.pos n - (t.spends.map (valueOf val idx)).sum +
      flow (connect idx t) ts

theorem total_connectAll {ts : List (Item K P)} :
    ∀ {idx : Index K P}, ConnectableAll idx ts → (∀ t ∈ ts, isNull t.pos = false) →
      (∀ k, (connectAll idx ts k).isSome → k ∈ keys) →
      total val keys (connectAll idx ts) = total val keys idx + flow val idx ts := by
  induction ts with
  | nil =>
    intro idx _ _ _
    simp [connectAll, flow]
  | cons t ts ih =>
    intro idx hc hp hkeys
    rw [forall_mem_cons] at hp
    have hkey : t.key ∈ keys := hkeys _ (isSome_connectAll ts (by rw [connect_key]; rfl))
    have hspends : ∀ o ∈ t.spends, o.1 ∈ keys := by
      intro o ho
      obtain ⟨p, hslot, -⟩ := hc.1.unspent o ho
      obtain ⟨e, he, -⟩ := exists_entry_of_slot hslot
      exact hkeys _ (isSome_connectAll ts (isSome_connect t (by rw [he]; rfl)))
    rw [connectAll_cons, ih hc.2 hp.2 hkeys, total_connect val hc.1 hp.1 hkey hspends, flow]
    ring

end Total

end SpentIndex
