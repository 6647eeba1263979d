import Mathlib.Data.List.AList

/-!
# Association lists as maps

What an insertion and an erasure do to a lookup, in one equation each, membership by the lookup,
a map with other values, and the entries of a map that pass a test.
-/

namespace AssocMap

open Option

variable {α : Type} [DecidableEq α] {β : Type} {m : AList fun _ : α => β} {k : α}

theorem lookup_insert_ite (m : AList fun _ : α => β) (a k : α) (b : β) :
    (m.insert a b).lookup k = if k = a then some b else m.lookup k := by
  split
  · next h => rw [h, AList.lookup_insert]
  · next h => rw [AList.lookup_insert_ne h]

theorem lookup_erase_ite (m : AList fun _ : α => β) (a k : α) :
    (m.erase a).lookup k = if k = a then none else m.lookup k := by
  split
  · next h => rw [h, AList.lookup_erase]
  · next h => rw [AList.lookup_erase_ne h]

theorem mem_of_lookup {b : β} (h : m.lookup k = some b) :
    k ∈ m :=
  AList.lookup_isSome.mp (isSome_iff_exists.mpr ⟨b, h⟩)

theorem mem_entries_of_lookup {b : β} (h : m.lookup k = some b) :
    ⟨k, b⟩ ∈ m.entries :=
  AList.mem_lookup_iff.mp h

theorem exists_lookup (h : k ∈ m) : ∃ b, m.lookup k = some b :=
  isSome_iff_exists.mp (AList.lookup_isSome.mpr h)

def mapValues {γ : Type} (f : α → β → γ) (m : AList fun _ : α => β) : AList fun _ : α => γ where
  entries := m.entries.map fun item => ⟨item.1, f item.1 item.2⟩
  nodupKeys := by
    rw [List.NodupKeys, List.keys, List.map_map]
    exact m.nodupKeys

theorem lookup_mapValues {γ : Type} (f : α → β → γ) (m : AList fun _ : α => β) (k : α) :
    (mapValues f m).lookup k = (m.lookup k).map (f k) :=
  List.dlookup_map₂ (γ := fun _ => β) (δ := fun _ => γ) (f := f) k

/-- The entries that pass a test. -/
def filter (p : α → β → Bool) (m : AList fun _ : α => β) : AList fun _ : α => β where
  entries := m.entries.filter fun item => p item.1 item.2
  nodupKeys := List.NodupKeys.sublist List.filter_sublist m.nodupKeys

theorem lookup_filter (p : α → β → Bool) (m : AList fun _ : α => β) (k : α) :
    (filter p m).lookup k = (m.lookup k).filter (p k) := by
  ext b
  have hm := AList.mem_lookup_iff (s := m) (a := k) (b := b)
  have hf := AList.mem_lookup_iff (s := filter p m) (a := k) (b := b)
  simp only [mem_def] at hm hf
  rw [hf, filter_eq_some_iff, hm, filter, List.mem_filter]

end AssocMap
