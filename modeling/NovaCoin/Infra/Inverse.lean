import Mathlib.Data.List.AList

/-!
# Indices that are inverse to each other

Two partial functions that lead back and forth between keys and values: a table and its index, or a
vector and the places of its elements (`Inverse (v[·]?) place`). What an insertion, a removal and the
exchange of two values do to both, for any tables. The operations of vectors, tree maps and
association lists are updates of their lookups.
-/

open Function (update)

variable {α β : Type}

def Inverse (f : α → Option β) (g : β → Option α) : Prop := ∀ a b, f a = some b ↔ g b = some a

namespace Inverse

variable {f : α → Option β} {g : β → Option α} {b : β}

theorem injective (h : Inverse f g) {a a' : α} (ha : f a = some b) (ha' : f a' = some b) :
    a = a' :=
  Option.some.inj (((h a b).mp ha).symm.trans ((h a' b).mp ha'))

section Update

variable [DecidableEq α] [DecidableEq β]

theorem insert (h : Inverse f g) {a : α} (ha : f a = none) (hb : g b = none) :
    Inverse (update f a (some b)) (update g b (some a)) := by
  intro a' b'
  rcases eq_or_ne a' a with rfl | hne
  · rcases eq_or_ne b' b with rfl | hneb
    · simp
    · rw [Function.update_self, Function.update_of_ne hneb, ← h, ha]
      simp [hneb.symm]
  · rcases eq_or_ne b' b with rfl | hneb
    · rw [Function.update_of_ne hne, h, hb]
      simp [hne.symm]
    · rw [Function.update_of_ne hne, Function.update_of_ne hneb]
      exact h a' b'

theorem erase (h : Inverse f g) {a : α} (hab : f a = some b) :
    Inverse (update f a none) (update g b none) := by
  intro a' b'
  have hba : g b = some a := (h a b).mp hab
  rcases eq_or_ne a' a with rfl | hne
  · rcases eq_or_ne b' b with rfl | hneb
    · simp
    · rw [Function.update_of_ne hneb, ← h, hab]
      simp [hneb.symm]
  · rcases eq_or_ne b' b with rfl | hneb
    · rw [Function.update_of_ne hne, h, hba]
      simp [hne.symm]
    · rw [Function.update_of_ne hne, Function.update_of_ne hneb]
      exact h a' b'

theorem swap (h : Inverse f g) {a₁ a₂ : α} {b₁ b₂ : β} (h₁ : f a₁ = some b₁) (h₂ : f a₂ = some b₂)
    (hne : a₁ ≠ a₂) :
    Inverse (update (update f a₁ (some b₂)) a₂ (some b₁))
      (update (update g b₁ (some a₂)) b₂ (some a₁)) := by
  have hneb : b₁ ≠ b₂ := fun heq => hne (h.injective h₁ (heq ▸ h₂))
  -- both pairs are taken out and put back the other way round
  have hout := (h.erase h₁).erase (a := a₂) (b := b₂) (by rwa [Function.update_of_ne hne.symm])
  have hin := (hout.insert (a := a₁) (b := b₂)
      (by rw [Function.update_of_ne hne, Function.update_self]) (Function.update_self ..)).insert
    (a := a₂) (b := b₁) (by rw [Function.update_of_ne hne.symm, Function.update_self])
      (by rw [Function.update_of_ne hneb, Function.update_of_ne hneb, Function.update_self])
  convert hin using 1
  · funext a
    simp only [Function.update_apply]
    split_ifs <;> rfl
  · funext b
    simp only [Function.update_apply]
    split_ifs <;> simp_all

end Update

/-! ## Vectors and maps -/

variable {v : List α} {place : α → Option Nat}

theorem nodup (h : Inverse (v[·]?) place) : v.Nodup := by
  rw [List.nodup_iff_getElem?_ne_getElem?]
  intro i j hij hj heq
  have hget : v[i]? = some v[j] := heq.trans (List.getElem?_eq_getElem hj)
  exact Nat.ne_of_lt hij (h.injective hget (List.getElem?_eq_getElem hj))

theorem mem_iff (h : Inverse (v[·]?) place) {a : α} : a ∈ v ↔ ∃ i, place a = some i := by
  rw [List.mem_iff_getElem?]
  exact exists_congr fun i => h i a

theorem getElem?_push (v : List α) (a : α) :
    ((v ++ [a])[·]?) = update (v[·]?) v.length (some a) := by
  funext i
  rcases Nat.lt_trichotomy i v.length with hlt | rfl | hgt
  · rw [Function.update_of_ne (Nat.ne_of_lt hlt), List.getElem?_append_left hlt]
  · simp
  · rw [Function.update_of_ne (Nat.ne_of_gt hgt), List.getElem?_eq_none (by simp; omega),
      List.getElem?_eq_none (Nat.le_of_lt hgt)]

theorem getElem?_pop (v : List α) : (v.dropLast[·]?) = update (v[·]?) (v.length - 1) none := by
  funext i
  rcases eq_or_ne i (v.length - 1) with rfl | hne
  · simp
  · rw [Function.update_of_ne hne, List.getElem?_dropLast]
    split
    · rfl
    · rw [List.getElem?_eq_none (by omega)]

theorem getElem?_exchange {i : Nat} (hi : i < v.length) (a : α) :
    ((v.set i a)[·]?) = update (v[·]?) i (some a) := by
  funext j
  rcases eq_or_ne j i with rfl | hne
  · simp [hi]
  · rw [Function.update_of_ne hne, List.getElem?_set_ne hne.symm]

section TreeMap

variable {γ : Type} {cmp : α → α → Ordering}

def column (m : Std.TreeMap α β cmp) (g : β → γ) (a : α) : Option γ := m[a]?.map g

theorem column_eq_some {m : Std.TreeMap α β cmp} {g : β → γ} {a : α} {c : γ} :
    column m g a = some c ↔ ∃ b, m[a]? = some b ∧ g b = c :=
  Option.map_eq_some_iff

theorem column_of_some {m : Std.TreeMap α β cmp} {a : α} (h : m[a]? = some b) (g : β → γ) :
    column m g a = some (g b) :=
  column_eq_some.mpr ⟨b, h, rfl⟩

theorem column_of_none {m : Std.TreeMap α β cmp} {a : α} (h : m[a]? = none) (g : β → γ) :
    column m g a = none := by
  rw [column, h]
  rfl

variable [Std.TransCmp cmp] [Std.LawfulEqCmp cmp] [DecidableEq α] (m : Std.TreeMap α β cmp) (a : α)

theorem getElem?_insert_eq (b : β) (a' : α) :
    (m.insert a b)[a']? = if a' = a then some b else m[a']? := by
  simp only [Std.TreeMap.getElem?_insert, Std.LawfulEqCmp.compare_eq_iff_eq, eq_comm (a := a)]

theorem getElem?_erase_eq (a' : α) : (m.erase a)[a']? = if a' = a then none else m[a']? := by
  simp only [Std.TreeMap.getElem?_erase, Std.LawfulEqCmp.compare_eq_iff_eq, eq_comm (a := a)]

theorem getElem?_modify_eq (f : β → β) (a' : α) :
    (m.modify a f)[a']? = if a' = a then m[a]?.map f else m[a']? := by
  simp only [Std.TreeMap.getElem?_modify, Std.LawfulEqCmp.compare_eq_iff_eq, eq_comm (a := a)]

theorem column_insert (g : β → γ) (b : β) :
    column (m.insert a b) g = update (column m g) a (some (g b)) := by
  funext a'
  rw [column, getElem?_insert_eq, Function.update_apply]
  split <;> rfl

theorem column_erase (g : β → γ) : column (m.erase a) g = update (column m g) a none := by
  funext a'
  rw [column, getElem?_erase_eq, Function.update_apply]
  split <;> rfl

variable {m a}

theorem column_modify (g : β → γ) {f : β → β} (h : m[a]? = some b) :
    column (m.modify a f) g = update (column m g) a (some (g (f b))) := by
  funext a'
  rw [column, getElem?_modify_eq, Function.update_apply, h]
  split <;> rfl

/-- A field that a change leaves as it is. -/
theorem column_modify_of {g : β → γ} {f : β → β} (hf : ∀ b, g (f b) = g b) :
    column (m.modify a f) g = column m g := by
  funext a'
  rw [column, getElem?_modify_eq]
  split
  · next h =>
    rw [h, Option.map_map]
    exact congrArg (Option.map · _) (funext hf)
  · rfl

end TreeMap

section AssocMap

variable [DecidableEq α] (m : AList fun _ : α => β) (a : α)

theorem alist_insert (b : β) : (m.insert a b).lookup = update m.lookup a (some b) := by
  funext a'
  rcases eq_or_ne a' a with rfl | hne
  · simp
  · rw [AList.lookup_insert_ne hne, Function.update_of_ne hne]

theorem alist_erase : (m.erase a).lookup = update m.lookup a none := by
  funext a'
  rcases eq_or_ne a' a with rfl | hne
  · simp
  · rw [AList.lookup_erase_ne hne, Function.update_of_ne hne]

end AssocMap

end Inverse
