import Mathlib.Data.List.Nodup
import Mathlib.Data.Nat.Bitwise
import Mathlib.Data.Set.Function

/-!
# Hash trees that double the last node of an odd level

Each level pairs up neighbours, and a node without a neighbour is paired with itself. Doubling means
that different lists can share a root; `root_injective` says that lists without repetitions cannot.
`climb_branch` says that hashing a leaf with its neighbours on the way up gives the root.

The pair hash `f` is not assumed injective everywhere (no function into a finite type is):
the hypotheses only speak about the pairs hashed in the two trees that are compared.
-/

namespace MerkleTree

open List

variable {α : Type*}

/-- Neighbours of a level, the last one with itself where it has none. -/
def pairs : List α → List (α × α)
  | [] => []
  | [a] => [(a, a)]
  | a :: b :: rest => (a, b) :: pairs rest

def level (f : α × α → α) (l : List α) : List α := (pairs l).map f

theorem length_pairs : ∀ l : List α, (pairs l).length = (l.length + 1) / 2
  | [] => by simp [pairs]
  | [_] => by simp [pairs]
  | _ :: _ :: rest => by
    have ih := length_pairs rest
    simp only [pairs, length_cons, ih]
    omega

variable (f : α × α → α)

@[simp] theorem length_level (l : List α) :
    (level f l).length = (l.length + 1) / 2 := by
  rw [level, length_map, length_pairs]

def nodes (f : α × α → α) : List α → List α
  | [] => []
  | [a] => [a]
  | a :: b :: rest => (a :: b :: rest) ++ nodes f (level f (a :: b :: rest))
termination_by l => l.length
decreasing_by simp only [length_level, length_cons]; omega

def root (f : α × α → α) (dflt : α) : List α → α
  | [] => dflt
  | [a] => a
  | a :: b :: rest => root f dflt (level f (a :: b :: rest))
termination_by l => l.length
decreasing_by simp only [length_level, length_cons]; omega

/-- The pairs hashed while building the tree. -/
def hashed (f : α × α → α) : List α → List (α × α)
  | [] => []
  | [_] => []
  | a :: b :: rest =>
    pairs (a :: b :: rest) ++ hashed f (level f (a :: b :: rest))
termination_by l => l.length
decreasing_by simp only [length_level, length_cons]; omega

/-! ## Unfolding by length -/

variable {l : List α}

theorem nodes_of_two_le (h : 2 ≤ l.length) :
    nodes f l = l ++ nodes f (level f l) := by
  match l with
  | [] | [_] => simp only [length_cons, length_nil] at h; omega
  | _ :: _ :: _ => rw [nodes]

theorem root_of_two_le (dflt : α) (h : 2 ≤ l.length) :
    root f dflt l = root f dflt (level f l) := by
  match l with
  | [] | [_] => simp only [length_cons, length_nil] at h; omega
  | _ :: _ :: _ => rw [root]

theorem hashed_of_two_le (h : 2 ≤ l.length) :
    hashed f l = pairs l ++ hashed f (level f l) := by
  match l with
  | [] | [_] => simp only [length_cons, length_nil] at h; omega
  | _ :: _ :: _ => rw [hashed]

/-- Induction over the levels of a tree. -/
theorem level_induction {motive : List α → Prop}
    (nil : motive []) (single : ∀ a, motive [a])
    (step : ∀ l, 2 ≤ l.length → motive (level f l) → motive l) (l : List α) : motive l := by
  induction hn : l.length using Nat.strong_induction_on generalizing l with
  | _ n ih =>
    match l, hn with
    | [], _ => exact nil
    | [a], _ => exact single a
    | a :: b :: rest, hn =>
      refine step _ (by simp) (ih _ ?_ _ rfl)
      simp only [length_level, length_cons] at hn ⊢
      omega

theorem root_eq_getLast (dflt : α) (l : List α) :
    (nodes f l).getLast?.getD dflt = root f dflt l := by
  induction l using level_induction f with
  | nil => simp [nodes, root]
  | single a => simp [nodes, root]
  | step l h ih =>
    have hne : (nodes f (level f l)) ≠ [] := by
      have hlen : 1 ≤ (level f l).length := by rw [length_level]; omega
      match hl : level f l with
      | [] => simp [hl] at hlen
      | [a] => simp [nodes]
      | a :: b :: rest => rw [nodes]; simp
    rw [root_of_two_le f dflt h, ← ih, nodes_of_two_le f h, getLast?_append_of_ne_nil _ hne]

/-! ## The pairs of a level -/

theorem mem_of_mem_pairs : ∀ {l : List α} {p : α × α}, p ∈ pairs l → p.1 ∈ l ∧ p.2 ∈ l
  | [], _, h => by simp [pairs] at h
  | [a], p, h => by
    simp only [pairs, mem_singleton] at h
    simp [h]
  | a :: b :: rest, p, h => by
    simp only [pairs, mem_cons] at h
    rcases h with rfl | h
    · simp
    · have := mem_of_mem_pairs h
      simp [this.1, this.2]

theorem nodup_pairs : ∀ {l : List α}, l.Nodup → (pairs l).Nodup
  | [], _ => by simp [pairs]
  | [a], _ => by simp [pairs]
  | a :: b :: rest, h => by
    simp only [nodup_cons, mem_cons, not_or] at h
    obtain ⟨⟨-, ha⟩, -, hrest⟩ := h
    refine nodup_cons.mpr ⟨fun hm => ha (mem_of_mem_pairs hm).1, nodup_pairs hrest⟩

/-- A list without repetitions is determined by its pairs: only a doubled last node is a pair of
equals. -/
theorem pairs_injective : ∀ {l₁ l₂ : List α}, l₁.Nodup → l₂.Nodup → pairs l₁ = pairs l₂ → l₁ = l₂
  | [], [], _, _, _ => rfl
  | [], [_], _, _, h | [], _ :: _ :: _, _, _, h => by simp [pairs] at h
  | [_], [], _, _, h | _ :: _ :: _, [], _, _, h => by simp [pairs] at h
  | [_], [_], _, _, h => by
    simp only [pairs, cons.injEq, Prod.mk.injEq, and_true, and_self] at h
    rw [h]
  | [a], b :: c :: rest, _, hd, h => by
    simp only [pairs, cons.injEq, Prod.mk.injEq] at h
    simp [← h.1.1, ← h.1.2] at hd
  | b :: c :: rest, [a], hd, _, h => by
    simp only [pairs, cons.injEq, Prod.mk.injEq] at h
    simp [h.1.1, h.1.2] at hd
  | a :: b :: l₁, c :: d :: l₂, h₁, h₂, h => by
    simp only [pairs, cons.injEq, Prod.mk.injEq] at h
    obtain ⟨⟨rfl, rfl⟩, h⟩ := h
    rw [pairs_injective (h₁.of_cons.of_cons) (h₂.of_cons.of_cons) h]

theorem map_injOn {β : Type*} {f : α → β} {s : Set α} (hf : Set.InjOn f s) :
    ∀ {l₁ l₂ : List α}, (∀ x ∈ l₁, x ∈ s) → (∀ x ∈ l₂, x ∈ s) → l₁.map f = l₂.map f → l₁ = l₂
  | [], [], _, _, _ => rfl
  | [], _ :: _, _, _, h | _ :: _, [], _, _, h => by simp at h
  | a :: l₁, b :: l₂, h₁, h₂, h => by
    simp only [map_cons, cons.injEq] at h
    rw [hf (h₁ a (by simp)) (h₂ b (by simp)) h.1,
      map_injOn hf (fun x hx => h₁ x (.tail _ hx)) (fun x hx => h₂ x (.tail _ hx)) h.2]

/-! ## Lists with one root -/

theorem exists_hashed_of_mem_hashed_level :
    2 ≤ l.length → ∀ p ∈ hashed f (level f l), ∃ q ∈ hashed f l, p.1 = f q := by
  induction l using level_induction f with
  | nil => simp
  | single a => simp
  | step l hl ih =>
    intro _ p hp
    rw [hashed_of_two_le f hl]
    by_cases h2 : 2 ≤ (level f l).length
    · rw [hashed_of_two_le f h2, mem_append] at hp
      rcases hp with hp | hp
      · have hmem := (mem_of_mem_pairs hp).1
        simp only [level, mem_map] at hmem
        obtain ⟨q, hq, he⟩ := hmem
        exact ⟨q, mem_append_left _ hq, he.symm⟩
      · obtain ⟨q, hq, he⟩ := ih h2 p hp
        exact ⟨q, mem_append_right _ hq, he⟩
    · match hlv : level f l with
      | [] | [_] => simp [hlv, hashed] at hp
      | _ :: _ :: _ => simp [hlv] at h2

theorem exists_hashed_eq_root (dflt : α) :
    2 ≤ l.length → ∃ p ∈ hashed f l, root f dflt l = f p := by
  induction l using level_induction f with
  | nil => simp
  | single a => simp
  | step l hl ih =>
    intro _
    rw [hashed_of_two_le f hl, root_of_two_le f dflt hl]
    match hlv : level f l with
    | [] =>
      have := length_level f l
      simp only [hlv, length_nil] at this
      omega
    | [r] =>
      have hr : r ∈ level f l := by simp [hlv]
      simp only [level, mem_map] at hr
      obtain ⟨p, hp, he⟩ := hr
      exact ⟨p, mem_append_left _ hp, by rw [root, he]⟩
    | a :: b :: rest =>
      rw [← hlv]
      obtain ⟨p, hp, he⟩ := ih (by simp [hlv])
      exact ⟨p, mem_append_right _ hp, he⟩

/-- What two trees are compared under: their pairs have different hashes, and none hashes to a leaf.
-/
structure Separated (f : α × α → α) (l₁ l₂ : List α) : Prop where
  injOn : Set.InjOn f {p | p ∈ hashed f l₁ ∨ p ∈ hashed f l₂}
  leaf_ne : ∀ x, x ∈ l₁ ∨ x ∈ l₂ → ∀ p, p ∈ hashed f l₁ ∨ p ∈ hashed f l₂ → x ≠ f p

theorem Separated.symm {f : α × α → α} {l₁ l₂ : List α} (h : Separated f l₁ l₂) :
    Separated f l₂ l₁ where
  injOn := h.injOn.mono fun _ hp => hp.symm
  leaf_ne x hx p hp := h.leaf_ne x hx.symm p hp.symm

section Level

variable {f : α × α → α} {l₁ l₂ : List α} (h₁ : 2 ≤ l₁.length) (h₂ : 2 ≤ l₂.length) {p : α × α}

include h₁ h₂

theorem mem_hashed_of_level (hp : p ∈ hashed f (level f l₁) ∨ p ∈ hashed f (level f l₂)) :
    p ∈ hashed f l₁ ∨ p ∈ hashed f l₂ := by
  rw [hashed_of_two_le f h₁, hashed_of_two_le f h₂]
  exact hp.imp (mem_append_right _) (mem_append_right _)

theorem mem_hashed_of_pairs (hp : p ∈ pairs l₁ ∨ p ∈ pairs l₂) :
    p ∈ hashed f l₁ ∨ p ∈ hashed f l₂ := by
  rw [hashed_of_two_le f h₁, hashed_of_two_le f h₂]
  exact hp.imp (mem_append_left _) (mem_append_left _)

/-- The condition passes to the level above: a node there that is also the hash of a pair higher up
would make a leaf the left part of that pair. -/
theorem Separated.level (hs : Separated f l₁ l₂) :
    Separated f (level f l₁) (level f l₂) where
  injOn := hs.injOn.mono fun _ hp => mem_hashed_of_level h₁ h₂ hp
  leaf_ne := by
    intro x hx p hp he
    have hq : ∃ q, (q ∈ pairs l₁ ∨ q ∈ pairs l₂) ∧ f q = x := by
      simp only [MerkleTree.level, mem_map] at hx
      rcases hx with ⟨q, hq, rfl⟩ | ⟨q, hq, rfl⟩
      · exact ⟨q, .inl hq, rfl⟩
      · exact ⟨q, .inr hq, rfl⟩
    obtain ⟨q, hq, rfl⟩ := hq
    have hqp : q = p := hs.injOn (mem_hashed_of_pairs h₁ h₂ hq) (mem_hashed_of_level h₁ h₂ hp) he
    have hleaf : q.1 ∈ l₁ ∨ q.1 ∈ l₂ :=
      hq.imp (fun h => (mem_of_mem_pairs h).1) (fun h => (mem_of_mem_pairs h).1)
    rcases hp with hp | hp
    · obtain ⟨r, hr, hpr⟩ := exists_hashed_of_mem_hashed_level f h₁ p hp
      exact hs.leaf_ne q.1 hleaf r (.inl hr) (hqp ▸ hpr)
    · obtain ⟨r, hr, hpr⟩ := exists_hashed_of_mem_hashed_level f h₂ p hp
      exact hs.leaf_ne q.1 hleaf r (.inr hr) (hqp ▸ hpr)

theorem Separated.nodup_level (hs : Separated f l₁ l₂) (hd : l₁.Nodup) :
    (MerkleTree.level f l₁).Nodup := by
  refine List.Nodup.map_on ?_ (nodup_pairs hd)
  intro p hp q hq he
  exact hs.injOn (mem_hashed_of_pairs h₁ h₂ (.inl hp)) (mem_hashed_of_pairs h₁ h₂ (.inl hq)) he

theorem Separated.level_injective (hs : Separated f l₁ l₂) (hd₁ : l₁.Nodup) (hd₂ : l₂.Nodup)
    (he : MerkleTree.level f l₁ = MerkleTree.level f l₂) : l₁ = l₂ := by
  refine pairs_injective hd₁ hd₂ (map_injOn hs.injOn ?_ ?_ he)
  · exact fun p hp => mem_hashed_of_pairs h₁ h₂ (.inl hp)
  · exact fun p hp => mem_hashed_of_pairs h₁ h₂ (.inr hp)

end Level

theorem length_le_one_cases (hne : l ≠ []) (h : ¬ 2 ≤ l.length) : ∃ a, l = [a] :=
  length_eq_one_iff.mp (by have := length_pos_of_ne_nil hne; omega)

theorem Separated.root_single_ne {f : α × α → α} (dflt : α) {a : α} (hs : Separated f [a] l)
    (h : 2 ≤ l.length) : root f dflt [a] ≠ root f dflt l := by
  intro he
  obtain ⟨p, hp, hr⟩ := exists_hashed_eq_root f dflt h
  exact hs.leaf_ne a (by simp) p (.inr hp) (by rw [← hr, ← he, root])

theorem root_injective {f : α × α → α} (dflt : α) {l₁ l₂ : List α} (hs : Separated f l₁ l₂)
    (hne₁ : l₁ ≠ []) (hne₂ : l₂ ≠ []) (hd₁ : l₁.Nodup) (hd₂ : l₂.Nodup)
    (he : root f dflt l₁ = root f dflt l₂) : l₁ = l₂ := by
  induction l₁ using level_induction f generalizing l₂ with
  | nil => exact absurd rfl hne₁
  | single a =>
    by_cases h₂ : 2 ≤ l₂.length
    · exact absurd he (hs.root_single_ne dflt h₂)
    · obtain ⟨b, rfl⟩ := length_le_one_cases hne₂ h₂
      simpa only [root, cons.injEq, and_true] using he
  | step l₁ h₁ ih =>
    by_cases h₂ : 2 ≤ l₂.length
    · rw [root_of_two_le f dflt h₁, root_of_two_le f dflt h₂] at he
      have hlen₁ := length_level f l₁
      have hlen₂ := length_level f l₂
      refine hs.level_injective h₁ h₂ hd₁ hd₂ (ih (hs.level h₁ h₂) ?_ ?_ ?_ ?_ he)
      · exact ne_nil_of_length_pos (by omega)
      · exact ne_nil_of_length_pos (by omega)
      · exact hs.nodup_level h₁ h₂ hd₁
      · exact hs.symm.nodup_level h₂ h₁ hd₂
    · obtain ⟨b, rfl⟩ := length_le_one_cases hne₂ h₂
      exact absurd he.symm (hs.symm.root_single_ne dflt h₁)

/-! ## Branches -/

/-- The position of the neighbour in a level of `n` nodes; the last one of an odd level is its own. -/
def sibling (n i : Nat) : Nat := min (i ^^^ 1) (n - 1)

/-- The neighbours on the way from a leaf to the root. -/
def branch (f : α × α → α) (dflt : α) : List α → Nat → List α
  | [], _ => []
  | [_], _ => []
  | a :: b :: rest, i =>
    (a :: b :: rest).getD (sibling (a :: b :: rest).length i) dflt ::
      branch f dflt (level f (a :: b :: rest)) (i / 2)
termination_by l => l.length
decreasing_by simp only [length_level, length_cons]; omega

/-- The node above two neighbours, of which the one at the position `i` is given first. -/
def join (f : α × α → α) (i : Nat) (node other : α) : α :=
  if i % 2 = 1 then f (other, node) else f (node, other)

def climb (f : α × α → α) : α → List α → Nat → α
  | node, [], _ => node
  | node, other :: rest, i => climb f (join f i node other) rest (i / 2)

theorem branch_of_two_le (dflt : α) (h : 2 ≤ l.length) (i : Nat) :
    branch f dflt l i = l.getD (sibling l.length i) dflt :: branch f dflt (level f l) (i / 2) := by
  match l with
  | [] | [_] => simp only [length_cons, length_nil] at h; omega
  | _ :: _ :: _ => rw [branch]

theorem xor_one_add_two (i : Nat) : (i + 2) ^^^ 1 = (i ^^^ 1) + 2 := by
  rcases Nat.even_or_odd i with heven | hodd
  · rw [Nat.xor_one_of_even heven, Nat.xor_one_of_even (by simpa [Nat.even_add] using heven)]
  · have hone := Nat.odd_iff.mp hodd
    rw [Nat.xor_one_of_odd hodd, Nat.xor_one_of_odd (by simpa [Nat.odd_add] using hodd)]
    omega

/-- The node above a node and its neighbour. -/
theorem getD_level (dflt : α) : ∀ {l : List α} {i : Nat}, i < l.length →
    (level f l).getD (i / 2) dflt = join f i (l.getD i dflt) (l.getD (sibling l.length i) dflt)
  | [a], 0, _ => by simp [level, pairs, join, sibling]
  | a :: b :: rest, 0, _ => by simp [level, pairs, join, sibling]
  | a :: b :: rest, 1, _ => by simp [level, pairs, join, sibling]
  | a :: b :: rest, i + 2, hi => by
    have ih := getD_level dflt (l := rest) (i := i) (by simpa using hi)
    have hsibling : sibling (a :: b :: rest).length (i + 2) = sibling rest.length i + 2 := by
      have hpos : 0 < rest.length := by simp at hi; omega
      simp only [sibling, length_cons, xor_one_add_two]
      omega
    rw [hsibling, level, pairs, map_cons, show (i + 2) / 2 = i / 2 + 1 by omega, getD_cons_succ,
      getD_cons_succ, getD_cons_succ, getD_cons_succ, join, Nat.add_mod_right]
    exact ih

theorem climb_branch (dflt : α) :
    ∀ {i : Nat}, i < l.length → climb f (l.getD i dflt) (branch f dflt l i) i = root f dflt l := by
  induction l using level_induction f with
  | nil =>
    intro i hi
    exact absurd hi (Nat.not_lt_zero i)
  | single a =>
    intro i hi
    obtain rfl : i = 0 := by simpa using hi
    simp [branch, climb, root]
  | step l h ih =>
    intro i hi
    rw [branch_of_two_le f dflt h, climb, ← getD_level f dflt hi, root_of_two_le f dflt h]
    refine ih ?_
    rw [length_level]
    omega

end MerkleTree
