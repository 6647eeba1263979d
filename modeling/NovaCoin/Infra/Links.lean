import Mathlib.Data.List.Induction
import Mathlib.Data.List.Nodup

/-!
# Forward links along a path

A tree whose nodes know their parents keeps one path of it in a second map: `next k` is the node
after `k` on the path. `links` is that map for a path given as a list, the newest node first, as
one meets it following the parents. Extending the path sets one link, dropping its newest node
clears one, and following the links from the oldest node gives the path back.
-/

namespace Links

open List

variable {K : Type} {next : K → Option K} {k : K}

/-! ## Following -/

/-- The nodes met by following the links from a node, at most `n` of them. -/
def follow (next : K → Option K) : Nat → K → List K
  | 0, _ => []
  | n + 1, k => k :: match next k with
    | none => []
    | some k' => follow next n k'

theorem follow_of_none (h : next k = none) (n : Nat) :
    follow next (n + 1) k = [k] := by
  simp [follow, h]

theorem follow_of_some {k' : K} (h : next k = some k') (n : Nat) :
    follow next (n + 1) k = k :: follow next n k' := by
  simp [follow, h]

/-! ## Links -/

variable [DecidableEq K]

def set (next : K → Option K) (k : K) (v : Option K) : K → Option K :=
  fun h => if h = k then v else next h

def links : List K → K → Option K
  | child :: parent :: rest => set (links (parent :: rest)) parent (some child)
  | _ => fun _ => none

theorem links_cons_cons (child parent : K) (rest : List K) :
    links (child :: parent :: rest) = set (links (parent :: rest)) parent (some child) := rfl

/-- Only the parents on the path have a link. -/
theorem links_of_notMem : ∀ {path : List K} {k : K}, k ∉ path.tail → links path k = none
  | [], _, _ => rfl
  | [_], _, _ => rfl
  | _ :: parent :: rest, k, h => by
    rw [tail_cons, mem_cons, not_or] at h
    rw [links_cons_cons, set, if_neg h.1]
    exact links_of_notMem h.2

theorem set_links_none {child parent : K} {rest : List K} (hd : (child :: parent :: rest).Nodup) :
    set (links (child :: parent :: rest)) parent none = links (parent :: rest) := by
  funext k
  by_cases hk : k = parent
  · have hnot : k ∉ rest := by
      rw [hk]
      exact (nodup_cons.mp (nodup_cons.mp hd).2).1
    rw [set, if_pos hk, links_of_notMem hnot]
  · rw [set, if_neg hk, links_cons_cons, set, if_neg hk]

theorem links_append : ∀ (newer : List K) {older : List K} {k k' : K},
    (newer ++ k' :: k :: older).Nodup → links (newer ++ k' :: k :: older) k = some k'
  | [], _, _, _, _ => by simp [links_cons_cons, set]
  | [t], older, k, k', hd => by
    have hne : k ≠ k' := by
      rintro rfl
      simp at hd
    rw [cons_append, nil_append, links_cons_cons, set, if_neg hne]
    exact links_append [] (nodup_cons.mp hd).2
  | t :: u :: newer, older, k, k', hd => by
    have hne : k ≠ u := by
      rintro rfl
      simp at hd
    rw [cons_append, cons_append, links_cons_cons, set, if_neg hne]
    exact links_append (u :: newer) (nodup_cons.mp hd).2

theorem follow_links_append (newer : List K) : ∀ {older : List K} {k : K} {n : Nat},
    (newer ++ k :: older).Nodup → newer.length < n →
      follow (links (newer ++ k :: older)) n k = k :: newer.reverse := by
  induction newer using reverseRecOn with
  | nil =>
    intro older k n hd hn
    obtain ⟨m, rfl⟩ : ∃ m, n = m + 1 := ⟨n - 1, by simp only [length_nil] at hn; omega⟩
    exact follow_of_none (links_of_notMem (nodup_cons.mp hd).1) m
  | append_singleton newer k' ih =>
    intro older k n hd hn
    rw [length_append, length_singleton] at hn
    obtain ⟨m, rfl⟩ : ∃ m, n = m + 1 := ⟨n - 1, by omega⟩
    rw [append_assoc, singleton_append] at hd ⊢
    rw [follow_of_some (links_append newer hd), ih hd (by omega)]
    simp

theorem follow_links {path : List K} (hd : path.Nodup) (hlast : path.getLast? = some k) {n : Nat}
    (hn : path.length ≤ n) : follow (links path) n k = path.reverse := by
  obtain ⟨newer, rfl⟩ := getLast?_eq_some_iff.mp hlast
  rw [length_append] at hn
  rw [follow_links_append newer hd hn]
  simp

end Links
