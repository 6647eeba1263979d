import Mathlib.Data.List.MinMax
import Mathlib.Data.List.Perm.Subperm

/-!
# Picking the least element of a window

A list that is sorted by time is scanned for the least key among the elements that are not taken
and not later than `stop`. The scan ends at the first later element, but not before it has an
element to return: if all that are free are later, it returns the first of them (`scan_eq_pick`).
`picks` repeats this with a window that may move, each time with what was picked before taken out.
-/

namespace Window

open List Option

variable {α T K : Type} [LinearOrder T] [LinearOrder K] {time : α → T} {key : α → K}

/-! ## One scan -/

section Scan

variable (time key) (taken : α → Bool) (stop : T)

/-- The better of two elements; the first stays where the keys are equal. -/
def better (best : Option α) (a : α) : Option α :=
  match best with
  | some b => if key a < key b then some a else some b
  | none => some a

def scan : Option α → List α → Option α
  | best, [] => best
  | best, a :: l =>
    if best.isSome && stop < time a then best
    else if taken a then scan best l
    else scan (better key best a) l

def free (l : List α) : List α := l.filter fun a => !taken a

def window (l : List α) : List α := (free taken l).filter fun a => time a ≤ stop

/-- The least key of the window or, if it is empty, the first element that is free. -/
def pick (l : List α) : Option α := ((window time taken stop l).argmin key).or (free taken l).head?

end Scan

variable {taken : α → Bool} {stop : T} {l : List α} {a b : α}

theorem argmin_eq_foldl_better (l : List α) : l.argmin key = l.foldl (better key) none := by
  show l.foldl (argAux fun b c => key b < key c) none = l.foldl (better key) none
  congr 1
  funext best b
  cases best <;> rfl

theorem free_cons_of_taken (h : taken a) : free taken (a :: l) = free taken l := by
  simp [free, h]

theorem free_cons_of_free (h : taken a = false) : free taken (a :: l) = a :: free taken l := by
  simp [free, h]

theorem mem_free : a ∈ free taken l ↔ a ∈ l ∧ taken a = false := by
  simp [free]

theorem mem_window : a ∈ window time taken stop l ↔ a ∈ l ∧ taken a = false ∧ time a ≤ stop := by
  simp [window, mem_free, and_assoc]

/-- Where the list has left the window, the window is empty. -/
theorem window_eq_nil (h : ∀ b ∈ l, stop < time b) : window time taken stop l = [] := by
  rw [eq_nil_iff_forall_not_mem]
  intro b hb
  obtain ⟨hmem, -, hle⟩ := mem_window.mp hb
  exact absurd (h b hmem) (not_lt.mpr hle)

theorem window_cons_of_taken (h : taken a) :
    window time taken stop (a :: l) = window time taken stop l := by
  rw [window, free_cons_of_taken h, window]

theorem window_cons_of_mem (h : taken a = false) (hle : time a ≤ stop) :
    window time taken stop (a :: l) = a :: window time taken stop l := by
  rw [window, free_cons_of_free h, window, filter_cons_of_pos (by simpa using hle)]

theorem scan_some (hs : l.Pairwise fun a b => time a ≤ time b) : ∀ {b : α},
    scan time key taken stop (some b) l = (window time taken stop l).foldl (better key) (some b) := by
  induction l with
  | nil => exact rfl
  | cons a l ih =>
    intro b
    rw [pairwise_cons] at hs
    by_cases hlate : stop < time a
    · have hnil : window time taken stop (a :: l) = [] :=
        window_eq_nil (forall_mem_cons.mpr ⟨hlate, fun c hc => hlate.trans_le (hs.1 c hc)⟩)
      rw [hnil, scan, if_pos (by simpa using hlate)]
      rfl
    · rw [scan, if_neg (by simpa using hlate)]
      cases ht : taken a with
      | true => rw [if_pos rfl, ih hs.2, window_cons_of_taken ht]
      | false =>
        rw [window_cons_of_mem ht (not_lt.mp hlate), foldl_cons, if_neg (by simp)]
        -- what is kept is an element in both cases
        rw [better]
        split
        · exact ih hs.2
        · exact ih hs.2

theorem scan_eq_pick (hs : l.Pairwise fun a b => time a ≤ time b) :
    scan time key taken stop none l = pick time key taken stop l := by
  induction l with
  | nil => exact rfl
  | cons a l ih =>
    rw [pairwise_cons] at hs
    rw [scan, if_neg (by simp)]
    cases ht : taken a with
    | true => rw [if_pos rfl, ih hs.2, pick, pick, window_cons_of_taken ht, free_cons_of_taken ht]
    | false =>
      rw [if_neg (by simp), better, scan_some hs.2, pick, free_cons_of_free ht]
      by_cases hlate : stop < time a
      · have hlater : ∀ c ∈ l, stop < time c := fun c hc => hlate.trans_le (hs.1 c hc)
        rw [window_eq_nil hlater, window_eq_nil (forall_mem_cons.mpr ⟨hlate, hlater⟩)]
        rfl
      · rw [window_cons_of_mem ht (not_lt.mp hlate)]
        have hsome : (a :: window time taken stop l).argmin key ≠ none := by
          rw [Ne, argmin_eq_none]
          exact cons_ne_nil _ _
        obtain ⟨c, hc⟩ := ne_none_iff_exists'.mp hsome
        rw [hc, some_or, ← hc, argmin_eq_foldl_better, foldl_cons, better]

theorem pick_congr {taken' : α → Bool} (h : ∀ a ∈ l, taken a = taken' a) :
    pick time key taken stop l = pick time key taken' stop l := by
  have hfree : free taken l = free taken' l := filter_congr fun a ha => by rw [h a ha]
  rw [pick, pick, window, window, hfree]

/-! ## What is picked -/

/-- Of the elements not taken, `a` has the least key in the window or, if that is empty, comes
first. -/
structure Picked (time : α → T) (key : α → K) (taken : α → Bool) (stop : T) (l : List α) (a : α) :
    Prop where
  mem : a ∈ l
  free : taken a = false
  least : ∀ b ∈ l, taken b = false → time b ≤ stop → time a ≤ stop ∧ key a ≤ key b
  first : (∀ b ∈ l, taken b = false → stop < time b) → (Window.free taken l).head? = some a

theorem picked_of_pick (h : pick time key taken stop l = some a) :
    Picked time key taken stop l a := by
  cases hmin : (window time taken stop l).argmin key with
  | some c =>
    rw [pick, hmin, some_or, some.injEq] at h
    subst h
    obtain ⟨hmem, hfree, hle⟩ := mem_window.mp (argmin_mem hmin)
    refine ⟨hmem, hfree, ?_, ?_⟩
    · intro b hb hbfree hble
      exact ⟨hle, le_of_mem_argmin (mem_window.mpr ⟨hb, hbfree, hble⟩) hmin⟩
    · intro hlate
      exact absurd (hlate c hmem hfree) (not_lt.mpr hle)
  | none =>
    have hnil : window time taken stop l = [] := argmin_eq_none.mp hmin
    rw [pick, hmin] at h
    obtain ⟨hmem, hfree⟩ := mem_free.mp (mem_of_mem_head? h)
    refine ⟨hmem, hfree, ?_, fun _ => h⟩
    intro b hb hbfree hble
    have hb' := mem_window.mpr ⟨hb, hbfree, hble⟩
    rw [hnil] at hb'
    cases hb'

theorem pick_isSome (ha : a ∈ l) (hfree : taken a = false) :
    ∃ b, pick time key taken stop l = some b := by
  have hmem := mem_free.mpr ⟨ha, hfree⟩
  cases hmin : (window time taken stop l).argmin key with
  | some c => exact ⟨c, by rw [pick, hmin, some_or]⟩
  | none =>
    cases hl : free taken l with
    | nil =>
      rw [hl] at hmem
      cases hmem
    | cons b rest => exact ⟨b, by rw [pick, hmin, none_or, hl, head?_cons]⟩

/-! ## Again and again -/

section Picks

variable [DecidableEq α] (time key) (stop : Nat → T) (l : List α)

/-- The first `n` elements picked, when round `r` has the window up to `stop r`. -/
def picks : Nat → List α
  | 0 => []
  | n + 1 =>
    picks n ++ (pick time key (fun a => decide (a ∈ picks n)) (stop n) l).toList

variable {l} {n : Nat}

theorem picks_subset : ∀ n, ∀ a ∈ picks time key stop l n, a ∈ l
  | 0, _, ha => by cases ha
  | n + 1, a, ha => by
    rw [picks, mem_append, mem_toList] at ha
    rcases ha with ha | ha
    · exact picks_subset n a ha
    · exact (picked_of_pick ha).mem

/-- As long as there are elements left, a round picks one that was not picked before. -/
theorem exists_pick (hnodup : l.Nodup) (hlen : (picks time key stop l n).length < l.length) :
    ∃ a, pick time key (fun a => decide (a ∈ picks time key stop l n)) (stop n) l = some a := by
  have hleft : ∃ a ∈ l, a ∉ picks time key stop l n := by
    by_contra hall
    have hsub : l ⊆ picks time key stop l n := fun a ha => by
      by_contra hnot
      exact hall ⟨a, ha, hnot⟩
    exact absurd (hnodup.subperm hsub).length_le (not_le.mpr hlen)
  obtain ⟨a, ha, hnot⟩ := hleft
  exact pick_isSome ha (by simpa using hnot)

theorem length_picks (hnodup : l.Nodup) : ∀ {n : Nat}, n ≤ l.length →
    (picks time key stop l n).length = n
  | 0, _ => rfl
  | n + 1, hn => by
    have hlen := length_picks hnodup (show n ≤ l.length by omega)
    obtain ⟨a, ha⟩ := exists_pick time key stop hnodup (n := n) (by omega)
    rw [picks, ha, toList_some, length_append, hlen, length_singleton]

theorem picks_succ (hnodup : l.Nodup) (hn : n < l.length) :
    ∃ a, picks time key stop l (n + 1) = picks time key stop l n ++ [a] ∧
      pick time key (fun a => decide (a ∈ picks time key stop l n)) (stop n) l = some a := by
  obtain ⟨a, ha⟩ := exists_pick time key stop hnodup
    (by rw [length_picks time key stop hnodup hn.le]; exact hn)
  exact ⟨a, by rw [picks, ha, toList_some], ha⟩

theorem picked_of_getElem (hnodup : l.Nodup) {r : Nat} : ∀ {n : Nat}, n ≤ l.length →
    (picks time key stop l n)[r]? = some a →
      (picks time key stop l n).take r = picks time key stop l r ∧
      Picked time key (fun a => decide (a ∈ picks time key stop l r)) (stop r) l a
  | 0, _, h => by cases h
  | n + 1, hn, h => by
    obtain ⟨b, hsucc, hpick⟩ := picks_succ time key stop hnodup (show n < l.length by omega)
    have hlen := length_picks time key stop hnodup (show n ≤ l.length by omega)
    rw [hsucc] at h ⊢
    by_cases hr : r < n
    · rw [getElem?_append_left (by omega)] at h
      obtain ⟨htake, hpicked⟩ := picked_of_getElem hnodup (by omega) h
      exact ⟨by rw [take_append_of_le_length (by omega), htake], hpicked⟩
    · rw [getElem?_append_right (by omega)] at h
      have hrn : r = n := by
        have := (List.getElem?_eq_some_iff.mp h).1
        rw [length_singleton] at this
        omega
      subst hrn
      rw [hlen, Nat.sub_self, getElem?_cons_zero, some.injEq] at h
      subst h
      exact ⟨by rw [take_append_of_le_length (by omega), take_of_length_le (by omega)],
        picked_of_pick hpick⟩

end Picks

end Window
