import NovaCoin.Infra.SpentIndex

/-!
# Histories of an index of spent pointers

A run connects items and disconnects the newest one, in any order. The items connected at a
moment form its history, newest first. `replay` is the index a history alone would give; an
index reached by a run agrees with it (`Agrees`) except that entries which were completely
spent when a later item overwrote them may be gone.

A pointer of the replay is the position of the one item after the last occurrence of the key that
spends the output (`replay_eq_find`).
-/

namespace SpentIndex

open List Option

variable {K P : Type*} [DecidableEq K]

/-- The items newer than the last one of a key. -/
def since (k : K) : List (Item K P) → List (Item K P)
  | [] => []
  | t :: h => if t.key = k then [] else t :: since k h

variable {h₁ h₂ h : List (Item K P)} {t : Item K P} {idx : Index K P}

theorem since_append {k : K} (hk : ∀ t ∈ h₁, t.key ≠ k) :
    since k (h₁ ++ h₂) = h₁ ++ since k h₂ := by
  induction h₁ with
  | nil => rfl
  | cons t h ih =>
    rw [cons_append, since, if_neg (hk t (by simp)), ih fun u hu => hk u (.tail _ hu),
      cons_append]

theorem mem_of_mem_since {k : K} (ht : t ∈ since k h) : t ∈ h := by
  induction h with
  | nil => exact ht
  | cons u h ih =>
    rw [since] at ht
    split at ht
    · cases ht
    · rcases mem_cons.mp ht with rfl | ht
      · exact mem_cons_self
      · exact .tail _ (ih ht)

variable [NullPtr P] {ts : List (Item K P)}

/-- The index after connecting the items of a history, newest first. -/
def replay : List (Item K P) → Index K P
  | [] => fun _ => none
  | t :: h => connect (replay h) t

/-- Every item of the history could be connected to what came before it. -/
def Valid : List (Item K P) → Prop
  | [] => True
  | t :: h => Valid h ∧ Connectable (replay h) t ∧ isNull t.pos = false

structure Agrees (h : List (Item K P)) (idx : Index K P) : Prop where
  valid : Valid h
  entry : ∀ k, idx k = replay h k ∨ (idx k = none ∧ AllSpent (replay h) k)

theorem Agrees.nil : Agrees ([] : List (Item K P)) (fun _ => none) :=
  ⟨trivial, fun _ => .inl rfl⟩

/-- An entry of the index is the one of the replay. -/
theorem Agrees.entry_eq (ha : Agrees h idx) {k : K} {e : Entry P} (he : idx k = some e) :
    replay h k = some e := by
  rcases ha.entry k with hk | ⟨hk, -⟩
  · rw [← hk, he]
  · rw [hk] at he
    cases he

theorem Agrees.allSpent (ha : Agrees h idx) {k : K} (hk : AllSpent idx k) :
    AllSpent (replay h) k := by
  rcases ha.entry k with he | ⟨-, hs⟩
  · exact (allSpent_congr he).mp hk
  · exact hs

theorem Agrees.connectable (ha : Agrees h idx) (hc : Connectable idx t) :
    Connectable (replay h) t where
  unspent o ho := by
    obtain ⟨p, hp, hn⟩ := hc.unspent o ho
    obtain ⟨e, he, hs⟩ := exists_entry_of_slot hp
    exact ⟨p, by rw [slot_eq_of_entry (ha.entry_eq he), hs], hn⟩
  nodup := hc.nodup
  allSpent := ha.allSpent hc.allSpent

/-! ## Steps -/

theorem Agrees.connect (ha : Agrees h idx) (hc : Connectable idx t) (hp : isNull t.pos = false) :
    Agrees (t :: h) (connect idx t) := by
  refine ⟨⟨ha.valid, ha.connectable hc, hp⟩, fun k => ?_⟩
  by_cases hk : k = t.key
  · left
    rw [hk, replay, connect_key, connect_key]
  · rcases ha.entry k with he | ⟨hn, hs⟩
    · left
      rw [replay, connect_of_ne hk, connect_of_ne hk, markAll_apply, markAll_apply, he]
    · right
      refine ⟨by rw [connect_of_ne hk, markAll_apply, hn, map_none], ?_⟩
      exact (ha.connectable hc).allSpent_connect hs hk

theorem Valid.slot_null (hv : Valid h) {o : K × Nat} {p : P} (hs : slot (replay h) o = some p) :
    p = null ∨ isNull p = false := by
  induction h generalizing p with
  | nil => simp [slot, replay] at hs
  | cons t h ih =>
    by_cases hk : o.1 = t.key
    · rw [slot_eq_of_entry (e := ⟨t.pos, replicate t.nOutputs null⟩)
        (by rw [hk, replay, connect_key])] at hs
      exact .inl (eq_of_mem_replicate (mem_of_getElem? hs))
    · have he : replay (t :: h) o.1 = markAll (replay h) t.spends t.pos o.1 := by
        rw [replay, connect_of_ne hk]
      rw [slot_congr he, slot_markAll] at hs
      obtain ⟨q, hq, rfl⟩ := map_eq_some_iff.mp hs
      split
      · exact .inr hv.2.2
      · exact ih hv.1 hq

theorem Agrees.disconnect (ha : Agrees (t :: h) idx) (hd : Disconnectable idx t) :
    Agrees h (disconnect idx t) := by
  obtain ⟨hv, hc, -⟩ := ha.valid
  refine ⟨hv, fun k => ?_⟩
  by_cases hk : k = t.key
  · right
    rw [hk, disconnect_key]
    exact ⟨rfl, hc.allSpent⟩
  · rcases ha.entry k with he | ⟨hn, hs⟩
    · left
      have hreset : SpentIndex.disconnect idx t k =
          SpentIndex.disconnect (replay (t :: h)) t k := by
        rw [disconnect_of_ne hk, disconnect_of_ne hk, markAll_apply, markAll_apply, he]
      rw [hreset, replay, disconnect_connect_of_ne hk]
      refine markAll_eq_self fun n q hm hq => ?_
      obtain ⟨p, hp, hnull⟩ := hc.unspent _ hm
      rw [hq, some.injEq] at hp
      rcases hv.slot_null hq with h | h
      · exact h
      · rw [hp, hnull] at h
        cases h
    · -- an entry that is gone has no output that `t` spends, or `t` could not be disconnected
      right
      have hnot : ∀ n, (k, n) ∉ t.spends := by
        intro n hm
        have := hd _ hm
        simp [slot, hn] at this
      refine ⟨by rw [disconnect_of_ne hk, markAll_of_notMem hnot, hn], ?_⟩
      refine (allSpent_congr ?_).mp hs
      rw [replay, connect_of_ne hk, markAll_of_notMem hnot]

theorem Agrees.connectAll :
    ∀ {h : List (Item K P)} {idx : Index K P}, Agrees h idx → ConnectableAll idx ts →
      (∀ t ∈ ts, isNull t.pos = false) → Agrees (ts.reverse ++ h) (connectAll idx ts) := by
  induction ts with
  | nil => exact fun ha _ _ => ha
  | cons t ts ih =>
    intro h idx ha hc hp
    rw [reverse_cons, append_assoc]
    exact ih (ha.connect hc.1 (hp t (by simp))) hc.2 fun u hu => hp u (.tail _ hu)

theorem Agrees.disconnectAll :
    ∀ {h : List (Item K P)} {idx : Index K P}, Agrees (ts.reverse ++ h) idx →
      DisconnectableAll idx ts → Agrees h (disconnectAll idx ts) := by
  induction ts with
  | nil => exact fun ha _ => ha
  | cons t ts ih =>
    intro h idx ha hd
    rw [reverse_cons, append_assoc] at ha
    exact (ih ha hd.1).disconnect hd.2

/-! ## Reading a replay -/

/-- The position of the newest item that spends an outpoint. -/
def spender (h : List (Item K P)) (o : K × Nat) : P :=
  match h.find? (fun t => o ∈ t.spends) with
  | some t => t.pos
  | none => null

theorem spender_cons (t : Item K P) (h : List (Item K P)) (o : K × Nat) :
    spender (t :: h) o = if o ∈ t.spends then t.pos else spender h o := by
  by_cases ho : o ∈ t.spends <;> simp [spender, ho]

/-- The entry of a key after a history. -/
theorem replay_eq_find (h : List (Item K P)) (k : K) :
    replay h k = (h.find? (fun t => t.key = k)).map fun t =>
      ⟨t.pos, (List.range t.nOutputs).map fun n => spender (since k h) (k, n)⟩ := by
  induction h with
  | nil => rfl
  | cons t h ih =>
    by_cases hk : t.key = k
    · subst hk
      simp [replay, connect_key, since, spender, map_const']
    · rw [replay, connect_of_ne (Ne.symm hk), markAll_apply, ih, Option.map_map,
        find?_cons_of_neg (by simpa using hk)]
      congr 1
      funext u
      refine Entry.ext_slots rfl fun n => ?_
      simp only [Function.comp_apply, Entry.getElem?_markAt, getElem?_map, Option.map_map,
        since, hk, if_false]
      cases hn : (range u.nOutputs)[n]? with
      | none => rfl
      | some m =>
        obtain ⟨_, rfl⟩ := List.getElem?_eq_some_iff.mp hn
        simp [spender_cons]

theorem Valid.pos (hv : Valid h) (ht : t ∈ h) : isNull t.pos = false := by
  induction h with
  | nil => cases ht
  | cons u h ih =>
    rcases mem_cons.mp ht with rfl | ht
    · exact hv.2.2
    · exact ih hv.1 ht

theorem Valid.of_append (hv : Valid (h₁ ++ h₂)) : Valid h₂ := by
  induction h₁ with
  | nil => exact hv
  | cons t h ih => exact ih hv.1

theorem isNull_spender (hp : ∀ t ∈ h, isNull t.pos = false) (o : K × Nat) :
    isNull (spender h o) ↔ ∀ t ∈ h, o ∉ t.spends := by
  induction h with
  | nil => simp [spender]
  | cons t h ih =>
    rw [spender_cons]
    split
    · next ho => simp [hp t (by simp), ho]
    · next ho =>
      rw [ih fun u hu => hp u (.tail _ hu)]
      simp [ho]

theorem Valid.isNull_spender (hv : Valid h) (o : K × Nat) :
    isNull (spender (since o.1 h) o) ↔ ∀ t ∈ since o.1 h, o ∉ t.spends :=
  SpentIndex.isNull_spender (fun _ ht => hv.pos (mem_of_mem_since ht)) o

theorem Valid.notMem_of_unspent (hv : Valid h) {o : K × Nat} (hu : Unspent (replay h) o) :
    ∀ t ∈ since o.1 h, o ∉ t.spends := by
  obtain ⟨p, hp, hn⟩ := hu
  refine (hv.isNull_spender o).mp ?_
  rw [slot, replay_eq_find] at hp
  obtain ⟨e, he, hs⟩ := bind_eq_some_iff.mp hp
  obtain ⟨t, -, rfl⟩ := map_eq_some_iff.mp he
  simp only [getElem?_map, map_eq_some_iff] at hs
  obtain ⟨m, hm, rfl⟩ := hs
  obtain ⟨hlt, rfl⟩ := List.getElem?_eq_some_iff.mp hm
  simpa using hn

theorem Valid.count_spends_le_one (hv : Valid h) (o : K × Nat) :
    ((since o.1 h).flatMap (·.spends)).count o ≤ 1 := by
  induction h with
  | nil => simp [since]
  | cons t h ih =>
    rw [since]
    split
    · simp
    · rw [flatMap_cons, count_append]
      by_cases ho : o ∈ t.spends
      · have hnot := hv.1.notMem_of_unspent (hv.2.1.unspent o ho)
        have hzero : ((since o.1 h).flatMap (·.spends)).count o = 0 := by
          refine count_eq_zero.mpr fun hm => ?_
          obtain ⟨u, hu, hou⟩ := mem_flatMap.mp hm
          exact hnot u hu hou
        have hone := nodup_iff_count_le_one.mp hv.2.1.nodup o
        omega
      · rw [count_eq_zero.mpr ho, Nat.zero_add]
        exact ih hv.1

theorem Valid.key_between {h₃ : List (Item K P)} {u v : Item K P}
    (hv : Valid (h₁ ++ u :: (h₂ ++ v :: h₃))) {o : K × Nat} (hu : o ∈ u.spends)
    (hov : o ∈ v.spends) : ∃ t ∈ h₂, t.key = o.1 := by
  by_contra hno
  push Not at hno
  have hvu : Valid (u :: (h₂ ++ v :: h₃)) := hv.of_append
  have hvv : Valid (v :: h₃) := hvu.1.of_append
  refine hvu.1.notMem_of_unspent (hvu.2.1.unspent o hu) v ?_ hov
  rw [since_append hno, since, if_neg (hvv.2.1.key_ne hov)]
  simp

/-! ## Reading an index reached by a run -/

section Agrees

variable (ha : Agrees h idx) {k : K} {e : Entry P} (he : idx k = some e) {n : Nat} {p : P}
  (hn : e.vSpent[n]? = some p)

include ha he

theorem Agrees.find_key : ∃ t, h.find? (fun t => t.key = k) = some t ∧ e.pos = t.pos ∧
    e.vSpent.length = t.nOutputs := by
  have hr := ha.entry_eq he
  rw [replay_eq_find] at hr
  obtain ⟨t, ht, rfl⟩ := map_eq_some_iff.mp hr
  exact ⟨t, ht, rfl, by simp⟩

include hn

theorem Agrees.pointer_eq : p = spender (since k h) (k, n) := by
  have hr := ha.entry_eq he
  rw [replay_eq_find] at hr
  obtain ⟨t, -, rfl⟩ := map_eq_some_iff.mp hr
  simp only [getElem?_map, map_eq_some_iff] at hn
  obtain ⟨m, hm, rfl⟩ := hn
  obtain ⟨-, rfl⟩ := List.getElem?_eq_some_iff.mp hm
  simp

/-- A pointer is set exactly when one input since the last item of the key names the output. -/
theorem Agrees.pointer_set_iff :
    isNull p = false ↔ ((since k h).flatMap (·.spends)).count (k, n) = 1 := by
  have hle : ((since k h).flatMap (·.spends)).count (k, n) ≤ 1 :=
    ha.valid.count_spends_le_one (k, n)
  have hnull := ha.valid.isNull_spender (k, n)
  rw [← ha.pointer_eq he hn] at hnull
  have hzero : ((since k h).flatMap (·.spends)).count (k, n) = 0 ↔
      ∀ t ∈ since k h, (k, n) ∉ t.spends := by
    rw [count_eq_zero, mem_flatMap]
    push Not
    rfl
  rw [← hzero] at hnull
  rw [← Bool.not_eq_true, hnull]
  omega

theorem Agrees.pointer_pos (hp : isNull p = false) :
    ∃ u ∈ since k h, (k, n) ∈ u.spends ∧ p = u.pos := by
  have heq := ha.pointer_eq he hn
  unfold spender at heq
  split at heq
  · next u hu =>
    exact ⟨u, mem_of_find?_eq_some hu, by simpa using find?_some hu, heq⟩
  · rw [heq, isNull_null] at hp
    cases hp

end Agrees

/-! ## Branches

What is unspent when the newest items of a history are replaced by others. -/

section Branches

variable {o : K × Nat}

/-- An index that a run has reached has the unspent outpoints of its history. -/
theorem Agrees.unspent_iff (ha : Agrees h idx) :
    Unspent idx o ↔ Unspent (replay h) o := by
  rcases ha.entry o.1 with he | ⟨hnone, hspent⟩
  · exact unspent_congr he
  · exact ⟨fun hu => absurd hu (allSpent_of_none hnone o.2), fun hu => absurd hu (hspent o.2)⟩

theorem Valid.unspent_drop : ∀ {newer older : List (Item K P)}, Valid (newer ++ older) →
    Unspent (replay (newer ++ older)) o →
    (∃ t ∈ newer, t.key = o.1 ∧ o.2 < t.nOutputs) ∨ Unspent (replay older) o
  | [], _, _, hu => .inr hu
  | t :: newer, older, hv, hu => by
    rcases (unspent_connect_iff hv.2.2).mp hu with ⟨hkey, hlt⟩ | ⟨-, -, hu⟩
    · exact .inl ⟨t, mem_cons_self, hkey.symm, hlt⟩
    · rcases Valid.unspent_drop hv.1 hu with ⟨u, hmem, hout⟩ | hold
      · exact .inl ⟨u, mem_cons_of_mem _ hmem, hout⟩
      · exact .inr hold

theorem Valid.unspent_of_spends {newer older : List (Item K P)} (hv : Valid (newer ++ older))
    (ht : t ∈ newer) (ho : o ∈ t.spends) : t.key ≠ o.1 ∧
      ((∃ u ∈ newer, u.key = o.1 ∧ o.2 < u.nOutputs) ∨ Unspent (replay older) o) := by
  obtain ⟨later, earlier, rfl⟩ := append_of_mem ht
  rw [append_assoc] at hv
  obtain ⟨hv, hc, -⟩ := hv.of_append
  refine ⟨hc.key_ne ho, ?_⟩
  rcases hv.unspent_drop (hc.unspent o ho) with ⟨u, hmem, hout⟩ | hold
  · exact .inl ⟨u, mem_append_right _ (mem_cons_of_mem _ hmem), hout⟩
  · exact .inr hold

theorem Valid.unspent_append : ∀ {newer older : List (Item K P)}, Valid (newer ++ older) →
    (∀ t ∈ newer, o ∉ t.spends) → (∀ t ∈ newer, t.key = o.1 → o.2 < t.nOutputs) →
    (Unspent (replay older) o ∨ ∃ t ∈ newer, t.key = o.1) → Unspent (replay (newer ++ older)) o
  | [], _, _, _, _, h => h.resolve_right (by simp)
  | t :: newer, older, hv, hnot, hout, h => by
    rw [forall_mem_cons] at hnot hout
    refine (unspent_connect_iff hv.2.2).mpr ?_
    by_cases hkey : t.key = o.1
    · exact .inl ⟨hkey.symm, hout.1 hkey⟩
    · refine .inr ⟨Ne.symm hkey, hnot.1, Valid.unspent_append hv.1 hnot.2 hout.2 (h.imp_right ?_)⟩
      rintro ⟨u, hmem, hu⟩
      rcases mem_cons.mp hmem with rfl | hmem
      · exact absurd hu hkey
      · exact ⟨u, hmem, hu⟩

end Branches

end SpentIndex
