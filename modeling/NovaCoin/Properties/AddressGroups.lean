import Mathlib.Algebra.Order.BigOperators.Group.List
import Mathlib.Data.Fintype.Powerset
import NovaCoin.Wallet

/-!
# Address groupings are connected components

Two addresses are in one of the sets that `GetAddressGroupings` returns exactly if a chain of groupings
leads from one to the other (`AddressView.groupings_components`). `Groups.Inv` says so of the groups
so far.
-/

namespace NovaCoin

open List

variable {Address : Type}

/-- A chain of groupings, each sharing an address with the next, leads from `a` to `b`. -/
def Linked (groupings : List (Finset Address)) : Address → Address → Prop :=
  Relation.TransGen fun a b => ∃ g ∈ groupings, a ∈ g ∧ b ∈ g

theorem Linked.mono {gs gs' : List (Finset Address)} (hsub : gs ⊆ gs') {a b : Address}
    (h : Linked gs a b) : Linked gs' a b :=
  Relation.TransGen.mono (fun _ _ ⟨g, hg, hab⟩ => ⟨g, hsub hg, hab⟩) a b h

namespace Groups

variable {s s' : Groups Address} {gs : List (Finset Address)} {g : Finset Address}
  {alloc : List Nat → Nat} {a b : Address} {p : Nat}

structure Inv (gs : List (Finset Address)) (s : Groups Address) : Prop where
  live : ∀ a p, s.setmap a = some p → ∃ G, s.uniqueGroupings.lookup p = some G ∧ a ∈ G
  own : ∀ p G, s.uniqueGroupings.lookup p = some G → G.Nonempty ∧ ∀ a ∈ G, s.setmap a = some p
  linked : ∀ p G, s.uniqueGroupings.lookup p = some G → ∀ a ∈ G, ∀ b ∈ G, Linked gs a b
  together : ∀ g ∈ gs, ∀ a ∈ g, ∀ b ∈ g, ∃ p, s.setmap a = some p ∧ s.setmap b = some p

theorem Inv.init : Inv [] (⟨∅, fun _ => none⟩ : Groups Address) :=
  ⟨by nofun, by nofun, by nofun, by nofun⟩

theorem mem_hits : p ∈ s.hits g ↔ ∃ a ∈ g, s.setmap a = some p := by
  simp [hits]

theorem Inv.setmap_of_linked (h : Inv gs s) (hab : Linked gs a b) :
    ∃ p, s.setmap a = some p ∧ s.setmap b = some p := by
  induction hab with
  | single hg =>
    obtain ⟨g, hg, ha, hb⟩ := hg
    exact h.together g hg a ha _ hb
  | tail _ hg ih =>
    obtain ⟨p, hap, hbp⟩ := ih
    obtain ⟨g, hg, hb, hc⟩ := hg
    obtain ⟨q, hbq, hcq⟩ := h.together g hg _ hb _ hc
    cases hbp.symm.trans hbq
    exact ⟨p, hap, hcq⟩

variable [DecidableEq Address]

/-- An address of the merged group is in the new grouping or in the group of one of its addresses. -/
theorem Inv.mem_merged (h : Inv gs s) :
    a ∈ s.merged g ↔ a ∈ g ∨ ∃ p ∈ s.hits g, s.setmap a = some p := by
  rw [merged, Finset.mem_union, Finset.mem_biUnion]
  refine or_congr_right (exists_congr fun p => and_congr_right fun hp => ?_)
  obtain ⟨c, -, hc⟩ := mem_hits.mp hp
  obtain ⟨G, hG, -⟩ := h.live c p hc
  rw [hG]
  constructor
  · exact (h.own p G hG).2 a
  · intro ha
    obtain ⟨G', hG', haG⟩ := h.live a p ha
    cases hG.symm.trans hG'
    exact haG

theorem Inv.mem_merged_of (h : Inv gs s) (ha : s.setmap a = some p) :
    a ∈ s.merged g ↔ p ∈ s.hits g := by
  rw [h.mem_merged]
  constructor
  · rintro (hag | ⟨q, hq, haq⟩)
    · exact mem_hits.mpr ⟨a, hag, ha⟩
    · cases ha.symm.trans haq
      exact hq
  · exact fun hp => .inr ⟨p, hp, ha⟩

theorem Inv.exists_merge (h : Inv gs s) (alloc : List Nat → Nat) (g : Finset Address) :
    ∃ s', s.merge alloc g = some s' := by
  refine ⟨_, if_pos fun hit hmem => ?_⟩
  obtain ⟨c, -, hc⟩ := mem_hits.mp hmem
  obtain ⟨G, hG, -⟩ := h.live c hit hc
  rw [hG]
  rfl

theorem Inv.linked_merged (h : Inv gs s) (ha : a ∈ s.merged g) (hb : b ∈ g) :
    Linked (gs ++ [g]) a b ∧ Linked (gs ++ [g]) b a := by
  have hnew : ∀ {c d : Address}, c ∈ g → d ∈ g → Linked (gs ++ [g]) c d :=
    fun hc hd => .single ⟨g, by simp, hc, hd⟩
  rcases h.mem_merged.mp ha with hag | ⟨p, hp, hap⟩
  · exact ⟨hnew hag hb, hnew hb hag⟩
  · obtain ⟨c, hcg, hc⟩ := mem_hits.mp hp
    obtain ⟨G, hG, hcG⟩ := h.live c p hc
    obtain ⟨G', hG', haG⟩ := h.live a p hap
    cases hG.symm.trans hG'
    have hsub : gs ⊆ gs ++ [g] := subset_append_left _ _
    exact ⟨((h.linked p G hG a haG c hcG).mono hsub).trans (hnew hcg hb),
      (hnew hb hcg).trans ((h.linked p G hG c hcG a haG).mono hsub)⟩

/-- The step lemma. -/
theorem Inv.merge (h : Inv gs s) (halloc : ∀ l, alloc l ∉ l) (hg : g.Nonempty)
    (hstep : s.merge alloc g = some s') : Inv (gs ++ [g]) s' := by
  unfold Groups.merge at hstep
  split at hstep
  · obtain rfl := Option.some.inj hstep
    have hnew : s.uniqueGroupings.lookup (alloc s.uniqueGroupings.keys) = none :=
      AList.lookup_eq_none.mpr (halloc _)
    -- the groups are the merged one, and those that were not hit
    have hlookup : ∀ {p G}, ((AssocMap.filter (fun hit _ => hit ∉ s.hits g) s.uniqueGroupings).insert
        (alloc s.uniqueGroupings.keys) (s.merged g)).lookup p = some G ↔
          (p = alloc s.uniqueGroupings.keys ∧ G = s.merged g) ∨
          (p ∉ s.hits g ∧ s.uniqueGroupings.lookup p = some G) := by
      intro p G
      rw [AssocMap.lookup_insert_ite, AssocMap.lookup_filter]
      by_cases hp : p = alloc s.uniqueGroupings.keys
      · subst hp
        simp [hnew, eq_comm]
      · simp [hp, Option.filter_eq_some_iff, and_comm]
    refine ⟨fun a p ha => ?_, fun p G hG => ?_, fun p G hG => ?_, fun g' hg' a ha b hb => ?_⟩
    · dsimp only at ha
      split at ha
      · next hm =>
        obtain rfl := Option.some.inj ha
        exact ⟨_, hlookup.mpr (.inl ⟨rfl, rfl⟩), hm⟩
      · next hm =>
        obtain ⟨G, hG, haG⟩ := h.live a p ha
        exact ⟨G, hlookup.mpr (.inr ⟨fun hp => hm ((h.mem_merged_of ha).mpr hp), hG⟩), haG⟩
    · rcases hlookup.mp hG with ⟨rfl, rfl⟩ | ⟨hp, hG⟩
      · obtain ⟨a, ha⟩ := hg
        exact ⟨⟨a, h.mem_merged.mpr (.inl ha)⟩, fun a ha => if_pos ha⟩
      · obtain ⟨hne, hall⟩ := h.own p G hG
        refine ⟨hne, fun a ha => ?_⟩
        dsimp only
        rw [if_neg fun hm => hp ((h.mem_merged_of (hall a ha)).mp hm), hall a ha]
    · rcases hlookup.mp hG with ⟨rfl, rfl⟩ | ⟨hp, hG⟩
      · intro a ha b hb
        obtain ⟨c, hc⟩ := hg
        exact (h.linked_merged ha hc).1.trans (h.linked_merged hb hc).2
      · exact fun a ha b hb => (h.linked p G hG a ha b hb).mono (subset_append_left _ _)
    · dsimp only
      rcases mem_append.mp hg' with hg' | hg'
      · obtain ⟨p, hap, hbp⟩ := h.together g' hg' a ha b hb
        by_cases hm : p ∈ s.hits g
        · exact ⟨_, if_pos ((h.mem_merged_of hap).mpr hm), if_pos ((h.mem_merged_of hbp).mpr hm)⟩
        · refine ⟨p, ?_, ?_⟩
          · rw [if_neg fun ha => hm ((h.mem_merged_of hap).mp ha), hap]
          · rw [if_neg fun hb => hm ((h.mem_merged_of hbp).mp hb), hbp]
      · obtain rfl := mem_singleton.mp hg'
        exact ⟨_, if_pos (h.mem_merged.mpr (.inl ha)), if_pos (h.mem_merged.mpr (.inl hb))⟩
  · cases hstep

/-- The run lemma: no deleted group is read. -/
theorem exists_mergeAll (halloc : ∀ l, alloc l ∉ l) (gs : List (Finset Address))
    (hgs : ∀ g ∈ gs, g.Nonempty) :
    ∃ s, gs.foldlM (merge alloc) (⟨∅, fun _ => none⟩ : Groups Address) = some s ∧ Inv gs s := by
  induction gs using reverseRecOn with
  | nil => exact ⟨_, rfl, Inv.init⟩
  | append_singleton gs g ih =>
    obtain ⟨s, hrun, hinv⟩ := ih fun g' hg' => hgs g' (by simp [hg'])
    obtain ⟨s', hstep⟩ := hinv.exists_merge alloc g
    refine ⟨s', ?_, hinv.merge halloc (hgs g (by simp)) hstep⟩
    rw [foldlM_append, hrun]
    simpa using hstep

end Groups

namespace AddressView

variable [DecidableEq Address] (view : AddressView Address)

theorem nonempty_of_mem_groupings {g : Finset Address} (hg : g ∈ view.groupings) : g.Nonempty := by
  obtain ⟨walletEntry, -, hg⟩ := mem_flatMap.mp (mem_toFinset.mp hg)
  rcases mem_append.mp hg with hg | hg
  · unfold inputGroupings at hg
    split at hg
    · cases hg
    · next hne =>
      rw [mem_singleton.mp hg]
      exact (Finset.nonempty_iff_ne_empty.mpr hne).mono Finset.subset_union_left
  · obtain ⟨txout, -, hg⟩ := mem_filterMap.mp hg
    split at hg
    · obtain ⟨a, -, rfl⟩ := Option.map_eq_some_iff.mp hg
      exact Finset.singleton_nonempty a
    · cases hg

/-- The sets are not empty, are disjoint and have all the addresses of groupings, and two addresses
are in one set exactly if they are linked. -/
theorem groupings_components : ∃ ret, view.getAddressGroupings = some ret ∧
    (∀ G ∈ ret, G.Nonempty) ∧
    (∀ G ∈ ret, ∀ H ∈ ret, G ≠ H → Disjoint G H) ∧
    (∀ a, (∃ G ∈ ret, a ∈ G) ↔ ∃ g ∈ view.groupings, a ∈ g) ∧
    ∀ a b, (∃ G ∈ ret, a ∈ G ∧ b ∈ G) ↔ Linked view.groupings.toList a b := by
  have hmem : ∀ g, g ∈ view.order view.groupings ↔ g ∈ view.groupings := view.mem_order _
  obtain ⟨s, hrun, h⟩ := Groups.exists_mergeAll view.alloc_new (view.order view.groupings)
    fun g hg => view.nonempty_of_mem_groupings ((hmem g).mp hg)
  have hret : ∀ G, G ∈ (s.uniqueGroupings.entries.map (·.2)).toFinset ↔
      ∃ p, s.uniqueGroupings.lookup p = some G := by
    intro G
    simp only [mem_toFinset, mem_map]
    constructor
    · rintro ⟨⟨p, _⟩, hitem, rfl⟩
      exact ⟨p, AList.mem_lookup_iff.mpr hitem⟩
    · rintro ⟨p, hp⟩
      exact ⟨⟨p, G⟩, AssocMap.mem_entries_of_lookup hp, rfl⟩
  have hlinked : ∀ a b, (∃ G ∈ (s.uniqueGroupings.entries.map (·.2)).toFinset, a ∈ G ∧ b ∈ G) ↔
      Linked view.groupings.toList a b := by
    intro a b
    constructor
    · rintro ⟨G, hG, ha, hb⟩
      obtain ⟨p, hp⟩ := (hret G).mp hG
      exact (h.linked p G hp a ha b hb).mono fun g hg => Finset.mem_toList.mpr ((hmem g).mp hg)
    · intro hab
      obtain ⟨p, ha, hb⟩ := h.setmap_of_linked
        (hab.mono fun g hg => (hmem g).mpr (Finset.mem_toList.mp hg))
      obtain ⟨G, hG, haG⟩ := h.live a p ha
      obtain ⟨G', hG', hbG⟩ := h.live b p hb
      cases hG.symm.trans hG'
      exact ⟨G, (hret G).mpr ⟨p, hG⟩, haG, hbG⟩
  refine ⟨_, Option.bind_eq_some_iff.mpr ⟨s, hrun, rfl⟩, fun G hG => ?_, fun G hG H hH hne => ?_,
    fun a => ?_, hlinked⟩
  · obtain ⟨p, hp⟩ := (hret G).mp hG
    exact (h.own p G hp).1
  · obtain ⟨p, hp⟩ := (hret G).mp hG
    obtain ⟨q, hq⟩ := (hret H).mp hH
    rw [Finset.disjoint_left]
    intro a haG haH
    cases ((h.own p G hp).2 a haG).symm.trans ((h.own q H hq).2 a haH)
    exact hne (Option.some.inj (hp.symm.trans hq))
  · have haa := hlinked a a
    simp only [and_self] at haa
    rw [haa]
    constructor
    · intro h
      obtain ⟨b, ⟨g, hg, ha, -⟩, -⟩ := Relation.TransGen.head'_iff.mp h
      exact ⟨g, Finset.mem_toList.mp hg, ha⟩
    · rintro ⟨g, hg, ha⟩
      exact .single ⟨g, Finset.mem_toList.mpr hg, ha, ha⟩

/-! ## Two payments that share an address -/

/-- All sets of four addresses. -/
def fourSets : List (Finset (Fin 4)) := (finRange 4).sublists.map List.toFinset

theorem mem_fourSets : ∀ g, g ∈ fourSets := by decide

/-- The outputs of the wallet, to the addresses 0, 1, 1, 2 and 3. -/
def receivedTx : CTransaction :=
  ⟨1, 0, [⟨⟨7, 0⟩, [], 0⟩], [⟨10, [0]⟩, ⟨10, [1]⟩, ⟨10, [1]⟩, ⟨10, [2]⟩, ⟨10, [3]⟩], 0⟩

/-- A payment to somebody else, out of two of the outputs. -/
def joiningTx (n m : UInt32) : CTransaction :=
  ⟨1, 0, [⟨⟨Crypto.sample.txHash receivedTx, n⟩, [], 0⟩, ⟨⟨Crypto.sample.txHash receivedTx, m⟩, [], 0⟩],
    [⟨20, [9]⟩], 0⟩

def chainView : AddressView (Fin 4) where
  env := ⟨Crypto.sample, false, fun script => if script = [9] then .MINE_NO else .MINE_SPENDABLE, 0⟩
  mapWallet := [receivedTx, joiningTx 0 1, joiningTx 2 3].foldl
    (fun mapWallet tx => mapWallet.insert (Crypto.sample.txHash tx) (.new tx)) ∅
  extractAddress := fun script => script.head?.bind fun b => (finRange 4)[b.toNat]?
  isChange := fun _ => false
  order := fun s => fourSets.filter (· ∈ s)
  mem_order := fun s g => by simp [mem_fourSets g]
  alloc := fun l => l.sum + 1
  alloc_new := fun l hl => Nat.not_succ_le_self _ (List.le_sum_of_mem hl)

/-- The payments link the addresses 0 and 2 by way of 1; 3 is by itself. -/
theorem chainView_components : chainView.getAddressGroupings = some {{0, 1, 2}, {3}} ∧
    Linked chainView.groupings.toList 0 2 ∧ ¬ Linked chainView.groupings.toList 0 3 := by
  have hret : chainView.getAddressGroupings = some {{0, 1, 2}, {3}} := by decide +kernel
  obtain ⟨ret, hsome, -, -, -, hlinked⟩ := chainView.groupings_components
  obtain rfl := Option.some.inj (hret.symm.trans hsome)
  rw [← hlinked, ← hlinked]
  exact ⟨hret, by decide, by decide⟩

end AddressView

end NovaCoin
