import NovaCoin.Script.Basic

/-!
# Removing an operation from a script

A script is operations and a tail that cannot be read. An operation is read off the front whatever
follows it, so a pattern that is one operation is found at an operation or not at all, and
`FindAndDelete` is a filter.
-/

namespace NovaCoin

open List

def IsOperation (w : CScript) : Prop := ∃ opcode vch, getOp w = some (opcode, vch, [])

variable {p w rest tail : CScript}

theorem IsOperation.getOp_append (h : IsOperation w) :
    ∃ opcode vch, ∀ rest, getOp (w ++ rest) = some (opcode, vch, rest) := by
  obtain ⟨opcode, vch, hget⟩ := h
  obtain ⟨v, rfl, hall⟩ := NovaCoin.getOp_append hget
  rw [append_nil]
  exact ⟨opcode, vch, hall⟩

theorem IsOperation.ne_nil (h : IsOperation w) : w ≠ [] := by
  rintro rfl
  obtain ⟨opcode, vch, hget⟩ := h
  cases hget

theorem IsOperation.eq_of_append (hp : IsOperation p) (hw : IsOperation w)
    (h : p <+: w ++ rest) : w = p := by
  obtain ⟨r, hr⟩ := h
  obtain ⟨opcode, vch, hget⟩ := hp.getOp_append
  obtain ⟨opcode', vch', hget'⟩ := hw.getOp_append
  have hsame := hget r
  rw [hr, hget'] at hsame
  cases hsame
  exact (append_cancel_right hr).symm

theorem exists_operations (script : CScript) : ∃ ops tail, script = flatten ops ++ tail ∧
    (∀ w ∈ ops, IsOperation w) ∧ getOp tail = none := by
  cases h : getOp script with
  | none => exact ⟨[], script, rfl, by simp, h⟩
  | some op =>
    obtain ⟨ops, tail, hpc, hops, htail⟩ := exists_operations op.2.2
    obtain ⟨w, hw, hget⟩ := getOp_append h
    refine ⟨w :: ops, tail, by rw [hw, hpc, flatten_cons, append_assoc], ?_, htail⟩
    have hop := hget []
    rw [append_nil] at hop
    exact forall_mem_cons.mpr ⟨⟨op.1, op.2.1, hop⟩, hops⟩
termination_by script.length
decreasing_by exact length_getOp h

/-! ## The loops -/

theorem findAndDeleteFrom_append (hp : p ≠ []) :
    findAndDeleteFrom p (p ++ rest) = findAndDeleteFrom p rest ∧
      nFoundFrom p (p ++ rest) = nFoundFrom p rest + 1 := by
  have herase : eraseCopies p (p ++ rest) = eraseCopies p rest := by
    rw [eraseCopies, dif_pos ⟨hp, by simp⟩, drop_left]
  have hcount : countCopies p (p ++ rest) = countCopies p rest + 1 := by
    rw [countCopies, dif_pos ⟨hp, by simp⟩, drop_left]
  constructor
  · rw [findAndDeleteFrom, findAndDeleteFrom.eq_def p rest, herase]
  · rw [nFoundFrom, nFoundFrom.eq_def p rest, herase, hcount]
    split <;> omega

theorem findAndDeleteFrom_of_not (h : ¬ p <+: rest) :
    (findAndDeleteFrom p rest = match getOp rest with
      | none => rest
      | some (_, _, pc') => rest.take (rest.length - pc'.length) ++ findAndDeleteFrom p pc') ∧
    nFoundFrom p rest = match getOp rest with
      | none => 0
      | some (_, _, pc') => nFoundFrom p pc' := by
  have hnot : ¬ (p ≠ [] ∧ p.isPrefixOf rest) := fun h' => h ( isPrefixOf_iff_prefix.mp h'.2)
  have herase : eraseCopies p rest = rest := by rw [eraseCopies, dif_neg hnot]
  have hcount : countCopies p rest = 0 := by rw [countCopies, dif_neg hnot]
  rw [findAndDeleteFrom, nFoundFrom, herase, hcount]
  constructor
  · split <;> simp_all
  · split <;> simp_all

theorem findAndDeleteFrom_flatten (hp : IsOperation p) (htail : getOp tail = none) :
    ∀ {ops : List CScript}, (∀ w ∈ ops, IsOperation w) →
      findAndDeleteFrom p (ops.flatten ++ tail) = (ops.filter (· ≠ p)).flatten ++ tail ∧
      nFoundFrom p (ops.flatten ++ tail) = ops.count p
  | [], _ => by
    have hnot : ¬ p <+: tail := by
      rintro ⟨r, rfl⟩
      obtain ⟨opcode, vch, hget⟩ := hp.getOp_append
      rw [hget] at htail
      cases htail
    obtain ⟨hdelete, hcount⟩ := findAndDeleteFrom_of_not hnot
    rw [flatten_nil, nil_append, hdelete, hcount, htail]
    exact ⟨rfl, rfl⟩
  | w :: ops, hops => by
    rw [forall_mem_cons] at hops
    obtain ⟨ih, ih'⟩ := findAndDeleteFrom_flatten hp htail hops.2
    rw [flatten_cons, append_assoc]
    by_cases hw : w = p
    · subst hw
      obtain ⟨hdelete, hcount⟩ := findAndDeleteFrom_append hp.ne_nil
      rw [hdelete, hcount, ih, ih']
      simp
    · have hnot : ¬ p <+: w ++ (ops.flatten ++ tail) := fun h => hw (hp.eq_of_append hops.1 h)
      obtain ⟨hdelete, hcount⟩ := findAndDeleteFrom_of_not hnot
      obtain ⟨opcode, vch, hget⟩ := hops.1.getOp_append
      rw [hdelete, hcount, hget]
      simp [hw, ih, ih']

/-- `FindAndDelete` takes out the operations that are the pattern, and no other bytes. -/
theorem findAndDelete_operation (hp : IsOperation p) (script : CScript) :
    ∃ ops tail, script = flatten ops ++ tail ∧ (∀ w ∈ ops, IsOperation w) ∧ getOp tail = none ∧
      findAndDelete script p = (ops.filter (· ≠ p)).flatten ++ tail ∧
      nFound script p = ops.count p ∧
      findAndDelete (findAndDelete script p) p = findAndDelete script p ∧
      nFound (findAndDelete script p) p = 0 := by
  obtain ⟨ops, tail, rfl, hops, htail⟩ := exists_operations script
  have hfind (l : List CScript) (hl : ∀ w ∈ l, IsOperation w) :
      findAndDelete (l.flatten ++ tail) p = (l.filter (· ≠ p)).flatten ++ tail ∧
        nFound (l.flatten ++ tail) p = l.count p := by
    have hne : p.isEmpty = false := isEmpty_eq_false_iff.mpr hp.ne_nil
    simp only [findAndDelete, nFound, hne]
    exact findAndDeleteFrom_flatten hp htail hl
  obtain ⟨hdelete, hcount⟩ := hfind ops hops
  obtain ⟨hdelete', hcount'⟩ :=
    hfind (ops.filter (· ≠ p)) fun w hw => hops w (mem_of_mem_filter hw)
  refine ⟨ops, tail, rfl, hops, htail, hdelete, hcount, ?_⟩
  rw [hdelete, hdelete', hcount']
  simp [count_eq_zero]

/-- Two copies of a push, one after the other. -/
theorem findAndDelete_operation_push :
    ∃ ops tail, [0x51, 0x02, 0xaa, 0xbb, 0x02, 0xaa, 0xbb, 0x52] = flatten ops ++ tail ∧
      getOp tail = none ∧ ops.count [0x02, 0xaa, 0xbb] = 2 := by
  obtain ⟨ops, tail, hscript, -, htail, -, hcount, -⟩ := findAndDelete_operation
    (p := [0x02, 0xaa, 0xbb]) ⟨0x02, [0xaa, 0xbb], by decide⟩
    [0x51, 0x02, 0xaa, 0xbb, 0x02, 0xaa, 0xbb, 0x52]
  exact ⟨ops, tail, hscript, htail, hcount.symm.trans (by decide)⟩

end NovaCoin
