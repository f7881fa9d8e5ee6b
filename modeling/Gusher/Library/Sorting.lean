import Mathlib.Algebra.Group.Int.Defs
import Mathlib.Data.List.Nodup
import Mathlib.Data.List.Sort
import Mathlib.Tactic.Common

/-!
# Sorting with a comparator

What a caller of `qsort` may rely on.  A comparator says by the sign of an integer which of two
elements comes first; the sorting function permutes its input whatever the comparator says, and
the result is sorted by a comparator that is consistent.  The order of elements that compare
equal is left open.
-/

namespace Sorting

variable {α : Type*} {cmp : α → α → ℤ} {l : List α}

/-- The comparator is that of a total preorder. -/
structure Consistent (cmp : α → α → ℤ) : Prop where
  antisymm : ∀ a b, cmp a b < 0 ↔ 0 < cmp b a
  trans : ∀ a b c, cmp a b ≤ 0 → cmp b c ≤ 0 → cmp a c ≤ 0

theorem Consistent.total (h : Consistent cmp) (a b : α) :
  cmp a b ≤ 0 ∨ cmp b a ≤ 0
  := by
  have hab := h.antisymm b a
  omega

/-- The lists that a call of `qsort` may leave. -/
structure QSort (cmp : α → α → ℤ) (l l' : List α) : Prop where
  perm : l'.Perm l
  sorted : Consistent cmp → l'.Pairwise (fun a b => cmp a b ≤ 0)

def mergeSort (cmp : α → α → ℤ) (l : List α) : List α :=
  l.mergeSort (fun a b => cmp a b ≤ 0)

/-- A merge sort is a `qsort`. -/
theorem qsort_mergeSort (cmp : α → α → ℤ) (l : List α) :
  QSort cmp l (mergeSort cmp l)
  := by
  constructor
  · apply List.mergeSort_perm
  · intro h
    have hsorted : (mergeSort cmp l).Pairwise (fun a b => decide (cmp a b ≤ 0) = true) := by
      apply List.pairwise_mergeSort
      · simpa using h.trans
      · simpa using h.total
    simpa using hsorted

def insertionSort (cmp : α → α → ℤ) (l : List α) : List α :=
  l.insertionSort (fun a b => cmp a b ≤ 0)

/-- An insertion sort is a `qsort`. -/
theorem qsort_insertionSort (cmp : α → α → ℤ) (l : List α) :
  QSort cmp l (insertionSort cmp l)
  := by
  constructor
  · apply List.perm_insertionSort
  · intro h
    have : IsTrans α (fun a b => cmp a b ≤ 0) := ⟨h.trans⟩
    have : Std.Total (fun a b => cmp a b ≤ 0) := ⟨h.total⟩
    apply List.pairwise_insertionSort

/-- A measure by whose difference the elements are compared, largest first, is a consistent
comparator. -/
theorem consistent_of_measure {size : α → ℕ} (h : ∀ a b, cmp a b = (size b : ℤ) - size a) :
  Consistent cmp
  := by
  constructor
  · intro a b
    rw [h, h]
    omega
  · intro a b c hab hbc
    rw [h] at *
    omega

theorem find_congr {p q : α → Bool} (h : ∀ a ∈ l, p a = q a) :
  l.find? p = l.find? q
  := by
  induction l with
  | nil => rfl
  | cons a l ih =>
      rw [List.find?_cons, List.find?_cons, h a List.mem_cons_self,
        ih (fun b hb => h b (List.mem_cons_of_mem _ hb))]

/-- Of the elements that meet a condition, the first one comes before the others. -/
theorem rel_of_find {r : α → α → Prop} {p : α → Bool} {a b : α} (hl : l.Pairwise r)
    (ha : l.find? p = some a) (hb : b ∈ l) (hpb : p b = true) :
  a = b ∨ r a b
  := by
  induction hl with
  | nil => simp at hb
  | @cons c l hc _ ih =>
      rw [List.find?_cons] at ha
      split at ha
      case h_1 =>
          obtain rfl := Option.some.inj ha
          obtain rfl | hb := List.mem_cons.mp hb
          · left
            rfl
          · right
            apply hc b hb
      case h_2 hpc =>
          apply ih ha
          obtain rfl | hb := List.mem_cons.mp hb
          · simp [hpb] at hpc
          · exact hb

/-! ### Elements that compare equal -/

/-- A `qsort` that puts `a` before the elements that compare equal to it. -/
def prefer [DecidableEq α] (a : α) (cmp : α → α → ℤ) (l : List α) : List α :=
  mergeSort cmp (if a ∈ l then a :: l.erase a else l)

theorem qsort_prefer [DecidableEq α] (a : α) (cmp : α → α → ℤ) (l : List α) :
  QSort cmp l (prefer a cmp l)
  := by
  have hperm : (if a ∈ l then a :: l.erase a else l).Perm l := by
    split
    case isTrue ha => exact (List.perm_cons_erase ha).symm
    case isFalse => exact List.Perm.refl l
  have hsort := qsort_mergeSort cmp (if a ∈ l then a :: l.erase a else l)
  exact ⟨hsort.perm.trans hperm, hsort.sorted⟩

/-- The preferred element comes before each other one that does not have to come before it. -/
theorem pair_sublist_prefer [DecidableEq α] {a b : α} (h : Consistent cmp) (ha : a ∈ l)
    (hb : b ∈ l) (hne : b ≠ a) (hab : cmp a b ≤ 0) :
  List.Sublist [a, b] (prefer a cmp l)
  := by
  rw [prefer, if_pos ha]
  apply List.pair_sublist_mergeSort
  · simpa using h.trans
  · simpa using h.total
  · simpa using hab
  · apply List.Sublist.cons_cons
    rw [List.singleton_sublist]
    exact (List.mem_erase_of_ne hne).mpr hb

/-- What comes before another element is found first. -/
theorem find_ne_of_pair_sublist {p : α → Bool} {a b : α} (hl : l.Nodup)
    (hab : List.Sublist [a, b] l) (ha : p a = true) :
  l.find? p ≠ some b
  := by
  intro hfind
  obtain ⟨-, front, back, rfl, hfront⟩ := List.find?_eq_some_iff_append.mp hfind
  have hback : b ∉ back := fun hmem =>
    (List.nodup_cons.mp (List.nodup_middle.mp hl)).1 (List.mem_append_right front hmem)
  obtain ⟨x, y, hsplit, hx, hy⟩ := List.sublist_append_iff.mp hab
  cases x with
  | nil =>
      rw [List.nil_append] at hsplit
      rw [← hsplit] at hy
      cases hy with
      | cons _ hy => exact hback (hy.subset (by simp))
      | cons_cons _ hy => exact hback (hy.subset (by simp))
  | cons c x =>
      obtain ⟨rfl, -⟩ := List.cons.inj hsplit
      have hnot := hfront a (hx.subset List.mem_cons_self)
      rw [ha] at hnot
      cases hnot

end Sorting
