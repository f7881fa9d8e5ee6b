import Mathlib.Data.List.Basic
import Mathlib.Logic.Function.Basic
import Mathlib.Tactic.Common

/-!
# Linked lists in a heap

The cells of a heap are linked by a function `next : α → Option α`, where `none` is the null
pointer.  `Linked next p l` says that the cells met from the pointer `p` on are those of `l`,
in this order, and that the last one holds the null pointer; the lemmas are the moves of a
singly linked list: a cell is pushed at the head, popped from the head, or appended after the
tail.  `walk` collects the cells met, and `relink` links the cells of a list one after the other.
-/

namespace LinkedList

variable {α : Type*}

/-- The cells met by following `next` from the pointer `p` are `l`, and then comes the null
pointer. -/
def Linked (next : α → Option α) : Option α → List α → Prop
  | p, [] => p = none
  | p, a :: l => p = some a ∧ Linked next (next a) l

variable {next next' : α → Option α} {p : Option α} {a b : α} {l l' : List α}

@[simp]
theorem linked_nil :
  Linked next p [] ↔ p = none
  := Iff.rfl

@[simp]
theorem linked_cons :
  Linked next p (a :: l) ↔ p = some a ∧ Linked next (next a) l
  := Iff.rfl

theorem linked_none_iff :
  Linked next none l ↔ l = []
  := by
  cases l with
  | nil => simp
  | cons a l => simp

/-- From a pointer to `a` the first cell met is `a`. -/
theorem Linked.of_some (h : Linked next (some a) l) :
  ∃ l', l = a :: l' ∧ Linked next (next a) l'
  := by
  cases l with
  | nil => cases h
  | cons b l =>
      obtain ⟨hab, hl⟩ := h
      obtain rfl := Option.some.inj hab
      use l

/-- The cells met from a pointer are determined. -/
theorem Linked.unique (h : Linked next p l) (h' : Linked next p l') :
  l = l'
  := by
  induction l generalizing p l' with
  | nil =>
      rw [linked_nil.mp h] at h'
      symm
      apply linked_none_iff.mp h'
  | cons a l ih =>
      obtain ⟨rfl, hl⟩ := h
      obtain ⟨l'', rfl, hl''⟩ := h'.of_some
      rw [ih hl hl'']

/-- Linking depends only on the cells met. -/
theorem Linked.congr (h : Linked next p l) (hnext : ∀ a ∈ l, next' a = next a) :
  Linked next' p l
  := by
  induction l generalizing p with
  | nil => apply h
  | cons a l ih =>
      obtain ⟨hp, hl⟩ := h
      use hp
      rw [hnext a (by simp)]
      apply ih hl
      intro b hb
      apply hnext b (by simp [hb])

/-- Collects the cells met from a pointer on, when there are at most `n` of them. -/
def walk (next : α → Option α) : ℕ → Option α → Option (List α)
  | _, none => some []
  | 0, some _ => none
  | n + 1, some a => (walk next n (next a)).map (a :: ·)

/-- The cells met are collected. -/
theorem Linked.walk {n : ℕ} (h : Linked next p l) (hn : l.length ≤ n) :
  walk next n p = some l
  := by
  induction l generalizing n p with
  | nil =>
      obtain rfl := linked_nil.mp h
      cases n with
      | zero => rfl
      | succ n => rfl
  | cons a l ih =>
      obtain ⟨rfl, hl⟩ := h
      cases n with
      | zero => simp at hn
      | succ n =>
          rw [LinkedList.walk, ih hl (Nat.le_of_succ_le_succ hn)]
          rfl

section Update

variable [DecidableEq α]

theorem Linked.update (h : Linked next p l) (ha : a ∉ l) (q : Option α) :
  Linked (Function.update next a q) p l
  := by
  apply h.congr
  intro b hb
  apply Function.update_of_ne
  rintro rfl
  exact ha hb

/-- Pushing: the link of a new cell `a` is set to the old head, and `a` becomes the head. -/
theorem Linked.push (h : Linked next p l) (ha : a ∉ l) :
  Linked (Function.update next a p) (some a) (a :: l)
  := by
  use rfl
  rw [Function.update_self]
  apply h.update ha

/-- Appending: when the last cell `a` is made to point to a new cell `b` holding the null
pointer, `b` comes after the cells met. -/
theorem Linked.append (h : Linked next p (l ++ [a])) (hnodup : (l ++ [a]).Nodup)
    (hb : b ∉ l ++ [a]) :
  Linked (Function.update (Function.update next b none) a (some b)) p (l ++ [a] ++ [b])
  := by
  induction l generalizing p with
  | nil =>
      obtain ⟨hp, -⟩ := h
      have hne : b ≠ a := by simpa using hb
      simp [hp, hne]
  | cons c l ih =>
      obtain ⟨hp, hl⟩ := h
      have hca : c ≠ a := by
        rintro rfl
        simp at hnodup
      have hcb : c ≠ b := by
        rintro rfl
        simp at hb
      use hp
      rw [Function.update_of_ne hca, Function.update_of_ne hcb]
      apply ih hl (List.nodup_cons.mp hnodup).2
      intro hmem
      apply hb
      simp only [List.cons_append, List.mem_cons]
      right
      apply hmem

/-- Links the cells of a list one after the other, and ends with the null pointer. -/
def relink (next : α → Option α) : List α → α → Option α
  | [] => next
  | [a] => Function.update next a none
  | a :: b :: l => relink (Function.update next a (some b)) (b :: l)

/-- Only the links of the listed cells are written. -/
theorem relink_of_notMem (ha : a ∉ l) :
  relink next l a = next a
  := by
  fun_induction relink next l with
  | case1 => rfl
  | case2 next b =>
      apply Function.update_of_ne
      simpa using ha
  | case3 next b c l ih =>
      simp only [List.mem_cons, not_or] at ha ih
      rw [ih ha.2, Function.update_of_ne ha.1]

/-- The cells met afterwards from the first cell on are those listed. -/
theorem linked_relink (h : (a :: l).Nodup) :
  Linked (relink next (a :: l)) (some a) (a :: l)
  := by
  induction l generalizing next a with
  | nil => simp [relink]
  | cons b l ih =>
      obtain ⟨ha, hl⟩ := List.nodup_cons.mp h
      use rfl
      rw [relink, relink_of_notMem ha, Function.update_self]
      apply ih hl

end Update

end LinkedList
