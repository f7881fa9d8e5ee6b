import Gusher.Library.LinkedList
import Mathlib.Data.List.Infix
import Mathlib.Data.List.Nodup

/-!
# Reading a list while a cell is linked into it

A writer links a cell `a` into a list `l₁ ++ l₂`: at first `a` points to the start of the list, and then
the links of the cells of `l₁ ++ a :: l₂` are written, one after the other, with this order.  On the way
the links may form a cycle (from the end of `l₁` to `a`, and back to the start).  A reader that follows
the links still meets every cell of `l₁ ++ l₂` that was ahead of it (`Splice.exists_suffix`).
-/

namespace LinkedList

variable {α : Type*} {next : α → Option α} {p q : Option α} {a x m : α} {l l₁ l₂ v rest : List α}

/-- `q` points behind the cell `a` of the list. -/
def Follows (l : List α) (a : α) (q : Option α) : Prop :=
  ∃ u v, l = u ++ a :: v ∧ q = v.head?

/-- The pointer behind a cell is determined. -/
theorem Follows.unique {q' : Option α} (hnodup : l.Nodup) (h : Follows l a q) (h' : Follows l a q') :
  q = q'
  := by
  obtain ⟨u, v, rfl, rfl⟩ := h
  obtain ⟨u', v', heq, rfl⟩ := h'
  have hmem := (List.nodup_middle.mp hnodup).notMem
  obtain ⟨-, -, rfl⟩ := (List.append_cons_inj_of_notMem
    (hmem ∘ List.mem_append_left v) (hmem ∘ List.mem_append_right u)).mp heq
  rfl

theorem Linked.eq_head? (h : Linked next p l) :
  p = l.head?
  := by
  cases l with
  | nil => exact h
  | cons a l => exact h.1

/-- The link of a cell of a list points behind it. -/
theorem Linked.follows (h : Linked next p l) (ha : a ∈ l) :
  Follows l a (next a)
  := by
  obtain ⟨u, v, rfl⟩ := List.append_of_mem ha
  use u, v, rfl
  clear ha
  induction u generalizing p with
  | nil => exact h.2.eq_head?
  | cons b u ih => exact ih h.2

/-- The cells from a suffix of a list on. -/
theorem Linked.suffix (h : Linked next p l) (hv : v <:+ l) :
  Linked next v.head? v
  := by
  obtain ⟨u, rfl⟩ := hv
  induction u generalizing p with
  | nil =>
      rw [List.nil_append] at h
      rwa [← h.eq_head?]
  | cons b u ih => exact ih h.2

/-- A list all of whose links point behind their cells. -/
theorem linked_of_follows (hnodup : l.Nodup) (h : ∀ a ∈ l, Follows l a (next a)) :
  Linked next l.head? l
  := by
  have hsuffix : ∀ v, v <:+ l → Linked next v.head? v := by
    intro v
    induction v with
    | nil =>
        intro _
        rfl
    | cons b v ih =>
        intro hv
        use rfl
        obtain ⟨u, hu⟩ := hv
        have hnext : next b = v.head? :=
          (h b (by simp [← hu])).unique hnodup ⟨u, v, hu.symm, rfl⟩
        rw [hnext]
        apply ih
        use u ++ [b]
        rw [← hu, List.append_assoc]
        rfl
  exact hsuffix l List.suffix_rfl

/-- What is left to be read of a list when a reader is at a pointer. -/
structure At (l : List α) (p : Option α) (v : List α) : Prop where
  suffix : v <:+ l
  head : p = v.head?

/-- A reader starts with the whole list. -/
theorem at_head :
  At l l.head? l
  := ⟨List.suffix_rfl, rfl⟩

/-- A reader that follows the list has one cell less to read. -/
theorem At.follow (hnodup : l.Nodup) (h : At l (some x) v) (hq : Follows l x q) :
  ∃ v', v = x :: v' ∧ At l q v'
  := by
  cases v with
  | nil => cases h.head
  | cons y v' =>
      obtain rfl := Option.some.inj h.head
      obtain ⟨u, hu⟩ := h.suffix
      refine ⟨v', rfl, ⟨u ++ [x], ?_⟩, hq.unique hnodup ⟨u, v', hu.symm, rfl⟩⟩
      rw [List.append_assoc]
      exact hu

/-- A cell that is linked in takes nothing from what is left to be read. -/
theorem At.insert (h : At (l₁ ++ l₂) p v) :
  ∃ v', At (l₁ ++ a :: l₂) p v' ∧ v ⊆ v'
  := by
  obtain ⟨⟨u, hu⟩, rfl⟩ := h
  obtain ⟨w, rfl, rfl⟩ | ⟨w, rfl, rfl⟩ := List.append_eq_append_iff.mp hu
  · cases w with
    | nil => exact ⟨l₂, ⟨⟨u ++ [a], by simp⟩, rfl⟩, by simp⟩
    | cons b w =>
        refine ⟨b :: (w ++ a :: l₂), ⟨⟨u, by simp⟩, rfl⟩, ?_⟩
        rw [List.cons_append]
        apply List.cons_subset_cons
        rw [List.append_subset]
        use List.subset_append_left w _
        exact fun m hm => List.mem_append_right w (List.mem_cons_of_mem a hm)
  · -- the reader is behind the new cell
    exact ⟨v, ⟨⟨l₁ ++ a :: w, by simp⟩, rfl⟩, List.Subset.refl v⟩

/-- What is left to be read but for the cell that is linked in. -/
theorem At.remove (h : At (l₁ ++ a :: l₂) (some x) v) (hx : x ≠ a) :
  ∃ v', At (l₁ ++ l₂) (some x) v' ∧ ∀ m ∈ v, m ≠ a → m ∈ v'
  := by
  obtain ⟨⟨u, hu⟩, hhead⟩ := h
  obtain ⟨w, rfl, rfl⟩ | ⟨w, rfl, hw⟩ := List.append_eq_append_iff.mp hu
  · cases w with
    | nil => exact absurd (Option.some.inj hhead) hx
    | cons b w =>
        refine ⟨b :: (w ++ l₂), ⟨⟨u, by simp⟩, hhead⟩, ?_⟩
        intro m hm hne
        simpa [hne] using hm
  · cases w with
    | nil =>
        rw [List.nil_append] at hw
        rw [← hw] at hhead
        exact absurd (Option.some.inj hhead) hx
    | cons b w =>
        obtain ⟨-, rfl⟩ := List.cons.inj hw
        exact ⟨v, ⟨⟨l₁ ++ w, by simp⟩, hhead⟩, fun m hm _ => hm⟩

/-- The cell `a` is being linked in between `l₁` and `l₂`: the cells of `rest` have their old links, and
the others the new ones. -/
structure Splice (next : α → Option α) (l₁ : List α) (a : α) (l₂ rest : List α) : Prop where
  nodup : (l₁ ++ a :: l₂).Nodup
  suffix : rest <:+ l₁ ++ a :: l₂
  link : ∀ x ∈ l₁ ++ a :: l₂, Follows (l₁ ++ a :: l₂) x (next x) ∨
    x ∈ rest ∧ (x = a ∧ next x = (l₁ ++ l₂).head? ∨ x ≠ a ∧ Follows (l₁ ++ l₂) x (next x))

/-- No link has been written yet. -/
theorem Linked.splice (h : Linked next p (l₁ ++ l₂)) (ha : next a = (l₁ ++ l₂).head?)
    (hnodup : (l₁ ++ a :: l₂).Nodup) :
  Splice next l₁ a l₂ (l₁ ++ a :: l₂)
  where
  nodup := hnodup
  suffix := List.suffix_rfl
  link := by
    intro x hx
    right
    use hx
    by_cases hxa : x = a
    · rw [hxa]
      exact Or.inl ⟨rfl, ha⟩
    · right
      refine ⟨hxa, h.follows ?_⟩
      simpa [hxa] using hx

/-- A link is written. -/
theorem Splice.write [DecidableEq α] (h : Splice next l₁ a l₂ (x :: rest)) :
  Splice (Function.update next x rest.head?) l₁ a l₂ rest
  where
  nodup := h.nodup
  suffix := (List.suffix_cons x rest).trans h.suffix
  link := by
    intro y hy
    by_cases hyx : y = x
    · rw [hyx, Function.update_self]
      obtain ⟨u, hu⟩ := h.suffix
      exact Or.inl ⟨u, rest, hu.symm, rfl⟩
    · rw [Function.update_of_ne hyx]
      obtain hnew | ⟨hrest, hold⟩ := h.link y hy
      · exact Or.inl hnew
      · exact Or.inr ⟨(List.mem_cons.mp hrest).resolve_left hyx, hold⟩

theorem Splice.linked (h : Splice next l₁ a l₂ []) :
  Linked next (l₁ ++ a :: l₂).head? (l₁ ++ a :: l₂)
  := by
  apply linked_of_follows h.nodup
  intro x hx
  obtain hnew | ⟨hrest, -⟩ := h.link x hx
  · exact hnew
  · cases hrest

/-- **A reader misses nothing**: what is left to be read after a step is what was left before, but for
the cell that has been read and the one that is linked in. -/
theorem Splice.exists_suffix (h : Splice next l₁ a l₂ rest) (hv : At (l₁ ++ a :: l₂) (some x) v) :
  ∃ v', At (l₁ ++ a :: l₂) (next x) v' ∧ ∀ m ∈ v, m ≠ x → m ≠ a → m ∈ v'
  := by
  have hx : x ∈ l₁ ++ a :: l₂ := by
    apply hv.suffix.mem
    apply List.mem_of_mem_head?
    rw [← hv.head, Option.mem_some_iff]
  have hold : (l₁ ++ l₂).Nodup := (List.nodup_cons.mp (List.nodup_middle.mp h.nodup)).2
  obtain hnew | ⟨-, ⟨hxa, hlink⟩ | ⟨hxa, hlink⟩⟩ := h.link x hx
  · obtain ⟨v', rfl, hv'⟩ := hv.follow h.nodup hnew
    refine ⟨v', hv', ?_⟩
    intro m hm hne _
    exact (List.mem_cons.mp hm).resolve_left hne
  · -- from the new cell the reader goes back to the start
    obtain ⟨v', hv', hsub⟩ := (at_head (l := l₁ ++ l₂)).insert (a := a)
    rw [hlink]
    refine ⟨v', hv', ?_⟩
    intro m hm _ hne
    apply hsub
    simpa [hne] using hv.suffix.mem hm
  · obtain ⟨w, hw, hkept⟩ := hv.remove hxa
    obtain ⟨w', rfl, hw'⟩ := hw.follow hold hlink
    obtain ⟨v', hv', hsub⟩ := hw'.insert (a := a)
    refine ⟨v', hv', ?_⟩
    intro m hm hne hma
    exact hsub ((List.mem_cons.mp (hkept m hm hma)).resolve_left hne)

/-- A list that has been permuted with one new cell, and in which the old cells are in their order. -/
theorem exists_insert {l' : List α} (hperm : l'.Perm (a :: l)) (hsub : l.Sublist l') :
  ∃ l₁ l₂, l = l₁ ++ l₂ ∧ l' = l₁ ++ a :: l₂
  := by
  induction hsub with
  | slnil => exact absurd hperm.length_eq (by simp)
  | @cons l l' b hsub _ =>
      have hlen : l.length = l'.length := by simpa using hperm.length_eq.symm
      obtain rfl := hsub.eq_of_length hlen
      have hba : b = a := by
        have hsingle : [b].Perm [a] := (List.perm_append_right_iff l).mp hperm
        exact List.singleton_perm_singleton.mp hsingle
      rw [hba]
      exact ⟨[], l, rfl, rfl⟩
  | @cons_cons l l' b hsub ih =>
      have hrest : l'.Perm (a :: l) := (hperm.trans (List.Perm.swap b a l)).cons_inv
      obtain ⟨l₁, l₂, rfl, rfl⟩ := ih hrest
      exact ⟨b :: l₁, l₂, rfl, rfl⟩

end LinkedList
