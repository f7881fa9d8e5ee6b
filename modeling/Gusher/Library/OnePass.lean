import Mathlib.Data.List.Infix
import Mathlib.Tactic.Common

/-!
# A search in one pass

A search for the list `m` that never goes back: after an attempt that fails, the next one begins
behind the element at which it failed.  It finds the first place that comes after failed attempts
only, and so it misses an occurrence that begins within a failed attempt.
-/

namespace OnePass

variable {α : Type*} [DecidableEq α]

/-- The search for `m` from the position `i` on; `rest` is what is left of `m` in the attempt that
is being made, and `anchor` the place where it began. -/
def findFrom (m : List α) : List α → List α → ℕ → Option ℕ → Option ℕ
  | _, [], _, anchor => anchor
  | [], _ :: _, _, _ => none
  | c :: s, d :: rest, i, anchor =>
      if c ≠ d then findFrom m s m (i + 1) none
      else findFrom m s rest (i + 1) (some (anchor.getD i))

/-- The list consists of failed attempts: each is a beginning of `m` with an element that does not
continue it. -/
inductive Attempts (m : List α) : List α → Prop
  | nil : Attempts m []
  | cons {w y a : List α} {c d : α} (hm : m = w ++ d :: y) (hne : c ≠ d) (ha : Attempts m a) :
      Attempts m (w ++ c :: a)

variable {m s a : List α}

/-- A list starts with `m`, or it ends within an attempt, or an attempt fails in it. -/
theorem attempt_cases (m s : List α) :
  m <+: s ∨ (∃ d y, m = s ++ d :: y)
    ∨ ∃ w y t c d, m = w ++ d :: y ∧ s = w ++ c :: t ∧ c ≠ d
  := by
  induction m generalizing s with
  | nil => exact Or.inl List.nil_prefix
  | cons d m ih =>
      cases s with
      | nil => exact Or.inr (Or.inl ⟨d, m, rfl⟩)
      | cons c s =>
          by_cases hcd : c = d
          · subst hcd
            obtain hprefix | ⟨e, y, rfl⟩ | ⟨w, y, t, e, f, rfl, rfl, hne⟩ := ih s
            · exact Or.inl (List.cons_prefix_cons.mpr ⟨rfl, hprefix⟩)
            · exact Or.inr (Or.inl ⟨e, y, rfl⟩)
            · exact Or.inr (Or.inr ⟨c :: w, y, t, e, f, rfl, rfl, hne⟩)
          · exact Or.inr (Or.inr ⟨[], m, s, c, d, rfl, rfl, hcd⟩)

section Attempt

variable {i : ℕ} {anchor : Option ℕ}

theorem findFrom_append_some (m w s rest : List α) (i j : ℕ) :
  findFrom m (w ++ s) (w ++ rest) i (some j) = findFrom m s rest (i + w.length) (some j)
  := by
  induction w generalizing i with
  | nil => rfl
  | cons c w ih =>
      rw [List.cons_append, List.cons_append, findFrom, if_neg (not_not.mpr rfl), Option.getD_some,
        ih, List.length_cons, Nat.add_right_comm, Nat.add_assoc]

/-- An attempt goes on, and where it began is recorded with its first element. -/
theorem findFrom_append (m w s rest : List α) (i : ℕ) (anchor : Option ℕ) :
  findFrom m (w ++ s) (w ++ rest) i anchor
    = findFrom m s rest (i + w.length) (if w = [] then anchor else some (anchor.getD i))
  := by
  cases w with
  | nil => rfl
  | cons c w =>
      rw [List.cons_append, List.cons_append, findFrom, if_neg (not_not.mpr rfl),
        findFrom_append_some, if_neg (List.cons_ne_nil c w), List.length_cons, Nat.add_right_comm,
        Nat.add_assoc]

theorem findFrom_success (hm : m ≠ []) (h : m <+: s) (hanchor : anchor.getD i = i) :
  findFrom m s m i anchor = some i
  := by
  obtain ⟨t, rfl⟩ := h
  have happend := findFrom_append m m t [] i anchor
  rw [List.append_nil] at happend
  rw [happend, if_neg hm, hanchor]
  cases t <;> rfl

theorem findFrom_of_end {d : α} {y : List α} (hm : m = s ++ d :: y) :
  findFrom m s m i anchor = none
  := by
  have happend := findFrom_append m s [] (d :: y) i anchor
  rw [List.append_nil, ← hm] at happend
  rw [happend]
  rfl

/-- After an attempt that fails, the next one begins behind the element at which it failed. -/
theorem findFrom_of_ne {w y t : List α} {c d : α} (hm : m = w ++ d :: y) (hne : c ≠ d) :
  findFrom m (w ++ c :: t) m i anchor = findFrom m t m (i + (w.length + 1)) none
  := by
  have happend := findFrom_append m w (c :: t) (d :: y) i anchor
  rw [← hm] at happend
  rw [happend, findFrom, if_pos hne, Nat.add_assoc]

end Attempt

/-- What is found is an occurrence that comes after failed attempts only. -/
theorem exists_of_findFrom {i p : ℕ} {anchor : Option ℕ} (hm : m ≠ [])
    (hanchor : anchor.getD i = i) (h : findFrom m s m i anchor = some p) :
  ∃ a b, s = a ++ b ∧ p = i + a.length ∧ Attempts m a ∧ m <+: b
  := by
  induction hn : s.length using Nat.strong_induction_on generalizing s i anchor with
  | _ n ih =>
      obtain hprefix | ⟨d, y, hend⟩ | ⟨w, y, t, c, d, hsplit, rfl, hne⟩ := attempt_cases m s
      · rw [findFrom_success hm hprefix hanchor] at h
        obtain rfl := Option.some.inj h
        exact ⟨[], s, rfl, rfl, .nil, hprefix⟩
      · rw [findFrom_of_end hend] at h
        cases h
      · rw [findFrom_of_ne hsplit hne] at h
        have hlt : t.length < n := by
          rw [← hn, List.length_append, List.length_cons]
          omega
        obtain ⟨a, b, rfl, rfl, ha, hb⟩ := ih t.length hlt rfl h rfl
        refine ⟨w ++ c :: a, b, by simp, ?_, .cons hsplit hne ha, hb⟩
        rw [List.length_append, List.length_cons]
        omega

/-- An occurrence that comes after failed attempts only is found. -/
theorem findFrom_of_attempts {b : List α} {i : ℕ} {anchor : Option ℕ} (hm : m ≠ [])
    (hanchor : anchor.getD i = i) (ha : Attempts m a) (hb : m <+: b) :
  findFrom m (a ++ b) m i anchor = some (i + a.length)
  := by
  induction ha generalizing i anchor with
  | nil => exact findFrom_success hm hb hanchor
  | @cons w y a c d hsplit hne _ ih =>
      rw [List.append_assoc, List.cons_append, findFrom_of_ne hsplit hne, ih rfl, List.length_append,
        List.length_cons]
      congr 1
      omega

/-- The search from the beginning of a list. -/
def find (m s : List α) : Option ℕ :=
  findFrom m s m 0 (some 0)

/-- The place found is that of an occurrence after failed attempts only. -/
theorem find_eq_some_iff {p : ℕ} :
  find m s = some p ↔ ∃ a b, s = a ++ b ∧ p = a.length ∧ Attempts m a ∧ m <+: b
  := by
  by_cases hm : m = []
  · subst hm
    have hfind : find [] s = some 0 := by
      unfold find
      cases s <;> rfl
    rw [hfind]
    constructor
    · intro h
      obtain rfl := Option.some.inj h
      exact ⟨[], s, rfl, rfl, .nil, List.nil_prefix⟩
    · rintro ⟨a, b, -, rfl, ha, -⟩
      cases ha with
      | nil => rfl
      | @cons w y a c d hsplit => cases w <;> cases hsplit
  · constructor
    · intro h
      obtain ⟨a, b, rfl, rfl, ha, hb⟩ := exists_of_findFrom hm rfl h
      exact ⟨a, b, rfl, Nat.zero_add _, ha, hb⟩
    · rintro ⟨a, b, rfl, rfl, ha, hb⟩
      rw [find, findFrom_of_attempts hm rfl ha hb, Nat.zero_add]

end OnePass
