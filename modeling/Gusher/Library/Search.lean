import Mathlib.Data.List.Infix
import Mathlib.Tactic.Common

/-!
# Searching a list from the left

`first p s` splits `s` at the first place from which on the rest satisfies `p`.  A search for a
given sublist, as `strstr` makes it, looks for the first place where the rest starts with it.
-/

namespace Search

variable {α : Type*} {p : List α → Bool} {s a b : List α}

/-- The parts before and from the first place where the rest satisfies `p`. -/
def first (p : List α → Bool) : List α → Option (List α × List α)
  | [] => if p [] then some ([], []) else none
  | c :: s => if p (c :: s) then some ([], c :: s) else (first p s).map (fun x => (c :: x.1, x.2))

theorem first_of_pos (h : p s = true) :
  first p s = some ([], s)
  := by
  cases s with
  | nil => rw [first, if_pos h]
  | cons c s => rw [first, if_pos h]

theorem first_cons_of_neg {c : α} (h : p (c :: s) = false) :
  first p (c :: s) = (first p s).map (fun x => (c :: x.1, x.2))
  := by
  rw [first, if_neg (by simp [h])]

/-- The place found, and no place before it, satisfies the condition. -/
theorem first_eq_some_iff :
  first p s = some (a, b)
    ↔ s = a ++ b ∧ p b = true ∧ ∀ x y, s = x ++ y → p y = true → a.length ≤ x.length
  := by
  induction s generalizing a with
  | nil =>
      rw [first]
      constructor
      · intro h
        split at h
        case isTrue hp =>
            obtain ⟨rfl, rfl⟩ := Prod.mk.inj (Option.some.inj h)
            exact ⟨rfl, hp, fun x _ _ _ => Nat.zero_le x.length⟩
        case isFalse => cases h
      · rintro ⟨hab, hp, -⟩
        obtain ⟨rfl, rfl⟩ := List.append_eq_nil_iff.mp hab.symm
        rw [if_pos hp]
  | cons c s ih =>
      by_cases hp : p (c :: s) = true
      · rw [first_of_pos hp]
        constructor
        · intro h
          obtain ⟨rfl, rfl⟩ := Prod.mk.inj (Option.some.inj h)
          exact ⟨rfl, hp, fun x _ _ _ => Nat.zero_le x.length⟩
        · rintro ⟨hab, -, hfirst⟩
          have ha : a = [] := by
            apply List.eq_nil_of_length_eq_zero
            apply Nat.le_zero.mp
            exact hfirst [] (c :: s) rfl hp
          subst ha
          rw [hab, List.nil_append]
      · have hfalse : p (c :: s) = false := by simpa using hp
        rw [first_cons_of_neg hfalse, Option.map_eq_some_iff]
        constructor
        · rintro ⟨⟨x, y⟩, hxy, heq⟩
          obtain ⟨rfl, rfl⟩ := Prod.mk.inj heq
          obtain ⟨rfl, hpy, hfirst⟩ := ih.mp hxy
          refine ⟨rfl, hpy, ?_⟩
          intro u v huv hv
          cases u with
          | nil =>
              rw [List.nil_append] at huv
              rw [← huv, hfalse] at hv
              cases hv
          | cons d u =>
              obtain ⟨-, htail⟩ := List.cons.inj huv
              exact Nat.succ_le_succ (hfirst u v htail hv)
        · rintro ⟨hab, hpb, hfirst⟩
          cases a with
          | nil =>
              rw [List.nil_append] at hab
              rw [← hab, hfalse] at hpb
              cases hpb
          | cons d a =>
              obtain ⟨rfl, rfl⟩ := List.cons.inj hab
              refine ⟨(a, b), ih.mpr ⟨rfl, hpb, ?_⟩, rfl⟩
              intro x y hxy hy
              have hle := hfirst (c :: x) y (by rw [hxy, List.cons_append]) hy
              exact Nat.le_of_succ_le_succ hle

/-- Nothing is found when no place satisfies the condition. -/
theorem first_eq_none_iff :
  first p s = none ↔ ∀ x y, s = x ++ y → p y = false
  := by
  induction s with
  | nil =>
      rw [first]
      constructor
      · intro h x y hxy
        obtain ⟨rfl, rfl⟩ := List.append_eq_nil_iff.mp hxy.symm
        split at h
        case isTrue => cases h
        case isFalse hp => simpa using hp
      · intro h
        rw [if_neg (by simp [h [] [] rfl])]
  | cons c s ih =>
      constructor
      · intro h x y hxy
        have hp : p (c :: s) = false := by
          by_contra hne
          rw [first_of_pos (by simpa using hne)] at h
          cases h
        cases x with
        | nil =>
            rw [List.nil_append] at hxy
            rw [← hxy, hp]
        | cons d x =>
            obtain ⟨-, htail⟩ := List.cons.inj hxy
            rw [first_cons_of_neg hp, Option.map_eq_none_iff] at h
            exact ih.mp h x y htail
      · intro h
        rw [first_cons_of_neg (h [] (c :: s) rfl), Option.map_eq_none_iff]
        apply ih.mpr
        intro x y hxy
        exact h (c :: x) y (by rw [hxy, List.cons_append])

/-- What is passed before the place found can be put in front of any list that is searched. -/
theorem first_append (h : ∀ x y, a = x ++ y → y ≠ [] → p (y ++ s) = false) :
  first p (a ++ s) = (first p s).map (fun x => (a ++ x.1, x.2))
  := by
  induction a with
  | nil => simp
  | cons c a ih =>
      have hc := h [] (c :: a) rfl (List.cons_ne_nil c a)
      rw [List.cons_append] at hc ⊢
      rw [first_cons_of_neg hc, ih, Option.map_map]
      · rfl
      · intro x y hxy hy
        exact h (c :: x) y (by rw [hxy, List.cons_append]) hy

/-- An occurrence of a list that starts with `c` does not start in a part without `c`. -/
theorem infix_append_iff {m : List α} {c : α} (ha : c ∉ a) :
  c :: m <:+: a ++ s ↔ c :: m <:+: s
  := by
  constructor
  · intro h
    induction a with
    | nil => exact h
    | cons d a ih =>
        simp only [List.mem_cons, not_or] at ha
        rw [List.cons_append, List.infix_cons_iff] at h
        obtain hprefix | hinfix := h
        · exact absurd (List.cons_prefix_cons.mp hprefix).1 ha.1
        · exact ih ha.2 hinfix
  · intro h
    exact h.trans (List.suffix_append a s).isInfix

section Sublist

variable [DecidableEq α] {m : List α}

/-- `strstr(s, m)`: the parts of `s` before and from the first occurrence of `m`. -/
def strstr (s m : List α) : Option (List α × List α) :=
  first (fun y => m.isPrefixOf y) s

/-- The first occurrence of `m` comes after `a`. -/
theorem strstr_eq_some_iff :
  strstr s m = some (a, b)
    ↔ s = a ++ b ∧ m <+: b ∧ ∀ x y, s = x ++ y → m <+: y → a.length ≤ x.length
  := by
  simp only [strstr, first_eq_some_iff, List.isPrefixOf_iff_prefix]

/-- There is no occurrence of `m`. -/
theorem strstr_eq_none_iff :
  strstr s m = none ↔ ¬ m <:+: s
  := by
  simp only [strstr, first_eq_none_iff]
  constructor
  · rintro h ⟨x, z, rfl⟩
    have hfalse := h x (m ++ z) (List.append_assoc x m z)
    rw [List.isPrefixOf_iff_prefix.mpr (List.prefix_append m z)] at hfalse
    cases hfalse
  · intro h x y hxy
    rw [Bool.eq_false_iff, Ne, List.isPrefixOf_iff_prefix]
    rintro ⟨z, rfl⟩
    apply h
    exact ⟨x, z, by rw [hxy, List.append_assoc]⟩

theorem strstr_of_length_lt (h : s.length < m.length) :
  strstr s m = none
  := by
  rw [strstr_eq_none_iff]
  intro hinfix
  exact Nat.not_lt.mpr hinfix.length_le h

theorem strstr_of_prefix (h : m <+: s) :
  strstr s m = some ([], s)
  := first_of_pos (List.isPrefixOf_iff_prefix.mpr h)

/-- Where there is no occurrence at the start, the search goes on. -/
theorem strstr_cons {c : α} (h : ¬ m <+: c :: s) :
  strstr (c :: s) m = (strstr s m).map (fun x => (c :: x.1, x.2))
  := by
  apply first_cons_of_neg
  rw [Bool.eq_false_iff, Ne, List.isPrefixOf_iff_prefix]
  exact h

/-- When the first element of `c :: m` does not occur in the rest, the first occurrence after a list
without one is the one that follows. -/
theorem strstr_append {c : α} (hm : c ∉ m) (ha : ¬ c :: m <:+: a) (s : List α) :
  strstr (a ++ (c :: m ++ s)) (c :: m) = some (a, c :: m ++ s)
  := by
  rw [strstr_eq_some_iff]
  refine ⟨rfl, List.prefix_append _ _, ?_⟩
  intro x y hxy hy
  by_contra hlt
  obtain ⟨v, rfl⟩ : x <+: a := by
    have hx : x <+: a ++ (c :: m ++ s) := ⟨y, hxy.symm⟩
    exact List.prefix_of_prefix_length_le hx (List.prefix_append a _) (by omega)
  rw [List.append_assoc] at hxy
  have hy' := List.append_cancel_left hxy
  obtain hinside | ⟨w, hw⟩ : c :: m <+: v ∨ v <+: c :: m := by
    apply List.prefix_or_prefix_of_prefix hy
    exact ⟨c :: m ++ s, hy'⟩
  · exact ha (hinside.isInfix.trans (List.suffix_append x v).isInfix)
  · -- the occurrence starts in `a` and reaches into the one that follows
    cases v with
    | nil => simp at hlt
    | cons d v =>
        obtain ⟨rfl, hv⟩ := List.cons.inj hw
        cases w with
        | nil =>
            apply ha
            rw [← hw, List.append_nil]
            exact (List.suffix_append x _).isInfix
        | cons e w =>
            obtain ⟨z, rfl⟩ := hy
            rw [← hw, List.append_assoc, List.append_assoc] at hy'
            have hrest := List.append_cancel_left hy'
            obtain ⟨rfl, -⟩ := List.cons.inj hrest
            apply hm
            rw [← hv]
            exact List.mem_append_right v List.mem_cons_self

end Sublist

end Search
