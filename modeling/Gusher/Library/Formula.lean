import Mathlib.Order.WellFounded
import Mathlib.Tactic.Common

/-!
# Formulas

A formula computes the value of a key from the values of other keys, which it asks for one after
the other: what it asks for next may depend on the answers so far.  When the formulas of a family
ask for smaller keys only, every key has a value, the one obtained by computing everything from
scratch, and this value depends only on the formulas of the keys it is computed from.
-/

/-- A formula over the keys `K` with the values `V`: it is done, or needs the value of a key. -/
inductive Formula (K V : Type*) where
  | ret (v : V)
  | need (k : K) (cont : V → Formula K V)

namespace Formula

variable {K V : Type*}

/-- What a formula computes when the values of the keys are given. -/
def eval (f : K → V) : Formula K V → V
  | ret v => v
  | need k cont => (cont (f k)).eval f

/-- A formula asks for keys in `S` only, whatever the answers are. -/
def Within (S : K → Prop) : Formula K V → Prop
  | ret _ => True
  | need k cont => S k ∧ ∀ v, (cont v).Within S

/-- A formula that asks for keys in `S` asks for keys in a larger set. -/
theorem Within.mono {S T : K → Prop} (h : ∀ k, S k → T k) {t : Formula K V}
    (ht : t.Within S) :
  t.Within T
  := by
  induction t with
  | ret v => trivial
  | need k cont ih => exact ⟨h k ht.1, fun v => ih v (ht.2 v)⟩

/-- A formula depends only on the values that it asks for. -/
theorem eval_congr {S : K → Prop} {t : Formula K V} (ht : t.Within S) {f g : K → V}
    (h : ∀ k, S k → f k = g k) :
  t.eval f = t.eval g
  := by
  induction t with
  | ret v => rfl
  | need k cont ih =>
      rw [eval, eval, h k ht.1]
      apply ih _ (ht.2 _)

section Value

variable [LT K] [WellFoundedLT K] [Inhabited V]

open Classical in
/-- The value of a key, computed from scratch.  A key that is not below the one that asks for it
has the default value. -/
noncomputable def value (formulas : K → Formula K V) : K → V :=
  wellFounded_lt.fix (fun k below =>
    (formulas k).eval (fun j => if h : j < k then below j h else default))

/-- A key whose formula asks for smaller keys has the value that its formula computes from their
values. -/
theorem value_eq {formulas : K → Formula K V} {k : K} (h : (formulas k).Within (· < k)) :
  value formulas k = (formulas k).eval (value formulas)
  := by
  rw [value, WellFounded.fix_eq]
  apply eval_congr h
  intro j hj
  rw [dif_pos hj]

/-- The value of a key depends only on the formulas of the keys in a set that contains, with a key,
all keys that its formula asks for. -/
theorem value_congr {formulas formulas' : K → Formula K V} {S : K → Prop}
    (hwithin : ∀ k, S k → (formulas k).Within (fun j => S j ∧ j < k))
    (hformulas : ∀ k, S k → formulas' k = formulas k) {k : K} (hk : S k) :
  value formulas' k = value formulas k
  := by
  induction k using WellFoundedLT.induction with
  | ind k ih =>
  have hbelow : (formulas k).Within (· < k) := (hwithin k hk).mono (fun j hj => hj.2)
  rw [value_eq hbelow, value_eq (by rwa [hformulas k hk]), hformulas k hk]
  apply eval_congr (hwithin k hk)
  rintro j ⟨hj, hlt⟩
  apply ih j hlt hj

end Value

end Formula
