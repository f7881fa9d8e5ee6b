import Gusher.Library.CString
import Mathlib.Algebra.Group.Int.Defs

/-!
# Checked accesses to a block of memory

A block is the list of its bytes, and a position in it is an index, which may have become
negative.  An access outside the block gives `none`, and so does a string function that does not
meet a terminator inside.  A search that fails gives the null pointer, which is an inner `none`.
-/

namespace Memory

open CString

/-- `m[i]` -/
def load (m : List UInt8) (i : ℤ) : Option UInt8 :=
  if i < 0 then none else m[i.toNat]?

/-- `m[i] = c` -/
def store (m : List UInt8) (i : ℤ) (c : UInt8) : Option (List UInt8) :=
  if 0 ≤ i ∧ i < m.length then some (m.set i.toNat c) else none

/-- Stores bytes one after the other, from the position `i` on. -/
def copy (m : List UInt8) (i : ℤ) : List UInt8 → Option (List UInt8)
  | [] => some m
  | c :: s => (store m i c).bind (fun m => copy m (i + 1) s)

/-- The `n` bytes from the position `i` on. -/
def bytes (m : List UInt8) (i n : ℕ) : Option (List UInt8) :=
  if i + n ≤ m.length then some ((m.drop i).take n) else none

/-- The string at the position `i`. -/
def string (m : List UInt8) (i : ℕ) : Option (List UInt8) :=
  if (0 : UInt8) ∈ m.drop i then some (cstr (m.drop i)) else none

/-- The search of `index`, which stops at `c` or at the terminator. -/
def scan (c : UInt8) : List UInt8 → ℕ → Option (Option ℕ)
  | [], _ => none
  | b :: s, i => if b = c then some (some i) else if b = 0 then some none else scan c s (i + 1)

/-- `index(&m[i], c)`: the position of the first `c`, or the null pointer. -/
def index (m : List UInt8) (i : ℕ) (c : UInt8) : Option (Option ℕ) :=
  scan c (m.drop i) i

/-- `strcpy(&m[i], s)` -/
def strcpy (m : List UInt8) (i : ℤ) (s : List UInt8) : Option (List UInt8) :=
  copy m i (s ++ [0])

/-- `strcat(m, s)` -/
def strcat (m s : List UInt8) : Option (List UInt8) :=
  (string m 0).bind (fun x => strcpy m x.length s)

variable {m m' a b s : List UInt8} {c d : UInt8} {i : ℕ} {z : ℤ}

theorem load_eq (hm : m = a ++ c :: b) (hz : z = a.length) :
  load m z = some c
  := by
  rw [load, hm, hz, if_neg (by omega), Int.toNat_natCast,
    List.getElem?_append_right (Nat.le_refl _)]
  simp

theorem store_eq (hm : m = a ++ c :: b) (hz : z = a.length) :
  store m z d = some (a ++ d :: b)
  := by
  rw [store, hm, hz, if_pos, Int.toNat_natCast, List.set_append_right _ _ (Nat.le_refl _)]
  · simp
  · rw [List.length_append, List.length_cons]
    omega

theorem length_store (h : store m z d = some m') :
  m'.length = m.length
  := by
  rw [store, Option.ite_none_right_eq_some] at h
  obtain ⟨-, hm⟩ := h
  rw [← Option.some.inj hm, List.length_set]

/-- The bytes stored take the place of as many others. -/
theorem copy_eq (hm : m = a ++ (s ++ b)) (hz : z = a.length) {x : List UInt8}
    (hx : x.length = s.length) :
  copy m z x = some (a ++ x ++ b)
  := by
  induction x generalizing m a s z with
  | nil =>
      obtain rfl := List.eq_nil_of_length_eq_zero hx.symm
      simp [copy, hm]
  | cons d x ih =>
      cases s with
      | nil => cases hx
      | cons c s =>
          have hstore : store m z d = some (a ++ d :: (s ++ b)) :=
            store_eq (hm.trans (by rw [List.cons_append])) hz
          have hnext : z + 1 = ((a ++ [d]).length : ℕ) := by simp [hz]
          rw [copy, hstore, Option.bind_some,
            ih (List.append_cons a d (s ++ b)) hnext (Nat.succ.inj hx), ← List.append_cons]

theorem copy_append (hz : z = a.length) (h : s.length ≤ b.length) :
  copy (a ++ b) z s = some (a ++ s ++ b.drop s.length)
  := by
  apply copy_eq (s := b.take s.length) (by rw [List.take_append_drop]) hz
  rw [List.length_take, Nat.min_eq_left h]

/-- Bytes that do not fit leave the block. -/
theorem copy_eq_none (hz : z = a.length) (h : b.length < s.length) :
  copy (a ++ b) z s = none
  := by
  induction s generalizing a b z with
  | nil => cases h
  | cons d s ih =>
      cases b with
      | nil =>
          have hstore : store (a ++ []) z d = none := by
            rw [store, if_neg]
            rw [List.append_nil]
            omega
          rw [copy, hstore, Option.bind_none]
      | cons c b =>
          have hnext : z + 1 = ((a ++ [d]).length : ℕ) := by simp [hz]
          rw [copy, store_eq rfl hz, Option.bind_some, List.append_cons]
          exact ih hnext (Nat.lt_of_succ_lt_succ h)

theorem strcpy_append (hz : z = a.length) (h : s.length < b.length) :
  strcpy (a ++ b) z s = some (a ++ s ++ 0 :: b.drop (s.length + 1))
  := by
  have hlen : (s ++ [0]).length = s.length + 1 := List.length_append
  rw [strcpy, copy_append hz (by rw [hlen]; exact h), hlen]
  simp

theorem strcpy_eq_none (hz : z = a.length) (h : b.length ≤ s.length) :
  strcpy (a ++ b) z s = none
  := by
  apply copy_eq_none hz
  rw [List.length_append, List.length_singleton]
  omega

theorem bytes_eq (hm : m = a ++ (s ++ b)) {n : ℕ} (hi : i = a.length) (hn : n = s.length) :
  bytes m i n = some s
  := by
  rw [bytes, hm, hi, hn, if_pos, List.drop_left, List.take_left]
  rw [List.length_append, List.length_append]
  omega

theorem length_bytes {n : ℕ} (h : bytes m i n = some s) :
  s.length = n
  := by
  rw [bytes] at h
  obtain ⟨hle, hs⟩ := Option.ite_none_right_eq_some.mp h
  rw [← Option.some.inj hs, List.length_take, List.length_drop]
  omega

theorem string_eq (hm : m = a ++ (s ++ 0 :: b)) (hi : i = a.length) (hs : (0 : UInt8) ∉ s) :
  string m i = some s
  := by
  rw [string, hm, hi, List.drop_left, if_pos (by simp), cstr_append hs]
  simp [cstr]

theorem strcat_append (ha : (0 : UInt8) ∉ a) (h : s.length ≤ b.length) :
  strcat (a ++ 0 :: b) s = some (a ++ s ++ 0 :: b.drop s.length)
  := by
  have hstring : string (a ++ 0 :: b) 0 = some a := string_eq (a := []) rfl rfl ha
  rw [strcat, hstring, Option.bind_some, strcpy_append rfl (Nat.lt_succ_of_le h)]
  rfl

theorem strcat_eq_none (ha : (0 : UInt8) ∉ a) (h : b.length < s.length) :
  strcat (a ++ 0 :: b) s = none
  := by
  have hstring : string (a ++ 0 :: b) 0 = some a := string_eq (a := []) rfl rfl ha
  rw [strcat, hstring, Option.bind_some]
  exact strcpy_eq_none rfl h

theorem scan_append (hc : c ∉ a) (ha : (0 : UInt8) ∉ a) (s : List UInt8) (i : ℕ) :
  scan c (a ++ s) i = scan c s (i + a.length)
  := by
  induction a generalizing i with
  | nil => simp
  | cons d a ih =>
      simp only [List.mem_cons, not_or] at hc ha
      rw [List.cons_append, scan, if_neg (Ne.symm hc.1), if_neg (Ne.symm ha.1), ih hc.2 ha.2,
        List.length_cons, Nat.add_right_comm, Nat.add_assoc]

/-- What stands before a byte that is found. -/
theorem exists_of_scan {j : ℕ} (h : scan c s i = some (some j)) :
  ∃ x y, s = x ++ c :: y ∧ c ∉ x ∧ (0 : UInt8) ∉ x ∧ j = i + x.length
  := by
  induction s generalizing i with
  | nil => cases h
  | cons d s ih =>
      rw [scan] at h
      split at h
      case isTrue hd =>
          obtain rfl := Option.some.inj (Option.some.inj h)
          exact ⟨[], s, by simp [hd], by simp, by simp, rfl⟩
      case isFalse hd =>
          split at h
          case isTrue => cases h
          case isFalse hnul =>
              obtain ⟨x, y, rfl, hc, hx, rfl⟩ := ih h
              refine ⟨d :: x, y, rfl, ?_, ?_, ?_⟩
              · simp [hc, Ne.symm hd]
              · simp [hx, Ne.symm hnul]
              · rw [List.length_cons]
                omega

/-- A byte that is found lies in the block, and not before the start of the search. -/
theorem le_and_lt_of_index {j : ℕ} (h : index m i c = some (some j)) :
  i ≤ j ∧ j < m.length
  := by
  obtain ⟨x, y, hdrop, -, -, rfl⟩ := exists_of_scan h
  have hlen := congrArg List.length hdrop
  rw [List.length_drop, List.length_append, List.length_cons] at hlen
  omega

theorem index_eq (hm : m = a ++ (s ++ c :: b)) (hi : i = a.length) (hc : c ∉ s)
    (hs : (0 : UInt8) ∉ s) :
  index m i c = some (some (i + s.length))
  := by
  rw [index, hm, hi, List.drop_left, scan_append hc hs, scan, if_pos rfl]

theorem index_eq_null (hm : m = a ++ (s ++ 0 :: b)) (hi : i = a.length) (hc : c ∉ s)
    (hs : (0 : UInt8) ∉ s) (hne : c ≠ 0) :
  index m i c = some none
  := by
  rw [index, hm, hi, List.drop_left, scan_append hc hs, scan, if_neg (Ne.symm hne), if_pos rfl]

end Memory
