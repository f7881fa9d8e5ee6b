import Mathlib.Data.List.TakeWhile
import Mathlib.Tactic.Common

/-!
# C strings

The part of the C library on strings that works on bytes: a string is the list of the bytes
before its terminator, and a search for a byte gives the parts before and after the place
found.  The character classes are those of the locale "C".
-/

namespace CString

/-- The bytes of an ASCII string literal. -/
def ascii (s : String) : List UInt8 :=
  s.toList.map (fun c => c.toNat.toUInt8)

theorem ascii_append (s t : String) :
  ascii (s ++ t) = ascii s ++ ascii t
  := by simp [ascii, String.toList_append]

theorem ofNat_toUInt8 {c : Char} (h : c.toNat < 256) :
  Char.ofNat c.toNat.toUInt8.toNat = c
  := by
  have hcode : c.toNat.toUInt8.toNat = c.toNat := by
    rw [UInt8.toNat_ofNat']
    exact Nat.mod_eq_of_lt h
  rw [hcode, Char.ofNat_toNat]

/-- All bytes of a list meet a condition, if the test for each of them succeeds. -/
theorem forall_mem_of_all {s : List UInt8} {P : UInt8 → Prop} [DecidablePred P]
    (h : s.all (fun c => P c) = true) :
  ∀ c ∈ s, P c
  := by simpa using h

/-- The end of a line in network protocols. -/
def crlf : List UInt8 := [13, 10]

/-- The string at the start of a piece of memory: the bytes before the first NUL. -/
def cstr (m : List UInt8) : List UInt8 :=
  m.takeWhile (· ≠ 0)

/-- `index(s, c)`: the parts of `s` before and after the first `c`, if there is one. -/
def index (s : List UInt8) (c : UInt8) : Option (List UInt8 × List UInt8) :=
  match s.dropWhile (· ≠ c) with
  | [] => none
  | _ :: rest => some (s.takeWhile (· ≠ c), rest)

def isspace (c : UInt8) : Bool :=
  c = 32 ∨ 9 ≤ c ∧ c ≤ 13

def isupper (c : UInt8) : Bool :=
  65 ≤ c ∧ c ≤ 90

def islower (c : UInt8) : Bool :=
  97 ≤ c ∧ c ≤ 122

def isalpha (c : UInt8) : Bool :=
  isupper c || islower c

def isdigit (c : UInt8) : Bool :=
  48 ≤ c ∧ c ≤ 57

def isxdigit (c : UInt8) : Bool :=
  isdigit c || (65 ≤ c && c ≤ 70) || (97 ≤ c && c ≤ 102)

def tolower (c : UInt8) : UInt8 :=
  if isupper c then c + 32 else c

def toupper (c : UInt8) : UInt8 :=
  if islower c then c - 32 else c

/-- Only a NUL is a NUL in lower case. -/
theorem tolower_ne_zero {c : UInt8} (h : c ≠ 0) :
  tolower c ≠ 0
  := by
  unfold tolower
  split
  case isTrue hupper =>
      rw [isupper, decide_eq_true_iff, UInt8.le_iff_toNat_le, UInt8.le_iff_toNat_le] at hupper
      obtain ⟨-, hhigh⟩ := hupper
      have hhigh' : c.toNat ≤ 90 := hhigh
      intro hzero
      have hsum := congrArg UInt8.toNat hzero
      rw [UInt8.toNat_add] at hsum
      have hoffset : UInt8.toNat 32 = 32 := rfl
      have hnull : UInt8.toNat 0 = 0 := rfl
      rw [hoffset, hnull] at hsum
      omega
  case isFalse => exact h

/-- A byte below the letters is the upper case of no other. -/
theorem eq_of_toupper_eq {c d : UInt8} (hd : d.toNat < 65) (h : toupper c = d) :
  c = d
  := by
  unfold toupper at h
  split at h
  case isTrue hlower =>
      rw [islower, decide_eq_true_iff, UInt8.le_iff_toNat_le, UInt8.le_iff_toNat_le] at hlower
      obtain ⟨hlow, hhigh⟩ := hlower
      have hlow' : 97 ≤ c.toNat := hlow
      have hle : (32 : UInt8) ≤ c := by
        rw [UInt8.le_iff_toNat_le]
        exact Nat.le_trans (by decide) hlow'
      have hdiff := congrArg UInt8.toNat h
      rw [UInt8.toNat_sub_of_le _ _ hle] at hdiff
      have hoffset : UInt8.toNat 32 = 32 := rfl
      rw [hoffset] at hdiff
      omega
  case isFalse => exact h

theorem forall_byte {P : UInt8 → Prop} (h : ∀ n < 256, P (Nat.toUInt8 n)) (c : UInt8) :
  P c
  := by
  have hc := h c.toNat c.toNat_lt
  rwa [Nat.toUInt8, UInt8.ofNat_toNat] at hc

/-- The first `c` of `a ++ c :: b` is the one after `a`, when `c` does not occur in `a`. -/
theorem index_append {a b : List UInt8} {c : UInt8} (h : c ∉ a) :
  index (a ++ c :: b) c = some (a, b)
  := by
  have hall : ∀ x ∈ a, decide (x ≠ c) = true := by
    intro x hx
    rw [decide_eq_true_iff]
    rintro rfl
    exact h hx
  unfold index
  rw [List.dropWhile_append_of_pos hall, List.takeWhile_append_of_pos hall]
  simp

/-- Two ways to split a list are the same, when neither splits it before the other. -/
theorem append_cons_inj {α : Type} {a b x y : List α} {c d : α} (ha : d ∉ a) (hb : c ∉ b)
    (h : a ++ c :: x = b ++ d :: y) :
  a = b ∧ c = d ∧ x = y
  := by
  induction a generalizing b with
  | nil =>
      cases b with
      | nil =>
          obtain ⟨hcd, hxy⟩ := List.cons.inj h
          exact ⟨rfl, hcd, hxy⟩
      | cons e b =>
          obtain ⟨rfl, -⟩ := List.cons.inj h
          exact absurd List.mem_cons_self hb
  | cons e a ih =>
      cases b with
      | nil =>
          obtain ⟨rfl, -⟩ := List.cons.inj h
          exact absurd List.mem_cons_self ha
      | cons f b =>
          obtain ⟨rfl, htail⟩ := List.cons.inj h
          obtain ⟨rfl, hrest⟩ := ih (fun hd => ha (List.mem_cons_of_mem _ hd))
            (fun hc => hb (List.mem_cons_of_mem _ hc)) htail
          exact ⟨rfl, hrest⟩

/-- The parts before and after the first occurrence of a byte. -/
theorem eq_of_index {s a b : List UInt8} {c : UInt8} (h : index s c = some (a, b)) :
  s = a ++ c :: b ∧ c ∉ a
  := by
  unfold index at h
  split at h
  case h_1 => cases h
  case h_2 d rest hdrop =>
      obtain ⟨rfl, rfl⟩ := Prod.mk.inj (Option.some.inj h)
      have hd : d = c := by
        have hne : s.dropWhile (· ≠ c) ≠ [] := by
          rw [hdrop]
          apply List.cons_ne_nil
        have hhead := List.head_dropWhile_not _ hne
        simp only [hdrop, List.head_cons] at hhead
        simpa using hhead
      constructor
      · rw [← hd, ← hdrop, hd, List.takeWhile_append_dropWhile]
      · intro hmem
        have htrue := List.mem_takeWhile_imp hmem
        simp at htrue

/-- A byte that is not found does not occur. -/
theorem notMem_of_index {s : List UInt8} {c : UInt8} (h : index s c = none) :
  c ∉ s
  := by
  unfold index at h
  split at h
  case h_1 hdrop =>
      intro hmem
      have htrue := List.dropWhile_eq_nil_iff.mp hdrop c hmem
      simp at htrue
  case h_2 => cases h

theorem index_eq_none {s : List UInt8} {c : UInt8} (h : c ∉ s) :
  index s c = none
  := by
  cases hindex : index s c with
  | none => rfl
  | some r =>
      obtain ⟨rfl, -⟩ := eq_of_index hindex
      simp at h

/-- What stands before a NUL is a string, and the first NUL ends it. -/
theorem exists_append_zero (a b : List UInt8) :
  ∃ tail, a ++ 0 :: b = cstr a ++ 0 :: tail
  := by
  induction a with
  | nil => exact ⟨b, rfl⟩
  | cons c a ih =>
      by_cases hc : c = 0
      · rw [hc]
        exact ⟨a ++ 0 :: b, by simp [cstr]⟩
      · obtain ⟨tail, htail⟩ := ih
        use tail
        have hcstr : cstr (c :: a) = c :: cstr a := List.takeWhile_cons_of_pos (by simpa using hc)
        rw [List.cons_append, htail, hcstr, List.cons_append]

theorem zero_notMem_cstr (s : List UInt8) :
  (0 : UInt8) ∉ cstr s
  := by
  intro hmem
  have htrue := List.mem_takeWhile_imp hmem
  simp at htrue

theorem cstr_cons {c : UInt8} {s : List UInt8} (h : c ≠ 0) :
  cstr (c :: s) = c :: cstr s
  := List.takeWhile_cons_of_pos (by simpa using h)

theorem cstr_append {a b : List UInt8} (h : (0 : UInt8) ∉ a) :
  cstr (a ++ b) = a ++ cstr b
  := by
  induction a with
  | nil => rfl
  | cons c a ih =>
      simp only [List.mem_cons, not_or] at h
      rw [List.cons_append, cstr_cons (Ne.symm h.1), ih h.2, List.cons_append]

/-- What comes after a NUL does not belong to the string. -/
theorem cstr_append_zero (a b : List UInt8) :
  cstr (a ++ 0 :: b) = cstr a
  := by
  induction a with
  | nil => rfl
  | cons c a ih =>
      by_cases hc : c = 0
      · rw [hc]
        rfl
      · rw [List.cons_append, cstr_cons hc, cstr_cons hc, ih]

theorem cstr_of_not_mem {s : List UInt8} (h : (0 : UInt8) ∉ s) :
  cstr s = s
  := by
  apply List.takeWhile_eq_self_iff.mpr
  intro x hx
  rw [decide_eq_true_iff]
  rintro rfl
  exact h hx

end CString
