import Gusher.Library.OnePass
import Gusher.Request.MultipartText
import Mathlib.Data.Nat.Find

/-!
# Case-insensitive search

The search of the headers of a part goes through the line once and never back.  It finds the
leftmost occurrence exactly if only failed attempts stand before it, so that it does not begin
within one.
-/

namespace Gusher

open CString OnePass

/-- The search on a string compares upper-case letters. -/
theorem findFrom_eq (needle s rest : List UInt8) (i : ℕ) (anchor : Option ℕ) :
  findFrom needle s rest i anchor
    = OnePass.findFrom (needle.map toupper) (s.map toupper) (rest.map toupper) i anchor
  := by
  induction s generalizing rest i anchor with
  | nil =>
      cases rest with
      | nil => rfl
      | cons d rest => rfl
  | cons c s ih =>
      cases rest with
      | nil => rfl
      | cons d rest =>
          rw [findFrom, List.map_cons, List.map_cons, OnePass.findFrom]
          split
          case isTrue => exact ih needle (i + 1) none
          case isFalse => exact ih rest (i + 1) (some (anchor.getD i))

theorem strcasestr_string {s : List UInt8} (hs : (0 : UInt8) ∉ s) (needle : List UInt8) :
  strcasestr (s ++ [0]) 0 needle = some (OnePass.find (needle.map toupper) (s.map toupper))
  := by
  have hfind := strcasestr_eq needle (m := s ++ [0]) (a := []) (b := []) rfl rfl hs
  rw [List.length_nil, find, findFrom_eq] at hfind
  simpa [OnePass.find] using hfind

/-- The needle occurs at the position `p`, up to case. -/
def OccursAt (s needle : List UInt8) (p : ℕ) : Prop :=
  needle.map toupper <+: (s.drop p).map toupper

/-- The leftmost position at which the needle occurs, or none if there is no such position. -/
def Leftmost (s needle : List UInt8) : Option ℕ → Prop
  | some p => OccursAt s needle p ∧ ∀ q < p, ¬ OccursAt s needle q
  | none => ∀ p, ¬ OccursAt s needle p

/-- The search in the string `s` gives the leftmost position. -/
def FindsLeftmost (s needle : List UInt8) : Prop :=
  ∃ result, strcasestr (s ++ [0]) 0 needle = some result ∧ Leftmost s needle result

/-- There is only one leftmost position. -/
theorem Leftmost.unique {s needle : List UInt8} {r r' : Option ℕ} (h : Leftmost s needle r)
    (h' : Leftmost s needle r') :
  r = r'
  := by
  cases r with
  | none =>
      cases r' with
      | none => rfl
      | some q => exact absurd h'.1 (h q)
  | some p =>
      cases r' with
      | none => exact absurd h.1 (h' p)
      | some q =>
          obtain hlt | heq | hgt := Nat.lt_trichotomy p q
          · exact absurd h.1 (h'.2 p hlt)
          · rw [heq]
          · exact absurd h'.1 (h.2 q hgt)

/-- The leftmost position lies in the string. -/
theorem Leftmost.le_length {s needle : List UInt8} {p : ℕ} (h : Leftmost s needle (some p)) :
  p ≤ s.length
  := by
  by_contra hlt
  have hend : OccursAt s needle s.length := by
    have hoccurs := h.1
    unfold OccursAt at hoccurs ⊢
    rw [List.drop_eq_nil_of_le (by omega)] at hoccurs
    rw [List.drop_length]
    apply hoccurs
  exact h.2 s.length (by omega) hend

/-- There is a leftmost position, or none. -/
theorem exists_leftmost (s needle : List UInt8) :
  ∃ result, Leftmost s needle result
  := by
  classical
  by_cases h : ∃ p, OccursAt s needle p
  · exact ⟨some (Nat.find h), Nat.find_spec h, fun q hq => Nat.find_min h hq⟩
  · exact ⟨none, fun p hp => h ⟨p, hp⟩⟩

/-- What the search finds is the place of an occurrence. -/
theorem occursAt_of_find {s needle : List UInt8} {p : ℕ}
    (h : OnePass.find (needle.map toupper) (s.map toupper) = some p) :
  OccursAt s needle p ∧ Attempts (needle.map toupper) ((s.take p).map toupper)
  := by
  obtain ⟨a, b, hsplit, rfl, ha, hb⟩ := find_eq_some_iff.mp h
  have htake : (s.take a.length).map toupper = a := by
    rw [List.map_take, hsplit, List.take_left]
  have hdrop : (s.drop a.length).map toupper = b := by
    rw [List.map_drop, hsplit, List.drop_left]
  rw [OccursAt, htake, hdrop]
  exact ⟨hb, ha⟩

/-- **Case-insensitive search.**  The search stays in the string and gives the leftmost position
exactly if failed attempts alone stand before that position. -/
theorem finds_leftmost_iff {s : List UInt8} (hs : (0 : UInt8) ∉ s) (needle : List UInt8) :
  FindsLeftmost s needle
    ↔ ∀ p, Leftmost s needle (some p) →
        Attempts (needle.map toupper) ((s.take p).map toupper)
  := by
  have hsearch := strcasestr_string hs needle
  constructor
  · rintro ⟨result, hresult, hleft⟩ p hp
    obtain rfl := hp.unique hleft
    rw [hsearch] at hresult
    apply (occursAt_of_find (Option.some.inj hresult)).2
  · intro h
    obtain ⟨result, hleft⟩ := exists_leftmost s needle
    refine ⟨result, ?_, hleft⟩
    rw [hsearch]
    congr 1
    cases result with
    | none =>
        cases hfind : OnePass.find (needle.map toupper) (s.map toupper) with
        | none => rfl
        | some p => exact absurd (occursAt_of_find hfind).1 (hleft p)
    | some p =>
        apply find_eq_some_iff.mpr
        refine ⟨(s.take p).map toupper, (s.drop p).map toupper, ?_, ?_, h p hleft, hleft.1⟩
        · rw [← List.map_append, List.take_append_drop]
        · rw [List.length_map, List.length_take, Nat.min_eq_left hleft.le_length]

/-- Two attempts fail before the occurrence. -/
theorem finds_leftmost_parameter :
  FindsLeftmost (ascii "a;b; Name") (ascii "; name")
  := by
  apply (finds_leftmost_iff (by decide) (ascii "; name")).mpr
  intro p hp
  have hthree : Leftmost (ascii "a;b; Name") (ascii "; name") (some 3) := by
    unfold Leftmost OccursAt
    decide
  obtain rfl := Option.some.inj (hp.unique hthree)
  have hfail : Attempts (ascii "; NAME") ([] ++ 65 :: ([59] ++ 66 :: [])) :=
    .cons rfl (by decide) (.cons rfl (by decide) .nil)
  apply hfail

/-- The occurrence begins at the byte at which the first attempt fails, and is not found. -/
theorem finds_leftmost_missed :
  strcasestr (ascii "aab" ++ [0]) 0 (ascii "ab") = some none ∧
    OccursAt (ascii "aab") (ascii "ab") 1 ∧ ¬ FindsLeftmost (ascii "aab") (ascii "ab")
  := by
  have hsearch : strcasestr (ascii "aab" ++ [0]) 0 (ascii "ab") = some none :=
    strcasestr_string (by decide) (ascii "ab")
  have hoccurs : OccursAt (ascii "aab") (ascii "ab") 1 := by
    unfold OccursAt
    decide
  refine ⟨hsearch, hoccurs, ?_⟩
  rintro ⟨result, hresult, hleft⟩
  rw [hsearch] at hresult
  obtain rfl := Option.some.inj hresult
  apply hleft 1 hoccurs

end Gusher
