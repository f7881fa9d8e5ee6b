import Gusher.Library.Memory
import Gusher.Reply.Send
import Gusher.Scheme.Utf8
import Mathlib.Data.List.DropRight

/-!
# The text of an XML element

`trim_cat` joins the pieces of the text of an element, and cuts the white space off at both ends.
The loop that goes back from the end is stopped by a byte that is no white space only, so that on a
string without such a byte it leaves the string at the front.
-/

namespace Gusher

open CString Memory

/-- The loop from the end: the first byte that it looks at is the one before the position.  The
result is `none` when it reads before the string. -/
def trimBack (buf : List UInt8) : ℕ → Option (List UInt8 × Bool)
  | 0 => none
  | pt + 1 =>
      match buf[pt]? with
      | none => none
      | some c =>
          if isspace c then (trimBack (buf.set pt 0) pt).map (fun r => (r.1, true))
          else some (buf, false)

/-- The loop from the start: what `pt` points at, and whether it has moved. -/
def trimFront : List UInt8 → Option (List UInt8 × Bool)
  | [] => none
  | c :: buf =>
      if c ≠ 0 ∧ isspace c then (trimFront buf).map (fun r => (r.1, true))
      else some (c :: buf, false)

/-- `trim_cat` of the string `joined`, with checked accesses; `none` stands for an access outside
the string, and for an exception. -/
def trimJoined (joined : Text) : Option Text :=
  (toUtf8String (.str joined)).bind (fun s =>
    (trimBack (s ++ [0]) s.length).bind (fun (buf, back) =>
      (trimFront buf).bind (fun (pt, front) =>
        fromUtf8 (cstr (if back || front then pt else buf)))))

def trimCat (list : List Text) : Option Text :=
  trimJoined list.flatten

/-- White space. -/
def isBlank (c : Char) : Bool :=
  c = ' ' ∨ 9 ≤ c.toNat ∧ c.toNat ≤ 13

/-- A text without the white space at both ends. -/
def trim (t : Text) : Text :=
  (t.rdropWhile isBlank).dropWhile isBlank

/-! ### White space in UTF-8 -/

/-- The bytes of a character are white space when the character is. -/
theorem isspace_of_mem {c : Char} {b : UInt8} (hb : b ∈ String.utf8EncodeChar c) :
  isspace b = isBlank c
  := by
  rw [Bool.eq_iff_iff, isspace, isBlank, decide_eq_true_iff, decide_eq_true_iff,
    UInt8.le_iff_toNat_le, UInt8.le_iff_toNat_le, ← UInt8.toNat_inj]
  have hspace : c = ' ' ↔ c.toNat = 32 := by
    constructor
    · rintro rfl
      rfl
    · intro h
      rw [← Char.ofNat_toNat c, h]
  have hcode : b.toNat = c.toNat ∨ 128 ≤ b.toNat ∧ 128 ≤ c.toNat := by
    by_cases hascii : c.toNat < 128
    · left
      rw [utf8EncodeChar_of_ascii hascii, List.mem_singleton] at hb
      rw [hb]
      exact Nat.mod_eq_of_lt (Nat.lt_trans hascii (by decide))
    · right
      exact ⟨le_of_mem_utf8EncodeChar (Nat.not_lt.mp hascii) b hb, Nat.not_lt.mp hascii⟩
  rw [hspace]
  have h9 : UInt8.toNat 9 = 9 := rfl
  have h13 : UInt8.toNat 13 = 13 := rfl
  have h32 : UInt8.toNat 32 = 32 := rfl
  omega

theorem utf8EncodeChar_ne_nil (c : Char) :
  String.utf8EncodeChar c ≠ []
  := by
  intro hnil
  have hlen := String.length_utf8EncodeChar c
  rw [hnil] at hlen
  exact absurd hlen.symm (Nat.ne_of_gt c.utf8Size_pos)

/-- White space at the start of the encoding. -/
theorem dropWhile_encodeUtf8 (t : Text) :
  (encodeUtf8 t).dropWhile isspace = encodeUtf8 (t.dropWhile isBlank)
  := by
  induction t with
  | nil => rfl
  | cons c t ih =>
      rw [encodeUtf8_cons]
      cases hc : isBlank c with
      | true =>
          rw [List.dropWhile_cons_of_pos hc, ← ih]
          apply List.dropWhile_append_of_pos
          intro b hb
          rw [isspace_of_mem hb, hc]
      | false =>
          rw [List.dropWhile_cons_of_neg (by simp [hc]), encodeUtf8_cons]
          obtain ⟨b, bs, hbs⟩ := List.exists_cons_of_ne_nil (utf8EncodeChar_ne_nil c)
          have hb : isspace b = false := by
            rw [isspace_of_mem (c := c) (by rw [hbs]; exact List.mem_cons_self), hc]
          rw [hbs, List.cons_append, List.dropWhile_cons_of_neg (by simp [hb])]

/-- White space at the end of the encoding. -/
theorem rdropWhile_encodeUtf8 (t : Text) :
  (encodeUtf8 t).rdropWhile isspace = encodeUtf8 (t.rdropWhile isBlank)
  := by
  induction t using List.reverseRecOn with
  | nil => rfl
  | append_singleton t c ih =>
      have hsplit : encodeUtf8 (t ++ [c]) = encodeUtf8 t ++ String.utf8EncodeChar c := by
        rw [encodeUtf8_append, encodeUtf8_cons, encodeUtf8_nil, List.append_nil]
      cases hc : isBlank c with
      | true =>
          rw [List.rdropWhile_concat_pos _ _ _ hc, ← ih, hsplit, List.rdropWhile, List.rdropWhile,
            List.reverse_append, List.dropWhile_append_of_pos]
          intro b hb
          rw [isspace_of_mem (List.mem_reverse.mp hb), hc]
      | false =>
          rw [List.rdropWhile_concat_neg _ _ _ (by simp [hc]), hsplit]
          have hlast := List.dropLast_append_getLast (utf8EncodeChar_ne_nil c)
          have hb := isspace_of_mem (List.getLast_mem (utf8EncodeChar_ne_nil c))
          rw [← hlast, ← List.append_assoc, List.rdropWhile_concat_neg _ _ _ (by simp [hb, hc])]

theorem encodeUtf8_trim (t : Text) :
  encodeUtf8 (trim t) = ((encodeUtf8 t).rdropWhile isspace).dropWhile isspace
  := by rw [trim, ← dropWhile_encodeUtf8, ← rdropWhile_encodeUtf8]

/-! ### The loops -/

/-- The loop from the end overwrites the white space behind the last other byte. -/
theorem trimBack_eq {s : List UInt8} (h : ∃ b ∈ s, isspace b = false) (r : List UInt8) :
  ∃ r' back, trimBack (s ++ 0 :: r) s.length = some (s.rdropWhile isspace ++ 0 :: r', back)
  := by
  induction s using List.reverseRecOn generalizing r with
  | nil =>
      obtain ⟨b, hb, -⟩ := h
      cases hb
  | append_singleton s c ih =>
      have hget : (s ++ [c] ++ 0 :: r)[s.length]? = some c := by simp
      have hlen : (s ++ [c]).length = s.length + 1 := List.length_append
      cases hc : isspace c with
      | true =>
          have hs : ∃ b ∈ s, isspace b = false := by
            obtain ⟨b, hb, hspace⟩ := h
            obtain hb | hb := List.mem_append.mp hb
            · exact ⟨b, hb, hspace⟩
            · rw [List.mem_singleton.mp hb, hc] at hspace
              cases hspace
          have hset : (s ++ [c] ++ 0 :: r).set s.length 0 = s ++ 0 :: 0 :: r := by
            rw [List.append_assoc, List.set_append_right _ _ (Nat.le_refl _), Nat.sub_self]
            rfl
          obtain ⟨r', back, htrim⟩ := ih hs (0 :: r)
          refine ⟨r', true, ?_⟩
          rw [hlen, trimBack, hget]
          simp only [hc, if_true]
          rw [hset, htrim, List.rdropWhile_concat_pos _ _ _ hc]
          rfl
      | false =>
          refine ⟨r, false, ?_⟩
          rw [hlen, trimBack, hget]
          simp only [hc]
          rw [List.rdropWhile_concat_neg _ _ _ (by simp [hc])]
          rfl

/-- On white space alone the loop from the end reads before the string. -/
theorem trimBack_of_blank {s : List UInt8} (h : ∀ b ∈ s, isspace b = true) (r : List UInt8) :
  trimBack (s ++ r) s.length = none
  := by
  induction s using List.reverseRecOn generalizing r with
  | nil => rfl
  | append_singleton s c ih =>
      have hget : (s ++ [c] ++ r)[s.length]? = some c := by simp
      have hlen : (s ++ [c]).length = s.length + 1 := List.length_append
      have hc : isspace c = true := h c (by simp)
      have hset : (s ++ [c] ++ r).set s.length 0 = s ++ 0 :: r := by
        rw [List.append_assoc, List.set_append_right _ _ (Nat.le_refl _), Nat.sub_self]
        rfl
      rw [hlen, trimBack, hget]
      simp only [hc, if_true]
      rw [hset, ih (fun b hb => h b (List.mem_append_left _ hb))]
      rfl

/-- The loop from the start passes the white space. -/
theorem trimFront_eq {s : List UInt8} (hs : (0 : UInt8) ∉ s) (r : List UInt8) :
  ∃ front, trimFront (s ++ 0 :: r) = some (s.dropWhile isspace ++ 0 :: r, front) ∧
    (front = false → s.dropWhile isspace = s)
  := by
  induction s with
  | nil => exact ⟨false, rfl, fun _ => rfl⟩
  | cons c s ih =>
      simp only [List.mem_cons, not_or] at hs
      rw [List.cons_append, trimFront]
      cases hc : isspace c with
      | true =>
          obtain ⟨front, htrim, -⟩ := ih hs.2
          refine ⟨true, ?_, by rintro ⟨⟩⟩
          rw [if_pos ⟨Ne.symm hs.1, rfl⟩, htrim, List.dropWhile_cons_of_pos hc]
          rfl
      | false =>
          have hdrop : (c :: s).dropWhile isspace = c :: s :=
            List.dropWhile_cons_of_neg (by simp [hc])
          refine ⟨false, ?_, fun _ => hdrop⟩
          rw [if_neg (by simp), hdrop, List.cons_append]

/-! ### The whole function -/

theorem isspace_encodeUtf8 {t : Text} (h : ∀ c ∈ t, isBlank c = true) :
  ∀ b ∈ encodeUtf8 t, isspace b = true
  := by
  intro b hb
  obtain ⟨c, hc, hmem⟩ := List.mem_flatMap.mp hb
  rw [isspace_of_mem hmem, h c hc]

/-- A character that is no white space has such a byte. -/
theorem exists_not_isspace {t : Text} (h : ∃ c ∈ t, isBlank c = false) :
  ∃ b ∈ encodeUtf8 t, isspace b = false
  := by
  obtain ⟨c, hc, hblank⟩ := h
  obtain ⟨b, bs, hbs⟩ := List.exists_cons_of_ne_nil (utf8EncodeChar_ne_nil c)
  have hb : b ∈ String.utf8EncodeChar c := by
    rw [hbs]
    apply List.mem_cons_self
  exact ⟨b, List.mem_flatMap.mpr ⟨c, hc, hb⟩, by rw [isspace_of_mem hb, hblank]⟩

/-- **Trimming.**  The pieces of a text, which have no NUL, are joined and the white space at both
ends is removed, with no access outside the string, exactly if there is a character that is no white
space. -/
theorem trimCat_eq_iff {list : List Text} (hnul : ∀ t ∈ list, Char.ofNat 0 ∉ t) :
  trimCat list = some (trim list.flatten) ↔ ∃ t ∈ list, ∃ c ∈ t, isBlank c = false
  := by
  have hjoined : Char.ofNat 0 ∉ list.flatten := by
    intro hmem
    obtain ⟨t, ht, hc⟩ := List.mem_flatten.mp hmem
    apply hnul t ht hc
  have hutf8 : toUtf8String (.str list.flatten) = some (encodeUtf8 list.flatten) := if_neg hjoined
  have hexists : (∃ t ∈ list, ∃ c ∈ t, isBlank c = false)
      ↔ ∃ c ∈ list.flatten, isBlank c = false := by
    simp only [List.mem_flatten]
    constructor
    · rintro ⟨t, ht, c, hc, hblank⟩
      exact ⟨c, ⟨t, ht, hc⟩, hblank⟩
    · rintro ⟨c, ⟨t, ht, hc⟩, hblank⟩
      exact ⟨t, ht, c, hc, hblank⟩
  rw [trimCat, trimJoined, hutf8, Option.bind_some, hexists]
  have hzero := zero_notMem_encodeUtf8 hjoined
  generalize list.flatten = joined at hzero ⊢
  constructor
  · intro h
    by_contra hnone
    have hblank : ∀ c ∈ joined, isBlank c = true := by
      intro c hc
      by_contra hfalse
      exact hnone ⟨c, hc, by simpa using hfalse⟩
    rw [trimBack_of_blank (isspace_encodeUtf8 hblank)] at h
    cases h
  · intro h
    obtain ⟨r, back, hback⟩ := trimBack_eq (exists_not_isspace h) []
    have hrest : (0 : UInt8) ∉ (encodeUtf8 joined).rdropWhile isspace := by
      intro hmem
      apply hzero ((List.rdropWhile_prefix _ _).subset hmem)
    obtain ⟨front, hfront, hsame⟩ := trimFront_eq hrest r
    have hcstr : cstr (if back || front then
        ((encodeUtf8 joined).rdropWhile isspace).dropWhile isspace ++ 0 :: r
        else (encodeUtf8 joined).rdropWhile isspace ++ 0 :: r) = encodeUtf8 (trim joined) := by
      have hdrop : (0 : UInt8) ∉ ((encodeUtf8 joined).rdropWhile isspace).dropWhile isspace := by
        intro hmem
        apply hrest ((List.dropWhile_suffix _).subset hmem)
      split
      case isTrue => rw [cstr_append_zero, cstr_of_not_mem hdrop, encodeUtf8_trim]
      case isFalse hmoved =>
          rw [Bool.or_eq_true, not_or, Bool.not_eq_true, Bool.not_eq_true] at hmoved
          rw [cstr_append_zero, cstr_of_not_mem hrest, encodeUtf8_trim, hsame hmoved.2]
    rw [hback, Option.bind_some]
    simp only [hfront, Option.bind_some, hcstr]
    apply fromUtf8_eq_some_iff.mpr rfl

/-- White space before, within and after a text of three pieces. -/
theorem trimCat_eq_pieces :
  trimCat ["\n  ".toList, "a é".toList, " ".toList] = some (trim "\n  a é ".toList)
  := by
  apply (trimCat_eq_iff (by decide)).mpr
  exact ⟨"a é".toList, by simp, 'a', by decide, rfl⟩

/-- Of an element without a text, and of one whose text is a blank, the byte before the string is
read. -/
theorem trimCat_blank :
  trimCat [] = none ∧ trimCat [" ".toList] = none ∧ trim [] = [] ∧ trim " ".toList = []
  := by
  refine ⟨rfl, ?_, rfl, rfl⟩
  decide

end Gusher
