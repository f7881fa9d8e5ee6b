import Gusher.Library.Search
import Gusher.Scheme.Object

/-!
# UTF-8

A string is encoded character by character.  The bytes of an ASCII character occur in no other
code, and the first byte of a code can be told from the others; so an encoded string can be split
at any byte that is not a continuation byte, and the parts are encoded strings.
-/

namespace Gusher

open CString Search

/-- The UTF-8 bytes of a string. -/
def encodeUtf8 (t : Text) : List UInt8 :=
  t.flatMap String.utf8EncodeChar

/-- `scm_from_utf8_string`: the string that the bytes encode; `none` stands for the exception. -/
def fromUtf8 (s : List UInt8) : Option Text :=
  if encodeUtf8 (safeFromUtf8 s) = s then some (safeFromUtf8 s) else none

@[simp]
theorem encodeUtf8_nil :
  encodeUtf8 [] = []
  := rfl

@[simp]
theorem encodeUtf8_cons (c : Char) (t : Text) :
  encodeUtf8 (c :: t) = String.utf8EncodeChar c ++ encodeUtf8 t
  := rfl

@[simp]
theorem encodeUtf8_append (t u : Text) :
  encodeUtf8 (t ++ u) = encodeUtf8 t ++ encodeUtf8 u
  := List.flatMap_append

theorem encodeUtf8_flatten (parts : List Text) :
  encodeUtf8 parts.flatten = (parts.map encodeUtf8).flatten
  := by
  induction parts with
  | nil => rfl
  | cons t parts ih => rw [List.flatten_cons, encodeUtf8_append, ih, List.map_cons, List.flatten_cons]

/-- A string is converted when it is the encoding of one. -/
theorem fromUtf8_eq_some_iff {s : List UInt8} {t : Text} :
  fromUtf8 s = some t ↔ s = encodeUtf8 t
  := by
  constructor
  · intro h
    rw [fromUtf8, Option.ite_none_right_eq_some, Option.some.injEq] at h
    obtain ⟨hs, rfl⟩ := h
    exact hs.symm
  · rintro rfl
    have hdecode : safeFromUtf8 (encodeUtf8 t) = t := safeFromUtf8_flatMap t
    rw [fromUtf8, hdecode, if_pos rfl]

/-- Different strings have different encodings. -/
theorem encodeUtf8_inj {t u : Text} :
  encodeUtf8 t = encodeUtf8 u ↔ t = u
  := by
  constructor
  · intro h
    have ht : fromUtf8 (encodeUtf8 t) = some t := fromUtf8_eq_some_iff.mpr rfl
    have hu : fromUtf8 (encodeUtf8 t) = some u := fromUtf8_eq_some_iff.mpr h
    exact Option.some.inj (ht.symm.trans hu)
  · rintro rfl
    rfl

theorem utf8DecodeChar_of_prefix {c : Char} {s : List UInt8}
    (h : String.utf8EncodeChar c <+: s) :
  ByteArray.utf8DecodeChar? s.toByteArray 0 = some c
  := by
  obtain ⟨rest, rfl⟩ := h
  rw [List.toByteArray_append]
  apply ByteArray.utf8DecodeChar?_utf8EncodeChar_append

theorem utf8EncodeChar_of_ascii {c : Char} (h : c.toNat < 128) :
  String.utf8EncodeChar c = [c.toNat.toUInt8]
  := by
  have hle : c.val.toNat ≤ 127 := Nat.le_of_lt_succ h
  simp only [String.utf8EncodeChar, hle, if_true]
  rfl

/-- The bytes of a character that is not ASCII are not ASCII. -/
theorem le_of_mem_utf8EncodeChar {c : Char} (h : 128 ≤ c.toNat) :
  ∀ b ∈ String.utf8EncodeChar c, 128 ≤ b.toNat
  := by
  have hgt : ¬ c.val.toNat ≤ 127 := Nat.not_le.mpr h
  intro b hb
  simp only [String.utf8EncodeChar, hgt, if_false] at hb
  split at hb
  · simp only [List.mem_cons, List.not_mem_nil, or_false] at hb
    obtain rfl | rfl := hb
    all_goals simp; omega
  · split at hb
    · simp only [List.mem_cons, List.not_mem_nil, or_false] at hb
      obtain rfl | rfl | rfl := hb
      all_goals simp; omega
    · simp only [List.mem_cons, List.not_mem_nil, or_false] at hb
      obtain rfl | rfl | rfl | rfl := hb
      all_goals simp; omega

/-- No byte of the code of a character other than NUL is a NUL. -/
theorem zero_notMem_utf8EncodeChar {c : Char} (h : c ≠ Char.ofNat 0) :
  (0 : UInt8) ∉ String.utf8EncodeChar c
  := by
  intro hzero
  obtain hc | hc := Nat.lt_or_ge c.toNat 128
  · rw [utf8EncodeChar_of_ascii hc, List.mem_singleton] at hzero
    have hcode : c.toNat = 0 := by
      rw [← UInt8.toNat_inj] at hzero
      simp at hzero
      omega
    apply h
    rw [← Char.ofNat_toNat c, hcode]
  · have hle := le_of_mem_utf8EncodeChar hc 0 hzero
    simp at hle

/-- A byte of the encoding that is ASCII is the code of a character. -/
theorem exists_of_mem_encodeUtf8 {t : Text} {b : UInt8} (h : b ∈ encodeUtf8 t)
    (hb : b.toNat < 128) :
  ∃ c ∈ t, c.toNat = b.toNat
  := by
  obtain ⟨c, hc, hmem⟩ := List.mem_flatMap.mp h
  refine ⟨c, hc, ?_⟩
  by_cases hascii : c.toNat < 128
  · rw [utf8EncodeChar_of_ascii hascii] at hmem
    rw [List.mem_singleton.mp hmem]
    exact (Nat.mod_eq_of_lt (Nat.lt_trans hascii (by decide))).symm
  · exact absurd (le_of_mem_utf8EncodeChar (Nat.not_lt.mp hascii) b hmem) (Nat.not_le.mpr hb)

theorem notMem_encodeUtf8 {t : Text} {b : UInt8} (hb : b.toNat < 128)
    (h : ∀ c ∈ t, c.toNat ≠ b.toNat) :
  b ∉ encodeUtf8 t
  := by
  intro hmem
  obtain ⟨c, hc, hcode⟩ := exists_of_mem_encodeUtf8 hmem hb
  exact h c hc hcode

theorem zero_notMem_encodeUtf8 {t : Text} (h : Char.ofNat 0 ∉ t) :
  (0 : UInt8) ∉ encodeUtf8 t
  := by
  intro hmem
  obtain ⟨c, hc, hzero⟩ := List.mem_flatMap.mp hmem
  apply zero_notMem_utf8EncodeChar _ hzero
  rintro rfl
  exact h hc

/-- A byte that is not the first one of a character. -/
def isContinuation (b : UInt8) : Bool :=
  128 ≤ b ∧ b < 192

/-- The first byte of a code is not a continuation byte, and the others are. -/
theorem utf8EncodeChar_eq_cons (c : Char) :
  ∃ b s, String.utf8EncodeChar c = b :: s ∧ isContinuation b = false ∧
    ∀ x ∈ s, isContinuation x = true
  := by
  obtain hc | hc := Nat.lt_or_ge c.toNat 128
  · use c.toNat.toUInt8, [], utf8EncodeChar_of_ascii hc
    refine ⟨?_, by simp⟩
    rw [isContinuation, decide_eq_false_iff_not, UInt8.le_iff_toNat_le]
    simp
    omega
  · have hgt : ¬ c.val.toNat ≤ 127 := Nat.not_le.mpr hc
    have hlt : c.val.toNat < 1114112 := by
      obtain h | h := c.valid
      · exact h.trans (by decide)
      · exact h.2
    simp only [String.utf8EncodeChar, hgt, if_false]
    split
    · refine ⟨_, _, rfl, ?_, ?_⟩
      · simp [isContinuation, UInt8.le_iff_toNat_le, UInt8.lt_iff_toNat_lt]
        omega
      · simp [isContinuation, UInt8.le_iff_toNat_le, UInt8.lt_iff_toNat_lt]
        omega
    · split
      · refine ⟨_, _, rfl, ?_, ?_⟩
        · simp [isContinuation, UInt8.le_iff_toNat_le, UInt8.lt_iff_toNat_lt]
          omega
        · simp [isContinuation, UInt8.le_iff_toNat_le, UInt8.lt_iff_toNat_lt]
          omega
      · refine ⟨_, _, rfl, ?_, ?_⟩
        · simp [isContinuation, UInt8.le_iff_toNat_le, UInt8.lt_iff_toNat_lt]
          omega
        · simp [isContinuation, UInt8.le_iff_toNat_le, UInt8.lt_iff_toNat_lt]
          omega

/-- An encoded string does not start with a continuation byte. -/
theorem isContinuation_of_encodeUtf8_eq_cons {t : Text} {b : UInt8} {s : List UInt8}
    (h : encodeUtf8 t = b :: s) :
  isContinuation b = false
  := by
  cases t with
  | nil => cases h
  | cons c t =>
      obtain ⟨b', s', hc, hb, -⟩ := utf8EncodeChar_eq_cons c
      rw [encodeUtf8_cons, hc, List.cons_append] at h
      obtain ⟨rfl, -⟩ := List.cons.inj h
      exact hb

/-- An encoded string is split between characters at a byte that is not a continuation byte. -/
theorem exists_of_encodeUtf8_eq_append {t : Text} {x y : List UInt8}
    (h : encodeUtf8 t = x ++ y) (hy : ∀ b ∈ y.head?, isContinuation b = false) :
  ∃ t₁ t₂, t = t₁ ++ t₂ ∧ encodeUtf8 t₁ = x ∧ encodeUtf8 t₂ = y
  := by
  induction t generalizing x with
  | nil =>
      obtain ⟨rfl, rfl⟩ := List.append_eq_nil_iff.mp h.symm
      exact ⟨[], [], rfl, rfl, rfl⟩
  | cons c t ih =>
      obtain ⟨b, s, hc, -, hs⟩ := utf8EncodeChar_eq_cons c
      obtain ⟨z, rfl, hz⟩ | ⟨z, hcode, rfl⟩ := List.append_eq_append_iff.mp h
      · obtain ⟨t₁, t₂, rfl, rfl, hy'⟩ := ih hz
        exact ⟨c :: t₁, t₂, rfl, rfl, hy'⟩
      · cases x with
        | nil => exact ⟨[], c :: t, rfl, rfl, h⟩
        | cons d x =>
            cases z with
            | nil =>
                use [c], t, rfl
                rw [List.append_nil] at hcode
                exact ⟨by simp [hcode], rfl⟩
            | cons e z =>
                rw [hc] at hcode
                obtain ⟨-, rfl⟩ := List.cons.inj hcode
                have hcont := hs e (by simp)
                rw [hy e (by simp)] at hcont
                cases hcont

/-- The code of an ASCII character in an encoded string is that character. -/
theorem exists_of_encodeUtf8_eq_cons {t : Text} {c : Char} {s : List UInt8}
    (hc : c.toNat < 128) (h : encodeUtf8 t = c.toNat.toUInt8 :: s) :
  ∃ u, t = c :: u ∧ encodeUtf8 u = s
  := by
  cases t with
  | nil => cases h
  | cons d u =>
      have hhead : c.toNat.toUInt8 ∈ String.utf8EncodeChar d := by
        obtain ⟨b, x, hd, -, -⟩ := utf8EncodeChar_eq_cons d
        rw [encodeUtf8_cons, hd, List.cons_append] at h
        rw [hd, (List.cons.inj h).1]
        apply List.mem_cons_self
      have hsmall : c.toNat.toUInt8.toNat = c.toNat := by
        simp
        omega
      obtain hd | hd := Nat.lt_or_ge d.toNat 128
      · rw [encodeUtf8_cons, utf8EncodeChar_of_ascii hd, List.singleton_append] at h
        obtain ⟨hcode, rfl⟩ := List.cons.inj h
        have hcd : c = d := by
          rw [← ofNat_toUInt8 (show c.toNat < 256 by omega), ← hcode,
            ofNat_toUInt8 (show d.toNat < 256 by omega)]
        exact ⟨u, by rw [hcd], rfl⟩
      · have hle := le_of_mem_utf8EncodeChar hd _ hhead
        omega

/-- ASCII characters are encoded as their codes. -/
theorem encodeUtf8_of_ascii {t : Text} (h : ∀ c ∈ t, c.toNat < 128) :
  encodeUtf8 t = t.map (fun c => c.toNat.toUInt8)
  := by
  induction t with
  | nil => rfl
  | cons c t ih =>
      rw [encodeUtf8_cons, utf8EncodeChar_of_ascii (h c List.mem_cons_self),
        ih (fun d hd => h d (List.mem_cons_of_mem _ hd))]
      rfl

/-- A text whose encoding is not longer is ASCII. -/
theorem ascii_of_length_encodeUtf8 {t : Text} (h : (encodeUtf8 t).length ≤ t.length) :
  ∀ c ∈ t, c.toNat < 128
  := by
  have hlen : ∀ t : Text, t.length ≤ (encodeUtf8 t).length := by
    intro t
    induction t with
    | nil => exact Nat.le_refl 0
    | cons c t ih =>
        have hpos := c.utf8Size_pos
        rw [encodeUtf8_cons, List.length_append, String.length_utf8EncodeChar, List.length_cons]
        omega
  induction t with
  | nil =>
      intro c hc
      cases hc
  | cons c t ih =>
      have hpos := c.utf8Size_pos
      have hrest := hlen t
      rw [encodeUtf8_cons, List.length_append, String.length_utf8EncodeChar, List.length_cons] at h
      have hone : c.val ≤ 127 := Char.utf8Size_eq_one_iff.mp (by omega)
      intro d hd
      obtain rfl | hd := List.mem_cons.mp hd
      · exact Nat.lt_succ_of_le hone
      · exact ih (by omega) d hd

/-- Where ASCII characters are encoded, they stand. -/
theorem exists_of_encodeUtf8_eq_ascii_append {t m : Text} {s : List UInt8}
    (hm : ∀ c ∈ m, c.toNat < 128) (h : encodeUtf8 t = encodeUtf8 m ++ s) :
  ∃ u, t = m ++ u ∧ encodeUtf8 u = s
  := by
  induction m generalizing t with
  | nil => exact ⟨t, rfl, h⟩
  | cons c m ih =>
      have hc := hm c List.mem_cons_self
      rw [encodeUtf8_cons, utf8EncodeChar_of_ascii hc, List.append_assoc,
        List.singleton_append] at h
      obtain ⟨v, rfl, hv⟩ := exists_of_encodeUtf8_eq_cons hc h
      obtain ⟨u, rfl, hu⟩ := ih (fun d hd => hm d (List.mem_cons_of_mem c hd)) hv
      exact ⟨u, rfl, hu⟩

theorem isContinuation_of_ascii {c : Char} (h : c.toNat < 128) :
  isContinuation c.toNat.toUInt8 = false
  := by
  rw [isContinuation, decide_eq_false_iff_not, UInt8.le_iff_toNat_le]
  simp
  omega

/-- Where ASCII characters are found in an encoded string, they stand in the string. -/
theorem exists_of_ascii_prefix {t m : Text} {x y : List UInt8} (hm : ∀ c ∈ m, c.toNat < 128)
    (hne : m ≠ []) (h : encodeUtf8 t = x ++ y) (hy : encodeUtf8 m <+: y) :
  ∃ t₁ t₂, t = t₁ ++ (m ++ t₂) ∧ encodeUtf8 t₁ = x ∧ encodeUtf8 (m ++ t₂) = y
  := by
  obtain ⟨s, rfl⟩ := hy
  have hhead : ∀ b ∈ (encodeUtf8 m ++ s).head?, isContinuation b = false := by
    cases m with
    | nil => exact absurd rfl hne
    | cons c m =>
        have hc := hm c List.mem_cons_self
        intro b hb
        rw [encodeUtf8_cons, utf8EncodeChar_of_ascii hc] at hb
        simp only [List.cons_append, List.head?_cons, Option.mem_some_iff] at hb
        rw [← hb, isContinuation_of_ascii hc]
  obtain ⟨t₁, u, rfl, rfl, hu⟩ := exists_of_encodeUtf8_eq_append h hhead
  obtain ⟨t₂, rfl, rfl⟩ := exists_of_encodeUtf8_eq_ascii_append hm hu
  exact ⟨t₁, t₂, rfl, rfl, by rw [encodeUtf8_append]⟩

theorem length_encodeUtf8_le {t u : Text} (h : t <+: u) :
  (encodeUtf8 t).length ≤ (encodeUtf8 u).length
  := by
  obtain ⟨v, rfl⟩ := h
  rw [encodeUtf8_append, List.length_append]
  apply Nat.le_add_right

theorem encodeUtf8_eq_nil_iff {t : Text} :
  encodeUtf8 t = [] ↔ t = []
  := encodeUtf8_inj (u := [])

/-- Of two prefixes of a string the one with the shorter encoding is the shorter one. -/
theorem length_le_of_encodeUtf8 {t u v : Text} (ht : t <+: v) (hu : u <+: v)
    (h : (encodeUtf8 t).length ≤ (encodeUtf8 u).length) :
  t.length ≤ u.length
  := by
  obtain htu | ⟨w, rfl⟩ := List.prefix_or_prefix_of_prefix ht hu
  · exact htu.length_le
  · rw [encodeUtf8_append, List.length_append] at h
    have hw : encodeUtf8 w = [] := List.eq_nil_of_length_eq_zero (by omega)
    rw [encodeUtf8_eq_nil_iff.mp hw, List.append_nil]

/-- ASCII characters are found in the encoded string where they stand in the string. -/
theorem strstr_encodeUtf8 {t m : Text} (hm : ∀ c ∈ m, c.toNat < 128) (hne : m ≠ []) :
  strstr (encodeUtf8 t) (encodeUtf8 m)
    = (strstr t m).map (fun x => (encodeUtf8 x.1, encodeUtf8 x.2))
  := by
  cases h : strstr t m with
  | none =>
      rw [Option.map_none, strstr_eq_none_iff]
      rintro ⟨x, z, hxz⟩
      obtain ⟨t₁, t₂, rfl, -⟩ := exists_of_ascii_prefix hm hne
        (hxz.symm.trans (List.append_assoc _ _ _)) (List.prefix_append _ _)
      apply strstr_eq_none_iff.mp h
      exact ⟨t₁, t₂, List.append_assoc _ _ _⟩
  | some x =>
      obtain ⟨a, b⟩ := x
      obtain ⟨rfl, ⟨c, rfl⟩, hfirst⟩ := strstr_eq_some_iff.mp h
      rw [Option.map_some, strstr_eq_some_iff]
      refine ⟨encodeUtf8_append _ _, ?_, ?_⟩
      · rw [encodeUtf8_append]
        apply List.prefix_append
      · intro y z hyz hz
        obtain ⟨t₁, t₂, ht, rfl, -⟩ := exists_of_ascii_prefix hm hne hyz hz
        have hle := hfirst t₁ (m ++ t₂) ht (List.prefix_append _ _)
        have hprefix : a <+: t₁ := by
          apply List.prefix_of_prefix_length_le _ (List.prefix_append t₁ (m ++ t₂)) hle
          rw [← ht]
          apply List.prefix_append
        exact length_encodeUtf8_le hprefix

/-! ### Letters -/

theorem isUpper_iff {c : Char} :
  c.isUpper = true ↔ 65 ≤ c.toNat ∧ c.toNat ≤ 90
  := by
  change decide (c.val ≥ 'A'.val ∧ c.val ≤ 'Z'.val) = true ↔ _
  rw [decide_eq_true_iff]
  exact Iff.rfl

/-- A byte is an uppercase letter when it is the code of one. -/
theorem isupper_iff {b : UInt8} :
  isupper b = true ↔ ∃ c : Char, c.isUpper = true ∧ b = c.toNat.toUInt8
  := by
  rw [isupper, decide_eq_true_iff, UInt8.le_iff_toNat_le, UInt8.le_iff_toNat_le]
  constructor
  · rintro ⟨hlow, hhigh⟩
    have hlow' : 65 ≤ b.toNat := hlow
    have hhigh' : b.toNat ≤ 90 := hhigh
    have hvalid : b.toNat.isValidChar := Or.inl (by omega)
    have hcode : (Char.ofNat b.toNat).toNat = b.toNat := by
      rw [Char.ofNat, dif_pos hvalid]
      rfl
    use Char.ofNat b.toNat
    rw [isUpper_iff, hcode]
    exact ⟨⟨hlow', hhigh'⟩, by simp⟩
  · rintro ⟨c, hc, rfl⟩
    obtain ⟨hlow, hhigh⟩ := isUpper_iff.mp hc
    simp
    omega

/-- The uppercase letters of an encoded string are those of the string. -/
theorem isUpper_of_mem_encodeUtf8 {t : Text} {b : UInt8} (hb : b ∈ encodeUtf8 t)
    (hupper : isupper b = true) :
  ∃ c ∈ t, c.isUpper = true ∧ b = c.toNat.toUInt8
  := by
  obtain ⟨c, hc, rfl⟩ := isupper_iff.mp hupper
  obtain ⟨d, hd, hmem⟩ := List.mem_flatMap.mp hb
  obtain ⟨hlow, hhigh⟩ := isUpper_iff.mp hc
  have hsmall : c.toNat.toUInt8.toNat = c.toNat := by
    simp
    omega
  obtain hlt | hge := Nat.lt_or_ge d.toNat 128
  · rw [utf8EncodeChar_of_ascii hlt, List.mem_singleton] at hmem
    have hcd : c = d := by
      rw [← ofNat_toUInt8 (show c.toNat < 256 by omega), hmem,
        ofNat_toUInt8 (show d.toNat < 256 by omega)]
    exact ⟨c, by rw [hcd]; exact hd, hc, rfl⟩
  · have hle := le_of_mem_utf8EncodeChar hge _ hmem
    omega

/-- The code of an uppercase character. -/
theorem toNat_toUpper (c : Char) :
  c.toUpper.toNat = if 97 ≤ c.toNat ∧ c.toNat ≤ 122 then c.toNat - 32 else c.toNat
  := by
  delta Char.toUpper
  split
  case isTrue h =>
      obtain ⟨hlow, hhigh⟩ := h
      have hlow' : 97 ≤ c.toNat := hlow
      have hhigh' : c.toNat ≤ 122 := hhigh
      rw [if_pos ⟨hlow', hhigh'⟩]
      change (c.val + ('A'.val - 'a'.val)).toNat = _
      rw [UInt32.toNat_add]
      have hoffset : ('A'.val - 'a'.val).toNat = 4294967264 := by decide
      have hval : c.val.toNat = c.toNat := rfl
      rw [hoffset, hval]
      omega
  case isFalse h =>
      rw [if_neg]
      exact h

theorem toupper_of_le {b : UInt8} (h : 128 ≤ b.toNat) :
  toupper b = b
  := by
  rw [toupper, if_neg]
  rw [islower, decide_eq_true_iff, UInt8.le_iff_toNat_le, UInt8.le_iff_toNat_le]
  rintro ⟨-, hhigh⟩
  have hhigh' : b.toNat ≤ 122 := hhigh
  omega

/-- The bytes of a character are made uppercase as the character is. -/
theorem map_toupper_utf8EncodeChar (c : Char) :
  (String.utf8EncodeChar c).map toupper = String.utf8EncodeChar c.toUpper
  := by
  have hupper := toNat_toUpper c
  obtain hc | hc := Nat.lt_or_ge c.toNat 128
  · have hlt : c.toUpper.toNat < 128 := by
      rw [hupper]
      split
      · omega
      · exact hc
    rw [utf8EncodeChar_of_ascii hc, utf8EncodeChar_of_ascii hlt, hupper, List.map_singleton,
      toupper, islower]
    simp only [decide_eq_true_eq, UInt8.le_iff_toNat_le]
    congr 1
    have hcode : c.toNat.toUInt8.toNat = c.toNat := by
      simp
      omega
    have hlow : UInt8.toNat 97 = 97 := rfl
    have hhigh : UInt8.toNat 122 = 122 := rfl
    rw [hcode, hlow, hhigh]
    split
    · rw [← UInt8.toNat_inj, UInt8.toNat_sub_of_le]
      · simp
        omega
      · rw [UInt8.le_iff_toNat_le, hcode]
        have hoffset : UInt8.toNat 32 = 32 := rfl
        omega
    · rfl
  · rw [if_neg (by omega)] at hupper
    have hsame : c.toUpper = c := Char.toNat_inj.mp hupper
    have hid : (String.utf8EncodeChar c).map toupper = (String.utf8EncodeChar c).map id :=
      List.map_congr_left (fun b hb => toupper_of_le (le_of_mem_utf8EncodeChar hc b hb))
    rw [hsame, hid, List.map_id]

theorem map_toupper_encodeUtf8 (t : Text) :
  (encodeUtf8 t).map toupper = encodeUtf8 (t.map Char.toUpper)
  := by
  induction t with
  | nil => rfl
  | cons c t ih =>
      rw [encodeUtf8_cons, List.map_append, map_toupper_utf8EncodeChar, ih, List.map_cons,
        encodeUtf8_cons]

end Gusher
