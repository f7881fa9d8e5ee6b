import Gusher.Scheme.Utf8

/-!
# Numbers in C

The range of an `int`, and how the C library reads a number in decimal.
-/

namespace Gusher

open CString

/-- The values of an `int`; beyond them a signed counter overflows. -/
def IsInt (z : ℤ) : Prop :=
  -2 ^ 31 ≤ z ∧ z < 2 ^ 31

instance (z : ℤ) : Decidable (IsInt z) :=
  inferInstanceAs (Decidable (-2 ^ 31 ≤ z ∧ z < 2 ^ 31))

/-- The value of the digits at the start of a string, after digits of the value `n`. -/
def digitsValue (n : ℕ) : List UInt8 → ℕ
  | [] => n
  | c :: s => if isdigit c then digitsValue (10 * n + (c.toNat - 48)) s else n

/-- `strtol(s, NULL, 10)`, before it is cut off at the bounds of a `long`. -/
def signedValue (s : List UInt8) : ℤ :=
  match s.dropWhile isspace with
  | [] => 0
  | c :: s =>
      if c = 45 then -(digitsValue 0 s : ℤ)
      else if c = 43 then digitsValue 0 s
      else digitsValue 0 (c :: s)

/-- `atoi`, which makes an `int` of the `long`. -/
def atoi (s : List UInt8) : ℤ :=
  Int.bmod (max (-2 ^ 63) (min (signedValue s) (2 ^ 63 - 1))) (2 ^ 32)

/-! ### Decimal texts -/

/-- The text consists of decimal digits, and they denote the number. -/
structure Decimal (n : ℕ) (t : Text) : Prop where
  ne_nil : t ≠ []
  digits : ∀ c ∈ t, c.isDigit = true
  value : Nat.ofDigitChars 10 t 0 = n

theorem decimal_toDigits (n : ℕ) :
  Decimal n (Nat.toDigits 10 n)
  where
  ne_nil := Nat.toDigits_ne_nil
  digits _ hc := Nat.isDigit_of_mem_toDigits (by decide) (by decide) hc
  value := Nat.ofDigitChars_ten_toDigits

theorem decimal_numberText {z : ℤ} (hz : 0 ≤ z) :
  Decimal z.natAbs (numberText z)
  := by
  rw [numberText, if_neg (by omega)]
  apply decimal_toDigits

/-- A zero may come first. -/
theorem Decimal.zero_cons {n : ℕ} {t : Text} (h : Decimal n t) :
  Decimal n ('0' :: t)
  where
  ne_nil := List.cons_ne_nil _ _
  digits := by
    intro c hc
    obtain rfl | hc := List.mem_cons.mp hc
    · decide
    · apply h.digits c hc
  value := by
    rw [Nat.ofDigitChars_cons]
    exact h.value

theorem Decimal.zeros_append {n : ℕ} {t : Text} (h : Decimal n t) (k : ℕ) :
  Decimal n (List.replicate k '0' ++ t)
  := by
  induction k with
  | zero => exact h
  | succ k ih => exact ih.zero_cons

/-- A decimal digit is one byte. -/
theorem utf8EncodeChar_of_digit {c : Char} (h : c.isDigit = true) :
  String.utf8EncodeChar c = [c.toNat.toUInt8] ∧ isdigit c.toNat.toUInt8 = true ∧
    c.toNat.toUInt8.toNat = c.toNat
  := by
  obtain ⟨hlow, hhigh⟩ : 48 ≤ c.toNat ∧ c.toNat ≤ 57 := Char.isDigit_iff_toNat.mp h
  have hcode : c.toNat.toUInt8.toNat = c.toNat := by
    rw [UInt8.toNat_ofNat']
    omega
  refine ⟨utf8EncodeChar_of_ascii (by omega), ?_, hcode⟩
  rw [isdigit, decide_eq_true_iff, UInt8.le_iff_toNat_le, UInt8.le_iff_toNat_le, hcode]
  exact ⟨hlow, hhigh⟩

/-- The digits at the start of a text in UTF-8. -/
theorem digitsValue_encodeUtf8 {t : Text} (h : ∀ c ∈ t, c.isDigit = true) (n : ℕ)
    {rest : List UInt8} (hrest : ∀ b ∈ rest.head?, isdigit b = false) :
  digitsValue n (encodeUtf8 t ++ rest) = Nat.ofDigitChars 10 t n
  := by
  induction t generalizing n with
  | nil =>
      cases rest with
      | nil => rfl
      | cons b rest =>
          have hb := hrest b rfl
          simp [digitsValue, hb]
  | cons c t ih =>
      obtain ⟨hbyte, hdigit, hcode⟩ := utf8EncodeChar_of_digit (h c List.mem_cons_self)
      rw [encodeUtf8_cons, hbyte, List.cons_append, List.nil_append, List.cons_append, digitsValue,
        if_pos hdigit, hcode, ih (fun d hd => h d (List.mem_cons_of_mem c hd)),
        Nat.ofDigitChars_cons]
      rfl

theorem ne_of_isdigit {b : UInt8} (h : isdigit b = true) :
  isspace b = false ∧ b ≠ 45 ∧ b ≠ 43
  := by
  revert b
  apply forall_byte
  decide +kernel

/-- `strtol` of a text that starts with a number in decimal. -/
theorem signedValue_of_decimal {n : ℕ} {t : Text} (h : Decimal n t) {rest : List UInt8}
    (hrest : ∀ b ∈ rest.head?, isdigit b = false) :
  signedValue (encodeUtf8 t ++ rest) = n
  := by
  have hvalue := digitsValue_encodeUtf8 h.digits 0 hrest
  rw [h.value] at hvalue
  cases t with
  | nil => exact absurd rfl h.ne_nil
  | cons c t =>
      obtain ⟨hbyte, hdigit, -⟩ := utf8EncodeChar_of_digit (h.digits c List.mem_cons_self)
      obtain ⟨hspace, hminus, hplus⟩ := ne_of_isdigit hdigit
      rw [encodeUtf8_cons, hbyte, List.cons_append, List.nil_append, List.cons_append] at hvalue ⊢
      rw [signedValue, List.dropWhile_cons, if_neg (by rw [hspace]; decide)]
      simp only [if_neg hminus, if_neg hplus, hvalue]

/-- `strtol` of a text that starts with a negative number in decimal. -/
theorem signedValue_of_minus {n : ℕ} {t : Text} (h : Decimal n t) :
  signedValue (encodeUtf8 ('-' :: t)) = -n
  := by
  have hvalue := @digitsValue_encodeUtf8 t h.digits 0 [] (by simp)
  rw [h.value, List.append_nil] at hvalue
  have hbytes : encodeUtf8 ('-' :: t) = 45 :: encodeUtf8 t := rfl
  rw [hbytes, signedValue, List.dropWhile_cons, if_neg (by decide)]
  simp only [if_pos, hvalue]

/-- `strtol` of an integer. -/
theorem signedValue_numberText (z : ℤ) :
  signedValue (encodeUtf8 (numberText z)) = z
  := by
  by_cases hz : 0 ≤ z
  · have h := @signedValue_of_decimal _ _ (decimal_numberText hz) [] (by simp)
    rw [List.append_nil] at h
    omega
  · rw [numberText, if_pos (by omega), signedValue_of_minus (decimal_toDigits _)]
    omega

/-- `atoi` of a number that fits. -/
theorem atoi_of_decimal {n : ℕ} {t : Text} (h : Decimal n t) (hn : n < 2 ^ 31) {rest : List UInt8}
    (hrest : ∀ b ∈ rest.head?, isdigit b = false) :
  atoi (encodeUtf8 t ++ rest) = n
  := by
  have hclamp : max (-2 ^ 63) (min (n : ℤ) (2 ^ 63 - 1)) = n := by omega
  rw [atoi, signedValue_of_decimal h hrest, hclamp]
  apply (bmod_natCast_eq_iff n).mpr hn

/-- `atoi` of an integer of 64 bits. -/
theorem atoi_numberText {z : ℤ} (hlow : -2 ^ 63 ≤ z) (hhigh : z < 2 ^ 63) :
  atoi (encodeUtf8 (numberText z)) = Int.bmod z (2 ^ 32)
  := by
  have hclamp : max (-2 ^ 63) (min z (2 ^ 63 - 1)) = z := by omega
  rw [atoi, signedValue_numberText, hclamp]

end Gusher
