import Gusher.Library.CString

/-!
# Form-urlencoding

In a form-urlencoded text letters, digits and four marks stand for themselves, a plus stands for a
space, and every other byte is written as a percent sign and two hexadecimal digits.  So no byte
that separates names from values, or pairs of them, occurs in the code of a name or a value.
-/

namespace Urlencoded

open CString

/-- The bytes that stand for themselves. -/
def isUnreserved (c : UInt8) : Bool :=
  isalpha c || isdigit c || c == 42 || c == 45 || c == 46 || c == 95

def escapeDigit (n : ℕ) : UInt8 :=
  if n < 10 then (48 + n).toUInt8 else (55 + n).toUInt8

def code (c : UInt8) : List UInt8 :=
  if isUnreserved c then [c]
  else if c = 32 then [43]
  else [37, escapeDigit (c.toNat / 16), escapeDigit (c.toNat % 16)]

/-- The bytes `s`, encoded. -/
def encode (s : List UInt8) : List UInt8 :=
  s.flatMap code

/-- The code of a byte in a URL: letters, digits and four marks stand for themselves,
every other byte is escaped. -/
def percentCode (c : UInt8) : List UInt8 :=
  if isalpha c || isdigit c || c == 45 || c == 46 || c == 95 || c == 126 then [c]
  else [37, escapeDigit (c.toNat / 16), escapeDigit (c.toNat % 16)]

/-- The bytes `s`, percent-encoded. -/
def percentEncode (s : List UInt8) : List UInt8 :=
  s.flatMap percentCode

/-- A name and its value. -/
def encodePair (p : List UInt8 × List UInt8) : List UInt8 :=
  encode p.1 ++ 61 :: encode p.2

/-- A list of names with their values. -/
def encodePairs : List (List UInt8 × List UInt8) → List UInt8
  | [] => []
  | [p] => encodePair p
  | p :: q :: ps => encodePair p ++ 38 :: encodePairs (q :: ps)

/-- The bytes that occur in codes. -/
def isCode (c : UInt8) : Bool :=
  isUnreserved c || c == 43 || c == 37

/-! ### The codes of bytes -/

/-- The code of a byte is the byte, a plus for a space, or an escape. -/
theorem code_cases (c : UInt8) :
  isUnreserved c = true ∧ code c = [c] ∨ c = 32 ∧ code c = [43] ∨
    code c = [37, escapeDigit (c.toNat / 16), escapeDigit (c.toNat % 16)]
  := by
  unfold code
  split
  case isTrue h => exact Or.inl ⟨h, rfl⟩
  case isFalse =>
      split
      case isTrue h => exact Or.inr (Or.inl ⟨h, rfl⟩)
      case isFalse => exact Or.inr (Or.inr rfl)

theorem of_isCode {c : UInt8} (h : isCode c = true) :
  c.toNat < 128 ∧ c ≠ 0 ∧ c ≠ 38 ∧ c ≠ 61
  := by
  revert c
  apply forall_byte
  decide +kernel

theorem of_isUnreserved {c : UInt8} (h : isUnreserved c = true) :
  c ≠ 0 ∧ c ≠ 43 ∧ c ≠ 37
  := by
  revert c
  apply forall_byte
  decide +kernel

theorem isCode_of_mem_code {b c : UInt8} (h : b ∈ code c) :
  isCode b = true
  := by
  have hall : ∀ c : UInt8, (code c).all isCode = true := by
    apply forall_byte
    decide +kernel
  exact List.all_eq_true.mp (hall c) b h

theorem isCode_of_mem_encode {s : List UInt8} {b : UInt8} (h : b ∈ encode s) :
  isCode b = true
  := by
  obtain ⟨c, -, hb⟩ := List.mem_flatMap.mp h
  exact isCode_of_mem_code hb

@[simp]
theorem encode_nil :
  encode [] = []
  := rfl

@[simp]
theorem encode_cons (c : UInt8) (s : List UInt8) :
  encode (c :: s) = code c ++ encode s
  := rfl

@[simp]
theorem encode_append (s t : List UInt8) :
  encode (s ++ t) = encode s ++ encode t
  := List.flatMap_append

/-- A text is not longer than its code; when it is as long, it is ASCII. -/
theorem length_encode (s : List UInt8) :
  s.length ≤ (encode s).length ∧
    ((encode s).length = s.length → ∀ c ∈ s, c.toNat < 128)
  := by
  induction s with
  | nil => simp
  | cons c s ih =>
      obtain ⟨hle, hascii⟩ := ih
      have hlen : (encode (c :: s)).length = (code c).length + (encode s).length :=
        List.length_append
      rw [hlen, List.length_cons]
      have hrest : ∀ n, (code c).length = n + 1 → c.toNat < 128 ∨ 0 < n →
          s.length + 1 ≤ (code c).length + (encode s).length ∧
          ((code c).length + (encode s).length = s.length + 1 →
            ∀ d ∈ c :: s, d.toNat < 128) := by
        intro n hn hc
        refine ⟨by omega, fun heq => ?_⟩
        have hlt : c.toNat < 128 := by
          obtain hlt | hpos := hc
          · exact hlt
          · omega
        intro d hd
        obtain rfl | hd := List.mem_cons.mp hd
        · exact hlt
        · exact hascii (by omega) d hd
      obtain ⟨hc, h⟩ | ⟨rfl, h⟩ | h := code_cases c
      · refine hrest 0 (by rw [h]; rfl) (Or.inl ?_)
        exact (of_isCode (by rw [isCode, hc]; rfl)).1
      · exact hrest 0 (by rw [h]; rfl) (Or.inl (by decide))
      · exact hrest 2 (by rw [h]; rfl) (Or.inr (by decide))

/-! ### Percent-encoding -/

/-- The code of a byte in a URL is the byte or an escape, and separates nothing. -/
theorem percentCode_cases (c : UInt8) :
  (c ≠ 0 ∧ c ≠ 43 ∧ c ≠ 37 ∧ percentCode c = [c]
      ∨ percentCode c = [37, escapeDigit (c.toNat / 16), escapeDigit (c.toNat % 16)])
    ∧ ∀ b ∈ percentCode c, b ≠ 0 ∧ b ≠ 38
  := by
  constructor
  · revert c
    apply forall_byte
    decide +kernel
  · have hall : ∀ c : UInt8, (percentCode c).all (fun b => b ≠ 0 ∧ b ≠ 38) = true := by
      apply forall_byte
      decide +kernel
    exact forall_mem_of_all (hall c)

/-- No byte that separates pairs, and no NUL, occurs in what is percent-encoded. -/
theorem of_mem_percentEncode {s : List UInt8} {b : UInt8} (h : b ∈ percentEncode s) :
  b ≠ 0 ∧ b ≠ 38
  := by
  obtain ⟨c, -, hb⟩ := List.mem_flatMap.mp h
  exact (percentCode_cases c).2 b hb

/-! ### A code that is cut off -/

/-- A code that is cut off ends in the code of a byte. -/
theorem exists_of_prefix {s v : List UInt8} (h : v <+: encode s) (hne : v ≠ encode s) :
  ∃ a c b r, s = a ++ c :: b ∧ v = encode a ++ r ∧ r <+: code c ∧ r ≠ code c
  := by
  induction s generalizing v with
  | nil => exact absurd (List.prefix_nil.mp h) hne
  | cons c s ih =>
      rw [encode_cons] at h hne
      obtain hv | ⟨u, rfl⟩ := List.prefix_or_prefix_of_prefix h (List.prefix_append (code c) _)
      · by_cases heq : v = code c
        · subst heq
          have hs : encode s ≠ [] := fun hnil => hne (by rw [hnil, List.append_nil])
          obtain ⟨a, d, b, r, rfl, hr⟩ := ih List.nil_prefix (Ne.symm hs)
          refine ⟨c :: a, d, b, r, rfl, ?_, hr.2⟩
          rw [encode_cons, List.append_assoc, ← hr.1, List.append_nil]
        · exact ⟨[], c, s, v, rfl, rfl, hv, heq⟩
      · obtain ⟨a, d, b, r, rfl, rfl, hr⟩ := ih ((List.prefix_append_right_inj _).mp h)
          (fun heq => hne (by rw [heq]))
        exact ⟨c :: a, d, b, r, rfl, by rw [encode_cons, List.append_assoc], hr⟩

theorem isxdigit_escapeDigit (c : UInt8) :
  isxdigit (escapeDigit (c.toNat / 16)) = true
  := by
  revert c
  apply forall_byte
  decide +kernel

/-- What is left of a code that is cut off is nothing, a percent sign, or it and a digit. -/
theorem prefix_code_cases {c : UInt8} {r : List UInt8} (h : r <+: code c) (hne : r ≠ code c) :
  r = [] ∨ ∃ d e, code c = [37, d, e] ∧ isxdigit d = true ∧ (r = [37] ∨ r = [37, d])
  := by
  have hsingle : ∀ x, code c = [x] → r = [] := by
    intro x hx
    rw [hx, List.prefix_cons_iff] at h
    obtain hnil | ⟨t, rfl, ht⟩ := h
    · exact hnil
    · rw [List.prefix_nil.mp ht] at hne
      exact absurd hx.symm hne
  obtain ⟨-, hc⟩ | ⟨-, hc⟩ | hc := code_cases c
  · exact Or.inl (hsingle c hc)
  · exact Or.inl (hsingle 43 hc)
  · rw [hc] at h hne
    simp only [List.prefix_cons_iff, List.prefix_nil] at h
    obtain hnil | ⟨t, rfl, hnil | ⟨u, rfl, hnil | ⟨v, rfl, rfl⟩⟩⟩ := h
    · exact Or.inl hnil
    · exact Or.inr ⟨_, _, hc, isxdigit_escapeDigit c, Or.inl (by rw [hnil])⟩
    · exact Or.inr ⟨_, _, hc, isxdigit_escapeDigit c, Or.inr (by rw [hnil])⟩
    · exact absurd rfl hne

/-! ### Decoding -/

/-- The number that a hexadecimal digit denotes. -/
def digitValue (c : UInt8) : ℕ :=
  if isdigit c then c.toNat - 48 else if isupper c then c.toNat - 55 else c.toNat - 87

/-- The byte that a byte outside an escape stands for. -/
def plainByte (c : UInt8) : UInt8 :=
  if c = 43 then 32 else c

/-- A text decoded from left to right: a percent sign with two hexadecimal digits stands for the
byte that they denote, a plus for a space, and every other byte for itself. -/
def decode : List UInt8 → List UInt8
  | [] => []
  | [p] => [plainByte p]
  | [p, c] => [plainByte p, plainByte c]
  | p :: c :: d :: s =>
      if p = 37 ∧ isxdigit c ∧ isxdigit d then
        (16 * digitValue c + digitValue d).toUInt8 :: decode s
      else plainByte p :: decode (c :: d :: s)

theorem decode_escape {c d : UInt8} (hc : isxdigit c = true) (hd : isxdigit d = true)
    (s : List UInt8) :
  decode (37 :: c :: d :: s) = (16 * digitValue c + digitValue d).toUInt8 :: decode s
  := by rw [decode, if_pos ⟨rfl, hc, hd⟩]

theorem decode_plain {p : UInt8} {s : List UInt8}
    (h : ∀ c d t, s = c :: d :: t → ¬ (p = 37 ∧ isxdigit c = true ∧ isxdigit d = true)) :
  decode (p :: s) = plainByte p :: decode s
  := by
  match s with
  | [] => rfl
  | [c] => rfl
  | c :: d :: t => rw [decode, if_neg (h c d t rfl)]

/-- No percent sign is followed by one hexadecimal digit alone. -/
def WholeEscapes (s : List UInt8) : Prop :=
  ∀ a c t, s = a ++ 37 :: c :: t → isxdigit c = true → ∃ d u, t = d :: u ∧ isxdigit d = true

theorem WholeEscapes.of_append {x s : List UInt8} (h : WholeEscapes (x ++ s)) :
  WholeEscapes s
  := by
  rintro a c t rfl hc
  exact h (x ++ a) c t (List.append_assoc x a _).symm hc

/-- The escapes of a text are those of its end and the one that it begins with. -/
theorem wholeEscapes_cons {p : UInt8} {s : List UInt8} (hs : WholeEscapes s)
    (hp : ∀ c t, p = 37 → s = c :: t → isxdigit c = true →
      ∃ d u, t = d :: u ∧ isxdigit d = true) :
  WholeEscapes (p :: s)
  := by
  intro a c t heq hc
  cases a with
  | nil =>
      obtain ⟨rfl, rfl⟩ := List.cons.inj heq
      exact hp c t rfl rfl hc
  | cons b a =>
      obtain ⟨-, rfl⟩ := List.cons.inj heq
      exact hs a c t rfl hc

end Urlencoded
