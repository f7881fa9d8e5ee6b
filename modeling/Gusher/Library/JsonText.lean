import Gusher.Library.Json
import Mathlib.Tactic.IntervalCases

/-!
# The text of a JSON value

How a value is written without white space between its parts, and a reader for such a text.  What is
read from the text of an array or an object without reals is the value that was written
(`read_print`).
-/

namespace Json

/-- The character that encloses strings. -/
def quote : Char := Char.ofNat 34

/-- The character that starts an escape. -/
def backslash : Char := Char.ofNat 92

/-! ### Writing -/

def hexDigit (n : ℕ) : Char :=
  Nat.digitChar n

/-- A character of a string: what would end the string, the backslash and the control characters
are escaped. -/
def escape (c : Char) : List Char :=
  if c = quote ∨ c = backslash then [backslash, c]
  else if c.toNat = 8 then [backslash, 'b']
  else if c.toNat = 9 then [backslash, 't']
  else if c.toNat = 10 then [backslash, 'n']
  else if c.toNat = 12 then [backslash, 'f']
  else if c.toNat = 13 then [backslash, 'r']
  else if c.toNat < 32 then
    [backslash, 'u', '0', '0', hexDigit (c.toNat / 16), hexDigit (c.toNat % 16)]
  else [c]

/-- A string, up to its end. -/
def printString (s : List Char) : List Char :=
  s.flatMap escape ++ [quote]

/-- An integer. -/
def printInt (z : ℤ) : List Char :=
  if z < 0 then '-' :: Nat.toDigits 10 z.natAbs else Nat.toDigits 10 z.natAbs

mutual

/-- The text of a value. -/
def print : Json → List Char
  | null => "null".toList
  | bool true => "true".toList
  | bool false => "false".toList
  | int n => printInt n.toInt
  | real digits => digits
  | str s => quote :: printString s
  | arr items => '[' :: printItems items
  | obj members => '{' :: printMembers members

/-- The items of an array, up to its end. -/
def printItems : List Json → List Char
  | [] => [']']
  | x :: items => print x ++ if items.isEmpty then [']'] else ',' :: printItems items

/-- The members of an object, up to its end. -/
def printMembers : List (List Char × Json) → List Char
  | [] => ['}']
  | (k, x) :: members =>
      quote :: printString k ++ ':' :: print x
        ++ if members.isEmpty then ['}'] else ',' :: printMembers members

end

/-! ### Reading -/

/-- The value of a hexadecimal digit. -/
def hexValue (c : Char) : Option ℕ :=
  if c.isDigit then some (c.toNat - 48)
  else if 'a' ≤ c ∧ c ≤ 'f' then some (c.toNat - 87)
  else if 'A' ≤ c ∧ c ≤ 'F' then some (c.toNat - 55)
  else none

/-- The number with the given hexadecimal digits. -/
def hexNumber (n : ℕ) : List Char → Option ℕ
  | [] => some n
  | c :: s => (hexValue c).bind (fun d => hexNumber (16 * n + d) s)

/-- What follows the `u` of an escape: the code of a character other than NUL. -/
def readCode (s : List Char) : Option (Char × List Char) :=
  if 4 ≤ s.length then
    (hexNumber 0 (s.take 4)).bind (fun n =>
      if n.isValidChar ∧ 0 < n then some (Char.ofNat n, s.drop 4) else none)
  else none

/-- The character that an escape with one letter stands for. -/
def unescape (c : Char) : Option Char :=
  if c = quote ∨ c = backslash ∨ c = '/' then some c
  else if c = 'b' then some (Char.ofNat 8)
  else if c = 't' then some (Char.ofNat 9)
  else if c = 'n' then some (Char.ofNat 10)
  else if c = 'f' then some (Char.ofNat 12)
  else if c = 'r' then some (Char.ofNat 13)
  else none

/-- What follows the backslash of an escape. -/
def readEscape : List Char → Option (Char × List Char)
  | [] => none
  | c :: s => if c = 'u' then readCode s else (unescape c).map (·, s)

def readChar : List Char → Option (Char × List Char)
  | [] => none
  | c :: s =>
      if c = backslash then readEscape s
      else if c.toNat < 32 then none
      else some (c, s)

/-- A string of less than `n` characters, up to its end. -/
def readString : ℕ → List Char → Option (List Char × List Char)
  | 0, _ => none
  | n + 1, s =>
      if s.head? = some quote then some ([], s.tail)
      else (readChar s).bind (fun r => (readString n r.2).map (fun t => (r.1 :: t.1, t.2)))

def isNumberChar (c : Char) : Bool :=
  c.isDigit || c = '-' || c = '+' || c = '.' || c = 'e' || c = 'E'

/-- The natural number with the given decimal digits, the first of them not a needless zero. -/
def natOf (s : List Char) : Option ℕ :=
  if Nat.toDigits 10 (Nat.ofDigitChars 10 s 0) = s then some (Nat.ofDigitChars 10 s 0) else none

/-- An integer. -/
def intOf (s : List Char) : Option ℤ :=
  if s.head? = some '-' then (natOf s.tail).map (fun (n : ℕ) => -(n : ℤ))
  else (natOf s).map (fun (n : ℕ) => (n : ℤ))

/-- A number; an integer has to be in the range of 64 bits. -/
def numberOf (s : List Char) : Option Json :=
  if s.any (fun c => c = '.' || c = 'e' || c = 'E') then some (real s)
  else (intOf s).bind (fun z =>
    if -2 ^ 63 ≤ z ∧ z < 2 ^ 63 then some (int (Int64.ofInt z)) else none)

/-- A value that is written with a word, or a number. -/
def readAtom (s : List Char) : Option (Json × List Char) :=
  if "null".toList.isPrefixOf s then some (null, s.drop 4)
  else if "true".toList.isPrefixOf s then some (bool true, s.drop 4)
  else if "false".toList.isPrefixOf s then some (bool false, s.drop 5)
  else (numberOf (s.takeWhile isNumberChar)).map (·, s.dropWhile isNumberChar)

mutual

/-- The value at the start of a text, and what follows it; `n` bounds how deep and how long it
is. -/
def readValue : ℕ → List Char → Option (Json × List Char)
  | 0, _ => none
  | _ + 1, [] => none
  | n + 1, c :: s =>
      if c = quote then (readString n s).map (fun r => (str r.1, r.2))
      else if c = '[' then
        if s.head? = some ']' then some (arr [], s.tail)
        else (readItems n s).map (fun r => (arr r.1, r.2))
      else if c = '{' then
        if s.head? = some '}' then some (obj [], s.tail)
        else (readMembers n s).map (fun r => (obj (r.1.foldl (fun ms m => set ms m.1 m.2) []), r.2))
      else readAtom (c :: s)

/-- The items of an array that has some, up to its end. -/
def readItems : ℕ → List Char → Option (List Json × List Char)
  | 0, _ => none
  | n + 1, s =>
      (readValue n s).bind (fun r =>
        if r.2.head? = some ']' then some ([r.1], r.2.tail)
        else if r.2.head? = some ',' then (readItems n r.2.tail).map (fun t => (r.1 :: t.1, t.2))
        else none)

/-- The members of an object that has some, up to its end. -/
def readMembers : ℕ → List Char → Option (List (List Char × Json) × List Char)
  | 0, _ => none
  | n + 1, s =>
      if s.head? = some quote then
        (readString n s.tail).bind (fun k =>
          if k.2.head? = some ':' then
            (readValue n k.2.tail).bind (fun r =>
              if r.2.head? = some '}' then some ([(k.1, r.1)], r.2.tail)
              else if r.2.head? = some ',' then
                (readMembers n r.2.tail).map (fun t => ((k.1, r.1) :: t.1, t.2))
              else none)
          else none)
      else none

end

/-- The array or object with the given text. -/
def read (s : List Char) : Option Json :=
  match readValue s.length s with
  | some (x, []) => if x.isContainer then some x else none
  | _ => none

/-! ### Strings -/

theorem escape_plain {c : Char} (hspecial : ¬ (c = quote ∨ c = backslash)) (hlow : ¬ c.toNat < 32) :
  escape c = [c]
  := by
  rw [escape, if_neg hspecial, if_neg (by omega), if_neg (by omega), if_neg (by omega),
    if_neg (by omega), if_neg (by omega), if_neg hlow]

/-- A control character starts with a backslash. -/
theorem escape_control {c : Char} (hlow : c.toNat < 32) :
  ∃ s, escape c = backslash :: s
  := by
  unfold escape
  split_ifs <;> exact ⟨_, rfl⟩

/-- A character that is written is read. -/
theorem readChar_escape {c : Char} (hc : c ≠ Char.ofNat 0) (s : List Char) :
  readChar (escape c ++ s) = some (c, s)
  := by
  by_cases hspecial : c = quote ∨ c = backslash
  · obtain rfl | rfl := hspecial
    · rfl
    · rfl
  · by_cases hlow : c.toNat < 32
    · have hpos : 0 < c.toNat := by
        apply Nat.pos_of_ne_zero
        intro hzero
        apply hc
        rw [← hzero, Char.ofNat_toNat]
      have hcontrol : ∀ n, 0 < n → n < 32 →
          readChar (escape (Char.ofNat n) ++ s) = some (Char.ofNat n, s) := by
        intro n hpos hn
        interval_cases n <;> rfl
      have h := hcontrol c.toNat hpos hlow
      rwa [Char.ofNat_toNat] at h
    · have hbackslash : c ≠ backslash := fun h => hspecial (Or.inr h)
      rw [escape_plain hspecial hlow, List.singleton_append, readChar, if_neg hbackslash,
        if_neg hlow]

/-- A character of a string is not written with the character that ends the string. -/
theorem head?_escape_ne (c : Char) (s : List Char) :
  (escape c ++ s).head? ≠ some quote
  := by
  have hquote : backslash ≠ quote := by decide
  by_cases hspecial : c = quote ∨ c = backslash
  · rw [escape, if_pos hspecial]
    simpa using hquote
  · by_cases hlow : c.toNat < 32
    · obtain ⟨t, ht⟩ := escape_control hlow
      rw [ht]
      simpa using hquote
    · rw [escape_plain hspecial hlow]
      simpa using fun h => hspecial (Or.inl h)

/-- A character is not written as nothing. -/
theorem length_escape_pos (c : Char) :
  0 < (escape c).length
  := by
  by_cases hspecial : c = quote ∨ c = backslash
  · rw [escape, if_pos hspecial]
    simp
  · by_cases hlow : c.toNat < 32
    · obtain ⟨t, ht⟩ := escape_control hlow
      rw [ht]
      simp
    · rw [escape_plain hspecial hlow]
      simp

/-- A string that is written is read. -/
theorem readString_printString {s : List Char} (hs : Char.ofNat 0 ∉ s) {n : ℕ}
    (hn : (printString s).length ≤ n) (rest : List Char) :
  readString n (printString s ++ rest) = some (s, rest)
  := by
  induction s generalizing n with
  | nil =>
      cases n with
      | zero => simp [printString] at hn
      | succ n => rfl
  | cons c s ih =>
      simp only [List.mem_cons, not_or] at hs
      have htext : printString (c :: s) ++ rest = escape c ++ (printString s ++ rest) := by
        simp [printString]
      have hlength : (printString (c :: s)).length
          = (escape c).length + (printString s).length := by
        simp [printString]
      have hpos := length_escape_pos c
      cases n with
      | zero => omega
      | succ n =>
          rw [htext, readString, if_neg (head?_escape_ne _ _), readChar_escape (Ne.symm hs.1),
            Option.bind_some, ih hs.2 (by omega)]
          rfl

/-! ### Numbers -/

/-- The first character of the text of an integer. -/
theorem head_printInt (z : ℤ) :
  ∃ c s, printInt z = c :: s ∧ (c.isDigit ∨ c = '-')
  := by
  unfold printInt
  split
  case isTrue => exact ⟨_, _, rfl, Or.inr rfl⟩
  case isFalse =>
      cases hdigits : Nat.toDigits 10 z.natAbs with
      | nil => exact absurd hdigits Nat.toDigits_ne_nil
      | cons c s =>
          refine ⟨c, s, rfl, Or.inl ?_⟩
          apply Nat.isDigit_of_mem_toDigits (b := 10) (n := z.natAbs)
          · decide
          · decide
          · rw [hdigits]
            apply List.mem_cons_self

theorem natOf_toDigits (n : ℕ) :
  natOf (Nat.toDigits 10 n) = some n
  := by
  rw [natOf, Nat.ofDigitChars_ten_toDigits, if_pos rfl]

theorem isDigit_toDigits {n : ℕ} {c : Char} (h : c ∈ Nat.toDigits 10 n) :
  c.isDigit = true
  := Nat.isDigit_of_mem_toDigits (by decide) (by decide) h

/-- The characters of the text of an integer. -/
theorem mem_printInt {z : ℤ} {c : Char} (h : c ∈ printInt z) :
  c.isDigit = true ∨ c = '-'
  := by
  unfold printInt at h
  split at h
  case isTrue =>
      obtain rfl | h := List.mem_cons.mp h
      · exact Or.inr rfl
      · exact Or.inl (isDigit_toDigits h)
  case isFalse => exact Or.inl (isDigit_toDigits h)

/-- The text of an integer is read. -/
theorem intOf_printInt (z : ℤ) :
  intOf (printInt z) = some z
  := by
  unfold intOf printInt
  split
  case isTrue hz =>
      rw [List.head?_cons, if_pos rfl, List.tail_cons, natOf_toDigits, Option.map_some]
      congr 1
      omega
  case isFalse hz =>
      have hhead : (Nat.toDigits 10 z.natAbs).head? ≠ some '-' := by
        intro h
        have hdigit := isDigit_toDigits (List.mem_of_mem_head? h)
        exact absurd hdigit (by decide)
      rw [if_neg hhead, natOf_toDigits, Option.map_some]
      congr 1
      omega

/-- The text of an integer of 64 bits is read. -/
theorem numberOf_printInt (n : Int64) :
  numberOf (printInt n.toInt) = some (int n)
  := by
  have hplain : ¬ (printInt n.toInt).any (fun c => c = '.' || c = 'e' || c = 'E') = true := by
    simp only [List.any_eq_true, not_exists, not_and]
    intro c hc
    obtain hdigit | rfl := mem_printInt hc
    · intro hreal
      simp only [Bool.or_eq_true, decide_eq_true_eq] at hreal
      obtain (rfl | rfl) | rfl := hreal <;> exact absurd hdigit (by decide)
    · decide
  rw [numberOf, if_neg hplain, intOf_printInt, Option.bind_some,
    if_pos ⟨n.le_toInt, n.toInt_lt⟩, Int64.ofInt_toInt]

/-- What follows a value does not continue a number. -/
def Ends (rest : List Char) : Prop :=
  ∀ c ∈ rest.head?, isNumberChar c = false

/-- The first characters of a text followed by something that is no part of it. -/
theorem takeWhile_append_of_ends {s rest : List Char} (hs : ∀ c ∈ s, isNumberChar c = true)
    (hrest : Ends rest) :
  (s ++ rest).takeWhile isNumberChar = s ∧ (s ++ rest).dropWhile isNumberChar = rest
  := by
  rw [List.takeWhile_append_of_pos hs, List.dropWhile_append_of_pos hs]
  cases rest with
  | nil => simp
  | cons c rest =>
      have hc := hrest c rfl
      simp [hc]

/-- The text of an integer is read up to its end. -/
theorem readAtom_printInt (n : Int64) {rest : List Char} (hrest : Ends rest) :
  readAtom (printInt n.toInt ++ rest) = some (int n, rest)
  := by
  obtain ⟨c, s, hs, hc⟩ := head_printInt n.toInt
  have hletter : ∀ {w : List Char} {d : Char}, d.isDigit = false ∧ d ≠ '-' →
      (d :: w).isPrefixOf (printInt n.toInt ++ rest) = false := by
    intro w d hd
    have hne : d ≠ c := by
      rintro rfl
      obtain hdigit | hminus := hc
      · rw [hd.1] at hdigit
        exact absurd hdigit (by decide)
      · exact hd.2 hminus
    rw [hs, List.cons_append, List.isPrefixOf_cons_cons, beq_eq_false_iff_ne.mpr hne, Bool.false_and]
  have hchars : ∀ d ∈ printInt n.toInt, isNumberChar d = true := by
    intro d hd
    obtain hdigit | rfl := mem_printInt hd
    · simp [isNumberChar, hdigit]
    · decide
  obtain ⟨htake, hdrop⟩ := takeWhile_append_of_ends hchars hrest
  have hn : ¬ "null".toList.isPrefixOf (printInt n.toInt ++ rest) = true := by
    rw [show "null".toList = ['n', 'u', 'l', 'l'] from rfl, hletter (by decide)]
    decide
  have ht : ¬ "true".toList.isPrefixOf (printInt n.toInt ++ rest) = true := by
    rw [show "true".toList = ['t', 'r', 'u', 'e'] from rfl, hletter (by decide)]
    decide
  have hf : ¬ "false".toList.isPrefixOf (printInt n.toInt ++ rest) = true := by
    rw [show "false".toList = ['f', 'a', 'l', 's', 'e'] from rfl, hletter (by decide)]
    decide
  rw [readAtom, if_neg hn, if_neg ht, if_neg hf, htake, hdrop, numberOf_printInt, Option.map_some]

/-! ### Values -/

/-- What comes before the text of a value is not taken for the end of the array. -/
theorem head_print {j : Json} (hj : j.NoReal) :
  ∃ c s, print j = c :: s ∧ c ≠ ']'
  := by
  cases j with
  | null => exact ⟨_, _, rfl, by decide⟩
  | bool b =>
      cases b with
      | true => exact ⟨_, _, rfl, by decide⟩
      | false => exact ⟨_, _, rfl, by decide⟩
  | int n =>
      obtain ⟨c, s, hs, hc⟩ := head_printInt n.toInt
      refine ⟨c, s, hs, ?_⟩
      rintro rfl
      exact absurd hc (by decide)
  | real digits => exact absurd (.refl _) (hj digits)
  | str s => exact ⟨_, _, rfl, by decide⟩
  | arr items => exact ⟨_, _, rfl, by decide⟩
  | obj members => exact ⟨_, _, rfl, by decide⟩

/-- The value is read when it is followed by what does not continue it. -/
def Readable (j : Json) : Prop :=
  ∀ n rest, (print j).length ≤ n → Ends rest → readValue n (print j ++ rest) = some (j, rest)

/-- The items of an array are read when each of them is. -/
theorem readItems_printItems {x : Json} {items : List Json}
    (hitems : ∀ y ∈ x :: items, y.Readable) {n : ℕ}
    (hn : (printItems (x :: items)).length ≤ n) (rest : List Char) :
  readItems n (printItems (x :: items) ++ rest) = some (x :: items, rest)
  := by
  induction items generalizing x n with
  | nil =>
      have hx := hitems x List.mem_cons_self
      simp only [printItems, List.isEmpty_nil, if_true, List.length_append, List.length_cons,
        List.length_nil] at hn ⊢
      cases n with
      | zero => omega
      | succ n =>
          have hends : Ends (']' :: rest) := by
            rintro c ⟨⟩
            decide
          rw [readItems, List.append_assoc, List.singleton_append, hx n _ (by omega) hends]
          rfl
  | cons y items ih =>
      have hx := hitems x List.mem_cons_self
      have hlength : (printItems (x :: y :: items)).length
          = (print x).length + ((printItems (y :: items)).length + 1) := by
        simp [printItems]
      cases n with
      | zero => omega
      | succ n =>
          have hends : Ends (',' :: (printItems (y :: items) ++ rest)) := by
            rintro c ⟨⟩
            decide
          have htext : printItems (x :: y :: items) ++ rest
              = print x ++ ',' :: (printItems (y :: items) ++ rest) := by
            rw [printItems, List.isEmpty_cons, if_neg (by decide), List.append_assoc,
              List.cons_append]
          have hrest := ih (fun z hz => hitems z (List.mem_cons_of_mem x hz)) (n := n) (by omega)
          rw [htext, readItems, hx n _ (by omega) hends, Option.bind_some]
          simp only [List.head?_cons, List.tail_cons, hrest]
          rfl

/-- A member is read up to what follows its value. -/
theorem readMembers_member {k : List Char} {x : Json} (hk : Char.ofNat 0 ∉ k) (hx : x.Readable)
    {n : ℕ} (hlength : (printString k).length + (print x).length ≤ n) {rest : List Char}
    (hrest : Ends rest) :
  readMembers (n + 1) (quote :: (printString k ++ ':' :: (print x ++ rest)))
    = if rest.head? = some '}' then some ([(k, x)], rest.tail)
      else if rest.head? = some ',' then
        (readMembers n rest.tail).map (fun t => ((k, x) :: t.1, t.2))
      else none
  := by
  have hkey := readString_printString hk (n := n) (by omega) (':' :: (print x ++ rest))
  have hvalue := hx n rest (by omega) hrest
  rw [readMembers, List.head?_cons, if_pos rfl, List.tail_cons, hkey, Option.bind_some]
  simp only [List.head?_cons, if_true, List.tail_cons, hvalue, Option.bind_some]

/-- The members of an object are read when the value of each is. -/
theorem readMembers_printMembers {m : List Char × Json} {members : List (List Char × Json)}
    (hmembers : ∀ a ∈ m :: members, a.2.Readable)
    (hkeys : ∀ a ∈ m :: members, Char.ofNat 0 ∉ a.1) {n : ℕ}
    (hn : (printMembers (m :: members)).length ≤ n) (rest : List Char) :
  readMembers n (printMembers (m :: members) ++ rest) = some (m :: members, rest)
  := by
  obtain ⟨k, x⟩ := m
  have hx : x.Readable := hmembers (k, x) List.mem_cons_self
  have hk : Char.ofNat 0 ∉ k := hkeys (k, x) List.mem_cons_self
  induction members generalizing k x n with
  | nil =>
      have hlength : (printMembers [(k, x)]).length
          = (printString k).length + (print x).length + 3 := by
        simp only [printMembers, List.isEmpty_nil, if_true, List.length_append,
          List.length_cons, List.length_nil]
        omega
      have htext : printMembers [(k, x)] ++ rest
          = quote :: (printString k ++ ':' :: (print x ++ '}' :: rest)) := by
        simp [printMembers]
      have hends : Ends ('}' :: rest) := by
        rintro c ⟨⟩
        decide
      cases n with
      | zero => omega
      | succ n => rw [htext, readMembers_member hk hx (by omega) hends, List.head?_cons,
          if_pos rfl, List.tail_cons]
  | cons m members ih =>
      have hlength : (printMembers ((k, x) :: m :: members)).length
          = (printString k).length + (print x).length
            + (printMembers (m :: members)).length + 3 := by
        rw [printMembers, List.isEmpty_cons, if_neg (by decide)]
        simp only [List.length_append, List.length_cons]
        omega
      have htext : printMembers ((k, x) :: m :: members) ++ rest
          = quote :: (printString k ++ ':' :: (print x
            ++ ',' :: (printMembers (m :: members) ++ rest))) := by
        rw [printMembers, List.isEmpty_cons, if_neg (by decide)]
        simp
      have hends : Ends (',' :: (printMembers (m :: members) ++ rest)) := by
        rintro c ⟨⟩
        decide
      cases n with
      | zero => omega
      | succ n =>
          have hn' : (printMembers ((m.1, m.2) :: members)).length ≤ n := by
            rw [Prod.mk.eta]
            omega
          have hrest := ih m.1 m.2 (fun a ha => hmembers a (List.mem_cons_of_mem _ ha))
            (fun a ha => hkeys a (List.mem_cons_of_mem _ ha)) hn'
            (hmembers m (List.mem_cons_of_mem _ List.mem_cons_self))
            (hkeys m (List.mem_cons_of_mem _ List.mem_cons_self))
          rw [htext, readMembers_member hk hx (by omega) hends, List.head?_cons,
            if_neg (by decide), if_pos rfl, List.tail_cons, hrest, Option.map_some]

/-- A value without reals is read. -/
theorem readable {j : Json} (hj : j.Wf) (hreal : j.NoReal) :
  j.Readable
  := by
  induction j with
  | null =>
      intro n rest hn hrest
      cases n with
      | zero => exact absurd hn (by decide)
      | succ n => rfl
  | bool b =>
      intro n rest hn hrest
      cases n with
      | zero => cases b <;> exact absurd hn (by decide)
      | succ n => cases b <;> rfl
  | int z =>
      intro n rest hn hrest
      obtain ⟨c, s, hs, hc⟩ := head_printInt z.toInt
      cases n with
      | zero =>
          rw [print, hs] at hn
          exact absurd hn (by simp)
      | succ n =>
          have hne : ∀ d : Char, d.isDigit = false ∧ d ≠ '-' → c ≠ d := by
            rintro d ⟨hdigit, hminus⟩ rfl
            obtain h | h := hc
            · rw [hdigit] at h
              exact absurd h (by decide)
            · exact hminus h
          have hatom := readAtom_printInt z hrest
          rw [print]
          rw [hs, List.cons_append] at hatom ⊢
          rw [readValue, if_neg (hne _ (by decide)), if_neg (hne _ (by decide)),
            if_neg (hne _ (by decide)), hatom]
  | real digits => exact absurd (.refl _) (hreal digits)
  | str s =>
      intro n rest hn hrest
      have hs : Char.ofNat 0 ∉ s := hj _ (.refl _)
      cases n with
      | zero => exact absurd hn (by simp [print])
      | succ n =>
          simp only [print, List.length_cons] at hn
          rw [print, List.cons_append, readValue, if_pos rfl,
            readString_printString hs (by omega), Option.map_some]
  | arr items ih =>
      intro n rest hn hrest
      have hitems : ∀ x ∈ items, x.Readable :=
        fun x hx => ih x hx (hj.item hx) (hreal.item hx)
      cases n with
      | zero => exact absurd hn (by simp [print])
      | succ n =>
          rw [print, List.cons_append, readValue, if_neg (by decide), if_pos rfl]
          cases items with
          | nil => rfl
          | cons x items =>
              obtain ⟨c, s, hs, hc⟩ := head_print (hreal.item List.mem_cons_self)
              have hhead : (printItems (x :: items) ++ rest).head? ≠ some ']' := by
                rw [printItems, hs]
                simpa using hc
              simp only [print, List.length_cons] at hn
              rw [if_neg hhead, readItems_printItems hitems (by omega), Option.map_some]
  | obj members ih =>
      intro n rest hn hrest
      have hmembers : ∀ m ∈ members, m.2.Readable :=
        fun m hm => ih m hm (hj.member hm) (hreal.member hm)
      obtain ⟨hnodup, hkeys⟩ : (obj members).Sound := hj _ (.refl _)
      cases n with
      | zero => exact absurd hn (by simp [print])
      | succ n =>
          rw [print, List.cons_append, readValue, if_neg (by decide), if_neg (by decide),
            if_pos rfl]
          cases members with
          | nil => rfl
          | cons m members =>
              have hhead : (printMembers (m :: members) ++ rest).head? ≠ some '}' := by
                rw [printMembers, List.cons_append, List.cons_append, List.cons_append,
                  List.head?_cons]
                decide
              simp only [print, List.length_cons] at hn
              rw [if_neg hhead, readMembers_printMembers hmembers hkeys (by omega),
                Option.map_some, foldl_set hnodup, List.nil_append]

/-- The array or object that is read is the one that was written. -/
theorem read_print {j : Json} (hj : j.Wf) (hreal : j.NoReal) (hcontainer : j.isContainer = true) :
  read (print j) = some j
  := by
  have hvalue := readable hj hreal (print j).length [] (Nat.le_refl _) (by simp [Ends])
  rw [List.append_nil] at hvalue
  rw [read, hvalue]
  simp only [hcontainer, if_true]

/-! ### What is read -/

/-- No character that is read is a NUL. -/
theorem readChar_ne_nul {s rest : List Char} {c : Char} (h : readChar s = some (c, rest)) :
  c ≠ Char.ofNat 0
  := by
  cases s with
  | nil => cases h
  | cons d s =>
      rw [readChar] at h
      split_ifs at h with hbackslash hlow
      · cases s with
        | nil => cases h
        | cons e s =>
            rw [readEscape] at h
            split_ifs at h with hu
            · unfold readCode at h
              split_ifs at h
              obtain ⟨n, -, hn⟩ := Option.bind_eq_some_iff.mp h
              obtain ⟨⟨hvalid, hpos⟩, hc⟩ := Option.ite_none_right_eq_some.mp hn
              obtain ⟨rfl, -⟩ := Prod.mk.inj (Option.some.inj hc)
              intro hzero
              have hcode := congrArg Char.toNat hzero
              have hn : (Char.ofNat n).toNat = n := by
                rw [Char.ofNat, dif_pos hvalid]
                rfl
              rw [hn] at hcode
              rw [hcode] at hpos
              exact absurd hpos (by decide)
            · obtain ⟨d, hd, hc⟩ := Option.map_eq_some_iff.mp h
              obtain ⟨rfl, -⟩ := Prod.mk.inj hc
              unfold unescape at hd
              split_ifs at hd with hself
              · obtain rfl := Option.some.inj hd
                obtain rfl | rfl | rfl := hself <;> decide
              all_goals
                rw [← Option.some.inj hd]
                decide
      · obtain ⟨rfl, -⟩ := Prod.mk.inj (Option.some.inj h)
        rintro rfl
        exact hlow (by decide)

/-- There is no NUL in a string that is read. -/
theorem readString_no_nul {n : ℕ} {s t rest : List Char} (h : readString n s = some (t, rest)) :
  Char.ofNat 0 ∉ t
  := by
  induction n generalizing s t rest with
  | zero => cases h
  | succ n ih =>
      rw [readString] at h
      split_ifs at h with hquote
      · obtain ⟨rfl, -⟩ := Prod.mk.inj (Option.some.inj h)
        simp
      · obtain ⟨⟨c, s'⟩, hc, h⟩ := Option.bind_eq_some_iff.mp h
        obtain ⟨⟨u, s''⟩, hu, h⟩ := Option.map_eq_some_iff.mp h
        obtain ⟨rfl, -⟩ := Prod.mk.inj h
        simp only [List.mem_cons, not_or]
        exact ⟨Ne.symm (readChar_ne_nul hc), ih hu⟩

/-- A word or a number is well-formed. -/
theorem wf_readAtom {s rest : List Char} {j : Json} (h : readAtom s = some (j, rest)) :
  j.Wf
  := by
  have hnumber : ∀ {t : List Char}, numberOf t = some j → j.Wf := by
    intro t ht
    unfold numberOf at ht
    split_ifs at ht
    · obtain rfl := Option.some.inj ht
      exact wf_atom (fun x hx => by cases hx; rfl) trivial
    · obtain ⟨z, -, hz⟩ := Option.bind_eq_some_iff.mp ht
      obtain ⟨-, hz⟩ := Option.ite_none_right_eq_some.mp hz
      obtain rfl := Option.some.inj hz
      exact wf_atom (fun x hx => by cases hx; rfl) trivial
  unfold readAtom at h
  split_ifs at h
  · obtain ⟨rfl, -⟩ := Prod.mk.inj (Option.some.inj h)
    exact wf_atom (fun x hx => by cases hx; rfl) trivial
  · obtain ⟨rfl, -⟩ := Prod.mk.inj (Option.some.inj h)
    exact wf_atom (fun x hx => by cases hx; rfl) trivial
  · obtain ⟨rfl, -⟩ := Prod.mk.inj (Option.some.inj h)
    exact wf_atom (fun x hx => by cases hx; rfl) trivial
  · obtain ⟨x, hx, h⟩ := Option.map_eq_some_iff.mp h
    obtain ⟨rfl, -⟩ := Prod.mk.inj h
    apply hnumber hx

/-- What is read is well-formed. -/
theorem wf_read_parts (n : ℕ) :
  (∀ s j rest, readValue n s = some (j, rest) → j.Wf) ∧
    (∀ s items rest, readItems n s = some (items, rest) → ∀ x ∈ items, x.Wf) ∧
    (∀ s members rest, readMembers n s = some (members, rest) →
      ∀ m ∈ members, Char.ofNat 0 ∉ m.1 ∧ m.2.Wf)
  := by
  induction n with
  | zero =>
      refine ⟨?_, ?_, ?_⟩
      · intro s j rest h
        cases h
      · intro s items rest h
        cases h
      · intro s members rest h
        cases h
  | succ n ih =>
      obtain ⟨hvalue, hitems, hmembers⟩ := ih
      have hempty : (obj []).Wf := wf_obj ⟨List.nodup_nil, by simp⟩ (by simp)
      refine ⟨?_, ?_, ?_⟩
      · intro s j rest h
        cases s with
        | nil => cases h
        | cons c s =>
            rw [readValue] at h
            split_ifs at h
            · obtain ⟨⟨t, s'⟩, ht, h⟩ := Option.map_eq_some_iff.mp h
              obtain ⟨rfl, -⟩ := Prod.mk.inj h
              exact wf_atom (fun x hx => by cases hx; rfl) (readString_no_nul ht)
            · obtain ⟨rfl, -⟩ := Prod.mk.inj (Option.some.inj h)
              apply wf_arr
              simp
            · obtain ⟨⟨xs, s'⟩, hxs, h⟩ := Option.map_eq_some_iff.mp h
              obtain ⟨rfl, -⟩ := Prod.mk.inj h
              apply wf_arr (hitems _ _ _ hxs)
            · obtain ⟨rfl, -⟩ := Prod.mk.inj (Option.some.inj h)
              exact hempty
            · obtain ⟨⟨ms, s'⟩, hms, h⟩ := Option.map_eq_some_iff.mp h
              obtain ⟨rfl, -⟩ := Prod.mk.inj h
              apply foldl_set_sound hempty (hmembers _ _ _ hms)
            · apply wf_readAtom h
      · intro s items rest h
        rw [readItems] at h
        obtain ⟨⟨x, s'⟩, hx, h⟩ := Option.bind_eq_some_iff.mp h
        split_ifs at h
        · obtain ⟨rfl, -⟩ := Prod.mk.inj (Option.some.inj h)
          intro y hy
          obtain rfl := List.mem_singleton.mp hy
          apply hvalue _ _ _ hx
        · obtain ⟨⟨ys, s''⟩, hys, h⟩ := Option.map_eq_some_iff.mp h
          obtain ⟨rfl, -⟩ := Prod.mk.inj h
          intro y hy
          obtain rfl | hy := List.mem_cons.mp hy
          · apply hvalue _ _ _ hx
          · apply hitems _ _ _ hys y hy
      · intro s members rest h
        rw [readMembers] at h
        split_ifs at h
        obtain ⟨⟨k, s'⟩, hk, h⟩ := Option.bind_eq_some_iff.mp h
        simp only at h
        split_ifs at h
        obtain ⟨⟨x, s''⟩, hx, h⟩ := Option.bind_eq_some_iff.mp h
        have hm : Char.ofNat 0 ∉ k ∧ x.Wf := ⟨readString_no_nul hk, hvalue _ _ _ hx⟩
        split_ifs at h
        · obtain ⟨rfl, -⟩ := Prod.mk.inj (Option.some.inj h)
          intro m' hm'
          obtain rfl := List.mem_singleton.mp hm'
          exact hm
        · obtain ⟨⟨ms, s₃⟩, hms, h⟩ := Option.map_eq_some_iff.mp h
          obtain ⟨rfl, -⟩ := Prod.mk.inj h
          intro m' hm'
          obtain rfl | hm' := List.mem_cons.mp hm'
          · exact hm
          · apply hmembers _ _ _ hms m' hm'

/-- A text that is read gives a well-formed array or object. -/
theorem wf_read {s : List Char} {j : Json} (h : read s = some j) :
  j.Wf ∧ j.isContainer = true
  := by
  unfold read at h
  split at h
  case h_1 x hx =>
      obtain ⟨hcontainer, h⟩ := Option.ite_none_right_eq_some.mp h
      obtain rfl := Option.some.inj h
      exact ⟨(wf_read_parts s.length).1 _ _ _ hx, hcontainer⟩
  case h_2 => cases h

/-! ### Texts without NUL -/

/-- There is no NUL in the text of a character other than NUL. -/
theorem no_nul_escape {c : Char} (hc : c ≠ Char.ofNat 0) :
  Char.ofNat 0 ∉ escape c
  := by
  by_cases hspecial : c = quote ∨ c = backslash
  · obtain rfl | rfl := hspecial <;> decide
  · by_cases hlow : c.toNat < 32
    · have hcontrol : ∀ n < 32, 0 < n → Char.ofNat 0 ∉ escape (Char.ofNat n) := by decide
      have hpos : 0 < c.toNat := by
        apply Nat.pos_of_ne_zero
        intro hzero
        apply hc
        rw [← hzero, Char.ofNat_toNat]
      have h := hcontrol c.toNat hlow hpos
      rwa [Char.ofNat_toNat] at h
    · rw [escape_plain hspecial hlow, List.mem_singleton]
      apply hc.symm

theorem no_nul_printString {s : List Char} (h : Char.ofNat 0 ∉ s) :
  Char.ofNat 0 ∉ printString s
  := by
  rw [printString, List.mem_append, List.mem_flatMap, List.mem_singleton]
  rintro (⟨c, hc, hnul⟩ | hnul)
  · apply no_nul_escape _ hnul
    rintro rfl
    exact h hc
  · exact absurd hnul (by decide)

theorem no_nul_printInt (z : ℤ) :
  Char.ofNat 0 ∉ printInt z
  := by
  intro h
  have hdigit := mem_printInt h
  exact absurd hdigit (by decide)

/-- There is no NUL in the text of the items when there is none in the text of each. -/
theorem no_nul_printItems {items : List Json} (h : ∀ x ∈ items, Char.ofNat 0 ∉ print x) :
  Char.ofNat 0 ∉ printItems items
  := by
  induction items with
  | nil => decide
  | cons x items ih =>
      have hrest := ih (fun y hy => h y (List.mem_cons_of_mem x hy))
      rw [printItems, List.mem_append, not_or]
      refine ⟨h x List.mem_cons_self, ?_⟩
      split_ifs
      · decide
      · rw [List.mem_cons, not_or]
        exact ⟨by decide, hrest⟩

theorem no_nul_printMembers {members : List (List Char × Json)}
    (hkeys : ∀ m ∈ members, Char.ofNat 0 ∉ m.1) (h : ∀ m ∈ members, Char.ofNat 0 ∉ print m.2) :
  Char.ofNat 0 ∉ printMembers members
  := by
  induction members with
  | nil => decide
  | cons m members ih =>
      have hrest := ih (fun n hn => hkeys n (List.mem_cons_of_mem m hn))
        (fun n hn => h n (List.mem_cons_of_mem m hn))
      have hkey := no_nul_printString (hkeys m List.mem_cons_self)
      have hvalue := h m List.mem_cons_self
      have hend : Char.ofNat 0 ∉ if members.isEmpty then ['}'] else ',' :: printMembers members := by
        split_ifs
        · decide
        · rw [List.mem_cons, not_or]
          exact ⟨by decide, hrest⟩
      have hquote : Char.ofNat 0 ≠ quote := by decide
      have hcolon : Char.ofNat 0 ≠ ':' := by decide
      simp only [printMembers, List.mem_append, List.mem_cons, not_or]
      exact ⟨⟨⟨hquote, hkey⟩, hcolon, hvalue⟩, hend⟩

/-- There is no NUL in the text of a value without reals. -/
theorem no_nul_print {j : Json} (hj : j.Wf) (hreal : j.NoReal) :
  Char.ofNat 0 ∉ print j
  := by
  induction j with
  | null => decide
  | bool b => cases b <;> decide
  | int n => apply no_nul_printInt
  | real digits => exact absurd (.refl _) (hreal digits)
  | str s =>
      have hs : Char.ofNat 0 ∉ s := hj _ (.refl _)
      rw [print, List.mem_cons, not_or]
      exact ⟨by decide, no_nul_printString hs⟩
  | arr items ih =>
      rw [print, List.mem_cons, not_or]
      refine ⟨by decide, no_nul_printItems ?_⟩
      intro x hx
      apply ih x hx (hj.item hx) (hreal.item hx)
  | obj members ih =>
      obtain ⟨-, hkeys⟩ : (obj members).Sound := hj _ (.refl _)
      rw [print, List.mem_cons, not_or]
      refine ⟨by decide, no_nul_printMembers hkeys ?_⟩
      intro m hm
      apply ih m hm (hj.member hm) (hreal.member hm)

end Json
