import Gusher.Library.CString
import Mathlib.Algebra.Group.Int.Defs
import Mathlib.Algebra.Group.Nat.Defs
import Mathlib.Data.List.Basic

/-!
# Scheme objects

The objects that pass between the C code and Scheme, and the operations of libguile on
association lists and on strings that the C code calls.
-/

namespace Gusher

/-- The characters of a Scheme string, or of the name of a symbol. -/
abbrev Text := List Char

/-- `struct g_time`: the broken-down local time (with the calendar year and month), the epoch in
seconds, and the microseconds. -/
structure GTime where
  year : ℤ
  month : ℤ
  day : ℤ
  hour : ℤ
  minute : ℤ
  second : ℤ
  gmtoff : ℤ
  epoch : ℤ
  usec : ℤ
  deriving DecidableEq

/-- A Scheme object. -/
inductive Scm where
  /-- `SCM_EOL` -/
  | nil
  | bool (b : Bool)
  /-- an exact integer -/
  | int (z : ℤ)
  /-- any other number, as `number->string` writes it -/
  | number (digits : Text)
  | str (s : Text)
  | symbol (name : Text)
  | pair (car cdr : Scm)
  /-- a timestamp -/
  | time (t : GTime)
  /-- any other object: a procedure, a node of the cache, a connection -/
  | other (address : ℕ)
  deriving DecidableEq

namespace Scm

instance : Inhabited Scm := ⟨.bool false⟩

/-- A list of Scheme objects. -/
def ofList (l : List Scm) : Scm :=
  l.foldr .pair .nil

/-- A member of an association list. -/
def member (m : Text × Scm) : Scm :=
  .pair (.symbol m.1) m.2

/-- An association list with symbols for keys. -/
def alist (members : List (Text × Scm)) : Scm :=
  .ofList (members.map member)

@[simp]
theorem ofList_nil :
  ofList [] = .nil
  := rfl

@[simp]
theorem ofList_cons (x : Scm) (xs : List Scm) :
  ofList (x :: xs) = .pair x (ofList xs)
  := rfl

theorem ofList_inj {xs ys : List Scm} :
  ofList xs = ofList ys ↔ xs = ys
  := by
  constructor
  · intro h
    induction xs generalizing ys with
    | nil =>
        cases ys with
        | nil => rfl
        | cons y ys => cases h
    | cons x xs ih =>
        cases ys with
        | nil => cases h
        | cons y ys =>
            obtain ⟨rfl, hrest⟩ := Scm.pair.inj h
            rw [ih hrest]
  · rintro rfl
    rfl

@[simp]
theorem alist_nil :
  alist [] = .nil
  := rfl

@[simp]
theorem alist_cons (m : Text × Scm) (members : List (Text × Scm)) :
  alist (m :: members) = .pair (.pair (.symbol m.1) m.2) (alist members)
  := rfl

theorem alist_inj {members members' : List (Text × Scm)} :
  alist members = alist members' ↔ members = members'
  := by
  have hmember : Function.Injective member := by
    rintro ⟨k, v⟩ ⟨k', v'⟩ h
    obtain ⟨hk, rfl⟩ := Scm.pair.inj h
    exact Prod.ext (Scm.symbol.inj hk) rfl
  rw [alist, alist, ofList_inj, (List.map_injective_iff.mpr hmember).eq_iff]

/-- `scm_acons`, with a symbol for key. -/
def acons (key : String) (value alist : Scm) : Scm :=
  pair (pair (symbol key.toList) value) alist

/-- `scm_assq_ref`: the value of the first entry with the given symbol for key, or `#f`; what
is not an entry is skipped. -/
def assqRef : Scm → Text → Scm
  | pair (pair k value) rest, key => if k = symbol key then value else rest.assqRef key
  | pair _ rest, key => rest.assqRef key
  | _, _ => bool false

@[simp]
theorem assqRef_entry (k : Scm) (value rest : Scm) (key : Text) :
  (pair (pair k value) rest).assqRef key = if k = symbol key then value else rest.assqRef key
  := rfl

@[simp]
theorem assqRef_acons (name : String) (value alist : Scm) (key : Text) :
  (acons name value alist).assqRef key
    = if name.toList = key then value else alist.assqRef key
  := by
  simp [acons]

end Scm

/-- The character encoding of the locale: `scm_from_locale_string`, and `scm_to_locale_string`.  A
character that the locale cannot encode raises an exception, as with the conversion strategy `error`
(the default of Guile is to substitute a question mark), and so does a NUL; UTF-8 encodes every other
character. -/
structure Locale where
  decode : List UInt8 → Text
  encode : Text → Option (List UInt8)

namespace Locale

def makesym (loc : Locale) (s : List UInt8) : Scm :=
  .symbol (loc.decode s)

/-- `scm_to_locale_string` of an object, which has to be a string; `none` stands for the
exception. -/
def toLocaleString (loc : Locale) : Scm → Option (List UInt8)
  | .str s => loc.encode s
  | _ => none

end Locale

/-- The string that has the given bytes for characters (`scm_from_latin1_string`). -/
def fromLatin1 (s : List UInt8) : Text :=
  s.map (fun c => Char.ofNat c.toNat)

/-- The bytes of a string of Latin-1 characters other than NUL (`scm_to_latin1_string`). -/
def toLatin1 (s : Text) : Option (List UInt8) :=
  s.mapM (fun c => if 0 < c.toNat ∧ c.toNat < 256 then some c.toNat.toUInt8 else none)

/-- The UTF-8 bytes of a string without a NUL (`scm_to_utf8_string`). -/
def toUtf8 (s : Text) : Option (List UInt8) :=
  if Char.ofNat 0 ∈ s then none else some (s.flatMap String.utf8EncodeChar)

/-- Converts at most `n` characters; a byte that does not start one becomes a question mark. -/
def decodeUtf8 : ℕ → List UInt8 → Text
  | 0, _ => []
  | _ + 1, [] => []
  | n + 1, b :: s =>
      match ByteArray.utf8DecodeChar? (b :: s).toByteArray 0 with
      | some c => c :: decodeUtf8 n ((b :: s).drop c.utf8Size)
      | none => '?' :: decodeUtf8 n s

def safeFromUtf8 (s : List UInt8) : Text :=
  decodeUtf8 s.length s

/-- An exact integer in decimal (`scm_number_to_string`). -/
def numberText (z : ℤ) : Text :=
  if z < 0 then '-' :: Nat.toDigits 10 z.natAbs else Nat.toDigits 10 z.natAbs

/-- Characters whose codes are bytes other than NUL are converted to their codes. -/
theorem toLatin1_eq_map {s : Text} (h : ∀ c ∈ s, 0 < c.toNat ∧ c.toNat < 256) :
  toLatin1 s = some (s.map (fun c => c.toNat.toUInt8))
  := by
  induction s with
  | nil => rfl
  | cons c s ih =>
      have hs := ih (fun d hd => h d (List.mem_cons_of_mem _ hd))
      unfold toLatin1 at hs ⊢
      rw [List.mapM_cons, hs, if_pos (h c List.mem_cons_self)]
      rfl

theorem toNat_ofNat_toNat (c : UInt8) :
  (Char.ofNat c.toNat).toNat = c.toNat
  := by
  have hvalid : c.toNat.isValidChar := Or.inl (Nat.lt_trans c.toNat_lt (by decide))
  rw [Char.ofNat, dif_pos hvalid]
  rfl

/-- Latin-1 reads different bytes as different characters. -/
theorem fromLatin1_inj {s t : List UInt8} :
  fromLatin1 s = fromLatin1 t ↔ s = t
  := by
  constructor
  · apply List.map_injective_iff.mpr
    intro b c h
    have hcode := congrArg Char.toNat h
    rwa [toNat_ofNat_toNat, toNat_ofNat_toNat, UInt8.toNat_inj] at hcode
  · rintro rfl
    rfl

/-- A Latin-1 string is the string of its bytes. -/
theorem toLatin1_fromLatin1 {s : List UInt8} (h : (0 : UInt8) ∉ s) :
  toLatin1 (fromLatin1 s) = some s
  := by
  induction s with
  | nil => rfl
  | cons c s ih =>
      simp only [List.mem_cons, not_or] at h
      have hpos : 0 < c.toNat := by
        apply Nat.pos_of_ne_zero
        intro hzero
        apply h.1
        rw [← UInt8.toNat_inj, hzero]
        rfl
      unfold toLatin1 fromLatin1 at ih ⊢
      rw [List.map_cons, List.mapM_cons, ih h.2, toNat_ofNat_toNat, if_pos ⟨hpos, c.toNat_lt⟩]
      simp

/-- Each of the characters that the bytes encode is converted. -/
theorem decodeUtf8_flatMap {s : Text} {n : ℕ}
    (hn : (s.flatMap String.utf8EncodeChar).length ≤ n) :
  decodeUtf8 n (s.flatMap String.utf8EncodeChar) = s
  := by
  induction s generalizing n with
  | nil =>
      cases n with
      | zero => rfl
      | succ n => rfl
  | cons c s ih =>
      have hlen : (String.utf8EncodeChar c).length = c.utf8Size := String.length_utf8EncodeChar c
      have hsize : 0 < c.utf8Size := c.utf8Size_pos
      rw [List.flatMap_cons, List.length_append, hlen] at hn
      rw [List.flatMap_cons]
      cases hc : String.utf8EncodeChar c ++ s.flatMap String.utf8EncodeChar with
      | nil =>
          rw [(List.append_eq_nil_iff.mp hc).1, List.length_nil] at hlen
          omega
      | cons b rest =>
          cases n with
          | zero => omega
          | succ n =>
              have hdecode : ByteArray.utf8DecodeChar? (b :: rest).toByteArray 0 = some c := by
                rw [← hc, List.toByteArray_append]
                apply ByteArray.utf8DecodeChar?_utf8EncodeChar_append
              rw [decodeUtf8, hdecode]
              simp only
              rw [← hc, ← hlen, List.drop_left, ih]
              omega

@[simp]
theorem safeFromUtf8_flatMap (s : Text) :
  safeFromUtf8 (s.flatMap String.utf8EncodeChar) = s
  := decodeUtf8_flatMap (Nat.le_refl _)

/-- A natural number is an `int` when it is less than 2³¹. -/
theorem bmod_natCast_eq_iff (n : ℕ) :
  Int.bmod n (2 ^ 32) = n ↔ n < 2 ^ 31
  := by
  have hmodulus : ((2 ^ 32 : ℕ) : ℤ) = 4294967296 := by simp
  unfold Int.bmod
  simp only [hmodulus]
  split
  case isTrue => omega
  case isFalse => omega

/-- An `int` is less than 2³¹. -/
theorem bmod_lt (z : ℤ) :
  Int.bmod z (2 ^ 32) < 2 ^ 31
  := by
  have hmodulus : ((2 ^ 32 : ℕ) : ℤ) = 4294967296 := by simp
  unfold Int.bmod
  simp only [hmodulus]
  split
  case isTrue => omega
  case isFalse => omega

/-- An `int` is not less than -2³¹. -/
theorem le_bmod (z : ℤ) :
  -2 ^ 31 ≤ Int.bmod z (2 ^ 32)
  := by
  have hmodulus : ((2 ^ 32 : ℕ) : ℤ) = 4294967296 := by simp
  unfold Int.bmod
  simp only [hmodulus]
  split
  case isTrue => omega
  case isFalse => omega

/-- A number in the range of an `int` is its own `int`. -/
theorem bmod_eq_self {z : ℤ} (hlow : -2 ^ 31 ≤ z) (hhigh : z < 2 ^ 31) :
  Int.bmod z (2 ^ 32) = z
  := by
  have hmodulus : ((2 ^ 32 : ℕ) : ℤ) = 4294967296 := by simp
  unfold Int.bmod
  simp only [hmodulus]
  split
  case isTrue => omega
  case isFalse => omega

/-- A number below the range of an `int` comes out at the other end. -/
theorem bmod_eq_add {z : ℤ} (hlow : -2 ^ 32 ≤ z) (hhigh : z < -2 ^ 31) :
  Int.bmod z (2 ^ 32) = z + 2 ^ 32
  := by
  have hmodulus : ((2 ^ 32 : ℕ) : ℤ) = 4294967296 := by simp
  unfold Int.bmod
  simp only [hmodulus]
  split
  case isTrue => omega
  case isFalse => omega

/-- The difference of two natural numbers less than 2³¹ is an `int`. -/
theorem bmod_sub_eq {m n : ℕ} (hm : m < 2 ^ 31) (hn : n < 2 ^ 31) :
  Int.bmod ((m : ℤ) - n) (2 ^ 32) = m - n
  := by
  have hmodulus : ((2 ^ 32 : ℕ) : ℤ) = 4294967296 := by simp
  unfold Int.bmod
  simp only [hmodulus]
  split
  case isTrue => omega
  case isFalse => omega

/-- The locale whose encoding is Latin-1. -/
def latin1 : Locale where
  decode := fromLatin1
  encode := toLatin1

end Gusher
