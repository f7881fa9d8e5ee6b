import Gusher.Library.CString
import Mathlib.Data.List.Basic

/-!
# HTTP responses

The bytes of a response: a status line, a block of header lines that an empty line ends, and a
body.  A response is valid when its lines are well formed and every header line that gives the
length of the body gives the right one.  The bytes of a valid response determine it
(`Response.render_inj`), and `oneResponse_iff` tells what may follow a status line and some header
lines.
-/

namespace Http

open CString

/-- A response; the protocol version is that of the status line. -/
structure Response where
  status : List UInt8
  headers : List (List UInt8 × List UInt8)
  body : List UInt8
  deriving DecidableEq

/-- A status code of three digits, and a reason on the same line. -/
def StatusOk (s : List UInt8) : Prop :=
  (∃ a b c reason, s = a :: b :: c :: 32 :: reason ∧ isdigit a ∧ isdigit b ∧ isdigit c) ∧
    (13 : UInt8) ∉ s ∧ (10 : UInt8) ∉ s

def NameOk (name : List UInt8) : Prop :=
  name ≠ [] ∧ (58 : UInt8) ∉ name ∧ (32 : UInt8) ∉ name ∧ (13 : UInt8) ∉ name ∧
    (10 : UInt8) ∉ name

def ValueOk (value : List UInt8) : Prop :=
  (13 : UInt8) ∉ value ∧ (10 : UInt8) ∉ value

/-- The decimal digits of a number. -/
def decimal (n : ℕ) : List UInt8 :=
  (Nat.toDigits 10 n).map (fun c => c.toNat.toUInt8)

/-- A well-formed header. -/
def HeaderOk (h : List UInt8 × List UInt8) : Prop :=
  NameOk h.1 ∧ ValueOk h.2

/-- A header that gives the length of the body, in whatever case, gives the right one. -/
def LengthOk (body : List UInt8) (h : List UInt8 × List UInt8) : Prop :=
  h.1.map tolower = ascii "content-length" → h.2 = decimal body.length

def headerLine (h : List UInt8 × List UInt8) : List UInt8 :=
  h.1 ++ ascii ": " ++ h.2 ++ crlf

def headerLines (hs : List (List UInt8 × List UInt8)) : List UInt8 :=
  hs.flatMap headerLine

/-- The beginning of a status line. -/
def version : List UInt8 :=
  ascii "HTTP/1.1 "

namespace Response

/-- The response is valid. -/
structure Valid (r : Response) : Prop where
  status : StatusOk r.status
  headers : ∀ h ∈ r.headers, HeaderOk h
  length : ∀ h ∈ r.headers, LengthOk r.body h

/-- The bytes of a response. -/
def render (r : Response) : List UInt8 :=
  version ++ r.status ++ crlf ++ headerLines r.headers ++ crlf ++ r.body

end Response

/-- The bytes are those of one response. -/
def OneResponse (bytes : List UInt8) : Prop :=
  ∃ r : Response, r.Valid ∧ bytes = r.render

/-! ### Lines -/

theorem headerLines_append (hs rs : List (List UInt8 × List UInt8)) :
  headerLines (hs ++ rs) = headerLines hs ++ headerLines rs
  := List.flatMap_append

theorem line_cancel {a b x y : List UInt8} (ha : (13 : UInt8) ∉ a) (hb : (13 : UInt8) ∉ b)
    (h : a ++ crlf ++ x = b ++ crlf ++ y) :
  a = b ∧ x = y
  := by
  simp only [crlf, List.append_assoc, List.cons_append, List.nil_append] at h
  obtain ⟨hab, -, hxy⟩ := append_cons_inj ha hb h
  exact ⟨hab, (List.cons.inj hxy).2⟩

theorem headerLine_append (h : List UInt8 × List UInt8) (x : List UInt8) :
  headerLine h ++ x = h.1 ++ 58 :: 32 :: (h.2 ++ crlf ++ x)
  := by
  have hcolon : ascii ": " = [58, 32] := by decide
  simp [headerLine, hcolon]

theorem headerLine_cancel {h r : List UInt8 × List UInt8} {x y : List UInt8} (hh : HeaderOk h)
    (hr : HeaderOk r) (heq : headerLine h ++ x = headerLine r ++ y) :
  h = r ∧ x = y
  := by
  rw [headerLine_append, headerLine_append] at heq
  obtain ⟨hname, -, hrest⟩ := append_cons_inj hh.1.2.1 hr.1.2.1 heq
  obtain ⟨hvalue, hxy⟩ := line_cancel hh.2.1 hr.2.1 (List.cons.inj hrest).2
  exact ⟨Prod.ext hname hvalue, hxy⟩

/-- A header line is not an empty line. -/
theorem headerLine_ne_crlf {h : List UInt8 × List UInt8} {x y : List UInt8} (hh : HeaderOk h) :
  headerLine h ++ x ≠ crlf ++ y
  := by
  rw [headerLine_append]
  intro heq
  cases hname : h.1 with
  | nil => exact hh.1.1 hname
  | cons c name =>
      rw [hname] at heq
      obtain ⟨rfl, -⟩ := List.cons.inj heq
      apply hh.1.2.2.2.1
      rw [hname]
      apply List.mem_cons_self

/-- What starts with some header lines is a block of headers exactly when what follows them
is. -/
theorem headerLines_cancel {hs rs : List (List UInt8 × List UInt8)} {x y : List UInt8}
    (hhs : ∀ h ∈ hs, HeaderOk h) (hrs : ∀ r ∈ rs, HeaderOk r)
    (heq : headerLines hs ++ x = headerLines rs ++ crlf ++ y) :
  ∃ more, rs = hs ++ more ∧ x = headerLines more ++ crlf ++ y
  := by
  induction hs generalizing rs with
  | nil => exact ⟨rs, rfl, heq⟩
  | cons h hs ih =>
      rw [headerLines, List.flatMap_cons, List.append_assoc] at heq
      cases rs with
      | nil => exact absurd heq (headerLine_ne_crlf (hhs h List.mem_cons_self))
      | cons r rs =>
          rw [headerLines, List.flatMap_cons, List.append_assoc, List.append_assoc] at heq
          obtain ⟨hhr, hrest⟩ := headerLine_cancel (hhs h List.mem_cons_self)
            (hrs r List.mem_cons_self) heq
          subst hhr
          rw [← List.append_assoc] at hrest
          obtain ⟨more, rfl, hx⟩ := ih (fun h hh => hhs h (List.mem_cons_of_mem _ hh))
            (fun r hr => hrs r (List.mem_cons_of_mem _ hr)) hrest
          exact ⟨more, rfl, hx⟩

/-- What follows the header lines of a block is the empty line and the body, unless it is another
header line. -/
theorem headerLines_eq_crlf {more : List (List UInt8 × List UInt8)} {x y : List UInt8}
    (hmore : ∀ h ∈ more, HeaderOk h) (heq : crlf ++ x = headerLines more ++ crlf ++ y) :
  more = [] ∧ x = y
  := by
  cases more with
  | nil => exact ⟨rfl, List.append_cancel_left heq⟩
  | cons h more =>
      rw [headerLines, List.flatMap_cons, List.append_assoc, List.append_assoc] at heq
      exact absurd heq.symm (headerLine_ne_crlf (hmore h List.mem_cons_self))

/-! ### Responses -/

/-- What may follow a status line and some header lines in a response: more header lines, and the
body. -/
theorem oneResponse_iff {status : List UInt8} {headers : List (List UInt8 × List UInt8)}
    {x : List UInt8} (hstatus : StatusOk status) (hheaders : ∀ h ∈ headers, HeaderOk h) :
  OneResponse (version ++ status ++ crlf ++ headerLines headers ++ x)
    ↔ ∃ more body, x = headerLines more ++ crlf ++ body ∧ (∀ h ∈ more, HeaderOk h)
      ∧ ∀ h ∈ headers ++ more, LengthOk body h
  := by
  constructor
  · rintro ⟨r, hr, heq⟩
    have hrest : status ++ crlf ++ (headerLines headers ++ x)
        = r.status ++ crlf ++ (headerLines r.headers ++ crlf ++ r.body) := by
      simpa [Response.render] using heq
    obtain ⟨-, hblock⟩ := line_cancel hstatus.2.1 hr.status.2.1 hrest
    obtain ⟨more, hmore, hx⟩ := headerLines_cancel hheaders hr.headers hblock
    refine ⟨more, r.body, hx, ?_, ?_⟩
    · intro h hh
      apply hr.headers
      rw [hmore]
      exact List.mem_append_right _ hh
    · rw [← hmore]
      exact hr.length
  · rintro ⟨more, body, rfl, hmore, hlength⟩
    refine ⟨⟨status, headers ++ more, body⟩, ⟨hstatus, ?_, hlength⟩, ?_⟩
    · intro h hh
      rcases List.mem_append.mp hh with hh | hh
      · exact hheaders h hh
      · exact hmore h hh
    · simp [Response.render, headerLines_append]

/-- The bytes of a valid response determine it. -/
theorem Response.render_inj {r r' : Response} (hr : r.Valid) (hr' : r'.Valid)
    (h : r.render = r'.render) :
  r = r'
  := by
  have hrest : r.status ++ crlf ++ (headerLines r.headers ++ crlf ++ r.body)
      = r'.status ++ crlf ++ (headerLines r'.headers ++ crlf ++ r'.body) := by
    simpa [Response.render] using h
  obtain ⟨hstatus, hrest⟩ := line_cancel hr.status.2.1 hr'.status.2.1 hrest
  rw [List.append_assoc] at hrest
  obtain ⟨more, hheaders, hbody⟩ := headerLines_cancel hr.headers hr'.headers hrest
  have hmore : ∀ h ∈ more, HeaderOk h := by
    intro h hh
    apply hr'.headers
    rw [hheaders]
    exact List.mem_append_right _ hh
  obtain ⟨rfl, hbody⟩ := headerLines_eq_crlf hmore hbody
  rw [List.append_nil] at hheaders
  cases r
  cases r'
  simp_all

/-- The digits of a number determine it. -/
theorem decimal_inj {m n : ℕ} (h : decimal m = decimal n) :
  m = n
  := by
  have hinverse : ∀ k, (decimal k).map (fun c => Char.ofNat c.toNat) = Nat.toDigits 10 k := by
    intro k
    rw [decimal, List.map_map]
    conv_rhs => rw [← List.map_id (Nat.toDigits 10 k)]
    apply List.map_congr_left
    intro c hc
    have hdigit := Char.isDigit_iff_toNat.mp (Nat.isDigit_of_mem_toDigits (by decide) (by decide) hc)
    have hnine : '9'.toNat = 57 := by decide
    apply ofNat_toUInt8
    omega
  have hdigits : Nat.toDigits 10 m = Nat.toDigits 10 n := by
    rw [← hinverse, h, hinverse]
  rw [← Nat.ofDigitChars_ten_toDigits (n := m), hdigits, Nat.ofDigitChars_ten_toDigits]


/-- A number consists of digits. -/
theorem isdigit_of_mem_decimal {n : ℕ} {c : UInt8} (hc : c ∈ decimal n) :
  isdigit c = true
  := by
  obtain ⟨d, hd, rfl⟩ := List.mem_map.mp hc
  have hdigit := Char.isDigit_iff_toNat.mp (Nat.isDigit_of_mem_toDigits (by decide) (by decide) hd)
  have hzero : '0'.toNat = 48 := by decide
  have hnine : '9'.toNat = 57 := by decide
  have hcode : d.toNat.toUInt8.toNat = d.toNat := by
    rw [UInt8.toNat_ofNat']
    omega
  rw [isdigit, decide_eq_true_iff, UInt8.le_iff_toNat_le, UInt8.le_iff_toNat_le, hcode]
  have h48 : (48 : UInt8).toNat = 48 := rfl
  have h57 : (57 : UInt8).toNat = 57 := rfl
  omega

end Http
