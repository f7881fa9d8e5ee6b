import Gusher.Library.Http
import Gusher.Reply.Send

/-!
# One response for a request

What is sent to a connection is one HTTP response when the responder raises, so that nothing was
sent before the error message, and when everything in its reply can be converted.  After a
conversion that fails, the error message follows the part of the reply that was sent already
(`oneResponse_respond_iff`): a body that is `#f`, say, gives two status lines
(`two_status_lines`).
-/

namespace Gusher

open CString Http

/-- The texts that `catch_req` logs can be encoded. -/
def Loggable (loc : Locale) (logged : List Text) : Prop :=
  ∀ text ∈ logged, (loc.encode text).isSome

/-- What is sent of a status or of the name of a header. -/
def sentLatin1 (name : Scm) : Option (List UInt8) :=
  (toLatin1String name).map sendAll

def sentValue (val : Scm) : Option (List UInt8) :=
  (headerValue val).map sendAll

/-- What is sent of a header, if both of its parts can be converted. -/
def convertHeader (h : Scm × Scm) : Option (List UInt8 × List UInt8) :=
  (sentLatin1 h.1).bind (fun name => (sentValue h.2).map (fun value => (name, value)))

theorem convertHeader_eq_some {h : Scm × Scm} {b : List UInt8 × List UInt8} :
  convertHeader h = some b ↔ sentLatin1 h.1 = some b.1 ∧ sentValue h.2 = some b.2
  := by
  simp [convertHeader, Option.bind_eq_some_iff, Prod.ext_iff]

theorem convertHeader_eq_none {h : Scm × Scm} {name : List UInt8} (hname : sentLatin1 h.1 = some name)
    (hvalue : headerValue h.2 = none) :
  convertHeader h = none
  := by
  rw [convertHeader, hname, Option.bind_some, sentValue, hvalue]
  rfl

/-- A text whose length is an `int` is sent as it is. -/
theorem sendAll_of_lt {msg : List UInt8} (h : msg.length < 2 ^ 31) :
  sendAll msg = msg
  := by
  rw [sendAll, (bmod_natCast_eq_iff msg.length).mpr h, Int.toNat_natCast, List.take_length]

theorem sentLatin1_of_lt {name : Scm} {hname : List UInt8} (h : toLatin1String name = some hname)
    (hlength : hname.length < 2 ^ 31) :
  sentLatin1 name = some hname
  := by
  rw [sentLatin1, h, Option.map_some, sendAll_of_lt hlength]

theorem sentValue_of_lt {val : Scm} {hvalue : List UInt8} (h : headerValue val = some hvalue)
    (hlength : hvalue.length < 2 ^ 31) :
  sentValue val = some hvalue
  := by
  rw [sentValue, h, Option.map_some, sendAll_of_lt hlength]

/-- As much of the body is sent as the header with the length says, unless this is negative. -/
theorem contentLength_eq_iff (body : List UInt8) :
  contentLength body = (sendAll body).length ↔ 0 ≤ contentLength body
  := by
  have hle : contentLength body ≤ body.length := by
    have hmodulus : ((2 ^ 32 : ℕ) : ℤ) = 4294967296 := by simp
    unfold contentLength Int.bmod
    simp only [hmodulus]
    split
    case isTrue => omega
    case isFalse => omega
  have hsent : (sendAll body).length = min (contentLength body).toNat body.length :=
    List.length_take
  omega

namespace Reply

/-- What is sent is well formed, as far as it can be converted: the status is a code and a reason, the
headers are headers, and one that gives the length of the body gives the right one. -/
structure WellFormed (reply : Reply) : Prop where
  status : ∀ status, sentLatin1 reply.status = some status → StatusOk status
  names : ∀ h ∈ reply.headers, ∀ name, sentLatin1 h.1 = some name → NameOk name
  values : ∀ h ∈ reply.headers, ∀ value, sentValue h.2 = some value → ValueOk value
  lengths : ∀ body, toUtf8String reply.body = some body →
    ∀ h ∈ reply.headers, ∀ b, convertHeader h = some b → LengthOk (sendAll body) b

/-- Everything in a reply can be converted, and the length of the body as an `int` is not negative. -/
structure Converts (reply : Reply) : Prop where
  status : (toLatin1String reply.status).isSome
  body : ∃ body, toUtf8String reply.body = some body ∧ 0 ≤ contentLength body
  headers : ∀ h ∈ reply.headers, (convertHeader h).isSome

/-- The first conversion that fails is that of the value of a header which is not the length of the
body, and the lengths which have been sent by then are that of the error text. -/
structure FailsInValue (reply : Reply) : Prop where
  status : (toLatin1String reply.status).isSome
  body : ∃ body, toUtf8String reply.body = some body ∧ contentLength body = errText.length
  value : ∃ before h after name, reply.headers = before ++ h :: after
    ∧ (∀ h' ∈ before, ∃ b, convertHeader h' = some b ∧ LengthOk errText b)
    ∧ sentLatin1 h.1 = some name ∧ name.map tolower ≠ ascii "content-length"
    ∧ headerValue h.2 = none

end Reply

/-- How far `send_headers` comes: to the end, to the name of a header, or to its value. -/
inductive HeadersSent (headers : List (Scm × Scm)) : List UInt8 × Bool → Prop where
  | done (bs : List (List UInt8 × List UInt8)) (h : headers.map convertHeader = bs.map some) :
      HeadersSent headers (headerLines bs ++ crlf, true)
  | name (before : List (Scm × Scm)) (h : Scm × Scm) (after : List (Scm × Scm))
      (bs : List (List UInt8 × List UInt8)) (heq : headers = before ++ h :: after)
      (hbefore : before.map convertHeader = bs.map some) (hname : toLatin1String h.1 = none) :
      HeadersSent headers (headerLines bs, false)
  | value (before : List (Scm × Scm)) (h : Scm × Scm) (after : List (Scm × Scm))
      (bs : List (List UInt8 × List UInt8)) (name : List UInt8)
      (heq : headers = before ++ h :: after) (hbefore : before.map convertHeader = bs.map some)
      (hname : sentLatin1 h.1 = some name) (hvalue : headerValue h.2 = none) :
      HeadersSent headers (headerLines bs ++ (name ++ ascii ": "), false)

/-- `send_headers` sends the line of a header that can be converted. -/
theorem sendHeaders_cons {h : Scm × Scm} {b : List UInt8 × List UInt8} (hb : convertHeader h = some b)
    (headers : List (Scm × Scm)) :
  sendHeaders (h :: headers) = (headerLine b ++ (sendHeaders headers).1, (sendHeaders headers).2)
  := by
  obtain ⟨hname, hvalue⟩ := convertHeader_eq_some.mp hb
  obtain ⟨name, hname, hsent⟩ := Option.map_eq_some_iff.mp hname
  obtain ⟨value, hvalue, hsent'⟩ := Option.map_eq_some_iff.mp hvalue
  rw [sendHeaders, hname, hvalue, headerLine, ← hsent, ← hsent']

/-- `send_headers` stops before a header whose name cannot be converted. -/
theorem sendHeaders_name {h : Scm × Scm} (hname : toLatin1String h.1 = none)
    (headers : List (Scm × Scm)) :
  sendHeaders (h :: headers) = ([], false)
  := by
  rw [sendHeaders, hname]

/-- `send_headers` stops behind the name of a header whose value cannot be converted. -/
theorem sendHeaders_value {h : Scm × Scm} {name : List UInt8} (hname : sentLatin1 h.1 = some name)
    (hvalue : headerValue h.2 = none) (headers : List (Scm × Scm)) :
  sendHeaders (h :: headers) = (name ++ ascii ": ", false)
  := by
  obtain ⟨text, htext, hsent⟩ := Option.map_eq_some_iff.mp hname
  rw [sendHeaders, htext, hvalue, ← hsent]

/-- `send_headers` sends the lines of headers that can be converted. -/
theorem sendHeaders_append {before : List (Scm × Scm)} {bs : List (List UInt8 × List UInt8)}
    (h : before.map convertHeader = bs.map some) (headers : List (Scm × Scm)) :
  sendHeaders (before ++ headers)
    = (headerLines bs ++ (sendHeaders headers).1, (sendHeaders headers).2)
  := by
  induction before generalizing bs with
  | nil =>
      cases bs with
      | nil => rfl
      | cons b bs => cases h
  | cons h₁ before ih =>
      cases bs with
      | nil => cases h
      | cons b bs =>
          obtain ⟨hconvert, hrest⟩ := List.cons.inj h
          rw [List.cons_append, sendHeaders_cons hconvert, ih hrest]
          simp [headerLines]

/-- `send_headers` does one of these. -/
theorem sendHeaders_cases (headers : List (Scm × Scm)) :
  HeadersSent headers (sendHeaders headers)
  := by
  induction headers with
  | nil => exact .done [] rfl
  | cons h headers ih =>
      cases hname : toLatin1String h.1 with
      | none =>
          rw [sendHeaders_name hname]
          exact .name [] h headers [] rfl rfl hname
      | some text =>
          obtain ⟨name, hname⟩ : ∃ name, sentLatin1 h.1 = some name :=
            ⟨_, by rw [sentLatin1, hname]; rfl⟩
          cases hvalue : headerValue h.2 with
          | none =>
              rw [sendHeaders_value hname hvalue]
              exact .value [] h headers [] name rfl rfl hname hvalue
          | some text' =>
              obtain ⟨value, hvalue⟩ : ∃ value, sentValue h.2 = some value :=
                ⟨_, by rw [sentValue, hvalue]; rfl⟩
              have hconvert : convertHeader h = some (name, value) :=
                convertHeader_eq_some.mpr ⟨hname, hvalue⟩
              rw [sendHeaders_cons hconvert]
              cases hsent : sendHeaders headers with
              | mk bytes done =>
              rw [hsent] at ih
              cases ih with
              | done bs hbs =>
                  rw [← List.append_assoc]
                  exact .done ((name, value) :: bs) (by simp [hconvert, hbs])
              | name before h' after bs heq hbefore hname' =>
                  exact .name (h :: before) h' after ((name, value) :: bs) (by rw [heq]; rfl)
                    (by simp [hconvert, hbefore]) hname'
              | value before h' after bs name' heq hbefore hname' hvalue' =>
                  rw [← List.append_assoc]
                  exact .value (h :: before) h' after ((name, value) :: bs) name'
                    (by rw [heq]; rfl) (by simp [hconvert, hbefore]) hname' hvalue'

/-! ### The headers that `process_request` adds -/

/-- A header with a number for value. -/
theorem headerValue_int (z : ℤ) :
  headerValue (.int z) = some (if z < 0 then 45 :: decimal z.natAbs else decimal z.natAbs)
  := by
  have hdigit : ∀ c ∈ Nat.toDigits 10 z.natAbs, 0 < c.toNat ∧ c.toNat < 256 := by
    intro c hc
    have hc := Char.isDigit_iff_toNat.mp (Nat.isDigit_of_mem_toDigits (by decide) (by decide) hc)
    have hzero : '0'.toNat = 48 := by decide
    have hnine : '9'.toNat = 57 := by decide
    omega
  rw [headerValue, numberText]
  split
  case isTrue =>
      rw [toLatin1_eq_map]
      · rfl
      · intro c hc
        rcases List.mem_cons.mp hc with rfl | hc
        · decide
        · exact hdigit c hc
  case isFalse => exact toLatin1_eq_map hdigit

/-- The number of the length of a body is sent as it is. -/
theorem sentValue_contentLength (body : List UInt8) :
  sentValue (.int (contentLength body)) = headerValue (.int (contentLength body))
  := by
  have hlt : contentLength body < 2 ^ 31 := bmod_lt body.length
  have hle : -2 ^ 31 ≤ contentLength body := le_bmod body.length
  have hdigits : (decimal (contentLength body).natAbs).length ≤ 10 := by
    rw [decimal, List.length_map, Nat.length_toDigits_le_iff (by decide) (by decide)]
    omega
  rw [sentValue, headerValue_int, Option.map_some, sendAll_of_lt]
  split
  case isTrue =>
      rw [List.length_cons]
      omega
  case isFalse => omega

/-- A number is a well-formed value. -/
theorem valueOk_int {z : ℤ} {value : List UInt8} (h : headerValue (.int z) = some value) :
  ValueOk value
  := by
  have hno : ∀ c ∈ value, c = 45 ∨ isdigit c := by
    rw [headerValue_int] at h
    obtain rfl := Option.some.inj h
    intro c hc
    split at hc
    case isTrue =>
        rcases List.mem_cons.mp hc with rfl | hc
        · exact Or.inl rfl
        · exact Or.inr (isdigit_of_mem_decimal hc)
    case isFalse => exact Or.inr (isdigit_of_mem_decimal hc)
  exact ⟨fun hmem => absurd (hno 13 hmem) (by decide), fun hmem => absurd (hno 10 hmem) (by decide)⟩

/-- The header with the length gives that of a text exactly when it is the number sent. -/
theorem headerValue_contentLength {body text value : List UInt8}
    (h : headerValue (.int (contentLength body)) = some value) :
  value = decimal text.length ↔ contentLength body = text.length
  := by
  rw [headerValue_int] at h
  obtain rfl := Option.some.inj h
  split
  case isTrue hneg =>
      constructor
      · intro heq
        have hminus : (45 : UInt8) ∈ decimal text.length := by
          rw [← heq]
          apply List.mem_cons_self
        exact absurd (isdigit_of_mem_decimal hminus) (by decide)
      · intro heq
        omega
  case isFalse hpos =>
      constructor
      · intro heq
        have hlength := decimal_inj heq
        omega
      · intro heq
        rw [heq]
        rfl

/-- A hexadecimal digit is printed as a character after the slash. -/
theorem le_hexDigit {n : UInt8} (h : n.toNat < 16) :
  48 ≤ (hexDigit n).toNat
  := by
  rw [hexDigit]
  split
  case isTrue =>
      rw [UInt8.toNat_add]
      have h48 : (48 : UInt8).toNat = 48 := rfl
      omega
  case isFalse =>
      rw [UInt8.toNat_add]
      have h87 : (87 : UInt8).toNat = 87 := rfl
      omega

/-- All that the value of the cookie consists of can be printed. -/
theorem cookie_printable {out : List UInt8} {c : UInt8}
    (hc : c ∈ (ascii "GUSHERID=" ++ putUuid out ++ ascii "; Path=/").take 126) :
  32 ≤ c.toNat
  := by
  have hname : ∀ c ∈ ascii "GUSHERID=", 32 ≤ c.toNat := forall_mem_of_all (by decide)
  have hpath : ∀ c ∈ ascii "; Path=/", 32 ≤ c.toNat := forall_mem_of_all (by decide)
  have hc := List.mem_of_mem_take hc
  rcases List.mem_append.mp hc with hc | hc
  · rcases List.mem_append.mp hc with hc | hc
    · exact hname c hc
    · obtain ⟨n, hn, rfl⟩ := exists_of_mem_putUuid hc
      exact Nat.le_trans (by decide) (le_hexDigit hn)
  · exact hpath c hc

/-- The header `set-cookie` can be converted to a header. -/
theorem convertHeader_cookieHeader (out : List UInt8) :
  ∃ value, convertHeader (cookieHeader out) = some (ascii "set-cookie", value) ∧ ValueOk value
  := by
  have hnot : ∀ d : UInt8, d.toNat < 32 →
      d ∉ (ascii "GUSHERID=" ++ putUuid out ++ ascii "; Path=/").take 126 := by
    intro d hd hmem
    have := cookie_printable hmem
    omega
  refine ⟨(ascii "GUSHERID=" ++ putUuid out ++ ascii "; Path=/").take 126, ?_, ?_⟩
  · apply convertHeader_eq_some.mpr
    have hname : sentLatin1 (.str "set-cookie".toList) = some (ascii "set-cookie") :=
      sentLatin1_of_lt (by decide) (by decide)
    have hshort : ((ascii "GUSHERID=" ++ putUuid out ++ ascii "; Path=/").take 126).length < 2 ^ 31 :=
      Nat.lt_of_le_of_lt (List.length_take_le _ _) (by decide)
    exact ⟨hname, sentValue_of_lt (toLatin1_fromLatin1 (hnot 0 (by decide))) hshort⟩
  · exact ⟨hnot 13 (by decide), hnot 10 (by decide)⟩

/-! ### The error message -/

theorem headerOk_contentType :
  HeaderOk (ascii "Content-type", ascii "text/plain")
  := by
  unfold HeaderOk NameOk ValueOk
  decide

/-- The error message, as a status line, a header and the text. -/
theorem errMsg_eq :
  errMsg = version ++ ascii "500 Internal Server Error" ++ crlf
    ++ headerLines [(ascii "Content-type", ascii "text/plain")] ++ crlf ++ errText
  := by
  have hsplit : ascii "HTTP/1.1 500 Internal Server Error\r\nContent-type: text/plain\r\n\r\n"
      = version ++ ascii "500 Internal Server Error" ++ crlf
        ++ headerLines [(ascii "Content-type", ascii "text/plain")] ++ crlf := by
    decide
  rw [errMsg, hsplit]

/-- The error message does not continue a block of header lines: its first line has no colon. -/
theorem errMsg_ne_block {more : List (List UInt8 × List UInt8)} {body : List UInt8}
    (hmore : ∀ h ∈ more, HeaderOk h) :
  errMsg ≠ headerLines more ++ crlf ++ body
  := by
  have hsplit : errMsg = ascii "HTTP/1.1" ++ 32 :: (ascii "500 Internal Server Error" ++ crlf
      ++ headerLines [(ascii "Content-type", ascii "text/plain")] ++ crlf ++ errText) := by
    have hversion : version = ascii "HTTP/1.1" ++ [32] := by decide
    rw [errMsg_eq, hversion]
    simp
  have hno : (58 : UInt8) ∉ ascii "HTTP/1.1" := by decide
  intro heq
  cases more with
  | nil => exact absurd (List.cons.inj heq).1 (by decide)
  | cons h more =>
      have hname := (hmore h List.mem_cons_self).1
      have hblock : headerLines (h :: more) ++ crlf ++ body
          = h.1 ++ 58 :: 32 :: (h.2 ++ crlf ++ (headerLines more ++ crlf ++ body)) := by
        rw [← headerLine_append]
        simp [headerLines]
      rw [hsplit, hblock] at heq
      exact absurd (append_cons_inj hno hname.2.2.1 heq).2.1 (by decide)

theorem digit_of_oneResponse {x : List UInt8} (h : OneResponse (version ++ x)) :
  ∃ a rest, x = a :: rest ∧ isdigit a
  := by
  obtain ⟨r, hr, heq⟩ := h
  obtain ⟨a, b, c, reason, hstatus, ha, -⟩ := hr.status.1
  simp only [Response.render, hstatus, List.append_assoc] at heq
  exact ⟨a, _, List.append_cancel_left heq, ha⟩

section

variable (loc : Locale) (logged : List Text) (uuid : Option (List UInt8))

theorem catchReq_of_loggable (h : Loggable loc logged) :
  catchReq loc logged = errMsg
  := if_pos h

theorem catchReq_of_not_loggable (h : ¬ Loggable loc logged) :
  catchReq loc logged = []
  := if_neg h

/-- What `catch_req` sends does not continue a block of header lines. -/
theorem catchReq_ne_block {more : List (List UInt8 × List UInt8)} {body : List UInt8}
    (hmore : ∀ h ∈ more, HeaderOk h) :
  catchReq loc logged ≠ headerLines more ++ crlf ++ body
  := by
  rw [catchReq]
  split
  case isTrue => exact errMsg_ne_block hmore
  case isFalse => simp [crlf]

/-- When nothing was sent before, what `catch_req` sends is a response. -/
theorem oneResponse_catchReq :
  OneResponse (catchReq loc logged) ↔ Loggable loc logged
  := by
  rw [catchReq]
  split
  case isTrue hlog =>
      apply iff_of_true _ hlog
      have hvalid : (⟨ascii "500 Internal Server Error",
          [(ascii "Content-type", ascii "text/plain")], errText⟩ : Response).Valid := by
        refine ⟨⟨⟨53, 48, 48, ascii "Internal Server Error", ?_⟩, ?_⟩, ?_, ?_⟩
        · decide
        · decide
        · simp only [List.forall_mem_singleton]
          exact headerOk_contentType
        · simp only [List.forall_mem_singleton]
          intro hname
          exact absurd hname (by decide)
      exact ⟨_, hvalid, errMsg_eq⟩
  case isFalse hlog =>
      apply iff_of_false _ hlog
      rintro ⟨r, -, heq⟩
      have hversion : version ≠ [] := by decide
      simp [Response.render, hversion] at heq

end

/-! ### What is sent for a reply -/

/-- The headers and their bytes, when all can be converted. -/
theorem exists_mem_of_map {before : List (Scm × Scm)} {bs : List (List UInt8 × List UInt8)}
    (hbs : before.map convertHeader = bs.map some) :
  (∀ h ∈ before, ∃ b ∈ bs, convertHeader h = some b)
    ∧ ∀ b ∈ bs, ∃ h ∈ before, convertHeader h = some b
  := by
  constructor
  · intro h hh
    have hmem := List.mem_map_of_mem (f := convertHeader) hh
    rw [hbs] at hmem
    obtain ⟨b, hb, heq⟩ := List.mem_map.mp hmem
    exact ⟨b, hb, heq.symm⟩
  · intro b hb
    have hmem : some b ∈ before.map convertHeader := by
      rw [hbs]
      exact List.mem_map_of_mem hb
    exact List.mem_map.mp hmem

theorem Reply.WellFormed.status_of {reply : Reply} (hwf : reply.WellFormed) {status : List UInt8}
    (hstatus : toLatin1String reply.status = some status) :
  StatusOk (sendAll status)
  := by
  apply hwf.status
  rw [sentLatin1, hstatus, Option.map_some]

/-- The bytes of the headers that can be converted are well formed. -/
theorem Reply.WellFormed.headerOk {reply : Reply} (hwf : reply.WellFormed)
    {before after : List (Scm × Scm)} {bs : List (List UInt8 × List UInt8)}
    (heq : reply.headers = before ++ after) (hbs : before.map convertHeader = bs.map some) :
  ∀ b ∈ bs, HeaderOk b
  := by
  intro b hb
  obtain ⟨h, hh, hconvert⟩ := (exists_mem_of_map hbs).2 b hb
  obtain ⟨hname, hvalue⟩ := convertHeader_eq_some.mp hconvert
  have hheaders : h ∈ reply.headers := by
    rw [heq]
    exact List.mem_append_left _ hh
  exact ⟨hwf.names h hheaders b.1 hname, hwf.values h hheaders b.2 hvalue⟩

/-- The headers that `process_request` adds can be converted. -/
theorem convert_added (uuid : Option (List UInt8)) (body : List UInt8) :
  ∃ value cookie,
    ((.str "content-length".toList, .int (contentLength body)) :: (uuid.map cookieHeader).toList
        : List (Scm × Scm)).map convertHeader
      = ((ascii "content-length", value) :: cookie).map some
    ∧ headerValue (.int (contentLength body)) = some value
    ∧ ∀ h ∈ (ascii "content-length", value) :: cookie, HeaderOk h ∧
      (h.1.map tolower = ascii "content-length" → h.2 = value)
  := by
  have hlength : sentLatin1 (.str "content-length".toList) = some (ascii "content-length") :=
    sentLatin1_of_lt (by decide) (by decide)
  have hname : NameOk (ascii "content-length") := by
    unfold NameOk
    decide
  obtain ⟨value, hvalue⟩ : ∃ value, headerValue (.int (contentLength body)) = some value :=
    ⟨_, headerValue_int _⟩
  have hconvert : convertHeader (.str "content-length".toList, .int (contentLength body))
      = some (ascii "content-length", value) :=
    convertHeader_eq_some.mpr ⟨hlength, (sentValue_contentLength body).trans hvalue⟩
  have hok : HeaderOk (ascii "content-length", value) := ⟨hname, valueOk_int hvalue⟩
  cases uuid with
  | none =>
      refine ⟨value, [], ?_, hvalue, ?_⟩
      · rw [List.map_cons, hconvert]
        rfl
      · rw [List.forall_mem_singleton]
        exact ⟨hok, fun _ => rfl⟩
  | some out =>
      obtain ⟨cookie, hcookie, hcookieOk⟩ := convertHeader_cookieHeader out
      have hcookieName : NameOk (ascii "set-cookie") := by
        unfold NameOk
        decide
      refine ⟨value, [(ascii "set-cookie", cookie)], ?_, hvalue, ?_⟩
      · rw [List.map_cons, hconvert]
        simp [hcookie]
      · rw [List.forall_mem_cons, List.forall_mem_singleton]
        refine ⟨⟨hok, fun _ => rfl⟩, ⟨hcookieName, hcookieOk⟩, ?_⟩
        have hother : (ascii "set-cookie").map tolower ≠ ascii "content-length" := by decide
        intro hlower
        exact absurd hlower hother

/-- What is sent when the status and the body can be converted. -/
theorem respond_eq {loc : Locale} {logged : List Text} {uuid : Option (List UInt8)} {reply : Reply}
    {status body : List UInt8} (hstatus : toLatin1String reply.status = some status)
    (hbody : toUtf8String reply.body = some body) :
  respond loc logged uuid (some reply)
    = version ++ sendAll status ++ crlf ++ (sendHeaders (allHeaders uuid reply body)).1
      ++ (if (sendHeaders (allHeaders uuid reply body)).2 then sendAll body
        else catchReq loc logged)
  := by
  rw [respond, sendReply, hstatus, hbody]
  by_cases hsent : (sendHeaders (allHeaders uuid reply body)).2
  · simp [hsent, version]
  · simp [hsent, version]

/-- What may follow the headers of the reply that were sent: their lengths must be right. -/
theorem oneResponse_respond {loc : Locale} {logged : List Text} (uuid : Option (List UInt8))
    {reply : Reply} {status body : List UInt8} {before after : List (Scm × Scm)}
    {bs : List (List UInt8 × List UInt8)} (hwf : reply.WellFormed)
    (hstatus : toLatin1String reply.status = some status)
    (hbody : toUtf8String reply.body = some body) (heq : reply.headers = before ++ after)
    (hbs : before.map convertHeader = bs.map some) :
  OneResponse (respond loc logged uuid (some reply))
    ↔ ∃ more text, (sendHeaders after).1
        ++ (if (sendHeaders after).2 then sendAll body else catchReq loc logged)
        = headerLines more ++ crlf ++ text ∧ (∀ h ∈ more, HeaderOk h)
      ∧ contentLength body = text.length ∧ ∀ h ∈ bs ++ more, LengthOk text h
  := by
  obtain ⟨value, cookie, hadded, hvalue, hok⟩ := convert_added uuid body
  have hsent : sendHeaders (allHeaders uuid reply body)
      = (headerLines ((ascii "content-length", value) :: cookie ++ bs) ++ (sendHeaders after).1,
        (sendHeaders after).2) := by
    have hmap := congrArg₂ (· ++ ·) hadded hbs
    rw [← List.map_append, ← List.map_append] at hmap
    rw [allHeaders, heq, ← List.append_assoc, ← List.cons_append, ← List.cons_append]
    exact sendHeaders_append hmap after
  have hheaders : ∀ h ∈ (ascii "content-length", value) :: cookie ++ bs, HeaderOk h := by
    intro h hh
    rcases List.mem_append.mp hh with hh | hh
    · exact (hok h hh).1
    · exact hwf.headerOk heq hbs h hh
  rw [respond_eq hstatus hbody, hsent, ← List.append_assoc _ (headerLines _), List.append_assoc,
    oneResponse_iff (hwf.status_of hstatus) hheaders]
  apply exists_congr
  intro more
  apply exists_congr
  intro text
  apply and_congr_right
  intro _
  apply and_congr_right
  intro _
  rw [← headerValue_contentLength hvalue]
  constructor
  · intro hlength
    have hself : (ascii "content-length").map tolower = ascii "content-length" := by decide
    refine ⟨hlength (ascii "content-length", value) (by simp) hself, ?_⟩
    intro h hh
    apply hlength
    rw [List.append_assoc]
    exact List.mem_append_right _ hh
  · rintro ⟨hlength, hrest⟩ h hh
    rw [List.append_assoc] at hh
    rcases List.mem_append.mp hh with hh | hh
    · intro hname
      rw [(hok h hh).2 hname, hlength]
    · exact hrest h hh

/-- A status that cannot be converted is followed by a second one. -/
theorem not_oneResponse_of_status {loc : Locale} {logged : List Text} {uuid : Option (List UInt8)}
    {reply : Reply} (hstatus : toLatin1String reply.status = none) :
  ¬ OneResponse (respond loc logged uuid (some reply))
  := by
  have hsent : respond loc logged uuid (some reply) = version ++ catchReq loc logged := by
    rw [respond, sendReply, hstatus]
    rfl
  rw [hsent]
  intro hone
  obtain ⟨a, rest, hx, ha⟩ := digit_of_oneResponse hone
  rw [catchReq] at hx
  split at hx
  case isTrue =>
      obtain ⟨rfl, -⟩ := List.cons.inj hx
      exact absurd ha (by decide)
  case isFalse => cases hx

/-- A body that cannot be converted is noticed after the status line. -/
theorem not_oneResponse_of_body {loc : Locale} {logged : List Text} {uuid : Option (List UInt8)}
    {reply : Reply} {status : List UInt8} (hwf : reply.WellFormed)
    (hstatus : toLatin1String reply.status = some status)
    (hbody : toUtf8String reply.body = none) :
  ¬ OneResponse (respond loc logged uuid (some reply))
  := by
  have hsent : respond loc logged uuid (some reply)
      = version ++ sendAll status ++ crlf ++ headerLines [] ++ catchReq loc logged := by
    rw [respond, sendReply, hstatus, hbody]
    simp [version, headerLines]
  rw [hsent, oneResponse_iff (hwf.status_of hstatus) (by simp)]
  rintro ⟨more, text, heq, hmore, -⟩
  exact catchReq_ne_block loc logged hmore heq

/-- The header whose value fails is the first one that cannot be converted. -/
theorem Reply.FailsInValue.first {reply : Reply} (hfails : reply.FailsInValue)
    {before : List (Scm × Scm)} {h : Scm × Scm} {after : List (Scm × Scm)}
    (heq : reply.headers = before ++ h :: after)
    (hbefore : ∀ h' ∈ before, ∃ b, convertHeader h' = some b) (hh : convertHeader h = none) :
  (∀ h' ∈ before, ∃ b, convertHeader h' = some b ∧ LengthOk errText b)
    ∧ ∃ name, sentLatin1 h.1 = some name ∧ name.map tolower ≠ ascii "content-length"
      ∧ headerValue h.2 = none
  := by
  obtain ⟨before', h₁, after', name, heq', hbefore', hname, hlower, hvalue⟩ := hfails.value
  have hh₁ : convertHeader h₁ = none := convertHeader_eq_none hname hvalue
  have hnot : h₁ ∉ before := by
    intro hmem
    obtain ⟨b, hb⟩ := hbefore h₁ hmem
    rw [hh₁] at hb
    cases hb
  have hnot' : h ∉ before' := by
    intro hmem
    obtain ⟨b, hb, -⟩ := hbefore' h hmem
    rw [hh] at hb
    cases hb
  rw [heq] at heq'
  obtain ⟨rfl, rfl, -⟩ := append_cons_inj hnot hnot' heq'
  exact ⟨hbefore', name, hname, hlower, hvalue⟩

/-- When a value fails, not all headers can be converted. -/
theorem Reply.FailsInValue.not_converts {reply : Reply} (hfails : reply.FailsInValue) :
  ¬ ∀ h ∈ reply.headers, (convertHeader h).isSome
  := by
  obtain ⟨before, h, after, name, heq, -, hname, -, hvalue⟩ := hfails.value
  intro hall
  have hsome := hall h (by simp [heq])
  rw [convertHeader_eq_none hname hvalue] at hsome
  cases hsome

/-- When everything can be converted, each header can. -/
theorem Reply.Converts.ne_none {reply : Reply} (hconverts : reply.Converts)
    {before after : List (Scm × Scm)} {h : Scm × Scm}
    (heq : reply.headers = before ++ h :: after) :
  convertHeader h ≠ none
  := by
  intro hh
  have hsome := hconverts.headers h (by simp [heq])
  rw [hh] at hsome
  cases hsome

/-- What is sent when everything can be converted. -/
theorem oneResponse_of_done {loc : Locale} {logged : List Text} (uuid : Option (List UInt8))
    {reply : Reply} {status body : List UInt8} {bs : List (List UInt8 × List UInt8)}
    (hwf : reply.WellFormed) (hstatus : toLatin1String reply.status = some status)
    (hbody : toUtf8String reply.body = some body)
    (hbs : reply.headers.map convertHeader = bs.map some) :
  OneResponse (respond loc logged uuid (some reply)) ↔ 0 ≤ contentLength body
  := by
  rw [oneResponse_respond uuid hwf hstatus hbody (List.append_nil _).symm hbs,
    ← contentLength_eq_iff]
  have hlengths := hwf.lengths body hbody
  have hnil : sendHeaders [] = (crlf, true) := rfl
  rw [hnil]
  simp only [if_true]
  generalize sendAll body = sent at hlengths ⊢
  constructor
  · rintro ⟨more, text, heq, hmore, hlength, -⟩
    obtain ⟨-, rfl⟩ := headerLines_eq_crlf hmore heq
    exact hlength
  · intro hlength
    refine ⟨[], sent, rfl, by simp, hlength, ?_⟩
    intro b hb
    rw [List.append_nil] at hb
    obtain ⟨h, hh, hconvert⟩ := (exists_mem_of_map hbs).2 b hb
    exact hlengths h hh b hconvert

/-- What is sent when the name of a header cannot be converted. -/
theorem not_oneResponse_of_name {loc : Locale} {logged : List Text} (uuid : Option (List UInt8))
    {reply : Reply} {status body : List UInt8} {before after : List (Scm × Scm)} {h : Scm × Scm}
    {bs : List (List UInt8 × List UInt8)} (hwf : reply.WellFormed)
    (hstatus : toLatin1String reply.status = some status)
    (hbody : toUtf8String reply.body = some body) (heq : reply.headers = before ++ h :: after)
    (hbs : before.map convertHeader = bs.map some) (hname : toLatin1String h.1 = none) :
  ¬ OneResponse (respond loc logged uuid (some reply))
  := by
  rw [oneResponse_respond uuid hwf hstatus hbody heq hbs, sendHeaders_name hname]
  rintro ⟨more, text, heq, hmore, -⟩
  exact catchReq_ne_block loc logged hmore heq

/-- What is sent when the value of a header cannot be converted: the error message gives the header
its value. -/
theorem oneResponse_of_value {loc : Locale} {logged : List Text} (uuid : Option (List UInt8))
    {reply : Reply} {status body : List UInt8} {before after : List (Scm × Scm)} {h : Scm × Scm}
    {bs : List (List UInt8 × List UInt8)} {name : List UInt8} (hwf : reply.WellFormed)
    (hstatus : toLatin1String reply.status = some status)
    (hbody : toUtf8String reply.body = some body) (heq : reply.headers = before ++ h :: after)
    (hbs : before.map convertHeader = bs.map some) (hname : sentLatin1 h.1 = some name)
    (hvalue : headerValue h.2 = none) :
  OneResponse (respond loc logged uuid (some reply))
    ↔ Loggable loc logged ∧ contentLength body = errText.length
      ∧ (∀ b ∈ bs, LengthOk errText b) ∧ name.map tolower ≠ ascii "content-length"
  := by
  have hnameOk : NameOk name := hwf.names h (by simp [heq]) name hname
  have hcontinued : ∀ h ∈ [(name, version ++ ascii "500 Internal Server Error"),
      (ascii "Content-type", ascii "text/plain")], HeaderOk h := by
    rw [List.forall_mem_cons, List.forall_mem_singleton]
    have hline : ValueOk (version ++ ascii "500 Internal Server Error") := by
      unfold ValueOk
      decide
    exact ⟨⟨hnameOk, hline⟩, headerOk_contentType⟩
  have hmessage : name ++ ascii ": " ++ errMsg
      = headerLines [(name, version ++ ascii "500 Internal Server Error"),
          (ascii "Content-type", ascii "text/plain")] ++ (crlf ++ errText) := by
    simp [errMsg_eq, headerLines, headerLine]
  rw [oneResponse_respond uuid hwf hstatus hbody heq hbs, sendHeaders_value hname hvalue]
  simp only [Bool.false_eq_true, if_false]
  constructor
  · rintro ⟨more, text, hsent, hmore, hlength, hlengths⟩
    have hlog : Loggable loc logged := by
      by_contra hlog
      have hcolon : (13 : UInt8) ∉ ascii ": " := by decide
      have hend : (13 : UInt8) ∈ name ++ ascii ": " := by
        rw [catchReq_of_not_loggable loc logged hlog, List.append_nil] at hsent
        rw [hsent]
        simp [crlf]
      rcases List.mem_append.mp hend with hend | hend
      · exact hnameOk.2.2.2.1 hend
      · exact hcolon hend
    rw [catchReq_of_loggable loc logged hlog, hmessage] at hsent
    obtain ⟨more', rfl, hrest⟩ := headerLines_cancel hcontinued hmore hsent
    obtain ⟨-, rfl⟩ := headerLines_eq_crlf
      (fun h hh => hmore h (List.mem_append_right _ hh)) hrest
    refine ⟨hlog, hlength, fun b hb => hlengths b (List.mem_append_left _ hb), ?_⟩
    intro hlower
    have hdigits := hlengths (name, version ++ ascii "500 Internal Server Error") (by simp) hlower
    have hfirst : (72 : UInt8) ∈ decimal errText.length := by
      rw [← hdigits]
      apply List.mem_cons_self
    exact absurd (isdigit_of_mem_decimal hfirst) (by decide)
  · rintro ⟨hlog, hlength, hlengths, hlower⟩
    refine ⟨_, errText, ?_, hcontinued, hlength, ?_⟩
    · rw [catchReq_of_loggable loc logged hlog, hmessage, List.append_assoc]
    · intro b hb
      rcases List.mem_append.mp hb with hb | hb
      · exact hlengths b hb
      · rcases List.mem_cons.mp hb with rfl | hb
        · intro heq
          exact absurd heq hlower
        · obtain rfl := List.mem_singleton.mp hb
          intro heq
          exact absurd heq (by decide)

/-! ### The replies of the server's own responders -/

theorem toLatin1String_ok :
  toLatin1String (.str "200 OK".toList) = some (ascii "200 OK")
  := by decide

/-- A reply with that status is well formed when its headers are converted to well-formed ones. -/
theorem wellFormed_of_headers {reply : Reply} (bs : List (List UInt8 × List UInt8))
    (hstatus : reply.status = .str "200 OK".toList)
    (hbs : reply.headers.map convertHeader = bs.map some)
    (hok : ∀ b ∈ bs, HeaderOk b ∧ b.1.map tolower ≠ ascii "content-length") :
  reply.WellFormed
  := by
  have hconvert : ∀ h ∈ reply.headers, ∃ b ∈ bs,
      sentLatin1 h.1 = some b.1 ∧ sentValue h.2 = some b.2 := by
    intro h hh
    obtain ⟨b, hb, heq⟩ := (exists_mem_of_map hbs).1 h hh
    exact ⟨b, hb, convertHeader_eq_some.mp heq⟩
  refine ⟨?_, ?_, ?_, ?_⟩
  · rw [hstatus, sentLatin1_of_lt toLatin1String_ok (by decide)]
    intro status h
    obtain rfl := Option.some.inj h
    exact ⟨⟨50, 48, 48, ascii "OK", by decide⟩, by decide⟩
  · intro h hh name hname
    obtain ⟨b, hb, hb₁, -⟩ := hconvert h hh
    obtain rfl := Option.some.inj (hb₁.symm.trans hname)
    exact (hok b hb).1.1
  · intro h hh value hvalue
    obtain ⟨b, hb, -, hb₂⟩ := hconvert h hh
    obtain rfl := Option.some.inj (hb₂.symm.trans hvalue)
    exact (hok b hb).1.2
  · intro body _ h hh b' heq hlower
    obtain ⟨b, hb, hb₁, -⟩ := hconvert h hh
    have hname := hb₁.symm.trans (convertHeader_eq_some.mp heq).1
    rw [← Option.some.inj hname] at hlower
    exact absurd hlower (hok b hb).2

/-- What `simple-response` returns is well formed when the type is. -/
theorem wellFormed_simpleHttpResponse {mimeType : Scm} {type : List UInt8} (content : Scm)
    (hvalue : sentValue mimeType = some type) (htype : ValueOk type) :
  (simpleHttpResponse mimeType content).WellFormed
  := by
  have hname : sentLatin1 (.str "content-type".toList) = some (ascii "content-type") :=
    sentLatin1_of_lt (by decide) (by decide)
  have hconvert : convertHeader (.str "content-type".toList, mimeType)
      = some (ascii "content-type", type) :=
    convertHeader_eq_some.mpr ⟨hname, hvalue⟩
  have hnameOk : NameOk (ascii "content-type") := by
    unfold NameOk
    decide
  have hother : (ascii "content-type").map tolower ≠ ascii "content-length" := by decide
  apply wellFormed_of_headers [(ascii "content-type", type)] rfl
  · rw [simpleHttpResponse, List.map_singleton, hconvert]
    rfl
  · rw [List.forall_mem_singleton]
    exact ⟨⟨hnameOk, htype⟩, hother⟩

theorem convertHeader_of_lt {h : Scm × Scm} {b : List UInt8 × List UInt8}
    (hname : toLatin1String h.1 = some b.1) (hvalue : headerValue h.2 = some b.2)
    (hlength : b.1.length < 2 ^ 31 ∧ b.2.length < 2 ^ 31) :
  convertHeader h = some b
  := convertHeader_eq_some.mpr ⟨sentLatin1_of_lt hname hlength.1, sentValue_of_lt hvalue hlength.2⟩

/-- The headers of `json-response`. -/
theorem convertHeader_json (encContent : Scm) :
  (jsonHttpResponse encContent).headers.map convertHeader
    = [(ascii "content-type", ascii "application/json; charset=UTF-8"),
      (ascii "cache-control", ascii "max-age=0, must-revalidate")].map some
  := by
  rw [jsonHttpResponse, List.map_cons, List.map_singleton, List.map_cons, List.map_singleton,
    @convertHeader_of_lt _ (ascii "content-type", ascii "application/json; charset=UTF-8")
      (by decide) (by decide) (by decide),
    @convertHeader_of_lt _ (ascii "cache-control", ascii "max-age=0, must-revalidate")
      (by decide) (by decide) (by decide)]

/-- What `json-response` returns is well formed, whatever the body. -/
theorem wellFormed_jsonHttpResponse (encContent : Scm) :
  (jsonHttpResponse encContent).WellFormed
  := by
  apply wellFormed_of_headers _ rfl (convertHeader_json encContent)
  unfold HeaderOk NameOk ValueOk
  decide

/-- **Responses**: what is sent for a request is one response when the responder raises and the
exception can be logged, and when everything in the reply can be converted; and else only when
the first conversion that fails is that of the value of a header, where the error message happens
to continue the block of headers, and its text has the length that was sent for the body. -/
theorem oneResponse_respond_iff (loc : Locale) (logged : List Text) (uuid : Option (List UInt8))
    (outcome : Option Reply) (hwf : ∀ reply, outcome = some reply → reply.WellFormed) :
  OneResponse (respond loc logged uuid outcome)
    ↔ match outcome with
      | none => Loggable loc logged
      | some reply => reply.Converts ∨ (Loggable loc logged ∧ reply.FailsInValue)
  := by
  cases outcome with
  | none => exact oneResponse_catchReq loc logged
  | some reply =>
      have hwf := hwf reply rfl
      cases hstatus : toLatin1String reply.status with
      | none =>
          apply iff_of_false (not_oneResponse_of_status hstatus)
          rintro (hconverts | ⟨-, hfails⟩)
          · simpa [hstatus] using hconverts.status
          · simpa [hstatus] using hfails.status
      | some status =>
      cases hbody : toUtf8String reply.body with
      | none =>
          apply iff_of_false (not_oneResponse_of_body hwf hstatus hbody)
          rintro (hconverts | ⟨-, hfails⟩)
          · simpa [hbody] using hconverts.body
          · simpa [hbody] using hfails.body
      | some body =>
      have hsent := sendHeaders_cases reply.headers
      generalize sendHeaders reply.headers = sent at hsent
      cases hsent with
      | done bs hbs =>
          have hall : ∀ h ∈ reply.headers, (convertHeader h).isSome := by
            intro h hh
            obtain ⟨b, -, hb⟩ := (exists_mem_of_map hbs).1 h hh
            rw [hb]
            rfl
          rw [oneResponse_of_done uuid hwf hstatus hbody hbs]
          constructor
          · intro hlt
            exact Or.inl ⟨by rw [hstatus, Option.isSome_some], ⟨body, hbody, hlt⟩, hall⟩
          · rintro (hconverts | ⟨-, hfails⟩)
            · obtain ⟨body', hbody', hlt⟩ := hconverts.body
              obtain rfl := Option.some.inj (hbody.symm.trans hbody')
              exact hlt
            · exact absurd hall hfails.not_converts
      | name before h after bs heq hbs hname =>
          have hfirst := (exists_mem_of_map hbs).1
          have hh : convertHeader h = none := by
            rw [convertHeader, sentLatin1, hname]
            rfl
          apply iff_of_false (not_oneResponse_of_name uuid hwf hstatus hbody heq hbs hname)
          rintro (hconverts | ⟨-, hfails⟩)
          · exact hconverts.ne_none heq hh
          · obtain ⟨-, name, hname', -⟩ := hfails.first heq (fun h hmem => (hfirst h hmem).imp
              (fun _ hb => hb.2)) hh
            rw [sentLatin1, hname] at hname'
            cases hname'
      | value before h after bs name heq hbs hname hvalue =>
          have hfirst := exists_mem_of_map hbs
          have hh : convertHeader h = none := convertHeader_eq_none hname hvalue
          rw [oneResponse_of_value uuid hwf hstatus hbody heq hbs hname hvalue]
          constructor
          · rintro ⟨hlog, hlength, hlengths, hlower⟩
            refine Or.inr ⟨hlog, by rw [hstatus, Option.isSome_some], ⟨body, hbody, hlength⟩, before, h,
              after, name, heq, ?_, hname, hlower, hvalue⟩
            intro h' hh'
            obtain ⟨b, hb, hconvert⟩ := hfirst.1 h' hh'
            exact ⟨b, hconvert, hlengths b hb⟩
          · rintro (hconverts | ⟨hlog, hfails⟩)
            · exact absurd hh (hconverts.ne_none heq)
            · obtain ⟨body', hbody', hlength⟩ := hfails.body
              obtain rfl := Option.some.inj (hbody.symm.trans hbody')
              obtain ⟨hbefore, name', hname', hlower, -⟩ := hfails.first heq
                (fun h hmem => (hfirst.1 h hmem).imp (fun _ hb => hb.2)) hh
              obtain rfl := Option.some.inj (hname.symm.trans hname')
              refine ⟨hlog, hlength, ?_, hlower⟩
              intro b hb
              obtain ⟨h', hh', hconvert⟩ := hfirst.2 b hb
              obtain ⟨b', hconvert', hlengthOk⟩ := hbefore h' hh'
              obtain rfl := Option.some.inj (hconvert.symm.trans hconvert')
              exact hlengthOk

/-- The page is sent as one response, with the cookie of a new session. -/
theorem oneResponse_respond_page :
  OneResponse (respond latin1 [] (some [0, 1])
    (some (simpleHttpResponse (.str "text/html; charset=UTF-8".toList) (.str "hi".toList))))
  := by
  have hwf := wellFormed_simpleHttpResponse (.str "hi".toList)
    (sentValue_of_lt (show headerValue (.str "text/html; charset=UTF-8".toList)
      = some (ascii "text/html; charset=UTF-8") by decide) (by decide)) (by unfold ValueOk; decide)
  apply (oneResponse_respond_iff latin1 [] (some [0, 1]) _ ?_).mpr
  · exact Or.inl ⟨by decide, ⟨ascii "hi", by decide, by decide⟩, by decide⟩
  · intro reply h
    obtain rfl := Option.some.inj h
    exact hwf

/-- The reply of `http-json` when `json-encode` fails, which returns `#f`: the error message with
its own status line follows the status line of the reply. -/
theorem two_status_lines :
  respond latin1 [] none (some (jsonHttpResponse (.bool false)))
      = ascii "HTTP/1.1 200 OK\r\n" ++ errMsg
    ∧ ¬ OneResponse (respond latin1 [] none (some (jsonHttpResponse (.bool false))))
  := by
  have hsent : sendReply none (jsonHttpResponse (.bool false))
      = (ascii "HTTP/1.1 200 OK\r\n", false) := by
    decide
  constructor
  · rw [respond, hsent, catchReq_of_loggable latin1 [] (by simp [Loggable])]
    rfl
  · exact not_oneResponse_of_body (wellFormed_jsonHttpResponse _) toLatin1String_ok rfl

end Gusher
