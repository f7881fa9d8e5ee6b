import Gusher.Scheme.Object

/-!
# Sending the reply

How `process_request` sends what a responder returns, and what `catch_req` sends when an exception
is raised.  The strings of a reply are converted to bytes one after the other, between the pieces
that are sent, and each conversion may raise.  The length of what is sent is an `int`.  What is sent
goes to the connection of the request.
-/

namespace Gusher

open CString

/-- What a responder returns: the list of the status, the headers and the body. -/
structure Reply where
  status : Scm
  headers : List (Scm × Scm)
  body : Scm
  deriving DecidableEq

def simpleHttpResponse (mimeType content : Scm) : Reply where
  status := .str "200 OK".toList
  headers := [(.str "content-type".toList, mimeType)]
  body := content

def jsonHttpResponse (encContent : Scm) : Reply where
  status := .str "200 OK".toList
  headers := [(.str "content-type".toList, .str "application/json; charset=UTF-8".toList),
    (.str "cache-control".toList, .str "max-age=0, must-revalidate".toList)]
  body := encContent

/-- `scm_to_latin1_string` of an object. -/
def toLatin1String : Scm → Option (List UInt8)
  | .str s => toLatin1 s
  | _ => none

/-- `scm_to_utf8_string` of an object. -/
def toUtf8String : Scm → Option (List UInt8)
  | .str s => toUtf8 s
  | _ => none

/-- An entry of the table `hex`. -/
def hexDigit (n : UInt8) : UInt8 :=
  if n < 10 then 48 + n else 87 + n

/-- `put_uuid`, with the identifier that `uuid_generate` made. -/
def putUuid (out : List UInt8) : List UInt8 :=
  out.flatMap (fun b : UInt8 => [hexDigit (b >>> 4), hexDigit (b &&& 15)])

/-- The header `set-cookie`, which `run_responder` makes for a new session. -/
def cookieHeader (out : List UInt8) : Scm × Scm :=
  (.str "set-cookie".toList,
    .str (fromLatin1 ((ascii "GUSHERID=" ++ putUuid out ++ ascii "; Path=/").take 126)))

/-- `send_all`: `len` is an `int`, and nothing is sent when it is negative. -/
def sendAll (msg : List UInt8) : List UInt8 :=
  msg.take (Int.bmod msg.length (2 ^ 32)).toNat

/-- The value of a header as bytes: an object that is not a string, a number or a symbol is sent
as nothing. -/
def headerValue : Scm → Option (List UInt8)
  | .str s => toLatin1 s
  | .int z => toLatin1 (numberText z)
  | .number digits => toLatin1 digits
  | .symbol name => toLatin1 name
  | _ => some []

/-- `send_headers`: what is sent, and whether it came to its end.  The strings that the code gives are
short, so that `send_all` sends them as they are. -/
def sendHeaders : List (Scm × Scm) → List UInt8 × Bool
  | [] => (crlf, true)
  | (name, val) :: headers =>
      match toLatin1String name with
      | none => ([], false)
      | some hname =>
          match headerValue val with
          | none => (sendAll hname ++ ascii ": ", false)
          | some hvalue =>
              (sendAll hname ++ ascii ": " ++ sendAll hvalue ++ crlf ++ (sendHeaders headers).1,
                (sendHeaders headers).2)

/-- `scm_from_int(strlen(body))`: the length as an `int`. -/
def contentLength (body : List UInt8) : ℤ :=
  Int.bmod body.length (2 ^ 32)

/-- The headers that are sent: the length comes first, and then the cookie. -/
def allHeaders (uuid : Option (List UInt8)) (reply : Reply) (body : List UInt8) :
    List (Scm × Scm) :=
  (.str "content-length".toList, .int (contentLength body)) ::
    ((uuid.map cookieHeader).toList ++ reply.headers)

/-- The part of `process_request` that sends the reply: what is sent, and whether it came to its
end.  A request without a session has a new `uuid`. -/
def sendReply (uuid : Option (List UInt8)) (reply : Reply) : List UInt8 × Bool :=
  match toLatin1String reply.status with
  | none => (ascii "HTTP/1.1 ", false)
  | some status =>
      match toUtf8String reply.body with
      | none => (ascii "HTTP/1.1 " ++ sendAll status ++ crlf, false)
      | some body =>
          let headers := sendHeaders (allHeaders uuid reply body)
          let sent := ascii "HTTP/1.1 " ++ sendAll status ++ crlf ++ headers.1
          if headers.2 then (sent ++ sendAll body, true) else (sent, false)

/-- The body of the response in `err_msg`. -/
def errText : List UInt8 :=
  ascii "Gusher application error. Someone will attend to this soon, if they aren't already.\r\n"

def errMsg : List UInt8 :=
  ascii "HTTP/1.1 500 Internal Server Error\r\nContent-type: text/plain\r\n\r\n" ++ errText

/-- What `catch_req` sends: it first logs some texts (the key and the details of the exception,
the location and the backtrace), and raises itself when one of them cannot be encoded. -/
def catchReq (loc : Locale) (logged : List Text) : List UInt8 :=
  if ∀ text ∈ logged, (loc.encode text).isSome then errMsg else []

/-- What is sent to the connection of a request whose responder returns a reply, or raises.  The
texts `logged` are those of the exception, if there is one. -/
def respond (loc : Locale) (logged : List Text) (uuid : Option (List UInt8)) :
    Option Reply → List UInt8
  | none => catchReq loc logged
  | some reply =>
      if (sendReply uuid reply).2 then (sendReply uuid reply).1
      else (sendReply uuid reply).1 ++ catchReq loc logged

/-- What an identifier consists of. -/
theorem exists_of_mem_putUuid {out : List UInt8} {c : UInt8} (h : c ∈ putUuid out) :
  ∃ n : UInt8, n.toNat < 16 ∧ c = hexDigit n
  := by
  obtain ⟨b, -, hb⟩ := List.mem_flatMap.mp h
  rcases List.mem_cons.mp hb with rfl | hb
  · refine ⟨_, ?_, rfl⟩
    have hlt := b.toNat_lt
    have h4 : (4 : UInt8).toNat % 8 = 4 := rfl
    rw [UInt8.toNat_shiftRight, Nat.shiftRight_eq_div_pow, h4]
    omega
  · refine ⟨_, ?_, List.mem_singleton.mp hb⟩
    rw [UInt8.toNat_and]
    exact Nat.lt_of_le_of_lt Nat.and_le_right (by decide)

end Gusher
