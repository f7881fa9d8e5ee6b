import Gusher.Request.Line
import Gusher.Request.Query
import Mathlib.Data.List.Induction

/-!
# Header lines and the fields of the request line

The fields of the request line and the header lines end up in one alist, in which the newest
entry wins, and the header lines come later.  So a header line named like a field of the
request line takes its place (`header_forges_path`).  The fields are those of the request line
exactly when no header line has such a name, or the last one that has it repeats the value
of the request line (`unforged_iff`); the entries which are added after the header lines
cannot be taken over in this way.
-/

namespace Gusher

open CString

/-- A request line: method, target and version with a space in between.  It is one line, and
neither the method nor the target has a space or a NUL in it. -/
structure RequestLine where
  method : List UInt8
  target : List UInt8
  version : List UInt8
  method_plain : ∀ c ∈ method, c ≠ 0 ∧ c ≠ 10 ∧ c ≠ 32
  target_plain : ∀ c ∈ target, c ≠ 0 ∧ c ≠ 10 ∧ c ≠ 32
  version_line : (10 : UInt8) ∉ version

namespace RequestLine

/-- The bytes of a request line. -/
def bytes (line : RequestLine) : List UInt8 :=
  line.method ++ 32 :: (line.target ++ 32 :: line.version)

/-- The request line fits the line buffer. -/
def Fits (line : RequestLine) : Prop :=
  line.bytes.length + 2 ≤ lineSize

/-- The part of the target before the first question mark. -/
def path (line : RequestLine) : List UInt8 :=
  match index line.target 63 with
  | some (path, _) => path
  | none => line.target

/-- What comes after the first question mark of the target, if there is one. -/
def qstring (loc : Locale) (line : RequestLine) : Text :=
  match index line.target 63 with
  | some (_, qstring) => loc.decode qstring
  | none => []

/-- The fields `start_request` derives from the request line. -/
def fields (loc : Locale) (line : RequestLine) : Scm :=
  Scm.acons "query-string" (.str (line.qstring loc))
    (Scm.acons "url-path" (.str (loc.decode line.path))
      (Scm.acons "url" (.str (loc.decode line.target))
        (Scm.acons "method"
          (.symbol (if line.bytes.head? = some 80 then "post".toList else "get".toList)) .nil)))

theorem bytes_line (line : RequestLine) :
  (10 : UInt8) ∉ line.bytes
  := by
  intro h
  simp only [bytes, List.mem_append, List.mem_cons] at h
  rcases h with h | h | h | h | h
  · exact (line.method_plain 10 h).2.1 rfl
  · cases h
  · exact (line.target_plain 10 h).2.1 rfl
  · cases h
  · exact line.version_line h

theorem cstr_bytes (line : RequestLine) :
  cstr line.bytes = line.method ++ 32 :: (line.target ++ 32 :: cstr line.version)
  := by
  rw [bytes, cstr_append (fun h => (line.method_plain 0 h).1 rfl), cstr_cons (by decide),
    cstr_append (fun h => (line.target_plain 0 h).1 rfl), cstr_cons (by decide)]

/-- `start_request` finds both spaces, and derives the fields. -/
theorem startRequest_eq (loc : Locale) (line : RequestLine) :
  startRequest loc (cstr line.bytes) = some (line.fields loc)
  := by
  have hmethod : (32 : UInt8) ∉ line.method := fun h => (line.method_plain 32 h).2.2 rfl
  have htarget : (32 : UInt8) ∉ line.target := fun h => (line.target_plain 32 h).2.2 rfl
  have hhead : (line.method ++ 32 :: (line.target ++ 32 :: cstr line.version)).head?
      = line.bytes.head? := by
    rw [bytes]
    cases line.method <;> rfl
  rw [cstr_bytes, startRequest, hhead, index_append hmethod]
  simp only [Option.bind_eq_bind, Option.bind_some]
  rw [index_append htarget]
  simp only [Option.bind_some, fields, path, qstring, apply_ite Scm.symbol]
  cases index line.target 63 with
  | none => rfl
  | some r => rfl

end RequestLine

/-- A line as it is sent, without its end. -/
structure Line where
  bytes : List UInt8
  line : (10 : UInt8) ∉ bytes

/-- What a client sends: the request line, the header lines, an empty line, and the body. -/
def sent (line : RequestLine) (headers : List Line) (body : List UInt8) : List UInt8 :=
  line.bytes ++ crlf ++ (headers.flatMap (fun h => h.bytes ++ crlf) ++ crlf ++ body)

/-- The header lines that are read: those before the first one that is empty or does not fit
the line buffer, each up to the first NUL in it. -/
def headersRead (headers : List Line) : List (List UInt8) :=
  (headers.takeWhile (fun h => h.bytes.length + 2 ≤ lineSize ∧ cstr h.bytes ≠ [])).map
    (fun h => cstr h.bytes)

/-- The value of the last header line with the given name. -/
def lastValue (loc : Locale) (headers : List (List UInt8)) (name : Text) : Option Text :=
  (headers.reverse.filterMap (headerField loc)).lookup name

/-- The loop reads the header lines up to the first that is empty or too long. -/
theorem buildLoop_headers (loc : Locale) {request : Scm} (hrequest : request ≠ .nil)
    (headers : List Line) (body : List UInt8) :
  ∃ rest, buildLoop loc request (headers.flatMap (fun h => h.bytes ++ crlf) ++ crlf ++ body)
    = .request ((headersRead headers).foldl (addHeader loc) request) rest
  := by
  induction headers generalizing request with
  | nil =>
      use body
      apply buildLoop_empty
      exact mygetline_line [] body List.not_mem_nil (by decide)
  | cons h headers ih =>
      have hsplit : (h :: headers).flatMap (fun h => h.bytes ++ crlf) ++ crlf ++ body
          = h.bytes ++ crlf ++ (headers.flatMap (fun h => h.bytes ++ crlf) ++ crlf ++ body) := by
        simp only [List.flatMap_cons, List.append_assoc]
      rw [hsplit]
      by_cases hfits : h.bytes.length + 2 ≤ lineSize
      · have hline := mygetline_line []
          (headers.flatMap (fun h => h.bytes ++ crlf) ++ crlf ++ body) h.line
          (by simpa using hfits)
        rw [List.nil_append] at hline
        by_cases hempty : cstr h.bytes = []
        · rw [hempty] at hline
          rw [buildLoop_empty hline, headersRead, List.takeWhile_cons_of_neg (by simp [hempty])]
          exact ⟨_, rfl⟩
        · obtain ⟨rest, hrest⟩ := ih (addHeader_ne_nil loc (cstr h.bytes) hrequest)
          use rest
          rw [buildLoop_header hline hempty hrequest, hrest, headersRead, headersRead,
            List.takeWhile_cons_of_pos (by simp [hfits, hempty])]
          rfl
      · obtain ⟨rest, hline⟩ := mygetline_tooLong []
          (headers.flatMap (fun h => h.bytes ++ crlf) ++ crlf ++ body) h.line
          (Nat.zero_le lineSize) (by simpa using hfits)
        use rest
        rw [buildLoop_tooLong hline, headersRead, List.takeWhile_cons_of_neg (by simp [hfits])]
        rfl

/-- The last header line with a name decides, and else the alist before the header lines. -/
theorem assqRef_headers (loc : Locale) (request : Scm) (headers : List (List UInt8))
    (key : Text) :
  (headers.foldl (addHeader loc) request).assqRef key
    = (lastValue loc headers key).elim (request.assqRef key) .str
  := by
  induction headers using List.reverseRecOn with
  | nil => rfl
  | append_singleton headers line ih =>
      rw [List.foldl_append, List.foldl_cons, List.foldl_nil, addHeader, lastValue,
        List.reverse_append, List.reverse_singleton, List.singleton_append,
        List.filterMap_cons]
      cases headerField loc line with
      | none => apply ih
      | some field =>
          obtain ⟨name, value⟩ := field
          by_cases hkey : key = name
          · subst hkey
            simp
          · have hbeq : (key == name) = false := by simpa using hkey
            have hne : Scm.symbol name ≠ Scm.symbol key := by simpa using Ne.symm hkey
            rw [Scm.assqRef_entry, if_neg hne, List.lookup_cons, hbeq]
            apply ih

/-! ### What later code reads -/

section Unforged

variable (loc : Locale) (line : RequestLine)

/-- What later code reads from the alist that the header phase has built is what the request
line says: the method and the query string that `post_in` and `get_in` read, the path that
`find_handler` reads, and the URL that a responder sees. -/
structure Unforged (request : Scm) : Prop where
  method : ∀ ipaddr rport, (addRemote loc ipaddr rport request).assqRef "method".toList
    = (line.fields loc).assqRef "method".toList
  qstring : ∀ ipaddr rport, (addRemote loc ipaddr rport request).assqRef "query-string".toList
    = (line.fields loc).assqRef "query-string".toList
  path : ∀ ipaddr rport query,
    (addQuery query (addRemote loc ipaddr rport request)).assqRef "url-path".toList
      = (line.fields loc).assqRef "url-path".toList
  url : ∀ ipaddr rport query session pathInfo,
    (addSession session pathInfo (addQuery query (addRemote loc ipaddr rport request))).assqRef
        "url".toList
      = (line.fields loc).assqRef "url".toList
  post : ∀ ipaddr rport, isPost (addRemote loc ipaddr rport request) = isPost (line.fields loc)
  get : ∀ ipaddr rport,
    getIn loc (addRemote loc ipaddr rport request) = getIn loc (line.fields loc)
  handler : ∀ ipaddr rport query handlers,
    findHandler loc handlers (addQuery query (addRemote loc ipaddr rport request))
      = findHandler loc handlers (line.fields loc)

/-- No header line takes the place of a field of the request line: none is named `method`,
whose value is a symbol, and the last one that has the name of another field repeats its
value. -/
structure Harmless (headers : List (List UInt8)) : Prop where
  method : lastValue loc headers "method".toList = none
  url : ∀ value, lastValue loc headers "url".toList = some value →
    value = loc.decode line.target
  path : ∀ value, lastValue loc headers "url-path".toList = some value →
    value = loc.decode line.path
  qstring : ∀ value, lastValue loc headers "query-string".toList = some value →
    value = line.qstring loc

def fieldNames : List Text :=
  ["method".toList, "url".toList, "url-path".toList, "query-string".toList]

variable {loc line}

/-- The entries that are added after the header lines have other names, so that only the alist
built by the header phase matters. -/
theorem unforged_iff_fieldNames {request : Scm} :
  Unforged loc line request
    ↔ ∀ name ∈ fieldNames, request.assqRef name = (line.fields loc).assqRef name
  := by
  have hremote : ∀ name ∈ fieldNames, ∀ ipaddr rport,
      (addRemote loc ipaddr rport request).assqRef name = request.assqRef name := by
    intro name hname ipaddr rport
    rw [addRemote, Scm.assqRef_acons, Scm.assqRef_acons, if_neg, if_neg] <;>
      revert name <;> decide
  have hquery : ∀ name ∈ fieldNames, ∀ query alist,
      (addQuery query alist).assqRef name = alist.assqRef name := by
    intro name hname query alist
    rw [addQuery, Scm.assqRef_acons, if_neg]
    revert name
    decide
  have hsession : ∀ name ∈ fieldNames, ∀ session pathInfo alist,
      (addSession session pathInfo alist).assqRef name = alist.assqRef name := by
    intro name hname session pathInfo alist
    rw [addSession, Scm.assqRef_acons, Scm.assqRef_acons, if_neg, if_neg] <;>
      revert name <;> decide
  have hmethod : "method".toList ∈ fieldNames := by decide
  have hurl : "url".toList ∈ fieldNames := by decide
  have hpath : "url-path".toList ∈ fieldNames := by decide
  have hqstring : "query-string".toList ∈ fieldNames := by decide
  constructor
  · intro h name hname
    simp only [fieldNames, List.mem_cons, List.not_mem_nil, or_false] at hname
    rcases hname with rfl | rfl | rfl | rfl
    · rw [← h.method [] 0, hremote _ hmethod]
    · rw [← h.url [] 0 .nil [] [], hsession _ hurl, hquery _ hurl, hremote _ hurl]
    · rw [← h.path [] 0 .nil, hquery _ hpath, hremote _ hpath]
    · rw [← h.qstring [] 0, hremote _ hqstring]
  · intro h
    constructor
    case method =>
        intro ipaddr rport
        rw [hremote _ hmethod, h _ hmethod]
    case qstring =>
        intro ipaddr rport
        rw [hremote _ hqstring, h _ hqstring]
    case path =>
        intro ipaddr rport query
        rw [hquery _ hpath, hremote _ hpath, h _ hpath]
    case url =>
        intro ipaddr rport query session pathInfo
        rw [hsession _ hurl, hquery _ hurl, hremote _ hurl, h _ hurl]
    case post =>
        intro ipaddr rport
        rw [isPost, isPost, hremote _ hmethod, h _ hmethod]
    case get =>
        intro ipaddr rport
        rw [getIn, getIn, hremote _ hqstring, h _ hqstring]
    case handler =>
        intro ipaddr rport query handlers
        rw [findHandler, findHandler, hquery _ hpath, hremote _ hpath, h _ hpath]

theorem not_unforged_nil :
  ¬ Unforged loc line .nil
  := by
  intro h
  have := unforged_iff_fieldNames.mp h "url".toList (by decide)
  simp [RequestLine.fields, Scm.assqRef] at this

/-- What may take the place of a value leaves it alone exactly when it is not there or repeats
it. -/
theorem elim_str_eq_iff {o : Option Text} {x : Scm} :
  o.elim x .str = x ↔ ∀ value, o = some value → .str value = x
  := by
  cases o with
  | none => simp
  | some value => simp

/-- The header lines are harmless exactly when they leave every field alone. -/
theorem unforged_headers_iff {headers : List (List UInt8)} :
  Unforged loc line (headers.foldl (addHeader loc) (line.fields loc))
    ↔ Harmless loc line headers
  := by
  have hmethod : (line.fields loc).assqRef "method".toList
      = .symbol (if line.bytes.head? = some 80 then "post".toList else "get".toList) := by
    simp [RequestLine.fields]
  have hurl : (line.fields loc).assqRef "url".toList = .str (loc.decode line.target) := by
    simp [RequestLine.fields]
  have hpath : (line.fields loc).assqRef "url-path".toList = .str (loc.decode line.path) := by
    simp [RequestLine.fields]
  have hqstring : (line.fields loc).assqRef "query-string".toList
      = .str (line.qstring loc) := by
    simp [RequestLine.fields]
  rw [unforged_iff_fieldNames]
  simp only [fieldNames, List.forall_mem_cons, assqRef_headers, hmethod, hurl, hpath, hqstring,
    elim_str_eq_iff, Scm.str.injEq]
  constructor
  · rintro ⟨h₁, h₂, h₃, h₄, -⟩
    refine ⟨?_, h₂, h₃, h₄⟩
    rw [Option.eq_none_iff_forall_ne_some]
    intro value hvalue
    cases h₁ value hvalue
  · rintro ⟨h₁, h₂, h₃, h₄⟩
    refine ⟨?_, h₂, h₃, h₄, List.forall_mem_nil _⟩
    intro value hvalue
    rw [h₁] at hvalue
    cases hvalue

end Unforged

/-- A request line that fits starts the alist, and the header lines that are read are put in
front. -/
theorem buildRequest_sent (loc : Locale) (line : RequestLine) (hfits : line.Fits)
    (headers : List Line) (body : List UInt8) :
  ∃ rest, buildRequest loc (sent line headers body)
    = .request ((headersRead headers).foldl (addHeader loc) (line.fields loc)) rest
  := by
  have hline := mygetline_line []
    (headers.flatMap (fun h => h.bytes ++ crlf) ++ crlf ++ body) line.bytes_line
    (by simpa [RequestLine.Fits] using hfits)
  have hne : cstr line.bytes ≠ [] := by
    rw [line.cstr_bytes]
    simp
  have hfields : line.fields loc ≠ .nil := by
    rintro ⟨⟩
  obtain ⟨rest, hrest⟩ := buildLoop_headers loc hfields headers body
  use rest
  rw [← hrest]
  apply buildLoop_start hline hne (line.startRequest_eq loc)

theorem buildRequest_sent_tooLong (loc : Locale) {line : RequestLine} (hfits : ¬ line.Fits)
    (headers : List Line) (body : List UInt8) :
  ∃ rest, buildRequest loc (sent line headers body) = .request .nil rest
  := by
  obtain ⟨rest, hline⟩ := mygetline_tooLong []
    (headers.flatMap (fun h => h.bytes ++ crlf) ++ crlf ++ body) line.bytes_line
    (Nat.zero_le lineSize) (by simpa [RequestLine.Fits] using hfits)
  exact ⟨rest, buildLoop_tooLong hline⟩

/-- The fields that later code reads are those of the request line exactly when the request line
fits the line buffer and the header lines that are read are harmless. -/
theorem unforged_iff (loc : Locale) (line : RequestLine) (headers : List Line)
    (body : List UInt8) :
  ∃ alist rest, buildRequest loc (sent line headers body) = .request alist rest
    ∧ (Unforged loc line alist ↔ line.Fits ∧ Harmless loc line (headersRead headers))
  := by
  by_cases hfits : line.Fits
  · obtain ⟨rest, hrest⟩ := buildRequest_sent loc line hfits headers body
    refine ⟨_, rest, hrest, ?_⟩
    rw [unforged_headers_iff]
    exact ⟨fun h => ⟨hfits, h⟩, And.right⟩
  · obtain ⟨rest, hrest⟩ := buildRequest_sent_tooLong loc hfits headers body
    refine ⟨.nil, rest, hrest, ?_⟩
    exact ⟨fun h => absurd h not_unforged_nil, fun h => absurd h.1 hfits⟩

/-- The request line `GET /a HTTP/1.1`. -/
def getA : RequestLine where
  method := ascii "GET"
  target := ascii "/a"
  version := ascii "HTTP/1.1"
  method_plain := forall_mem_of_all (by decide)
  target_plain := forall_mem_of_all (by decide)
  version_line := by decide

/-- A header line `url-path: /b` takes the place of the path of the request line. -/
theorem header_forges_path :
  ∃ alist rest,
    buildRequest latin1 (sent getA [⟨ascii "url-path: /b", by decide⟩] [])
      = .request alist rest
    ∧ ¬ Unforged latin1 getA alist
  := by
  obtain ⟨rest, hrest⟩ := buildRequest_sent latin1 getA
    (show getA.bytes.length + 2 ≤ lineSize by decide) [⟨ascii "url-path: /b", by decide⟩] []
  refine ⟨_, rest, hrest, ?_⟩
  rw [unforged_headers_iff]
  intro h
  have hpath := h.path "/b".toList (by decide)
  revert hpath
  decide

end Gusher
