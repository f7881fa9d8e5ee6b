import Gusher.Scheme.Object

/-!
# The header phase

How `process_request` builds the request alist: it reads lines from the socket, starts the
alist with the fields of the request line, and puts an entry for every header line in front.

A read that the C code makes before the start of the line buffer, and the use of the result of
a failed search, are a `fault`.
-/

namespace Gusher

open CString

/-- `sizeof(buf)` in `process_request`. -/
def lineSize : ℕ := 4096

/-- The outcome of `mygetline`, with the bytes that are left on the socket. -/
inductive Getline where
  /-- `GETLINE_OK`, with the string in the buffer -/
  | ok (line rest : List UInt8)
  /-- `GETLINE_PEER_CLOSED` or `GETLINE_READ_ERR` -/
  | ended
  /-- `GETLINE_TOO_LONG` -/
  | tooLong (rest : List UInt8)
  /-- the byte before the buffer was read -/
  | fault
  deriving DecidableEq

/-- `mygetline`, with the bytes `buf` read so far.  The argument `stream` is what the peer
still sends before the stream ends. -/
def mygetline (len : ℕ) (buf : List UInt8) : List UInt8 → Getline
  | [] => if len ≤ buf.length then .tooLong [] else .ended
  | c :: rest =>
      if len ≤ buf.length then .tooLong (c :: rest)
      else if c = 10 then
        -- the byte before the newline tells how the line ends
        match buf.getLast? with
        | none => .fault
        | some 13 => .ok (cstr buf.dropLast) rest
        | some _ => .ok (cstr buf) rest
      else mygetline len (buf ++ [c]) rest

/-- A line that was read has taken bytes from the socket. -/
theorem mygetline_length_lt {len : ℕ} {buf stream line rest : List UInt8}
    (h : mygetline len buf stream = .ok line rest) :
  rest.length < stream.length
  := by
  induction stream generalizing buf with
  | nil =>
      unfold mygetline at h
      split at h <;> cases h
  | cons c stream ih =>
      unfold mygetline at h
      split at h
      case isTrue => cases h
      case isFalse =>
          split at h
          case isTrue =>
              split at h <;> cases h <;> simp
          case isFalse =>
              have := ih h
              simp only [List.length_cons]
              omega

/-- `start_request`, or `none` when the line has fewer than two spaces. -/
def startRequest (loc : Locale) (line : List UInt8) : Option Scm := do
  let method : Scm := if line.head? = some 80 then .symbol "post".toList else .symbol "get".toList
  let request := Scm.acons "method" method .nil
  let (_, mark) ← index line 32
  let (mark, _) ← index mark 32
  let request := Scm.acons "url" (.str (loc.decode mark)) request
  let (path, qstring) := match index mark 63 with
    | some (path, qstring) => (path, loc.decode qstring)
    | none => (mark, [])
  let request := Scm.acons "url-path" (.str (loc.decode path)) request
  return Scm.acons "query-string" (.str qstring) request

/-- The name and the value of a header line: what stands before the first colon, in lower case,
and what comes after it, without leading white space. -/
def headerField (loc : Locale) (line : List UInt8) : Option (Text × Text) :=
  (index line 58).map (fun r =>
    (loc.decode (r.1.map tolower), loc.decode (r.2.dropWhile isspace)))

/-- A header line puts an entry in front of the request. -/
def addHeader (loc : Locale) (request : Scm) (line : List UInt8) : Scm :=
  match headerField loc line with
  | some (name, value) => .pair (.pair (.symbol name) (.str value)) request
  | none => request

theorem addHeader_ne_nil (loc : Locale) {request : Scm} (line : List UInt8)
    (h : request ≠ .nil) :
  addHeader loc request line ≠ .nil
  := by
  unfold addHeader
  split
  · simp
  · apply h

/-- The outcome of the header phase. -/
inductive Built where
  /-- the request alist, and the bytes that are left on the socket -/
  | request (alist : Scm) (rest : List UInt8)
  /-- `process_request` returns -/
  | ended
  | fault
  deriving DecidableEq

/-- The loop of `process_request` that builds the request. -/
def buildLoop (loc : Locale) (request : Scm) (stream : List UInt8) : Built :=
  match _h : mygetline lineSize [] stream with
  | .ended => .ended
  | .fault => .fault
  | .tooLong rest => .request request rest
  | .ok line rest =>
      if line = [] then .request request rest
      else if request = .nil then
        match startRequest loc line with
        | some request => buildLoop loc request rest
        | none => .fault
      else buildLoop loc (addHeader loc request line) rest
  termination_by stream.length
  decreasing_by all_goals exact mygetline_length_lt _h

/-- A header line puts an entry in front of the alist, and the loop goes on. -/
theorem buildLoop_header {loc : Locale} {request : Scm} {stream line rest : List UInt8}
    (hline : mygetline lineSize [] stream = .ok line rest) (hne : line ≠ [])
    (hrequest : request ≠ .nil) :
  buildLoop loc request stream = buildLoop loc (addHeader loc request line) rest
  := by
  rw [buildLoop]
  split <;> simp_all

theorem buildLoop_start {loc : Locale} {request : Scm} {stream line rest : List UInt8}
    (hline : mygetline lineSize [] stream = .ok line rest) (hne : line ≠ [])
    (hstart : startRequest loc line = some request) :
  buildLoop loc .nil stream = buildLoop loc request rest
  := by
  rw [buildLoop]
  split <;> simp_all

theorem buildLoop_empty {loc : Locale} {request : Scm} {stream rest : List UInt8}
    (hline : mygetline lineSize [] stream = .ok [] rest) :
  buildLoop loc request stream = .request request rest
  := by
  rw [buildLoop]
  split <;> simp_all

theorem buildLoop_tooLong {loc : Locale} {request : Scm} {stream rest : List UInt8}
    (hline : mygetline lineSize [] stream = .tooLong rest) :
  buildLoop loc request stream = .request request rest
  := by
  rw [buildLoop]
  split <;> simp_all

theorem buildLoop_ended {loc : Locale} {request : Scm} {stream : List UInt8}
    (hline : mygetline lineSize [] stream = .ended) :
  buildLoop loc request stream = .ended
  := by
  rw [buildLoop]
  split <;> simp_all

theorem buildLoop_fault {loc : Locale} {request : Scm} {stream : List UInt8}
    (hline : mygetline lineSize [] stream = .fault) :
  buildLoop loc request stream = .fault
  := by
  rw [buildLoop]
  split <;> simp_all

theorem buildLoop_start_fault {loc : Locale} {stream line rest : List UInt8}
    (hline : mygetline lineSize [] stream = .ok line rest) (hne : line ≠ [])
    (hstart : startRequest loc line = none) :
  buildLoop loc .nil stream = .fault
  := by
  rw [buildLoop]
  split <;> simp_all

/-- The request `process_request` builds from what comes on the socket. -/
def buildRequest (loc : Locale) (stream : List UInt8) : Built :=
  buildLoop loc .nil stream

/-- The entries `remote-host` and `remote-port`. -/
def addRemote (loc : Locale) (ipaddr : List UInt8) (rport : ℕ) (request : Scm) : Scm :=
  Scm.acons "remote-port" (.int rport)
    (Scm.acons "remote-host" (.str (loc.decode ipaddr)) request)

/-- The entry `query`. -/
def addQuery (query request : Scm) : Scm :=
  Scm.acons "query" query request

/-- The entries `session` and `path-info`, which `run_responder` adds for the responder. -/
def addSession (session pathInfo : Text) (request : Scm) : Scm :=
  Scm.acons "path-info" (.str pathInfo) (Scm.acons "session" (.str session) request)

/-! ### Reading lines -/

/-- A line ended by CR LF that fits the buffer is read as it is, up to a NUL in it. -/
theorem mygetline_line {len : ℕ} (buf : List UInt8) {line : List UInt8} (rest : List UInt8)
    (hline : (10 : UInt8) ∉ line) (hlen : buf.length + line.length + 2 ≤ len) :
  mygetline len buf (line ++ crlf ++ rest) = .ok (cstr (buf ++ line)) rest
  := by
  induction line generalizing buf with
  | nil =>
      simp only [List.nil_append, crlf, List.cons_append, List.append_nil]
      simp only [List.length_nil] at hlen
      rw [mygetline, if_neg (by omega), if_neg (by decide), mygetline,
        if_neg (by simp only [List.length_append, List.length_singleton]; omega), if_pos rfl]
      simp
  | cons c line ih =>
      simp only [List.mem_cons, not_or] at hline
      simp only [List.length_cons] at hlen
      rw [List.cons_append, List.cons_append, mygetline, if_neg (by omega),
        if_neg (Ne.symm hline.1), ih (buf ++ [c]) hline.2 (by simp; omega), List.append_assoc]
      rfl

/-- A line that does not fit the buffer is reported as too long. -/
theorem mygetline_tooLong {len : ℕ} (buf : List UInt8) {line : List UInt8} (rest : List UInt8)
    (hline : (10 : UInt8) ∉ line) (hbuf : buf.length ≤ len)
    (hlen : len < buf.length + line.length + 2) :
  ∃ rest', mygetline len buf (line ++ crlf ++ rest) = .tooLong rest'
  := by
  induction line generalizing buf with
  | nil =>
      simp only [List.nil_append, crlf, List.cons_append]
      simp only [List.length_nil] at hlen
      rw [mygetline]
      split
      case isTrue => exact ⟨_, rfl⟩
      case isFalse =>
          rw [if_neg (by decide), mygetline,
            if_pos (by simp only [List.length_append, List.length_singleton]; omega)]
          exact ⟨_, rfl⟩
  | cons c line ih =>
      simp only [List.mem_cons, not_or] at hline
      simp only [List.length_cons] at hlen
      rw [List.cons_append, List.cons_append, mygetline]
      split
      case isTrue => exact ⟨_, rfl⟩
      case isFalse =>
          rw [if_neg (Ne.symm hline.1)]
          apply ih (buf ++ [c]) hline.2
          · simp only [List.length_append, List.length_singleton]
            omega
          · simp only [List.length_append, List.length_singleton]
            omega

end Gusher
