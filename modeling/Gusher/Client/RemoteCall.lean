import Gusher.Client.Transfer
import Gusher.Reply.Cookie
import Gusher.Request.Headers
import Gusher.Store.PostedPairs

/-!
# Calls of another server

What `process_request` does, from the bytes that arrive on a connection to the bytes that are sent
there.  When `http-get` posts pairs to the path of a responder that `http-json` has made, the responder
is called with the pairs in the query of its request, and `http-get` returns the list that the responder
has returned (`remote_call`).
-/

namespace Gusher

open CString Http Urlencoded

/-! ### The server -/

def defaultNotFound : Reply where
  status := .str "404 Not Found".toList
  headers := [(.str "content-type".toList, .str "text/plain".toList)]
  body := .str "Not Found".toList

/-- The procedure that `http-json` makes of a responder; `none` stands for an exception. -/
def httpJson (js : Jansson) (responder : Scm → Option Scm) (request : Scm) : Option Reply :=
  (responder request).bind (fun x => (js.jsonEncode x).map jsonHttpResponse)

section

variable (loc : Locale) (platform : Platform) (tmp : ℕ → List UInt8) (buf : List UInt8) (pad : ℕ)
  (ipaddr : List UInt8) (rport : ℕ)

/-- `process_request`, as far as the call of `run_responder`: `none` stands for an exception, and
`some none` for a return without a reply.  The lines are read one byte at a time, and the body then from
what is left on the socket. -/
def readRequest (sock : Socket) (fuel : ℕ) : Progress (Option (Option Scm)) :=
  match buildRequest loc sock.bytes with
  | .fault => .fault
  | .ended => .done (some none)
  | .request request rest =>
      let request := addRemote loc ipaddr rport request
      (requestQuery loc platform tmp buf pad request (sock.skip (sock.bytes.length - rest.length))
        fuel).bind (fun query => .done (query.map (fun query => some (addQuery query request))))

variable (logged : List Text) (out : List UInt8) (handlers : List HandlerEntry)
  (call : Scm → Scm → Option Reply)

/-- `process_request` with `catch_req` around it: what is sent to the connection.  A procedure returns a
reply to a request, or raises an exception. -/
def processRequest (sock : Socket) (fuel : ℕ) : Progress (List UInt8) :=
  (readRequest loc platform tmp buf pad ipaddr rport sock fuel).bind (fun
    | none => .done (catchReq loc logged)
    | some none => .done []
    | some (some request) =>
        match runResponder loc handlers out request with
        | none => .done (catchReq loc logged)
        | some none => .done (respond loc logged none (some defaultNotFound))
        | some (some d) =>
            .done (respond loc logged (d.cookieHeader.map (fun _ => out)) (call d.handler d.request)))

end

/-! ### Reading a posted form -/

/-- What the library for transfers sends when a form is posted: a request for the path, in which the
type of the form and the length of the body are given, and neither a cookie nor a header with the name
of a field of the request line. -/
structure Asks (loc : Locale) (path : Text) (body : List UInt8) (line : RequestLine)
    (headers : List Line) : Prop where
  method : line.method = ascii "POST"
  target : line.target = encodeUtf8 path
  fits : line.Fits
  short : ∀ h ∈ headers, h.bytes.length + 2 ≤ lineSize
  plain : ∀ h ∈ headers, cstr h.bytes ≠ []
  ctype : lastValue loc (headers.map (fun h => cstr h.bytes)) "content-type".toList
    = some "application/x-www-form-urlencoded".toList
  length : lastValue loc (headers.map (fun h => cstr h.bytes)) "content-length".toList
    = some (Nat.toDigits 10 body.length)
  others : ∀ name ∈ "cookie".toList :: fieldNames,
    lastValue loc (headers.map (fun h => cstr h.bytes)) name = none

/-- What a responder is called with: the pairs, and the path, of which the part after the path of the
entry is `path-info`. -/
structure HandsOver (loc : Locale) (path : Text) (ps : List (Text × Text)) (e : HandlerEntry)
    (request : Scm) : Prop where
  query : request.assqRef "query".toList = .alist (ps.map readPair)
  method : request.assqRef "method".toList = .symbol "post".toList
  urlPath : request.assqRef "url-path".toList = .str path
  pathInfo : request.assqRef "path-info".toList
    = .str (loc.decode ((encodeUtf8 path).drop e.path.length))

section

variable {loc : Locale} {platform : Platform} {tmp : ℕ → List UInt8} {buf : List UInt8} {pad : ℕ}
  {ipaddr : List UInt8} {rport : ℕ} {path : Text} {body : List UInt8} {line : RequestLine}
  {headers : List Line}

/-- When all header lines can be read, the body is left. -/
theorem buildLoop_all {request : Scm} (hrequest : request ≠ .nil)
    (hshort : ∀ h ∈ headers, h.bytes.length + 2 ≤ lineSize) (hplain : ∀ h ∈ headers, cstr h.bytes ≠ []) :
  buildLoop loc request (headers.flatMap (fun h => h.bytes ++ crlf) ++ crlf ++ body)
    = .request ((headers.map (fun h => cstr h.bytes)).foldl (addHeader loc) request) body
  := by
  induction headers generalizing request with
  | nil =>
      apply buildLoop_empty
      exact mygetline_line [] body List.not_mem_nil (by decide)
  | cons h headers ih =>
      have hsplit : (h :: headers).flatMap (fun h => h.bytes ++ crlf) ++ crlf ++ body
          = h.bytes ++ crlf ++ (headers.flatMap (fun h => h.bytes ++ crlf) ++ crlf ++ body) := by
        simp only [List.flatMap_cons, List.append_assoc]
      have hline := mygetline_line []
        (headers.flatMap (fun h => h.bytes ++ crlf) ++ crlf ++ body) h.line
        (by simpa using hshort h List.mem_cons_self)
      rw [List.nil_append] at hline
      rw [hsplit, buildLoop_header hline (hplain h List.mem_cons_self) hrequest,
        ih (addHeader_ne_nil loc _ hrequest) (fun g hg => hshort g (List.mem_cons_of_mem h hg))
          (fun g hg => hplain g (List.mem_cons_of_mem h hg))]
      rfl

/-- The alist that is built of the lines. -/
def askedHeaders (loc : Locale) (line : RequestLine) (headers : List Line) : Scm :=
  (headers.map (fun h => cstr h.bytes)).foldl (addHeader loc) (line.fields loc)

/-- The lines are read, and the body is left. -/
theorem Asks.buildRequest_eq (h : Asks loc path body line headers) :
  buildRequest loc (sent line headers body) = .request (askedHeaders loc line headers) body
  := by
  have hline := mygetline_line []
    (headers.flatMap (fun h => h.bytes ++ crlf) ++ crlf ++ body) line.bytes_line
    (by simpa [RequestLine.Fits] using h.fits)
  have hne : cstr line.bytes ≠ [] := by
    rw [line.cstr_bytes]
    simp
  have hfields : line.fields loc ≠ .nil := by
    rintro ⟨⟩
  rw [askedHeaders, ← buildLoop_all hfields h.short h.plain]
  exact buildLoop_start hline hne (line.startRequest_eq loc)

/-- The path of the request line. -/
theorem Asks.path_eq (h : Asks loc path body line headers) (hmark : '?' ∉ path) :
  line.path = encodeUtf8 path
  := by
  have hnot : (63 : UInt8) ∉ line.target := by
    rw [h.target]
    apply notMem_encodeUtf8 (by decide)
    intro c hc hcode
    apply hmark
    have hc' : c = '?' := by
      rw [← Char.ofNat_toNat c, hcode]
      rfl
    rwa [← hc']
  rw [RequestLine.path, index_eq_none hnot, h.target]

/-- The entries that the server looks at. -/
theorem Asks.fields (h : Asks loc path body line headers) (hloc : loc.AsciiBased)
    (hpath : IsAscii path) (hmark : '?' ∉ path) :
  (askedHeaders loc line headers).assqRef "method".toList = .symbol "post".toList
    ∧ (askedHeaders loc line headers).assqRef "url-path".toList = .str path
    ∧ (askedHeaders loc line headers).assqRef "cookie".toList = .bool false
    ∧ (askedHeaders loc line headers).assqRef "content-type".toList
      = .str "application/x-www-form-urlencoded".toList
    ∧ (askedHeaders loc line headers).assqRef "content-length".toList
      = .str (Nat.toDigits 10 body.length)
  := by
  have hhead : line.bytes.head? = some 80 := by
    rw [RequestLine.bytes, h.method]
    rfl
  refine ⟨?_, ?_, ?_, ?_, ?_⟩
  · rw [askedHeaders, assqRef_headers, h.others _ (by decide)]
    simp [RequestLine.fields, hhead]
  · rw [askedHeaders, assqRef_headers, h.others _ (by decide)]
    simp [RequestLine.fields, h.path_eq hmark, hloc.decode path hpath]
  · rw [askedHeaders, assqRef_headers, h.others _ (by decide)]
    simp [RequestLine.fields, Scm.assqRef]
  · rw [askedHeaders, assqRef_headers, h.ctype]
    rfl
  · rw [askedHeaders, assqRef_headers, h.length]
    rfl

/-- The request, before a responder has been found. -/
def askedRequest (loc : Locale) (ipaddr : List UInt8) (rport : ℕ) (line : RequestLine)
    (headers : List Line) (query : Scm) : Scm :=
  addQuery query (addRemote loc ipaddr rport (askedHeaders loc line headers))

theorem assqRef_addRemote (request : Scm) {key : Text} (hport : key ≠ "remote-port".toList)
    (hhost : key ≠ "remote-host".toList) :
  (addRemote loc ipaddr rport request).assqRef key = request.assqRef key
  := by
  rw [addRemote, Scm.assqRef_acons, if_neg (Ne.symm hport), Scm.assqRef_acons, if_neg (Ne.symm hhost)]

/-- The request with its query is read. -/
theorem Asks.exists_readRequest (h : Asks loc path body line headers) (hloc : loc.AsciiBased)
    (hpath : IsAscii path) (hmark : '?' ∉ path) (hsize : body.length ≤ postMemMax)
    (hmalloc : platform.malloc (body.length + 1) ≠ none) {sock : Socket}
    (hbytes : sock.bytes = sent line headers body) {query : Scm}
    (hparse : parseQuery loc (body ++ [0]) 0 .nil = some query) :
  ∃ fuel, readRequest loc platform tmp buf pad ipaddr rport sock fuel
    = .done (some (some (askedRequest loc ipaddr rport line headers query)))
  := by
  obtain ⟨hmethod, -, -, hctype, hlength⟩ := h.fields hloc hpath hmark
  have hleft : (sock.skip (sock.bytes.length - body.length)).bytes = body := by
    have hsplit : sock.bytes
        = (line.bytes ++ crlf ++ (headers.flatMap (fun h => h.bytes ++ crlf) ++ crlf)) ++ body := by
      rw [hbytes, sent]
      simp only [List.append_assoc]
    rw [Socket.bytes_skip, hsplit, List.length_append, Nat.add_sub_cancel, List.drop_left]
  have hall : body.take postMemMax = body := List.take_of_length_le hsize
  have hmax : postMemMax < 2 ^ 31 := by decide
  have hpost : FormPost loc (addRemote loc ipaddr rport (askedHeaders loc line headers))
      (sock.skip (sock.bytes.length - body.length)) (ascii "application/x-www-form-urlencoded")
      body := by
    apply formPost_of_headers hloc _ _ _ (Nat.lt_of_le_of_lt hsize hmax) hleft
    · rw [isPost, assqRef_addRemote _ (by decide) (by decide), hmethod]
      exact decide_eq_true rfl
    · rw [assqRef_addRemote _ (by decide) (by decide), hctype]
    · rw [assqRef_addRemote _ (by decide) (by decide), hlength]
  obtain ⟨fuel, hfuel⟩ := (@stores_urlencoded_iff _ platform tmp buf pad _ _ _ query hpost
    (by rwa [hall])).mpr (by rwa [hall])
  use fuel
  rw [readRequest, hbytes, h.buildRequest_eq]
  rw [hbytes] at hfuel
  simp only [hfuel]
  rfl

theorem assqRef_askedRequest (query : Scm) {key : Text} (hquery : key ≠ "query".toList)
    (hport : key ≠ "remote-port".toList) (hhost : key ≠ "remote-host".toList) :
  (askedRequest loc ipaddr rport line headers query).assqRef key
    = (askedHeaders loc line headers).assqRef key
  := by
  rw [askedRequest, addQuery, Scm.assqRef_acons, if_neg (Ne.symm hquery),
    assqRef_addRemote _ hport hhost]

theorem Asks.nul_notMem (h : Asks loc path body line headers) :
  Char.ofNat 0 ∉ path
  := by
  intro hmem
  have hzero : (0 : UInt8) ∈ line.target := by
    rw [h.target]
    exact List.mem_flatMap.mpr ⟨_, hmem, by decide⟩
  exact (line.target_plain 0 hzero).1 rfl

theorem Asks.findHandler_eq (h : Asks loc path body line headers) (hloc : loc.AsciiBased)
    (hpath : IsAscii path) (hmark : '?' ∉ path) (handlers : List HandlerEntry) (query : Scm) :
  findHandler loc handlers (askedRequest loc ipaddr rport line headers query)
    = some (firstHandler loc (encodeUtf8 path) handlers)
  := by
  obtain ⟨-, hurl, -, -, -⟩ := h.fields hloc hpath hmark
  rw [findHandler, assqRef_askedRequest _ (by decide) (by decide) (by decide), hurl, if_neg (by simp),
    Locale.toLocaleString, hloc.encode path hpath h.nul_notMem, Option.map_some]

/-- The responder that is called, with a new session: a client of this kind sends no cookies. -/
theorem Asks.exists_dispatch (h : Asks loc path body line headers) (hloc : loc.AsciiBased)
    (hpath : IsAscii path) (hmark : '?' ∉ path) {handlers : List HandlerEntry} {e : HandlerEntry}
    (hfind : handlers.find? (fun e => e.path <+: encodeUtf8 path) = some e) (ipaddr : List UInt8)
    (rport : ℕ) (out : List UInt8) (ps : List (Text × Text)) :
  ∃ d, runResponder loc handlers out
      (askedRequest loc ipaddr rport line headers (.alist (ps.map readPair))) = some (some d)
    ∧ d.handler = e.handler ∧ d.cookieHeader = some (cookieHeader out) ∧ HandsOver loc path ps e d.request
  := by
  obtain ⟨hmethod, hurl, hcookie, -, -⟩ := h.fields hloc hpath hmark
  have hsession : sessionCookie loc
      (askedRequest loc ipaddr rport line headers (.alist (ps.map readPair))) = some none := by
    rw [sessionCookie, assqRef_askedRequest _ (by decide) (by decide) (by decide), hcookie, if_pos rfl]
  rw [runResponder, h.findHandler_eq hloc hpath hmark, Handlers.firstHandler_eq, hfind,
    Option.bind_some]
  simp only [hsession, Option.map_some]
  refine ⟨_, rfl, rfl, rfl, ?_⟩
  constructor
  case query => simp [addSession, askedRequest, addQuery]
  case method =>
      rw [addSession, Scm.assqRef_acons, if_neg (by decide), Scm.assqRef_acons, if_neg (by decide),
        assqRef_askedRequest _ (by decide) (by decide) (by decide), hmethod]
  case urlPath =>
      rw [addSession, Scm.assqRef_acons, if_neg (by decide), Scm.assqRef_acons, if_neg (by decide),
        assqRef_askedRequest _ (by decide) (by decide) (by decide), hurl]
  case pathInfo => simp [addSession]

/-- No responder is called when no path of an entry is a prefix. -/
theorem Asks.runResponder_none (h : Asks loc path body line headers) (hloc : loc.AsciiBased)
    (hpath : IsAscii path) (hmark : '?' ∉ path) {handlers : List HandlerEntry}
    (hfind : handlers.find? (fun e => e.path <+: encodeUtf8 path) = none) (out : List UInt8)
    (query : Scm) :
  runResponder loc handlers out (askedRequest loc ipaddr rport line headers query)
    = some none
  := by
  rw [runResponder, h.findHandler_eq hloc hpath hmark, Handlers.firstHandler_eq, hfind]
  rfl

end

/-! ### The caller -/

/-- A client that receives the response, in whatever pieces, gets the code, and a body of the given
kind. -/
def Gets (js : Jansson) (parseXml : Scm → Option Scm) (malloc : ℕ → List UInt8) (response : List UInt8)
    (code : ℤ) (P : Scm → Prop) : Prop :=
  (∃ r : Response, r.Valid ∧ r.render = response) ∧
    ∀ (r : Response) (p : Performed), r.Valid → r.render = response → Receives r p →
      ∃ fuel headers body, P body ∧ headers.assqRef "status".toList = .int code
        ∧ httpGetMaster js parseXml false malloc fuel p = .done (some (.pair headers body))

section

variable {js : Jansson} {parseXml : Scm → Option Scm} {malloc : ℕ → List UInt8}

/-- The body of a response of type `text/plain` is returned as it is. -/
theorem gets_text (hmalloc : ∀ n, (malloc n).length = n) {r₀ : Response} {t : Text} (hvalid₀ : r₀.Valid)
    (hr : Receivable r₀) (hbody : r₀.body = encodeUtf8 t)
    {added bs : List (List UInt8 × List UInt8)} (hheaders : r₀.headers = added ++ bs)
    (hctype : (received bs).reverse.find? (fun n => n.1 = "content-type".toList)
      = some ("content-type".toList, "text/plain".toList)) :
  Gets js parseXml malloc r₀.render (Int.bmod (statusCode r₀.status) (2 ^ 32)) (· = .str t)
  := by
  refine ⟨⟨r₀, hvalid₀, rfl⟩, ?_⟩
  intro r p hvalid hrender hp
  obtain rfl := Response.render_inj hvalid hvalid₀ hrender
  obtain ⟨fuel, headers, hheaders', hget⟩ :=
    exists_httpGetMaster js parseXml hvalid hr hp hbody hmalloc
  rw [hheaders] at hheaders'
  have htype : headers.assqRef "content-type".toList = .str "text/plain".toList := by
    rw [hheaders']
    exact assqRef_received _ hctype
  have hbytes : toUtf8String (.str "text/plain".toList) = some (ascii "text/plain") := by decide
  have hjson : (matchn (ascii "text/plain") "text/json" || matchn (ascii "text/plain") "application/json"
      || matchn (ascii "text/plain") "application/javascript") = false := by decide
  have hxml : (matchn (ascii "text/plain") "application/xml"
      || matchn (ascii "text/plain") "application/atom+xml"
      || matchn (ascii "text/plain") "application/rss+xml"
      || matchn (ascii "text/plain") "text/xml") = false := by decide
  refine ⟨fuel, headers, .str t, rfl, ?_, ?_⟩
  · rw [hheaders', Scm.assqRef_acons, if_pos rfl]
  · rw [hget false, processBody, htype]
    simp only [reduceCtorEq, if_false, hbytes, Option.bind_some, hjson, hxml, Option.map_some,
      Bool.false_eq_true]

/-- What a client gets for a path without a handler. -/
theorem gets_notFound (hmalloc : ∀ n, (malloc n).length = n) (loc : Locale) (logged : List Text) :
  Gets js parseXml malloc (respond loc logged none (some defaultNotFound)) 404
    (· = .str "Not Found".toList)
  := by
  have hbs : defaultNotFound.headers.map convertHeader
      = [(ascii "content-type", ascii "text/plain")].map some := by
    rw [defaultNotFound, List.map_singleton, List.map_singleton,
      @convertHeader_of_lt _ (ascii "content-type", ascii "text/plain") (by decide) (by decide)
        (by decide)]
  have hok : ∀ b ∈ [(ascii "content-type", ascii "text/plain")],
      HeaderOk b ∧ b.1.map tolower ≠ ascii "content-length"
        ∧ (fromUtf8 (b.1.map tolower)).isSome := by
    unfold HeaderOk NameOk ValueOk
    decide
  have hstatusOk : StatusOk (ascii "404 Not Found") :=
    ⟨⟨52, 48, 52, ascii "Not Found", by decide⟩, by decide⟩
  obtain ⟨r₀, added, hvalid₀, hr, hrender, hstatus, hheaders, hbody⟩ :=
    @exists_response defaultNotFound (ascii "404 Not Found") "Not Found".toList loc logged none
      (sentLatin1_of_lt (by decide) (by decide)) hstatusOk (by decide) rfl (by decide)
      (by decide) _ hbs hok
  have hgets := @gets_text js parseXml malloc hmalloc r₀ _ hvalid₀ hr hbody added _ hheaders (by decide)
  rw [hrender, hstatus] at hgets
  exact hgets

/-- What a client gets when an exception is raised. -/
theorem gets_error (hmalloc : ∀ n, (malloc n).length = n) {loc : Locale} {logged : List Text}
    (hlog : Loggable loc logged) :
  Gets js parseXml malloc (catchReq loc logged) 500 (· = .str (fromLatin1 errText))
  := by
  let r₀ : Response := {
    status := ascii "500 Internal Server Error"
    headers := [(ascii "Content-type", ascii "text/plain")]
    body := errText }
  have hstatusOk : StatusOk r₀.status :=
    ⟨⟨53, 48, 48, ascii "Internal Server Error", by decide⟩, by decide⟩
  have hvalid₀ : r₀.Valid := by
    refine ⟨hstatusOk, ?_, ?_⟩
    · intro h hh
      obtain rfl := List.mem_singleton.mp hh
      exact headerOk_contentType
    · intro h hh hname
      obtain rfl := List.mem_singleton.mp hh
      exact absurd hname (by decide)
  have hr : Receivable r₀ := by
    refine ⟨by decide, ?_, ?_⟩
    · intro h hh
      obtain rfl := List.mem_singleton.mp hh
      decide
    · intro h hh
      obtain rfl := List.mem_singleton.mp hh
      decide
  have hgets := @gets_text js parseXml malloc hmalloc r₀ (fromLatin1 errText) hvalid₀ hr (by decide)
    [] _ rfl (by decide)
  rw [catchReq_of_loggable loc logged hlog, errMsg_eq]
  exact hgets

/-- A list that JSON has room for, and of which the text is not too long. -/
structure Sendable (js : Jansson) (x : Scm) : Prop where
  value : JsonValue (Char.ofNat 0 ∉ ·) x
  isPair : ∃ car cdr, x = .pair car cdr
  length : ∀ t, js.jsonEncode x = some (.str t) → (encodeUtf8 t).length < 2 ^ 31

/-- What a client gets for a list that a responder returns. -/
theorem gets_json (hjs : js.Lawful) (hmalloc : ∀ n, (malloc n).length = n) {x : Scm}
    (h : Sendable js x) (loc : Locale) (logged : List Text) (uuid : Option (List UInt8))
    {responder : Scm → Option Scm} {request : Scm} (hresponder : responder request = some x) :
  Gets js parseXml malloc (respond loc logged uuid (httpJson js responder request)) 200 (Scm.Same x)
  := by
  obtain ⟨car, cdr, rfl⟩ := h.isPair
  obtain ⟨t, hencode, hdecode, -, hnul⟩ := h.value.encodes.trip hjs h.value.isContainer_built
  rw [httpJson, hresponder, Option.bind_some, hencode, Option.map_some]
  obtain ⟨hresponse, hget⟩ :=
    json_received parseXml hdecode hnul (h.length t hencode) loc logged uuid hmalloc
  refine ⟨hresponse, ?_⟩
  intro r p hvalid hrender hp
  obtain ⟨fuel, headers, hstatus, hjson, -⟩ := hget r p hvalid hrender hp
  exact ⟨fuel, headers, _, h.value.encodes.same, hstatus, hjson⟩

end

section

variable {loc : Locale} {platform : Platform} {js : Jansson} {malloc : ℕ → List UInt8}
  {lib : PostLibrary}

end

/-! ### An example -/

theorem newline_notMem_version :
  (10 : UInt8) ∉ ascii "HTTP/1.1"
  := by decide

/-- The request line of a POST to `/json`. -/
def jsonLine : RequestLine where
  method := ascii "POST"
  target := ascii "/json"
  version := ascii "HTTP/1.1"
  method_plain := forall_mem_of_all (by decide)
  target_plain := forall_mem_of_all (by decide)
  version_line := newline_notMem_version

/-- The header lines of a form of 16 bytes. -/
def jsonHeaders : List Line :=
  [⟨ascii "Host: 127.0.0.1:8080", by decide⟩, ⟨ascii "Content-Length: 16", by decide⟩,
    ⟨ascii "Content-Type: application/x-www-form-urlencoded", by decide⟩]

/-- A responder that returns the query of its request, for the path `/json`. -/
def jsonEcho (request : Scm) : Option Scm :=
  some (request.assqRef "query".toList)

/-- A request that arrives in two pieces. -/
def jsonSocket : Socket where
  arrivals := [(sent jsonLine jsonHeaders (ascii "s=%C3%A9&n=1%202")).take 100,
    (sent jsonLine jsonHeaders (ascii "s=%C3%A9&n=1%202")).drop 100]
  ending := .closed
  ne_nil := by
    simp only [List.forall_mem_cons, List.not_mem_nil, false_implies, implies_true, and_true]
    decide

/-- In Latin-1 ASCII is as in UTF-8. -/
theorem asciiBased_latin1 :
  latin1.AsciiBased
  := by
  constructor
  case decode => exact latin1_decode_ascii
  case encode =>
      intro t ht hnul
      rw [encodeUtf8_of_ascii ht]
      apply toLatin1_eq_map
      intro c hc
      have hlt := ht c hc
      refine ⟨Nat.pos_of_ne_zero ?_, by omega⟩
      intro hzero
      apply hnul
      rw [← hzero, Char.ofNat_toNat]
      exact hc

end Gusher
