import Gusher.Client.Headers
import Gusher.Reply.Response
import Gusher.Scheme.JsonRoundTrip
import Gusher.Store.Chunks

/-!
# What the client makes of a response

`http_get_master` after a transfer: the headers with the status in front, and the body, which
`process_body` decodes when its type says that it is JSON or XML.  Of the library for transfers it is
assumed that it calls `header_handler` with each line of the response and `write_handler` with the
pieces of the body (`Receives`).  A client that fetches what a JSON responder of the server returns
gets it back (`http_json_received`).
-/

namespace Gusher

open CString Http

def matchn (val : List UInt8) (mime : String) : Bool :=
  (ascii mime).isPrefixOf val

section

variable (js : Jansson) (parseXml : Scm → Option Scm)

/-- `process_body`; `none` stands for an exception. -/
def processBody (headers body : Scm) : Option Scm :=
  let ctype := headers.assqRef "content-type".toList
  if ctype = .bool false then some body
  else
    (toUtf8String ctype).bind (fun stype =>
      if matchn stype "text/json" || matchn stype "application/json"
          || matchn stype "application/javascript" then js.jsonDecode body
      else if matchn stype "application/xml" || matchn stype "application/atom+xml"
          || matchn stype "application/rss+xml" || matchn stype "text/xml" then parseXml body
      else some body)

/-- What `curl_easy_perform` has done: the calls of `header_handler`, the nodes that `write_handler`
has left, whether the transfer has succeeded, and the response code. -/
structure Performed where
  blocks : List (List UInt8 × ℕ)
  heap : Nodes
  chunks : Option ℕ
  ok : Bool
  rescode : ℤ

/-- `http_get_master` from the transfer on; an inner `none` stands for an exception. -/
def httpGetMaster (raw : Bool) (malloc : ℕ → List UInt8) (fuel : ℕ) (p : Performed) :
    Progress (Option Scm) :=
  match handleHeaders .nil p.blocks with
  | none => .fault
  | some none => .done none
  | some (some headers) =>
      let headers := Scm.acons "status" (.int (Int.bmod p.rescode (2 ^ 32))) headers
      if p.ok then
        (assemble malloc fuel p.heap p.chunks).bind (fun (tsize, s) =>
          .done ((fromUtf8 (s.bag.take tsize)).bind (fun body =>
            (if raw then some (.str body) else processBody js parseXml headers (.str body)).map
              (.pair headers))))
      else .done (some (.bool false))

end

def statusCode (status : List UInt8) : ℤ :=
  status.take 3 |>.foldl (fun n c => 10 * n + ((c.toNat : ℤ) - 48)) 0

/-- What the code relies on: the library has received the response, it has called `header_handler`
with each of its lines, at the start of a block with another byte behind it, and `write_handler` with
pieces of the body. -/
structure Receives (r : Response) (p : Performed) : Prop where
  sizes : ∀ b ∈ p.blocks, b.2 < b.1.length
  lines : p.blocks.map (fun b => b.1.take b.2)
    = (version ++ r.status ++ crlf) :: (r.headers.map headerLine ++ [crlf])
  pieces : ∃ ds, Transfer (fun _ => none) none ds p.heap p.chunks
    ∧ (ds.map Delivery.buffer).flatten = r.body
  ok : p.ok = true
  code : p.rescode = statusCode r.status

/-! ### The body -/

/-- The pieces of a body are put together. -/
theorem exists_assemble {heap : Nodes} {chunks : Option ℕ} {ds : List Delivery}
    {malloc : ℕ → List UInt8} (h : Transfer (fun _ => none) none ds heap chunks)
    (hmalloc : ∀ n, (malloc n).length = n) :
  ∃ fuel tsize s, assemble malloc fuel heap chunks = .done (tsize, s)
    ∧ s.bag.take tsize = (ds.map Delivery.buffer).flatten
  := by
  have hempty : ChunkList (fun _ => none) none [] := ⟨rfl, List.nodup_nil, by simp⟩
  obtain ⟨l, hholds, hdata, -, -, -⟩ := exists_of_transfer h hempty
  rw [List.append_nil] at hholds
  have hsum : (l.map (fun x => x.2.length)).sum = ((ds.map Delivery.buffer).flatten).length := by
    rw [← hdata, List.length_flatten, List.map_map, List.map_reverse, List.sum_reverse]
    rfl
  have hsize := run_sizeRound hholds 0
  rw [Nat.zero_add, hsum] at hsize
  generalize hn : ((ds.map Delivery.buffer).flatten).length = n at hsum hsize
  have hblock := List.take_append_drop n (malloc (n + 1))
  have hlen : ((malloc (n + 1)).take n).length = n := by
    rw [List.length_take, hmalloc]
    omega
  have hfill := run_fillRound hholds [] ((malloc (n + 1)).drop n) (hlen.trans hsum.symm)
  rw [hdata, hlen, hblock] at hfill
  use l.length + 1, n
  rw [assemble, hsize]
  simp only
  rw [hfill]
  exact ⟨_, rfl, List.take_left' hn⟩

/-! ### The headers -/

/-- The bytes of a Latin-1 string have no NUL. -/
theorem zero_notMem_toLatin1 {t : Text} {s : List UInt8} (h : toLatin1 t = some s) :
  (0 : UInt8) ∉ s
  := by
  induction t generalizing s with
  | nil =>
      obtain rfl := Option.some.inj h
      simp
  | cons c t ih =>
      rw [toLatin1, List.mapM_cons] at h
      obtain ⟨b, hb, hrest⟩ := Option.bind_eq_some_iff.mp h
      obtain ⟨s', hs', hcons⟩ := Option.bind_eq_some_iff.mp hrest
      obtain rfl := Option.some.inj hcons
      rw [Option.ite_none_right_eq_some] at hb
      obtain ⟨⟨hpos, hlt⟩, hb⟩ := hb
      intro hmem
      rcases List.mem_cons.mp hmem with hzero | hmem
      · have hcode := congrArg UInt8.toNat (Option.some.inj hb)
        rw [← hzero, UInt8.toNat_ofNat', Nat.mod_eq_of_lt hlt] at hcode
        rw [hcode] at hpos
        exact Nat.lt_irrefl 0 hpos
      · exact ih hs' hmem

/-- The value in a line. -/
theorem trimSpace_line (value : List UInt8) :
  trimSpace (32 :: (value ++ crlf)) = trimSpace value
  := by
  have hend : ∀ x : List UInt8, (x ++ crlf).rdropWhile isspace = x.rdropWhile isspace := by
    intro x
    have hsplit : x ++ crlf = x ++ [13] ++ [10] := by simp [crlf]
    rw [hsplit, List.rdropWhile_concat_pos _ _ _ (by decide),
      List.rdropWhile_concat_pos _ _ _ (by decide)]
  rw [trimSpace, trimSpace, List.dropWhile_cons_of_pos (by decide), List.dropWhile_append]
  split
  case isTrue hempty =>
      rw [List.isEmpty_iff.mp hempty]
      rfl
  case isFalse => exact hend _

/-- A header line is read as the header, with its name in lower case and its value trimmed. -/
theorem headerOf_headerLine {h : List UInt8 × List UInt8} (hok : NameOk h.1) :
  headerOf (headerLine h) = some (h.1.map tolower, trimSpace h.2)
  := by
  have hline : headerLine h = h.1 ++ 58 :: (32 :: (h.2 ++ crlf)) := by
    have happend := headerLine_append h []
    rwa [List.append_nil, List.append_nil] at happend
  rw [headerOf, hline, index_append hok.2.1, Option.map_some, trimSpace_line]

/-- The symbols and the values of headers. -/
def received (headers : List (List UInt8 × List UInt8)) : List (Text × Text) :=
  headers.filterMap (fun h =>
    (fromUtf8 (h.1.map tolower)).map (fun sym => (sym, fromLatin1 (trimSpace h.2))))

/-- There is no NUL in the lines of the response, no colon in its status, and the names of its headers
are in UTF-8. -/
structure Receivable (r : Response) : Prop where
  status : (0 : UInt8) ∉ r.status ∧ (58 : UInt8) ∉ r.status
  headers : ∀ h ∈ r.headers, (0 : UInt8) ∉ h.1 ∧ (0 : UInt8) ∉ h.2
  names : ∀ h ∈ r.headers, (fromUtf8 (h.1.map tolower)).isSome

/-- The headers of a response are received, in the opposite order. -/
theorem handleHeaders_receives {r : Response} {p : Performed} (hvalid : r.Valid)
    (hr : Receivable r) (hp : Receives r p) :
  handleHeaders .nil p.blocks
    = some (some (.alist ((received r.headers).map (fun n => (n.1, .str n.2))).reverse))
  := by
  have hstatusnul : (0 : UInt8) ∉ version ++ r.status ++ crlf := by
    have hversion : (0 : UInt8) ∉ version := by decide
    have hcrlf : (0 : UInt8) ∉ crlf := by decide
    simp [hversion, hcrlf, hr.status.1]
  have hlinenul : ∀ h ∈ r.headers, (0 : UInt8) ∉ headerLine h := by
    intro h hh
    obtain ⟨hname, hvalue⟩ := hr.headers h hh
    have hcolon : (0 : UInt8) ∉ ascii ": " := by decide
    have hcrlf : (0 : UInt8) ∉ crlf := by decide
    simp [headerLine, hname, hvalue, hcolon, hcrlf]
  have hlines : p.blocks.map lineText
      = (version ++ r.status ++ crlf) :: (r.headers.map headerLine ++ [crlf]) := by
    have hcut : p.blocks.map lineText = (p.blocks.map (fun b => b.1.take b.2)).map cstr := by
      rw [List.map_map]
      rfl
    rw [hcut, hp.lines, List.map_cons, List.map_append, List.map_map, cstr_of_not_mem hstatusnul]
    congr 2
    apply List.map_congr_left
    intro h hh
    exact cstr_of_not_mem (hlinenul h hh)
  have hstatus : headerOf (version ++ r.status ++ crlf) = none := by
    rw [headerOf, index_eq_none, Option.map_none]
    have hversion : (58 : UInt8) ∉ version := by decide
    have hcrlf : (58 : UInt8) ∉ crlf := by decide
    simp [hversion, hcrlf, hr.status.2]
  have hcrlf : headerOf crlf = none := by decide
  have hheaders : ∀ h ∈ r.headers,
      headerOf (headerLine h) = some (h.1.map tolower, trimSpace h.2) :=
    fun h hh => headerOf_headerLine (hvalid.headers h hh).1
  have hof : (p.blocks.map lineText).filterMap headerOf
      = r.headers.map (fun h => (h.1.map tolower, trimSpace h.2)) := by
    rw [hlines, List.filterMap_cons, hstatus, List.filterMap_append, List.filterMap_map]
    simp only [List.filterMap_cons, hcrlf, List.filterMap_nil, List.append_nil]
    rw [← List.filterMap_eq_map]
    apply List.filterMap_congr
    exact hheaders
  have hnames : ∀ line ∈ p.blocks.map lineText, ∀ name value,
      headerOf line = some (name, value) → (fromUtf8 name).isSome := by
    intro line hline name value heq
    have hmem : (name, value) ∈ (p.blocks.map lineText).filterMap headerOf :=
      List.mem_filterMap.mpr ⟨line, hline, heq⟩
    rw [hof] at hmem
    obtain ⟨h, hh, hpair⟩ := List.mem_map.mp hmem
    obtain ⟨rfl, -⟩ := Prod.mk.inj hpair
    exact hr.names h hh
  rw [handleHeaders_eq hp.sizes]
  have hreceived := receiveHeaders_eq hnames []
  rw [List.append_nil, namedHeaders, hof, List.filterMap_map] at hreceived
  exact congrArg some hreceived

/-- **What the client gets**: the headers with the status in front, and the body as it is or as
`process_body` makes it. -/
theorem exists_httpGetMaster (js : Jansson) (parseXml : Scm → Option Scm) {r : Response}
    {p : Performed} {malloc : ℕ → List UInt8} {t : Text} (hvalid : r.Valid) (hr : Receivable r)
    (hp : Receives r p) (hbody : r.body = encodeUtf8 t) (hmalloc : ∀ n, (malloc n).length = n) :
  ∃ fuel headers, headers = Scm.acons "status" (.int (Int.bmod (statusCode r.status) (2 ^ 32)))
      (.alist ((received r.headers).map (fun n => (n.1, .str n.2))).reverse)
    ∧ ∀ raw, httpGetMaster js parseXml raw malloc fuel p
      = .done ((if raw then some (.str t) else processBody js parseXml headers (.str t)).map
        (.pair headers))
  := by
  obtain ⟨ds, htransfer, hpieces⟩ := hp.pieces
  obtain ⟨fuel, tsize, s, hassemble, hbag⟩ := exists_assemble htransfer hmalloc
  refine ⟨fuel, _, rfl, ?_⟩
  intro raw
  have hdecoded : fromUtf8 (s.bag.take tsize) = some t := by
    rw [hbag, hpieces]
    exact fromUtf8_eq_some_iff.mpr hbody
  rw [httpGetMaster, handleHeaders_receives hvalid hr hp]
  simp only [hp.ok, if_true, hassemble, Progress.bind, hdecoded, Option.bind_some, hp.code]

/-! ### Replies of the server -/

/-- The value of a header has no NUL. -/
theorem zero_notMem_headerValue {val : Scm} {value : List UInt8} (h : headerValue val = some value) :
  (0 : UInt8) ∉ value
  := by
  cases val with
  | str s => exact zero_notMem_toLatin1 h
  | int z => exact zero_notMem_toLatin1 h
  | number digits => exact zero_notMem_toLatin1 h
  | symbol name => exact zero_notMem_toLatin1 h
  | _ =>
      rw [← Option.some.inj h]
      exact List.not_mem_nil

/-- The parts of a header that is sent have no NUL. -/
theorem zero_notMem_convertHeader {h : Scm × Scm} {b : List UInt8 × List UInt8}
    (hb : convertHeader h = some b) :
  (0 : UInt8) ∉ b.1 ∧ (0 : UInt8) ∉ b.2
  := by
  obtain ⟨hname, hvalue⟩ := convertHeader_eq_some.mp hb
  obtain ⟨name, hname, hsent⟩ := Option.map_eq_some_iff.mp hname
  obtain ⟨value, hvalue, hsent'⟩ := Option.map_eq_some_iff.mp hvalue
  rw [← hsent, ← hsent']
  constructor
  · cases hh : h.1 with
    | str s =>
        rw [hh] at hname
        exact fun hmem => zero_notMem_toLatin1 hname (List.mem_of_mem_take hmem)
    | _ =>
        rw [hh] at hname
        cases hname
  · exact fun hmem => zero_notMem_headerValue hvalue (List.mem_of_mem_take hmem)

/-- The response that the server sends for a reply whose headers are well formed, and none of which is
the length of the body. -/
theorem exists_response {reply : Reply} {status : List UInt8} {t : Text} (loc : Locale)
    (logged : List Text) (uuid : Option (List UInt8))
    (hstatus : sentLatin1 reply.status = some status) (hstatusOk : StatusOk status)
    (hplain : (0 : UInt8) ∉ status ∧ (58 : UInt8) ∉ status)
    (hbody : reply.body = .str t) (hnul : Char.ofNat 0 ∉ t) (hlength : (encodeUtf8 t).length < 2 ^ 31)
    {bs : List (List UInt8 × List UInt8)} (hbs : reply.headers.map convertHeader = bs.map some)
    (hok : ∀ b ∈ bs, HeaderOk b ∧ b.1.map tolower ≠ ascii "content-length"
      ∧ (fromUtf8 (b.1.map tolower)).isSome) :
  ∃ r added, r.Valid ∧ Receivable r ∧ r.render = respond loc logged uuid (some reply)
    ∧ r.status = status ∧ r.headers = added ++ bs ∧ r.body = encodeUtf8 t
  := by
  have hutf8 : toUtf8String reply.body = some (encodeUtf8 t) := by
    rw [hbody, toUtf8String, toUtf8, if_neg hnul]
    rfl
  obtain ⟨value, cookie, hadded, hvalue, haddedOk⟩ := convert_added uuid (encodeUtf8 t)
  have hall : (allHeaders uuid reply (encodeUtf8 t)).map convertHeader
      = ((ascii "content-length", value) :: cookie ++ bs).map some := by
    rw [allHeaders, ← List.cons_append, List.map_append, List.map_append, hadded, hbs]
  have hdecimal : value = decimal (encodeUtf8 t).length :=
    (headerValue_contentLength hvalue).mpr ((bmod_natCast_eq_iff _).mpr hlength)
  have hnamed : ∀ a ∈ (ascii "content-length", value) :: cookie,
      (fromUtf8 (a.1.map tolower)).isSome := by
    have hfirst : (fromUtf8 ((ascii "content-length").map tolower)).isSome := by decide
    have hsecond : (fromUtf8 ((ascii "set-cookie").map tolower)).isSome := by decide
    intro a ha
    obtain ⟨h, hh, hconvert⟩ := (exists_mem_of_map hadded).2 a ha
    have hname := (convertHeader_eq_some.mp hconvert).1
    rcases List.mem_cons.mp hh with rfl | hh
    · have hname' : sentLatin1 (.str "content-length".toList) = some (ascii "content-length") :=
        sentLatin1_of_lt (by decide) (by decide)
      rw [← Option.some.inj (hname'.symm.trans hname)]
      exact hfirst
    · cases uuid with
      | none => cases hh
      | some out =>
          obtain rfl := List.mem_singleton.mp hh
          have hname' : sentLatin1 (.str "set-cookie".toList) = some (ascii "set-cookie") :=
            sentLatin1_of_lt (by decide) (by decide)
          rw [← Option.some.inj (hname'.symm.trans hname)]
          exact hsecond
  refine ⟨⟨status, (ascii "content-length", value) :: cookie ++ bs, encodeUtf8 t⟩,
    (ascii "content-length", value) :: cookie, ⟨hstatusOk, ?_, ?_⟩, ⟨hplain, ?_, ?_⟩, ?_, rfl, rfl, rfl⟩
  · intro h hh
    rcases List.mem_append.mp hh with hh | hh
    · exact (haddedOk h hh).1
    · exact (hok h hh).1
  · intro h hh hname
    rcases List.mem_append.mp hh with hh | hh
    · rw [(haddedOk h hh).2 hname, hdecimal]
    · exact absurd hname (hok h hh).2.1
  · intro h hh
    obtain ⟨h', -, hconvert⟩ := (exists_mem_of_map hall).2 h hh
    exact zero_notMem_convertHeader hconvert
  · intro h hh
    rcases List.mem_append.mp hh with hh | hh
    · exact hnamed h hh
    · exact (hok h hh).2.2
  · have hsent := sendHeaders_append hall []
    rw [List.append_nil] at hsent
    obtain ⟨text, htext, hsentStatus⟩ := Option.map_eq_some_iff.mp hstatus
    rw [respond_eq htext hutf8, hsent, hsentStatus, sendAll_of_lt hlength]
    simp [Response.render, sendHeaders]

/-- The type that `process_body` looks at, when it is the last of its kind. -/
theorem assqRef_received {added bs : List (List UInt8 × List UInt8)} {ctype : Text} (code : ℤ)
    (h : (received bs).reverse.find? (fun n => n.1 = "content-type".toList)
      = some ("content-type".toList, ctype)) :
  (Scm.acons "status" (.int code)
      (.alist ((received (added ++ bs)).map (fun n => (n.1, .str n.2))).reverse)).assqRef
      "content-type".toList = .str ctype
  := by
  have hreceived : received (added ++ bs) = received added ++ received bs := List.filterMap_append
  rw [Scm.assqRef_acons, if_neg (by decide), assqRef_alist_find, ← List.map_reverse, List.find?_map,
    hreceived, List.reverse_append, List.find?_append]
  have hcomp : ((fun m : Text × Scm => decide (m.1 = "content-type".toList))
      ∘ fun n : Text × Text => (n.1, Scm.str n.2)) = fun n => decide (n.1 = "content-type".toList) := rfl
  rw [hcomp, h]
  rfl

/-- A text of JSON that a responder returns is sent as one response, and a client that receives the
response gets what the text is decoded to, or the text. -/
theorem json_received {js : Jansson} (parseXml : Scm → Option Scm) {t : Text} {w : Scm}
    (hdecode : js.jsonDecode (.str t) = some w) (hnul : Char.ofNat 0 ∉ t)
    (hlength : (encodeUtf8 t).length < 2 ^ 31) (loc : Locale) (logged : List Text)
    (uuid : Option (List UInt8)) {malloc : ℕ → List UInt8} (hmalloc : ∀ n, (malloc n).length = n) :
  (∃ r : Response, r.Valid ∧ r.render = respond loc logged uuid (some (jsonHttpResponse (.str t))))
    ∧ ∀ (r : Response) (p : Performed), r.Valid →
      r.render = respond loc logged uuid (some (jsonHttpResponse (.str t))) → Receives r p →
      ∃ fuel headers, headers.assqRef "status".toList = .int 200
        ∧ httpGetMaster js parseXml false malloc fuel p = .done (some (.pair headers w))
        ∧ httpGetMaster js parseXml true malloc fuel p = .done (some (.pair headers (.str t)))
  := by
  have hok : ∀ b ∈ [(ascii "content-type", ascii "application/json; charset=UTF-8"),
      (ascii "cache-control", ascii "max-age=0, must-revalidate")],
      HeaderOk b ∧ b.1.map tolower ≠ ascii "content-length"
        ∧ (fromUtf8 (b.1.map tolower)).isSome := by
    unfold HeaderOk NameOk ValueOk
    decide
  have hstatusOk : StatusOk (ascii "200 OK") := ⟨⟨50, 48, 48, ascii "OK", by decide⟩, by decide⟩
  obtain ⟨r₀, added, hvalid₀, hreceivable, hrender₀, hstatus, hheaders, hbody⟩ :=
    @exists_response (jsonHttpResponse (.str t)) _ t loc logged uuid
      (sentLatin1_of_lt toLatin1String_ok (by decide)) hstatusOk (by decide) rfl hnul hlength _
      (convertHeader_json _) hok
  refine ⟨⟨r₀, hvalid₀, hrender₀⟩, ?_⟩
  intro r p hvalid hrender hp
  obtain rfl := Response.render_inj hvalid hvalid₀ (hrender.trans hrender₀.symm)
  obtain ⟨fuel, headers, hheaders', hget⟩ :=
    exists_httpGetMaster js parseXml hvalid hreceivable hp hbody hmalloc
  rw [hstatus, hheaders] at hheaders'
  have hctype : headers.assqRef "content-type".toList
      = .str "application/json; charset=UTF-8".toList := by
    rw [hheaders']
    exact assqRef_received _ (by decide)
  have hbytes : toUtf8String (.str "application/json; charset=UTF-8".toList)
      = some (ascii "application/json; charset=UTF-8") := by decide
  have hmatch : (matchn (ascii "application/json; charset=UTF-8") "text/json"
      || matchn (ascii "application/json; charset=UTF-8") "application/json"
      || matchn (ascii "application/json; charset=UTF-8") "application/javascript") = true := by
    decide
  refine ⟨fuel, headers, ?_, ?_, ?_⟩
  · rw [hheaders', Scm.assqRef_acons, if_pos rfl]
    rfl
  · rw [hget false, processBody, hctype]
    simp only [reduceCtorEq, if_false, hbytes, Option.bind_some, hmatch, if_true, hdecode,
      Option.map_some, Bool.false_eq_true]
  · rw [hget true]
    rfl

/-- **JSON over HTTP**: a list that JSON has room for, and that a JSON responder returns, is sent as one
response, unless its text is too long, and a client that receives the response, in whatever pieces, gets the
list, up to the order of the members of association lists; a client that asks for the text gets the
text. -/
theorem http_json_received {js : Jansson} (hjs : js.Lawful) (parseXml : Scm → Option Scm)
    {car cdr : Scm} (h : JsonValue (Char.ofNat 0 ∉ ·) (.pair car cdr)) (loc : Locale)
    (logged : List Text) (uuid : Option (List UInt8)) {malloc : ℕ → List UInt8}
    (hmalloc : ∀ n, (malloc n).length = n) :
  ∃ t, js.jsonEncode (.pair car cdr) = some (.str t) ∧ ((encodeUtf8 t).length < 2 ^ 31 →
    (∃ r : Response, r.Valid
        ∧ r.render = respond loc logged uuid (some (jsonHttpResponse (.str t))))
      ∧ ∀ (r : Response) (p : Performed), r.Valid →
        r.render = respond loc logged uuid (some (jsonHttpResponse (.str t))) → Receives r p →
        ∃ fuel headers w, Scm.Same (.pair car cdr) w
          ∧ headers.assqRef "status".toList = .int 200
          ∧ httpGetMaster js parseXml false malloc fuel p = .done (some (.pair headers w))
          ∧ httpGetMaster js parseXml true malloc fuel p = .done (some (.pair headers (.str t))))
  := by
  obtain ⟨t, hencode, hdecode, -, hnul⟩ := h.encodes.trip hjs h.isContainer_built
  refine ⟨t, hencode, ?_⟩
  intro hlength
  obtain ⟨hresponse, hget⟩ := json_received parseXml hdecode hnul hlength loc logged uuid hmalloc
  refine ⟨hresponse, ?_⟩
  intro r p hvalid hrender hp
  obtain ⟨fuel, headers, hstatus, hjson, hraw⟩ := hget r p hvalid hrender hp
  exact ⟨fuel, headers, _, h.encodes.same, hstatus, hjson, hraw⟩

/-- A transfer of a response, with the body in one piece. -/
def performed (r : Response) : Performed where
  blocks := ((version ++ r.status ++ crlf) :: (r.headers.map headerLine ++ [crlf])).map
    (fun line => (line ++ [0], line.length))
  heap := Function.update (fun _ => none) 0 (some ⟨none, r.body.length, r.body⟩)
  chunks := some 0
  ok := true
  rescode := statusCode r.status

theorem receives_performed (r : Response) :
  Receives r (performed r)
  := by
  refine ⟨?_, ?_, ?_, rfl, rfl⟩
  · intro b hb
    obtain ⟨line, -, rfl⟩ := List.mem_map.mp hb
    simp
  · rw [performed, List.map_map]
    conv_rhs => rw [← List.map_id ((version ++ r.status ++ crlf) :: _)]
    apply List.map_congr_left
    intro line _
    exact List.take_left' rfl
  · let d : Delivery := ⟨r.body, 1, r.body.length, (Nat.one_mul _).symm⟩
    refine ⟨[d], ?_, by simp [d]⟩
    exact .write rfl (writeHandler_eq _ 0 none d) (.done _ _)

/-- A list with an association list in it. -/
theorem http_json_received_list :
  ∃ (t : Text) (r : Response) (fuel : ℕ) (headers w : Scm),
    r.render = respond latin1 [] none (some (jsonHttpResponse (.str t)))
    ∧ Scm.Same (.ofList [.int 7, .alist [("id".toList, .bool true)]]) w
    ∧ httpGetMaster jansson some false (List.replicate · 0) fuel (performed r)
      = .done (some (.pair headers w))
  := by
  have hvalue : JsonValue (Char.ofNat 0 ∉ ·) (.ofList [.int 7, .alist [("id".toList, .bool true)]]) := by
    apply JsonValue.list
    simp only [List.forall_mem_cons, List.not_mem_nil, false_implies, implies_true, and_true]
    constructor
    · exact .int (by decide)
    · apply JsonValue.alist
      · decide
      · decide
      · simp only [List.forall_mem_cons, List.not_mem_nil, false_implies, implies_true, and_true]
        exact .bool true
  obtain ⟨t, hencode, hreceived⟩ := http_json_received lawful_jansson some hvalue latin1 [] none
    (fun n => List.length_replicate)
  have htext : jansson.jsonEncode (.ofList [.int 7, .alist [("id".toList, .bool true)]])
      = some (.str "[7,\x7b\"id\":true\x7d]".toList) := by decide
  obtain rfl := Scm.str.inj (Option.some.inj (htext.symm.trans hencode))
  obtain ⟨⟨r, hvalid, hrender⟩, hget⟩ := hreceived (by decide)
  obtain ⟨fuel, headers, w, hsame, -, hjson, -⟩ :=
    hget r (performed r) hvalid hrender (receives_performed r)
  exact ⟨_, r, fuel, headers, w, hrender, hsame, hjson⟩

end Gusher
