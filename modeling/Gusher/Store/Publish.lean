import Gusher.Reply.Send
import Gusher.Request.FormFields
import Gusher.Request.Handlers
import Gusher.Request.Post
import Gusher.Request.QueryText
import Gusher.Store.Messaging
import Gusher.Store.PostBuffer

/-!
# Publishing a message

`msg-publish` posts a message to the callbacks that are registered under a key.  A server of an
application finds the responder by the path of the request, and the responder that `msg-subscribe`
has made decodes what is in the query and calls the handler.
-/

namespace Gusher

open CString Urlencoded

/-! ### Posting -/

/-- The arguments with which `msg-publish` calls `http-get`. -/
def publishArgs (msg : Scm) : Scm :=
  .pair (.pair (.symbol "post".toList) (.pair (.pair (.str "msg".toList) msg) .nil)) .nil

/-- The port and the path of a URL of this host. -/
def splitUrl (url : Text) : Option (ℕ × Text) :=
  if "http://127.0.0.1:".toList <+: url then
    let rest := url.drop "http://127.0.0.1:".toList.length
    some (Nat.ofDigitChars 10 (rest.takeWhile Char.isDigit) 0, rest.dropWhile Char.isDigit)
  else none

/-! ### Receiving -/

def queryValue (request : Scm) (key : Text) : Scm :=
  let query := request.assqRef "query".toList
  if query = .bool false then .bool false else query.assqRef key

/-- The headers of a posted form, as `process_request` collects them. -/
def postHeaders (path : Text) (body : List UInt8) : Scm :=
  .acons "content-length" (.str (Nat.toDigits 10 body.length))
    (.acons "content-type" (.str "application/x-www-form-urlencoded".toList)
      (.acons "url-path" (.str path) (.acons "method" (.symbol "post".toList) .nil)))

/-- The request that `process_request` makes of a posted form: the query is read from the beginning
of the body. -/
def postedRequest (loc : Locale) (path : Text) (body : List UInt8) : Option Scm :=
  (parseQuery loc (body.take postMemMax ++ [0]) 0 .nil).map (fun query =>
    .acons "query" query (postHeaders path body))

/-- An application that runs: the list of its HTTP handlers, and the key for which each handler of
messages has been registered.  The responder that `msg-subscribe` has made around the handler with
the number `i` is the object `.other i`. -/
structure App where
  handlers : List HandlerEntry
  keys : List Text

/-- The call of a handler of messages. -/
structure Call where
  port : ℕ
  key : Text
  value : Scm
  deriving DecidableEq

section

variable (loc : Locale) (js : Jansson) (lib : PostLibrary)

/-- The responder of `msg-subscribe`: what the handler is called with; `none` stands for an
exception. -/
def callbackValue (request : Scm) : Option Scm :=
  js.jsonDecode (queryValue request "msg".toList)

/-- The calls of handlers for a posted form. -/
def App.receive (app : App) (port : ℕ) (path : Text) (body : List UInt8) : List Call :=
  match postedRequest loc path body with
  | none => []
  | some request =>
      match findHandler loc app.handlers request with
      | some (.pair (.other i) _) =>
          match app.keys[i]?, callbackValue js request with
          | some key, some value => [⟨port, key, value⟩]
          | _, _ => []
      | _ => []

/-- `http-get`, with the calls of handlers that the request leads to; `.done none` stands for an
exception, which a URL that is no string, or has a NUL, raises.  When nothing is posted the query has
no message, and no handler is called. -/
def httpGet (apps : ℕ → Option App) (url args : Scm) : Progress (Option (List Call)) :=
  match url with
  | .str url =>
      if Char.ofNat 0 ∈ url then .done none
      else (postData lib args).bind (fun post => .done (post.map (fun post =>
        match post, splitUrl url with
        | some buf, some (port, path) =>
            (apps port).elim [] (fun app => app.receive loc js port path (cstr buf))
        | _, _ => [])))
  | _ => .done none

/-- The loop of `msg-publish` over the callbacks: the calls of handlers, and whether the loop comes
to its end without an exception. -/
def publishEach (apps : ℕ → Option App) (msg : Scm) : Scm → List Call × Bool
  | .nil => ([], true)
  | .pair callback callbacks =>
      match httpGet loc js lib apps callback (publishArgs msg) with
      | .done (some calls) =>
          (calls ++ (publishEach apps msg callbacks).1, (publishEach apps msg callbacks).2)
      | _ => ([], false)
  | _ => ([], false)

end

/-! ### What the server makes of a post -/

theorem isAscii_of_all {t : Text} (h : t.all (fun c => c.toNat < 128) = true) :
  IsAscii t
  := by
  intro c hc
  simpa using List.all_eq_true.mp h c hc

/-- An encoding in which ASCII is as in UTF-8. -/
structure Locale.AsciiBased (loc : Locale) : Prop where
  decode : ∀ t, IsAscii t → loc.decode (encodeUtf8 t) = t
  encode : ∀ t, IsAscii t → Char.ofNat 0 ∉ t → loc.encode t = some (encodeUtf8 t)

section

variable {loc : Locale} {js : Jansson}

/-- A form that is posted is one, by the headers of the request. -/
theorem formPost_of_headers (hloc : loc.AsciiBased) {request : Scm} {sock : Socket} {body : List UInt8}
    (hmethod : isPost request = true)
    (hctype : request.assqRef "content-type".toList = .str "application/x-www-form-urlencoded".toList)
    (hlength : request.assqRef "content-length".toList = .str (Nat.toDigits 10 body.length))
    (hsize : body.length < 2 ^ 31) (hbytes : sock.bytes = body) :
  FormPost loc request sock (ascii "application/x-www-form-urlencoded") body
  := by
  have hdigit : ∀ c ∈ Nat.toDigits 10 body.length, 48 ≤ c.toNat ∧ c.toNat ≤ 57 := by
    intro c hc
    have hdigit := Nat.isDigit_of_mem_toDigits (by decide) (by decide) hc
    simp only [Char.isDigit, Bool.and_eq_true, decide_eq_true_eq] at hdigit
    exact hdigit
  constructor
  case method => exact hmethod
  case ctype =>
      rw [hctype, Locale.toLocaleString, hloc.encode _ (isAscii_of_all rfl) (by decide)]
      decide
  case length =>
      have hascii : IsAscii (Nat.toDigits 10 body.length) := by
        intro c hc
        have hle := (hdigit c hc).2
        omega
      have hnul : Char.ofNat 0 ∉ Nat.toDigits 10 body.length :=
        fun hmem => absurd (hdigit _ hmem).1 (by decide)
      have hatoi := @atoi_of_decimal _ _ (decimal_toDigits body.length) hsize [] (by simp)
      rw [List.append_nil] at hatoi
      rw [requestLength, hlength, if_neg (by simp), Locale.toLocaleString, hloc.encode _ hascii hnul,
        Option.map_some, hatoi]
  case bytes => exact hbytes

/-- The query that is stored in the request is that of `postedRequest`, when memory for the body is
there. -/
theorem stores_postHeaders_iff (hloc : loc.AsciiBased) {platform : Platform} {tmp : ℕ → List UInt8}
    {buf : List UInt8} {pad : ℕ} {path : Text} {body : List UInt8} {sock : Socket} {query : Scm}
    (hsize : body.length < 2 ^ 31)
    (hmalloc : platform.malloc ((body.take postMemMax).length + 1) ≠ none)
    (hbytes : sock.bytes = body) :
  Stores loc platform tmp buf pad (postHeaders path body) sock query
    ↔ postedRequest loc path body = some (.acons "query" query (postHeaders path body))
  := by
  have hpost := @formPost_of_headers _ hloc (postHeaders path body) sock body
    (by simp [isPost, postHeaders]) (by simp [postHeaders]) (by simp [postHeaders]) hsize hbytes
  rw [stores_urlencoded_iff hpost hmalloc, postedRequest, Option.map_eq_some_iff]
  constructor
  · intro hquery
    exact ⟨query, hquery, rfl⟩
  · rintro ⟨query', hquery, heq⟩
    obtain ⟨hentry, -⟩ := Scm.pair.inj heq
    rw [hquery, (Scm.pair.inj hentry).2]

def postedText (msg : Text) : List UInt8 :=
  ascii "msg=" ++ percentEncode (encodeUtf8 msg)

theorem of_mem_postedText {msg : Text} {c : UInt8} (hc : c ∈ postedText msg) :
  c ≠ 0 ∧ c ≠ 38
  := by
  rcases List.mem_append.mp hc with hc | hc
  · have hname : ∀ c ∈ ascii "msg=", c ≠ 0 ∧ c ≠ 38 := forall_mem_of_all (by decide)
    exact hname c hc
  · exact of_mem_percentEncode hc

/-- A string is posted as it is. -/
theorem postData_str {lib : PostLibrary} (hlib : lib.Percent) {msg : Text} (h : Char.ofNat 0 ∉ msg) :
  postData lib (publishArgs (.str msg)) = .done (some (some (postedText msg ++ [0])))
  := by
  have hpost : (publishArgs (.str msg)).assqRef "post".toList = postPairs [("msg".toList, msg)] := by
    simp [publishArgs, postPairs, Scm.ofList]
  have hname : Char.ofNat 0 ∉ "msg".toList := by decide
  have hnul : NulFreePairs [("msg".toList, msg)] := by
    intro p hp
    obtain rfl := List.mem_singleton.mp hp
    exact ⟨hname, h⟩
  have hkey : encodeUtf8 "msg".toList = ascii "msg" := by decide
  have hduple : lib.qduple ("msg".toList, msg) = (ascii "msg", percentEncode (encodeUtf8 msg)) := by
    rw [PostLibrary.qduple, hlib _ (zero_notMem_encodeUtf8 h), hkey]
  rw [postData_postPairs lib hnul hpost, if_neg (List.cons_ne_nil _ _), List.map_singleton, hduple]
  rfl

/-- No other object is posted: an exception is raised. -/
theorem postData_ne_str (lib : PostLibrary) {msg : Scm} (h : ∀ s, msg ≠ .str s) :
  postData lib (publishArgs msg) = .done none
  := by
  have hvalue : toUtf8String msg = none := by
    cases msg with
    | str s => exact absurd rfl (h s)
    | _ => rfl
  have hpost : (publishArgs msg).assqRef "post".toList
      = .pair (.pair (.str "msg".toList) msg) .nil := by simp [publishArgs]
  have hbuffer : postBuffer lib (.pair (.pair (.str "msg".toList) msg) .nil) = none := by
    rw [postBuffer, collectDuples, hvalue]
    cases toUtf8String (.str "msg".toList) <;> rfl
  have hargs : publishArgs msg ≠ .nil := by simp [publishArgs]
  rw [postData, hpost, if_neg (by simp [hargs]), hbuffer]

/-- What the handlers of a message that is a string are called with; `none` stands for an exception,
or a parser that leaves its buffer. -/
def postedValue (loc : Locale) (js : Jansson) (msg : Text) : Option Scm :=
  (parseQuery loc ((postedText msg).take postMemMax ++ [0]) 0 .nil).bind (fun query =>
    js.jsonDecode (query.assqRef "msg".toList))

/-- A text that takes no more than `POST_MEM_MAX` bytes is read back, its bytes for characters. -/
theorem postedValue_of_le (hascii : ∀ t, IsAscii t → loc.decode (encodeUtf8 t) = t) {msg : Text}
    (hnul : Char.ofNat 0 ∉ msg) (hsize : (postedText msg).length ≤ postMemMax) :
  postedValue loc js msg = js.jsonDecode (.str (fromLatin1 (encodeUtf8 msg)))
  := by
  have hmsg : (0 : UInt8) ∉ encodeUtf8 msg := zero_notMem_encodeUtf8 hnul
  have hsplit : postedText msg = ascii "msg" ++ 61 :: percentEncode (encodeUtf8 msg) := rfl
  obtain ⟨gap, hdecode⟩ := decodeQuery_all decodeQuery_percentCode (encodeUtf8 msg)
    (ascii "msg" ++ [0]) []
  have hparam := @parseParameter_of_mem loc (ascii "msg") (percentEncode (encodeUtf8 msg)) [] []
    .nil (by decide) (by decide)
  simp only [List.nil_append] at hparam
  have hname : loc.decode (ascii "msg") = "msg".toList :=
    hascii "msg".toList (isAscii_of_all rfl)
  have hdrop : (ascii "msg" ++ [0] ++ encodeUtf8 msg ++ 0 :: (gap ++ [])).drop
      (ascii "msg" ++ [(0 : UInt8)]).length = encodeUtf8 msg ++ 0 :: (gap ++ []) := by simp
  have hparse := @parseQuery_of_notMem loc (postedText msg) [] .nil
    (fun hmem => (of_mem_postedText hmem).2 rfl) (fun hmem => (of_mem_postedText hmem).1 rfl)
  rw [List.nil_append, List.length_nil] at hparse
  rw [postedValue, List.take_of_length_le hsize, hparse, hsplit]
  rw [List.length_nil] at hparam
  rw [hparam]
  unfold percentEncode
  rw [hdecode, Option.map_some, Option.map_some, Option.bind_some, hdrop, cstr_append_zero,
    cstr_of_not_mem hmsg, Locale.makesym, hname]
  simp

end

/-! ### Who receives a post -/

/-- A callback leads to its application and its path. -/
theorem splitUrl_callbackUrl (port : ℕ) (key : Text) :
  splitUrl (callbackUrl port key) = some (port, msgCallbackPath key)
  := by
  have hbegin : "http://127.0.0.1:".toList <+: callbackUrl port key := by
    rw [callbackUrl_eq]
    apply List.prefix_append
  have hdigits : ∀ c ∈ Nat.toDigits 10 port, c.isDigit = true :=
    fun c hc => Nat.isDigit_of_mem_toDigits (by decide) (by decide) hc
  have hpath : msgCallbackPath key = '/' :: ("msg-".toList ++ key) := rfl
  have hrest : (callbackUrl port key).drop "http://127.0.0.1:".toList.length
      = Nat.toDigits 10 port ++ '/' :: ("msg-".toList ++ key) := by
    rw [callbackUrl_eq, List.drop_left]
    rfl
  rw [splitUrl, if_pos hbegin]
  simp only [hrest]
  rw [List.takeWhile_append_of_pos hdigits, List.dropWhile_append_of_pos hdigits,
    List.takeWhile_cons_of_neg (by decide), List.dropWhile_cons_of_neg (by decide), List.append_nil,
    Nat.ofDigitChars_ten_toDigits, hpath]

section

variable {loc : Locale} {js : Jansson} {lib : PostLibrary} {code : Char → Option (List UInt8)}

/-- The list of handlers has the responders that `msg-subscribe` has made. -/
structure App.Routes (loc : Locale) (app : App) : Prop where
  entry : ∀ e ∈ app.handlers, ∃ i key, e.handler = .other i ∧ app.keys[i]? = some key ∧
    loc.encode (msgCallbackPath key) = some e.path
  handled : ∀ key ∈ app.keys, ∃ e ∈ app.handlers, loc.encode (msgCallbackPath key) = some e.path

/-- The query of a request that was posted. -/
theorem queryValue_acons (query rest : Scm) (key : Text) :
  queryValue (.acons "query" query rest) key = query.assqRef key
  := by
  simp only [queryValue, Scm.assqRef_acons, if_true]
  split
  case isTrue h =>
      rw [h]
      rfl
  case isFalse => rfl

/-- A handler is called when its path is the first prefix in the list. -/
theorem App.receive_eq (app : App) (port : ℕ) (path msg : Text) :
  app.receive loc js port path (postedText msg)
    = match postedValue loc js msg, loc.encode path with
      | some value, some spath =>
          match app.handlers.find? (fun e => e.path <+: spath) with
          | some ⟨_, .other i⟩ => (app.keys[i]?.map (fun key => Call.mk port key value)).toList
          | _ => []
      | _, _ => []
  := by
  have hpath : ∀ query, (Scm.acons "query" query (postHeaders path (postedText msg))).assqRef
      "url-path".toList = .str path := by
    intro query
    simp [postHeaders]
  have hfind : ∀ query, findHandler loc app.handlers
      (.acons "query" query (postHeaders path (postedText msg)))
      = (loc.encode path).map (fun spath => firstHandler loc spath app.handlers) := by
    intro query
    rw [findHandler, hpath, if_neg (by simp)]
    rfl
  rw [App.receive, postedRequest, postedValue]
  cases parseQuery loc ((postedText msg).take postMemMax ++ [0]) 0 .nil with
  | none => rfl
  | some query =>
      simp only [Option.map_some, Option.bind_some, hfind, callbackValue, queryValue_acons]
      generalize js.jsonDecode (query.assqRef "msg".toList) = decoded
      cases loc.encode path with
      | none => cases decoded <;> rfl
      | some spath =>
          simp only [Option.map_some, Handlers.firstHandler_eq]
          generalize hfound : app.handlers.find? (fun e => decide (e.path <+: spath)) = found
          cases decoded with
          | none =>
              cases found with
              | none => rfl
              | some e =>
                  obtain ⟨p, handler⟩ := e
                  cases handler with
                  | other i =>
                      dsimp only
                      cases app.keys[i]? <;> rfl
                  | _ => rfl
          | some value =>
              dsimp only
              rw [hfound]
              cases found with
              | none => rfl
              | some e =>
                  obtain ⟨p, handler⟩ := e
                  cases handler with
                  | other i =>
                      dsimp only
                      cases app.keys[i]? <;> rfl
                  | _ => rfl

/-- A handler that is called has been registered for a beginning of the key. -/
theorem App.Routes.of_mem_receive (hloc : loc.Charwise code) {app : App} (h : app.Routes loc)
    {port : ℕ} {key msg : Text} {call : Call}
    (hcall : call ∈ app.receive loc js port (msgCallbackPath key) (postedText msg)) :
  call.port = port ∧ call.key ∈ app.keys ∧ call.key <+: key ∧
    postedValue loc js msg = some call.value
  := by
  rw [App.receive_eq] at hcall
  split at hcall
  case h_2 => cases hcall
  case h_1 value spath hvalue hspath =>
      split at hcall
      case h_2 => cases hcall
      case h_1 p i hfound =>
          obtain ⟨i', key', hhandler, hkey', hp⟩ := h.entry _ (List.mem_of_find?_eq_some hfound)
          obtain rfl := Scm.other.inj hhandler
          rw [hkey', Option.map_some, Option.toList_some, List.mem_singleton] at hcall
          subst hcall
          have hbegin : msgCallbackPath key' <+: msgCallbackPath key := by
            rw [hloc.prefix_iff hp hspath]
            simpa using List.find?_some hfound
          exact ⟨rfl, List.mem_of_getElem? hkey', (List.prefix_append_right_inj _).mp hbegin, hvalue⟩

/-- When a handler is registered for a beginning of the key, and the message is read back, a handler
is called. -/
theorem App.Routes.exists_receive (hloc : loc.Charwise code) {app : App} (h : app.Routes loc)
    {port : ℕ} {key key' msg : Text} (hpath : (loc.encode (msgCallbackPath key)).isSome)
    (hkey' : key' ∈ app.keys) (hbegin : key' <+: key) (hvalue : (postedValue loc js msg).isSome) :
  ∃ call, call ∈ app.receive loc js port (msgCallbackPath key) (postedText msg)
  := by
  obtain ⟨spath, hspath⟩ := Option.isSome_iff_exists.mp hpath
  obtain ⟨value, hvalue⟩ := Option.isSome_iff_exists.mp hvalue
  obtain ⟨e, he, hp⟩ := h.handled key' hkey'
  have hstarts : e.path <+: spath := by
    rw [← hloc.prefix_iff hp hspath]
    exact (List.prefix_append_right_inj _).mpr hbegin
  have hsome : (app.handlers.find? (fun e => e.path <+: spath)).isSome := by
    rw [List.find?_isSome]
    exact ⟨e, he, decide_eq_true hstarts⟩
  obtain ⟨⟨p, handler⟩, hfound⟩ := Option.isSome_iff_exists.mp hsome
  obtain ⟨i, key'', hhandler, hkey'', -⟩ := h.entry _ (List.mem_of_find?_eq_some hfound)
  dsimp only at hhandler
  use ⟨port, key'', value⟩
  rw [App.receive_eq, hvalue, hspath]
  dsimp only
  rw [hfound, hhandler]
  simp [hkey'']

/-- An object that is not a string is sent to nobody. -/
theorem publishEach_ne_str {apps : ℕ → Option App} {msg : Scm} (h : ∀ s, msg ≠ .str s)
    (callbacks : Scm) :
  (publishEach loc js lib apps msg callbacks).1 = []
  := by
  have hget : ∀ url, httpGet loc js lib apps url (publishArgs msg) = .done none := by
    intro url
    cases url with
    | str url =>
        rw [httpGet, postData_ne_str lib h, Progress.bind, Option.map_none, ite_self]
    | _ => rfl
  cases callbacks with
  | pair callback callbacks => rw [publishEach, hget]
  | _ => rfl

/-- A string is sent to the applications that are listed. -/
theorem mem_publishEach (hlib : lib.Percent) {apps : ℕ → Option App} {msg key : Text}
    (hmsg : Char.ofNat 0 ∉ msg) (hkey : Char.ofNat 0 ∉ key) {urls : List Text}
    (hurls : ∀ url ∈ urls, ∃ port, url = callbackUrl port key) {call : Call} :
  call ∈ (publishEach loc js lib apps (.str msg) (urlList urls)).1
    ↔ ∃ port app, callbackUrl port key ∈ urls ∧ apps port = some app ∧
      call ∈ app.receive loc js port (msgCallbackPath key) (postedText msg)
  := by
  induction urls with
  | nil => simp [urlList, publishEach]
  | cons url urls ih =>
      obtain ⟨port, rfl⟩ := hurls url List.mem_cons_self
      have hstring : cstr (postedText msg ++ [0]) = postedText msg := by
        rw [cstr_append_zero, cstr_of_not_mem (fun hmem => (of_mem_postedText hmem).1 rfl)]
      have hget : httpGet loc js lib apps (.str (callbackUrl port key)) (publishArgs (.str msg))
          = .done (some ((apps port).elim [] (fun app =>
            app.receive loc js port (msgCallbackPath key) (postedText msg)))) := by
        rw [httpGet, if_neg (no_nul_callbackUrl hkey), postData_str hlib hmsg, Progress.bind,
          Option.map_some, splitUrl_callbackUrl]
        dsimp only
        rw [hstring]
      have hrest := ih (fun u hu => hurls u (List.mem_cons_of_mem _ hu))
      rw [urlList, List.map_cons, Scm.ofList_cons, publishEach, hget]
      rw [urlList] at hrest
      dsimp only
      rw [List.mem_append, hrest]
      constructor
      · rintro (hcall | ⟨port', app, hport', happ, hcall⟩)
        · cases happ : apps port with
          | none =>
              rw [happ] at hcall
              cases hcall
          | some app =>
              rw [happ] at hcall
              exact ⟨port, app, List.mem_cons_self, happ, hcall⟩
        · exact ⟨port', app, List.mem_cons_of_mem _ hport', happ, hcall⟩
      · rintro ⟨port', app, hport', happ, hcall⟩
        obtain hsame | hport' := List.mem_cons.mp hport'
        · left
          rw [callbackUrl_inj] at hsame
          subst hsame
          rwa [happ]
        · exact Or.inr ⟨port', app, hport', happ, hcall⟩

end

end Gusher
