import Gusher.Library.Search
import Gusher.Reply.Send
import Gusher.Request.Line
import Gusher.Request.Query

/-!
# The session of a request

`run_responder` takes the session of a request from its cookies, and makes a new one when it finds
none there.  It looks for the first place of the header `Cookie` where `GUSHERID=` comes before a
digit.  This need not be the cookie named `GUSHERID`: the name of another cookie may end with these
letters, and the value of any cookie may have them in it (`session_continuity`).
-/

namespace Gusher

open CString Search

def cookieKey : List UInt8 := ascii "GUSHERID"

/-- A byte of `[0-9a-f]`. -/
def isIdDigit (b : UInt8) : Bool :=
  isdigit b || (97 ≤ b && b ≤ 102)

/-- The digits at the beginning of a text. -/
def idDigits (s : List UInt8) : List UInt8 :=
  s.takeWhile isIdDigit

/-- A text begins with a match of `cookie_pat`. -/
def startsId (s : List UInt8) : Bool :=
  (cookieKey ++ [61]).isPrefixOf s && !(idDigits (s.drop 9)).isEmpty

/-- `regexec` with `cookie_pat`: the digits of the leftmost match. -/
def cookiePat (buf : List UInt8) : Option (List UInt8) :=
  (first startsId buf).map fun found => idDigits (found.2.drop 9)

/-- `session_cookie`: `none` stands for an exception, and `some none` for `NULL`. -/
def sessionCookie (loc : Locale) (request : Scm) : Option (Option (List UInt8)) :=
  let dough := request.assqRef "cookie".toList
  if dough = .bool false then some none
  else (loc.toLocaleString dough).map cookiePat

/-- The call of a responder: the procedure, the request that it is called with, and the header that
is put in front of its reply. -/
structure Dispatch where
  handler : Scm
  request : Scm
  cookieHeader : Option (Scm × Scm)
  deriving DecidableEq

/-- `run_responder`, up to the call of the responder, with the identifier that `uuid_generate` makes
when it is called: `none` stands for an exception, and `some none` for a request without a
handler. -/
def runResponder (loc : Locale) (handlers : List HandlerEntry) (out : List UInt8) (request : Scm) :
    Option (Option Dispatch) :=
  (findHandler loc handlers request).bind fun found =>
    match found with
    | .pair handler (.str pathInfo) =>
        (sessionCookie loc request).map fun cookie =>
          some {
            handler := handler
            request := addSession (loc.decode (cookie.getD (putUuid out))) pathInfo request
            cookieHeader := if cookie.isNone then some (cookieHeader out) else none }
    | _ => some none

/-! ### Cookies -/

/-- A cookie, with its bytes. -/
structure Cookie where
  name : List UInt8
  value : List UInt8
  deriving DecidableEq

/-- A byte that a name of HTTP may have. -/
def isTokenByte (b : UInt8) : Bool :=
  33 ≤ b && b ≤ 126 && !(ascii "()<>@,;:\\/[]?=\x7b\x7d").contains b && b ≠ 34

/-- A byte that the value of a cookie may have. -/
def isCookieOctet (b : UInt8) : Bool :=
  33 ≤ b && b ≤ 126 && b ≠ 34 && b ≠ 44 && b ≠ 59 && b ≠ 92

/-- A cookie that HTTP allows; the value may be put in quotes. -/
structure Cookie.Valid (c : Cookie) : Prop where
  name_ne_nil : c.name ≠ []
  name : ∀ b ∈ c.name, isTokenByte b = true
  value : (∀ b ∈ c.value, isCookieOctet b = true)
    ∨ ∃ s, c.value = 34 :: s ++ [34] ∧ ∀ b ∈ s, isCookieOctet b = true

def Cookie.text (c : Cookie) : List UInt8 :=
  c.name ++ 61 :: c.value

/-- The header `Cookie`. -/
def cookieText : List Cookie → List UInt8
  | [] => []
  | [c] => c.text
  | c :: cookies => c.text ++ 59 :: 32 :: cookieText cookies

/-- The identifier of a session. -/
structure IsId (v : List UInt8) : Prop where
  ne_nil : v ≠ []
  digits : ∀ b ∈ v, isIdDigit b = true

/-- What is taken for an identifier in a cookie: the digits at the beginning of its value, if its
name ends with `GUSHERID`, and else the digits after `GUSHERID=` in its value. -/
def Cookie.readId (c : Cookie) : Option (List UInt8) :=
  if cookieKey <:+ c.name ∧ idDigits c.value ≠ [] then some (idDigits c.value)
  else cookiePat c.value

/-- No other identifier is taken for the one of a session: if a cookie is named `GUSHERID`, and its
value is an identifier, then this is the first identifier in the cookies; and if no cookie is named
`GUSHERID`, then there is no identifier in them. -/
structure Unshadowed (cookies : List Cookie) : Prop where
  own : ∀ v, ⟨cookieKey, v⟩ ∈ cookies → IsId v →
    ∀ before c after, cookies = before ++ c :: after → (∀ d ∈ before, d.readId = none) →
      ∀ id, c.readId = some id → id = v
  fresh : (∀ c ∈ cookies, c.name ≠ cookieKey) → ∀ c ∈ cookies, c.readId = none

/-! ### Matches -/

theorem idDigits_drop (t : List UInt8) :
  idDigits ((cookieKey ++ 61 :: t).drop 9) = idDigits t
  := rfl

/-- What a match of `cookie_pat` begins with. -/
theorem startsId_iff {s : List UInt8} :
  startsId s = true ↔ ∃ t, s = cookieKey ++ 61 :: t ∧ idDigits t ≠ []
  := by
  rw [startsId, Bool.and_eq_true, List.isPrefixOf_iff_prefix]
  constructor
  · rintro ⟨⟨t, rfl⟩, hdigits⟩
    rw [List.append_assoc, List.singleton_append, idDigits_drop] at hdigits
    refine ⟨t, by simp, ?_⟩
    simpa using hdigits
  · rintro ⟨t, rfl, hdigits⟩
    refine ⟨⟨t, by simp⟩, ?_⟩
    rw [idDigits_drop]
    simpa using hdigits

theorem cookiePat_of_startsId {t : List UInt8} (h : idDigits t ≠ []) :
  cookiePat (cookieKey ++ 61 :: t) = some (idDigits t)
  := by
  rw [cookiePat, first_of_pos (startsId_iff.mpr ⟨t, rfl, h⟩)]
  rfl

theorem cookiePat_cons {b : UInt8} {s : List UInt8} (h : startsId (b :: s) = false) :
  cookiePat (b :: s) = cookiePat s
  := by
  rw [cookiePat, first_cons_of_neg h, Option.map_map]
  rfl

theorem isId_of_cookiePat {buf v : List UInt8} (h : cookiePat buf = some v) :
  IsId v
  := by
  obtain ⟨⟨a, b⟩, hfirst, rfl⟩ := Option.map_eq_some_iff.mp h
  obtain ⟨-, hstarts, -⟩ := first_eq_some_iff.mp hfirst
  obtain ⟨t, rfl, hdigits⟩ := startsId_iff.mp hstarts
  exact ⟨hdigits, fun b hb => List.mem_takeWhile_imp hb⟩

theorem IsId.idDigits_eq {v : List UInt8} (h : IsId v) :
  idDigits v = v
  := List.takeWhile_eq_self_iff.mpr h.digits

section Separator

variable {sep : UInt8} {x y : List UInt8}

/-- The digits at the beginning of a text end before a byte that is no digit. -/
theorem idDigits_append (hsep : isIdDigit sep = false) :
  idDigits (x ++ sep :: y) = idDigits x
  := by
  induction x with
  | nil => simp [idDigits, hsep]
  | cons b x ih =>
      rw [List.cons_append, idDigits, idDigits, List.takeWhile_cons, List.takeWhile_cons]
      split
      case isTrue => exact congrArg (b :: ·) ih
      case isFalse => rfl

/-- A match does not go over a byte that does not occur in matches. -/
theorem startsId_append (hsep : isIdDigit sep = false) (hkey : sep ∉ cookieKey ++ [61]) :
  startsId (x ++ sep :: y) = startsId x
  := by
  rw [Bool.eq_iff_iff, startsId_iff, startsId_iff]
  constructor
  · rintro ⟨t, heq, hdigits⟩
    have heq' : x ++ sep :: y = (cookieKey ++ [61]) ++ t := by rw [heq]; simp
    rcases List.append_eq_append_iff.mp heq' with ⟨a, hmatch, hrest⟩ | ⟨c, hx, hrest⟩
    · cases a with
      | nil =>
          rw [List.nil_append] at hrest
          rw [← hrest] at hdigits
          simp [idDigits, hsep] at hdigits
      | cons b a =>
          obtain ⟨rfl, -⟩ := List.cons.inj hrest
          rw [hmatch] at hkey
          exact absurd (List.mem_append_right x List.mem_cons_self) hkey
    · refine ⟨c, by rw [hx]; simp, ?_⟩
      rw [hrest, idDigits_append hsep] at hdigits
      exact hdigits
  · rintro ⟨t, rfl, hdigits⟩
    refine ⟨t ++ sep :: y, by simp, ?_⟩
    rw [idDigits_append hsep]
    exact hdigits

/-- A byte that does not occur in matches separates the text: its left part is searched first. -/
theorem cookiePat_append (hsep : isIdDigit sep = false) (hkey : sep ∉ cookieKey ++ [61]) :
  cookiePat (x ++ sep :: y) = (cookiePat x).or (cookiePat y)
  := by
  induction x with
  | nil =>
      have hstarts : startsId (sep :: y) = false := @startsId_append sep [] y hsep hkey
      rw [List.nil_append, cookiePat_cons hstarts]
      rfl
  | cons b x ih =>
      have hstarts : startsId (b :: (x ++ sep :: y)) = startsId (b :: x) :=
        @startsId_append sep (b :: x) y hsep hkey
      rcases Bool.eq_false_or_eq_true (startsId (b :: x)) with h | h
      · obtain ⟨t, heq, hdigits⟩ := startsId_iff.mp h
        rw [heq, cookiePat_of_startsId hdigits, List.append_assoc, List.cons_append,
          cookiePat_of_startsId (by rw [idDigits_append hsep]; exact hdigits),
          idDigits_append hsep]
        rfl
      · rw [List.cons_append, cookiePat_cons (hstarts.trans h), cookiePat_cons h, ih]

end Separator

/-! ### Identifiers in cookies -/

theorem notMem_cookieKey :
  (61 : UInt8) ∉ cookieKey ∧ (59 : UInt8) ∉ cookieKey ++ [61]
  := by decide

/-- What is found in a name and a value. -/
theorem cookiePat_pair {name value : List UInt8} (hname : (61 : UInt8) ∉ name) :
  cookiePat (name ++ 61 :: value) = (⟨name, value⟩ : Cookie).readId
  := by
  rw [Cookie.readId]
  induction name with
  | nil =>
      have hstarts : startsId (61 :: value) = false := rfl
      rw [List.nil_append, cookiePat_cons hstarts, if_neg]
      rintro ⟨hsuffix, -⟩
      exact absurd (List.suffix_nil.mp hsuffix) (by decide)
  | cons a name ih =>
      have ih := ih (fun h => hname (List.mem_cons_of_mem a h))
      rcases Bool.eq_false_or_eq_true (startsId (a :: (name ++ 61 :: value))) with h | h
      · obtain ⟨t, heq, hdigits⟩ := startsId_iff.mp h
        obtain ⟨hkey, -, rfl⟩ := append_cons_inj hname notMem_cookieKey.1 heq
        rw [List.cons_append, heq, cookiePat_of_startsId hdigits, hkey,
          if_pos ⟨List.suffix_rfl, hdigits⟩]
      · rw [List.cons_append, cookiePat_cons h, ih]
        apply if_congr _ rfl rfl
        rw [List.suffix_cons_iff]
        constructor
        · rintro ⟨hsuffix, hdigits⟩
          exact ⟨Or.inr hsuffix, hdigits⟩
        · rintro ⟨hkey | hsuffix, hdigits⟩
          · rw [← List.cons_append, ← hkey] at h
            cases h.symm.trans (startsId_iff.mpr ⟨value, rfl, hdigits⟩)
          · exact ⟨hsuffix, hdigits⟩

/-- The bytes of a cookie that HTTP allows are no separators. -/
theorem Cookie.Valid.notMem {c : Cookie} (h : c.Valid) :
  (61 : UInt8) ∉ c.name ∧ (59 : UInt8) ∉ c.text
  := by
  have hname : ∀ b, isTokenByte b = false → b ∉ c.name := by
    intro b hb hmem
    cases hb.symm.trans (h.name b hmem)
  have hvalue : (59 : UInt8) ∉ c.value := by
    rcases h.value with hoctets | ⟨s, hquoted, hoctets⟩
    · intro hmem
      cases hoctets 59 hmem
    · rw [hquoted]
      intro hmem
      simp only [List.cons_append, List.mem_cons, List.mem_append, List.not_mem_nil, or_false] at hmem
      rcases hmem with hquote | hmem | hquote
      · cases hquote
      · cases hoctets 59 hmem
      · cases hquote
  refine ⟨hname 61 (by decide), ?_⟩
  simp only [Cookie.text, List.mem_append, List.mem_cons, not_or]
  exact ⟨hname 59 (by decide), by decide, hvalue⟩

/-- The first identifier in the cookies is found. -/
theorem cookiePat_cookieText {cookies : List Cookie} (h : ∀ c ∈ cookies, c.Valid) :
  cookiePat (cookieText cookies) = cookies.findSome? Cookie.readId
  := by
  induction cookies with
  | nil => rfl
  | cons c cookies ih =>
      have hc := (h c List.mem_cons_self).notMem
      have ih := ih (fun d hd => h d (List.mem_cons_of_mem c hd))
      have hpair : cookiePat c.text = c.readId := cookiePat_pair hc.1
      have hor : (c :: cookies).findSome? Cookie.readId
          = c.readId.or (cookies.findSome? Cookie.readId) := by
        rw [List.findSome?_cons]
        cases c.readId <;> rfl
      rw [hor]
      cases cookies with
      | nil => rw [cookieText, hpair, List.findSome?_nil, Option.or_none]
      | cons d cookies =>
          have hspace : cookiePat (32 :: cookieText (d :: cookies))
              = cookiePat (cookieText (d :: cookies)) := cookiePat_cons rfl
          rw [cookieText, cookiePat_append rfl notMem_cookieKey.2, hspace, hpair, ih]
          exact List.cons_ne_nil d cookies

theorem readId_cookieKey {v : List UInt8} (h : IsId v) :
  (⟨cookieKey, v⟩ : Cookie).readId = some v
  := by
  rw [Cookie.readId, if_pos ⟨List.suffix_rfl, by rw [h.idDigits_eq]; exact h.ne_nil⟩, h.idDigits_eq]

theorem Cookie.valid_of_all {c : Cookie} (hne : c.name.isEmpty = false)
    (hname : c.name.all isTokenByte = true) (hvalue : c.value.all isCookieOctet = true) :
  c.Valid
  where
  name_ne_nil := by simpa using hne
  name := List.all_eq_true.mp hname
  value := Or.inl (List.all_eq_true.mp hvalue)

/-- When the first identifier in the cookies is the one of the session. -/
theorem unshadowed_iff (cookies : List Cookie) :
  Unshadowed cookies
    ↔ (∀ v, ⟨cookieKey, v⟩ ∈ cookies → IsId v → cookies.findSome? Cookie.readId = some v)
      ∧ ((∀ c ∈ cookies, c.name ≠ cookieKey) → cookies.findSome? Cookie.readId = none)
  := by
  constructor
  · intro h
    constructor
    · intro v hv hid
      have hsome : (cookies.findSome? Cookie.readId).isSome := by
        rw [List.findSome?_isSome_iff]
        exact ⟨_, hv, by rw [readId_cookieKey hid]; rfl⟩
      obtain ⟨id, hfirst⟩ := Option.isSome_iff_exists.mp hsome
      obtain ⟨before, c, after, hcookies, hread, hbefore⟩ := List.findSome?_eq_some_iff.mp hfirst
      rw [hfirst, h.own v hv hid before c after hcookies hbefore id hread]
    · intro hnone
      exact List.findSome?_eq_none_iff.mpr (h.fresh hnone)
  · rintro ⟨hown, hfresh⟩
    constructor
    · intro v hv hid before c after hcookies hbefore id hread
      have hfirst := List.findSome?_eq_some_iff.mpr ⟨before, c, after, hcookies, hread, hbefore⟩
      exact Option.some.inj (hfirst.symm.trans (hown v hv hid))
    · intro hnone
      exact List.findSome?_eq_none_iff.mp (hfresh hnone)

/-! ### The requests of a client -/

/-- A request of a client: the request that `process_request` has built, the cookies that were sent
with it, and the identifier that `uuid_generate` would make for it. -/
structure Visit where
  request : Scm
  cookies : List Cookie
  out : List UInt8

/-- The cookies of a request are in its header `Cookie`; without cookies there is no such header. -/
def Carries (loc : Locale) (request : Scm) (cookies : List Cookie) : Prop :=
  (cookies = [] ∧ request.assqRef "cookie".toList = .bool false)
    ∨ (cookies ≠ [] ∧ ∃ t, request.assqRef "cookie".toList = .str t
      ∧ loc.encode t = some (cookieText cookies))

namespace Visit

variable (loc : Locale) (handlers : List HandlerEntry) (v : Visit)

/-- The request is routed to a handler, and its cookies are allowed by HTTP. -/
structure Proper : Prop where
  routed : ∃ handler pathInfo,
    findHandler loc handlers v.request = some (.pair handler (.str pathInfo))
  valid : ∀ c ∈ v.cookies, c.Valid
  carries : Carries loc v.request v.cookies
  out : v.out.length = 16

/-- What `run_responder` does with the request. -/
def dispatch : Option Dispatch :=
  (runResponder loc handlers v.out v.request).join

/-- The field `session` that the responder sees. -/
def session : Option Scm :=
  (v.dispatch loc handlers).map fun d => d.request.assqRef "session".toList

/-- The session is the one of the cookie named `GUSHERID`, and then no cookie is sent back; without
such a cookie the session is a new identifier of 32 digits, which is sent back. -/
def Continues : Prop :=
  ∃ d, runResponder loc handlers v.out v.request = some (some d)
    ∧ (∀ id, ⟨cookieKey, id⟩ ∈ v.cookies → IsId id →
        d.request.assqRef "session".toList = .str (fromLatin1 id) ∧ d.cookieHeader = none)
    ∧ ((∀ c ∈ v.cookies, c.name ≠ cookieKey) →
        IsId (putUuid v.out) ∧ (putUuid v.out).length = 32
          ∧ d.request.assqRef "session".toList = .str (fromLatin1 (putUuid v.out))
          ∧ d.cookieHeader = some (cookieHeader v.out))

end Visit

/-- The value of the cookie that a client stores for a header `set-cookie`: what is between the
equals sign and the semicolon. -/
def storedValue (header : Scm × Scm) : Option (List UInt8) :=
  (toLatin1String header.2).bind fun text =>
    (index text 61).bind fun pair => (index pair.2 59).map Prod.fst

/-- The requests of a client that returns the cookie which it has stored, if any, and sends no other
one named `GUSHERID`. -/
inductive Returns (loc : Locale) (handlers : List HandlerEntry) :
    Option (List UInt8) → List Visit → Prop where
  | nil (jar : Option (List UInt8)) : Returns loc handlers jar []
  | cons (jar : Option (List UInt8)) (v : Visit) (visits : List Visit) (d : Dispatch)
      (hproper : v.Proper loc handlers)
      (hrun : runResponder loc handlers v.out v.request = some (some d))
      (hjar : v.cookies.filter (fun c => c.name = cookieKey) = (jar.map (Cookie.mk cookieKey)).toList)
      (hrest : Returns loc handlers (d.cookieHeader.elim jar storedValue) visits) :
      Returns loc handlers jar (v :: visits)

/-- The digits of a new identifier. -/
theorem isId_putUuid {out : List UInt8} (h : out.length = 16) :
  IsId (putUuid out) ∧ (putUuid out).length = 32
  := by
  have hlength : (putUuid out).length = 32 := by
    rw [putUuid, List.length_flatMap]
    simp [h]
  have hdigit : ∀ n < 16, isIdDigit (hexDigit (Nat.toUInt8 n)) = true := by decide
  refine ⟨⟨?_, ?_⟩, hlength⟩
  · rintro hnil
    rw [hnil] at hlength
    cases hlength
  · intro b hb
    obtain ⟨n, hn, rfl⟩ := exists_of_mem_putUuid hb
    have hn := hdigit n.toNat hn
    rwa [Nat.toUInt8, UInt8.ofNat_toNat] at hn

/-- A client stores the identifier that it is sent. -/
theorem storedValue_cookieHeader {out : List UInt8} (h : out.length = 16) :
  storedValue (cookieHeader out) = some (putUuid out)
  := by
  obtain ⟨hid, hlength⟩ := isId_putUuid h
  have hnot : ∀ b, isIdDigit b = false → b ∉ putUuid out := by
    intro b hb hmem
    cases hb.symm.trans (hid.digits b hmem)
  have htake : (ascii "GUSHERID=" ++ putUuid out ++ ascii "; Path=/").take 126
      = cookieKey ++ 61 :: (putUuid out ++ 59 :: ascii " Path=/") := by
    rw [List.take_of_length_le]
    · exact List.append_assoc _ _ _
    · simp [hlength, ascii]
  have hnull : (0 : UInt8) ∉ cookieKey ++ 61 :: (putUuid out ++ 59 :: ascii " Path=/") := by
    simp only [List.mem_append, List.mem_cons, not_or]
    exact ⟨by decide, by decide, hnot 0 rfl, by decide, by decide⟩
  rw [storedValue, cookieHeader, htake, toLatin1String, toLatin1_fromLatin1 hnull,
    Option.bind_some, index_append notMem_cookieKey.1, Option.bind_some,
    index_append (hnot 59 rfl)]
  rfl

section Client

variable {loc : Locale} {handlers : List HandlerEntry} {v : Visit}

/-- What is looked for in the header `Cookie`. -/
theorem sessionCookie_eq (hcarries : Carries loc v.request v.cookies)
    (hvalid : ∀ c ∈ v.cookies, c.Valid) :
  sessionCookie loc v.request = some (v.cookies.findSome? Cookie.readId)
  := by
  rw [sessionCookie]
  rcases hcarries with ⟨hnil, hnone⟩ | ⟨-, t, ht, hencode⟩
  · rw [hnil, if_pos hnone]
    rfl
  · rw [ht, if_neg nofun, Locale.toLocaleString, hencode, Option.map_some,
      cookiePat_cookieText hvalid]

/-- How the request is dispatched: the session is the first identifier in the cookies, or else a new
one. -/
theorem Visit.Proper.dispatched (h : v.Proper loc handlers) :
  ∃ d, runResponder loc handlers v.out v.request = some (some d)
    ∧ d.request.assqRef "session".toList
        = .str (loc.decode ((v.cookies.findSome? Cookie.readId).getD (putUuid v.out)))
    ∧ d.cookieHeader = if (v.cookies.findSome? Cookie.readId).isNone then
        some (cookieHeader v.out) else none
  := by
  obtain ⟨handler, pathInfo, hrouted⟩ := h.routed
  rw [runResponder, hrouted, Option.bind_some]
  simp only [sessionCookie_eq h.carries h.valid, Option.map_some]
  exact ⟨_, rfl, rfl, rfl⟩

theorem isId_of_findSome {cookies : List Cookie} (hvalid : ∀ c ∈ cookies, c.Valid) {id : List UInt8}
    (h : cookies.findSome? Cookie.readId = some id) :
  IsId id
  := by
  rw [← cookiePat_cookieText hvalid] at h
  exact isId_of_cookiePat h

/-- In a locale that reads ASCII as it is, identifiers are read as they are. -/
theorem decode_of_isId
    (hloc : ∀ s : List UInt8, (∀ b ∈ s, b.toNat < 128) → loc.decode s = fromLatin1 s)
    {id : List UInt8} (h : IsId id) :
  loc.decode id = fromLatin1 id
  := by
  apply hloc
  intro b hb
  have hdigit := h.digits b hb
  simp only [isIdDigit, isdigit, Bool.or_eq_true, Bool.and_eq_true, decide_eq_true_eq,
    UInt8.le_iff_toNat_le] at hdigit
  have h57 : (57 : UInt8).toNat = 57 := rfl
  have h102 : (102 : UInt8).toNat = 102 := rfl
  omega

/-- The session of a request is the one of its cookie, or a new one, exactly if no other identifier
is taken for it. -/
theorem Visit.Proper.continues_iff
    (hloc : ∀ s : List UInt8, (∀ b ∈ s, b.toNat < 128) → loc.decode s = fromLatin1 s)
    (h : v.Proper loc handlers) :
  v.Continues loc handlers ↔ Unshadowed v.cookies
  := by
  obtain ⟨d, hrun, hsession, hheader⟩ := h.dispatched
  rw [unshadowed_iff]
  constructor
  · rintro ⟨d', hrun', hown, hfresh⟩
    obtain rfl := Option.some.inj (Option.some.inj (hrun.symm.trans hrun'))
    constructor
    · intro id hmem hid
      obtain ⟨htext, hnone⟩ := hown id hmem hid
      rw [hheader] at hnone
      cases hfirst : v.cookies.findSome? Cookie.readId with
      | none =>
          rw [hfirst] at hnone
          cases hnone
      | some x =>
          rw [hsession, hfirst, Option.getD_some,
            decode_of_isId hloc (isId_of_findSome h.valid hfirst)] at htext
          rw [fromLatin1_inj.mp (Scm.str.inj htext)]
    · intro hnone
      obtain ⟨-, -, -, hsent⟩ := hfresh hnone
      rw [hheader] at hsent
      cases hfirst : v.cookies.findSome? Cookie.readId with
      | none => rfl
      | some x =>
          rw [hfirst] at hsent
          cases hsent
  · rintro ⟨hown, hfresh⟩
    refine ⟨d, hrun, ?_, ?_⟩
    · intro id hmem hid
      rw [hsession, hheader, hown id hmem hid]
      exact ⟨congrArg Scm.str (decode_of_isId hloc hid), rfl⟩
    · intro hnone
      obtain ⟨hid, hlength⟩ := isId_putUuid h.out
      rw [hsession, hheader, hfresh hnone]
      exact ⟨hid, hlength, congrArg Scm.str (decode_of_isId hloc hid), rfl⟩

/-- A client that has stored an identifier keeps it. -/
theorem Returns.session_of_some
    (hloc : ∀ s : List UInt8, (∀ b ∈ s, b.toNat < 128) → loc.decode s = fromLatin1 s)
    {id : List UInt8} (hid : IsId id) {visits : List Visit}
    (h : Returns loc handlers (some id) visits) (hcookies : ∀ v ∈ visits, Unshadowed v.cookies) :
  ∀ v ∈ visits, v.session loc handlers = some (.str (fromLatin1 id))
  := by
  generalize hjar : some id = jar at h
  induction h with
  | nil => nofun
  | cons jar v visits d hproper hrun hstored hrest ih =>
      subst hjar
      have hmem : ⟨cookieKey, id⟩ ∈ v.cookies := by
        have hfilter : ⟨cookieKey, id⟩ ∈ v.cookies.filter (fun c => c.name = cookieKey) := by
          rw [hstored]
          exact List.mem_cons_self
        exact List.mem_of_mem_filter hfilter
      obtain ⟨d', hrun', hown, -⟩ :=
        (hproper.continues_iff hloc).mpr (hcookies v List.mem_cons_self)
      obtain rfl := Option.some.inj (Option.some.inj (hrun.symm.trans hrun'))
      obtain ⟨hsession, hheader⟩ := hown id hmem hid
      rintro w (_ | ⟨_, hw⟩)
      · rw [Visit.session, Visit.dispatch, hrun, Option.join_some, Option.map_some, hsession]
      · refine ih (fun w hw => hcookies w (List.mem_cons_of_mem v hw)) ?_ w hw
        rw [hheader]
        rfl

/-- A client has one session. -/
theorem Returns.one_session
    (hloc : ∀ s : List UInt8, (∀ b ∈ s, b.toNat < 128) → loc.decode s = fromLatin1 s)
    {jar : Option (List UInt8)} (hjar : ∀ id ∈ jar, IsId id) {visits : List Visit}
    (h : Returns loc handlers jar visits) (hcookies : ∀ v ∈ visits, Unshadowed v.cookies) :
  ∃ id, ∀ v ∈ visits, v.session loc handlers = some (.str (fromLatin1 id))
  := by
  cases jar with
  | some id => exact ⟨id, h.session_of_some hloc (hjar id rfl) hcookies⟩
  | none =>
      cases h with
      | nil => exact ⟨[], nofun⟩
      | cons _ v visits d hproper hrun hstored hrest =>
          have hnone : ∀ c ∈ v.cookies, c.name ≠ cookieKey := by
            intro c hc hname
            have hfilter : c ∈ v.cookies.filter (fun c => c.name = cookieKey) :=
              List.mem_filter.mpr ⟨hc, by simpa using hname⟩
            rw [hstored] at hfilter
            cases hfilter
          obtain ⟨d', hrun', -, hfresh⟩ :=
            (hproper.continues_iff hloc).mpr (hcookies v List.mem_cons_self)
          obtain rfl := Option.some.inj (Option.some.inj (hrun.symm.trans hrun'))
          obtain ⟨hid, -, hsession, hheader⟩ := hfresh hnone
          rw [hheader, Option.elim_some, storedValue_cookieHeader hproper.out] at hrest
          use putUuid v.out
          rintro w (_ | ⟨_, hw⟩)
          · rw [Visit.session, Visit.dispatch, hrun, Option.join_some, Option.map_some, hsession]
          · exact hrest.session_of_some hloc hid
              (fun w hw => hcookies w (List.mem_cons_of_mem v hw)) w hw

end Client

/-- In a locale that reads ASCII as it is: the session of a request is the one of its cookie
`GUSHERID`, or a new one that is sent back, exactly if no other identifier in the cookies is taken for
it; and a client which returns its cookies has one session over any number of such requests. -/
theorem session_continuity {loc : Locale} {handlers : List HandlerEntry}
    (hloc : ∀ s : List UInt8, (∀ b ∈ s, b.toNat < 128) → loc.decode s = fromLatin1 s) :
  (∀ v : Visit, v.Proper loc handlers → (v.Continues loc handlers ↔ Unshadowed v.cookies))
    ∧ ∀ jar visits, (∀ id ∈ jar, IsId id) → Returns loc handlers jar visits →
        (∀ v ∈ visits, Unshadowed v.cookies) →
          ∃ id, ∀ v ∈ visits, v.session loc handlers = some (.str (fromLatin1 id))
  := by
  constructor
  · intro v h
    exact h.continues_iff hloc
  · intro jar visits hjar h hcookies
    exact h.one_session hloc hjar hcookies

/-- A request for the path `/`, with its cookies. -/
def visitHome (cookies : List Cookie) (out : List UInt8) : Visit where
  request :=
    if cookies = [] then Scm.acons "url-path" (.str ['/']) .nil
    else Scm.acons "cookie" (.str (fromLatin1 (cookieText cookies)))
      (Scm.acons "url-path" (.str ['/']) .nil)
  cookies := cookies
  out := out

/-- There is one handler, for the path `/`. -/
def home : List HandlerEntry := [⟨[47], .other 1⟩]

/-- Such a request is routed. -/
theorem proper_visitHome {cookies : List Cookie} {out : List UInt8}
    (hvalid : ∀ c ∈ cookies, c.Valid) (hnul : (0 : UInt8) ∉ cookieText cookies)
    (hout : out.length = 16) :
  (visitHome cookies out).Proper latin1 home
  := by
  constructor
  case routed =>
      refine ⟨.other 1, [], ?_⟩
      by_cases hnil : cookies = []
      · simp only [visitHome, hnil]
        rfl
      · simp only [visitHome, hnil]
        rfl
  case valid => exact hvalid
  case carries =>
      by_cases hnil : cookies = []
      · left
        refine ⟨hnil, ?_⟩
        simp only [visitHome, hnil]
        rfl
      · right
        refine ⟨hnil, fromLatin1 (cookieText cookies), ?_, toLatin1_fromLatin1 hnul⟩
        simp only [visitHome, hnil]
        rfl
  case out => exact hout

/-- A client comes without cookies, and comes back with the cookie that it has been sent, after
another one. -/
theorem session_continuity_back :
  ∃ id, (visitHome [] (List.replicate 16 1)).session latin1 home = some (.str (fromLatin1 id))
    ∧ (visitHome [⟨ascii "theme", ascii "dark"⟩, ⟨cookieKey, putUuid (List.replicate 16 1)⟩]
        (List.replicate 16 2)).session latin1 home = some (.str (fromLatin1 id))
  := by
  have hout : ∀ b : UInt8, (List.replicate 16 b).length = 16 := fun _ => rfl
  have hid := (isId_putUuid (hout 1)).1
  let cookies : List Cookie :=
    [⟨ascii "theme", ascii "dark"⟩, ⟨cookieKey, putUuid (List.replicate 16 1)⟩]
  have hvalid : ∀ c ∈ cookies, c.Valid := by
    intro c hc
    rcases List.mem_cons.mp hc with rfl | hc
    · exact Cookie.valid_of_all rfl rfl rfl
    · obtain rfl := List.mem_singleton.mp hc
      exact Cookie.valid_of_all rfl rfl rfl
  have hfirst : cookies.findSome? Cookie.readId = some (putUuid (List.replicate 16 1)) := by decide
  have hproper := @proper_visitHome [] (List.replicate 16 1) nofun (by decide) rfl
  have hproper' := @proper_visitHome cookies (List.replicate 16 2) hvalid (by decide) rfl
  obtain ⟨d, hrun, -, hheader⟩ := hproper.dispatched
  obtain ⟨d', hrun', -, -⟩ := hproper'.dispatched
  have hstored : d.cookieHeader.elim none storedValue = some (putUuid (List.replicate 16 1)) := by
    rw [hheader]
    exact storedValue_cookieHeader rfl
  have hreturns : Returns latin1 home none
      [visitHome [] (List.replicate 16 1), visitHome cookies (List.replicate 16 2)] := by
    refine .cons none _ _ d hproper hrun rfl ?_
    rw [hstored]
    exact .cons _ _ _ d' hproper' hrun' (by decide) (.nil _)
  have hcookies : ∀ v ∈ [visitHome [] (List.replicate 16 1),
      visitHome cookies (List.replicate 16 2)], Unshadowed v.cookies := by
    intro v hv
    rcases List.mem_cons.mp hv with rfl | hv
    · exact ⟨nofun, nofun⟩
    · obtain rfl := List.mem_singleton.mp hv
      apply (unshadowed_iff cookies).mpr
      constructor
      · intro v hv _
        rcases List.mem_cons.mp hv with h | hv
        · have hne : cookieKey ≠ ascii "theme" := by decide
          exact absurd (congrArg Cookie.name h) hne
        · rw [hfirst, (Cookie.mk.inj (List.mem_singleton.mp hv)).2]
      · intro hnone
        exact absurd rfl (hnone _ (List.mem_cons_of_mem _ List.mem_cons_self))
  obtain ⟨id, hsession⟩ := (session_continuity fun _ _ => rfl).2 none _ nofun hreturns hcookies
  exact ⟨id, hsession _ List.mem_cons_self, hsession _ (List.mem_cons_of_mem _ List.mem_cons_self)⟩

/-- The name of another cookie ends with `GUSHERID`, and its value is taken for the session; or the
value of another cookie has an identifier in it, and no new session is made. -/
theorem session_taken :
  (∃ v : Visit, v.Proper latin1 home ∧ ⟨cookieKey, ascii "cd"⟩ ∈ v.cookies ∧ IsId (ascii "cd")
      ∧ v.session latin1 home = some (.str "ab".toList)
      ∧ ¬ v.Continues latin1 home)
    ∧ ∃ v : Visit, v.Proper latin1 home ∧ (∀ c ∈ v.cookies, c.name ≠ cookieKey)
      ∧ v.session latin1 home = some (.str "ab".toList)
      ∧ ¬ v.Continues latin1 home
  := by
  have hloc : ∀ s : List UInt8, (∀ b ∈ s, b.toNat < 128) → latin1.decode s = fromLatin1 s :=
    fun _ _ => rfl
  constructor
  · let cookies : List Cookie := [⟨ascii "XGUSHERID", ascii "ab"⟩, ⟨cookieKey, ascii "cd"⟩]
    have hvalid : ∀ c ∈ cookies, c.Valid := by
      intro c hc
      rcases List.mem_cons.mp hc with rfl | hc
      · exact Cookie.valid_of_all rfl rfl rfl
      · obtain rfl := List.mem_singleton.mp hc
        exact Cookie.valid_of_all rfl rfl rfl
    have hproper := @proper_visitHome cookies (List.replicate 16 2) hvalid (by decide) rfl
    have hid : IsId (ascii "cd") := ⟨nofun, List.all_eq_true.mp rfl⟩
    have hmem : ⟨cookieKey, ascii "cd"⟩ ∈ cookies := List.mem_cons_of_mem _ List.mem_cons_self
    refine ⟨_, hproper, hmem, hid, by decide, ?_⟩
    rw [hproper.continues_iff hloc, unshadowed_iff]
    intro h
    exact absurd (h.1 _ hmem hid) (by decide)
  · let cookies : List Cookie := [⟨ascii "x", ascii "GUSHERID=ab"⟩]
    have hvalid : ∀ c ∈ cookies, c.Valid := by
      intro c hc
      obtain rfl := List.mem_singleton.mp hc
      exact Cookie.valid_of_all rfl rfl rfl
    have hproper := @proper_visitHome cookies (List.replicate 16 2) hvalid (by decide) rfl
    have hnone : ∀ c ∈ cookies, c.name ≠ cookieKey := by decide
    refine ⟨_, hproper, hnone, by decide, ?_⟩
    rw [hproper.continues_iff hloc, unshadowed_iff]
    intro h
    exact absurd (h.2 hnone) (by decide)

end Gusher
