import Gusher.Request.BodyReading
import Gusher.Request.Multipart

/-!
# The query of a request

A form arrives in the body of a POST, in one of two encodings, or in the query string of a GET.  The
query that is stored in the request is what the parser for the encoding makes of it.
-/

namespace Gusher

open CString

/-- `form_urlencoded`: the result `none` stands for an exception, or a parser that leaves its
buffer. -/
def formUrlencoded (loc : Locale) (platform : Platform) (request : Scm) (sock : Socket)
    (fuel : ℕ) : Progress (Option Scm) :=
  match readUrlencoded loc platform request sock fuel with
  | .done .raised => .done none
  | .done .nothing => .done (some .nil)
  | .done (.string buf _) => .done (parseQuery loc buf 0 .nil)
  | .done (.map _ _) => .fault
  | .running => .running
  | .fault => .fault

section

variable (loc : Locale) (platform : Platform) (tmp : ℕ → List UInt8) (buf : List UInt8) (pad : ℕ)

/-- `form_multipart` with the content type `ctype`, the names that `mkstemp` makes, its buffer, and
the number of NULs that can be accessed after the map of the body. -/
def formMultipartBody (request : Scm) (sock : Socket) (ctype : List UInt8) (fuel : ℕ) :
    Progress (Option Scm) :=
  match delimiter ctype with
  | none => .fault
  | some none => .done (some (.bool false))
  | some (some _) =>
      match readMultipart loc platform buf request sock fuel with
      | .done .raised => .done none
      | .done .nothing => .done (some (.bool false))
      | .done (.string _ _) => .fault
      | .done (.map m _) => .done ((formMultipart loc platform tmp ctype m pad).map Prod.fst)
      | .running => .running
      | .fault => .fault

def postIn (request : Scm) (sock : Socket) (fuel : ℕ) : Progress (Option Scm) :=
  let ctype := request.assqRef "content-type".toList
  if ¬ isPost request ∨ ctype = .bool false then .done (some (.bool false))
  else
    match loc.toLocaleString ctype with
    | none => .done none
    | some type =>
        if (Search.strstr type (ascii "application/x-www-form-urlencoded")).isSome then
          formUrlencoded loc platform request sock fuel
        else if ascii "multipart/form-data;" <+: type then
          formMultipartBody loc platform tmp buf pad request sock type fuel
        else .done (some (.bool false))

/-- The query that `process_request` stores in the request. -/
def requestQuery (request : Scm) (sock : Socket) (fuel : ℕ) : Progress (Option Scm) :=
  match postIn loc platform tmp buf pad request sock fuel with
  | .done (some (.bool false)) =>
      .done ((getIn loc request).map (fun query => if query = .bool false then .nil else query))
  | query => query

/-- The query is stored, after some rounds of the loop that reads the body. -/
def Stores (request : Scm) (sock : Socket) (query : Scm) : Prop :=
  ∃ fuel, requestQuery loc platform tmp buf pad request sock fuel = .done (some query)

end

/-- The form arrives in the body of a POST: all bytes of the body arrive, and nothing else, and the
length of the body is read from the request. -/
structure FormPost (loc : Locale) (request : Scm) (sock : Socket) (ctype body : List UInt8) :
    Prop where
  method : isPost request = true
  ctype : loc.toLocaleString (request.assqRef "content-type".toList) = some ctype
  length : requestLength loc request = some (body.length : ℤ)
  bytes : sock.bytes = body

/-- The form arrives in the query string of a request that is not a POST. -/
structure FormGet (loc : Locale) (request : Scm) (text : List UInt8) : Prop where
  method : isPost request = false
  query : loc.toLocaleString (request.assqRef "query-string".toList) = some text

variable {loc : Locale} {platform : Platform} {tmp : ℕ → List UInt8} {buf : List UInt8} {pad : ℕ}
  {request : Scm} {sock : Socket}

/-- A list of parameters is not `#f`. -/
theorem parseParameter_ne_false {m : List UInt8} {mark : ℕ} {list : Scm} {r : List UInt8 × Scm}
    (hlist : list ≠ .bool false) (h : parseParameter loc m mark list = some r) :
  r.2 ≠ .bool false
  := by
  unfold parseParameter at h
  split at h
  case h_1 =>
      obtain rfl := Option.some.inj h
      exact hlist
  case h_2 =>
      obtain ⟨buf', -, rfl⟩ := Option.map_eq_some_iff.mp h
      rintro ⟨⟩

/-- A query that was parsed is not `#f`. -/
theorem parseQuery_ne_false {m : List UInt8} {mark : ℕ} {list query : Scm}
    (hlist : list ≠ .bool false) (h : parseQuery loc m mark list = some query) :
  query ≠ .bool false
  := by
  fun_induction parseQuery loc m mark list with
  | case1 m mark list =>
      obtain ⟨r, hr, rfl⟩ := Option.map_eq_some_iff.mp h
      exact parseParameter_ne_false hlist hr
  | case2 => cases h
  | case3 m mark list amp hnext buf' list' hparam ih =>
      exact ih (parseParameter_ne_false hlist hparam) h

/-- A string that was encoded is not `#f`. -/
theorem ne_false_of_toLocaleString {x : Scm} {s : List UInt8} (h : loc.toLocaleString x = some s) :
  x ≠ .bool false
  := by
  rintro rfl
  cases h

/-- Of the form in a query string the query is what the parser makes of it. -/
theorem stores_get_iff {text : List UInt8} {query : Scm} (h : FormGet loc request text) :
  Stores loc platform tmp buf pad request sock query
    ↔ parseQuery loc (text ++ [0]) 0 .nil = some query
  := by
  have hpost : ∀ fuel, postIn loc platform tmp buf pad request sock fuel
      = .done (some (.bool false)) := by
    intro fuel
    simp [postIn, h.method]
  have hquery : getIn loc request = parseQuery loc (text ++ [0]) 0 .nil := by
    rw [getIn, if_neg (ne_false_of_toLocaleString h.query), h.query, Option.bind_some]
  have hstored : ∀ fuel, requestQuery loc platform tmp buf pad request sock fuel
      = .done ((parseQuery loc (text ++ [0]) 0 .nil).map
          (fun query => if query = .bool false then .nil else query)) := by
    intro fuel
    rw [requestQuery, hpost, hquery]
  simp only [Stores, hstored, exists_const, Progress.done.injEq]
  cases hparse : parseQuery loc (text ++ [0]) 0 .nil with
  | none => simp
  | some query =>
      have hne := parseQuery_ne_false (by rintro ⟨⟩) hparse
      rw [Option.map_some, if_neg hne]

theorem query_of_partsRound_next {rboundary : List UInt8} {s s' : Parts}
    (h : partsRound loc tmp rboundary s = .next s') :
  ∃ entry, s'.query = .pair entry s.query
  := by
  unfold partsRound at h
  repeat' split at h
  all_goals cases h
  exact ⟨_, rfl⟩

theorem partsRound_stop {rboundary : List UInt8} {s s' : Parts}
    (h : partsRound loc tmp rboundary s = .stop s') :
  s' = s
  := by
  unfold partsRound at h
  repeat' split at h
  all_goals cases h
  rfl

/-- The query of a map that was parsed is not `#f`. -/
theorem parseMap_ne_false {rboundary m : List UInt8} {maplen : ℕ}
    {r : Scm × List (List UInt8 × List UInt8)}
    (h : parseMap loc tmp rboundary m maplen = some r) :
  r.1 ≠ .bool false
  := by
  obtain ⟨s, hs, hr⟩ := Option.bind_eq_some_iff.mp h
  obtain ⟨t, ht, rfl⟩ := Option.map_eq_some_iff.mp hr
  have hstart : s.query ≠ .bool false := by
    unfold firstParts at hs
    split at hs
    case h_1 =>
        obtain rfl := Option.some.inj hs
        rintro ⟨⟩
    case h_2 => cases hs
  apply Loop.of_total_eq_some (fun s : Parts => s.query ≠ .bool false) _ _ hstart ht
  · intro s s' _ hround
    obtain ⟨entry, hquery⟩ := query_of_partsRound_next hround
    rw [hquery]
    rintro ⟨⟩
  · intro s a hs hround
    rwa [partsRound_stop hround]

/-- The query that `post_in` comes to is stored, if it is one. -/
theorem stores_iff {result : Option Scm} {query : Scm} (hne : result ≠ some (.bool false))
    (hdone : ∃ fuel, postIn loc platform tmp buf pad request sock fuel = .done result)
    (hdet : ∀ fuel r, postIn loc platform tmp buf pad request sock fuel = .done r → r = result) :
  Stores loc platform tmp buf pad request sock query ↔ result = some query
  := by
  constructor
  · rintro ⟨fuel, hquery⟩
    unfold requestQuery at hquery
    split at hquery
    case h_1 hfalse => exact absurd (hdet fuel _ hfalse).symm hne
    case h_2 => exact (hdet fuel _ hquery).symm
  · rintro rfl
    obtain ⟨fuel, hfuel⟩ := hdone
    use fuel
    rw [requestQuery, hfuel]
    split
    case h_1 hfalse => exact absurd (Progress.done.inj hfalse) hne
    case h_2 => rfl

/-- The body of a POST is parsed by its content type. -/
theorem postIn_of_ctype {type : List UInt8} {fuel : ℕ} (hmethod : isPost request = true)
    (htype : loc.toLocaleString (request.assqRef "content-type".toList) = some type) :
  postIn loc platform tmp buf pad request sock fuel
    = if (Search.strstr type (ascii "application/x-www-form-urlencoded")).isSome then
        formUrlencoded loc platform request sock fuel
      else if ascii "multipart/form-data;" <+: type then
        formMultipartBody loc platform tmp buf pad request sock type fuel
      else .done (some (.bool false))
  := by
  have hne := ne_false_of_toLocaleString htype
  rw [postIn, if_neg (not_or.mpr ⟨not_not.mpr hmethod, hne⟩), htype]

/-- Of a form-urlencoded body the query is what the parser makes of its first bytes. -/
theorem stores_urlencoded_iff {body : List UInt8} {query : Scm}
    (h : FormPost loc request sock (ascii "application/x-www-form-urlencoded") body)
    (hmalloc : platform.malloc ((body.take postMemMax).length + 1) ≠ none) :
  Stores loc platform tmp buf pad request sock query
    ↔ parseQuery loc (body.take postMemMax ++ [0]) 0 .nil = some query
  := by
  obtain ⟨m, hm⟩ := Option.ne_none_iff_exists'.mp hmalloc
  have hsmall : (body.take postMemMax).length < 2 ^ 31 := by
    have hmax : postMemMax < 2 ^ 31 := by decide
    exact Nat.lt_of_le_of_lt (List.length_take_le postMemMax body) hmax
  have hlength : (if (body.length : ℤ) > postMemMax then (postMemMax : ℤ) else body.length)
      = (body.take postMemMax).length := by
    rw [List.length_take]
    split <;> omega
  have hsize : sizeT ((body.take postMemMax).length + 1 : ℤ) = (body.take postMemMax).length + 1 := by
    rw [← Int.natCast_succ]
    exact sizeT_natCast (by omega)
  have hbytes : sock.bytes = body.take postMemMax ++ body.drop postMemMax := by
    rw [h.bytes, List.take_append_drop]
  have hread : ∀ fuel, readUrlencoded loc platform request sock fuel
      = readString m (body.take postMemMax).length sock fuel := by
    intro fuel
    rw [readUrlencoded, h.length]
    dsimp only
    rw [hlength, hsize, hm]
  have hpost : ∀ fuel, postIn loc platform tmp buf pad request sock fuel
      = formUrlencoded loc platform request sock fuel := by
    intro fuel
    have hfound : (Search.strstr (ascii "application/x-www-form-urlencoded")
        (ascii "application/x-www-form-urlencoded")).isSome = true := by decide
    rw [postIn_of_ctype h.method h.ctype, if_pos hfound]
  obtain ⟨fuel, rest, hdone, -⟩ := readString_done (platform.length_malloc hm) hsmall hbytes
  apply stores_iff
  · intro hfalse
    exact parseQuery_ne_false (by rintro ⟨⟩) hfalse rfl
  · use fuel
    rw [hpost, formUrlencoded, hread, hdone]
  · intro fuel' r hr
    rw [hpost, formUrlencoded, hread] at hr
    cases hread' : readString m (body.take postMemMax).length sock fuel' with
    | running =>
        rw [hread'] at hr
        cases hr
    | fault =>
        rw [hread'] at hr
        cases hr
    | done handed =>
        obtain rfl := readString_det hdone hread'
        rw [hread'] at hr
        exact (Progress.done.inj hr).symm

/-- Of a multipart body the query is what the parser makes of the whole. -/
theorem stores_multipart_iff {ctype body rboundary : List UInt8} {query : Scm}
    (h : FormPost loc request sock ctype body)
    (htype : ascii "multipart/form-data;" <+: ctype)
    (hother : Search.strstr ctype (ascii "application/x-www-form-urlencoded") = none)
    (hdelimiter : delimiter ctype = some (some rboundary)) (hbuf : buf.length = chunkSize)
    (hne : body ≠ []) (hmap : platform.mmap body.length = true) :
  Stores loc platform tmp buf pad request sock query
    ↔ (formMultipart loc platform tmp ctype body pad).map Prod.fst = some query
  := by
  have hpost : ∀ fuel, postIn loc platform tmp buf pad request sock fuel
      = formMultipartBody loc platform tmp buf pad request sock ctype fuel := by
    intro fuel
    rw [postIn_of_ctype h.method h.ctype, hother, if_neg (by decide), if_pos htype]
  have hread : ∀ fuel, readMultipart loc platform buf request sock fuel
      = readMap platform buf sock.bytes.length sock fuel := by
    intro fuel
    rw [readMultipart, h.length, h.bytes]
  have hint : sock.bytes.length < 2 ^ 31 := by
    obtain ⟨-, hlt⟩ := isInt_of_requestLength h.length
    rw [h.bytes]
    omega
  rw [← h.bytes] at hne hmap
  obtain ⟨fuel, rest, hdone⟩ := readMap_done hbuf hne hint hmap
  rw [h.bytes] at hmap
  apply stores_iff
  · intro hfalse
    obtain ⟨r, hr, hfst⟩ := Option.map_eq_some_iff.mp hfalse
    rw [formMultipart, hdelimiter] at hr
    dsimp only at hr
    rw [if_pos hmap] at hr
    exact parseMap_ne_false hr hfst
  · use fuel
    rw [hpost, formMultipartBody, hdelimiter]
    dsimp only
    rw [hread, hdone, h.bytes]
  · intro fuel' r hr
    rw [hpost, formMultipartBody, hdelimiter] at hr
    dsimp only at hr
    rw [hread] at hr
    cases hread' : readMap platform buf sock.bytes.length sock fuel' with
    | running =>
        rw [hread'] at hr
        cases hr
    | fault =>
        rw [hread'] at hr
        cases hr
    | done handed =>
        obtain rfl := readMap_det hdone hread'
        rw [hread', h.bytes] at hr
        exact (Progress.done.inj hr).symm

end Gusher
