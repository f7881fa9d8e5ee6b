import Gusher.Request.FormEncodings
import Gusher.Request.Headers

/-!
# Buffers of a fixed size

`dump_request` puts the entries of a request into an array of 4096 bytes, and `form_multipart` the
delimiter of the parts into one of 256.  Neither looks at the lengths: the strings come from the
client, and the lines that the header phase reads are limited only one by one.
-/

namespace Gusher

open CString Memory

/-! ### The dump of a request -/

/-- The outcome of `dump_request`: an exception, an access outside the array, or the array. -/
inductive Dump where
  | raised
  | overflow
  | text (buf : List UInt8)
  deriving DecidableEq

/-- The first line of the dump. -/
def greeting (threading : Bool) : List UInt8 :=
  if threading then ascii "threaded request received" ++ crlf
  else ascii "sync request received" ++ crlf

/-- The value of an entry in the dump; `none` stands for an exception. -/
def dumpValue (loc : Locale) : Scm → Option (List UInt8)
  | .str s => (loc.encode s).map cstr
  | _ => some (ascii "NON-STRING")

/-- Two calls of `strcat`. -/
def strcat₂ (buf s t : List UInt8) : Option (List UInt8) :=
  (strcat buf s).bind (fun buf => strcat buf t)

/-- The loop of `dump_request`. -/
def dumpLoop (loc : Locale) (buf : List UInt8) : Scm → Dump
  | .nil => .text buf
  | .pair (.pair (.symbol name) value) node =>
      match (loc.encode name).map cstr with
      | none => .raised
      | some ch =>
          match strcat₂ buf ch (ascii ": ") with
          | none => .overflow
          | some buf =>
              match dumpValue loc value with
              | none => .raised
              | some ch =>
                  match strcat₂ buf ch [10] with
                  | none => .overflow
                  | some buf => dumpLoop loc buf node
  | _ => .raised

/-- `dump_request`, with what is in the array at first. -/
def dumpRequest (loc : Locale) (threading : Bool) (buf : List UInt8) (request : Scm) : Dump :=
  match (store buf 0 0).bind (fun buf => strcat buf (greeting threading)) with
  | none => .overflow
  | some buf => dumpLoop loc buf request

/-- The size of the entries in the dump, up to the first string that cannot be encoded. -/
def dumpSize (loc : Locale) : Scm → ℕ
  | .pair (.pair (.symbol name) value) node =>
      match (loc.encode name).map cstr with
      | none => 0
      | some ch =>
          ch.length + 2 + match dumpValue loc value with
            | none => 0
            | some ch => ch.length + 1 + dumpSize loc node
  | _ => 0

/-! ### The delimiter of the parts -/

def typeBoundary (ctype : List UInt8) : Option (List UInt8) :=
  (Search.strstr ctype (ascii "boundary=")).bind (fun (_, boundary) =>
    (CString.index boundary 45).map (fun (_, boundary) => 45 :: boundary))

/-- The boundary with which `form_multipart` is called, when `post_in` calls it. -/
def multipartBoundary (loc : Locale) (request : Scm) : Option (List UInt8) :=
  if isPost request then
    (loc.toLocaleString (request.assqRef "content-type".toList)).bind (fun type =>
      if (Search.strstr type (ascii "application/x-www-form-urlencoded")).isSome then none
      else if ascii "multipart/form-data;" <+: type then typeBoundary (cstr type)
      else none)
  else none

/-- What `form_multipart` puts into `rboundary`, with what is in the array at first. -/
def copyBoundary (buf boundary : List UInt8) : Option (List UInt8) :=
  (strcpy buf 0 (crlf ++ ascii "--")).bind (fun buf => strcat buf boundary)

/-! ### Requests -/

/-- A request that the header phase accepts, and what is added to it. -/
structure Accepted (loc : Locale) where
  stream : List UInt8
  alist : Scm
  rest : List UInt8
  built : buildRequest loc stream = .request alist rest
  ipaddr : List UInt8
  rport : ℕ
  query : Scm
  session : Text
  pathInfo : Text

namespace Accepted

variable {loc : Locale} (r : Accepted loc)

/-- The request that `post_in` gets. -/
def posted : Scm :=
  addRemote loc r.ipaddr r.rport r.alist

/-- The request that a responder gets. -/
def answered : Scm :=
  addSession r.session r.pathInfo (addQuery r.query r.posted)

/-- Both arrays are large enough, whatever is in them at first. -/
structure BuffersFit (threading : Bool) : Prop where
  dump : ∀ buf : List UInt8, buf.length = 4096 →
    dumpRequest loc threading buf r.answered ≠ .overflow
  boundary : ∀ boundary, multipartBoundary loc r.posted = some boundary →
    ∀ buf : List UInt8, buf.length = 256 → copyBoundary buf boundary ≠ none

end Accepted

/-! ### Sizes -/

section Sizes

variable {loc : Locale} {a b s t : List UInt8}

/-- Two strings fit behind the one in the array, or the second call leaves it. -/
theorem strcat₂_cases (ha : (0 : UInt8) ∉ a) (hs : (0 : UInt8) ∉ s) :
  s.length + t.length ≤ b.length
      ∧ strcat₂ (a ++ 0 :: b) s t = some (a ++ s ++ t ++ 0 :: b.drop (s.length + t.length))
    ∨ b.length < s.length + t.length ∧ strcat₂ (a ++ 0 :: b) s t = none
  := by
  unfold strcat₂
  rcases Nat.lt_or_ge b.length s.length with hlt | hle
  · right
    rw [strcat_eq_none ha hlt]
    exact ⟨by omega, rfl⟩
  · have has : (0 : UInt8) ∉ a ++ s := by
      rw [List.mem_append]
      exact not_or.mpr ⟨ha, hs⟩
    rw [strcat_append ha hle, Option.bind_some]
    rcases Nat.lt_or_ge (b.drop s.length).length t.length with hlt | hle'
    · right
      rw [strcat_eq_none has hlt]
      rw [List.length_drop] at hlt
      exact ⟨by omega, rfl⟩
    · left
      rw [strcat_append has hle', List.drop_drop]
      rw [List.length_drop] at hle'
      exact ⟨by omega, rfl⟩

theorem zero_notMem_key (ha : (0 : UInt8) ∉ a) (s : List UInt8) :
  (0 : UInt8) ∉ a ++ cstr s ++ ascii ": "
  := by
  rw [List.mem_append, List.mem_append]
  exact not_or.mpr ⟨not_or.mpr ⟨ha, zero_notMem_cstr s⟩, by decide⟩

/-- The value of an entry is a string. -/
theorem zero_notMem_dumpValue {value : Scm} (h : dumpValue loc value = some s) :
  (0 : UInt8) ∉ s
  := by
  unfold dumpValue at h
  split at h
  · obtain ⟨ch, -, rfl⟩ := Option.map_eq_some_iff.mp h
    apply zero_notMem_cstr
  · obtain rfl := Option.some.inj h
    decide

/-- The size of an entry that can be encoded. -/
theorem dumpSize_entry {name : Text} {value node : Scm} {v : List UInt8}
    (hname : (loc.encode name).map cstr = some s) (hvalue : dumpValue loc value = some v) :
  dumpSize loc (.pair (.pair (.symbol name) value) node)
    = s.length + v.length + 3 + dumpSize loc node
  := by
  have hsize : dumpSize loc (.pair (.pair (.symbol name) value) node)
      = s.length + 2 + (v.length + 1 + dumpSize loc node) := by
    simp only [dumpSize, hname, hvalue]
  rw [hsize]
  omega

/-- The loop stays in the array exactly if there is room for the entries. -/
theorem dumpLoop_ne_overflow_iff (ha : (0 : UInt8) ∉ a) (node : Scm) :
  dumpLoop loc (a ++ 0 :: b) node ≠ .overflow ↔ dumpSize loc node ≤ b.length
  := by
  generalize hbuf : a ++ 0 :: b = buf
  have hcolon : (ascii ": ").length = 2 := rfl
  fun_induction dumpLoop loc buf node generalizing a b with
  | case1 => simp [dumpSize]
  | case2 buf name value node hname => simp [dumpSize, hname]
  | case3 buf name value node ch hname hnone =>
      subst hbuf
      obtain ⟨s, -, rfl⟩ := Option.map_eq_some_iff.mp hname
      obtain ⟨-, hsome⟩ | ⟨hlt, -⟩ :=
        strcat₂_cases (b := b) (t := ascii ": ") ha (zero_notMem_cstr s)
      · rw [hnone] at hsome
        cases hsome
      · simp only [dumpSize, hname, ne_eq, not_true_eq_false, false_iff, not_le]
        omega
  | case4 buf name value node ch hname buf' hkey hvalue =>
      subst hbuf
      obtain ⟨s, -, rfl⟩ := Option.map_eq_some_iff.mp hname
      obtain ⟨hle, -⟩ | ⟨-, hnone⟩ :=
        strcat₂_cases (b := b) (t := ascii ": ") ha (zero_notMem_cstr s)
      · simp only [dumpSize, hname, hvalue]
        simp
        omega
      · rw [hkey] at hnone
        cases hnone
  | case5 buf name value node ch hname buf' hkey v hvalue hnone =>
      subst hbuf
      obtain ⟨s, -, rfl⟩ := Option.map_eq_some_iff.mp hname
      obtain ⟨hle, hsome⟩ | ⟨-, hnone'⟩ :=
        strcat₂_cases (b := b) (t := ascii ": ") ha (zero_notMem_cstr s)
      · rw [hkey] at hsome
        obtain rfl := Option.some.inj hsome
        obtain ⟨-, hsome'⟩ | ⟨hlt, -⟩ := strcat₂_cases (t := [10])
          (b := b.drop ((cstr s).length + (ascii ": ").length)) (zero_notMem_key ha s)
          (zero_notMem_dumpValue hvalue)
        · rw [hnone] at hsome'
          cases hsome'
        · rw [List.length_drop, List.length_singleton] at hlt
          rw [dumpSize_entry hname hvalue]
          simp only [ne_eq, not_true_eq_false, false_iff, not_le]
          omega
      · rw [hkey] at hnone'
        cases hnone'
  | case6 buf name value node ch hname buf' hkey v hvalue buf'' hentry ih =>
      subst hbuf
      obtain ⟨s, -, rfl⟩ := Option.map_eq_some_iff.mp hname
      obtain ⟨hle, hsome⟩ | ⟨-, hnone⟩ :=
        strcat₂_cases (b := b) (t := ascii ": ") ha (zero_notMem_cstr s)
      · rw [hkey] at hsome
        obtain rfl := Option.some.inj hsome
        obtain ⟨hle', hsome'⟩ | ⟨-, hnone'⟩ := strcat₂_cases (t := [10])
          (b := b.drop ((cstr s).length + (ascii ": ").length)) (zero_notMem_key ha s)
          (zero_notMem_dumpValue hvalue)
        · rw [hentry] at hsome'
          obtain rfl := Option.some.inj hsome'
          have hzero : (0 : UInt8) ∉ a ++ cstr s ++ ascii ": " ++ v ++ [10] := by
            rw [List.mem_append, List.mem_append]
            exact not_or.mpr ⟨not_or.mpr ⟨zero_notMem_key ha s, zero_notMem_dumpValue hvalue⟩,
              by decide⟩
          refine (ih hzero rfl).trans ?_
          rw [dumpSize_entry hname hvalue]
          rw [List.length_drop, List.length_singleton] at hle'
          rw [List.length_drop, List.length_drop, List.length_singleton]
          omega
        · rw [hentry] at hnone'
          cases hnone'
      · rw [hkey] at hnone
        cases hnone
  | case7 node buf hnil hpair =>
      have hsize : dumpSize loc node = 0 := by
        unfold dumpSize
        split
        · exact absurd rfl (hpair _ _ _)
        · rfl
      rw [hsize]
      simp

/-- The array for the dump is large enough exactly if the first line and the entries are together
shorter than it. -/
theorem dumpRequest_ne_overflow_iff {threading : Bool} {buf : List UInt8} (hbuf : buf.length = 4096)
    (request : Scm) :
  dumpRequest loc threading buf request ≠ .overflow
    ↔ (greeting threading).length + dumpSize loc request ≤ 4095
  := by
  cases buf with
  | nil => cases hbuf
  | cons c buf =>
      rw [List.length_cons] at hbuf
      have hstore : store (c :: buf) 0 0 = some (0 :: buf) := store_eq (a := []) rfl rfl
      have hgreeting : (0 : UInt8) ∉ greeting threading ∧ (greeting threading).length ≤ 27 := by
        cases threading <;> decide
      have hstrcat : strcat (0 :: buf) (greeting threading)
          = some (greeting threading ++ 0 :: buf.drop (greeting threading).length) :=
        strcat_append (a := []) (by simp) (by omega)
      rw [dumpRequest, hstore, Option.bind_some, hstrcat]
      simp only
      rw [dumpLoop_ne_overflow_iff hgreeting.1, List.length_drop]
      omega

/-- The array for the delimiter has room for a boundary of 251 bytes. -/
theorem copyBoundary_ne_none_iff {buf boundary : List UInt8} (hbuf : buf.length = 256) :
  copyBoundary buf boundary ≠ none ↔ boundary.length ≤ 251
  := by
  have hstart : strcpy buf 0 (crlf ++ ascii "--")
      = some ((crlf ++ ascii "--") ++ 0 :: buf.drop 5) := by
    have hcopy := strcpy_append (a := []) (b := buf) (s := crlf ++ ascii "--") (z := 0) rfl
      (by rw [hbuf]; decide)
    apply hcopy
  have hzero : (0 : UInt8) ∉ crlf ++ ascii "--" := by decide
  rw [copyBoundary, hstart, Option.bind_some]
  rcases Nat.lt_or_ge (buf.drop 5).length boundary.length with hlt | hle
  · rw [strcat_eq_none hzero hlt]
    rw [List.length_drop] at hlt
    simp only [ne_eq, not_true_eq_false, false_iff, not_le]
    omega
  · rw [strcat_append hzero hle]
    rw [List.length_drop] at hle
    simp
    omega

end Sizes

/-- **Buffers of a fixed size.**  Both arrays are large enough exactly if the first line of the dump
and the entries of the request have together at most 4095 bytes, and the boundary, when
`form_multipart` is called with one, has at most 251. -/
theorem buffers_fit_iff {loc : Locale} (r : Accepted loc) (threading : Bool) :
  r.BuffersFit threading
    ↔ (greeting threading).length + dumpSize loc r.answered ≤ 4095
      ∧ ∀ boundary, multipartBoundary loc r.posted = some boundary → boundary.length ≤ 251
  := by
  constructor
  · rintro ⟨hdump, hboundary⟩
    constructor
    · have hlen : (List.replicate 4096 (0 : UInt8)).length = 4096 := List.length_replicate
      apply (dumpRequest_ne_overflow_iff hlen r.answered).mp (hdump _ hlen)
    · intro boundary h
      have hlen : (List.replicate 256 (0 : UInt8)).length = 256 := List.length_replicate
      apply (copyBoundary_ne_none_iff hlen).mp (hboundary boundary h _ hlen)
  · rintro ⟨hdump, hboundary⟩
    exact {
      dump := fun buf hbuf => (dumpRequest_ne_overflow_iff hbuf r.answered).mpr hdump
      boundary := fun boundary h buf hbuf =>
        (copyBoundary_ne_none_iff hbuf).mpr (hboundary boundary h) }

/-! ### Header lines -/

section Lines

variable {loc : Locale}

/-- A header line with a colon takes as many bytes as its name and its value, and three more, when
the locale gives the bytes back. -/
theorem dumpSize_addHeader (hencode : ∀ s, (0 : UInt8) ∉ s → loc.encode (loc.decode s) = some s)
    {line name value : List UInt8} (hline : (0 : UInt8) ∉ line)
    (hcolon : CString.index line 58 = some (name, value)) (request : Scm) :
  dumpSize loc (addHeader loc request line)
    = name.length + (value.dropWhile isspace).length + 3 + dumpSize loc request
  := by
  obtain ⟨rfl, -⟩ := eq_of_index hcolon
  simp only [List.mem_append, List.mem_cons, not_or] at hline
  have hname : (0 : UInt8) ∉ name.map tolower := by
    intro hmem
    obtain ⟨c, hc, hzero⟩ := List.mem_map.mp hmem
    apply tolower_ne_zero _ hzero
    rintro rfl
    apply hline.1 hc
  have hvalue : (0 : UInt8) ∉ value.dropWhile isspace :=
    fun hmem => hline.2.2 ((List.dropWhile_suffix _).subset hmem)
  rw [addHeader, headerField, hcolon, Option.map_some]
  simp only
  rw [dumpSize_entry (s := name.map tolower) (v := value.dropWhile isspace), List.length_map]
  · rw [hencode _ hname, Option.map_some, cstr_of_not_mem hname]
  · rw [dumpValue, hencode _ hvalue, Option.map_some, cstr_of_not_mem hvalue]

end Lines

theorem le_dumpSize_acons {loc : Locale} {name : String} {value : Scm}
    (hname : loc.encode name.toList ≠ none) (hvalue : dumpValue loc value ≠ none) (node : Scm) :
  dumpSize loc node ≤ dumpSize loc (Scm.acons name value node)
  := by
  obtain ⟨s, hs⟩ := Option.ne_none_iff_exists'.mp hname
  obtain ⟨v, hv⟩ := Option.ne_none_iff_exists'.mp hvalue
  rw [Scm.acons, dumpSize_entry (congrArg (Option.map cstr) hs) hv]
  omega

/-- The header line with the name `a` and a value of `n` letters. -/
def longHeader (n : ℕ) : Line where
  bytes := 97 :: 58 :: List.replicate n 97
  line := by simp

theorem zero_notMem_longHeader (n : ℕ) :
  (0 : UInt8) ∉ (longHeader n).bytes
  := by
  simp [longHeader]

theorem headersRead_longHeader {n : ℕ} (hn : n + 4 ≤ lineSize) :
  headersRead [longHeader n] = [(longHeader n).bytes]
  := by
  have hcstr := cstr_of_not_mem (zero_notMem_longHeader n)
  have hlen : (longHeader n).bytes.length = n + 2 := by simp [longHeader]
  rw [headersRead, List.takeWhile_cons_of_pos, List.takeWhile_nil, List.map_singleton, hcstr]
  rw [hcstr, hlen]
  simpa [longHeader] using hn

/-- The line takes four bytes more than its letters. -/
theorem dumpSize_longHeader {loc : Locale}
    (hencode : ∀ s, (0 : UInt8) ∉ s → loc.encode (loc.decode s) = some s) (n : ℕ)
    (request : Scm) :
  dumpSize loc (addHeader loc request (longHeader n).bytes) = n + 4 + dumpSize loc request
  := by
  have hsplit : CString.index (longHeader n).bytes 58 = some ([97], List.replicate n 97) :=
    index_append (by decide : (58 : UInt8) ∉ [97])
  have hspace : (List.replicate n (97 : UInt8)).dropWhile isspace = List.replicate n 97 := by
    rw [List.dropWhile_replicate, if_neg (by decide)]
  rw [dumpSize_addHeader hencode (zero_notMem_longHeader n) hsplit, hspace, List.length_replicate,
    List.length_singleton]
  omega

/-- The entries in front of those of the header phase add to the size. -/
theorem le_dumpSize_answered (request : Scm) :
  dumpSize latin1 request
    ≤ dumpSize latin1 (addSession [] [] (addQuery .nil (addRemote latin1 [] 0 request)))
  := by
  calc dumpSize latin1 request
    _ ≤ dumpSize latin1 (addRemote latin1 [] 0 request) :=
        (le_dumpSize_acons (by decide) (by decide) _).trans
          (le_dumpSize_acons (by decide) (by decide) _)
    _ ≤ dumpSize latin1 (addQuery .nil (addRemote latin1 [] 0 request)) :=
        le_dumpSize_acons (by decide) (by decide) _
    _ ≤ dumpSize latin1 (addSession [] [] (addQuery .nil (addRemote latin1 [] 0 request))) :=
        (le_dumpSize_acons (by decide) (by decide) _).trans
          (le_dumpSize_acons (by decide) (by decide) _)

/-- A request for `/a` with a header line of 4082 bytes. -/
theorem long_header_overflows :
  ∃ r : Accepted latin1, r.stream = sent getA [longHeader 4080] [] ∧ ¬ r.BuffersFit false
  := by
  obtain ⟨rest, hbuilt⟩ := buildRequest_sent latin1 getA
    (show getA.bytes.length + 2 ≤ lineSize by decide) [longHeader 4080] []
  rw [headersRead_longHeader (by decide), List.foldl_cons, List.foldl_nil] at hbuilt
  refine ⟨⟨_, _, rest, hbuilt, [], 0, .nil, [], []⟩, rfl, ?_⟩
  intro hfit
  have hlen : (List.replicate 4096 (0 : UInt8)).length = 4096 := List.length_replicate
  have hgreeting : (greeting false).length = 23 := by decide
  have hheader := @dumpSize_longHeader latin1 (fun s hs => toLatin1_fromLatin1 hs) 4080
    (getA.fields latin1)
  have hentries := le_dumpSize_answered
    (addHeader latin1 (getA.fields latin1) (longHeader 4080).bytes)
  have hsize := (dumpRequest_ne_overflow_iff hlen _).mp (hfit.dump _ hlen)
  simp only [Accepted.answered, Accepted.posted] at hsize
  omega

end Gusher
