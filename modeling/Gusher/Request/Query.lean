import Gusher.Scheme.Object

/-!
# Queries and handlers

The query string is parsed in place: the separators are overwritten with NULs, and each value
is decoded where it stands.  A position is an index into the buffer, and a read beyond the
buffer makes the result `none`.

The handler of a request is the first of the table whose path is a prefix of `url-path`.
-/

namespace Gusher

open CString

/-- `index(&m[i], c)`: the first position of `c` from `i` on, before the NUL. -/
def indexFrom (m : List UInt8) (i : ℕ) (c : UInt8) : Option ℕ :=
  let s := cstr (m.drop i)
  if c ∈ s then some (i + s.idxOf c) else none

/-- A position found lies in the buffer, and not before the start of the search. -/
theorem le_and_lt_of_indexFrom {m : List UInt8} {i p : ℕ} {c : UInt8}
    (h : indexFrom m i c = some p) :
  i ≤ p ∧ p < m.length
  := by
  unfold indexFrom at h
  dsimp only at h
  split at h
  case isFalse => cases h
  case isTrue hc =>
      have hidx := List.idxOf_lt_length_iff.mpr hc
      have hle : (cstr (m.drop i)).length ≤ (m.drop i).length :=
        (List.takeWhile_sublist _).length_le
      rw [List.length_drop] at hle
      obtain rfl := Option.some.inj h
      omega

/-- The value of a hexadecimal digit, as `decode_hex` computes it for any byte. -/
def hexValue (c : UInt8) : UInt8 :=
  if isalpha c then toupper c - 65 + 10 else c - 48

def decodeHex (c d : UInt8) : UInt8 :=
  hexValue c <<< 4 ||| hexValue d

/-- `decode_query`, where `get` and `put` stand. -/
def decodeQuery (buf : List UInt8) (get put : ℕ) : Option (List UInt8) :=
  match _h : buf[get]? with
  | none => none
  | some c =>
      if c = 0 then some (buf.set put 0)
      else if c = 43 then decodeQuery (buf.set put 32) (get + 1) (put + 1)
      else if c = 37 ∧ isxdigit (buf.getD (get + 1) 0) then
        -- the position after the two digits may lie beyond the terminator
        decodeQuery (buf.set put (decodeHex (buf.getD (get + 1) 0) (buf.getD (get + 2) 0)))
          (get + 3) (put + 1)
      else decodeQuery (buf.set put c) (get + 1) (put + 1)
  termination_by buf.length - get
  decreasing_by
    all_goals
      have := (List.getElem?_eq_some_iff.mp _h).1
      rw [List.length_set]
      omega

/-- Decoding in place keeps the length of the buffer. -/
theorem length_decodeQuery {buf buf' : List UInt8} {get put : ℕ}
    (h : decodeQuery buf get put = some buf') :
  buf'.length = buf.length
  := by
  revert h
  fun_induction decodeQuery buf get put with
  | case1 => rintro ⟨⟩
  | case2 =>
      rintro ⟨⟩
      apply List.length_set
  | case3 buf get put _ _ ih =>
      intro h
      rw [ih h, List.length_set]
  | case4 buf get put c _ _ _ _ ih =>
      intro h
      rw [ih h, List.length_set]
  | case5 buf get put c _ _ _ _ ih =>
      intro h
      rw [ih h, List.length_set]

/-- One parameter of `parse_query`: the entry that starts at `mark`, if it has a `=`. -/
def parseParameter (loc : Locale) (buf : List UInt8) (mark : ℕ) (list : Scm) :
    Option (List UInt8 × Scm) :=
  match indexFrom buf mark 61 with
  | none => some (buf, list)
  | some eq =>
      let buf := buf.set eq 0
      (decodeQuery buf (eq + 1) (eq + 1)).map (fun buf' =>
        (buf', .pair (.pair (loc.makesym (cstr (buf.drop mark)))
          (.str (fromLatin1 (cstr (buf'.drop (eq + 1)))))) list))

/-- Parsing a parameter keeps the length of the buffer. -/
theorem length_parseParameter {loc : Locale} {buf buf' : List UInt8} {mark : ℕ}
    {list list' : Scm} (h : parseParameter loc buf mark list = some (buf', list')) :
  buf'.length = buf.length
  := by
  unfold parseParameter at h
  split at h
  case h_1 =>
      cases h
      rfl
  case h_2 eq heq =>
      obtain ⟨b, hb, hpair⟩ := Option.map_eq_some_iff.mp h
      cases hpair
      rw [length_decodeQuery hb, List.length_set]

/-- `parse_query` from the position `mark` on. -/
def parseQuery (loc : Locale) (buf : List UInt8) (mark : ℕ) (list : Scm) : Option Scm :=
  match _hnext : indexFrom buf mark 38 with
  | none => (parseParameter loc buf mark list).map Prod.snd
  | some amp =>
      match _hparam : parseParameter loc (buf.set amp 0) mark list with
      | none => none
      | some (buf', list') => parseQuery loc buf' (amp + 1) list'
  termination_by buf.length - mark
  decreasing_by
    have hamp := le_and_lt_of_indexFrom _hnext
    have hlen := length_parseParameter _hparam
    rw [List.length_set] at hlen
    omega

/-- `get_in`: `#f` when the request has no query string; `none` when the string cannot be
encoded, or the parser leaves the buffer. -/
def getIn (loc : Locale) (request : Scm) : Option Scm :=
  let qstring := request.assqRef "query-string".toList
  if qstring = .bool false then some (.bool false)
  else (loc.toLocaleString qstring).bind (fun s => parseQuery loc (s ++ [0]) 0 .nil)

/-- The test of `post_in` that the request is a POST. -/
def isPost (request : Scm) : Bool :=
  request.assqRef "method".toList = .symbol "post".toList

/-- An entry of the table of handlers. -/
structure HandlerEntry where
  path : List UInt8
  handler : Scm
  deriving DecidableEq

/-- The loop of `find_handler`: the first entry whose path is a prefix, with the rest of the
path. -/
def firstHandler (loc : Locale) (spath : List UInt8) : List HandlerEntry → Scm
  | [] => .bool false
  | pt :: handlers =>
      if pt.path <+: spath then
        .pair pt.handler (.str (loc.decode (spath.drop pt.path.length)))
      else firstHandler loc spath handlers

/-- `find_handler`; `none` when the path cannot be encoded. -/
def findHandler (loc : Locale) (handlers : List HandlerEntry) (request : Scm) : Option Scm :=
  let path := request.assqRef "url-path".toList
  if path = .bool false then some (.bool false)
  else (loc.toLocaleString path).map (fun spath => firstHandler loc spath handlers)

end Gusher
