import Gusher.Request.MultipartText

/-!
# The memory that a multipart body takes

Parsing a body stays inside the memory where the body is mapped, and uses no null pointer, only
when the body has the form the code assumes, and what comes after the last delimiter is shorter
than a delimiter by more than the first line.  The windows that are scanned stick out by the length
of the first line, which the size of the window still counts.
-/

namespace Gusher

open CString

def headerLines (s : List UInt8) : List (List UInt8) :=
  match _h : splitLine s with
  | none => []
  | some (line, rest) => if stripCr line = [] then [] else stripCr line :: headerLines rest
  termination_by s.length
  decreasing_by
    obtain ⟨hs, -⟩ := eq_of_splitLine _h
    have hlen := congrArg List.length hs
    rw [List.length_append, List.length_cons] at hlen
    omega

/-- In a `content-disposition` line the quotes after the two parameters are closed. -/
def QuotesClosed (line : List UInt8) : Prop :=
  find line (ascii "content-disposition") = some 0 →
    ∀ needle ∈ [ascii "; name=\"", ascii "; filename=\""], ∀ p, find line needle = some p →
      2 ≤ (line.drop p).count 34

/-- Each delimiter is followed by the end of a line, before any NUL, the quotes of the parts are
closed, and what comes after the last delimiter, with the first line, is shorter than a
delimiter. -/
def PartsInside (rboundary : List UInt8) (first : ℕ) (rest : List UInt8) : Prop :=
  match Search.strstr rest rboundary with
  | none => first + rest.length < rboundary.length
  | some (chunk, _) =>
      match _h : splitLine (rest.drop (chunk.length + rboundary.length)) with
      | none => False
      | some (_, rest) =>
          (∀ line ∈ headerLines chunk, QuotesClosed line) ∧ PartsInside rboundary first rest
  termination_by rest.length
  decreasing_by
    have hlen := congrArg List.length (eq_of_splitLine _h).1
    rw [List.length_drop, List.length_append, List.length_cons] at hlen
    omega

/-- The body has a first line, and the parts after it have the form that the code assumes. -/
def BodyInside (rboundary body : List UInt8) : Prop :=
  ∃ line rest, splitLine body = some (line, rest) ∧ PartsInside rboundary (line.length + 1) rest

/-- The content type has no boundary, or it has one with a dash that is short enough for the array,
and nothing is mapped or the body has the form that the code assumes. -/
def MultipartInside (platform : Platform) (ctype body : List UInt8) : Prop :=
  ∀ x b, Search.strstr ctype (ascii "boundary=") = some (x, b) →
    ∃ y boundary, index b 45 = some (y, boundary) ∧ boundary.length < 251 ∧
      (platform.mmap body.length = true →
        BodyInside (crlf ++ ascii "--" ++ 45 :: boundary) body)

/-- Each window that `memscan` is given lies inside the body. -/
def WindowsInside (loc : Locale) (platform : Platform) (tmp : ℕ → List UInt8)
    (ctype body : List UInt8) : Prop :=
  ∀ rboundary, delimiter ctype = some (some rboundary) → platform.mmap body.length = true →
    ∀ s, firstParts body body.length = some s →
      ∀ t, Loop.Visits (partsRound loc tmp rboundary) s t → t.cursor + t.field ≤ body.length

/-- The content type has no boundary, or it has one with a dash that is short enough for the array,
and nothing is mapped. -/
def NothingMapped (platform : Platform) (ctype body : List UInt8) : Prop :=
  ∀ x b, Search.strstr ctype (ascii "boundary=") = some (x, b) →
    ∃ y boundary, index b 45 = some (y, boundary) ∧ boundary.length < 251 ∧
      platform.mmap body.length = false

/-! ### The quotes of a part -/

/-- The second occurrence of a byte is found when there are two. -/
theorem index_index_eq_none_iff {s : List UInt8} {c : UInt8} :
  (index s c).bind (fun r => index r.2 c) = none ↔ s.count c < 2
  := by
  cases hfirst : index s c with
  | none =>
      have hcount := List.count_eq_zero.mpr (notMem_of_index hfirst)
      simp [hcount]
  | some r =>
      obtain ⟨a, b⟩ := r
      obtain ⟨rfl, ha⟩ := eq_of_index hfirst
      have hcount := List.count_eq_zero.mpr ha
      rw [Option.bind_some, List.count_append, List.count_cons_self, hcount]
      cases hsecond : index b c with
      | none =>
          have hcount' := List.count_eq_zero.mpr (notMem_of_index hsecond)
          simp [hcount']
      | some r =>
          obtain ⟨a', b'⟩ := r
          obtain ⟨rfl, -⟩ := eq_of_index hsecond
          rw [List.count_append, List.count_cons_self]
          simp only [reduceCtorEq, false_iff]
          omega

/-- A parameter is read when its quotes are closed. -/
theorem parameterText_eq_none_iff {line needle : List UInt8} :
  parameterText line needle = none ↔ ∃ p, find line needle = some p ∧ (line.drop p).count 34 < 2
  := by
  unfold parameterText
  cases hfound : find line needle with
  | none => simp
  | some p =>
      have hiff := @index_index_eq_none_iff (line.drop p) 34
      simp only [Option.some.injEq, exists_eq_left', ← hiff]
      cases index (line.drop p) 34 with
      | none => simp
      | some r =>
          cases hsecond : index r.2 34 with
          | none => simp [hsecond]
          | some r' => simp [hsecond]

theorem parameterText_ne_none_iff {line needle : List UInt8} :
  parameterText line needle ≠ none ↔ ∀ p, find line needle = some p → 2 ≤ (line.drop p).count 34
  := by
  rw [Ne, parameterText_eq_none_iff, not_exists]
  simp only [not_and, Nat.not_lt]

/-- A header line is read when its quotes are closed. -/
theorem headerText_ne_none_iff {line : List UInt8} :
  headerText line ≠ none ↔ QuotesClosed line
  := by
  unfold headerText QuotesClosed
  split
  case isTrue hdisposition =>
      simp only [hdisposition, true_implies, List.forall_mem_cons, List.not_mem_nil, false_implies,
        implies_true, and_true, ← parameterText_ne_none_iff]
      cases parameterText line (ascii "; name=\"") with
      | none => simp
      | some name =>
          cases parameterText line (ascii "; filename=\"") with
          | none => simp
          | some filename => simp
  case isFalse hother => simp [hother]

/-- A part is read when the quotes in its header lines are closed. -/
theorem chunkText_ne_none_iff {loc : Locale} {s : List UInt8} {key origFile : Scm} :
  chunkText loc s key origFile ≠ none ↔ ∀ line ∈ headerLines s, QuotesClosed line
  := by
  induction s using headerLines.induct generalizing key origFile with
  | case1 s hnone =>
      rw [chunkText_of_none hnone, headerLines]
      split <;> simp_all
  | case2 s line rest hsome hempty =>
      rw [chunkText_of_some hsome, if_pos hempty, headerLines]
      split <;> simp_all
  | case3 s line rest hsome hne ih =>
      have hlines : headerLines s = stripCr line :: headerLines rest := by
        rw [headerLines]
        split <;> simp_all
      rw [chunkText_of_some hsome, if_neg hne, hlines, List.forall_mem_cons, ← headerText_ne_none_iff]
      cases headerText (stripCr line) with
      | none => simp
      | some v =>
          rw [Option.bind_some, ih]
          simp

theorem partText_ne_none_iff {loc : Locale} {path s : List UInt8} :
  partText loc path s ≠ none ↔ ∀ line ∈ headerLines s, QuotesClosed line
  := by
  rw [partText, Ne, Option.map_eq_none_iff]
  exact chunkText_ne_none_iff

/-! ### The body -/

theorem partsInside_of_none {rboundary rest : List UInt8} {first : ℕ}
    (h : Search.strstr rest rboundary = none) :
  PartsInside rboundary first rest ↔ first + rest.length < rboundary.length
  := by
  rw [PartsInside, h]

theorem partsInside_of_some {rboundary rest chunk y : List UInt8} {first : ℕ}
    (h : Search.strstr rest rboundary = some (chunk, y)) :
  PartsInside rboundary first rest
    ↔ ∃ v, splitLine (rest.drop (chunk.length + rboundary.length)) = some v ∧
      (∀ line ∈ headerLines chunk, QuotesClosed line) ∧ PartsInside rboundary first v.2
  := by
  rw [PartsInside, h]
  dsimp only
  split
  case h_1 hnone => simp [hnone]
  case h_2 line rest' hsome => simp [hsome]

/-- What is left of the body is read when it has the form that the code assumes. -/
theorem partsText_ne_none_iff {loc : Locale} {tmp : ℕ → List UInt8} {rboundary rest : List UInt8}
    {first field : ℕ} {query : Scm} {files : List (List UInt8 × List UInt8)} (hfirst : 0 < first)
    (hfield : field = first + rest.length) (hsize : field < 2 ^ 64) :
  partsText loc tmp rboundary field rest query files ≠ none ↔ PartsInside rboundary first rest
  := by
  induction hlen : rest.length using Nat.strongRecOn generalizing rest field query files with
  | ind n ih =>
      have htake : rest.take field = rest := List.take_of_length_le (by omega)
      cases hfound : Search.strstr rest rboundary with
      | none =>
          rw [partsText_of_none (by rw [htake, hfound]), partsInside_of_none hfound]
          split
          case isTrue hstick =>
              simp only [ne_eq, not_true, false_iff]
              omega
          case isFalse hinside =>
              simp only [ne_eq, reduceCtorEq, not_false_iff, true_iff]
              omega
      | some r =>
          obtain ⟨chunk, y⟩ := r
          rw [partsText_of_some (by rw [htake, hfound]), partsInside_of_some hfound,
            ← @partText_ne_none_iff loc (tmp files.length)]
          cases partText loc (tmp files.length) chunk with
          | none => simp
          | some part =>
              cases hline : splitLine (rest.drop (chunk.length + rboundary.length)) with
              | none => simp
              | some v =>
                  obtain ⟨line, rest'⟩ := v
                  have hsplit := congrArg List.length (eq_of_splitLine hline).1
                  rw [List.length_drop, List.length_append, List.length_cons] at hsplit
                  have hcount : sizeT (field
                      - (chunk.length + rboundary.length + line.length + 1 : ℕ))
                      = first + rest'.length := by
                    unfold sizeT
                    omega
                  simp only [Option.bind_some, hcount]
                  rw [ih rest'.length (by omega) rfl (by omega) rfl]
                  simp

/-- A body that is mapped is read when it has the form that the code assumes. -/
theorem parseMap_ne_none_iff {loc : Locale} {tmp : ℕ → List UInt8} {rboundary body : List UInt8}
    (hboundary : rboundary ≠ []) (hbody : body.length < 2 ^ 63) :
  parseMap loc tmp rboundary body body.length ≠ none ↔ BodyInside rboundary body
  := by
  rw [parseMap_eq body.length hboundary hbody, BodyInside]
  cases hline : splitLine body with
  | none => simp
  | some v =>
      obtain ⟨line, rest⟩ := v
      have hsplit := congrArg List.length (eq_of_splitLine hline).1
      rw [List.length_append, List.length_cons] at hsplit
      have hfield : body.length = (line.length + 1) + rest.length := by omega
      rw [Option.bind_some]
      dsimp only
      rw [partsText_ne_none_iff (Nat.succ_pos line.length) hfield (by omega)]
      simp

theorem lt_of_mmap {platform : Platform} {n : ℕ} (h : platform.mmap n = true) :
  n < 2 ^ 63
  := by
  by_contra hle
  rw [platform.mmap_huge (Nat.not_lt.mp hle)] at h
  cases h

/-- The delimiter that a boundary makes. -/
theorem delimiter_of_index {ctype x b y boundary : List UInt8}
    (hb : Search.strstr ctype (ascii "boundary=") = some (x, b))
    (hy : index b 45 = some (y, boundary)) :
  delimiter ctype
    = if boundary.length < 251 then some (some (crlf ++ ascii "--" ++ 45 :: boundary)) else none
  := by
  have hlen : (crlf ++ ascii "--" ++ 45 :: boundary).length = boundary.length + 5 := by
    simp [crlf, ascii]
  have hiff : (crlf ++ ascii "--" ++ 45 :: boundary).length < 256 ↔ boundary.length < 251 := by
    rw [hlen]
    omega
  rw [delimiter, hb]
  simp only [hy, hiff]

/-- The first window sticks out of the body. -/
theorem not_windowsInside {loc : Locale} {platform : Platform} {tmp : ℕ → List UInt8}
    {ctype body rboundary : List UInt8} (hdelimiter : delimiter ctype = some (some rboundary))
    (hmap : platform.mmap body.length = true)
    (hparse : parseMap loc tmp rboundary body body.length ≠ none) :
  ¬ WindowsInside loc platform tmp ctype body
  := by
  intro h
  cases hfirst : firstParts body body.length with
  | none =>
      rw [parseMap, hfirst] at hparse
      exact hparse rfl
  | some s =>
      have hle := h rboundary hdelimiter hmap s hfirst s .start
      unfold firstParts at hfirst
      split at hfirst
      case h_1 =>
          obtain rfl := Option.some.inj hfirst
          dsimp only at hle
          omega
      case h_2 => cases hfirst

/-- For every content type and every body: parsing the body stays inside the memory where it is
mapped, and uses no null pointer, exactly when the body has the form that the code assumes.  The
windows that are scanned lie inside, too, only when nothing is mapped. -/
theorem multipart_inside_iff (loc : Locale) (platform : Platform) (tmp : ℕ → List UInt8)
    (ctype body : List UInt8) :
  (formMultipart loc platform tmp ctype body 0 ≠ none ↔ MultipartInside platform ctype body) ∧
  (formMultipart loc platform tmp ctype body 0 ≠ none ∧
      WindowsInside loc platform tmp ctype body ↔ NothingMapped platform ctype body)
  := by
  unfold MultipartInside NothingMapped formMultipart
  cases hb : Search.strstr ctype (ascii "boundary=") with
  | none =>
      have hdelimiter : delimiter ctype = some none := by rw [delimiter, hb]
      have hwindows : WindowsInside loc platform tmp ctype body := by
        intro rboundary h
        rw [hdelimiter] at h
        cases h
      simp [hdelimiter, hwindows]
  | some r =>
      obtain ⟨x, b⟩ := r
      cases hy : index b 45 with
      | none =>
          have hdelimiter : delimiter ctype = none := by
            rw [delimiter, hb]
            simp only [hy]
          simp [hdelimiter, hy]
      | some r =>
          obtain ⟨y, boundary⟩ := r
          have hdelimiter := delimiter_of_index hb hy
          by_cases hlen : boundary.length < 251
          · rw [if_pos hlen] at hdelimiter
            rw [hdelimiter]
            dsimp only
            cases hmap : platform.mmap body.length with
            | true =>
                have hparse := @parseMap_ne_none_iff loc tmp (crlf ++ ascii "--" ++ 45 :: boundary)
                  body (by simp) (lt_of_mmap hmap)
                rw [if_pos rfl, List.replicate_zero, List.append_nil, hparse]
                constructor
                · simp [hy, hlen]
                · constructor
                  · rintro ⟨hinside, hwindows⟩
                    exact absurd hwindows (not_windowsInside hdelimiter hmap (hparse.mpr hinside))
                  · intro hnothing
                    obtain ⟨_, _, _, _, hfalse⟩ := hnothing x b rfl
                    cases hfalse
            | false =>
                have hwindows : WindowsInside loc platform tmp ctype body := by
                  intro rboundary _ h
                  rw [hmap] at h
                  cases h
                simp [hy, hlen, hwindows]
          · rw [if_neg hlen] at hdelimiter
            simp [hdelimiter, hy, hlen]

/-- A form with one field, as a browser sends it, is scanned past its end; and in a body without a
newline the null pointer is used. -/
theorem multipart_leaves_body :
  formMultipart latin1 .generous (List.replicate · 97) (ascii "multipart/form-data; boundary=-x")
    (ascii "---x" ++ crlf ++ ascii "Content-Disposition: form-data; name=\"a\"" ++ crlf ++ crlf
      ++ ascii "v" ++ crlf ++ ascii "---x--" ++ crlf) 0 = none ∧
  formMultipart latin1 .generous (List.replicate · 97) (ascii "multipart/form-data; boundary=-x")
    (ascii "v") 0 = none
  := by
  have hdelimiter : delimiter (ascii "multipart/form-data; boundary=-x")
      = some (some (crlf ++ ascii "---x")) := by decide
  have hempty : ¬ PartsInside (crlf ++ ascii "---x") 6 [] := by
    rw [partsInside_of_none rfl]
    decide
  constructor
  · rw [formMultipart, hdelimiter]
    dsimp only
    rw [if_pos (by decide), List.replicate_zero, List.append_nil]
    by_contra hparse
    obtain ⟨line, rest, hline, hparts⟩ := (parseMap_ne_none_iff (by decide) (by decide)).mp hparse
    have hfirst : splitLine (ascii "---x" ++ crlf ++ ascii "Content-Disposition: form-data; name=\"a\""
        ++ crlf ++ crlf ++ ascii "v" ++ crlf ++ ascii "---x--" ++ crlf)
        = some (ascii "---x\r", ascii "Content-Disposition: form-data; name=\"a\"" ++ crlf ++ crlf
          ++ ascii "v" ++ crlf ++ ascii "---x--" ++ crlf) := by decide
    rw [hfirst] at hline
    obtain ⟨rfl, rfl⟩ := Prod.mk.inj (Option.some.inj hline)
    have hfound : Search.strstr (ascii "Content-Disposition: form-data; name=\"a\"" ++ crlf ++ crlf
        ++ ascii "v" ++ crlf ++ ascii "---x--" ++ crlf) (crlf ++ ascii "---x")
        = some (ascii "Content-Disposition: form-data; name=\"a\"" ++ crlf ++ crlf ++ ascii "v",
          crlf ++ ascii "---x--" ++ crlf) := by decide
    obtain ⟨v, hv, -, hrest⟩ := (partsInside_of_some hfound).mp hparts
    have hlast : splitLine (List.drop ((ascii "Content-Disposition: form-data; name=\"a\"" ++ crlf
        ++ crlf ++ ascii "v").length + (crlf ++ ascii "---x").length)
        (ascii "Content-Disposition: form-data; name=\"a\"" ++ crlf ++ crlf ++ ascii "v" ++ crlf
          ++ ascii "---x--" ++ crlf)) = some (ascii "--\r", []) := by decide
    rw [hlast] at hv
    obtain rfl := Option.some.inj hv
    exact hempty hrest
  · rw [formMultipart, hdelimiter]
    dsimp only
    rw [if_pos (by decide), List.replicate_zero, List.append_nil]
    by_contra hparse
    obtain ⟨line, rest, hline, -⟩ := (parseMap_ne_none_iff (by decide) (by decide)).mp hparse
    cases hline

end Gusher
