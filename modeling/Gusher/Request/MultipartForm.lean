import Gusher.Request.MultipartText
import Gusher.Scheme.Utf8

/-!
# Decoding the forms that browsers send

A form is a list of parts.  Each is sent after a line with the boundary, as a header line with its
name, and its file name if it has one, perhaps a line with its type, an empty line, and its
content.  The decoder gives the parts back, when the content does not look like a delimiter and the
name does not look like the beginning of the parameter `filename`.
-/

namespace Gusher

open CString

/-- A part of a form, with the bytes of its name and of the other values that it has. -/
structure Part where
  name : List UInt8
  filename : Option (List UInt8)
  mediaType : Option (List UInt8)
  content : List UInt8

/-- The parameter `filename`. -/
def Part.filenameText (p : Part) : List UInt8 :=
  match p.filename with
  | none => []
  | some f => ascii "; filename=\"" ++ f ++ [34]

/-- The header line with the name of the part. -/
def Part.disposition (p : Part) : List UInt8 :=
  ascii "Content-Disposition: form-data; name=\"" ++ p.name ++ 34 :: p.filenameText

def Part.typeText (p : Part) : List UInt8 :=
  match p.mediaType with
  | none => []
  | some t => ascii "Content-Type: " ++ t ++ crlf

/-- The header lines, the empty line, and the content. -/
def Part.encode (p : Part) : List UInt8 :=
  p.disposition ++ crlf ++ p.typeText ++ crlf ++ p.content

/-- A form, from the line with the boundary on. -/
def encodeForm (boundary : List UInt8) : List Part → List UInt8
  | [] => ascii "--" ++ boundary ++ ascii "--" ++ crlf
  | p :: ps => ascii "--" ++ boundary ++ crlf ++ p.encode ++ crlf ++ encodeForm boundary ps

/-- Bytes that stand between quotes. -/
def Quotable (s : List UInt8) : Prop :=
  (34 : UInt8) ∉ s ∧ (13 : UInt8) ∉ s ∧ (10 : UInt8) ∉ s ∧ (0 : UInt8) ∉ s

/-- A boundary is a string that starts with a dash, has no space in it, and is short enough. -/
structure IsBoundary (boundary : List UInt8) : Prop where
  dash : ∃ b, boundary = 45 :: b
  no_space : ∀ c ∈ boundary, isspace c = false
  no_nul : (0 : UInt8) ∉ boundary
  short : boundary.length < 250

/-- What the decoder needs to know about a part. -/
structure Part.Sendable (boundary : List UInt8) (p : Part) : Prop where
  name : Quotable p.name
  filename : ∀ f ∈ p.filename, Quotable f
  mediaType : ∀ t ∈ p.mediaType, (13 : UInt8) ∉ t ∧ (10 : UInt8) ∉ t ∧ (0 : UInt8) ∉ t
  /-- the name does not look like the beginning of `filename` -/
  name_end : find (p.name ++ [34]) (ascii "; filename=\"") = none
  /-- the content, with the end of the line before it, has no delimiter in it -/
  content : ¬ crlf ++ ascii "--" ++ boundary <:+: crlf ++ p.content

/-- The query, and the files that are made, with one more part. -/
def addPart (loc : Locale) (tmp : ℕ → List UInt8) (r : Scm × List (List UInt8 × List UInt8))
    (p : Part) : Scm × List (List UInt8 × List UInt8) :=
  match p.filename with
  | none => (.pair (.pair (loc.makesym p.name) (.str (safeFromUtf8 p.content))) r.1, r.2)
  | some f =>
      (.pair (.pair (loc.makesym p.name)
          (.pair (.str (loc.decode (tmp r.2.length))) (.str (loc.decode f)))) r.1,
        r.2 ++ [(tmp r.2.length, p.content)])

/-! ### The header lines -/

/-- A text that agrees with what is left of the needle is found. -/
theorem findFrom_append {needle x rest : List UInt8} (h : x.map toupper = rest.map toupper)
    (s : List UInt8) (i : ℕ) (hne : rest ≠ []) (anchor : Option ℕ) :
  findFrom needle (x ++ s) rest i anchor = some (anchor.getD i)
  := by
  induction rest generalizing x i anchor with
  | nil => exact absurd rfl hne
  | cons d rest ih =>
      cases x with
      | nil => cases h
      | cons c x =>
          rw [List.map_cons, List.map_cons] at h
          obtain ⟨hcd, hrest⟩ := List.cons.inj h
          rw [List.cons_append, findFrom, if_neg (not_not.mpr hcd)]
          cases rest with
          | nil => rw [findFrom]
          | cons d' rest =>
              rw [ih hrest (i + 1) (List.cons_ne_nil d' rest)]
              rfl

/-- When the search does not find the needle, which ends with a quote, in a name and the quote after
it, it starts again after the quote. -/
theorem findFrom_name {w u name : List UInt8} {i j : ℕ} {a a' : Option ℕ} (hw : (34 : UInt8) ∉ w)
    (hu : (34 : UInt8) ∉ u) (hname : (34 : UInt8) ∉ name)
    (h : findFrom (w ++ [34]) (name ++ [34]) (u ++ [34]) i a = none) (s : List UInt8) :
  findFrom (w ++ [34]) (name ++ 34 :: s) (u ++ [34]) j a'
    = findFrom (w ++ [34]) s (w ++ [34]) (j + name.length + 1) none
  := by
  induction name generalizing u i j a a' with
  | nil =>
      cases u with
      | nil =>
          simp only [List.nil_append] at h
          rw [findFrom, if_neg (not_not.mpr rfl), findFrom] at h
          cases h
      | cons d u =>
          have hne : toupper 34 ≠ toupper d := by
            intro heq
            apply hu
            rw [eq_of_toupper_eq (by decide) heq.symm]
            exact List.mem_cons_self
          rw [List.nil_append, List.cons_append, findFrom, if_pos hne, List.length_nil, Nat.add_zero]
  | cons c name ih =>
      simp only [List.mem_cons, not_or] at hname
      obtain ⟨hc, hname⟩ := hname
      have hposition : j + (c :: name).length + 1 = j + 1 + name.length + 1 := by
        rw [List.length_cons]
        omega
      rw [hposition]
      cases u with
      | nil =>
          have hne : toupper c ≠ toupper 34 := fun heq => hc (eq_of_toupper_eq (by decide) heq).symm
          rw [List.cons_append, List.nil_append, findFrom, if_pos hne] at h ⊢
          exact ih hw hname h
      | cons d u =>
          rw [List.cons_append, List.cons_append, findFrom] at h ⊢
          split
          case isTrue hne =>
              rw [if_pos hne] at h
              exact ih hw hname h
          case isFalse heq =>
              rw [if_neg heq] at h
              exact ih (fun hmem => hu (List.mem_cons_of_mem d hmem)) hname h

variable {p : Part} {boundary : List UInt8}

theorem disposition_eq (p : Part) :
  p.disposition = ascii "Content-Disposition: form-data" ++ (ascii "; name=\""
    ++ (p.name ++ 34 :: p.filenameText))
  := by
  have hline : ascii "Content-Disposition: form-data; name=\""
      = ascii "Content-Disposition: form-data" ++ ascii "; name=\"" := rfl
  rw [Part.disposition, hline]
  simp

theorem parameterText_of_find {line x value y needle : List UInt8} {i : ℕ}
    (hfind : find line needle = some i) (hdrop : line.drop i = x ++ 34 :: (value ++ 34 :: y))
    (hx : (34 : UInt8) ∉ x) (hvalue : (34 : UInt8) ∉ value) :
  parameterText line needle = some (some value)
  := by
  simp [parameterText, hfind, hdrop, index_append hx, index_append hvalue]

/-- The name of a part is read. -/
theorem parameterText_name (hname : Quotable p.name) :
  parameterText p.disposition (ascii "; name=\"") = some (some p.name)
  := by
  have hskip : ∀ t, findFrom (ascii "; name=\"") (ascii "Content-Disposition: form-data" ++ t)
      (ascii "; name=\"") 0 (some 0)
      = findFrom (ascii "; name=\"") t (ascii "; name=\"") 30 none := fun _ => rfl
  have hfind : find p.disposition (ascii "; name=\"") = some 30 := by
    rw [find, disposition_eq, hskip, findFrom_append rfl _ _ (by decide)]
    rfl
  have hdrop : p.disposition.drop 30
      = ascii "; name=" ++ 34 :: (p.name ++ 34 :: p.filenameText) := by
    rw [disposition_eq]
    rfl
  exact parameterText_of_find hfind hdrop (by decide) hname.1

/-- The search for the file name goes through the name. -/
theorem find_filename (hname : Quotable p.name)
    (hend : find (p.name ++ [34]) (ascii "; filename=\"") = none) :
  find p.disposition (ascii "; filename=\"")
    = findFrom (ascii "; filename=\"") p.filenameText (ascii "; filename=\"")
        (38 + p.name.length + 1) none
  := by
  have hskip : ∀ t, findFrom (ascii "; filename=\"")
      (ascii "Content-Disposition: form-data; name=\"" ++ t) (ascii "; filename=\"") 0 (some 0)
      = findFrom (ascii "; filename=\"") t (ascii "; filename=\"") 38 none := fun _ => rfl
  rw [find, Part.disposition, List.append_assoc, hskip]
  exact @findFrom_name (ascii "; filename=") (ascii "; filename=") p.name 0 38 (some 0) none
    (by decide) (by decide) hname.1 hend p.filenameText

/-- The file name of a part is read, if it has one. -/
theorem parameterText_filename (h : p.Sendable boundary) :
  parameterText p.disposition (ascii "; filename=\"") = some p.filename
  := by
  have hfind := find_filename h.name h.name_end
  cases hfilename : p.filename with
  | none =>
      have htext : p.filenameText = [] := by rw [Part.filenameText, hfilename]
      rw [htext] at hfind
      have hnone : find p.disposition (ascii "; filename=\"") = none := hfind
      rw [parameterText, hnone]
  | some f =>
      have htext : p.filenameText = ascii "; filename=\"" ++ (f ++ [34]) := by
        simp [Part.filenameText, hfilename]
      rw [htext, findFrom_append rfl _ _ (by decide), Option.getD_none] at hfind
      have hdrop : p.disposition.drop (38 + p.name.length + 1)
          = ascii "; filename=" ++ 34 :: (f ++ 34 :: []) := by
        have hsplit : p.disposition = (ascii "Content-Disposition: form-data; name=\"" ++ p.name
            ++ [34]) ++ p.filenameText := by simp [Part.disposition]
        have hlen : (ascii "Content-Disposition: form-data; name=\"" ++ p.name ++ [34]).length
            = 38 + p.name.length + 1 := by
          rw [List.length_append, List.length_append]
          rfl
        rw [hsplit, ← hlen, List.drop_left, htext]
        rfl
      exact parameterText_of_find hfind hdrop (by decide) (h.filename f hfilename).1

/-- The line with the name of a part is read. -/
theorem headerText_disposition (h : p.Sendable boundary) :
  headerText p.disposition = some (some p.name, p.filename)
  := by
  have hstart : ∀ t, find (ascii "Content-Disposition: form-data" ++ t)
      (ascii "content-disposition") = some 0 := fun _ => rfl
  have hfind : find p.disposition (ascii "content-disposition") = some 0 := by
    rw [disposition_eq, hstart]
  rw [headerText, if_pos hfind, parameterText_name h.name, parameterText_filename h]
  rfl

/-- The line with the type of a part gives nothing. -/
theorem headerText_type (t : List UInt8) :
  headerText (ascii "Content-Type: " ++ t) = some (none, none)
  := by
  rw [headerText, if_neg]
  · rfl
  · intro hfind
    obtain ⟨u, z, v, hsplit, hu, hz⟩ := exists_of_find hfind
    obtain rfl := List.eq_nil_of_length_eq_zero hu.symm
    have htake := congrArg (fun s => (s.map toupper).take 9) hsplit
    rw [List.nil_append, List.map_append, List.map_append, hz] at htake
    have hcase : ascii "CONTENT-T" = ascii "CONTENT-D" := htake
    exact absurd hcase (by decide)

/-! ### The lines of a part -/

/-- A line that ends as lines do in network protocols. -/
theorem chunkText_line {loc : Locale} {line : List UInt8} (rest : List UInt8) {key origFile : Scm}
    (hne : line ≠ []) (hnewline : (10 : UInt8) ∉ line) (hnul : (0 : UInt8) ∉ line) :
  chunkText loc (line ++ crlf ++ rest) key origFile
    = (headerText line).bind (fun v =>
        chunkText loc rest (keyAfter loc key v.1) (fileAfter loc origFile v.2))
  := by
  have hsplit : line ++ crlf ++ rest = (line ++ [13]) ++ 10 :: rest := by simp [crlf]
  have hline : splitLine (line ++ crlf ++ rest) = some (line ++ [13], rest) := by
    rw [hsplit]
    apply splitLine_append
    · simpa using hnewline
    · simpa using hnul
  have hstrip : stripCr (line ++ [13]) = line := by simp [stripCr]
  rw [chunkText_of_some hline, hstrip, if_neg hne]

theorem chunkText_empty {loc : Locale} (rest : List UInt8) {key origFile : Scm} :
  chunkText loc (crlf ++ rest) key origFile = some (key, origFile, rest)
  := by
  have hline : splitLine (crlf ++ rest) = some ([13], rest) :=
    @splitLine_append [13] rest (by decide) (by decide)
  have hempty : stripCr [13] = [] := rfl
  rw [chunkText_of_some hline, if_pos hempty]

/-- The line with the name has no byte that would end it, or that could start a delimiter. -/
theorem notMem_disposition (h : p.Sendable boundary) {c : UInt8} (hc : c = 13 ∨ c = 10 ∨ c = 0) :
  c ∉ p.disposition
  := by
  have hstart : c ∉ ascii "Content-Disposition: form-data; name=\"" := by
    obtain rfl | rfl | rfl := hc <;> decide
  have hname : c ∉ p.name := by
    obtain ⟨-, hcr, hlf, hnul⟩ := h.name
    obtain rfl | rfl | rfl := hc
    · exact hcr
    · exact hlf
    · exact hnul
  have hquote : c ≠ 34 := by
    obtain rfl | rfl | rfl := hc <;> decide
  have hfilename : c ∉ p.filenameText := by
    unfold Part.filenameText
    cases hf : p.filename with
    | none => simp
    | some f =>
        obtain ⟨-, hcr, hlf, hnul⟩ := h.filename f hf
        have hkey : c ∉ ascii "; filename=\"" := by
          obtain rfl | rfl | rfl := hc <;> decide
        have hvalue : c ∉ f := by
          obtain rfl | rfl | rfl := hc
          · exact hcr
          · exact hlf
          · exact hnul
        simp [hkey, hvalue, hquote]
  simp [Part.disposition, hstart, hname, hquote, hfilename]

/-- The key and the file name of a part are read, and what is left is its content. -/
theorem chunkText_encode (loc : Locale) (h : p.Sendable boundary) :
  chunkText loc p.encode .nil .nil
    = some (loc.makesym p.name, fileAfter loc .nil p.filename, p.content)
  := by
  have hne : p.disposition ≠ [] := by simp [Part.disposition, ascii]
  have hencode : p.encode = p.disposition ++ crlf ++ (p.typeText ++ (crlf ++ p.content)) := by
    simp [Part.encode]
  rw [hencode, chunkText_line _ hne (notMem_disposition h (by simp)) (notMem_disposition h (by simp)),
    headerText_disposition h, Option.bind_some]
  cases htype : p.mediaType with
  | none =>
      have htext : p.typeText = [] := by rw [Part.typeText, htype]
      rw [htext, List.nil_append, chunkText_empty]
      rfl
  | some t =>
      have htext : p.typeText = ascii "Content-Type: " ++ t ++ crlf := by rw [Part.typeText, htype]
      obtain ⟨-, hlf, hnul⟩ := h.mediaType t htype
      have hline : ∀ c : UInt8, c = 10 ∨ c = 0 → c ∉ ascii "Content-Type: " := by
        rintro c (rfl | rfl) <;> decide
      rw [htext, chunkText_line, headerText_type, Option.bind_some, chunkText_empty]
      · rfl
      · simp [ascii]
      · simp [hline 10 (by simp), hlf]
      · simp [hline 0 (by simp), hnul]

/-- A part is read. -/
theorem partText_encode (loc : Locale) (tmp : ℕ → List UInt8) (h : p.Sendable boundary)
    (query : Scm) (files : List (List UInt8 × List UInt8)) :
  ∃ entry file, partText loc (tmp files.length) p.encode = some (entry, file) ∧
    (Scm.pair entry query, files ++ file.toList.map (fun content => (tmp files.length, content)))
      = addPart loc tmp (query, files) p
  := by
  rw [partText, chunkText_encode loc h, Option.map_some, addPart]
  cases p.filename with
  | none => exact ⟨_, _, rfl, by simp⟩
  | some f => exact ⟨_, _, rfl, by simp [fileAfter]⟩

/-! ### The delimiters -/

/-- A delimiter that starts at the end of a line goes on with a dash. -/
theorem infix_of_line_end {d s : List UInt8} {c : UInt8} (hc : c ≠ 45)
    (h : 13 :: 10 :: 45 :: d <:+: 13 :: 10 :: c :: s) :
  13 :: 10 :: 45 :: d <:+: c :: s
  := by
  rw [List.infix_cons_iff, List.infix_cons_iff] at h
  obtain hprefix | hprefix | hinfix := h
  · simp only [List.cons_prefix_cons] at hprefix
    exact absurd hprefix.2.2.1.symm hc
  · exact absurd (List.cons_prefix_cons.mp hprefix).1 (by decide)
  · exact hinfix

/-- An encoded part has no delimiter in it. -/
theorem not_delimiter_infix_encode (h : p.Sendable boundary) :
  ¬ crlf ++ ascii "--" ++ boundary <:+: p.encode
  := by
  intro hinfix
  apply h.content
  have hencode : p.encode = p.disposition ++ (crlf ++ (p.typeText ++ (crlf ++ p.content))) := by
    simp [Part.encode]
  rw [hencode] at hinfix
  have hdisposition := notMem_disposition h (Or.inl rfl)
  have hrest := (Search.infix_append_iff hdisposition).mp hinfix
  cases htype : p.mediaType with
  | none =>
      have htext : p.typeText = [] := by rw [Part.typeText, htype]
      rw [htext] at hrest
      exact infix_of_line_end (by decide) hrest
  | some t =>
      have htext : p.typeText = ascii "Content-Type: " ++ t ++ crlf := by rw [Part.typeText, htype]
      have hline : (13 : UInt8) ∉ ascii "Content-Type: " ++ t := by
        rw [List.mem_append, not_or]
        exact ⟨by decide, (h.mediaType t htype).1⟩
      rw [htext] at hrest
      have hrest' := infix_of_line_end (by decide) hrest
      have hsplit : ascii "Content-Type: " ++ t ++ crlf ++ (crlf ++ p.content)
          = (ascii "Content-Type: " ++ t) ++ (crlf ++ (crlf ++ p.content)) := by simp
      have hinfix' : crlf ++ ascii "--" ++ boundary
          <:+: (ascii "Content-Type: " ++ t) ++ (crlf ++ (crlf ++ p.content)) := by
        rw [← hsplit]
        exact hrest'
      exact infix_of_line_end (by decide) ((Search.infix_append_iff hline).mp hinfix')

/-- The end of the line with the boundary: the last is marked with two dashes. -/
def boundaryLine : List Part → List UInt8
  | [] => ascii "--\r"
  | _ :: _ => ascii "\r"

def afterBoundary (boundary : List UInt8) : List Part → List UInt8
  | [] => []
  | p :: ps => p.encode ++ crlf ++ encodeForm boundary ps

/-- A form starts with the line with the boundary. -/
theorem encodeForm_eq (boundary : List UInt8) (ps : List Part) :
  encodeForm boundary ps
    = ascii "--" ++ boundary ++ (boundaryLine ps ++ 10 :: afterBoundary boundary ps)
  := by
  cases ps with
  | nil =>
      have hline : ascii "--" ++ crlf = ascii "--\r" ++ [10] := rfl
      rw [encodeForm, boundaryLine, afterBoundary, List.append_assoc _ _ crlf, hline]
  | cons p ps =>
      have hline : crlf = ascii "\r" ++ [10] := rfl
      rw [encodeForm, boundaryLine, afterBoundary]
      simp [hline]

theorem splitLine_boundaryLine (ps : List Part) (rest : List UInt8) :
  splitLine (boundaryLine ps ++ 10 :: rest) = some (boundaryLine ps, rest)
  := by
  cases ps with
  | nil => exact @splitLine_append (ascii "--\r") rest (by decide) (by decide)
  | cons p ps => exact @splitLine_append (ascii "\r") rest (by decide) (by decide)

/-- A delimiter has one CR, at its start. -/
theorem cr_notMem (hboundary : IsBoundary boundary) :
  (13 : UInt8) ∉ 10 :: (ascii "--" ++ boundary)
  := by
  have hmem : (13 : UInt8) ∉ boundary := fun hmem => by
    have hspace := hboundary.no_space 13 hmem
    cases hspace
  have hdashes : (13 : UInt8) ∉ ascii "--" := by decide
  simp [hmem, hdashes]

/-- The part `chunk` before a delimiter is read; `first` bytes more than are left of the body are
scanned. -/
theorem partsText_delimiter {loc : Locale} {tmp : ℕ → List UInt8} {chunk body : List UInt8}
    {first pad : ℕ} {query : Scm} {files : List (List UInt8 × List UInt8)}
    (hboundary : IsBoundary boundary) (hchunk : ¬ crlf ++ ascii "--" ++ boundary <:+: chunk)
    (hpad : first ≤ pad) :
  partsText loc tmp (crlf ++ ascii "--" ++ boundary)
      (first + (chunk ++ (crlf ++ ascii "--" ++ boundary ++ body)).length)
      (chunk ++ (crlf ++ ascii "--" ++ boundary ++ body) ++ List.replicate pad 0) query files
    = (partText loc (tmp files.length) chunk).bind (fun part =>
        (splitLine (body ++ List.replicate pad 0)).bind (fun v =>
          partsText loc tmp (crlf ++ ascii "--" ++ boundary)
            (sizeT ((first + (chunk ++ (crlf ++ ascii "--" ++ boundary ++ body)).length : ℕ)
              - (chunk.length + (crlf ++ ascii "--" ++ boundary).length + v.1.length + 1 : ℕ))) v.2
            (.pair part.1 query)
            (files ++ part.2.toList.map (fun content => (tmp files.length, content)))))
  := by
  have htake : List.take (first + (chunk ++ (crlf ++ ascii "--" ++ boundary ++ body)).length)
      (chunk ++ (crlf ++ ascii "--" ++ boundary ++ body) ++ List.replicate pad 0)
      = chunk ++ (crlf ++ ascii "--" ++ boundary ++ (body ++ List.replicate first 0)) := by
    rw [List.take_append, List.take_of_length_le (Nat.le_add_left _ _), Nat.add_sub_cancel,
      List.take_replicate, Nat.min_eq_left hpad]
    simp
  have hfound : Search.strstr
      (chunk ++ (crlf ++ ascii "--" ++ boundary ++ (body ++ List.replicate first 0)))
      (crlf ++ ascii "--" ++ boundary)
      = some (chunk, crlf ++ ascii "--" ++ boundary ++ (body ++ List.replicate first 0)) :=
    Search.strstr_append (cr_notMem hboundary) hchunk _
  have hdrop : List.drop (chunk.length + (crlf ++ ascii "--" ++ boundary).length)
      (chunk ++ (crlf ++ ascii "--" ++ boundary ++ body) ++ List.replicate pad 0)
      = body ++ List.replicate pad 0 := by
    have hsplit : chunk ++ (crlf ++ ascii "--" ++ boundary ++ body) ++ List.replicate pad 0
        = (chunk ++ (crlf ++ ascii "--" ++ boundary)) ++ (body ++ List.replicate pad 0) := by
      simp
    rw [hsplit, ← List.length_append, List.drop_left]
  rw [← htake] at hfound
  rw [partsText_of_some hfound, hdrop]

/-- A part, and the line with the boundary after it. -/
theorem afterBoundary_cons (boundary : List UInt8) (p : Part) (ps : List Part) :
  afterBoundary boundary (p :: ps) = p.encode ++ (crlf ++ ascii "--" ++ boundary
    ++ (boundaryLine ps ++ 10 :: afterBoundary boundary ps))
  := by
  rw [afterBoundary, encodeForm_eq]
  simp

/-- After a line with the boundary the next part is read. -/
theorem partsText_cons {loc : Locale} {tmp : ℕ → List UInt8} {p : Part} {ps : List Part}
    {first pad : ℕ} {query : Scm} {files : List (List UInt8 × List UInt8)}
    (hboundary : IsBoundary boundary) (hp : p.Sendable boundary) (hpad : first ≤ pad)
    (hsize : first + (afterBoundary boundary (p :: ps)).length < 2 ^ 64) :
  partsText loc tmp (crlf ++ ascii "--" ++ boundary)
      (first + (afterBoundary boundary (p :: ps)).length)
      (afterBoundary boundary (p :: ps) ++ List.replicate pad 0) query files
    = partsText loc tmp (crlf ++ ascii "--" ++ boundary)
      (first + (afterBoundary boundary ps).length)
      (afterBoundary boundary ps ++ List.replicate pad 0) (addPart loc tmp (query, files) p).1
      (addPart loc tmp (query, files) p).2
  := by
  have hbody : boundaryLine ps ++ 10 :: afterBoundary boundary ps ++ List.replicate pad 0
      = boundaryLine ps ++ 10 :: (afterBoundary boundary ps ++ List.replicate pad 0) := by
    rw [List.append_assoc, List.cons_append]
  have hlen : (afterBoundary boundary (p :: ps)).length
      = p.encode.length + ((crlf ++ ascii "--" ++ boundary).length
        + ((boundaryLine ps).length + ((afterBoundary boundary ps).length + 1))) := by
    rw [afterBoundary_cons, @List.length_append _ p.encode,
      @List.length_append _ (crlf ++ ascii "--" ++ boundary), @List.length_append _ (boundaryLine ps),
      List.length_cons]
  have hcount : sizeT ((first + (afterBoundary boundary (p :: ps)).length : ℕ)
      - (p.encode.length + (crlf ++ ascii "--" ++ boundary).length + (boundaryLine ps).length
        + 1 : ℕ)) = first + (afterBoundary boundary ps).length := by
    unfold sizeT
    omega
  rw [afterBoundary_cons] at hcount ⊢
  obtain ⟨entry, file, hpart, hadd⟩ := partText_encode loc tmp hp query files
  rw [partsText_delimiter hboundary (not_delimiter_infix_encode hp) hpad, hpart, Option.bind_some,
    hbody, splitLine_boundaryLine, Option.bind_some, ← hadd]
  dsimp only
  rw [hcount]

/-- The parts `ps` are read, if they can be sent. -/
theorem partsText_append {loc : Locale} {tmp : ℕ → List UInt8} {ps qs : List Part}
    {first pad : ℕ} {r : Scm × List (List UInt8 × List UInt8)}
    (hboundary : IsBoundary boundary) (hps : ∀ p ∈ ps, p.Sendable boundary) (hpad : first ≤ pad)
    (hsize : first + (afterBoundary boundary (ps ++ qs)).length < 2 ^ 64) :
  partsText loc tmp (crlf ++ ascii "--" ++ boundary)
      (first + (afterBoundary boundary (ps ++ qs)).length)
      (afterBoundary boundary (ps ++ qs) ++ List.replicate pad 0) r.1 r.2
    = partsText loc tmp (crlf ++ ascii "--" ++ boundary)
      (first + (afterBoundary boundary qs).length)
      (afterBoundary boundary qs ++ List.replicate pad 0) (ps.foldl (addPart loc tmp) r).1
      (ps.foldl (addPart loc tmp) r).2
  := by
  induction ps generalizing r with
  | nil => rfl
  | cons p ps ih =>
      have hlen : (afterBoundary boundary (ps ++ qs)).length
          ≤ (afterBoundary boundary (p :: (ps ++ qs))).length := by
        rw [afterBoundary_cons]
        simp only [List.length_append, List.length_cons]
        omega
      rw [List.cons_append] at hsize ⊢
      rw [partsText_cons hboundary (hps p List.mem_cons_self) hpad hsize,
        ih (fun q hq => hps q (List.mem_cons_of_mem p hq)) (by omega)]
      rfl

/-- After a line with the boundary the parts that follow are read; `first` bytes more than are left
of the body are scanned. -/
theorem partsText_afterBoundary {loc : Locale} {tmp : ℕ → List UInt8} {ps : List Part}
    {first pad : ℕ} (hboundary : IsBoundary boundary) (hps : ∀ p ∈ ps, p.Sendable boundary)
    (hpad : first ≤ pad) (hsize : first + (afterBoundary boundary ps).length < 2 ^ 64) :
  partsText loc tmp (crlf ++ ascii "--" ++ boundary) (first + (afterBoundary boundary ps).length)
      (afterBoundary boundary ps ++ List.replicate pad 0) .nil []
    = some (ps.foldl (addPart loc tmp) (.nil, []))
  := by
  have hread := @partsText_append boundary loc tmp ps [] first pad (.nil, []) hboundary hps hpad
  rw [List.append_nil] at hread
  have hnone : Search.strstr (List.take first (List.replicate pad 0))
      (crlf ++ ascii "--" ++ boundary) = none := by
    rw [Search.strstr_eq_none_iff]
    intro hinfix
    have hmem := hinfix.subset (List.mem_cons_self : (13 : UInt8) ∈ _)
    have hzero := List.eq_of_mem_replicate ((List.take_sublist _ _).subset hmem)
    cases hzero
  rw [hread hsize, afterBoundary, List.nil_append, List.length_nil, Nat.add_zero,
    partsText_of_none hnone, List.length_replicate, if_neg (by omega)]

/-- The boundary is the end of the content type, and no dash stands between it and the first
`boundary=`. -/
def GivesBoundary (ctype boundary : List UInt8) : Prop :=
  ∃ x z, Search.strstr ctype (ascii "boundary=") = some (x, z ++ boundary) ∧ (45 : UInt8) ∉ z

/-- The delimiter that the content type gives. -/
theorem delimiter_of_givesBoundary {ctype : List UInt8} (hboundary : IsBoundary boundary)
    (h : GivesBoundary ctype boundary) :
  delimiter ctype = some (some (crlf ++ ascii "--" ++ boundary))
  := by
  obtain ⟨x, z, hfound, hz⟩ := h
  obtain ⟨b, rfl⟩ := hboundary.dash
  have hshort := hboundary.short
  rw [List.length_cons] at hshort
  have hlen : (crlf ++ ascii "--" ++ 45 :: b).length = b.length + 5 := by
    rw [List.length_append]
    exact Nat.add_comm 4 (b.length + 1)
  rw [delimiter, hfound]
  simp only [index_append hz]
  rw [if_pos]
  rw [hlen]
  omega

/-- The decoder skips the line with the boundary, and scans as many bytes more than are left. -/
theorem formMultipart_eq {loc : Locale} {platform : Platform} {tmp : ℕ → List UInt8}
    {ctype : List UInt8} {ps : List Part} {pad : ℕ} (hboundary : IsBoundary boundary)
    (hctype : GivesBoundary ctype boundary)
    (hmap : platform.mmap (encodeForm boundary ps).length = true)
    (hpad : boundary.length + 6 ≤ pad) (hsize : (encodeForm boundary ps).length + pad < 2 ^ 63) :
  ∃ first, first ≤ pad ∧ first + (afterBoundary boundary ps).length < 2 ^ 64 ∧
    formMultipart loc platform tmp ctype (encodeForm boundary ps) pad
      = partsText loc tmp (crlf ++ ascii "--" ++ boundary)
        (first + (afterBoundary boundary ps).length)
        (afterBoundary boundary ps ++ List.replicate pad 0) .nil []
  := by
  have hnewline : (10 : UInt8) ∉ boundary := fun hmem => by
    have hspace := hboundary.no_space 10 hmem
    cases hspace
  have hend := (eq_of_splitLine (splitLine_boundaryLine ps [])).2
  have hend_length : (boundaryLine ps).length ≤ 3 := by
    cases ps with
    | nil => exact Nat.le_refl _
    | cons p ps => exact Nat.le_of_ble_eq_true rfl
  have hbody := encodeForm_eq boundary ps
  have hlen : (encodeForm boundary ps).length
      = (2 + boundary.length + (boundaryLine ps).length + 1) + (afterBoundary boundary ps).length := by
    rw [hbody, List.length_append, List.length_append, List.length_append, List.length_cons]
    have hdashes : (ascii "--").length = 2 := rfl
    omega
  have hsplit : splitLine (encodeForm boundary ps ++ List.replicate pad 0)
      = some (ascii "--" ++ boundary ++ boundaryLine ps,
        afterBoundary boundary ps ++ List.replicate pad 0) := by
    have hline : encodeForm boundary ps ++ List.replicate pad 0
        = (ascii "--" ++ boundary ++ boundaryLine ps)
          ++ 10 :: (afterBoundary boundary ps ++ List.replicate pad 0) := by
      rw [hbody]
      simp
    have hdashes : ∀ c : UInt8, c = 10 ∨ c = 0 → c ∉ ascii "--" := by
      rintro c (rfl | rfl) <;> decide
    rw [hline]
    apply splitLine_append
    · simp [hdashes 10 (by simp), hnewline, hend.1]
    · simp [hdashes 0 (by simp), hboundary.no_nul, hend.2]
  have hmemory : (encodeForm boundary ps ++ List.replicate pad 0).length < 2 ^ 63 := by
    rw [List.length_append, List.length_replicate]
    exact hsize
  rw [formMultipart, delimiter_of_givesBoundary hboundary hctype]
  dsimp only
  rw [if_pos hmap, parseMap_eq _ (by simp [crlf]) hmemory, hsplit, Option.bind_some]
  dsimp only
  rw [hlen]
  exact ⟨2 + boundary.length + (boundaryLine ps).length + 1, by omega, by omega, rfl⟩

/-- The decoder reads the parts of a form, one after the other. -/
theorem formMultipart_encodeForm {loc : Locale} {platform : Platform} {tmp : ℕ → List UInt8}
    {ctype : List UInt8} {ps : List Part} {pad : ℕ} (hboundary : IsBoundary boundary)
    (hctype : GivesBoundary ctype boundary) (hps : ∀ p ∈ ps, p.Sendable boundary)
    (hmap : platform.mmap (encodeForm boundary ps).length = true)
    (hpad : boundary.length + 6 ≤ pad) (hsize : (encodeForm boundary ps).length + pad < 2 ^ 63) :
  formMultipart loc platform tmp ctype (encodeForm boundary ps) pad
    = some (ps.foldl (addPart loc tmp) (.nil, []))
  := by
  obtain ⟨first, hfirst, hsize', heq⟩ :=
    @formMultipart_eq boundary loc platform tmp ctype ps pad hboundary hctype hmap hpad hsize
  rw [heq]
  exact partsText_afterBoundary hboundary hps hfirst hsize'

end Gusher
