import Gusher.Request.FormFields
import Gusher.Request.Post
import Gusher.Request.QueryText

/-!
# The encodings of a form

The same form arrives as multipart, or form-urlencoded, in the body of a POST, or in the query
string of a GET.  The parsers agree when the encodings leave its names as they are and its values
are ASCII texts, and the body that is form-urlencoded is read as a whole.
-/

namespace Gusher

open CString Urlencoded

/-- A name and the text that the user has put in. -/
structure Input where
  name : Text
  value : Text

def Input.field (f : Input) : Field where
  name := f.name
  value := .text f.value
  mediaType := none

/-- The input as a pair of a form-urlencoded text. -/
def Input.pair (f : Input) : List UInt8 × List UInt8 :=
  (encodeUtf8 f.name, encodeUtf8 f.value)

/-- What the inputs of a form are like. -/
structure Input.Proper (boundary : List UInt8) (f : Input) : Prop where
  name_unquoted : Unquoted f.name
  name_semicolon : ∀ c ∈ f.name, c.toNat ≠ 59
  value_nul : ∀ c ∈ f.value, c.toNat ≠ 0
  no_delimiter : ¬ crlf ++ ascii "--" ++ boundary <:+: encodeUtf8 f.value

/-- The value starts with what the end of the line before it completes to a delimiter. -/
def Input.StartsDelimiter (boundary : List UInt8) (f : Input) : Prop :=
  ascii "--" ++ boundary <+: encodeUtf8 f.value

def multipartBody (boundary : List UInt8) (fields : List Input) : List UInt8 :=
  encodeForm boundary (fields.map (fun f => f.field.part))

def urlencodedText (fields : List Input) : List UInt8 :=
  encodePairs (fields.map Input.pair)

/-- The content type that a browser sends. -/
def multipartType (boundary : List UInt8) : List UInt8 :=
  ascii "multipart/form-data; boundary=" ++ boundary

def Input.multipartEntry (loc : Locale) (f : Input) : Scm :=
  .pair (loc.makesym (encodeUtf8 f.name)) (.str f.value)

/-- The form-urlencoded text is read as a whole, or up to the percent sign of an escape for a
percent sign, which is the last character of the last value. -/
def ReadAsWhole (fields : List Input) : Prop :=
  (urlencodedText fields).length ≤ postMemMax ∨
    (urlencodedText fields).length = postMemMax + 2 ∧
      ∃ f ∈ fields.getLast?, [37] <:+ encodeUtf8 f.value

/-! ### The multipart body -/

/-- The needle `; filename="` is not found in a name without a semicolon. -/
theorem find_filename_eq_none {name : Text} (h : ∀ c ∈ name, c.toNat ≠ 59) :
  find (encodeUtf8 name ++ [34]) (ascii "; filename=\"") = none
  := by
  cases hfind : find (encodeUtf8 name ++ [34]) (ascii "; filename=\"") with
  | none => rfl
  | some i =>
      obtain ⟨u, z, v, hsplit, -, hz⟩ := exists_of_find hfind
      obtain ⟨b, z', rfl⟩ : ∃ b z', z = b :: z' := by
        cases z with
        | nil => cases hz
        | cons b z' => exact ⟨b, z', rfl⟩
      have hb : toupper b = 59 := (List.cons.inj hz).1
      have hmem : b ∈ encodeUtf8 name ++ [34] := by
        rw [hsplit]
        simp
      obtain rfl := eq_of_toupper_eq (by decide) hb
      obtain hname | hquote := List.mem_append.mp hmem
      · obtain ⟨c, hc, hcode⟩ := exists_of_mem_encodeUtf8 hname (by decide)
        exact absurd hcode (h c hc)
      · exact absurd (List.mem_singleton.mp hquote) (by decide)

variable {loc : Locale} {tmp : ℕ → List UInt8} {boundary : List UInt8} {f : Input}

/-- An input whose value does not start like a delimiter can be sent. -/
theorem Input.Proper.sendable (h : f.Proper boundary) (hstart : ¬ f.StartsDelimiter boundary) :
  f.field.part.Sendable boundary
  where
  name := quotable_encodeUtf8 h.name_unquoted
  filename := by
    intro s hs
    cases hs
  mediaType := by
    intro s hs
    cases hs
  name_end := find_filename_eq_none h.name_semicolon
  content := not_infix_crlf h.no_delimiter hstart

theorem addPart_input (query : Scm) (files : List (List UInt8 × List UInt8)) (f : Input) :
  addPart loc tmp (query, files) f.field.part = (.pair (f.multipartEntry loc) query, files)
  := by
  have htext : safeFromUtf8 (encodeUtf8 f.value) = f.value := safeFromUtf8_flatMap f.value
  simp only [addPart, Field.part, Input.field, FieldValue.filename, FieldValue.content,
    Option.map_none, htext, Input.multipartEntry]

/-- The parts of the inputs make their entries. -/
theorem foldl_addPart (fields : List Input) (query : Scm)
    (files : List (List UInt8 × List UInt8)) :
  (fields.map (fun f => f.field.part)).foldl (addPart loc tmp) (query, files)
    = (Scm.pushAll (fields.map (Input.multipartEntry loc)) query, files)
  := by
  induction fields generalizing query with
  | nil => rfl
  | cons f fields ih =>
      rw [List.map_cons, List.foldl_cons, addPart_input, ih]
      rfl

/-- The parser only adds entries. -/
theorem exists_of_partsText {rboundary rest : List UInt8} {field : ℕ} {query : Scm}
    {files : List (List UInt8 × List UInt8)} {r : Scm × List (List UInt8 × List UInt8)}
    (h : partsText loc tmp rboundary field rest query files = some r) :
  ∃ entries, r.1 = Scm.pushAll entries query
  := by
  fun_induction partsText loc tmp rboundary field rest query files with
  | case1 => cases h
  | case2 =>
      obtain rfl := Option.some.inj h
      exact ⟨[], rfl⟩
  | case3 => cases h
  | case4 => cases h
  | case5 field rest query files chunk y hfound entry file hpart line rest' hline ih =>
      obtain ⟨entries, hentries⟩ := ih h
      exact ⟨entry :: entries, hentries⟩

/-- The header line of an input, which does not depend on its value. -/
theorem Input.Proper.sendable_empty (h : f.Proper boundary) :
  (Input.mk f.name []).field.part.Sendable boundary
  := by
  have hdelimiter : ∀ x : List UInt8, ¬ x ++ ascii "--" ++ boundary <:+: [] := by
    intro x hinfix
    have hnil := List.eq_nil_of_infix_nil hinfix
    simp [ascii] at hnil
  have hproper : (Input.mk f.name []).Proper boundary := by
    refine ⟨h.name_unquoted, h.name_semicolon, ?_, hdelimiter crlf⟩
    intro c hc
    cases hc
  apply hproper.sendable
  intro hstart
  exact hdelimiter [] hstart.isInfix

/-- A value that starts like a delimiter is cut off before its first byte. -/
theorem exists_of_partsText_startsDelimiter {ps : List Part} {first pad : ℕ} {query : Scm}
    {files : List (List UInt8 × List UInt8)} {r : Scm × List (List UInt8 × List UInt8)}
    (hboundary : IsBoundary boundary) (h : f.Proper boundary) (hstart : f.StartsDelimiter boundary)
    (hpad : first ≤ pad)
    (hr : partsText loc tmp (crlf ++ ascii "--" ++ boundary)
      (first + (afterBoundary boundary (f.field.part :: ps)).length)
      (afterBoundary boundary (f.field.part :: ps) ++ List.replicate pad 0) query files = some r) :
  ∃ entries, r.1
    = Scm.pushAll entries (.pair (.pair (loc.makesym (encodeUtf8 f.name)) (.str [])) query)
  := by
  have hempty := h.sendable_empty
  obtain ⟨s, hs⟩ := hstart
  have hafter : afterBoundary boundary (f.field.part :: ps)
      = (f.field.part.disposition ++ crlf) ++ (crlf ++ ascii "--" ++ boundary
        ++ (s ++ crlf ++ encodeForm boundary ps)) := by
    have hencode : f.field.part.encode
        = f.field.part.disposition ++ crlf ++ (crlf ++ (ascii "--" ++ boundary ++ s)) := by
      have htype : f.field.part.typeText = [] := rfl
      rw [hs, Part.encode, htype, List.append_nil, List.append_assoc]
      rfl
    rw [afterBoundary, hencode]
    simp
  have hchunk : ¬ crlf ++ ascii "--" ++ boundary <:+: f.field.part.disposition ++ crlf := by
    intro hinfix
    have hcr : (13 : UInt8) ∉ f.field.part.disposition := notMem_disposition hempty (Or.inl rfl)
    have hend : (crlf ++ (ascii "--" ++ boundary)).length ≤ crlf.length :=
      ((Search.infix_append_iff hcr).mp hinfix).length_le
    rw [List.length_append, List.length_append] at hend
    have hdashes : (ascii "--").length = 2 := rfl
    omega
  have hpart : ∀ path, partText loc path (f.field.part.disposition ++ crlf)
      = some (.pair (loc.makesym (encodeUtf8 f.name)) (.str []), none) := by
    intro path
    have hline := @chunkText_line loc f.field.part.disposition [] .nil .nil
      (by simp [Part.disposition, ascii]) (notMem_disposition hempty (by simp))
      (notMem_disposition hempty (by simp))
    have hheader : headerText (Input.mk f.name []).field.part.disposition
        = some (some (encodeUtf8 f.name), none) := headerText_disposition hempty
    change headerText f.field.part.disposition = _ at hheader
    have hend : ∀ key origFile, chunkText loc [] key origFile = some (key, origFile, []) :=
      fun key origFile => chunkText_of_none rfl
    rw [List.append_nil, hheader, Option.bind_some, hend] at hline
    rw [partText, hline]
    rfl
  rw [hafter, partsText_delimiter hboundary hchunk hpad, hpart, Option.bind_some] at hr
  obtain ⟨v, -, hv⟩ := Option.bind_eq_some_iff.mp hr
  exact exists_of_partsText hv

/-! ### The texts that agree -/

/-- Latin-1 reads the encoding of a text as the text when it is ASCII. -/
theorem eq_fromLatin1_iff {t : Text} :
  t = fromLatin1 (encodeUtf8 t) ↔ IsAscii t
  := by
  constructor
  · intro heq
    have hlength := congrArg List.length heq
    rw [fromLatin1, List.length_map] at hlength
    exact ascii_of_length_encodeUtf8 (Nat.le_of_eq hlength.symm)
  · intro h
    exact (latin1_decode_ascii t h).symm

/-- An ASCII text that is encoded is decoded as it is. -/
theorem decode_of_ascii (hascii : ∀ t, IsAscii t → loc.decode (encodeUtf8 t) = t) {s : List UInt8}
    (hs : ∀ b ∈ s, b.toNat < 128) :
  loc.decode s = fromLatin1 s
  := by
  have ht : IsAscii (fromLatin1 s) := by
    intro c hc
    obtain ⟨b, hb, rfl⟩ := List.mem_map.mp hc
    rw [toNat_ofNat_toNat]
    exact hs b hb
  have hbytes : encodeUtf8 (fromLatin1 s) = s := by
    rw [encodeUtf8_of_ascii ht, fromLatin1, List.map_map]
    calc
      List.map _ s
      _ = List.map id s := by
          apply List.map_congr_left
          intro b _
          rw [Function.comp_apply, toNat_ofNat_toNat, Nat.toUInt8, UInt8.ofNat_toNat, id]
      _ = s := List.map_id s
  rw [← hascii _ ht, hbytes]

/-- The parsers make the same symbol of a name when form-urlencoding leaves it as it is. -/
theorem decode_encode_iff (hascii : ∀ t, IsAscii t → loc.decode (encodeUtf8 t) = t)
    (hlength : ∀ s, (loc.decode s).length ≤ s.length) (s : List UInt8) :
  loc.decode s = loc.decode (encode s) ↔ encode s = s
  := by
  constructor
  · intro heq
    have hcode : loc.decode (encode s) = fromLatin1 (encode s) :=
      decode_of_ascii hascii (fun b hb => (of_isCode (isCode_of_mem_encode hb)).1)
    obtain ⟨hle, hall⟩ := length_encode s
    have hshort := hlength s
    rw [heq, hcode, fromLatin1, List.length_map] at hshort
    rw [hcode, decode_of_ascii hascii (hall (Nat.le_antisymm hshort hle)), fromLatin1_inj] at heq
    exact heq.symm
  · intro heq
    rw [heq]

/-- The entries of an input agree when form-urlencoding leaves its name as it is and its value is an
ASCII text. -/
theorem entry_eq_iff (hascii : ∀ t, IsAscii t → loc.decode (encodeUtf8 t) = t)
    (hlength : ∀ s, (loc.decode s).length ≤ s.length) (f : Input) :
  f.multipartEntry loc = queryEntry loc f.pair
    ↔ encode (encodeUtf8 f.name) = encodeUtf8 f.name ∧ IsAscii f.value
  := by
  simp only [Input.multipartEntry, queryEntry, Input.pair, Locale.makesym, Scm.pair.injEq,
    Scm.symbol.injEq, Scm.str.injEq, decode_encode_iff hascii hlength, eq_fromLatin1_iff]

/-! ### The content type -/

theorem multipartType_append {s t : String} (h : "multipart/form-data; boundary=" = s ++ t)
    (boundary : List UInt8) :
  multipartType boundary = ascii s ++ (ascii t ++ boundary)
  := by rw [multipartType, h, ascii_append, List.append_assoc]

theorem prefix_multipartType (boundary : List UInt8) :
  ascii "multipart/form-data;" <+: multipartType boundary
  := by
  rw [multipartType_append (by decide :
    "multipart/form-data; boundary=" = "multipart/form-data;" ++ " boundary=")]
  apply List.prefix_append

theorem givesBoundary_multipartType (boundary : List UInt8) :
  GivesBoundary (multipartType boundary) boundary
  := by
  refine ⟨ascii "multipart/form-data; ", ascii "boundary=", ?_, by decide⟩
  rw [multipartType_append (by decide :
    "multipart/form-data; boundary=" = "multipart/form-data; " ++ "boundary=")]
  exact Search.strstr_append (by decide : (98 : UInt8) ∉ ascii "oundary=")
    (by decide : ¬ ascii "boundary=" <:+: ascii "multipart/form-data; ") boundary

/-- A browser's content type is not that of a form-urlencoded body. -/
theorem strstr_multipartType (hslash : (47 : UInt8) ∉ boundary) :
  Search.strstr (multipartType boundary) (ascii "application/x-www-form-urlencoded") = none
  := by
  rw [Search.strstr_eq_none_iff]
  rintro ⟨x, y, hxy⟩
  -- the slash of the needle is the only one of the content type
  have hcount := congrArg (List.count 47) hxy
  rw [multipartType, List.count_append, List.count_append, List.count_append,
    List.count_eq_zero.mpr hslash] at hcount
  have hneedle : List.count 47 (ascii "application/x-www-form-urlencoded") = 1 := by decide
  have htype : List.count 47 (ascii "multipart/form-data; boundary=") = 1 := by decide
  have hx : (47 : UInt8) ∉ x := List.count_eq_zero.mp (by omega)
  have hsplit : (x ++ ascii "application") ++ 47 :: (ascii "x-www-form-urlencoded" ++ y)
      = ascii "multipart" ++ 47 :: (ascii "form-data; boundary=" ++ boundary) := by
    have hneedle' : ascii "application/x-www-form-urlencoded"
        = ascii "application" ++ 47 :: ascii "x-www-form-urlencoded" := by decide
    have hslash' : ascii "/form-data; boundary=" = 47 :: ascii "form-data; boundary=" := by decide
    rw [hneedle', multipartType_append (by decide :
      "multipart/form-data; boundary=" = "multipart" ++ "/form-data; boundary="), hslash'] at hxy
    simpa using hxy
  have happlication : (47 : UInt8) ∉ ascii "application" := by decide
  obtain ⟨hstart, -, -⟩ := append_cons_inj (by simp [hx, happlication])
    (by decide : (47 : UInt8) ∉ ascii "multipart") hsplit
  have hlen := congrArg List.length hstart
  rw [List.length_append] at hlen
  have heleven : (ascii "application").length = 11 := rfl
  have hnine : (ascii "multipart").length = 9 := rfl
  omega

/-! ### The agreement -/

section

variable {platform : Platform} {buf : List UInt8} {pad : ℕ} {fields : List Input}
  {multipart urlencoded get : Scm} {sock : Socket}

/-- What the parsers get of a form. -/
structure Arrivals (loc : Locale) (boundary : List UInt8) (fields : List Input)
    (multipart urlencoded get : Scm) (sock sock' : Socket) : Prop where
  multipart : FormPost loc multipart sock (multipartType boundary) (multipartBody boundary fields)
  urlencoded : FormPost loc urlencoded sock' (ascii "application/x-www-form-urlencoded")
    (urlencodedText fields)
  get : FormGet loc get (urlencodedText fields)

/-- There is memory for the body, and NULs after its map. -/
structure Platform.Provides (platform : Platform) (boundary : List UInt8) (fields : List Input)
    (pad : ℕ) : Prop where
  mmap : platform.mmap (multipartBody boundary fields).length = true
  malloc : platform.malloc (((urlencodedText fields).take postMemMax).length + 1) ≠ none
  pad_le : boundary.length + 6 ≤ pad
  size : (multipartBody boundary fields).length + pad < 2 ^ 63

/-- The entries that the parser makes of a form-urlencoded text. -/
def formQuery (loc : Locale) (fields : List Input) : Scm :=
  queryEntries loc (fields.map Input.pair) .nil

theorem notMem_pair (hfields : ∀ f ∈ fields, f.Proper boundary) :
  ∀ e ∈ fields.map Input.pair, (0 : UInt8) ∉ e.2
  := by
  intro e he
  obtain ⟨f, hf, rfl⟩ := List.mem_map.mp he
  apply zero_notMem_encodeUtf8
  intro hmem
  exact (hfields f hf).value_nul _ hmem rfl

theorem parseQuery_urlencodedText (hfields : ∀ f ∈ fields, f.Proper boundary) :
  parseQuery loc (urlencodedText fields ++ [0]) 0 .nil = some (formQuery loc fields)
  := @parseQuery_encodePairs loc (fields.map Input.pair) (notMem_pair hfields) [] .nil

/-- The parser of the body makes the same entries when the body is read as a whole. -/
theorem parseQuery_take_iff (hfields : ∀ f ∈ fields, f.Proper boundary) :
  parseQuery loc ((urlencodedText fields).take postMemMax ++ [0]) 0 .nil
      = some (formQuery loc fields) ↔ ReadAsWhole fields
  := by
  unfold ReadAsWhole
  by_cases hle : (urlencodedText fields).length ≤ postMemMax
  · rw [List.take_of_length_le hle, parseQuery_urlencodedText hfields]
    simp [hle]
  · have hlen : ((urlencodedText fields).take postMemMax).length = postMemMax :=
      List.length_take_of_le (Nat.le_of_not_le hle)
    have hne : (urlencodedText fields).take postMemMax ≠ urlencodedText fields := by
      intro heq
      rw [heq] at hlen
      omega
    have hcut := @parseQuery_cut loc (fields.map Input.pair) [] _ .nil (notMem_pair hfields)
      (List.take_prefix postMemMax (urlencodedText fields)) hne
    rw [hlen] at hcut
    have hlast : (∃ e ∈ (fields.map Input.pair).getLast?, [37] <:+ e.2)
        ↔ ∃ f ∈ fields.getLast?, [37] <:+ encodeUtf8 f.value := by
      rw [List.getLast?_map]
      cases fields.getLast? with
      | none => simp
      | some f => simp [Input.pair]
    rw [hlast] at hcut
    rw [or_iff_right hle]
    exact hcut

/-- The first element of a list with a property. -/
theorem exists_first {α : Type} {P : α → Prop} {l : List α} (h : ∃ a ∈ l, P a) :
  ∃ front a back, l = front ++ a :: back ∧ (∀ b ∈ front, ¬ P b) ∧ P a
  := by
  induction l with
  | nil =>
      obtain ⟨a, ha, -⟩ := h
      cases ha
  | cons b l ih =>
      by_cases hb : P b
      · exact ⟨[], b, l, rfl, by simp, hb⟩
      · have hrest : ∃ a ∈ l, P a := by
          obtain ⟨a, ha, hPa⟩ := h
          obtain rfl | ha := List.mem_cons.mp ha
          · exact absurd hPa hb
          · exact ⟨a, ha, hPa⟩
        obtain ⟨front, a, back, rfl, hfront, ha⟩ := ih hrest
        exact ⟨b :: front, a, back, rfl, List.forall_mem_cons.mpr ⟨hb, hfront⟩, ha⟩

/-- The entry of a value that starts like a delimiter is not what the other parsers make. -/
theorem formMultipart_ne (hboundary : IsBoundary boundary)
    (hfields : ∀ f ∈ fields, f.Proper boundary) (hplatform : platform.Provides boundary fields pad)
    (hstart : ∃ f ∈ fields, f.StartsDelimiter boundary) :
  (formMultipart loc platform tmp (multipartType boundary) (multipartBody boundary fields) pad).map
    Prod.fst ≠ some (formQuery loc fields)
  := by
  obtain ⟨hmap, -, hpad, hsize⟩ := hplatform
  intro heq
  obtain ⟨r, hr, hquery⟩ := Option.map_eq_some_iff.mp heq
  obtain ⟨front, f, back, rfl, hfront, hf⟩ := exists_first hstart
  obtain ⟨first, hfirst, hsize', hparts⟩ :=
    @formMultipart_eq boundary loc platform tmp _ _ pad hboundary
      (givesBoundary_multipartType boundary) hmap hpad hsize
  have hsendable : ∀ p ∈ front.map (fun f => f.field.part), p.Sendable boundary := by
    intro p hp
    obtain ⟨g, hg, rfl⟩ := List.mem_map.mp hp
    exact (hfields g (List.mem_append_left _ hg)).sendable (hfront g hg)
  rw [List.map_append, List.map_cons] at hparts hsize'
  have hread := @partsText_append boundary loc tmp _
    (f.field.part :: back.map (fun f => f.field.part)) first pad (.nil, []) hboundary hsendable
    hfirst hsize'
  rw [foldl_addPart] at hread
  rw [multipartBody, List.map_append, List.map_cons, hparts, hread] at hr
  obtain ⟨entries, hentries⟩ :=
    exists_of_partsText_startsDelimiter hboundary (hfields f (by simp)) hf hfirst hr
  have hform : formQuery loc (front ++ f :: back)
      = Scm.pushAll ((back.map Input.pair).map (queryEntry loc)) (.pair (queryEntry loc f.pair)
          (Scm.pushAll ((front.map Input.pair).map (queryEntry loc)) .nil)) := by
    rw [formQuery, queryEntries, List.map_append, List.map_append, Scm.pushAll, List.foldl_append]
    rfl
  rw [hentries, hform] at hquery
  have hcount := congrArg Scm.count hquery
  simp only [Scm.count_pushAll, Scm.count, List.length_map] at hcount
  have hlen : entries.length = ((back.map Input.pair).map (queryEntry loc)).length := by
    simp only [List.length_map]
    omega
  obtain ⟨-, hpair⟩ := (Scm.pushAll_inj hlen).mp hquery
  obtain ⟨-, hvalue⟩ := Scm.pair.inj (Scm.pair.inj hpair).1
  -- the value is cut off before its first byte
  have hlength := congrArg List.length (Scm.str.inj hvalue)
  have hprefix := List.IsPrefix.length_le hf
  rw [fromLatin1, List.length_map, Input.pair] at hlength
  rw [List.length_append] at hprefix
  have hdashes : (ascii "--").length = 2 := rfl
  rw [List.length_nil] at hlength
  dsimp only at hlength
  omega

/-- The multipart parser makes the entries that the other parsers make when no value starts like a
delimiter and the entries of each input agree. -/
theorem formMultipart_eq_iff (hascii : ∀ t, IsAscii t → loc.decode (encodeUtf8 t) = t)
    (hlength : ∀ s, (loc.decode s).length ≤ s.length) (hboundary : IsBoundary boundary)
    (hfields : ∀ f ∈ fields, f.Proper boundary) (hplatform : platform.Provides boundary fields pad) :
  (formMultipart loc platform tmp (multipartType boundary) (multipartBody boundary fields) pad).map
      Prod.fst = some (formQuery loc fields)
    ↔ ∀ f ∈ fields, encode (encodeUtf8 f.name) = encodeUtf8 f.name ∧ IsAscii f.value ∧
        ¬ f.StartsDelimiter boundary
  := by
  by_cases hstart : ∃ f ∈ fields, f.StartsDelimiter boundary
  · constructor
    · intro heq
      exact absurd heq (formMultipart_ne hboundary hfields hplatform hstart)
    · intro hall
      obtain ⟨f, hf, hfstart⟩ := hstart
      exact absurd hfstart (hall f hf).2.2
  · have hnot : ∀ f ∈ fields, ¬ f.StartsDelimiter boundary :=
      fun f hf hfstart => hstart ⟨f, hf, hfstart⟩
    have hsendable : ∀ p ∈ fields.map (fun f => f.field.part), p.Sendable boundary := by
      intro p hp
      obtain ⟨f, hf, rfl⟩ := List.mem_map.mp hp
      exact (hfields f hf).sendable (hnot f hf)
    have hlen : (fields.map (Input.multipartEntry loc)).length
        = ((fields.map Input.pair).map (queryEntry loc)).length := by
      simp only [List.length_map]
    rw [multipartBody, formMultipart_encodeForm hboundary (givesBoundary_multipartType boundary)
      hsendable hplatform.mmap hplatform.pad_le hplatform.size, foldl_addPart, Option.map_some,
      Option.some.injEq, formQuery, queryEntries, Scm.pushAll_inj hlen, List.map_map,
      List.map_inj_left, and_iff_left rfl]
    constructor
    · intro hall f hf
      obtain ⟨hname, hvalue⟩ := (entry_eq_iff hascii hlength f).mp (hall f hf)
      exact ⟨hname, hvalue, hnot f hf⟩
    · intro hall f hf
      obtain ⟨hname, hvalue, -⟩ := hall f hf
      exact (entry_eq_iff hascii hlength f).mpr ⟨hname, hvalue⟩

/-- For every form, whose names and values may be any texts that the encodings can carry: the same
query is stored, in whichever encoding the form arrives, exactly when form-urlencoding leaves the
names as they are, the values are ASCII texts that do not start like a delimiter, and the
form-urlencoded body is read as a whole. -/
theorem form_encodings_agree_iff (hascii : ∀ t, IsAscii t → loc.decode (encodeUtf8 t) = t)
    (hlength : ∀ s, (loc.decode s).length ≤ s.length) {sock' : Socket}
    (hboundary : IsBoundary boundary) (hslash : (47 : UInt8) ∉ boundary)
    (hfields : ∀ f ∈ fields, f.Proper boundary) (hbuf : buf.length = chunkSize)
    (hplatform : platform.Provides boundary fields pad)
    (h : Arrivals loc boundary fields multipart urlencoded get sock sock') (sock'' : Socket) :
  (∃ query, Stores loc platform tmp buf pad multipart sock query ∧
      Stores loc platform tmp buf pad urlencoded sock' query ∧
      Stores loc platform tmp buf pad get sock'' query)
    ↔ (∀ f ∈ fields, encode (encodeUtf8 f.name) = encodeUtf8 f.name ∧ IsAscii f.value ∧
        ¬ f.StartsDelimiter boundary) ∧ ReadAsWhole fields
  := by
  have hnonempty : multipartBody boundary fields ≠ [] := by
    rw [multipartBody, encodeForm_eq]
    simp
  have hdelimiter := delimiter_of_givesBoundary hboundary (givesBoundary_multipartType boundary)
  simp only [stores_multipart_iff h.multipart (prefix_multipartType boundary)
    (strstr_multipartType hslash) hdelimiter hbuf hnonempty hplatform.mmap,
    stores_urlencoded_iff h.urlencoded hplatform.malloc, stores_get_iff h.get, parseQuery_urlencodedText hfields]
  rw [← formMultipart_eq_iff hascii hlength hboundary hfields hplatform,
    ← @parseQuery_take_iff loc boundary fields hfields]
  constructor
  · rintro ⟨query, hmultipart, hurlencoded, hget⟩
    obtain rfl := Option.some.inj hget
    exact ⟨hmultipart, hurlencoded⟩
  · rintro ⟨hmultipart, hurlencoded⟩
    exact ⟨_, hmultipart, hurlencoded, rfl⟩

end

/-- A POST with a content type, and the length of its body. -/
def postRequest (type length : String) : Scm :=
  .acons "method" (.symbol "post".toList) (.acons "content-type" (.str type.toList)
    (.acons "content-length" (.str length.toList) .nil))

/-- A GET with a query string. -/
def getRequest (text : String) : Scm :=
  .acons "method" (.symbol "get".toList) (.acons "query-string" (.str text.toList) .nil)

theorem length_latin1_decode (s : List UInt8) :
  (latin1.decode s).length ≤ s.length
  := by
  change (fromLatin1 s).length ≤ s.length
  rw [fromLatin1, List.length_map]

theorem isBoundary_short :
  IsBoundary (ascii "-x")
  := ⟨⟨_, rfl⟩, forall_mem_of_all (by decide), by decide, by decide⟩

theorem form_encodings_agree_iff_field :
  ∃ query, Stores latin1 .generous (List.replicate · 97) (List.replicate chunkSize 0) 8
        (postRequest "multipart/form-data; boundary=-x" "61")
        ⟨[multipartBody (ascii "-x") [⟨"a".toList, "v".toList⟩]], .closed, by decide⟩ query ∧
      Stores latin1 .generous (List.replicate · 97) (List.replicate chunkSize 0) 8
        (postRequest "application/x-www-form-urlencoded" "3")
        ⟨[urlencodedText [⟨"a".toList, "v".toList⟩]], .closed, by decide⟩ query ∧
      Stores latin1 .generous (List.replicate · 97) (List.replicate chunkSize 0) 8
        (getRequest "a=v") ⟨[], .closed, by simp⟩ query
  := by
  have hascii : IsAscii "v".toList := by
    intro c hc
    obtain rfl := List.mem_singleton.mp hc
    decide
  have harrivals : Arrivals latin1 (ascii "-x") [⟨"a".toList, "v".toList⟩]
      (postRequest "multipart/form-data; boundary=-x" "61")
      (postRequest "application/x-www-form-urlencoded" "3") (getRequest "a=v")
      ⟨[multipartBody (ascii "-x") [⟨"a".toList, "v".toList⟩]], .closed, by decide⟩
      ⟨[urlencodedText [⟨"a".toList, "v".toList⟩]], .closed, by decide⟩ :=
    ⟨⟨by decide, by decide, by decide, by decide⟩, ⟨by decide, by decide, by decide, by decide⟩,
      ⟨by decide, by decide⟩⟩
  apply (form_encodings_agree_iff latin1_decode_ascii length_latin1_decode isBoundary_short ?_ ?_ ?_ ?_
    harrivals _).mpr
  · refine ⟨?_, Or.inl (by decide)⟩
    intro f hf
    obtain rfl := List.mem_singleton.mp hf
    refine ⟨by decide, hascii, ?_⟩
    rw [Input.StartsDelimiter]
    decide
  · decide
  · intro f hf
    obtain rfl := List.mem_singleton.mp hf
    refine ⟨?_, ?_, ?_, by decide⟩
    all_goals
      intro c hc
      obtain rfl := List.mem_singleton.mp hc
      decide
  · exact List.length_replicate
  · exact ⟨by decide, by decide, by decide, by decide⟩

/-- A name with a space, and a value that is not ASCII. -/
theorem form_encodings_differ :
  ¬ ∃ query, Stores latin1 .generous (List.replicate · 97) (List.replicate chunkSize 0) 8
        (postRequest "multipart/form-data; boundary=-x" "64")
        ⟨[multipartBody (ascii "-x") [⟨"a b".toList, "é".toList⟩]], .closed, by decide⟩ query ∧
      Stores latin1 .generous (List.replicate · 97) (List.replicate chunkSize 0) 8
        (postRequest "application/x-www-form-urlencoded" "10")
        ⟨[urlencodedText [⟨"a b".toList, "é".toList⟩]], .closed, by decide⟩ query ∧
      Stores latin1 .generous (List.replicate · 97) (List.replicate chunkSize 0) 8
        (getRequest "a+b=%C3%A9") ⟨[], .closed, by simp⟩ query
  := by
  have hname : ∀ c ∈ "a b".toList, c = 'a' ∨ c = ' ' ∨ c = 'b' := by
    intro c hc
    simpa using hc
  have hfields : ∀ f ∈ [Input.mk "a b".toList "é".toList], f.Proper (ascii "-x") := by
    intro f hf
    obtain rfl := List.mem_singleton.mp hf
    refine ⟨?_, ?_, ?_, by decide⟩
    · intro c hc
      obtain rfl | rfl | rfl := hname c hc <;> decide
    · intro c hc
      obtain rfl | rfl | rfl := hname c hc <;> decide
    · intro c hc
      obtain rfl := List.mem_singleton.mp hc
      decide
  have hplatform : Platform.generous.Provides (ascii "-x") [⟨"a b".toList, "é".toList⟩] 8 :=
    ⟨by decide, by decide, by decide, by decide⟩
  have hget' : FormGet latin1 (getRequest "a+b=%C3%A9")
      (urlencodedText [⟨"a b".toList, "é".toList⟩]) := ⟨by decide, by decide⟩
  have hpost : FormPost latin1 (postRequest "multipart/form-data; boundary=-x" "64")
      ⟨[multipartBody (ascii "-x") [⟨"a b".toList, "é".toList⟩]], .closed, by decide⟩
      (multipartType (ascii "-x")) (multipartBody (ascii "-x") [⟨"a b".toList, "é".toList⟩]) :=
    ⟨by decide, by decide, by decide, by decide⟩
  have hdelimiter := delimiter_of_givesBoundary isBoundary_short
    (givesBoundary_multipartType (ascii "-x"))
  rintro ⟨query, hmultipart, -, hget⟩
  rw [stores_get_iff hget', parseQuery_urlencodedText hfields] at hget
  rw [stores_multipart_iff hpost (prefix_multipartType _) (strstr_multipartType (by decide))
    hdelimiter List.length_replicate (by decide) hplatform.mmap, ← hget,
    formMultipart_eq_iff latin1_decode_ascii length_latin1_decode isBoundary_short hfields hplatform]
    at hmultipart
  obtain ⟨hsame, -⟩ := hmultipart _ List.mem_cons_self
  exact absurd hsame (by decide)

end Gusher
