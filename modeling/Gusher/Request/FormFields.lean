import Gusher.Request.MultipartForm
import Mathlib.Data.List.Forall2
import Mathlib.Data.List.Nodup
import Mathlib.Logic.Embedding.Basic

/-!
# The fields of a form

A field has a name, and a text or a file for its value.  Decoding a multipart form gives back the
fields in reverse order, each with its name and its text, or with its file name and the name of a
temporary file that has the content.
-/

namespace Gusher

open CString

/-- The value of a field. -/
inductive FieldValue where
  | text (t : Text)
  | file (filename : Text) (content : List UInt8)

/-- A field of a form; a browser may send the type of its value. -/
structure Field where
  name : Text
  value : FieldValue
  mediaType : Option (List UInt8)

def FieldValue.content : FieldValue → List UInt8
  | text t => encodeUtf8 t
  | file _ content => content

/-- The original file name of a value, if it is a file. -/
def FieldValue.filename : FieldValue → Option Text
  | text _ => none
  | file filename _ => some filename

def Field.part (f : Field) : Part where
  name := encodeUtf8 f.name
  filename := f.value.filename.map encodeUtf8
  mediaType := f.mediaType
  content := f.value.content

/-- A text that can stand between quotes in a line. -/
def Unquoted (t : Text) : Prop :=
  ∀ c ∈ t, c.toNat ≠ 34 ∧ c.toNat ≠ 13 ∧ c.toNat ≠ 10 ∧ c.toNat ≠ 0

def IsAscii (t : Text) : Prop :=
  ∀ c ∈ t, c.toNat < 128

/-- What the decoder relies on. -/
structure Field.Sendable (boundary : List UInt8) (f : Field) : Prop where
  name_ascii : IsAscii f.name
  name_unquoted : Unquoted f.name
  filename_ascii : ∀ t ∈ f.value.filename, IsAscii t
  filename_unquoted : ∀ t ∈ f.value.filename, Unquoted t
  mediaType : ∀ t ∈ f.mediaType, (13 : UInt8) ∉ t ∧ (10 : UInt8) ∉ t ∧ (0 : UInt8) ∉ t
  /-- the name does not look like the beginning of the parameter `filename` -/
  name_end : find (encodeUtf8 f.name ++ [34]) (ascii "; filename=\"") = none
  no_delimiter : ¬ crlf ++ ascii "--" ++ boundary <:+: f.value.content
  /-- the content does not start with a delimiter that the end of the line before it completes -/
  no_start : ¬ ascii "--" ++ boundary <+: f.value.content

/-- The entry of the query for a field: a text stands in it, and of a file its original name and
the name of a temporary file with its content. -/
def Decoded (loc : Locale) (files : List (List UInt8 × List UInt8)) (f : Field) (entry : Scm) :
    Prop :=
  match f.value with
  | .text t => entry = .pair (.symbol f.name) (.str t)
  | .file filename content =>
      ∃ path, (path, content) ∈ files ∧
        entry = .pair (.symbol f.name) (.pair (.str (loc.decode path)) (.str filename))

/-! ### The bytes of a field -/

theorem quotable_encodeUtf8 {t : Text} (h : Unquoted t) :
  Quotable (encodeUtf8 t)
  := by
  refine ⟨?_, ?_, ?_, ?_⟩
  · exact notMem_encodeUtf8 (by decide) (fun c hc => (h c hc).1)
  · exact notMem_encodeUtf8 (by decide) (fun c hc => (h c hc).2.1)
  · exact notMem_encodeUtf8 (by decide) (fun c hc => (h c hc).2.2.1)
  · exact notMem_encodeUtf8 (by decide) (fun c hc => (h c hc).2.2.2)

/-- The end of the line before the content does not complete a delimiter. -/
theorem not_infix_crlf {boundary content : List UInt8}
    (hnone : ¬ crlf ++ ascii "--" ++ boundary <:+: content)
    (hstart : ¬ ascii "--" ++ boundary <+: content) :
  ¬ crlf ++ ascii "--" ++ boundary <:+: crlf ++ content
  := by
  have hcrlf : ∀ s, crlf ++ s = 13 :: 10 :: s := fun _ => rfl
  intro h
  rw [List.append_assoc] at h hnone
  rw [hcrlf, hcrlf, List.infix_cons_iff, List.infix_cons_iff] at h
  obtain hprefix | hprefix | hmem := h
  · simp only [List.cons_prefix_cons, true_and] at hprefix
    exact hstart hprefix
  · exact absurd (List.cons_prefix_cons.mp hprefix).1 (by decide)
  · exact hnone hmem

/-- The part of a field can be sent. -/
theorem Field.Sendable.part {boundary : List UInt8} {f : Field} (h : f.Sendable boundary) :
  f.part.Sendable boundary
  where
  name := quotable_encodeUtf8 h.name_unquoted
  filename := by
    intro s hs
    obtain ⟨t, ht, rfl⟩ := Option.map_eq_some_iff.mp hs
    exact quotable_encodeUtf8 (h.filename_unquoted t ht)
  mediaType := h.mediaType
  name_end := h.name_end
  content := not_infix_crlf h.no_delimiter h.no_start

/-- In the locale whose encoding is Latin-1 an ASCII text is decoded. -/
theorem latin1_decode_ascii (t : Text) (h : IsAscii t) :
  latin1.decode (encodeUtf8 t) = t
  := by
  rw [encodeUtf8_of_ascii h]
  change fromLatin1 (t.map (fun c => c.toNat.toUInt8)) = t
  rw [fromLatin1, List.map_map]
  calc
    List.map (Char.ofNat ∘ UInt8.toNat ∘ (fun c => c.toNat.toUInt8)) t
    _ = List.map id t := by
        apply List.map_congr_left
        intro c hc
        apply ofNat_toUInt8
        have hcode := h c hc
        omega
    _ = t := List.map_id t

/-! ### The entries -/

/-- More files do not change the entry of a field. -/
theorem Decoded.append {loc : Locale} {files : List (List UInt8 × List UInt8)} {f : Field}
    {entry : Scm} (h : Decoded loc files f entry) (new : List (List UInt8 × List UInt8)) :
  Decoded loc (files ++ new) f entry
  := by
  unfold Decoded at h ⊢
  split
  case h_1 t hvalue =>
      rw [hvalue] at h
      exact h
  case h_2 filename content hvalue =>
      rw [hvalue] at h
      obtain ⟨path, hmem, hentry⟩ := h
      exact ⟨path, List.mem_append_left new hmem, hentry⟩

/-- The files have the names that were made, in order. -/
def Named (tmp : ℕ → List UInt8) (files : List (List UInt8 × List UInt8)) : Prop :=
  files.map Prod.fst = (List.range files.length).map tmp

/-- Adding the part of a field adds its entry, and its file if it has one. -/
theorem exists_of_addPart {loc : Locale} {tmp : ℕ → List UInt8} {boundary : List UInt8} {f : Field}
    {files : List (List UInt8 × List UInt8)}
    (hascii : ∀ t, IsAscii t → loc.decode (encodeUtf8 t) = t) (hf : f.Sendable boundary)
    (hfiles : Named tmp files) (query : Scm) :
  ∃ entry new, addPart loc tmp (query, files) f.part = (.pair entry query, files ++ new) ∧
    Decoded loc (files ++ new) f entry ∧ Named tmp (files ++ new)
  := by
  have hname : loc.makesym (encodeUtf8 f.name) = .symbol f.name := by
    rw [Locale.makesym, hascii f.name hf.name_ascii]
  have hfilename := hf.filename_ascii
  unfold addPart Decoded
  dsimp only [Field.part]
  cases hvalue : f.value with
  | text t =>
      have htext : safeFromUtf8 (encodeUtf8 t) = t := safeFromUtf8_flatMap t
      refine ⟨.pair (.symbol f.name) (.str t), [], ?_, rfl, ?_⟩
      · simp only [FieldValue.filename, FieldValue.content, hname, htext, Option.map_none,
          List.append_nil]
      · rwa [List.append_nil]
  | file filename content =>
      rw [hvalue] at hfilename
      have hdecode := hascii filename (hfilename filename rfl)
      refine ⟨.pair (.symbol f.name) (.pair (.str (loc.decode (tmp files.length))) (.str filename)),
        [(tmp files.length, content)], ?_, ⟨tmp files.length, by simp, rfl⟩, ?_⟩
      · simp [FieldValue.filename, FieldValue.content, hname, hdecode]
      · unfold Named at hfiles ⊢
        rw [List.map_append, List.length_append, hfiles, List.length_singleton, List.range_succ,
          List.map_append]
        rfl

/-- Adding the parts of the fields adds their entries, each before the one added last. -/
theorem exists_of_foldl {loc : Locale} {tmp : ℕ → List UInt8} {boundary : List UInt8}
    {fields : List Field} {files : List (List UInt8 × List UInt8)}
    (hascii : ∀ t, IsAscii t → loc.decode (encodeUtf8 t) = t)
    (hfields : ∀ f ∈ fields, f.Sendable boundary) (hfiles : Named tmp files) (query : Scm) :
  ∃ entries new, (fields.map Field.part).foldl (addPart loc tmp) (query, files)
      = (entries.foldl (fun q e => .pair e q) query, files ++ new) ∧
    List.Forall₂ (Decoded loc (files ++ new)) fields entries ∧ Named tmp (files ++ new)
  := by
  induction fields generalizing query files with
  | nil => exact ⟨[], [], by simp, .nil, by rwa [List.append_nil]⟩
  | cons f fields ih =>
      obtain ⟨entry, new, hadd, hentry, hnamed⟩ :=
        exists_of_addPart hascii (hfields f List.mem_cons_self) hfiles query
      obtain ⟨entries, new', hfold, hentries, hnamed'⟩ :=
        ih (fun g hg => hfields g (List.mem_cons_of_mem f hg)) hnamed (.pair entry query)
      refine ⟨entry :: entries, new ++ new', ?_, ?_, ?_⟩
      · rw [List.map_cons, List.foldl_cons, hadd, hfold, List.foldl_cons, List.append_assoc]
      · rw [← List.append_assoc]
        exact .cons (hentry.append new') hentries
      · rw [← List.append_assoc]
        exact hnamed'

/-- Decoding a form gives back its fields in reverse order, each with its name, a text as it is, and
a file with its original name and a temporary file of its own that has its content. -/
theorem formMultipart_round_trip {loc : Locale}
    (hascii : ∀ t, IsAscii t → loc.decode (encodeUtf8 t) = t) {platform : Platform}
    (tmp : ℕ ↪ List UInt8) {ctype boundary : List UInt8} {fields : List Field} {pad : ℕ}
    (hboundary : IsBoundary boundary) (hctype : GivesBoundary ctype boundary)
    (hfields : ∀ f ∈ fields, f.Sendable boundary)
    (hmap : platform.mmap (encodeForm boundary (fields.map Field.part)).length = true)
    (hpad : boundary.length + 6 ≤ pad)
    (hsize : (encodeForm boundary (fields.map Field.part)).length + pad < 2 ^ 63) :
  ∃ entries files, formMultipart loc platform tmp ctype
      (encodeForm boundary (fields.map Field.part)) pad
      = some (Scm.ofList entries.reverse, files) ∧
    List.Forall₂ (Decoded loc files) fields entries ∧ (files.map Prod.fst).Nodup
  := by
  have hparts : ∀ p ∈ fields.map Field.part, p.Sendable boundary := by
    intro p hp
    obtain ⟨f, hf, rfl⟩ := List.mem_map.mp hp
    exact (hfields f hf).part
  obtain ⟨entries, files, hfold, hentries, hnamed⟩ :=
    @exists_of_foldl loc tmp boundary fields [] hascii hfields rfl .nil
  rw [List.nil_append] at hfold hentries hnamed
  refine ⟨entries, files, ?_, hentries, ?_⟩
  · rw [formMultipart_encodeForm hboundary hctype hparts hmap hpad hsize, hfold, Scm.ofList,
      List.foldr_reverse]
  · rw [hnamed]
    exact List.nodup_range.map tmp.injective

/-- A field with a text, and one with a file that has the beginning of a delimiter in it. -/
def textAndFile : List Field :=
  [⟨"a".toList, .text "v".toList, none⟩,
    ⟨"b".toList, .file "f.txt".toList (crlf ++ ascii "--y"), some (ascii "text/plain")⟩]

theorem formMultipart_round_trip_field :
  ∃ entries files, formMultipart latin1 .generous (List.replicate · 97)
      (ascii "multipart/form-data; boundary=-x")
      (encodeForm (ascii "-x") (textAndFile.map Field.part)) 8
      = some (Scm.ofList entries.reverse, files) ∧
    List.Forall₂ (Decoded latin1 files) textAndFile entries ∧ (files.map Prod.fst).Nodup
  := by
  have hplain : ∀ text ∈ ["a".toList, "b".toList, "f.txt".toList], text.all (fun c =>
      c.toNat < 128 ∧ c.toNat ≠ 34 ∧ c.toNat ≠ 13 ∧ c.toNat ≠ 10 ∧ c.toNat ≠ 0) = true := by decide
  have hname : ∀ text ∈ ["a".toList, "b".toList, "f.txt".toList], IsAscii text ∧ Unquoted text := by
    intro text htext
    have hall := fun c hc => of_decide_eq_true (List.all_eq_true.mp (hplain text htext) c hc)
    exact ⟨fun c hc => (hall c hc).1, fun c hc => (hall c hc).2⟩
  have hfile : ∀ t ∈ some "f.txt".toList, IsAscii t ∧ Unquoted t := by
    intro t ht
    obtain rfl := Option.some.inj ht
    exact hname _ (.tail _ (.tail _ (.head _)))
  apply formMultipart_round_trip latin1_decode_ascii
    ⟨(List.replicate · 97), List.replicate_left_injective 97⟩
  · exact ⟨⟨_, rfl⟩, forall_mem_of_all (by decide), by decide, by decide⟩
  · exact ⟨_, ascii "boundary=", rfl, by decide⟩
  · intro f hf
    simp only [textAndFile, List.mem_cons, List.not_mem_nil, or_false] at hf
    rcases hf with rfl | rfl
    · refine ⟨(hname _ (.head _)).1, (hname _ (.head _)).2, ?_, ?_, ?_, rfl, by decide, by decide⟩
      · simp [FieldValue.filename]
      · simp [FieldValue.filename]
      · simp
    · have hb := hname "b".toList (.tail _ (.head _))
      refine ⟨hb.1, hb.2, fun t ht => (hfile t ht).1, fun t ht => (hfile t ht).2, ?_, rfl, by decide,
        by decide⟩
      intro t ht
      obtain rfl := Option.some.inj ht
      decide
  · decide +kernel
  · decide
  · decide +kernel

/-- The name of a field looks like the beginning of a parameter; the content of a field starts like
a delimiter; the content type has two parameters that end with `boundary=`. -/
theorem formMultipart_mimics :
  formMultipart latin1 .generous (List.replicate · 97) (ascii "multipart/form-data; boundary=-x")
      (encodeForm (ascii "-x") ([⟨"a; filename=".toList, .text "v".toList, none⟩].map Field.part)) 8
    = none ∧
  formMultipart latin1 .generous (List.replicate · 97) (ascii "multipart/form-data; boundary=-x")
      (encodeForm (ascii "-x") ([⟨"a".toList, .text "---xy".toList, none⟩].map Field.part)) 8
    = some (Scm.ofList [.pair (.symbol "a".toList) (.str [])], []) ∧
  formMultipart latin1 .generous (List.replicate · 97)
      (ascii "multipart/form-data; xboundary=-; boundary=-x")
      (encodeForm (ascii "-x") ([⟨"a".toList, .text "v".toList, none⟩].map Field.part)) 8
    = some (.nil, [])
  := by
  have hdelimiter : delimiter (ascii "multipart/form-data; boundary=-x")
      = some (some (crlf ++ ascii "---x")) := by decide
  refine ⟨?_, ?_, ?_⟩
  · have hline : splitLine (encodeForm (ascii "-x")
        ([⟨"a; filename=".toList, .text "v".toList, none⟩].map Field.part) ++ List.replicate 8 0)
        = some (ascii "---x\r", ascii "Content-Disposition: form-data; name=\"a; filename=\"" ++ crlf
          ++ crlf ++ ascii "v" ++ crlf ++ ascii "---x--" ++ crlf ++ List.replicate 8 0) := by
      decide
    have hfound : Search.strstr (List.take 72 (ascii
        "Content-Disposition: form-data; name=\"a; filename=\"" ++ crlf ++ crlf ++ ascii "v" ++ crlf
          ++ ascii "---x--" ++ crlf ++ List.replicate 8 0)) (crlf ++ ascii "---x")
        = some (ascii "Content-Disposition: form-data; name=\"a; filename=\"" ++ crlf ++ crlf
          ++ ascii "v", crlf ++ ascii "---x--" ++ crlf ++ List.replicate 6 0) := by decide
    have hchunk : splitLine (ascii "Content-Disposition: form-data; name=\"a; filename=\"" ++ crlf
        ++ crlf ++ ascii "v") = some (ascii "Content-Disposition: form-data; name=\"a; filename=\"\r",
          crlf ++ ascii "v") := by decide
    have hpart : ∀ path, partText latin1 path (ascii
        "Content-Disposition: form-data; name=\"a; filename=\"" ++ crlf ++ crlf ++ ascii "v")
        = none := by
      intro path
      have hstrip : stripCr (ascii "Content-Disposition: form-data; name=\"a; filename=\"\r")
          = ascii "Content-Disposition: form-data; name=\"a; filename=\"" := by decide
      have hheader : headerText (ascii "Content-Disposition: form-data; name=\"a; filename=\"")
          = none := by decide
      rw [partText, chunkText_of_some hchunk, hstrip, hheader, if_neg (by decide)]
      rfl
    rw [formMultipart, hdelimiter]
    dsimp only
    rw [if_pos (by decide), parseMap_eq _ (by decide) (by decide), hline, Option.bind_some]
    have hlength : (encodeForm (ascii "-x")
        ([⟨"a; filename=".toList, .text "v".toList, none⟩].map Field.part)).length = 72 := by decide
    rw [hlength, partsText_of_some hfound, hpart, Option.bind_none]
  · have hline : splitLine (encodeForm (ascii "-x")
        ([⟨"a".toList, .text "---xy".toList, none⟩].map Field.part) ++ List.replicate 8 0)
        = some (ascii "---x\r", ascii "Content-Disposition: form-data; name=\"a\"" ++ crlf
          ++ crlf ++ ascii "---xy" ++ crlf ++ ascii "---x--" ++ crlf ++ List.replicate 8 0) := by
      decide
    have hfound : Search.strstr (List.take 65 (ascii "Content-Disposition: form-data; name=\"a\""
        ++ crlf ++ crlf ++ ascii "---xy" ++ crlf ++ ascii "---x--" ++ crlf ++ List.replicate 8 0))
        (crlf ++ ascii "---x") = some (ascii "Content-Disposition: form-data; name=\"a\"" ++ crlf,
          crlf ++ ascii "---xy" ++ crlf ++ ascii "---x--" ++ crlf ++ List.replicate 6 0) := by decide
    have hchunk : splitLine (ascii "Content-Disposition: form-data; name=\"a\"" ++ crlf)
        = some (ascii "Content-Disposition: form-data; name=\"a\"\r", []) := by decide
    have hpart : ∀ path, partText latin1 path (ascii "Content-Disposition: form-data; name=\"a\""
        ++ crlf) = some (.pair (.symbol "a".toList) (.str []), none) := by
      intro path
      have hstrip : stripCr (ascii "Content-Disposition: form-data; name=\"a\"\r")
          = ascii "Content-Disposition: form-data; name=\"a\"" := by decide
      have hheader : headerText (ascii "Content-Disposition: form-data; name=\"a\"")
          = some (some (ascii "a"), none) := by decide
      rw [partText, chunkText_of_some hchunk, hstrip, hheader, if_neg (by decide), Option.bind_some,
        chunkText_of_none rfl]
      rfl
    have hrest : splitLine (List.drop ((ascii "Content-Disposition: form-data; name=\"a\""
        ++ crlf).length + (crlf ++ ascii "---x").length)
        (ascii "Content-Disposition: form-data; name=\"a\"" ++ crlf ++ crlf ++ ascii "---xy" ++ crlf
          ++ ascii "---x--" ++ crlf ++ List.replicate 8 0))
        = some (ascii "y\r", ascii "---x--" ++ crlf ++ List.replicate 8 0) := by decide
    have hlast : Search.strstr (List.take 14 (ascii "---x--" ++ crlf ++ List.replicate 8 0))
        (crlf ++ ascii "---x") = none := by decide
    have hlength : (encodeForm (ascii "-x")
        ([⟨"a".toList, .text "---xy".toList, none⟩].map Field.part)).length = 65 := by decide
    have hcount : sizeT ((65 : ℕ) - ((ascii "Content-Disposition: form-data; name=\"a\""
        ++ crlf).length + (crlf ++ ascii "---x").length + (ascii "y\r").length + 1 : ℕ)) = 14 := by
      decide
    rw [formMultipart, hdelimiter]
    dsimp only
    rw [if_pos (by decide), parseMap_eq _ (by decide) (by decide), hline, Option.bind_some]
    rw [hlength, partsText_of_some hfound, hpart, Option.bind_some, hrest, Option.bind_some]
    dsimp only
    rw [hcount, partsText_of_none hlast]
    rfl
  · have hother : delimiter (ascii "multipart/form-data; xboundary=-; boundary=-x")
        = some (some (crlf ++ ascii "---; boundary=-x")) := by decide
    have hline : splitLine (encodeForm (ascii "-x")
        ([⟨"a".toList, .text "v".toList, none⟩].map Field.part) ++ List.replicate 8 0)
        = some (ascii "---x\r", ascii "Content-Disposition: form-data; name=\"a\"" ++ crlf
          ++ crlf ++ ascii "v" ++ crlf ++ ascii "---x--" ++ crlf ++ List.replicate 8 0) := by
      decide
    have hlast : Search.strstr (List.take 61 (ascii "Content-Disposition: form-data; name=\"a\""
        ++ crlf ++ crlf ++ ascii "v" ++ crlf ++ ascii "---x--" ++ crlf ++ List.replicate 8 0))
        (crlf ++ ascii "---; boundary=-x") = none := by decide
    have hlength : (encodeForm (ascii "-x")
        ([⟨"a".toList, .text "v".toList, none⟩].map Field.part)).length = 61 := by decide
    rw [formMultipart, hother]
    dsimp only
    rw [if_pos (by decide), parseMap_eq _ (by decide) (by decide), hline, Option.bind_some, hlength]
    dsimp only
    rw [partsText_of_none hlast]
    rfl

end Gusher
