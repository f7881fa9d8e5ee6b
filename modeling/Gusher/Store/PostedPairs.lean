import Gusher.Store.Publish

/-!
# Posting pairs

`post_data` turns the pairs around and writes them with separators in between; `parse_query` reads
them one after the other, and puts each in front of those that it has read.  So the pairs come back
in their order, with the bytes of each value for its characters, if there are any
(`parseQuery_postData_iff`).
-/

namespace Gusher

open CString Urlencoded

/-- The key of a pair that is posted: the key is not escaped. -/
structure PostKey (k : Text) : Prop where
  ascii : IsAscii k
  no_amp : '&' ∉ k
  no_eq : '=' ∉ k
  no_nul : Char.ofNat 0 ∉ k

/-- What `parse_query` makes of a pair: a value is read as Latin-1. -/
def readPair (p : Text × Text) : Text × Scm :=
  (p.1, .str (fromLatin1 (encodeUtf8 p.2)))

/-- A byte that is the code of a character that does not occur in a key. -/
theorem PostKey.notMem {k : Text} {c : Char} (hc : c ∉ k) {b : UInt8} (hb : b.toNat < 128)
    (hcode : Char.ofNat b.toNat = c) :
  b ∉ encodeUtf8 k
  := by
  apply notMem_encodeUtf8 hb
  intro d hd heq
  apply hc
  rw [← hcode, ← heq, Char.ofNat_toNat]
  exact hd

/-! ### Reading -/

section

variable {loc : Locale} {lib : PostLibrary}

theorem qduple_of_percent (hlib : lib.Percent) {q : Text × Text} (hvalue : Char.ofNat 0 ∉ q.2) :
  lib.qduple q = (encodeUtf8 q.1, percentEncode (encodeUtf8 q.2))
  := by
  rw [PostLibrary.qduple, hlib _ (zero_notMem_encodeUtf8 hvalue)]

/-- The entry of a pair is read from its text. -/
theorem parseParameter_qduple (hlib : lib.Percent)
    (hascii : ∀ t, IsAscii t → loc.decode (encodeUtf8 t) = t) {q : Text × Text} (hkey : PostKey q.1)
    (hvalue : Char.ofNat 0 ∉ q.2) (p r : List UInt8) (list : Scm) :
  ∃ p', parseParameter loc (p ++ duple (lib.qduple q) ++ 0 :: r) p.length list
      = some (p' ++ r, .pair (.member (readPair q)) list) ∧
    p'.length = (p ++ duple (lib.qduple q)).length + 1
  := by
  rw [qduple_of_percent hlib hvalue]
  obtain ⟨gap, hdecode⟩ := decodeQuery_all decodeQuery_percentCode (encodeUtf8 q.2)
    (p ++ encodeUtf8 q.1 ++ [0]) r
  have hparam := @parseParameter_decoded loc _ _ _ _ _ _ list
    (PostKey.notMem hkey.no_eq (by decide) rfl) (PostKey.notMem hkey.no_nul (by decide) rfl)
    (zero_notMem_encodeUtf8 hvalue) hdecode
  rw [Locale.makesym, hascii q.1 hkey.ascii] at hparam
  exact hparam

/-- Neither a separator of pairs nor a NUL occurs in the text of a pair. -/
theorem notMem_qduple (hlib : lib.Percent) {q : Text × Text} (hkey : PostKey q.1)
    (hvalue : Char.ofNat 0 ∉ q.2) {b : UInt8} (hb : b = 38 ∨ b = 0) :
  b ∉ duple (lib.qduple q)
  := by
  have hname : b ∉ encodeUtf8 q.1 := by
    rcases hb with rfl | rfl
    · exact PostKey.notMem hkey.no_amp (by decide) rfl
    · exact PostKey.notMem hkey.no_nul (by decide) rfl
  rw [qduple_of_percent hlib hvalue, duple, List.mem_append, List.mem_cons, not_or, not_or]
  refine ⟨hname, ?_, ?_⟩
  · rintro rfl
    revert hb
    decide
  · intro hmem
    obtain ⟨hzero, hamp⟩ := of_mem_percentEncode hmem
    exact hb.elim hamp hzero

/-- The entries of the pairs are read one after the other, each in front of those before. -/
theorem parseQuery_joinDuples (hlib : lib.Percent)
    (hascii : ∀ t, IsAscii t → loc.decode (encodeUtf8 t) = t)
    {qs : List (Text × Text)} (hqs : ∀ q ∈ qs, PostKey q.1 ∧ Char.ofNat 0 ∉ q.2)
    (p : List UInt8) (list : List (Text × Scm)) :
  parseQuery loc (p ++ joinDuples (qs.map lib.qduple) ++ [0]) p.length (.alist list)
    = some (.alist ((qs.map readPair).reverse ++ list))
  := by
  induction qs generalizing p list with
  | nil =>
      have hempty : p ++ joinDuples (([] : List (Text × Text)).map lib.qduple) = p ++ [] := rfl
      rw [hempty, parseQuery_of_notMem (by simp) (by simp),
        parseParameter_of_notMem (by simp) (by simp)]
      rfl
  | cons q qs ih =>
      obtain ⟨hkey, hvalue⟩ := hqs q List.mem_cons_self
      have hamp := notMem_qduple hlib hkey hvalue (Or.inl rfl)
      have hnul := notMem_qduple hlib hkey hvalue (Or.inr rfl)
      cases qs with
      | nil =>
          have hjoin : joinDuples ([q].map lib.qduple) = duple (lib.qduple q) := rfl
          obtain ⟨p', hparam, -⟩ :=
            parseParameter_qduple hlib hascii hkey hvalue p [] (.alist list)
          rw [hjoin, parseQuery_of_notMem hamp hnul, hparam]
          rfl
      | cons r qs =>
          have hjoin : joinDuples ((q :: r :: qs).map lib.qduple)
              = duple (lib.qduple q) ++ 38 :: joinDuples ((r :: qs).map lib.qduple) := rfl
          obtain ⟨p', hparam, hlen⟩ := parseParameter_qduple hlib hascii hkey hvalue p
            (joinDuples ((r :: qs).map lib.qduple) ++ [0]) (.alist list)
          have hrest := ih (fun d hd => hqs d (List.mem_cons_of_mem q hd)) p' (readPair q :: list)
          have hlist : ((q :: r :: qs).map readPair).reverse ++ list
              = ((r :: qs).map readPair).reverse ++ readPair q :: list := by simp
          rw [hjoin, parseQuery_parameter hamp hnul hparam hlen, hlist]
          exact hrest

/-- The pairs of a post come back from its text. -/
theorem parseQuery_postPairs (hlib : lib.Percent)
    (hascii : ∀ t, IsAscii t → loc.decode (encodeUtf8 t) = t) {ps : List (Text × Text)}
    (hps : ∀ p ∈ ps, PostKey p.1 ∧ Char.ofNat 0 ∉ p.2) :
  parseQuery loc (joinDuples (ps.map lib.qduple).reverse ++ [0]) 0 .nil
    = some (.alist (ps.map readPair))
  := by
  have hparse := @parseQuery_joinDuples loc lib hlib hascii ps.reverse
    (fun q hq => hps q (List.mem_reverse.mp hq)) [] []
  rw [List.map_reverse, List.map_reverse, List.reverse_reverse, List.append_nil] at hparse
  exact hparse

theorem nulFreePairs_of_postKey {ps : List (Text × Text)}
    (hps : ∀ p ∈ ps, PostKey p.1 ∧ Char.ofNat 0 ∉ p.2) :
  NulFreePairs ps
  := fun p hp => ⟨(hps p hp).1.no_nul, (hps p hp).2⟩

/-- **Posted pairs**: they come back in the same order, each key as a symbol, and each value as the
string whose Latin-1 bytes are the UTF-8 bytes of the value, exactly if there are pairs. -/
theorem parseQuery_postData_iff (hlib : lib.Percent)
    (hascii : ∀ t, IsAscii t → loc.decode (encodeUtf8 t) = t)
    {ps : List (Text × Text)} (hps : ∀ p ∈ ps, PostKey p.1 ∧ Char.ofNat 0 ∉ p.2) {args : Scm}
    (hargs : args.assqRef "post".toList = postPairs ps) :
  (∃ buf, postData lib args = .done (some (some buf))
    ∧ parseQuery loc buf 0 .nil
      = some (.alist (ps.map (fun p => (p.1, .str (fromLatin1 (encodeUtf8 p.2)))))))
    ↔ ps ≠ []
  := by
  rw [postData_postPairs lib (nulFreePairs_of_postKey hps) hargs]
  split
  case isTrue hnil =>
      apply iff_of_false _ (not_not.mpr hnil)
      rintro ⟨buf, hbuf, -⟩
      cases hbuf
  case isFalse hne =>
      exact iff_of_true ⟨_, rfl, parseQuery_postPairs hlib hascii hps⟩ hne

end

/-- Two pairs with one key: a value with the separators, a percent sign and a letter that is not
ASCII, and an empty one. -/
theorem parseQuery_postData_repeated :
  ∃ buf, postData curlLibrary (.alist [("post".toList, postPairs [("k+".toList, "&=%é".toList),
        ("k+".toList, [])])]) = .done (some (some buf))
    ∧ parseQuery latin1 buf 0 .nil
      = some (.alist ([("k+".toList, "&=%é".toList), ("k+".toList, [])].map
        (fun p => (p.1, .str (fromLatin1 (encodeUtf8 p.2))))))
  := by
  have hkey : PostKey "k+".toList := ⟨isAscii_of_all rfl, by decide, by decide, by decide⟩
  refine (@parseQuery_postData_iff latin1 curlLibrary percent_curlLibrary latin1_decode_ascii
    [("k+".toList, "&=%é".toList), ("k+".toList, [])] ?_
    (.alist [("post".toList, postPairs [("k+".toList, "&=%é".toList), ("k+".toList, [])])])
    rfl).mpr (List.cons_ne_nil _ _)
  intro p hp
  rcases List.mem_cons.mp hp with rfl | hp
  · exact ⟨hkey, by decide⟩
  · rw [List.mem_singleton.mp hp]
    exact ⟨hkey, by decide⟩

/-- For the empty list the terminator is written behind a block of no bytes, and no text is
returned. -/
theorem empty_post_not_recovered :
  postData curlLibrary (.alist [("post".toList, postPairs [])]) = .fault
    ∧ ¬ ∃ buf, postData curlLibrary (.alist [("post".toList, postPairs [])]) = .done (some (some buf))
      ∧ parseQuery latin1 buf 0 .nil = some (.alist [])
  := by
  have hrun : postData curlLibrary (.alist [("post".toList, postPairs [])]) = .fault := rfl
  refine ⟨hrun, ?_⟩
  rintro ⟨buf, hbuf, -⟩
  rw [hrun] at hbuf
  cases hbuf

end Gusher
