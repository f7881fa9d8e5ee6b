import Gusher.Library.Urlencoded
import Gusher.Request.Query

/-!
# Parsing form-urlencoded queries

The parser reads back the values of a form-urlencoded query as Latin-1, and leaves the names as
they are encoded.  From a query that is cut off it reads the same entries only when the cut leaves
of the last value the percent sign of an escape for a percent sign.
-/

namespace Gusher

open CString Urlencoded

variable {buf : List UInt8} {get put : ℕ}

/-! ### The steps of the decoder -/

theorem decodeQuery_out (h : buf[get]? = none) :
  decodeQuery buf get put = none
  := by
  rw [decodeQuery]
  split
  case h_1 => rfl
  case h_2 c hc =>
      rw [h] at hc
      cases hc

/-- The decoder at a byte of the buffer. -/
theorem decodeQuery_byte {c : UInt8} (h : buf[get]? = some c) :
  decodeQuery buf get put
    = if c = 0 then some (buf.set put 0)
      else if c = 43 then decodeQuery (buf.set put 32) (get + 1) (put + 1)
      else if c = 37 ∧ isxdigit (buf.getD (get + 1) 0) then
        decodeQuery (buf.set put (decodeHex (buf.getD (get + 1) 0) (buf.getD (get + 2) 0)))
          (get + 3) (put + 1)
      else decodeQuery (buf.set put c) (get + 1) (put + 1)
  := by
  rw [decodeQuery]
  split
  case h_1 hc =>
      rw [h] at hc
      cases hc
  case h_2 d hd =>
      rw [h] at hd
      obtain rfl := Option.some.inj hd
      rfl

theorem decodeHex_escapeDigit (c : UInt8) :
  decodeHex (escapeDigit (c.toNat / 16)) (escapeDigit (c.toNat % 16)) = c
  := by
  revert c
  apply forall_byte
  decide +kernel

/-- Of the buffer `a ++ gap ++ x ++ s`, in which `a` is decoded, what is read at `x`. -/
theorem getElem?_gap (a gap x s : List UInt8) (i : ℕ) :
  (a ++ gap ++ (x ++ s))[(a ++ gap).length + i]? = (x ++ s)[i]?
  := by
  rw [List.getElem?_append_right (Nat.le_add_right _ i), Nat.add_sub_cancel_left]

/-- A byte is written after what is decoded, and the code that was read joins the gap. -/
theorem exists_set (a gap x s : List UInt8) (d : UInt8) (hx : x ≠ []) :
  ∃ gap', (a ++ gap ++ (x ++ s)).set a.length d = (a ++ [d]) ++ gap' ++ s ∧
    (a ++ [d] ++ gap').length = (a ++ gap).length + x.length
  := by
  obtain ⟨y, ys, hys⟩ := List.exists_cons_of_ne_nil (List.append_ne_nil_of_right_ne_nil gap hx)
  have hlen := congrArg List.length hys
  rw [List.length_append, List.length_cons] at hlen
  refine ⟨ys, ?_, ?_⟩
  · rw [List.append_assoc, ← List.append_assoc gap, hys, List.set_append_right _ _ (Nat.le_refl _),
      Nat.sub_self]
    simp
  · simp only [List.length_append, List.length_singleton]
    omega

/-- A byte that is no plus and no percent sign stands for itself. -/
theorem decodeQuery_plain {c : UInt8} (hnul : c ≠ 0) (hplus : c ≠ 43) (hpercent : c ≠ 37)
    (a gap s : List UInt8) :
  ∃ gap', decodeQuery (a ++ gap ++ ([c] ++ s)) (a ++ gap).length a.length
    = decodeQuery ((a ++ [c]) ++ gap' ++ s) (a ++ [c] ++ gap').length (a ++ [c]).length
  := by
  obtain ⟨gap', hset, hlen⟩ := exists_set a gap [c] s c (List.cons_ne_nil c [])
  use gap'
  have hfirst := getElem?_gap a gap [c] s 0
  have hput : (a ++ [c]).length = a.length + 1 := by rw [List.length_append, List.length_singleton]
  rw [Nat.add_zero] at hfirst
  rw [hlen, hput, ← hset, decodeQuery_byte hfirst, if_neg hnul, if_neg hplus,
    if_neg (fun h => hpercent h.1)]
  rfl

/-- A plus stands for a space. -/
theorem decodeQuery_plus (a gap s : List UInt8) :
  ∃ gap', decodeQuery (a ++ gap ++ ([43] ++ s)) (a ++ gap).length a.length
    = decodeQuery ((a ++ [32]) ++ gap' ++ s) (a ++ [32] ++ gap').length (a ++ [32]).length
  := by
  obtain ⟨gap', hset, hlen⟩ := exists_set a gap [43] s 32 (List.cons_ne_nil 43 [])
  use gap'
  have hfirst := getElem?_gap a gap [43] s 0
  have hput : (a ++ [(32 : UInt8)]).length = a.length + 1 := by
    rw [List.length_append, List.length_singleton]
  rw [Nat.add_zero] at hfirst
  rw [hlen, hput, ← hset, decodeQuery_byte hfirst]
  rfl

/-- An escape stands for its byte. -/
theorem decodeQuery_escape (c : UInt8) (a gap s : List UInt8) :
  ∃ gap', decodeQuery
      (a ++ gap ++ ([37, escapeDigit (c.toNat / 16), escapeDigit (c.toNat % 16)] ++ s))
      (a ++ gap).length a.length
    = decodeQuery ((a ++ [c]) ++ gap' ++ s) (a ++ [c] ++ gap').length (a ++ [c]).length
  := by
  obtain ⟨gap', hset, hlen⟩ := exists_set a gap
    [37, escapeDigit (c.toNat / 16), escapeDigit (c.toNat % 16)] s c (List.cons_ne_nil 37 _)
  use gap'
  have hread := getElem?_gap a gap [37, escapeDigit (c.toNat / 16), escapeDigit (c.toNat % 16)] s
  have hfirst := hread 0
  have hput : (a ++ [c]).length = a.length + 1 := by rw [List.length_append, List.length_singleton]
  have hhigh : List.getD
      (a ++ gap ++ ([37, escapeDigit (c.toNat / 16), escapeDigit (c.toNat % 16)] ++ s))
      ((a ++ gap).length + 1) 0 = escapeDigit (c.toNat / 16) := by
    rw [List.getD_eq_getElem?_getD, hread 1]
    rfl
  have hlow : List.getD
      (a ++ gap ++ ([37, escapeDigit (c.toNat / 16), escapeDigit (c.toNat % 16)] ++ s))
      ((a ++ gap).length + 2) 0 = escapeDigit (c.toNat % 16) := by
    rw [List.getD_eq_getElem?_getD, hread 2]
    rfl
  rw [Nat.add_zero] at hfirst
  rw [hlen, hput, ← hset, decodeQuery_byte hfirst, if_neg (by decide), if_neg (by decide), hhigh,
    hlow, if_pos ⟨rfl, isxdigit_escapeDigit c⟩, decodeHex_escapeDigit]
  rfl

/-- The decoder reads the code of a byte and writes the byte. -/
theorem decodeQuery_code (c : UInt8) (a gap s : List UInt8) :
  ∃ gap', decodeQuery (a ++ gap ++ (code c ++ s)) (a ++ gap).length a.length
    = decodeQuery ((a ++ [c]) ++ gap' ++ s) (a ++ [c] ++ gap').length (a ++ [c]).length
  := by
  obtain ⟨hc, hcode⟩ | ⟨rfl, hcode⟩ | hcode := code_cases c
  · obtain ⟨hnul, hplus, hpercent⟩ := of_isUnreserved hc
    rw [hcode]
    exact decodeQuery_plain hnul hplus hpercent a gap s
  · rw [hcode]
    exact decodeQuery_plus a gap s
  · rw [hcode]
    exact decodeQuery_escape c a gap s

/-- The decoder reads the code of a byte in a URL and writes the byte. -/
theorem decodeQuery_percentCode (c : UInt8) (a gap s : List UInt8) :
  ∃ gap', decodeQuery (a ++ gap ++ (percentCode c ++ s)) (a ++ gap).length a.length
    = decodeQuery ((a ++ [c]) ++ gap' ++ s) (a ++ [c] ++ gap').length (a ++ [c]).length
  := by
  obtain ⟨hnul, hplus, hpercent, hcode⟩ | hcode := (percentCode_cases c).1
  · rw [hcode]
    exact decodeQuery_plain hnul hplus hpercent a gap s
  · rw [hcode]
    exact decodeQuery_escape c a gap s

/-- The decoder reads a text, each of whose bytes it reads, and writes it. -/
theorem decodeQuery_flatMap {code : UInt8 → List UInt8}
    (hcode : ∀ c a gap s, ∃ gap',
      decodeQuery (a ++ gap ++ (code c ++ s)) (a ++ gap).length a.length
        = decodeQuery ((a ++ [c]) ++ gap' ++ s) (a ++ [c] ++ gap').length (a ++ [c]).length)
    (w a gap s : List UInt8) :
  ∃ gap', decodeQuery (a ++ gap ++ (w.flatMap code ++ s)) (a ++ gap).length a.length
    = decodeQuery ((a ++ w) ++ gap' ++ s) (a ++ w ++ gap').length (a ++ w).length
  := by
  induction w generalizing a gap with
  | nil => exact ⟨gap, by simp⟩
  | cons c w ih =>
      obtain ⟨gap', hfirst⟩ := hcode c a gap (w.flatMap code ++ s)
      obtain ⟨gap'', hrest⟩ := ih (a ++ [c]) gap'
      use gap''
      rw [List.flatMap_cons, List.append_assoc (code c), hfirst, hrest]
      simp

theorem decodeQuery_encode (w a gap s : List UInt8) :
  ∃ gap', decodeQuery (a ++ gap ++ (encode w ++ s)) (a ++ gap).length a.length
    = decodeQuery ((a ++ w) ++ gap' ++ s) (a ++ w ++ gap').length (a ++ w).length
  := decodeQuery_flatMap decodeQuery_code w a gap s

/-- The decoder writes a NUL after the text at the NUL that it reads. -/
theorem decodeQuery_end (a gap s : List UInt8) :
  ∃ gap', decodeQuery (a ++ gap ++ 0 :: s) (a ++ gap).length a.length
    = some (a ++ 0 :: (gap' ++ s))
  := by
  obtain ⟨gap', hset, -⟩ := exists_set a gap [0] s 0 (List.cons_ne_nil 0 [])
  have hfirst := getElem?_gap a gap [0] s 0
  use gap'
  rw [Nat.add_zero] at hfirst
  rw [List.singleton_append] at hset hfirst
  rw [decodeQuery_byte hfirst, if_pos rfl, hset]
  simp

/-- The decoder gives a text back, each of whose bytes it reads. -/
theorem decodeQuery_all {code : UInt8 → List UInt8}
    (hcode : ∀ c a gap s, ∃ gap',
      decodeQuery (a ++ gap ++ (code c ++ s)) (a ++ gap).length a.length
        = decodeQuery ((a ++ [c]) ++ gap' ++ s) (a ++ [c] ++ gap').length (a ++ [c]).length)
    (w a s : List UInt8) :
  ∃ gap, decodeQuery (a ++ w.flatMap code ++ 0 :: s) a.length a.length
    = some (a ++ w ++ 0 :: (gap ++ s))
  := by
  obtain ⟨gap, hencode⟩ := decodeQuery_flatMap hcode w a [] (0 :: s)
  obtain ⟨gap', hend⟩ := decodeQuery_end (a ++ w) gap s
  use gap'
  rw [List.append_nil] at hencode
  rw [List.append_assoc, hencode, hend]

theorem decodeQuery_text (w a s : List UInt8) :
  ∃ gap, decodeQuery (a ++ encode w ++ 0 :: s) a.length a.length
    = some (a ++ w ++ 0 :: (gap ++ s))
  := decodeQuery_all decodeQuery_code w a s

/-- A percent sign at the end stands for itself. -/
theorem decodeQuery_percent (w a s : List UInt8) :
  ∃ gap, decodeQuery (a ++ (encode w ++ [37]) ++ 0 :: s) a.length a.length
    = some (a ++ (w ++ [37]) ++ 0 :: (gap ++ s))
  := by
  obtain ⟨gap, hencode⟩ := decodeQuery_encode w a [] (37 :: 0 :: s)
  obtain ⟨gap', hset, hlen⟩ := exists_set (a ++ w) gap [37] (0 :: s) 37 (List.cons_ne_nil 37 [])
  obtain ⟨gap'', hend⟩ := decodeQuery_end (a ++ w ++ [37]) gap' s
  have hfirst := getElem?_gap (a ++ w) gap [37] (0 :: s) 0
  have hsecond := getElem?_gap (a ++ w) gap [37] (0 :: s) 1
  have hput : (a ++ w ++ [37]).length = (a ++ w).length + 1 := by
    rw [List.length_append, List.length_singleton]
  use gap''
  rw [List.singleton_append] at hset hfirst hsecond
  rw [List.append_nil] at hencode
  rw [Nat.add_zero] at hfirst
  rw [hlen, hput, List.length_singleton] at hend
  have hnul : List.getD (a ++ w ++ gap ++ 37 :: 0 :: s) ((a ++ w ++ gap).length + 1) 0 = 0 := by
    rw [List.getD_eq_getElem?_getD, hsecond]
    rfl
  have hsplit : a ++ (encode w ++ [37]) ++ 0 :: s = a ++ (encode w ++ 37 :: 0 :: s) := by simp
  rw [hsplit, hencode, decodeQuery_byte hfirst, if_neg (by decide), if_neg (by decide), hnul,
    if_neg (by decide), hset, hend, List.append_assoc a]

/-- From an escape with one digit at the end of the buffer the decoder leaves the buffer. -/
theorem decodeQuery_digit (w a : List UInt8) {d : UInt8} (hd : isxdigit d = true) :
  decodeQuery (a ++ (encode w ++ [37, d]) ++ [0]) a.length a.length = none
  := by
  obtain ⟨gap, hencode⟩ := decodeQuery_encode w a [] [37, d, 0]
  have hfirst := getElem?_gap (a ++ w) gap [37] [d, 0] 0
  have hsecond := getElem?_gap (a ++ w) gap [37] [d, 0] 1
  rw [List.singleton_append] at hfirst hsecond
  rw [List.append_nil] at hencode
  rw [Nat.add_zero] at hfirst
  have hdigit : List.getD (a ++ w ++ gap ++ [37, d, 0]) ((a ++ w ++ gap).length + 1) 0 = d := by
    rw [List.getD_eq_getElem?_getD, hsecond]
    rfl
  have hsplit : a ++ (encode w ++ [37, d]) ++ [0] = a ++ (encode w ++ [37, d, 0]) := by simp
  rw [hsplit, hencode, decodeQuery_byte hfirst, if_neg (by decide), if_neg (by decide), hdigit,
    if_pos ⟨rfl, hd⟩]
  apply decodeQuery_out
  apply List.getElem?_eq_none
  rw [List.length_set, List.length_append]
  exact Nat.le_refl _

/-! ### Entries -/

/-- The first `c` of a string in a buffer. -/
theorem indexFrom_append {x y p r : List UInt8} {c : UInt8} (hx : c ∉ x) (hnul : (0 : UInt8) ∉ x)
    (hc : c ≠ 0) :
  indexFrom (p ++ (x ++ c :: y) ++ r) p.length c = some (p.length + x.length)
  := by
  have hdrop : (p ++ (x ++ c :: y) ++ r).drop p.length = x ++ c :: (y ++ r) := by simp
  have hcstr : cstr (x ++ c :: (y ++ r)) = x ++ c :: cstr (y ++ r) := by
    rw [cstr_append hnul, cstr_cons hc]
  rw [indexFrom, hdrop, hcstr]
  simp [List.idxOf_append_of_notMem hx]

theorem indexFrom_eq_none {s p r : List UInt8} {c : UInt8} (hs : c ∉ s) (hnul : (0 : UInt8) ∉ s) :
  indexFrom (p ++ s ++ 0 :: r) p.length c = none
  := by
  have hdrop : (p ++ s ++ 0 :: r).drop p.length = s ++ 0 :: r := by simp
  have hcstr : cstr (s ++ 0 :: r) = s := by
    rw [cstr_append_zero, cstr_of_not_mem hnul]
  rw [indexFrom, hdrop, hcstr]
  exact if_neg hs

/-- The entry of the query for a name and its value: the name stays as it is encoded. -/
def queryEntry (loc : Locale) (p : List UInt8 × List UInt8) : Scm :=
  .pair (loc.makesym (encode p.1)) (.str (fromLatin1 p.2))

theorem parseParameter_of_notMem {loc : Locale} {t p r : List UInt8} {list : Scm}
    (heq : (61 : UInt8) ∉ t) (hnul : (0 : UInt8) ∉ t) :
  parseParameter loc (p ++ t ++ 0 :: r) p.length list = some (p ++ t ++ 0 :: r, list)
  := by
  rw [parseParameter, indexFrom_eq_none heq hnul]

/-- A parameter with a value: the value is decoded where it stands. -/
theorem parseParameter_of_mem {loc : Locale} {n v p r : List UInt8} {list : Scm}
    (heq : (61 : UInt8) ∉ n) (hnul : (0 : UInt8) ∉ n) :
  parseParameter loc (p ++ (n ++ 61 :: v) ++ 0 :: r) p.length list
    = (decodeQuery (p ++ n ++ [0] ++ v ++ 0 :: r) (p ++ n ++ [0]).length
        (p ++ n ++ [0]).length).map (fun buf =>
          (buf, .pair (.pair (loc.makesym n)
            (.str (fromLatin1 (cstr (buf.drop (p ++ n ++ [0]).length))))) list))
  := by
  have hset : (p ++ (n ++ 61 :: v) ++ 0 :: r).set (p.length + n.length) 0
      = p ++ n ++ [0] ++ v ++ 0 :: r := by
    have hsplit : p ++ (n ++ 61 :: v) ++ 0 :: r = (p ++ n) ++ 61 :: (v ++ 0 :: r) := by simp
    rw [hsplit, ← List.length_append, List.set_append_right _ _ (Nat.le_refl _), Nat.sub_self]
    simp
  have hlen : p.length + n.length + 1 = (p ++ n ++ [0]).length := by simp [Nat.add_assoc]
  have hname : cstr ((p ++ n ++ [0] ++ v ++ 0 :: r).drop p.length) = n := by
    have hdrop : (p ++ n ++ [0] ++ v ++ 0 :: r).drop p.length = n ++ 0 :: (v ++ 0 :: r) := by simp
    rw [hdrop, cstr_append_zero, cstr_of_not_mem hnul]
  rw [parseParameter, indexFrom_append heq hnul (by decide)]
  dsimp only
  rw [hset, hlen, hname]

theorem notMem_encode {c : UInt8} (hc : isCode c = false) (s : List UInt8) :
  c ∉ encode s
  := by
  intro hmem
  rw [isCode_of_mem_encode hmem] at hc
  cases hc

theorem notMem_encodePair {c : UInt8} (hc : isCode c = false) (hne : c ≠ 61)
    (e : List UInt8 × List UInt8) :
  c ∉ encodePair e
  := by
  simp only [encodePair, List.mem_append, List.mem_cons, not_or]
  exact ⟨notMem_encode hc e.1, hne, notMem_encode hc e.2⟩

/-- A name and what the decoder makes of its value give an entry. -/
theorem parseParameter_decoded {loc : Locale} {n v w gap p r : List UInt8} (list : Scm)
    (heq : (61 : UInt8) ∉ n) (hnul : (0 : UInt8) ∉ n) (hw : (0 : UInt8) ∉ w)
    (hdecode : decodeQuery (p ++ n ++ [0] ++ v ++ 0 :: r) (p ++ n ++ [0]).length
      (p ++ n ++ [0]).length = some (p ++ n ++ [0] ++ w ++ 0 :: (gap ++ r))) :
  ∃ p', parseParameter loc (p ++ (n ++ 61 :: v) ++ 0 :: r) p.length list
      = some (p' ++ r, .pair (.pair (loc.makesym n) (.str (fromLatin1 w))) list) ∧
    p'.length = (p ++ (n ++ 61 :: v)).length + 1
  := by
  have hlen := length_decodeQuery hdecode
  have hdrop : (p ++ n ++ [0] ++ w ++ 0 :: (gap ++ r)).drop (p ++ n ++ [0]).length
      = w ++ 0 :: (gap ++ r) := by simp
  use p ++ n ++ [0] ++ w ++ 0 :: gap
  constructor
  · rw [parseParameter_of_mem heq hnul, hdecode, Option.map_some, hdrop, cstr_append_zero,
      cstr_of_not_mem hw]
    simp
  · simp only [List.length_append, List.length_cons, List.length_nil] at hlen ⊢
    omega

theorem parseParameter_text {loc : Locale} {n w : List UInt8} (p r : List UInt8) (list : Scm)
    (hw : (0 : UInt8) ∉ w) :
  ∃ p', parseParameter loc (p ++ encodePair (n, w) ++ 0 :: r) p.length list
      = some (p' ++ r, .pair (queryEntry loc (n, w)) list) ∧
    p'.length = (p ++ encodePair (n, w)).length + 1
  := by
  obtain ⟨gap, hdecode⟩ := decodeQuery_text w (p ++ encode n ++ [0]) r
  exact parseParameter_decoded list (notMem_encode rfl n) (notMem_encode rfl n) hw hdecode

/-- The percent sign of an escape that is cut off belongs to the value. -/
theorem parseParameter_percent {loc : Locale} {n w : List UInt8} (p r : List UInt8) (list : Scm)
    (hw : (0 : UInt8) ∉ w ++ [37]) :
  ∃ p', parseParameter loc (p ++ (encode n ++ 61 :: (encode w ++ [37])) ++ 0 :: r) p.length list
    = some (p', .pair (queryEntry loc (n, w ++ [37])) list)
  := by
  obtain ⟨gap, hdecode⟩ := decodeQuery_percent w (p ++ encode n ++ [0]) r
  obtain ⟨p', hparam, -⟩ :=
    parseParameter_decoded list (notMem_encode rfl n) (notMem_encode rfl n) hw hdecode
  exact ⟨_, hparam⟩

theorem parseParameter_digit {loc : Locale} {n w p : List UInt8} {d : UInt8} {list : Scm}
    (hd : isxdigit d = true) :
  parseParameter loc (p ++ (encode n ++ 61 :: (encode w ++ [37, d])) ++ [0]) p.length list = none
  := by
  rw [parseParameter_of_mem (notMem_encode rfl n) (notMem_encode rfl n),
    decodeQuery_digit w (p ++ encode n ++ [0]) hd]
  rfl

/-! ### Queries -/

/-- A query without a separator is one parameter. -/
theorem parseQuery_of_notMem {loc : Locale} {t p : List UInt8} {list : Scm}
    (hamp : (38 : UInt8) ∉ t) (hnul : (0 : UInt8) ∉ t) :
  parseQuery loc (p ++ t ++ [0]) p.length list
    = (parseParameter loc (p ++ t ++ [0]) p.length list).map Prod.snd
  := by
  rw [parseQuery]
  split
  case h_1 => rfl
  case h_2 amp hsome =>
      rw [indexFrom_eq_none hamp hnul] at hsome
      cases hsome

/-- A parameter and what comes after it. -/
theorem parseQuery_parameter {loc : Locale} {t p s p' : List UInt8} {list list' : Scm}
    (hamp : (38 : UInt8) ∉ t) (hnul : (0 : UInt8) ∉ t)
    (hparam : parseParameter loc (p ++ t ++ 0 :: (s ++ [0])) p.length list
      = some (p' ++ (s ++ [0]), list'))
    (hlen : p'.length = (p ++ t).length + 1) :
  parseQuery loc (p ++ (t ++ 38 :: s) ++ [0]) p.length list
    = parseQuery loc (p' ++ s ++ [0]) p'.length list'
  := by
  have hindex : indexFrom (p ++ (t ++ 38 :: s) ++ [0]) p.length 38 = some (p.length + t.length) :=
    indexFrom_append hamp hnul (by decide)
  have hset : (p ++ (t ++ 38 :: s) ++ [0]).set (p.length + t.length) 0
      = p ++ t ++ 0 :: (s ++ [0]) := by
    have hsplit : p ++ (t ++ 38 :: s) ++ [0] = (p ++ t) ++ 38 :: (s ++ [0]) := by simp
    rw [hsplit, ← List.length_append, List.set_append_right _ _ (Nat.le_refl _), Nat.sub_self]
    rfl
  rw [parseQuery]
  split
  case h_1 hnone =>
      rw [hindex] at hnone
      cases hnone
  case h_2 amp hsome =>
      rw [hindex] at hsome
      obtain rfl := Option.some.inj hsome
      split
      case h_1 hnone =>
          rw [hset, hparam] at hnone
          cases hnone
      case h_2 buf' list'' hparsed =>
          rw [hset, hparam] at hparsed
          cases hparsed
          rw [hlen, List.length_append, List.append_assoc]

/-- A pair and what comes after it. -/
theorem parseQuery_pair {loc : Locale} {e : List UInt8 × List UInt8} (p s : List UInt8)
    (list : Scm) (he : (0 : UInt8) ∉ e.2) :
  ∃ p', parseQuery loc (p ++ (encodePair e ++ 38 :: s) ++ [0]) p.length list
    = parseQuery loc (p' ++ s ++ [0]) p'.length (.pair (queryEntry loc e) list)
  := by
  obtain ⟨p', hparam, hlen⟩ := @parseParameter_text loc e.1 e.2 p (s ++ [0]) list he
  use p'
  apply parseQuery_parameter _ _ hparam hlen
  · exact notMem_encodePair rfl (by decide) e
  · exact notMem_encodePair rfl (by decide) e

/-- Entries are put before a list, one after the other. -/
def Scm.pushAll (entries : List Scm) (list : Scm) : Scm :=
  entries.foldl (fun list entry => .pair entry list) list

def queryEntries (loc : Locale) (ps : List (List UInt8 × List UInt8)) (list : Scm) : Scm :=
  Scm.pushAll (ps.map (queryEntry loc)) list

/-- The parser reads back what was encoded. -/
theorem parseQuery_encodePairs {loc : Locale} {ps : List (List UInt8 × List UInt8)}
    (hps : ∀ e ∈ ps, (0 : UInt8) ∉ e.2) (p : List UInt8) (list : Scm) :
  parseQuery loc (p ++ encodePairs ps ++ [0]) p.length list = some (queryEntries loc ps list)
  := by
  fun_induction encodePairs ps generalizing p list with
  | case1 =>
      rw [parseQuery_of_notMem (by simp) (by simp), parseParameter_of_notMem (by simp) (by simp)]
      rfl
  | case2 e =>
      obtain ⟨p', hparam, -⟩ := @parseParameter_text loc e.1 e.2 p [] list (hps e List.mem_cons_self)
      rw [parseQuery_of_notMem (notMem_encodePair rfl (by decide) e)
        (notMem_encodePair rfl (by decide) e), hparam]
      rfl
  | case3 e q ps ih =>
      obtain ⟨p', hpair⟩ :=
        @parseQuery_pair loc e p (encodePairs (q :: ps)) list (hps e List.mem_cons_self)
      rw [hpair, ih (fun d hd => hps d (List.mem_cons_of_mem e hd))]
      rfl

/-! ### Queries that are cut off -/

/-- The number of entries of a list. -/
def Scm.count : Scm → ℕ
  | .pair _ rest => rest.count + 1
  | _ => 0

/-- A parameter gives at most one entry. -/
theorem count_parseParameter {loc : Locale} {mark : ℕ} {list : Scm} {r : List UInt8 × Scm}
    (h : parseParameter loc buf mark list = some r) :
  r.2.count ≤ list.count + 1
  := by
  unfold parseParameter at h
  split at h
  case h_1 =>
      obtain rfl := Option.some.inj h
      exact Nat.le_succ _
  case h_2 =>
      obtain ⟨buf', -, rfl⟩ := Option.map_eq_some_iff.mp h
      exact Nat.le_refl _

theorem Scm.count_pushAll (entries : List Scm) (list : Scm) :
  (pushAll entries list).count = list.count + entries.length
  := by
  induction entries generalizing list with
  | nil => rfl
  | cons e entries ih =>
      have hpush : pushAll (e :: entries) list = pushAll entries (.pair e list) := rfl
      rw [hpush, ih, List.length_cons, Scm.count, Nat.add_assoc, Nat.add_comm 1]

/-- Lists that are equal have the same entries. -/
theorem Scm.pushAll_inj {entries entries' : List Scm} {list list' : Scm}
    (hlen : entries.length = entries'.length) :
  pushAll entries list = pushAll entries' list' ↔ entries = entries' ∧ list = list'
  := by
  induction entries generalizing entries' list list' with
  | nil =>
      obtain rfl := List.eq_nil_of_length_eq_zero hlen.symm
      simp [pushAll]
  | cons e entries ih =>
      obtain ⟨e', entries', rfl⟩ := List.exists_cons_of_length_eq_add_one hlen.symm
      have hrest := @ih entries' (.pair e list) (.pair e' list') (Nat.succ.inj hlen)
      have hpush : pushAll (e :: entries) list = pushAll entries (.pair e list) := rfl
      have hpush' : pushAll (e' :: entries') list' = pushAll entries' (.pair e' list') := rfl
      rw [hpush, hpush', hrest, Scm.pair.injEq, List.cons.injEq]
      tauto

/-- The last value is the end of the encoded pairs. -/
theorem encode_suffix_encodePairs {ps : List (List UInt8 × List UInt8)}
    {e : List UInt8 × List UInt8} (he : e ∈ ps.getLast?) :
  encode e.2 <:+ encodePairs ps
  := by
  fun_induction encodePairs ps with
  | case1 => cases he
  | case2 d =>
      obtain rfl := Option.some.inj he
      exact (List.suffix_cons 61 _).trans (List.suffix_append _ _)
  | case3 d q ps ih =>
      rw [List.getLast?_cons_cons] at he
      exact (ih he).trans ((List.suffix_cons 38 _).trans (List.suffix_append _ _))

theorem le_length_encode {s : List UInt8} (h : [37] <:+ s) :
  3 ≤ (encode s).length
  := by
  obtain ⟨t, rfl⟩ := h
  rw [encode_append, List.length_append]
  exact Nat.le_add_left _ _

theorem queryEntry_value_inj {loc : Locale} {n v w : List UInt8} {list : Scm} :
  some (Scm.pair (queryEntry loc (n, v)) list) = some (.pair (queryEntry loc (n, w)) list) ↔ v = w
  := by
  simp only [queryEntry, Option.some.injEq, Scm.pair.injEq, Scm.str.injEq, fromLatin1_inj, true_and,
    and_true]

/-- A beginning of two strings with a separator between them. -/
theorem prefix_separated {t x y : List UInt8} {c : UInt8} (h : t <+: x ++ c :: y) :
  t <+: x ∨ ∃ t', t = x ++ c :: t' ∧ t' <+: y
  := by
  obtain hx | ⟨u, rfl⟩ := List.prefix_or_prefix_of_prefix h (List.prefix_append x _)
  · exact Or.inl hx
  · have hu := (List.prefix_append_right_inj _).mp h
    obtain rfl | ⟨t', rfl, ht'⟩ := List.prefix_cons_iff.mp hu
    · exact Or.inl (by simp)
    · exact Or.inr ⟨t', rfl, ht'⟩

/-- A pair that is cut off gives its entry when the cut leaves of its value the percent sign of the
escape for a percent sign. -/
theorem parseQuery_pair_cut {loc : Locale} {n w p t : List UInt8} {list : Scm}
    (hw : (0 : UInt8) ∉ w) (h : t <+: encodePair (n, w)) (hne : t ≠ encodePair (n, w)) :
  parseQuery loc (p ++ t ++ [0]) p.length list = some (.pair (queryEntry loc (n, w)) list)
    ↔ (encodePair (n, w)).length = t.length + 2 ∧ [37] <:+ w
  := by
  have hnotMem : ∀ c : UInt8, isCode c = false → c ≠ 61 → c ∉ t := by
    intro c hc hne hmem
    exact notMem_encodePair hc hne (n, w) (h.subset hmem)
  have hlen : (encodePair (n, w)).length = (encode n).length + ((encode w).length + 1) := by
    rw [encodePair, List.length_append, List.length_cons]
  have hpos : [37] <:+ w → 3 ≤ (encode w).length := le_length_encode
  rw [parseQuery_of_notMem (hnotMem 38 rfl (by decide)) (hnotMem 0 rfl (by decide))]
  have hcut : t <+: encode n ++ 61 :: encode w := h
  obtain hname | ⟨v, rfl, hv⟩ := prefix_separated hcut
  · -- the cut leaves no value
    have heq : (61 : UInt8) ∉ t := fun hmem => notMem_encode rfl n (hname.subset hmem)
    have hle : t.length ≤ (encode n).length := hname.length_le
    rw [parseParameter_of_notMem heq (hnotMem 0 rfl (by decide)), Option.map_some]
    constructor
    · intro hlist
      have hcount : list.count = list.count + 1 := congrArg Scm.count (Option.some.inj hlist)
      omega
    · rintro ⟨hcut, hpercent⟩
      have hthree := hpos hpercent
      omega
  · -- the cut is in the value
    have hv' : v ≠ encode w := fun heq => hne (by rw [heq, encodePair])
    obtain ⟨a, c, b, r, rfl, rfl, hr, hrne⟩ := exists_of_prefix hv hv'
    rw [encode_append, encode_cons, List.length_append, List.length_append] at hlen
    have ha : (0 : UInt8) ∉ a := fun hmem => hw (List.mem_append_left _ hmem)
    have hend : [37] <:+ a ++ c :: b → c = 37 ∧ b = [] ∨ 3 ≤ (encode b).length := by
      rintro ⟨x, hx⟩
      obtain rfl | ⟨b', d, rfl⟩ := List.eq_nil_or_concat b
      · exact Or.inl ⟨(List.singleton_inj.mp (List.append_inj_right' hx rfl)).symm, rfl⟩
      · have hsplit : x ++ [37] = (a ++ c :: b') ++ [d] := by simpa using hx
        have hd : 37 = d := List.singleton_inj.mp (List.append_inj_right' hsplit rfl)
        exact Or.inr (le_length_encode ⟨b', by rw [hd, List.concat_eq_append]⟩)
    rw [List.length_append, List.length_cons, List.length_append]
    obtain rfl | ⟨d, f, hcode, hd, rfl | rfl⟩ := prefix_code_cases hr hrne
    · obtain ⟨p', hparam, -⟩ := @parseParameter_text loc n a p [] list ha
      rw [encodePair] at hparam
      rw [List.append_nil, hparam, Option.map_some, queryEntry_value_inj]
      constructor
      · intro heq
        have hlength := congrArg List.length heq
        simp at hlength
      · rintro ⟨hcut, hpercent⟩
        have hthree : (code 37).length = 3 := rfl
        rw [List.length_nil] at hcut
        obtain ⟨rfl, rfl⟩ | hthree' := hend hpercent
        · omega
        · omega
    · have hlength : (code c).length = 3 := by rw [hcode]; rfl
      rw [hlength] at hlen
      have hpercent : (0 : UInt8) ∉ a ++ [37] := by simp [ha]
      obtain ⟨p', hparam⟩ := @parseParameter_percent loc n a p [] list hpercent
      rw [hparam, Option.map_some, queryEntry_value_inj, List.append_cancel_left_eq]
      constructor
      · intro heq
        obtain ⟨rfl, rfl⟩ := List.cons.inj heq
        refine ⟨?_, List.suffix_append a [37]⟩
        rw [hlen, encode_nil, List.length_nil, List.length_singleton]
        omega
      · rintro ⟨hcut, hpercent⟩
        rw [List.length_singleton] at hcut
        obtain ⟨rfl, rfl⟩ | hthree' := hend hpercent
        · rfl
        · omega
    · have hlength : (code c).length = 3 := by rw [hcode]; rfl
      rw [hlength] at hlen
      rw [parseParameter_digit hd]
      constructor
      · rintro ⟨⟩
      · rintro ⟨hcut, hpercent⟩
        have htwo : [37, d].length = 2 := rfl
        obtain ⟨rfl, rfl⟩ | hthree' := hend hpercent
        · rw [htwo] at hcut
          rw [encode_nil, List.length_nil] at hlen
          omega
        · omega

/-- A query that is cut off gives the same entries when the cut leaves of the last value the percent
sign of the escape for a percent sign. -/
theorem parseQuery_cut {loc : Locale} {ps : List (List UInt8 × List UInt8)} {p t : List UInt8}
    {list : Scm} (hps : ∀ e ∈ ps, (0 : UInt8) ∉ e.2) (h : t <+: encodePairs ps)
    (hne : t ≠ encodePairs ps) :
  parseQuery loc (p ++ t ++ [0]) p.length list = some (queryEntries loc ps list)
    ↔ (encodePairs ps).length = t.length + 2 ∧ ∃ e ∈ ps.getLast?, [37] <:+ e.2
  := by
  fun_induction encodePairs ps generalizing p t list with
  | case1 => exact absurd (List.prefix_nil.mp h) hne
  | case2 e =>
      have hlast : (∃ d ∈ [e].getLast?, [37] <:+ d.2) ↔ [37] <:+ e.2 := by simp
      rw [hlast]
      exact parseQuery_pair_cut (hps e List.mem_cons_self) h hne
  | case3 e q ps ih =>
      have hlen : (encodePair e ++ 38 :: encodePairs (q :: ps)).length
          = (encodePair e).length + ((encodePairs (q :: ps)).length + 1) := by
        rw [List.length_append, List.length_cons]
      rw [List.getLast?_cons_cons]
      obtain hpair | ⟨t', rfl, ht'⟩ := prefix_separated h
      · -- there is one entry at most
        have hamp : (38 : UInt8) ∉ t :=
          fun hmem => notMem_encodePair rfl (by decide) e (hpair.subset hmem)
        have hnul : (0 : UInt8) ∉ t :=
          fun hmem => notMem_encodePair rfl (by decide) e (hpair.subset hmem)
        have hle : t.length ≤ (encodePair e).length := hpair.length_le
        rw [parseQuery_of_notMem hamp hnul]
        constructor
        · intro hlist
          obtain ⟨r, hr, hentries⟩ := Option.map_eq_some_iff.mp hlist
          have hone := count_parseParameter hr
          rw [hentries, queryEntries, Scm.count_pushAll, List.length_map, List.length_cons,
            List.length_cons] at hone
          omega
        · rintro ⟨hcut, d, hd, hpercent⟩
          have hthree := le_length_encode hpercent
          have hvalue := (encode_suffix_encodePairs hd).length_le
          omega
      · -- the first pair is complete
        have hne' : t' ≠ encodePairs (q :: ps) := fun heq => hne (by rw [heq])
        obtain ⟨p', hpair⟩ := @parseQuery_pair loc e p t' list (hps e List.mem_cons_self)
        have hrest := @ih p' t' (.pair (queryEntry loc e) list)
          (fun d hd => hps d (List.mem_cons_of_mem e hd)) ht' hne'
        have hentries : queryEntries loc (e :: q :: ps) list
            = queryEntries loc (q :: ps) (.pair (queryEntry loc e) list) := rfl
        have hcut : (encodePair e ++ 38 :: encodePairs (q :: ps)).length
            = (encodePair e ++ 38 :: t').length + 2
              ↔ (encodePairs (q :: ps)).length = t'.length + 2 := by
          rw [hlen, List.length_append, List.length_cons]
          omega
        rw [hpair, hentries, hrest, hcut]

end Gusher
