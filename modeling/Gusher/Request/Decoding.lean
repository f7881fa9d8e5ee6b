import Gusher.Library.Memory
import Gusher.Request.QueryText

/-!
# Decoding in place

Every access of the decoder to the memory is checked here, and the string ends where the memory
does.  The decoder stays in the memory and leaves the decoded text there exactly if no percent sign
is followed by one hexadecimal digit alone, as it looks at the first digit only: a digit that ends
the string makes it jump over the terminator, and another byte after the digit is taken for the
second one.
-/

namespace Gusher

open CString Memory Urlencoded

/-- What `decode_query` writes for the byte `c` that it reads at `get`, and how many more bytes it
has read then. -/
def readCode (buf : List UInt8) (get : ℕ) (c : UInt8) : Option (UInt8 × ℕ) :=
  if c = 43 then some (32, 0)
  else if c = 37 then
    (buf[get + 1]?).bind (fun d =>
      if isxdigit d then (buf[get + 2]?).map (fun e => (decodeHex d e, 2))
      else some (c, 0))
  else some (c, 0)

/-- `decode_query`, with checked accesses. -/
def decodeChecked (buf : List UInt8) (get put : ℕ) : Option (List UInt8) :=
  match _h : buf[get]? with
  | none => none
  | some c =>
      if c = 0 then store buf put 0
      else
        match readCode buf get c with
        | none => none
        | some (d, n) =>
            match _hstore : store buf put d with
            | none => none
            | some buf' => decodeChecked buf' (get + 1 + n) (put + 1)
  termination_by buf.length - get
  decreasing_by
    have hlt := (List.getElem?_eq_some_iff.mp _h).1
    rw [length_store _hstore]
    omega

variable {buf buf' : List UInt8} {get put : ℕ}

theorem set_of_store {d : UInt8} (h : store buf put d = some buf') :
  buf' = buf.set put d
  := by
  rw [store, Option.ite_none_right_eq_some] at h
  rw [← Option.some.inj h.2, Int.toNat_natCast]

/-- When every access is inside the memory, the checks change nothing. -/
theorem decodeQuery_of_checked (h : decodeChecked buf get put = some buf') :
  decodeQuery buf get put = some buf'
  := by
  revert h
  fun_induction decodeChecked buf get put with
  | case1 => rintro ⟨⟩
  | case2 buf get put hget =>
      intro h
      rw [decodeQuery_byte hget, if_pos rfl, set_of_store h]
  | case3 => rintro ⟨⟩
  | case4 => rintro ⟨⟩
  | case5 buf get put c hget hnul d n hcode buf₁ hstore ih =>
      intro h
      have hrest := ih h
      obtain rfl := set_of_store hstore
      have hgetD : ∀ {i : ℕ} {e : UInt8}, buf[i]? = some e → buf.getD i 0 = e := by
        intro i e he
        rw [List.getD_eq_getElem?_getD, he]
        rfl
      rw [decodeQuery_byte hget, if_neg hnul]
      rw [readCode] at hcode
      split at hcode
      case isTrue hplus =>
          cases hcode
          rw [if_pos hplus]
          apply hrest
      case isFalse hplus =>
          rw [if_neg hplus]
          split at hcode
          case isTrue hpercent =>
              obtain ⟨x, hx, hcode⟩ := Option.bind_eq_some_iff.mp hcode
              rw [hgetD hx]
              split at hcode
              case isTrue hdigit =>
                  obtain ⟨y, hy, hpair⟩ := Option.map_eq_some_iff.mp hcode
                  cases hpair
                  rw [if_pos ⟨hpercent, hdigit⟩, hgetD hy]
                  apply hrest
              case isFalse hdigit =>
                  cases hcode
                  rw [if_neg (fun h => hdigit h.2)]
                  apply hrest
          case isFalse hpercent =>
              cases hcode
              rw [if_neg (fun h => hpercent h.1)]
              apply hrest

/-! ### The code of a byte -/

/-- What the decoder reads, in a buffer in which `a` is decoded. -/
theorem readCode_eq (a gap y : List UInt8) (c : UInt8) :
  readCode (a ++ gap ++ c :: y) (a ++ gap).length c
    = if c = 43 then some (32, 0)
      else if c = 37 then
        (y[0]?).bind (fun d =>
          if isxdigit d then (y[1]?).map (fun e => (decodeHex d e, 2)) else some (c, 0))
      else some (c, 0)
  := by
  have hnext := getElem?_gap a gap [c] y 1
  have hafter := getElem?_gap a gap [c] y 2
  rw [List.singleton_append] at hnext hafter
  rw [readCode, hnext, hafter]
  rfl

/-- A byte that does not begin an escape is read by itself. -/
theorem readCode_plain {a gap y : List UInt8} {p e : UInt8}
    (h : p = 37 → isxdigit e = false) :
  readCode (a ++ gap ++ p :: e :: y) (a ++ gap).length p = some (plainByte p, 0)
  := by
  rw [readCode_eq, plainByte]
  by_cases hplus : p = 43
  · rw [if_pos hplus, if_pos hplus]
  · rw [if_neg hplus, if_neg hplus]
    by_cases hpercent : p = 37
    · rw [if_pos hpercent, List.getElem?_cons_zero, Option.bind_some, h hpercent]
      rfl
    · rw [if_neg hpercent]

theorem readCode_escape {a gap y : List UInt8} {c d : UInt8} (hc : isxdigit c = true) :
  readCode (a ++ gap ++ 37 :: c :: d :: y) (a ++ gap).length 37 = some (decodeHex c d, 2)
  := by
  rw [readCode_eq, if_neg (by decide), if_pos rfl, List.getElem?_cons_zero, Option.bind_some,
    if_pos hc]
  rfl

theorem hexValue_eq {c : UInt8} (h : isxdigit c = true) :
  hexValue c = (digitValue c).toUInt8 ∧ digitValue c < 16
  := by
  revert c
  apply forall_byte
  decide +kernel

/-- Two digits give the byte that they denote. -/
theorem decodeHex_eq {c d : UInt8} (hc : isxdigit c = true) (hd : isxdigit d = true) :
  decodeHex c d = (16 * digitValue c + digitValue d).toUInt8
  := by
  obtain ⟨hc, hclt⟩ := hexValue_eq hc
  obtain ⟨hd, hdlt⟩ := hexValue_eq hd
  have hall : ∀ m < 16, ∀ n < 16,
      (Nat.toUInt8 m <<< 4 ||| Nat.toUInt8 n : UInt8) = Nat.toUInt8 (16 * m + n) := by
    decide +kernel
  rw [decodeHex, hc, hd]
  apply hall _ hclt _ hdlt

/-- A digit with another byte does not give a percent sign. -/
theorem decodeHex_ne_percent {c d : UInt8} (hc : isxdigit c = true) (hd : isxdigit d = false) :
  decodeHex c d ≠ 37
  := by
  obtain ⟨hc, hlt⟩ := hexValue_eq hc
  rw [decodeHex, hc]
  revert d
  apply forall_byte
  revert hlt
  generalize digitValue c = m
  revert m
  decide +kernel

/-! ### Rounds -/

/-- Beyond the memory nothing is read. -/
theorem decodeChecked_out (hget : buf[get]? = none) :
  decodeChecked buf get put = none
  := by
  rw [decodeChecked]
  split
  case h_1 => rfl
  case h_2 c hc =>
      rw [hget] at hc
      cases hc

/-- At a terminator the decoder writes one and returns. -/
theorem decodeChecked_nul (hget : buf[get]? = some 0) :
  decodeChecked buf get put = store buf put 0
  := by
  rw [decodeChecked]
  split
  case h_1 hnone =>
      rw [hget] at hnone
      cases hnone
  case h_2 c hc =>
      rw [hget] at hc
      obtain rfl := Option.some.inj hc
      rw [if_pos rfl]

/-- A round that stays in the memory. -/
theorem decodeChecked_round {c d : UInt8} {n : ℕ} (hget : buf[get]? = some c) (hnul : c ≠ 0)
    (hcode : readCode buf get c = some (d, n)) (hstore : store buf put d = some buf') :
  decodeChecked buf get put = decodeChecked buf' (get + 1 + n) (put + 1)
  := by
  rw [decodeChecked]
  split
  case h_1 hnone =>
      rw [hget] at hnone
      cases hnone
  case h_2 c' hc' =>
      rw [hget] at hc'
      obtain rfl := Option.some.inj hc'
      rw [if_neg hnul]
      split
      case h_1 hnone =>
          rw [hcode] at hnone
          cases hnone
      case h_2 d' n' hsome =>
          rw [hcode] at hsome
          cases hsome
          split
          case h_1 hnone =>
              rw [hstore] at hnone
              cases hnone
          case h_2 buf'' hsome =>
              rw [hstore] at hsome
              obtain rfl := Option.some.inj hsome
              rfl

/-- A byte is written after what is decoded, whatever comes after the bytes that were read. -/
theorem exists_store (a gap : List UInt8) {x : List UInt8} (d : UInt8) (hx : x ≠ []) :
  ∃ gap', (a ++ [d] ++ gap').length = (a ++ gap).length + x.length ∧
    ∀ s, store (a ++ gap ++ (x ++ s)) a.length d = some (a ++ [d] ++ gap' ++ s)
  := by
  obtain ⟨y, ys, hys⟩ := List.exists_cons_of_ne_nil (List.append_ne_nil_of_right_ne_nil gap hx)
  have hlen := congrArg List.length hys
  rw [List.length_append, List.length_cons] at hlen
  refine ⟨ys, ?_, ?_⟩
  · simp only [List.length_append, List.length_singleton]
    omega
  · intro s
    have hsplit : a ++ gap ++ (x ++ s) = a ++ y :: (ys ++ s) := by
      rw [List.append_assoc, ← List.append_assoc gap, hys, List.cons_append]
    rw [store_eq hsplit rfl]
    simp

/-- A round of the decoder, which reads the bytes `c` and `x` and writes `d`. -/
theorem exists_round (a gap : List UInt8) {x : List UInt8} {c d : UInt8} (hnul : c ≠ 0) :
  ∃ gap', ∀ s, readCode (a ++ gap ++ c :: (x ++ s)) (a ++ gap).length c = some (d, x.length) →
    decodeChecked (a ++ gap ++ c :: (x ++ s)) (a ++ gap).length a.length
      = decodeChecked (a ++ [d] ++ gap' ++ s) (a ++ [d] ++ gap').length (a ++ [d]).length
  := by
  obtain ⟨gap', hlen, hstore⟩ := exists_store a gap d (List.cons_ne_nil c x)
  use gap'
  intro s hcode
  have hget := getElem?_gap a gap [c] (x ++ s) 0
  rw [Nat.add_zero, List.singleton_append, List.getElem?_cons_zero] at hget
  have hstore := hstore s
  rw [List.cons_append] at hstore
  have hput : (a ++ [d]).length = a.length + 1 := by rw [List.length_append, List.length_singleton]
  have hnext : (a ++ [d] ++ gap').length = (a ++ gap).length + 1 + x.length := by
    rw [hlen, List.length_cons]
    omega
  rw [hnext, hput]
  apply decodeChecked_round hget hnul hcode hstore

/-- At the terminator the decoder writes a terminator. -/
theorem exists_end (a gap : List UInt8) :
  ∃ rest, ∀ r, decodeChecked (a ++ gap ++ 0 :: r) (a ++ gap).length a.length
    = some (a ++ 0 :: (rest ++ r))
  := by
  obtain ⟨rest, -, hstore⟩ := exists_store a gap 0 (List.cons_ne_nil 0 [])
  use rest
  intro r
  have hget := getElem?_gap a gap [0] r 0
  have hstore := hstore r
  rw [List.singleton_append] at hget hstore
  rw [Nat.add_zero, List.getElem?_cons_zero] at hget
  rw [decodeChecked_nul hget, hstore]
  simp

/-! ### Runs -/

/-- The first byte of a string is read by itself, or it begins an escape with two digits, or a
percent sign is followed by one digit alone. -/
theorem escape_cases (p : UInt8) (t : List UInt8) :
  (p = 37 ∧ ∃ c d u, t = c :: d :: u ∧ isxdigit c = true ∧ isxdigit d = true)
    ∨ (p = 37 → ∀ e u, t = e :: u → isxdigit e = false)
    ∨ (p = 37 ∧ ∃ c u, t = c :: u ∧ isxdigit c = true ∧ ∀ d v, u = d :: v → isxdigit d = false)
  := by
  by_cases hp : p = 37
  · cases t with
    | nil => simp
    | cons c u =>
        cases hc : isxdigit c with
        | false => simp [hc]
        | true =>
            cases u with
            | nil => simp [hp, hc]
            | cons d v =>
                cases hd : isxdigit d with
                | false => simp [hp, hc, hd]
                | true => simp [hp, hc, hd]
  · simp [hp]

theorem decode_of_no_digit {p : UInt8} {t : List UInt8}
    (h : p = 37 → ∀ e u, t = e :: u → isxdigit e = false) :
  decode (p :: t) = plainByte p :: decode t
  := by
  apply decode_plain
  rintro c d u rfl ⟨hp, hc, -⟩
  rw [h hp c (d :: u) rfl] at hc
  cases hc

/-- The byte after a byte of a string is the next one of the string, or the terminator. -/
theorem exists_next (t r : List UInt8) :
  ∃ e y, t ++ 0 :: r = e :: y ∧ ∀ P : UInt8 → Prop, P 0 → (∀ d u, t = d :: u → P d) → P e
  := by
  cases t with
  | nil => exact ⟨0, r, rfl, fun P h _ => h⟩
  | cons d u => exact ⟨d, u ++ 0 :: r, rfl, fun P _ h => h d u rfl⟩

/-- A byte that no digit follows is read by itself, whatever comes after the string. -/
theorem exists_round_plain (a gap : List UInt8) {p : UInt8} {t : List UInt8} (hnul : p ≠ 0)
    (h : p = 37 → ∀ e u, t = e :: u → isxdigit e = false) :
  ∃ gap', ∀ r, decodeChecked (a ++ gap ++ (p :: t ++ 0 :: r)) (a ++ gap).length a.length
    = decodeChecked (a ++ [plainByte p] ++ gap' ++ (t ++ 0 :: r))
        (a ++ [plainByte p] ++ gap').length (a ++ [plainByte p]).length
  := by
  obtain ⟨gap', hround⟩ := exists_round a gap (x := []) (d := plainByte p) hnul
  use gap'
  intro r
  apply hround (t ++ 0 :: r)
  obtain ⟨e, y, hnext, he⟩ := exists_next t r
  rw [List.nil_append, hnext]
  apply readCode_plain
  intro hp
  exact he (fun d => isxdigit d = false) rfl (h hp)

/-- An escape is read, whatever comes after the string. -/
theorem exists_round_escape (a gap : List UInt8) {c d : UInt8} (hc : isxdigit c = true)
    (u : List UInt8) :
  ∃ gap', ∀ r, decodeChecked (a ++ gap ++ (37 :: c :: d :: u ++ 0 :: r)) (a ++ gap).length a.length
    = decodeChecked (a ++ [decodeHex c d] ++ gap' ++ (u ++ 0 :: r))
        (a ++ [decodeHex c d] ++ gap').length (a ++ [decodeHex c d]).length
  := by
  obtain ⟨gap', hround⟩ :=
    exists_round a gap (x := [c, d]) (c := 37) (d := decodeHex c d) (by decide)
  use gap'
  intro r
  apply hround (u ++ 0 :: r) (readCode_escape hc)

/-- A string in which no percent sign is followed by one digit alone is decoded. -/
theorem decodeChecked_of_whole {t : List UInt8} (ht : (0 : UInt8) ∉ t) (hw : WholeEscapes t)
    (a gap : List UInt8) :
  ∃ rest, ∀ r, decodeChecked (a ++ gap ++ (t ++ 0 :: r)) (a ++ gap).length a.length
    = some (a ++ decode t ++ 0 :: (rest ++ r))
  := by
  induction hn : t.length using Nat.strong_induction_on generalizing t a gap with
  | _ n ih =>
      cases t with
      | nil =>
          obtain ⟨rest, hend⟩ := exists_end a gap
          use rest
          intro r
          rw [List.nil_append, hend r, decode, List.append_nil]
      | cons p t =>
          rw [List.length_cons] at hn
          simp only [List.mem_cons, not_or] at ht
          obtain ⟨rfl, c, d, u, rfl, hc, hd⟩ | hplain | ⟨rfl, c, u, rfl, hc, hnone⟩ :=
            escape_cases p t
          · obtain ⟨gap', hround⟩ := exists_round_escape a gap (d := d) hc u
            simp only [List.mem_cons, not_or] at ht
            obtain ⟨rest, hrest⟩ := ih u.length (by simp only [List.length_cons] at hn; omega)
              ht.2.2.2 (WholeEscapes.of_append (x := [37, c, d]) hw) (a ++ [decodeHex c d]) gap' rfl
            use rest
            intro r
            rw [hround r, hrest r, decode_escape hc hd, decodeHex_eq hc hd]
            simp
          · obtain ⟨gap', hround⟩ := exists_round_plain a gap (Ne.symm ht.1) hplain
            obtain ⟨rest, hrest⟩ := ih t.length (by omega)
              ht.2 (WholeEscapes.of_append (x := [p]) hw) (a ++ [plainByte p]) gap' rfl
            use rest
            intro r
            rw [hround r, hrest r, decode_of_no_digit hplain]
            simp
          · obtain ⟨d, v, rfl, hd⟩ := hw [] c u rfl hc
            rw [hnone d v rfl] at hd
            cases hd

/-- What is decoded already stays. -/
theorem take_of_decodeChecked (h : decodeChecked buf get put = some buf') :
  buf'.take put = buf.take put
  := by
  revert h
  fun_induction decodeChecked buf get put with
  | case1 => rintro ⟨⟩
  | case2 =>
      intro h
      rw [set_of_store h, List.take_set_of_le (Nat.le_refl _)]
  | case3 => rintro ⟨⟩
  | case4 => rintro ⟨⟩
  | case5 buf get put c _ _ d n _ buf₁ hstore ih =>
      intro h
      have htake := congrArg (List.take put) (ih h)
      rw [List.take_take, List.take_take, Nat.min_eq_left (Nat.le_succ put)] at htake
      rw [htake, set_of_store hstore, List.take_set_of_le (Nat.le_refl _)]

/-- A string in which a percent sign is followed by one digit alone is not decoded. -/
theorem not_decodeChecked {t : List UInt8} (ht : (0 : UInt8) ∉ t) (hw : ¬ WholeEscapes t)
    (a gap : List UInt8) (rest : List UInt8) :
  decodeChecked (a ++ gap ++ (t ++ [0])) (a ++ gap).length a.length
    ≠ some (a ++ decode t ++ 0 :: rest)
  := by
  induction hn : t.length using Nat.strong_induction_on generalizing t a gap with
  | _ n ih =>
      cases t with
      | nil =>
          refine absurd ?_ hw
          rintro a c t heq
          cases a <;> cases heq
      | cons p t =>
          rw [List.length_cons] at hn
          simp only [List.mem_cons, not_or] at ht
          obtain ⟨rfl, c, d, u, rfl, hc, hd⟩ | hplain | ⟨rfl, c, u, rfl, hc, hnone⟩ :=
            escape_cases p t
          · obtain ⟨gap', hround⟩ := exists_round_escape a gap (d := d) hc u
            simp only [List.mem_cons, not_or] at ht
            have hnot : ¬ WholeEscapes u := by
              intro hu
              apply hw
              have hdigit : ∀ {x : UInt8}, isxdigit x = true → x ≠ 37 := by
                rintro x hx rfl
                cases hx
              apply wholeEscapes_cons (wholeEscapes_cons (wholeEscapes_cons hu _) _) _
              · exact fun _ _ h => absurd h (hdigit hd)
              · exact fun _ _ h => absurd h (hdigit hc)
              · rintro c' t - ⟨⟩ -
                exact ⟨d, u, rfl, hd⟩
            have hrest := ih u.length (by simp only [List.length_cons] at hn; omega)
              ht.2.2.2 hnot (a ++ [decodeHex c d]) gap' rfl
            rw [hround [], decode_escape hc hd, ← decodeHex_eq hc hd]
            rwa [List.append_assoc a [decodeHex c d] (decode u), List.singleton_append] at hrest
          · obtain ⟨gap', hround⟩ := exists_round_plain a gap (Ne.symm ht.1) hplain
            have hnot : ¬ WholeEscapes t := by
              intro ht
              apply hw
              apply wholeEscapes_cons ht
              intro c u hp hu hc
              rw [hplain hp c u hu] at hc
              cases hc
            have hrest := ih t.length (by omega) ht.2 hnot (a ++ [plainByte p]) gap' rfl
            rw [hround [], decode_of_no_digit hplain]
            rwa [List.append_assoc a [plainByte p] (decode t), List.singleton_append] at hrest
          · -- the byte after the digit is taken for a digit
            obtain ⟨e, y, hnext, he⟩ := exists_next u []
            have he : isxdigit e = false := he (fun d => isxdigit d = false) rfl hnone
            obtain ⟨gap', hround⟩ :=
              exists_round a gap (x := [c, e]) (c := 37) (d := decodeHex c e) (by decide)
            intro hdecode
            have hsplit : 37 :: c :: u ++ [0] = 37 :: ([c, e] ++ y) := by
              rw [List.cons_append, List.cons_append, hnext]
              rfl
            rw [hsplit, hround y (readCode_escape hc)] at hdecode
            have htake := take_of_decodeChecked hdecode
            have hplain : decode (37 :: c :: u) = 37 :: decode (c :: u) := by
              apply decode_plain
              rintro c' d v ⟨⟩ ⟨-, -, hd⟩
              rw [hnone d v rfl] at hd
              cases hd
            have hleft : List.take (a ++ [decodeHex c e]).length
                (a ++ decode (37 :: c :: u) ++ 0 :: rest) = a ++ [37] := by
              rw [hplain, List.append_assoc, List.length_append, List.length_singleton,
                List.take_length_add_append]
              rfl
            have hright : List.take (a ++ [decodeHex c e]).length
                (a ++ [decodeHex c e] ++ gap' ++ y) = a ++ [decodeHex c e] := by
              rw [List.append_assoc, List.take_left]
            rw [hleft, hright] at htake
            have hbyte := List.cons.inj (List.append_cancel_left htake)
            apply decodeHex_ne_percent hc he hbyte.1.symm

/-- The decoder stays in the memory up to the terminator, and leaves the decoded text there. -/
def DecodesInPlace (s : List UInt8) : Prop :=
  ∃ rest, ∀ r, decodeChecked (s ++ 0 :: r) 0 0 = some (decode s ++ 0 :: (rest ++ r))

/-- **Decoding in place.**  The decoder stays in the memory up to the terminator and leaves the
decoded text there exactly if no percent sign is followed by one digit alone. -/
theorem decodes_in_place_iff {s : List UInt8} (h : (0 : UInt8) ∉ s) :
  DecodesInPlace s ↔ WholeEscapes s
  := by
  constructor
  · rintro ⟨rest, hdecode⟩
    by_contra hw
    have hnot := not_decodeChecked h hw [] [] (rest ++ [])
    apply hnot (hdecode [])
  · intro hw
    apply decodeChecked_of_whole h hw [] []

/-- An escape for a plus sign is decoded. -/
theorem decodes_in_place_plus :
  DecodesInPlace (ascii "1%2b1")
  := by
  apply (decodes_in_place_iff (by decide)).mpr
  have hdigits : WholeEscapes (ascii "2b1") := by
    apply wholeEscapes_cons (wholeEscapes_cons (wholeEscapes_cons _ _) _) _
    · intro a c t heq
      cases a <;> cases heq
    all_goals
      intro _ _ h
      exact absurd h (by decide)
  apply wholeEscapes_cons (wholeEscapes_cons hdigits _) _
  · rintro c t - ⟨⟩ -
    exact ⟨98, [49], rfl, rfl⟩
  · intro _ _ h
    exact absurd h (by decide)

/-- From an escape that is cut off after its first digit the decoder leaves the memory, and a letter
that is no digit is taken for one. -/
theorem decodes_cut_escape :
  ¬ DecodesInPlace (ascii "%4") ∧ decodeChecked (ascii "%4" ++ [0]) 0 0 = none ∧
    ¬ DecodesInPlace (ascii "%4g") ∧
    decodeChecked (ascii "%4g" ++ [0]) 0 0 = some (ascii "P" ++ 0 :: ascii "g" ++ [0])
  := by
  have hcut : ¬ WholeEscapes (ascii "%4") := by
    intro hw
    obtain ⟨d, u, ⟨⟩, -⟩ := hw [] 52 [] rfl rfl
  have hletter : ¬ WholeEscapes (ascii "%4g") := by
    intro hw
    obtain ⟨d, u, ⟨⟩, hd⟩ := hw [] 52 [103] rfl rfl
    cases hd
  refine ⟨?_, ?_, ?_, ?_⟩
  · rintro ⟨rest, hdecode⟩
    exact not_decodeChecked (by decide) hcut [] [] (rest ++ []) (hdecode [])
  · rw [decodeChecked_round (c := 37) (d := 208) (n := 2) rfl (by decide) rfl rfl]
    apply decodeChecked_out rfl
  · rintro ⟨rest, hdecode⟩
    exact not_decodeChecked (by decide) hletter [] [] (rest ++ []) (hdecode [])
  · rw [decodeChecked_round (c := 37) (d := 80) (n := 2) rfl (by decide) rfl rfl,
      decodeChecked_nul rfl]
    rfl

end Gusher
