import Gusher.Library.SqlLexer
import Gusher.Store.Postgres

/-!
# Parameters of SQL statements

The text that `pg_format_sql` makes of an object, and the texts of the statements in which such
texts stand for directives.  A number is written as Scheme writes it, and is a constant only when it
is a decimal without a sign; the text of any other object is one constant.  In a statement whose
directives stand apart from what is around them, the constants of `pgFormat` are the tokens in their
places.
-/

namespace Gusher

open SqlLexer

section

variable (pqEscapeLiteral : List UInt8 → List UInt8)

/-- The part of `pg_format_sql` for strings. -/
def pgFormatSqlString (s : Text) : Option Text :=
  if s = [] then some "NULL".toList
  else (toUtf8 s).map (fun src => safeFromUtf8 (pqEscapeLiteral src))

def pgFormatSql : Scm → Option Text
  | .time t => some (quoteMark :: formatTime t ++ [quoteMark])
  | .bool b => some (if b then [quoteMark, 't', quoteMark] else [quoteMark, 'f', quoteMark])
  | .int z => some (numberText z)
  | .number digits => some digits
  | .symbol name => pgFormatSqlString pqEscapeLiteral name
  | .str s => pgFormatSqlString pqEscapeLiteral s
  | _ => some "NULL".toList

/-- `format`, for templates whose only directive is `~a`; `none` stands for the exception that is
raised when there are more directives than arguments, or fewer. -/
def simpleFormat : Text → List Text → Option Text
  | [], [] => some []
  | [], _ :: _ => none
  | '~' :: 'a' :: rest, arg :: args => (simpleFormat rest args).map (arg ++ ·)
  | '~' :: _, _ => none
  | c :: rest, args => (simpleFormat rest args).map (c :: ·)

def pgQuery (query : Text) (args : List Scm) : Option Text :=
  (args.mapM (pgFormatSql pqEscapeLiteral)).bind (simpleFormat query)

end

/-- A template: a text, and the texts after the directives. -/
def template (t : Text) (ts : List Text) : Text :=
  t ++ ts.flatMap (fun u => '~' :: 'a' :: u)

/-- What the code relies on: `PQescapeLiteral` makes one literal, which denotes its argument. -/
def EscapesLiterals (pqEscapeLiteral : List UInt8 → List UInt8) : Prop :=
  ∀ s : Text, Char.ofNat 0 ∉ s →
    ∃ text, pqEscapeLiteral (encodeUtf8 s) = encodeUtf8 text ∧ IsLiteral s text

/-- The object is no number that is infinite, a fraction or complex, or not a number at all: a
number is written in decimal, with a minus sign perhaps. -/
def InDecimal : Scm → Prop
  | .number digits => IsNumber digits ∨ ∃ rest, digits = '-' :: rest ∧ IsNumber rest
  | _ => True

/-- What Scheme writes for a number that is not an integer: a decimal, or a text that begins with a
sign, or with a decimal before the bar of a fraction or the sign of an imaginary part. -/
inductive NumberText : Text → Prop where
  | decimal {digits : Text} (h : IsNumber digits) : NumberText digits
  | signed {sign c : Char} (rest : Text) (hsign : sign ∈ ['+', '-']) (hc : isOperator c = false) :
      NumberText (sign :: c :: rest)
  | compound {digits : Text} {mark c : Char} (rest : Text) (h : IsNumber digits)
      (hmark : mark ∈ ['/', '+', '-']) (hc : isOperator c = false) :
      NumberText (digits ++ mark :: c :: rest)

/-- The object is no number, or one that number->string writes. -/
def Scm.HasNumberText : Scm → Prop
  | .number digits => NumberText digits
  | _ => True

def IsConstantToken : Token → Prop
  | .literal _ => True
  | .number digits => IsNumber digits
  | .word text => text = "NULL".toList
  | _ => False

/-- A number with a minus sign. -/
def Scm.isNegative : Scm → Bool
  | .int z => z < 0
  | .number digits => digits.head? == some '-'
  | _ => false

/-- The tokens of a constant: a minus sign is an operator. -/
def Constant.tokens : Constant → List Token
  | .null => [.word "NULL".toList]
  | .literal s => [.literal s]
  | .number digits =>
      if digits.head? = some '-' then [.operator ['-'], .number digits.tail] else [.number digits]

/-! ### Objects -/

/-- There is no quote in the text of a timestamp. -/
theorem quoteMark_notMem_formatTime (t : GTime) :
  quoteMark ∉ formatTime t
  := by
  have hdigits : ∀ n, quoteMark ∉ Nat.toDigits 10 n := by
    intro n hmem
    have hdigit := Nat.isDigit_of_mem_toDigits (by decide) (by decide) hmem
    revert hdigit
    decide
  have hnumber : ∀ z, quoteMark ∉ numberText z := by
    intro z
    have hminus : quoteMark ≠ '-' := by decide
    rw [numberText]
    split <;> simp [hdigits, hminus]
  have htwo : ∀ z, quoteMark ∉ twoDigits z := by
    intro z
    have hzero : quoteMark ≠ '0' := by decide
    rw [twoDigits]
    split <;> simp [hnumber, hzero]
  have hdash : quoteMark ≠ '-' := by decide
  have hspace : quoteMark ≠ ' ' := by decide
  have hcolon : quoteMark ≠ ':' := by decide
  simp [formatTime, hnumber, htwo, hdash, hspace, hcolon]

/-- A text without quotes between quotes is a literal. -/
theorem isLiteral_of_notMem {s : Text} (h : quoteMark ∉ s) :
  IsLiteral s (quoteMark :: s ++ [quoteMark])
  := by
  have hdouble : doubleQuotes s = s := by
    induction s with
    | nil => rfl
    | cons c s ih =>
        simp only [List.mem_cons, not_or] at h
        have hcons : doubleQuotes (c :: s)
            = (if c = quoteMark then [c, c] else [c]) ++ doubleQuotes s := rfl
        rw [hcons, if_neg (Ne.symm h.1), ih h.2]
        rfl
  rw [IsLiteral, hdouble]
  exact Or.inl rfl

theorem isNumber_toDigits (n : ℕ) :
  IsNumber (Nat.toDigits 10 n)
  := by
  refine ⟨Nat.toDigits 10 n, [], [], ?_, Or.inl rfl, Or.inl rfl, by simp⟩
  exact ⟨Nat.toDigits_ne_nil, fun c hc => Nat.isDigit_of_mem_toDigits (by decide) (by decide) hc⟩

variable {pqEscapeLiteral : List UInt8 → List UInt8}

/-- The text of a constant. -/
structure Writes (v : Scm) (c : Constant) (text : Text) : Prop where
  constant : IsConstant v.isNegative text
  tokens_eq : tokens text = c.tokens

/-- A literal is written. -/
theorem writes_literal {v : Scm} {s text : Text} (hv : v.isNegative = false)
    (h : IsLiteral s text) :
  Writes v (.literal s) text
  := by
  obtain ⟨escapes, hrun⟩ := h.run_eq
  constructor
  · rw [hv]
    exact h.isConstant
  · rw [tokens, lex, hrun]
    rfl

/-- `NULL` is written. -/
theorem writes_null {v : Scm} (hv : v.isNegative = false) :
  Writes v .null "NULL".toList
  := by
  constructor
  · rw [hv]
    exact isConstant_null
  · decide

/-- A number is written. -/
theorem writes_number {v : Scm} {digits : Text}
    (h : v.isNegative = false ∧ IsNumber digits
      ∨ v.isNegative = true ∧ ∃ rest, digits = '-' :: rest ∧ IsNumber rest) :
  Writes v (.number digits) digits
  := by
  obtain ⟨hv, hdigits⟩ | ⟨hv, rest, rfl, hrest⟩ := h
  · constructor
    · rw [hv]
      exact hdigits.isConstant
    · rw [tokens, lex, hdigits.run_eq.1, Constant.tokens, if_neg hdigits.head?_ne]
      rfl
  · constructor
    · rw [hv]
      exact hrest.isConstant_minus
    · rw [tokens, lex, hrest.run_minus]
      rfl

/-- The text of a string. -/
theorem writes_string (hescape : EscapesLiterals pqEscapeLiteral) {v : Scm}
    (hv : v.isNegative = false) {s : Text} {c : Constant} (hc : pgFormatString s = some c) :
  ∃ text, pgFormatSqlString pqEscapeLiteral s = some text ∧ Writes v c text
  := by
  rw [pgFormatString] at hc
  rw [pgFormatSqlString]
  split at hc
  case isTrue hnil =>
      obtain rfl := Option.some.inj hc
      rw [if_pos hnil]
      exact ⟨_, rfl, writes_null hv⟩
  case isFalse hne =>
      obtain ⟨src, hsrc, rfl⟩ := Option.map_eq_some_iff.mp hc
      have hnul : Char.ofNat 0 ∉ s := by
        intro hmem
        rw [toUtf8, if_pos hmem] at hsrc
        cases hsrc
      rw [toUtf8, if_neg hnul] at hsrc
      obtain rfl := Option.some.inj hsrc
      obtain ⟨text, htext, hliteral⟩ := hescape s hnul
      rw [encodeUtf8] at htext
      refine ⟨text, ?_, ?_⟩
      · rw [if_neg hne, toUtf8, if_neg hnul, Option.map_some, htext]
        exact congrArg some (safeFromUtf8_flatMap text)
      · rw [safeFromUtf8_flatMap]
        exact writes_literal hv hliteral

/-- `pg_format_sql` writes the constant that stands for the object. -/
theorem writes_pgFormatSql (hescape : EscapesLiterals pqEscapeLiteral) {v : Scm} (hv : InDecimal v)
    {c : Constant} (hc : pgFormat v = some c) :
  ∃ text, pgFormatSql pqEscapeLiteral v = some text ∧ Writes v c text
  := by
  cases v with
  | time t =>
      obtain rfl := Option.some.inj hc
      exact ⟨_, rfl, writes_literal rfl (isLiteral_of_notMem (quoteMark_notMem_formatTime t))⟩
  | bool b =>
      obtain rfl := Option.some.inj hc
      cases b with
      | true => exact ⟨_, rfl, writes_literal rfl (isLiteral_of_notMem (by decide))⟩
      | false => exact ⟨_, rfl, writes_literal rfl (isLiteral_of_notMem (by decide))⟩
  | int z =>
      obtain rfl := Option.some.inj hc
      refine ⟨_, rfl, writes_number ?_⟩
      by_cases hz : z < 0
      · right
        rw [numberText, if_pos hz]
        exact ⟨decide_eq_true hz, _, rfl, isNumber_toDigits _⟩
      · left
        rw [numberText, if_neg hz]
        exact ⟨decide_eq_false hz, isNumber_toDigits _⟩
  | number digits =>
      obtain rfl := Option.some.inj hc
      refine ⟨_, rfl, writes_number ?_⟩
      obtain hdigits | ⟨rest, rfl, hrest⟩ := hv
      · left
        refine ⟨?_, hdigits⟩
        simpa [Scm.isNegative] using hdigits.head?_ne
      · exact Or.inr ⟨rfl, rest, rfl, hrest⟩
  | str s => exact writes_string hescape rfl hc
  | symbol name => exact writes_string hescape rfl hc
  | nil =>
      obtain rfl := Option.some.inj hc
      exact ⟨_, rfl, writes_null rfl⟩
  | pair car cdr =>
      obtain rfl := Option.some.inj hc
      exact ⟨_, rfl, writes_null rfl⟩
  | other address =>
      obtain rfl := Option.some.inj hc
      exact ⟨_, rfl, writes_null rfl⟩

/-! ### Statements -/

/-- Up to the next directive a template stands for itself. -/
theorem simpleFormat_append {t : Text} (h : '~' ∉ t) (rest : Text) (texts : List Text) :
  simpleFormat (t ++ rest) texts = (simpleFormat rest texts).map (t ++ ·)
  := by
  induction t with
  | nil => simp
  | cons c t ih =>
      simp only [List.mem_cons, not_or] at h
      have hc : c ≠ '~' := Ne.symm h.1
      rw [List.cons_append, simpleFormat, ih h.2, Option.map_map]
      · rfl
      · exact fun hc' => absurd hc' hc
      · exact fun _ _ _ _ hc' => absurd hc' hc

/-- Each directive is replaced by its argument. -/
theorem simpleFormat_template {t : Text} {pieces : List (Text × Text)} (ht : '~' ∉ t)
    (h : ∀ p ∈ pieces, '~' ∉ p.2) :
  simpleFormat (template t (pieces.map Prod.snd)) (pieces.map Prod.fst) = some (fill t pieces)
  := by
  induction pieces generalizing t with
  | nil =>
      rw [template, List.map_nil, List.flatMap_nil, simpleFormat_append ht]
      simp [simpleFormat, fill]
  | cons p pieces ih =>
      have hrest := ih (h p List.mem_cons_self) (fun q hq => h q (List.mem_cons_of_mem p hq))
      have hsplit : template t ((p :: pieces).map Prod.snd)
          = t ++ '~' :: 'a' :: template p.2 (pieces.map Prod.snd) := by simp [template]
      rw [hsplit, simpleFormat_append ht, List.map_cons, simpleFormat, hrest]
      rfl

/-- The tokens that stand for an object. -/
def Scm.sqlTokens (v : Scm) : List Token :=
  (pgFormat v).elim [] Constant.tokens

/-- The texts of the arguments, each with the constant that it writes. -/
theorem exists_texts (hescape : EscapesLiterals pqEscapeLiteral) {items : List (Scm × Text)}
    (hitems : ∀ i ∈ items, InDecimal i.1 ∧ (pgFormat i.1).isSome) :
  ∃ pieces : List (Bool × Text × Text),
    (items.map Prod.fst).mapM (pgFormatSql pqEscapeLiteral) = some (pieces.map (fun p => p.2.1))
    ∧ pieces.map (fun p => p.2.2) = items.map Prod.snd
    ∧ pieces.map (fun p => (p.1, p.2.2)) = items.map (fun i => (i.1.isNegative, i.2))
    ∧ (∀ p ∈ pieces, IsConstant p.1 p.2.1)
    ∧ pieces.flatMap (fun p => tokens p.2.1 ++ tokens p.2.2)
      = items.flatMap (fun i => i.1.sqlTokens ++ tokens i.2)
  := by
  induction items with
  | nil => exact ⟨[], rfl, rfl, rfl, by simp, rfl⟩
  | cons i items ih =>
      obtain ⟨hdecimal, hsome⟩ := hitems i List.mem_cons_self
      obtain ⟨c, hc⟩ := Option.isSome_iff_exists.mp hsome
      obtain ⟨text, htext, hwrites⟩ := writes_pgFormatSql hescape hdecimal hc
      obtain ⟨pieces, htexts, hts, hsigns, hconstants, htokens⟩ :=
        ih (fun j hj => hitems j (List.mem_cons_of_mem i hj))
      have hsql : i.1.sqlTokens = tokens text := by
        rw [hwrites.tokens_eq, Scm.sqlTokens, hc]
        rfl
      refine ⟨(i.1.isNegative, text, i.2) :: pieces, ?_, ?_, ?_, ?_, ?_⟩
      · rw [List.map_cons, List.mapM_cons, htext, htexts]
        rfl
      · rw [List.map_cons, hts, List.map_cons]
      · rw [List.map_cons, hsigns, List.map_cons]
      · exact List.forall_mem_cons.mpr ⟨hwrites.constant, hconstants⟩
      · rw [List.flatMap_cons, htokens, List.flatMap_cons, hsql]

/-- When a text is returned there is a constant. -/
theorem isSome_pgFormat {v : Scm} {text : Text} (h : pgFormatSql pqEscapeLiteral v = some text) :
  (pgFormat v).isSome
  := by
  have hstring : ∀ s, pgFormatSqlString pqEscapeLiteral s = some text →
      (pgFormatString s).isSome := by
    intro s hs
    rw [pgFormatSqlString] at hs
    rw [pgFormatString]
    split at hs
    case isTrue hnil =>
        rw [if_pos hnil]
        rfl
    case isFalse hne =>
        obtain ⟨src, hsrc, -⟩ := Option.map_eq_some_iff.mp hs
        rw [if_neg hne, hsrc]
        rfl
  cases v with
  | str s => exact hstring s h
  | symbol name => exact hstring name h
  | _ => rfl

/-- The constant of an object that is no negative number is one token. -/
theorem exists_token {v : Scm} (hdecimal : InDecimal v) (hv : v.isNegative = false) {c : Constant}
    (hc : pgFormat v = some c) :
  ∃ token, IsConstantToken token ∧ c.tokens = [token]
  := by
  have hstring : ∀ s, pgFormatString s = some c →
      ∃ token, IsConstantToken token ∧ c.tokens = [token] := by
    intro s hs
    rw [pgFormatString] at hs
    split at hs
    case isTrue =>
        obtain rfl := Option.some.inj hs
        exact ⟨.word "NULL".toList, rfl, rfl⟩
    case isFalse =>
        obtain ⟨src, -, rfl⟩ := Option.map_eq_some_iff.mp hs
        exact ⟨.literal _, trivial, rfl⟩
  cases v with
  | str s => exact hstring s hc
  | symbol name => exact hstring name hc
  | int z =>
      obtain rfl := Option.some.inj hc
      have hz : ¬ z < 0 := of_decide_eq_false hv
      have hnumber := isNumber_toDigits z.natAbs
      rw [numberText, if_neg hz]
      refine ⟨.number _, hnumber, ?_⟩
      rw [Constant.tokens, if_neg hnumber.head?_ne]
  | number digits =>
      obtain rfl := Option.some.inj hc
      obtain hdigits | ⟨rest, rfl, -⟩ := hdecimal
      · refine ⟨.number digits, hdigits, ?_⟩
        rw [Constant.tokens, if_neg hdigits.head?_ne]
      · cases hv
  | nil =>
      obtain rfl := Option.some.inj hc
      exact ⟨.word "NULL".toList, rfl, rfl⟩
  | pair car cdr =>
      obtain rfl := Option.some.inj hc
      exact ⟨.word "NULL".toList, rfl, rfl⟩
  | other address =>
      obtain rfl := Option.some.inj hc
      exact ⟨.word "NULL".toList, rfl, rfl⟩
  | time t =>
      obtain rfl := Option.some.inj hc
      exact ⟨.literal _, trivial, rfl⟩
  | bool b =>
      obtain rfl := Option.some.inj hc
      exact ⟨.literal _, trivial, rfl⟩

theorem tokens_signed {sign c : Char} (rest : Text) (hsign : sign ∈ ['+', '-'])
    (hc : isOperator c = false) :
  tokens (sign :: c :: rest) = .operator [sign] :: tokens (c :: rest)
  := by
  rcases List.mem_cons.mp hsign with rfl | hsign
  · exact tokens_operator (by decide) hc rest
  · obtain rfl := List.mem_singleton.mp hsign
    exact tokens_operator (by decide) hc rest

/-- A number that is written as one constant is written in decimal. -/
theorem isNumber_of_constant {digits : Text} (h : NumberText digits) {token : Token}
    (htoken : IsConstantToken token) (heq : tokens digits = [token]) :
  IsNumber digits
  := by
  cases h with
  | decimal h => exact h
  | signed rest hsign hc =>
      rw [tokens_signed rest hsign hc] at heq
      obtain rfl := (List.cons.inj heq).1
      exact absurd htoken not_false
  | @compound number mark c rest h hmark hc =>
      -- the number is a token, and the mark another one
      have hmarks : ∀ d ∈ ['/', '+', '-'], isWordPart d = false ∧ d ≠ '.'
          ∧ start d = (.operator [d], []) ∧ operators [d] ≠ [] := by
        rw [List.forall_mem_cons, List.forall_mem_cons, List.forall_mem_singleton]
        decide
      obtain ⟨hpart, hpoint, hstart, hne⟩ := hmarks mark hmark
      rw [h.tokens_append hpart hpoint, tokens_operator hstart hc] at heq
      have hnil := (List.append_eq_nil_iff.mp (List.cons.inj heq).2).1
      exact absurd hnil hne

/-- The text of an object is one constant exactly if it is no number, or a decimal without a sign. -/
theorem one_constant_iff (hescape : EscapesLiterals pqEscapeLiteral) {v : Scm} (hv : v.HasNumberText)
    {text : Text} (htext : pgFormatSql pqEscapeLiteral v = some text) :
  (∃ token, IsConstantToken token ∧ tokens text = [token]) ↔ InDecimal v ∧ v.isNegative = false
  := by
  constructor
  · rintro ⟨token, htoken, heq⟩
    have hdecimal : InDecimal v := by
      cases v with
      | number digits =>
          obtain rfl := Option.some.inj htext
          exact Or.inl (isNumber_of_constant hv htoken heq)
      | _ => trivial
    refine ⟨hdecimal, ?_⟩
    -- the text of a negative number begins with an operator
    by_contra hneg
    have hfirst : ∃ rest, text = '-' :: rest ∧ IsNumber rest := by
      cases v with
      | int z =>
          obtain rfl := Option.some.inj htext
          have hz : z < 0 := by simpa [Scm.isNegative] using hneg
          rw [numberText, if_pos hz]
          exact ⟨_, rfl, isNumber_toDigits _⟩
      | number digits =>
          obtain rfl := Option.some.inj htext
          obtain hdigits | hdigits := hdecimal
          · have hhead := hdigits.head?_ne
            simp [Scm.isNegative, hhead] at hneg
          · exact hdigits
      | _ => exact absurd rfl hneg
    obtain ⟨rest, rfl, hrest⟩ := hfirst
    rw [tokens, lex, hrest.run_minus] at heq
    obtain rfl := (List.cons.inj heq).1
    exact htoken
  · rintro ⟨hdecimal, hneg⟩
    obtain ⟨c, hc⟩ := Option.isSome_iff_exists.mp (isSome_pgFormat htext)
    obtain ⟨text', htext', hwrites⟩ := writes_pgFormatSql hescape hdecimal hc
    obtain rfl := Option.some.inj (htext.symm.trans htext')
    rw [hwrites.tokens_eq]
    exact exists_token hdecimal hneg hc

/-- **Parameters**: the text of an object is one constant exactly if the object is no number, or a
decimal without a sign, and then it is the constant of the object; with a minus sign the constant
comes after the operator.  When the directives of a template stand apart from what is around them, the
tokens of the statement are those of the template with the tokens of the arguments in the places of
the directives. -/
theorem query_parameters (hescape : EscapesLiterals pqEscapeLiteral) :
  (∀ v text, v.HasNumberText → pgFormatSql pqEscapeLiteral v = some text →
      ((∃ token, IsConstantToken token ∧ tokens text = [token])
        ↔ InDecimal v ∧ v.isNegative = false))
    ∧ (∀ v text, InDecimal v → pgFormatSql pqEscapeLiteral v = some text →
      ∃ c, pgFormat v = some c ∧ tokens text = c.tokens)
    ∧ ∀ (t : Text) (items : List (Scm × Text)), '~' ∉ t → (∀ i ∈ items, '~' ∉ i.2) →
      (∀ i ∈ items, InDecimal i.1 ∧ (pgFormat i.1).isSome) →
      Fits t (items.map (fun i => (i.1.isNegative, i.2))) →
      ∃ text, pgQuery pqEscapeLiteral (template t (items.map Prod.snd)) (items.map Prod.fst)
          = some text
        ∧ tokens text = tokens t ++ items.flatMap (fun i => i.1.sqlTokens ++ tokens i.2)
  := by
  refine ⟨fun v text hv htext => one_constant_iff hescape hv htext, ?_, ?_⟩
  · intro v text hv htext
    obtain ⟨c, hc⟩ := Option.isSome_iff_exists.mp (isSome_pgFormat htext)
    obtain ⟨text', htext', hwrites⟩ := writes_pgFormatSql hescape hv hc
    obtain rfl := Option.some.inj (htext.symm.trans htext')
    exact ⟨c, hc, hwrites.tokens_eq⟩
  · intro t items ht hts hitems hfits
    obtain ⟨pieces, htexts, hsnd, hsigns, hconstants, htokens⟩ := exists_texts hescape hitems
    have htemplate := @simpleFormat_template t (pieces.map Prod.snd) ht (by
      intro p hp
      obtain ⟨q, hq, rfl⟩ := List.mem_map.mp hp
      have hmem : q.2.2 ∈ items.map Prod.snd := by
        rw [← hsnd]
        exact List.mem_map_of_mem hq
      obtain ⟨i, hi, heq⟩ := List.mem_map.mp hmem
      rw [← heq]
      exact hts i hi)
    rw [List.map_map, List.map_map] at htemplate
    refine ⟨fill t (pieces.map Prod.snd), ?_, ?_⟩
    · rw [pgQuery, htexts, Option.bind_some, ← hsnd]
      exact htemplate
    · rw [tokens_fill hconstants (by rw [hsigns]; exact hfits), htokens]

/-- A function that makes literals, with escapes where there are backslashes. -/
def escapeLiteral (src : List UInt8) : List UInt8 :=
  let s := safeFromUtf8 src
  if escapeMark ∈ s then encodeUtf8 ([' ', 'E', quoteMark] ++ doubleEscapes s ++ [quoteMark])
  else encodeUtf8 (quoteMark :: doubleQuotes s ++ [quoteMark])

theorem escapesLiterals_escapeLiteral :
  EscapesLiterals escapeLiteral
  := by
  intro s _
  have hs : safeFromUtf8 (encodeUtf8 s) = s := safeFromUtf8_flatMap s
  rw [escapeLiteral, hs]
  split
  case isTrue => exact ⟨_, rfl, Or.inr rfl⟩
  case isFalse => exact ⟨_, rfl, Or.inl rfl⟩

/-- A string with a quote and a number with a sign. -/
theorem query_parameters_two :
  ∃ text, pgQuery escapeLiteral "select a=~a, b-~a".toList
      [.str ['o', quoteMark, 'k'], .int 3] = some text
    ∧ tokens text = [.word "select".toList, .word ['a'], .operator ['='],
      .literal ['o', quoteMark, 'k'], .special ',', .word ['b'], .operator ['-'], .number ['3']]
  := (query_parameters escapesLiterals_escapeLiteral).2.2 "select a=".toList
    [(.str ['o', quoteMark, 'k'], ", b-".toList), (.int 3, [])] (by decide) (by decide)
    (by
      intro i hi
      simp only [List.mem_cons, List.not_mem_nil, or_false] at hi
      obtain rfl | rfl := hi
      · exact ⟨trivial, rfl⟩
      · exact ⟨trivial, rfl⟩)
    (by
      refine ⟨Or.inr ⟨rfl, ['='], by decide⟩, ⟨by decide, ?_⟩, by decide, ?_⟩
      · intro c hc
        obtain rfl := Option.some.inj hc
        decide
      · refine ⟨Or.inr ⟨rfl, ['-'], by decide⟩, ⟨by decide, ?_⟩, by decide, trivial⟩
        intro c hc
        cases hc)

/-- After a minus sign of the template the one of a negative number makes a comment, and neither this
number nor a fraction is written as one constant. -/
theorem negative_not_constant :
  (∃ text, pgQuery escapeLiteral "5-~a".toList [.int (-3)] = some text
      ∧ tokens text = [.number ['5']])
    ∧ (∃ text, pgFormatSql escapeLiteral (.int (-3)) = some text
      ∧ tokens text = [.operator ['-'], .number ['3']])
    ∧ ∃ text, pgFormatSql escapeLiteral (.number "1/2".toList) = some text
      ∧ tokens text = [.number ['1'], .operator ['/'], .number ['2']]
  := ⟨⟨"5--3".toList, by decide, by decide⟩, ⟨"-3".toList, by decide, by decide⟩,
    ⟨"1/2".toList, rfl, by decide⟩⟩

end Gusher
