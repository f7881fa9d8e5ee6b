import Mathlib.Data.List.Basic
import Mathlib.Data.List.TakeWhile
import Mathlib.Tactic.Common

/-!
# The lexical structure of SQL

The tokens of a text in the dialect of PostgreSQL, read character by character by an automaton.
Letters before a string constant other than `E` are read as a word of their own, a number takes
the letters that are attached to it, and of the escapes in a constant only those with one character
are decoded.

After a state the text `y` is *fresh* when the token that is pending ends where `y` begins.  Then
the tokens of the two parts are found apart; so the tokens of a text that is put together are those
of its parts, when the parts are separated (`tokens_append`).
-/

namespace SqlLexer

/-- A token.  The value of a literal is the string that it denotes. -/
inductive Token where
  /-- a key word or a name -/
  | word (text : List Char)
  | quotedName (name : List Char)
  | literal (value : List Char)
  | number (text : List Char)
  /-- a parameter, with its digits -/
  | param (digits : List Char)
  | operator (text : List Char)
  | special (c : Char)
  /-- the text ends in a literal, a quoted name or a comment -/
  | unfinished
  deriving DecidableEq

/-! ### Characters -/

def quoteMark : Char :=
  Char.ofNat 39

/-- The double quote. -/
def nameMark : Char :=
  Char.ofNat 34

/-- The backslash. -/
def escapeMark : Char :=
  Char.ofNat 92

def isNewline (c : Char) : Bool :=
  c == '\n' || c == '\r'

def isWhite (c : Char) : Bool :=
  c == ' ' || c == '\t' || c == Char.ofNat 12 || isNewline c

def isWordStart (c : Char) : Bool :=
  c.isAlpha || c == '_' || decide (128 ≤ c.toNat)

/-- A character that continues a word. -/
def isWordPart (c : Char) : Bool :=
  isWordStart c || c.isDigit || c == '$'

def isOperator (c : Char) : Bool :=
  "+-*/<>=~!@#%^&|?".toList.contains c || c == Char.ofNat 96

/-- A character that allows a sign at the end of an operator. -/
def allowsSign (c : Char) : Bool :=
  "~!@#%^&|?".toList.contains c || c == Char.ofNat 96

def isSign (c : Char) : Bool :=
  c == '+' || c == '-'

/-- The character continues a number: a letter, a digit, a point, or the sign of an exponent. -/
def continuesNumber (number : List Char) (c : Char) : Bool :=
  isWordPart c || c == '.'
    || isSign c && (number.getLast? == some 'e' || number.getLast? == some 'E')

/-- The character that an escape with one character denotes. -/
def escapeValue (c : Char) : Char :=
  if c = 'n' then '\n'
  else if c = 't' then '\t'
  else if c = 'r' then '\r'
  else if c = 'b' then Char.ofNat 8
  else if c = 'f' then Char.ofNat 12
  else c

/-! ### The automaton -/

/-- The token that is pending.  In a literal `escapes` says whether a backslash starts an escape;
`line` says whether there has been a newline since the literal ended, after which another one is
its continuation. -/
inductive State where
  | ground
  | word (text : List Char)
  | number (text : List Char)
  | point
  | dollar (tag : List Char)
  | param (digits : List Char)
  | dollarBody (tag body : List Char)
  | operator (text : List Char)
  | literal (escapes : Bool) (value : List Char)
  | escape (value : List Char)
  /-- after a quote in a literal -/
  | quote (escapes : Bool) (value : List Char)
  /-- in the white space after a literal -/
  | gap (escapes : Bool) (value : List Char) (line : Bool)
  | gapDash (value : List Char) (escapes line : Bool)
  | gapComment (escapes : Bool) (value : List Char)
  | name (text : List Char)
  /-- after a double quote in a quoted name -/
  | nameEnd (text : List Char)
  | comment
  /-- in a comment between slashes, with the depth and the previous character -/
  | block (depth : ℕ) (prev : Char)
  deriving DecidableEq

/-- The operators of a sequence of operator characters: signs at its end stand alone, unless a
character allows them. -/
def operators (text : List Char) : List Token :=
  if text.any allowsSign then [.operator text]
  else
    let signs := text.reverse.takeWhile isSign
    let base := text.reverse.dropWhile isSign
    (if base = [] then [] else [.operator base.reverse])
      ++ signs.reverse.map (fun c => .operator [c])

/-- The tokens that are pending, where the text ends or a new token begins. -/
def State.flush : State → List Token
  | .ground | .comment => []
  | .word text => [.word text]
  | .number text => [.number text]
  | .point => [.special '.']
  | .dollar tag => .special '$' :: if tag = [] then [] else [.word tag]
  | .param digits => [.param digits]
  | .operator text => operators text
  | .quote _ value | .gap _ value _ | .gapComment _ value => [.literal value]
  | .gapDash value _ _ => [.literal value, .operator ['-']]
  | .nameEnd text => [.quotedName text]
  | .literal _ _ | .escape _ | .dollarBody _ _ | .name _ | .block _ _ => [.unfinished]

/-- The first character of a token. -/
def start (c : Char) : State × List Token :=
  if isWhite c then (.ground, [])
  else if c = quoteMark then (.literal false [], [])
  else if c = nameMark then (.name [], [])
  else if c = '$' then (.dollar [], [])
  else if c = '.' then (.point, [])
  else if c.isDigit then (.number [c], [])
  else if isWordStart c then (.word [c], [])
  else if isOperator c then (.operator [c], [])
  else (.ground, [.special c])

/-- The pending token ends, and the character is the first of another one. -/
def State.next (s : State) (c : Char) : State × List Token :=
  ((start c).1, s.flush ++ (start c).2)

/-- A character after operator characters. -/
def stepOperator (text : List Char) (c : Char) : State × List Token :=
  if isOperator c then
    if c = '-' ∧ text.getLast? = some '-' then (.comment, operators text.dropLast)
    else if c = '*' ∧ text.getLast? = some '/' then (.block 0 ' ', operators text.dropLast)
    else (.operator (text ++ [c]), [])
  else State.next (.operator text) c

/-- A character after a literal and some white space. -/
def stepGap (escapes : Bool) (value : List Char) (line : Bool) (c : Char) : State × List Token :=
  if isWhite c then (.gap escapes value (line || isNewline c), [])
  else if c = quoteMark ∧ line = true then (.literal escapes value, [])
  else if c = '-' then (.gapDash value escapes line, [])
  else State.next (.gap escapes value line) c

/-- One character. -/
def step : State → Char → State × List Token
  | .ground, c => start c
  | .word text, c =>
      if isWordPart c then (.word (text ++ [c]), [])
      else if c = quoteMark ∧ (text = ['e'] ∨ text = ['E']) then (.literal true [], [])
      else State.next (.word text) c
  | .number text, c =>
      if continuesNumber text c then (.number (text ++ [c]), []) else State.next (.number text) c
  | .point, c => if c.isDigit then (.number ['.', c], []) else State.next .point c
  | .dollar tag, c =>
      if c = '$' then (.dollarBody tag [], [])
      else if c.isDigit ∧ tag = [] then (.param [c], [])
      else if c.isDigit ∨ isWordStart c then (.dollar (tag ++ [c]), [])
      else State.next (.dollar tag) c
  | .param digits, c =>
      if c.isDigit then (.param (digits ++ [c]), []) else State.next (.param digits) c
  | .dollarBody tag body, c =>
      if '$' :: tag ++ ['$'] <:+ body ++ [c] then
        (.ground, [.literal ((body ++ [c]).take ((body ++ [c]).length - (tag.length + 2)))])
      else (.dollarBody tag (body ++ [c]), [])
  | .operator text, c => stepOperator text c
  | .literal escapes value, c =>
      if c = quoteMark then (.quote escapes value, [])
      else if c = escapeMark ∧ escapes = true then (.escape value, [])
      else (.literal escapes (value ++ [c]), [])
  | .escape value, c => (.literal true (value ++ [escapeValue c]), [])
  | .quote escapes value, c =>
      if c = quoteMark then (.literal escapes (value ++ [quoteMark]), [])
      else stepGap escapes value false c
  | .gap escapes value line, c => stepGap escapes value line c
  | .gapDash value escapes _, c =>
      if c = '-' then (.gapComment escapes value, [])
      else ((stepOperator ['-'] c).1, .literal value :: (stepOperator ['-'] c).2)
  | .gapComment escapes value, c =>
      if isNewline c then (.gap escapes value true, []) else (.gapComment escapes value, [])
  | .name text, c => if c = nameMark then (.nameEnd text, []) else (.name (text ++ [c]), [])
  | .nameEnd text, c =>
      if c = nameMark then (.name (text ++ [nameMark]), []) else State.next (.nameEnd text) c
  | .comment, c => (if isNewline c then .ground else .comment, [])
  | .block depth prev, c =>
      if prev = '*' ∧ c = '/' then
        (if depth = 0 then .ground else .block (depth - 1) ' ', [])
      else if prev = '/' ∧ c = '*' then (.block (depth + 1) ' ', [])
      else (.block depth c, [])

/-- The state after a text, and the tokens that have ended. -/
def run : State → List Char → State × List Token
  | s, [] => (s, [])
  | s, c :: text => ((run (step s c).1 text).1, (step s c).2 ++ (run (step s c).1 text).2)

/-- The tokens of a text from a state on. -/
def lex (s : State) (text : List Char) : List Token :=
  (run s text).2 ++ (run s text).1.flush

/-- The tokens of a text. -/
def tokens (text : List Char) : List Token :=
  lex .ground text

/-! ### Texts put together -/

theorem run_append (s : State) (x y : List Char) :
  run s (x ++ y) = ((run (run s x).1 y).1, (run s x).2 ++ (run (run s x).1 y).2)
  := by
  induction x generalizing s with
  | nil => rfl
  | cons c x ih => rw [List.cons_append, run, ih, run, List.append_assoc]

theorem lex_append (s : State) (x y : List Char) :
  lex s (x ++ y) = (run s x).2 ++ lex (run s x).1 y
  := by rw [lex, run_append, List.append_assoc, lex]

theorem lex_cons (s : State) (c : Char) (y : List Char) :
  lex s (c :: y) = (step s c).2 ++ lex (step s c).1 y
  := by rw [lex, run, List.append_assoc, lex]

/-- The pending token ends where the text begins. -/
def Fresh (s : State) (y : List Char) : Prop :=
  lex s y = s.flush ++ tokens y

/-- Where a token ends, the tokens before and after are found apart. -/
theorem tokens_append {x y : List Char} (h : Fresh (run .ground x).1 y) :
  tokens (x ++ y) = tokens x ++ tokens y
  := by
  rw [tokens, lex_append, h, ← List.append_assoc]
  rfl

theorem fresh_ground (y : List Char) :
  Fresh .ground y
  := rfl

theorem fresh_nil (s : State) :
  Fresh s []
  := by simp [Fresh, tokens, lex, run, State.flush]

theorem fresh_of_next {s : State} {c : Char} (h : step s c = s.next c) (y : List Char) :
  Fresh s (c :: y)
  := by rw [Fresh, lex_cons, h, State.next, List.append_assoc, tokens, lex_cons, step]

theorem fresh_operator {text : List Char} {c : Char} (hc : isOperator c = false) (y : List Char) :
  Fresh (.operator text) (c :: y)
  := by
  apply fresh_of_next
  rw [step, stepOperator, hc]
  rfl

theorem tokens_operator {c d : Char} (hc : start c = (.operator [c], [])) (hd : isOperator d = false)
    (y : List Char) :
  tokens (c :: d :: y) = operators [c] ++ tokens (d :: y)
  := by
  have hfresh := @fresh_operator [c] d hd y
  rw [tokens, lex_cons, step, hc]
  exact hfresh

/-- A word other than `E` ends before a character that does not continue it. -/
theorem fresh_word {text : List Char} (htext : text ≠ ['e'] ∧ text ≠ ['E']) {c : Char}
    (hc : isWordPart c = false) (y : List Char) :
  Fresh (.word text) (c :: y)
  := by
  apply fresh_of_next
  rw [step, hc, if_neg (by decide), if_neg (by simp [htext])]

theorem fresh_number {text : List Char} {c : Char} (hc : continuesNumber text c = false)
    (y : List Char) :
  Fresh (.number text) (c :: y)
  := by
  apply fresh_of_next
  rw [step, hc]
  rfl

/-- What comes after a literal is no continuation of it: after the white space there is neither
another quote nor a comment. -/
def NoContinuation (y : List Char) : Prop :=
  ¬ [quoteMark] <+: y.dropWhile isWhite ∧ ¬ ['-', '-'] <+: y.dropWhile isWhite

instance (y : List Char) : Decidable (NoContinuation y) :=
  inferInstanceAs (Decidable (¬ [quoteMark] <+: y.dropWhile isWhite
    ∧ ¬ ['-', '-'] <+: y.dropWhile isWhite))

theorem tokens_white {c : Char} (hc : isWhite c = true) (y : List Char) :
  tokens (c :: y) = tokens y
  := by
  have hstart : start c = (.ground, []) := if_pos hc
  rw [tokens, lex_cons, step, hstart, List.nil_append]
  rfl

/-- After a literal and white space. -/
theorem lex_gap {y : List Char} (hy : NoContinuation y) (escapes : Bool) (value : List Char)
    (line : Bool) :
  lex (.gap escapes value line) y = .literal value :: tokens y
  := by
  induction y generalizing line with
  | nil => rfl
  | cons c y ih =>
      cases hc : isWhite c with
      | true =>
          have hrest : NoContinuation y := by
            rw [NoContinuation, List.dropWhile_cons_of_pos hc] at hy
            exact hy
          rw [lex_cons, step, stepGap, hc, if_pos rfl, ih hrest, tokens_white hc]
          rfl
      | false =>
          rw [NoContinuation, List.dropWhile_cons_of_neg (by simp [hc])] at hy
          have hquote : c ≠ quoteMark := by
            rintro rfl
            exact hy.1 ⟨y, rfl⟩
          rw [lex_cons, step, stepGap, hc, if_neg (by decide), if_neg (by simp [hquote])]
          by_cases hdash : c = '-'
          · subst hdash
            rw [if_pos rfl]
            cases y with
            | nil => rfl
            | cons d y =>
                have hd : d ≠ '-' := by
                  rintro rfl
                  exact hy.2 ⟨y, rfl⟩
                have hstart : step .ground '-' = (.operator ['-'], []) := by decide
                rw [lex_cons, step, if_neg hd, tokens, lex_cons, hstart, lex_cons, step]
                rfl
          · rw [if_neg hdash, State.next, tokens, lex_cons, step]
            rfl

/-- A literal ends where its continuation does not follow. -/
theorem fresh_quote {y : List Char} (hy : NoContinuation y)
    (hquote : ¬ [quoteMark] <+: y) (escapes : Bool) (value : List Char) :
  Fresh (.quote escapes value) y
  := by
  cases y with
  | nil => apply fresh_nil
  | cons c y =>
      have hc : c ≠ quoteMark := by
        rintro rfl
        exact hquote ⟨y, rfl⟩
      have hstep : step (.quote escapes value) c = step (.gap escapes value false) c := by
        rw [step, if_neg hc, step]
      rw [Fresh, lex_cons, hstep, ← lex_cons, lex_gap hy]
      rfl

/-! ### Constants -/

/-- The string in a literal without escapes: quotes are doubled. -/
def doubleQuotes (value : List Char) : List Char :=
  value.flatMap (fun c => if c = quoteMark then [c, c] else [c])

/-- The string in a literal with escapes: quotes and backslashes are doubled. -/
def doubleEscapes (value : List Char) : List Char :=
  value.flatMap (fun c => if c = quoteMark ∨ c = escapeMark then [c, c] else [c])

/-- The text is a literal that denotes the string: without escapes, or, after a space, with them. -/
def IsLiteral (value text : List Char) : Prop :=
  text = quoteMark :: doubleQuotes value ++ [quoteMark]
    ∨ text = [' ', 'E', quoteMark] ++ doubleEscapes value ++ [quoteMark]

/-- The string in a literal without escapes is read back. -/
theorem run_doubleQuotes (value acc : List Char) :
  run (.literal false acc) (doubleQuotes value) = (.literal false (acc ++ value), [])
  := by
  induction value generalizing acc with
  | nil => simp [doubleQuotes, run]
  | cons c value ih =>
      have hcons : doubleQuotes (c :: value)
          = (if c = quoteMark then [c, c] else [c]) ++ doubleQuotes value := rfl
      have hfirst : run (.literal false acc) (if c = quoteMark then [c, c] else [c])
          = (.literal false (acc ++ [c]), []) := by
        by_cases hc : c = quoteMark
        · rw [if_pos hc, hc]
          rfl
        · rw [if_neg hc, run, run, step, if_neg hc, if_neg (by simp)]
          rfl
      rw [hcons, run_append, hfirst, ih, List.append_assoc]
      rfl

/-- The string in a literal with escapes is read back. -/
theorem run_doubleEscapes (value acc : List Char) :
  run (.literal true acc) (doubleEscapes value) = (.literal true (acc ++ value), [])
  := by
  induction value generalizing acc with
  | nil => simp [doubleEscapes, run]
  | cons c value ih =>
      have hcons : doubleEscapes (c :: value)
          = (if c = quoteMark ∨ c = escapeMark then [c, c] else [c]) ++ doubleEscapes value := rfl
      have hfirst : run (.literal true acc) (if c = quoteMark ∨ c = escapeMark then [c, c] else [c])
          = (.literal true (acc ++ [c]), []) := by
        by_cases hquote : c = quoteMark
        · rw [if_pos (Or.inl hquote), hquote]
          rfl
        · by_cases hescape : c = escapeMark
          · rw [if_pos (Or.inr hescape), hescape]
            rfl
          · rw [if_neg (by simp [hquote, hescape]), run, run, step, if_neg hquote,
              if_neg (by simp [hescape])]
            rfl
      rw [hcons, run_append, hfirst, ih, List.append_assoc]
      rfl

/-- A literal is one token. -/
theorem IsLiteral.run_eq {value text : List Char} (h : IsLiteral value text) :
  ∃ escapes, run .ground text = (.quote escapes value, [])
  := by
  obtain rfl | rfl := h
  · use false
    have hfirst : run .ground [quoteMark] = (.literal false [], []) := rfl
    rw [← List.singleton_append, List.append_assoc, run_append, hfirst, run_append,
      run_doubleQuotes, List.nil_append]
    rfl
  · use true
    have hfirst : run .ground [' ', 'E', quoteMark] = (.literal true [], []) := rfl
    rw [List.append_assoc, run_append, hfirst, run_append, run_doubleEscapes, List.nil_append]
    rfl

def IsDigits (text : List Char) : Prop :=
  text ≠ [] ∧ ∀ c ∈ text, c.isDigit = true

/-- A decimal number without a sign: digits, and maybe a fraction and an exponent. -/
def IsNumber (text : List Char) : Prop :=
  ∃ whole fraction exponent, IsDigits whole
    ∧ (fraction = [] ∨ ∃ digits, IsDigits digits ∧ fraction = '.' :: digits)
    ∧ (exponent = [] ∨ ∃ sign digits, (sign = [] ∨ sign = ['+'] ∨ sign = ['-'])
      ∧ IsDigits digits ∧ exponent = 'e' :: (sign ++ digits))
    ∧ text = whole ++ (fraction ++ exponent)

/-- A digit starts a number, continues one, and is no sign. -/
theorem of_isDigit {c : Char} (hc : c.isDigit = true) :
  start c = (.number [c], []) ∧ (∀ text, continuesNumber text c = true) ∧ c ≠ 'e' ∧ c ≠ 'E'
    ∧ isOperator c = false
  := by
  have hcontinues : ∀ text, continuesNumber text c = true := by
    intro text
    simp [continuesNumber, isWordPart, hc]
  have hcode : ∃ n < 10, c = Char.ofNat (48 + n) := by
    simp only [Char.isDigit, Bool.and_eq_true, decide_eq_true_eq] at hc
    have hlow : 48 ≤ c.toNat := hc.1
    have hhigh : c.toNat ≤ 57 := hc.2
    refine ⟨c.toNat - 48, by omega, ?_⟩
    rw [Nat.add_sub_cancel' hlow, Char.ofNat_toNat]
  obtain ⟨n, hn, rfl⟩ := hcode
  refine ⟨?_, hcontinues, ?_⟩
  all_goals
    clear hc hcontinues
    revert n
    decide

/-- Digits continue a number. -/
theorem run_digits {digits : List Char} (h : ∀ c ∈ digits, c.isDigit = true) (text : List Char) :
  run (.number text) digits = (.number (text ++ digits), [])
  := by
  induction digits generalizing text with
  | nil => simp [run]
  | cons c digits ih =>
      have hc := (of_isDigit (h c List.mem_cons_self)).2.1 text
      rw [run, step, if_pos hc, ih (fun d hd => h d (List.mem_cons_of_mem c hd)), List.append_assoc]
      rfl

/-- Digits end in a digit, whatever comes before them. -/
theorem IsDigits.getLast? {digits : List Char} (h : IsDigits digits) (text : List Char) :
  ∃ c, (text ++ digits).getLast? = some c ∧ c.isDigit = true
  := by
  obtain ⟨hne, hdigits⟩ := h
  refine ⟨digits.getLast hne, ?_, hdigits _ (List.getLast_mem hne)⟩
  rw [List.getLast?_append_of_ne_nil _ hne, List.getLast?_eq_some_getLast hne]

/-- A decimal number is one token. -/
theorem IsNumber.run_eq {text : List Char} (h : IsNumber text) :
  run .ground text = (.number text, []) ∧ ∃ c, text.getLast? = some c ∧ c.isDigit = true
  := by
  obtain ⟨whole, fraction, exponent, hwhole, hfraction, hexponent, rfl⟩ := h
  have hrunWhole : run .ground whole = (.number whole, []) := by
    obtain ⟨hne, hdigits⟩ := hwhole
    cases whole with
    | nil => exact absurd rfl hne
    | cons c whole =>
        have hstart := (of_isDigit (hdigits c List.mem_cons_self)).1
        rw [run, step, hstart, run_digits (fun d hd => hdigits d (List.mem_cons_of_mem c hd))]
        rfl
  have hrunFraction : ∀ t : List Char, run (.number t) fraction = (.number (t ++ fraction), []) := by
    intro t
    obtain rfl | ⟨digits, hdigits, rfl⟩ := hfraction
    · simp [run]
    · have hpoint : continuesNumber t '.' = true := by simp [continuesNumber]
      rw [run, step, if_pos hpoint, run_digits hdigits.2]
      simp
  have hrunExponent : ∀ t : List Char, run (.number t) exponent = (.number (t ++ exponent), []) := by
    intro t
    obtain rfl | ⟨sign, digits, hsign, hdigits, rfl⟩ := hexponent
    · simp [run]
    · have hletter : continuesNumber t 'e' = true := by
        simp [continuesNumber, isWordPart, isWordStart]
      have hrunSign : run (.number (t ++ ['e'])) sign = (.number (t ++ ['e'] ++ sign), []) := by
        obtain rfl | rfl | rfl := hsign
        · simp [run]
        · simp [run, step, continuesNumber, isSign]
        · simp [run, step, continuesNumber, isSign]
      rw [run, step, if_pos hletter, run_append, hrunSign, run_digits hdigits.2]
      simp
  constructor
  · rw [run_append, hrunWhole, run_append, hrunFraction, hrunExponent, List.append_assoc]
    rfl
  · obtain rfl | ⟨sign, digits, -, hdigits, rfl⟩ := hexponent
    · obtain rfl | ⟨digits, hdigits, rfl⟩ := hfraction
      · simpa using hwhole.getLast? []
      · simpa using hdigits.getLast? (whole ++ ['.'])
    · simpa using hdigits.getLast? (whole ++ (fraction ++ 'e' :: sign))

/-! ### Constants in a text -/

/-- A constant ends where the text begins, whatever constant it is. -/
def Follows (y : List Char) : Prop :=
  NoContinuation y ∧ ∀ c ∈ y.head?, isWordPart c = false ∧ c ≠ '.' ∧ c ≠ quoteMark

/-- The text of a constant, which may have a minus sign in front. -/
structure IsConstant (signed : Bool) (text : List Char) : Prop where
  ne_nil : text ≠ []
  closes : ∀ y, Follows y → Fresh (run .ground text).1 y
  opens : signed = false → ∀ c ∈ text.head?, isOperator c = false

theorem IsLiteral.isConstant {value text : List Char} (h : IsLiteral value text) :
  IsConstant false text
  := by
  obtain ⟨escapes, hrun⟩ := h.run_eq
  constructor
  case ne_nil => obtain rfl | rfl := h <;> simp
  case closes =>
      intro y hy
      rw [hrun]
      apply fresh_quote hy.1
      rintro ⟨z, rfl⟩
      exact (hy.2 quoteMark rfl).2.2 rfl
  case opens =>
      intro _ c hc
      obtain rfl | rfl := h
      · obtain rfl := Option.some.inj hc
        rfl
      · obtain rfl := Option.some.inj hc
        rfl

theorem isConstant_null :
  IsConstant false ['N', 'U', 'L', 'L']
  := by
  constructor
  case ne_nil => simp
  case closes =>
      intro y hy
      have hrun : run .ground ['N', 'U', 'L', 'L'] = (.word ['N', 'U', 'L', 'L'], []) := by decide
      rw [hrun]
      cases y with
      | nil => apply fresh_nil
      | cons c y => exact fresh_word (by decide) (hy.2 c rfl).1 y
  case opens =>
      intro _ c hc
      obtain rfl := Option.some.inj hc
      rfl

theorem IsNumber.fresh_cons {text : List Char} (h : IsNumber text) {c : Char}
    (hpart : isWordPart c = false) (hpoint : c ≠ '.') (y : List Char) :
  Fresh (.number text) (c :: y)
  := by
  obtain ⟨-, d, hlast, hd⟩ := h.run_eq
  have he := (of_isDigit hd).2.2
  apply fresh_number
  simp [continuesNumber, hpart, hpoint, hlast, he.1, he.2.1]

theorem IsNumber.fresh {text : List Char} (h : IsNumber text) {y : List Char} (hy : Follows y) :
  Fresh (.number text) y
  := by
  cases y with
  | nil => apply fresh_nil
  | cons c y =>
      obtain ⟨hpart, hpoint, -⟩ := hy.2 c rfl
      exact h.fresh_cons hpart hpoint y

/-- A number is a token of its own before a character that does not continue it. -/
theorem IsNumber.tokens_append {text : List Char} (h : IsNumber text) {c : Char}
    (hpart : isWordPart c = false) (hpoint : c ≠ '.') (y : List Char) :
  tokens (text ++ c :: y) = .number text :: tokens (c :: y)
  := by
  have hrun := h.run_eq.1
  rw [SqlLexer.tokens_append, tokens, lex, hrun]
  · rfl
  · rw [hrun]
    exact h.fresh_cons hpart hpoint y

theorem IsNumber.isConstant {text : List Char} (h : IsNumber text) :
  IsConstant false text
  := by
  constructor
  case ne_nil =>
      rintro rfl
      obtain ⟨-, d, hlast, -⟩ := h.run_eq
      cases hlast
  case closes =>
      intro y hy
      rw [h.run_eq.1]
      exact h.fresh hy
  case opens =>
      intro _ c hc
      obtain ⟨whole, fraction, exponent, ⟨hne, hdigits⟩, -, -, rfl⟩ := h
      cases whole with
      | nil => exact absurd rfl hne
      | cons d whole =>
          obtain rfl := Option.some.inj hc
          exact (of_isDigit (hdigits _ List.mem_cons_self)).2.2.2.2

theorem IsNumber.exists_cons {text : List Char} (h : IsNumber text) :
  ∃ c rest, text = c :: rest ∧ c.isDigit = true
  := by
  obtain ⟨whole, fraction, exponent, ⟨hne, hdigits⟩, -, -, rfl⟩ := h
  cases whole with
  | nil => exact absurd rfl hne
  | cons d whole => exact ⟨d, _, rfl, hdigits _ List.mem_cons_self⟩

/-- The first character of a number is no minus sign. -/
theorem IsNumber.head?_ne {text : List Char} (h : IsNumber text) :
  text.head? ≠ some '-'
  := by
  obtain ⟨c, rest, rfl, hc⟩ := h.exists_cons
  rw [List.head?_cons]
  intro heq
  rw [Option.some.inj heq] at hc
  revert hc
  decide

/-- A number with a minus sign is an operator and a number. -/
theorem IsNumber.run_minus {text : List Char} (h : IsNumber text) :
  run .ground ('-' :: text) = (.number text, [.operator ['-']])
  := by
  obtain ⟨c, rest, rfl, hc⟩ := h.exists_cons
  have hstart := (of_isDigit hc).1
  have hop := (of_isDigit hc).2.2.2.2
  have hminus : start '-' = (.operator ['-'], []) := by decide
  have hrun := h.run_eq.1
  rw [run, step, hstart] at hrun
  rw [run, step, hminus, run, step, stepOperator, hop, if_neg (by decide), State.next, hstart]
  dsimp only at hrun ⊢
  rw [Prod.ext_iff] at hrun
  obtain ⟨hstate, htokens⟩ := hrun
  rw [List.nil_append] at htokens
  dsimp only at hstate htokens
  rw [hstate, htokens]
  rfl

theorem IsNumber.isConstant_minus {text : List Char} (h : IsNumber text) :
  IsConstant true ('-' :: text)
  := by
  constructor
  case ne_nil => simp
  case closes =>
      intro y hy
      rw [h.run_minus]
      exact h.fresh hy
  case opens => nofun

/-- A text in which constants stand, each with the text after it. -/
def fill (t : List Char) : List (List Char × List Char) → List Char
  | [] => t
  | (text, t') :: rest => t ++ (text ++ fill t' rest)

/-- Each constant stands apart: no word, number, literal or comment is pending before it, and no
operator when it has a sign; and after it a new token begins, which is not white space alone unless
the text ends. -/
def Fits (t : List Char) : List (Bool × List Char) → Prop
  | [] => True
  | (signed, t') :: rest =>
      ((run .ground t).1 = .ground
          ∨ signed = false ∧ ∃ text, (run .ground t).1 = .operator text)
        ∧ Follows t' ∧ (rest ≠ [] → t'.dropWhile isWhite ≠ []) ∧ Fits t' rest

instance decidableFollows (y : List Char) : Decidable (Follows y) :=
  -- the first character is tested; there are too many characters to try them all
  have : Decidable (∀ c ∈ y.head?, isWordPart c = false ∧ c ≠ '.' ∧ c ≠ quoteMark) :=
    Option.decidableForallMem y.head?
  inferInstanceAs (Decidable (NoContinuation y
    ∧ ∀ c ∈ y.head?, isWordPart c = false ∧ c ≠ '.' ∧ c ≠ quoteMark))

instance decidableIsPending (s : State) : Decidable (∃ text, s = .operator text) :=
  match s with
  | .operator text => isTrue ⟨text, rfl⟩
  | .ground | .word _ | .number _ | .point | .dollar _ | .param _ | .dollarBody _ _ | .literal _ _
  | .escape _ | .quote _ _ | .gap _ _ _ | .gapDash _ _ _ | .gapComment _ _ | .name _ | .nameEnd _
  | .comment | .block _ _ => isFalse nofun

instance decidableFits : ∀ (t : List Char) (pieces : List (Bool × List Char)),
    Decidable (Fits t pieces)
  | _, [] => inferInstanceAs (Decidable True)
  | t, (signed, t') :: rest =>
      have := decidableFits t' rest
      inferInstanceAs (Decidable (((run .ground t).1 = .ground
          ∨ signed = false ∧ ∃ text, (run .ground t).1 = .operator text)
        ∧ Follows t' ∧ (rest ≠ [] → t'.dropWhile isWhite ≠ []) ∧ Fits t' rest))

/-- White space leaves nothing pending. -/
theorem run_white {x : List Char} (h : ∀ c ∈ x, isWhite c = true) :
  run .ground x = (.ground, [])
  := by
  induction x with
  | nil => rfl
  | cons c x ih =>
      have hstart : start c = (.ground, []) := if_pos (h c List.mem_cons_self)
      rw [run, step, hstart, ih (fun d hd => h d (List.mem_cons_of_mem c hd))]
      rfl

/-- What follows a constant, when another one stands after it. -/
theorem Follows.append {t y : List Char} (h : Follows t) (hne : t.dropWhile isWhite ≠ [])
    (hdash : t.dropWhile isWhite = ['-'] → y.head? ≠ some '-') :
  Follows (t ++ y)
  := by
  obtain ⟨⟨hquote, hcomment⟩, hhead⟩ := h
  have hdrop : (t ++ y).dropWhile isWhite = t.dropWhile isWhite ++ y := by
    rw [List.dropWhile_append, if_neg (by simpa using hne)]
  have hnil : t ≠ [] := by
    rintro rfl
    exact hne rfl
  refine ⟨⟨?_, ?_⟩, ?_⟩
  · rw [hdrop]
    cases hrest : t.dropWhile isWhite with
    | nil => exact absurd hrest hne
    | cons c rest =>
        rw [hrest] at hquote
        simpa [List.cons_prefix_cons] using hquote
  · rw [hdrop]
    cases hrest : t.dropWhile isWhite with
    | nil => exact absurd hrest hne
    | cons c rest =>
        rw [hrest] at hcomment hdash
        cases rest with
        | nil =>
            intro hbegin
            obtain ⟨hc, z, hz⟩ := List.cons_prefix_cons.mp hbegin
            have hy : y = '-' :: z := hz.symm
            apply hdash (by rw [hc])
            rw [hy]
            rfl
        | cons d rest => simpa [List.cons_prefix_cons] using hcomment
  · cases t with
    | nil => exact absurd rfl hnil
    | cons c t => exact hhead

/-- **Constants in a text**: the tokens are those of the pieces. -/
theorem tokens_fill {t : List Char} {pieces : List (Bool × List Char × List Char)}
    (hconstants : ∀ p ∈ pieces, IsConstant p.1 p.2.1)
    (hfits : Fits t (pieces.map (fun p => (p.1, p.2.2)))) :
  tokens (fill t (pieces.map Prod.snd))
    = tokens t ++ pieces.flatMap (fun p => tokens p.2.1 ++ tokens p.2.2)
  := by
  induction pieces generalizing t with
  | nil => simp [fill]
  | cons p pieces ih =>
      obtain ⟨signed, text, t'⟩ := p
      have hconstant := hconstants _ List.mem_cons_self
      dsimp only at hconstant
      rw [List.map_cons, Fits] at hfits
      obtain ⟨hbefore, hafter, hwhite, hrest⟩ := hfits
      have hfollows : Follows (fill t' (pieces.map Prod.snd)) := by
        cases pieces with
        | nil => exact hafter
        | cons q pieces =>
            obtain ⟨signed', text', t''⟩ := q
            have hne := hwhite (by simp)
            apply hafter.append hne
            intro hdash hminus
            -- an operator is pending before the next constant, which has no sign
            have hconstant' := hconstants _ (List.mem_cons_of_mem _ List.mem_cons_self)
            dsimp only at hconstant'
            have hsplit : t' = t'.takeWhile isWhite ++ ['-'] := by
              rw [← hdash, List.takeWhile_append_dropWhile]
            have hstate : (run .ground t').1 = .operator ['-'] := by
              rw [hsplit, run_append, run_white (fun c hc => List.mem_takeWhile_imp hc)]
              decide
            rw [List.map_cons, Fits, hstate] at hrest
            obtain hground | ⟨rfl, -⟩ := hrest.1
            · cases hground
            · obtain ⟨c, text', rfl⟩ := List.exists_cons_of_ne_nil hconstant'.ne_nil
              obtain rfl := Option.some.inj hminus
              have hop := hconstant'.opens rfl '-' rfl
              revert hop
              decide
      have hfirst : Fresh (run .ground t).1 (text ++ fill t' (pieces.map Prod.snd)) := by
        obtain hground | ⟨rfl, op, hop⟩ := hbefore
        · rw [hground]
          apply fresh_ground
        · obtain ⟨c, text, rfl⟩ := List.exists_cons_of_ne_nil hconstant.ne_nil
          rw [hop]
          exact fresh_operator (hconstant.opens rfl c rfl) _
      rw [List.map_cons, fill, tokens_append hfirst, tokens_append (hconstant.closes _ hfollows),
        ih (fun q hq => hconstants q (List.mem_cons_of_mem _ hq)) hrest, List.flatMap_cons,
        List.append_assoc]

end SqlLexer
