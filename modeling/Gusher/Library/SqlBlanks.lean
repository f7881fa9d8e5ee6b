import Gusher.Library.SqlLexer

/-!
# White space between the tokens of SQL

A run of blanks in a text counts as a space, unless it lies in a literal or in a quoted name
(`run_blanks`).  Hence the blanks of a text can be squeezed (`tokens_squeeze`), and so can those of a
text in which constants stand, apart from the constants themselves (`tokens_fill_squeeze`).
-/

namespace SqlLexer

/-- A blank: a space or a tab. -/
def isBlank (c : Char) : Bool :=
  c == ' ' || c == '\t'

/-- The characters of a literal or of a quoted name are taken as they are. -/
def State.quotes : State → Bool
  | .literal _ _ | .escape _ | .dollarBody _ _ | .name _ => true
  | _ => false

theorem isBlank_iff {c : Char} :
  isBlank c = true ↔ c = ' ' ∨ c = '\t'
  := by simp [isBlank]

/-- What a blank is, and what it is not. -/
theorem of_isBlank {b : Char} (hb : isBlank b = true) :
  isWhite b = true ∧ isNewline b = false ∧ isWordPart b = false ∧ isOperator b = false
    ∧ b.isDigit = false ∧ isWordStart b = false ∧ b ≠ '$' ∧ b ≠ quoteMark ∧ b ≠ nameMark ∧ b ≠ '-'
    ∧ b ≠ '*' ∧ b ≠ '/'
  := by
  rcases isBlank_iff.mp hb with rfl | rfl <;> decide

/-! ### States that go on alike -/

/-- The previous character in a comment matters only when it is a star or a slash. -/
def State.Alike (s s' : State) : Prop :=
  s = s' ∨ ∃ depth prev prev', s = .block depth prev ∧ s' = .block depth prev'
    ∧ (prev ≠ '*' ∧ prev ≠ '/') ∧ (prev' ≠ '*' ∧ prev' ≠ '/')

/-- The same tokens, and states that go on alike. -/
def RunsAlike (p q : State × List Token) : Prop :=
  p.2 = q.2 ∧ p.1.Alike q.1

theorem RunsAlike.refl (p : State × List Token) :
  RunsAlike p p
  := ⟨rfl, Or.inl rfl⟩

theorem RunsAlike.trans {p q r : State × List Token} (h : RunsAlike p q) (h' : RunsAlike q r) :
  RunsAlike p r
  := by
  refine ⟨h.1.trans h'.1, ?_⟩
  obtain heq | ⟨depth, prev, prev', hp, hq, hprev, -⟩ := h.2
  · rw [heq]
    exact h'.2
  · obtain heq | ⟨depth', prev₁, prev₂, hq', hr, -, hprev₂⟩ := h'.2
    · rw [← heq]
      exact h.2
    · obtain ⟨rfl, rfl⟩ := State.block.inj (hq.symm.trans hq')
      exact Or.inr ⟨depth, prev, prev₂, hp, hr, hprev, hprev₂⟩

theorem State.Alike.eq_of_not_block {s s' : State} (h : s.Alike s')
    (hs : ∀ depth prev, s' ≠ .block depth prev) :
  s = s'
  := by
  obtain rfl | ⟨depth, prev, prev', -, rfl, -⟩ := h
  · rfl
  · exact absurd rfl (hs depth prev')

theorem State.Alike.flush_eq {s s' : State} (h : s.Alike s') :
  s.flush = s'.flush
  := by
  obtain rfl | ⟨depth, prev, prev', rfl, rfl, -⟩ := h
  · rfl
  · rfl

theorem State.Alike.step {s s' : State} (h : s.Alike s') (c : Char) :
  RunsAlike (step s c) (SqlLexer.step s' c)
  := by
  obtain rfl | ⟨depth, prev, prev', rfl, rfl, hprev, hprev'⟩ := h
  · apply RunsAlike.refl
  · have hstep : ∀ {p : Char}, p ≠ '*' ∧ p ≠ '/' →
        SqlLexer.step (.block depth p) c = (.block depth c, []) := by
      intro p hp
      rw [SqlLexer.step, if_neg (fun h => hp.1 h.1), if_neg (fun h => hp.2 h.1)]
    rw [hstep hprev, hstep hprev']
    apply RunsAlike.refl

theorem State.Alike.run {s s' : State} (h : s.Alike s') (x : List Char) :
  RunsAlike (run s x) (SqlLexer.run s' x)
  := by
  induction x generalizing s s' with
  | nil => exact ⟨rfl, h⟩
  | cons c x ih =>
      obtain ⟨htokens, hstates⟩ := h.step c
      obtain ⟨hrest, hlast⟩ := ih hstates
      exact ⟨congrArg₂ (· ++ ·) htokens hrest, hlast⟩

theorem RunsAlike.append {s : State} {x x' : List Char} (h : RunsAlike (run s x) (run s x'))
    (y : List Char) :
  RunsAlike (run s (x ++ y)) (run s (x' ++ y))
  := by
  obtain ⟨htokens, hstates⟩ := h
  obtain ⟨hrest, hlast⟩ := hstates.run y
  rw [run_append, run_append]
  exact ⟨congrArg₂ (· ++ ·) htokens hrest, hlast⟩

theorem RunsAlike.lex_eq {s : State} {x x' : List Char} (h : RunsAlike (run s x) (run s x')) :
  lex s x = lex s x'
  := congrArg₂ (· ++ ·) h.1 h.2.flush_eq

/-! ### Runs of blanks -/

/-- A blank ends the token that is pending, when nothing is quoted and no literal or comment is
behind. -/
theorem step_blank {s : State} {b : Char} (hb : isBlank b = true)
    (hs : s.quotes = false ∧ s ≠ .comment ∧ (∀ depth prev, s ≠ .block depth prev)
      ∧ (∀ escapes value, s ≠ .quote escapes value ∧ s ≠ .gapComment escapes value)
      ∧ ∀ escapes value line, s ≠ .gap escapes value line) :
  step s b = (.ground, s.flush)
  := by
  obtain ⟨hquotes, hcomment, hblock, hquote, hgap⟩ := hs
  obtain ⟨hwhite, -, hpart, hop, hdigit, hword, hdollar, hmark, hname, hdash, -⟩ := of_isBlank hb
  have hstart : start b = (.ground, []) := if_pos hwhite
  have hnext : ∀ s : State, s.next b = (.ground, s.flush) := by
    intro s
    rw [State.next, hstart, List.append_nil]
  have hoperator : ∀ text, stepOperator text b = (.ground, operators text) := by
    intro text
    rw [stepOperator, hop, if_neg (by decide)]
    exact hnext _
  cases s with
  | ground => exact hstart
  | word text => rw [step, hpart, if_neg (by decide), if_neg (fun h => hmark h.1), hnext]
  | number text =>
      have hcontinues : continuesNumber text b = false := by
        rcases isBlank_iff.mp hb with rfl | rfl <;> rfl
      rw [step, hcontinues, if_neg (by decide), hnext]
  | point => rw [step, hdigit, if_neg (by decide), hnext]
  | dollar tag => simp [step, hdollar, hdigit, hword, hnext]
  | param digits => rw [step, hdigit, if_neg (by decide), hnext]
  | operator text => exact hoperator text
  | gapDash value escapes line =>
      rw [step, if_neg hdash, hoperator]
      rfl
  | nameEnd text => rw [step, if_neg hname, hnext]
  | comment => exact absurd rfl hcomment
  | block depth prev => exact absurd rfl (hblock depth prev)
  | quote escapes value => exact absurd rfl (hquote escapes value).1
  | gapComment escapes value => exact absurd rfl (hquote escapes value).2
  | gap escapes value line => exact absurd rfl (hgap escapes value line)
  | literal | escape | dollarBody | name => cases hquotes

/-- Two blanks count as one where nothing is quoted. -/
theorem run_blank_blank {s : State} (hs : s.quotes = false) {b b' : Char} (hb : isBlank b = true)
    (hb' : isBlank b' = true) :
  RunsAlike (run s [b, b']) (run s [' '])
  := by
  have hspace : isBlank ' ' = true := rfl
  -- the second blank leaves the state as it is
  have hagain : ∀ {u : State} {ts : List Token}, (∀ b, isBlank b = true → step s b = (u, ts)) →
      step u b' = (u, []) → RunsAlike (run s [b, b']) (run s [' ']) := by
    intro u ts hfirst hsecond
    have hpair : run s [b, b'] = (u, ts ++ []) := by simp only [run, hfirst b hb, hsecond, List.nil_append]
    have hone : run s [' '] = (u, ts ++ []) := by simp only [run, hfirst ' ' hspace]
    rw [hpair, hone]
    apply RunsAlike.refl
  have hgap : ∀ escapes value line b, isBlank b = true →
      step (.gap escapes value line) b = (.gap escapes value line, []) := by
    intro escapes value line b hb
    obtain ⟨hwhite, hline, -⟩ := of_isBlank hb
    rw [step, stepGap, hwhite, if_pos rfl, hline, Bool.or_false]
  have hcomment : ∀ escapes value b, isBlank b = true →
      step (.gapComment escapes value) b = (.gapComment escapes value, []) := by
    intro escapes value b hb
    rw [step, (of_isBlank hb).2.1, if_neg (by decide)]
  have hline : ∀ b, isBlank b = true → step .comment b = (.comment, []) := by
    intro b hb
    rw [step, (of_isBlank hb).2.1, if_neg (by decide)]
  cases s with
  | quote escapes value =>
      have hfirst : ∀ b, isBlank b = true →
          step (.quote escapes value) b = (.gap escapes value false, []) := by
        intro b hb
        have hmark : b ≠ quoteMark := (of_isBlank hb).2.2.2.2.2.2.2.1
        rw [step, if_neg hmark]
        exact hgap escapes value false b hb
      exact hagain hfirst (hgap escapes value false b' hb')
  | gap escapes value line =>
      exact hagain (hgap escapes value line) (hgap escapes value line b' hb')
  | gapComment escapes value =>
      exact hagain (hcomment escapes value) (hcomment escapes value b' hb')
  | comment => exact hagain hline (hline b' hb')
  | block depth prev =>
      have hstep : ∀ {p b}, isBlank b = true → step (.block depth p) b = (.block depth b, []) := by
        intro p b hb
        obtain ⟨hstar, hslash⟩ := (of_isBlank hb).2.2.2.2.2.2.2.2.2.2
        rw [step, if_neg (fun h => hslash h.2), if_neg (fun h => hstar h.2)]
      have hpair : run (.block depth prev) [b, b'] = (.block depth b', []) := by
        simp only [run, hstep hb, hstep hb', List.append_nil]
      have hone : run (.block depth prev) [' '] = (.block depth ' ', []) := by
        simp only [run, hstep hspace, List.append_nil]
      rw [hpair, hone]
      exact ⟨rfl, Or.inr ⟨depth, b', ' ', rfl, rfl, (of_isBlank hb').2.2.2.2.2.2.2.2.2.2, by decide⟩⟩
  | literal | escape | dollarBody | name => cases hs
  | _ =>
      exact hagain (fun b hb => step_blank hb ⟨hs, by simp, by simp, by simp, by simp⟩)
        (if_pos (of_isBlank hb').1)

/-- A run of two blanks or more counts as a space where nothing is quoted. -/
theorem run_blanks {s : State} (hs : s.quotes = false) {b b' : Char} (hb : isBlank b = true)
    (hb' : isBlank b' = true) {blanks : List Char} (hblanks : ∀ c ∈ blanks, isBlank c = true) :
  RunsAlike (run s (b :: b' :: blanks)) (run s [' '])
  := by
  induction blanks generalizing b b' with
  | nil => exact run_blank_blank hs hb hb'
  | cons b'' blanks ih =>
      have hfirst := (run_blank_blank hs hb hb').append (b'' :: blanks)
      apply hfirst.trans
      exact ih rfl (hblanks b'' List.mem_cons_self) (fun c hc => hblanks c (List.mem_cons_of_mem _ hc))

/-! ### Squeezed texts -/

/-- One blank stays, and more of them become a space. -/
def squeezeRun : List Char → List Char
  | _ :: _ :: _ => [' ']
  | blanks => blanks

/-- A text with its blanks squeezed, after blanks that have been read. -/
def squeezeFrom : List Char → List Char → List Char
  | blanks, [] => squeezeRun blanks
  | blanks, c :: text =>
      if isBlank c then squeezeFrom (blanks ++ [c]) text
      else squeezeRun blanks ++ c :: squeezeFrom [] text

/-- A text with its blanks squeezed. -/
def squeeze (text : List Char) : List Char :=
  squeezeFrom [] text

/-- No two blanks side by side are quoted. -/
def Squeezable : State → List Char → Prop
  | _, [] => True
  | s, c :: text =>
      (s.quotes = true → isBlank c = true → ∀ d ∈ text.head?, isBlank d = false)
        ∧ Squeezable (step s c).1 text

instance decidableSqueezable : ∀ (s : State) (text : List Char), Decidable (Squeezable s text)
  | _, [] => inferInstanceAs (Decidable True)
  | s, c :: text =>
      have := decidableSqueezable (step s c).1 text
      inferInstanceAs (Decidable ((s.quotes = true → isBlank c = true →
        ∀ d ∈ text.head?, isBlank d = false) ∧ Squeezable (step s c).1 text))

theorem Squeezable.append {s : State} {x y : List Char} (h : Squeezable s (x ++ y)) :
  Squeezable (run s x).1 y
  := by
  induction x generalizing s with
  | nil => exact h
  | cons c x ih => exact ih h.2

/-- Blanks that are not quoted can be squeezed. -/
theorem run_squeezeRun {s : State} {blanks y : List Char} (hblanks : ∀ b ∈ blanks, isBlank b = true)
    (h : Squeezable s (blanks ++ y)) :
  RunsAlike (run s (squeezeRun blanks)) (run s blanks)
  := by
  match blanks with
  | [] => apply RunsAlike.refl
  | [b] => apply RunsAlike.refl
  | b :: b' :: blanks =>
      have hb := hblanks b List.mem_cons_self
      have hb' := hblanks b' (by simp)
      have hquotes : s.quotes = false := by
        by_contra hs
        have hnot := h.1 (by simpa using hs) hb b' rfl
        rw [hb'] at hnot
        cases hnot
      have hrest : ∀ c ∈ blanks, isBlank c = true := fun c hc => hblanks c (by simp [hc])
      obtain ⟨htokens, hstates⟩ := run_blanks hquotes hb hb' hrest
      refine ⟨htokens.symm, ?_⟩
      obtain heq | ⟨depth, prev, prev', hp, hq, hprev, hprev'⟩ := hstates
      · exact Or.inl heq.symm
      · exact Or.inr ⟨depth, prev', prev, hq, hp, hprev', hprev⟩

theorem run_squeezeFrom {s : State} {blanks text : List Char}
    (hblanks : ∀ b ∈ blanks, isBlank b = true) (h : Squeezable s (blanks ++ text)) :
  RunsAlike (run s (squeezeFrom blanks text)) (run s (blanks ++ text))
  := by
  induction text generalizing s blanks with
  | nil =>
      rw [squeezeFrom, List.append_nil]
      exact run_squeezeRun hblanks h
  | cons c text ih =>
      rw [squeezeFrom]
      split
      case isTrue hc =>
          have hblanks' : ∀ b ∈ blanks ++ [c], isBlank b = true := by
            intro b hb
            rcases List.mem_append.mp hb with hb | hb
            · exact hblanks b hb
            · rw [List.mem_singleton.mp hb]
              exact hc
          have hrest := ih hblanks' (s := s) (by simpa using h)
          simpa using hrest
      case isFalse hc =>
          apply ((run_squeezeRun hblanks h).append _).trans
          have hrest := @ih (step (run s blanks).1 c).1 [] (by simp) h.append.2
          rw [run_append, run_append, run, run]
          exact ⟨by rw [hrest.1]; rfl, hrest.2⟩

/-- The tokens of a text do not change when its blanks are squeezed. -/
theorem run_squeeze {s : State} {text : List Char} (h : Squeezable s text) :
  RunsAlike (run s (squeeze text)) (run s text)
  := run_squeezeFrom (by simp) h

/-- A character that is no blank divides the blanks. -/
theorem squeezeFrom_append_cons {c : Char} (hc : isBlank c = false) (blanks x y : List Char) :
  squeezeFrom blanks (x ++ c :: y) = squeezeFrom blanks x ++ c :: squeeze y
  := by
  induction x generalizing blanks with
  | nil =>
      simp only [List.nil_append, squeezeFrom, hc]
      rfl
  | cons d x ih =>
      rw [List.cons_append, squeezeFrom, squeezeFrom, ih, ih]
      split
      case isTrue => rfl
      case isFalse => rw [List.append_assoc, List.cons_append]

theorem squeeze_cons {c : Char} (hc : isBlank c = false) (y : List Char) :
  squeeze (c :: y) = c :: squeeze y
  := squeezeFrom_append_cons hc [] [] y

theorem squeeze_append_cons {c : Char} (hc : isBlank c = false) (x y : List Char) :
  squeeze (x ++ c :: y) = squeeze x ++ c :: squeeze y
  := squeezeFrom_append_cons hc [] x y

/-- Squeezed blanks cannot be squeezed further. -/
theorem squeeze_squeezeFrom {blanks text : List Char} (hblanks : ∀ b ∈ blanks, isBlank b = true) :
  squeeze (squeezeFrom blanks text) = squeezeFrom blanks text
  := by
  have hrun : ∀ {blanks : List Char}, (∀ b ∈ blanks, isBlank b = true) →
      squeeze (squeezeRun blanks) = squeezeRun blanks := by
    intro blanks hblanks
    match blanks with
    | [] => rfl
    | [b] =>
        have hb := hblanks b List.mem_cons_self
        simp [squeezeRun, squeeze, squeezeFrom, hb]
    | _ :: _ :: _ => rfl
  induction text generalizing blanks with
  | nil => exact hrun hblanks
  | cons c text ih =>
      rw [squeezeFrom]
      split
      case isTrue hc =>
          apply ih
          intro b hb
          rcases List.mem_append.mp hb with hb | hb
          · exact hblanks b hb
          · rw [List.mem_singleton.mp hb]
            exact hc
      case isFalse hc =>
          rw [squeeze_append_cons (by simpa using hc), hrun hblanks, ih (by simp)]

theorem mem_squeezeFrom {c : Char} {blanks text : List Char} (h : c ∈ squeezeFrom blanks text) :
  c = ' ' ∨ c ∈ blanks ++ text
  := by
  have hrun : ∀ {blanks : List Char}, c ∈ squeezeRun blanks → c = ' ' ∨ c ∈ blanks := by
    intro blanks h
    match blanks with
    | [] => exact Or.inr h
    | [b] => exact Or.inr h
    | b :: b' :: blanks => exact Or.inl (List.mem_singleton.mp h)
  induction text generalizing blanks with
  | nil =>
      rw [List.append_nil]
      exact hrun h
  | cons d text ih =>
      rw [squeezeFrom] at h
      split at h
      case isTrue => simpa using ih h
      case isFalse =>
          rcases List.mem_append.mp h with h | h
          · exact (hrun h).imp_right (List.mem_append_left _)
          · rcases List.mem_cons.mp h with rfl | h
            · simp
            · exact (ih h).imp_right (fun h => by simp [show c ∈ text from h])

theorem squeeze_white {w : List Char} (hw : ∀ c ∈ w, isWhite c = true) :
  ∀ c ∈ squeeze w, isWhite c = true
  := by
  intro c hc
  rcases mem_squeezeFrom hc with rfl | hmem
  · rfl
  · exact hw c hmem

/-- Blanks that have been read are the first of what is written. -/
theorem exists_squeezeFrom_eq {b : Char} {blanks text : List Char} (hb : isBlank b = true) :
  ∃ b' rest, isBlank b' = true ∧ squeezeFrom (b :: blanks) text = b' :: rest
  := by
  have hrun : ∀ {blanks rest : List Char}, ∃ b' rest', isBlank b' = true
      ∧ squeezeRun (b :: blanks) ++ rest = b' :: rest' := by
    intro blanks rest
    cases blanks with
    | nil => exact ⟨b, rest, hb, rfl⟩
    | cons b' blanks => exact ⟨' ', rest, rfl, rfl⟩
  induction text generalizing blanks with
  | nil =>
      obtain ⟨b', rest, hb', heq⟩ := @hrun blanks []
      rw [List.append_nil] at heq
      exact ⟨b', rest, hb', heq⟩
  | cons c text ih =>
      rw [squeezeFrom]
      split
      case isTrue => exact ih
      case isFalse => exact hrun

/-- The first character stays, unless it is a blank. -/
theorem head?_squeeze {text : List Char} {c : Char} (h : (squeeze text).head? = some c) :
  isBlank c = true ∨ text.head? = some c
  := by
  cases text with
  | nil => cases h
  | cons d text =>
      by_cases hd : isBlank d = true
      · left
        obtain ⟨b', rest, hb', heq⟩ := @exists_squeezeFrom_eq d [] text hd
        rw [squeeze, squeezeFrom, if_pos hd, List.nil_append, heq] at h
        obtain rfl := Option.some.inj h
        exact hb'
      · right
        rw [squeeze_cons (by simpa using hd)] at h
        exact h

/-- White space at the beginning of a squeezed text. -/
theorem dropWhile_squeeze (text : List Char) :
  (squeeze text).dropWhile isWhite = squeeze (text.dropWhile isWhite)
  := by
  have hwhite : ∀ c ∈ text.takeWhile isWhite, isWhite c = true := fun c hc => List.mem_takeWhile_imp hc
  have hsqueezed := squeeze_white hwhite
  cases hrest : text.dropWhile isWhite with
  | nil =>
      have htext : text.takeWhile isWhite = text := by
        have hsplit := @List.takeWhile_append_dropWhile Char isWhite text
        rw [hrest, List.append_nil] at hsplit
        exact hsplit
      rw [htext] at hsqueezed
      exact List.dropWhile_eq_nil_iff.mpr hsqueezed
  | cons c rest =>
      have hc : isWhite c = false := by
        have hhead := List.head?_dropWhile_not isWhite text
        rw [hrest] at hhead
        simpa using hhead
      have hblank : isBlank c = false := by
        by_contra hb
        rw [(of_isBlank (by simpa using hb)).1] at hc
        cases hc
      have hsplit : text = text.takeWhile isWhite ++ c :: rest := by
        rw [← hrest, List.takeWhile_append_dropWhile]
      conv_lhs => rw [hsplit]
      rw [squeeze_append_cons hblank, List.dropWhile_append_of_pos hsqueezed, squeeze_cons hblank,
        List.dropWhile_cons_of_neg (by simp [hc])]

/-! ### Constants in a squeezed text -/

theorem NoContinuation.squeeze {text : List Char} (h : NoContinuation text) :
  NoContinuation (squeeze text)
  := by
  obtain ⟨hquote, hcomment⟩ := h
  have hblank : ∀ {d : Char}, isBlank d = true → d ≠ quoteMark ∧ d ≠ '-' := by
    intro d hd
    exact ⟨(of_isBlank hd).2.2.2.2.2.2.2.1, (of_isBlank hd).2.2.2.2.2.2.2.2.2.1⟩
  rw [NoContinuation, dropWhile_squeeze]
  cases hrest : text.dropWhile isWhite with
  | nil => exact ⟨by simp [SqlLexer.squeeze, squeezeFrom, squeezeRun],
      by simp [SqlLexer.squeeze, squeezeFrom, squeezeRun]⟩
  | cons c rest =>
      rw [hrest] at hquote hcomment
      constructor
      · rintro ⟨z, hz⟩
        rcases @head?_squeeze (c :: rest) quoteMark (by rw [← hz]; rfl) with hb | hhead
        · exact (hblank hb).1 rfl
        · obtain rfl := Option.some.inj hhead
          exact hquote ⟨rest, rfl⟩
      · rintro ⟨z, hz⟩
        rcases @head?_squeeze (c :: rest) '-' (by rw [← hz]; rfl) with hb | hhead
        · exact (hblank hb).2 rfl
        · obtain rfl := Option.some.inj hhead
          rw [squeeze_cons (by decide)] at hz
          have htail : SqlLexer.squeeze rest = '-' :: z := (List.cons.inj hz).2.symm
          rcases @head?_squeeze rest '-' (by rw [htail]; rfl) with hb | hhead
          · exact (hblank hb).2 rfl
          · obtain ⟨z', rfl⟩ := List.head?_eq_some_iff.mp hhead
            exact hcomment ⟨z', rfl⟩

theorem Follows.squeeze {text : List Char} (h : Follows text) :
  Follows (squeeze text)
  := by
  refine ⟨h.1.squeeze, ?_⟩
  intro c hc
  rcases head?_squeeze hc with hb | hhead
  · obtain ⟨-, -, hpart, -, -, -, -, hmark, -⟩ := of_isBlank hb
    refine ⟨hpart, ?_, hmark⟩
    rintro rfl
    cases hb
  · exact h.2 c hhead

/-- Constants stand apart in a text with its blanks squeezed, when they do so in the text. -/
theorem Fits.squeeze {t : List Char} {pieces : List (Bool × List Char)} (hfits : Fits t pieces)
    (ht : Squeezable .ground t) (hpieces : ∀ p ∈ pieces, Squeezable .ground p.2) :
  Fits (squeeze t) (pieces.map (fun p => (p.1, SqlLexer.squeeze p.2)))
  := by
  induction pieces generalizing t with
  | nil => trivial
  | cons p pieces ih =>
      obtain ⟨signed, t'⟩ := p
      rw [Fits] at hfits
      obtain ⟨hbefore, hafter, hwhite, hrest⟩ := hfits
      have hstate := (run_squeeze ht).2
      rw [List.map_cons, Fits]
      refine ⟨?_, hafter.squeeze, ?_, ?_⟩
      · obtain hground | ⟨rfl, op, hop⟩ := hbefore
        · left
          rw [hground] at hstate
          exact hstate.eq_of_not_block (by simp)
        · right
          rw [hop] at hstate
          exact ⟨rfl, op, hstate.eq_of_not_block (by simp)⟩
      · intro hne
        have hvisible := hwhite (by simpa using hne)
        rw [dropWhile_squeeze]
        obtain ⟨c, rest, hcons⟩ := List.exists_cons_of_ne_nil hvisible
        intro hnil
        rw [hcons] at hnil
        have hc : isBlank c = false := by
          have hhead := List.head?_dropWhile_not isWhite t'
          rw [hcons] at hhead
          by_contra hb
          have hnot : isWhite c = false := by simpa using hhead
          rw [(of_isBlank (by simpa using hb)).1] at hnot
          cases hnot
        rw [squeeze_cons hc] at hnil
        cases hnil
      · exact ih hrest (hpieces _ List.mem_cons_self)
          (fun q hq => hpieces q (List.mem_cons_of_mem _ hq))

/-- **Squeezed texts**: the blanks around the constants in a text can be squeezed. -/
theorem tokens_fill_squeeze {t : List Char} {pieces : List (Bool × List Char × List Char)}
    (hconstants : ∀ p ∈ pieces, IsConstant p.1 p.2.1)
    (hfits : Fits t (pieces.map (fun p => (p.1, p.2.2)))) (ht : Squeezable .ground t)
    (hpieces : ∀ p ∈ pieces, Squeezable .ground p.2.2) :
  tokens (fill (squeeze t) (pieces.map (fun p => (p.2.1, squeeze p.2.2))))
    = tokens (fill t (pieces.map Prod.snd))
  := by
  have hpieces' : ∀ p ∈ pieces.map (fun p => (p.1, p.2.2)), Squeezable .ground p.2 := by
    intro p hp
    obtain ⟨q, hq, rfl⟩ := List.mem_map.mp hp
    exact hpieces q hq
  have hsqueezed := hfits.squeeze ht hpieces'
  have hconstants' : ∀ p ∈ pieces.map (fun p => (p.1, p.2.1, squeeze p.2.2)),
      IsConstant p.1 p.2.1 := by
    intro p hp
    obtain ⟨q, hq, rfl⟩ := List.mem_map.mp hp
    exact hconstants q hq
  have hfill := tokens_fill hconstants' (t := squeeze t)
    (by rw [List.map_map] at hsqueezed ⊢; exact hsqueezed)
  rw [List.map_map, List.flatMap_map] at hfill
  have htokens : ∀ {x : List Char}, Squeezable .ground x → tokens (squeeze x) = tokens x :=
    fun h => (run_squeeze h).lex_eq
  refine hfill.trans ?_
  rw [tokens_fill hconstants hfits, htokens ht]
  apply congrArg (tokens t ++ ·)
  apply List.flatMap_congr
  intro p hp
  rw [htokens (hpieces p hp)]

/-! ### White space at the ends -/

/-- White space ends the text for the token that is pending. -/
theorem step_white {c : Char} (hc : isWhite c = true) (s : State) :
  (step s c).2 ++ (step s c).1.flush = s.flush
  := by
  have hwhich : isWordPart c = false ∧ isOperator c = false ∧ c.isDigit = false
      ∧ isWordStart c = false ∧ c ≠ '$' ∧ c ≠ quoteMark ∧ c ≠ nameMark ∧ c ≠ '-' ∧ c ≠ '*'
      ∧ c ≠ '/' ∧ c ≠ '.' ∧ isSign c = false := by
    simp only [isWhite, isNewline, Bool.or_eq_true, beq_iff_eq] at hc
    rcases hc with ((rfl | rfl) | rfl) | rfl | rfl <;> decide
  obtain ⟨hpart, hop, hdigit, hword, hdollar, hmark, hname, hdash, hstar, hslash, hpoint, hsign⟩ :=
    hwhich
  have hstart : start c = (.ground, []) := if_pos hc
  have hnext : ∀ s : State, (s.next c).2 ++ (s.next c).1.flush = s.flush := by
    intro s
    rw [State.next, hstart, List.append_nil]
    exact List.append_nil _
  have hoperator : ∀ text, stepOperator text c = (.ground, operators text) := by
    intro text
    rw [stepOperator, hop, if_neg (by decide), State.next, hstart, List.append_nil]
    rfl
  cases s with
  | ground => rw [step, hstart]; rfl
  | word text =>
      rw [step, hpart, if_neg (by decide), if_neg (fun h => hmark h.1)]
      apply hnext
  | number text =>
      have hcontinues : continuesNumber text c = false := by simp [continuesNumber, hpart, hpoint, hsign]
      rw [step, hcontinues, if_neg (by decide)]
      apply hnext
  | point =>
      rw [step, hdigit, if_neg (by decide)]
      apply hnext
  | dollar tag =>
      rw [step, if_neg hdollar, if_neg (by simp [hdigit]), if_neg (by simp [hdigit, hword])]
      apply hnext
  | param digits =>
      rw [step, hdigit, if_neg (by decide)]
      apply hnext
  | dollarBody tag body =>
      have hend : ¬ '$' :: tag ++ ['$'] <:+ body ++ [c] := by
        intro h
        have hlast := h.getLast (by simp)
        simp at hlast
        exact hdollar hlast.symm
      rw [step, if_neg hend]
      rfl
  | operator text =>
      rw [step, hoperator]
      exact List.append_nil _
  | literal escapes value =>
      rw [step, if_neg hmark]
      split <;> rfl
  | escape value => rfl
  | quote escapes value =>
      rw [step, if_neg hmark, stepGap, hc]
      rfl
  | gap escapes value line =>
      rw [step, stepGap, hc]
      rfl
  | gapDash value escapes line =>
      rw [step, if_neg hdash, hoperator]
      rfl
  | gapComment escapes value =>
      rw [step]
      split <;> rfl
  | name text =>
      rw [step, if_neg hname]
      rfl
  | nameEnd text =>
      rw [step, if_neg hname]
      apply hnext
  | comment =>
      rw [step]
      split <;> rfl
  | block depth prev =>
      rw [step, if_neg (fun h => hslash h.2), if_neg (fun h => hstar h.2)]
      rfl

theorem tokens_white_append {w : List Char} (hw : ∀ c ∈ w, isWhite c = true) (y : List Char) :
  tokens (w ++ y) = tokens y
  := by
  rw [tokens, lex_append, run_white hw, List.nil_append]
  rfl

/-- White space after a text. -/
theorem tokens_append_white {w : List Char} (hw : ∀ c ∈ w, isWhite c = true) (y : List Char) :
  tokens (y ++ w) = tokens y
  := by
  have hlex : ∀ s, lex s w = s.flush := by
    induction w with
    | nil =>
        intro s
        rfl
    | cons c w ih =>
        intro s
        have hc := hw c List.mem_cons_self
        rw [lex_cons, ih (fun d hd => hw d (List.mem_cons_of_mem c hd))]
        exact step_white hc s
  rw [tokens, lex_append, hlex]
  rfl

end SqlLexer
