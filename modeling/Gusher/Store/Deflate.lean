import Gusher.Library.SqlBlanks
import Gusher.Store.Parameters
import Mathlib.Data.List.DropRight

/-!
# Deflated texts

`deflate` removes the white space at the ends of a text and squeezes its blanks.  A template that is
deflated makes statements with the same tokens: the blanks in the arguments stay, as they are put in
their places afterwards.
-/

namespace Gusher

open SqlLexer

/-- The characters of `char-set:whitespace`. -/
def isWhitespace (c : Char) : Bool :=
  decide (9 ≤ c.toNat ∧ c.toNat ≤ 13 ∨ 0x2000 ≤ c.toNat ∧ c.toNat ≤ 0x200A)
    || [0x20, 0xA0, 0x1680, 0x180E, 0x2028, 0x2029, 0x202F, 0x205F, 0x3000].contains c.toNat

def stringTrimBoth (s : Text) : Text :=
  (s.dropWhile isWhitespace).rdropWhile isWhitespace

def deflate (src : Text) : Text :=
  squeeze (stringTrimBoth src)

theorem isWhitespace_of_isBlank {c : Char} (hc : isBlank c = true) :
  isWhitespace c = true
  := by
  rcases isBlank_iff.mp hc with rfl | rfl <;> decide

/-- A text with its blanks squeezed is the deflated text with white space around it. -/
theorem exists_squeeze_eq (src : Text) :
  ∃ w w', squeeze src = w ++ deflate src ++ w'
    ∧ ∀ c ∈ w ++ w', c = ' ' ∨ c ∈ src ∧ isWhitespace c = true
  := by
  have hblank : ∀ {c}, isWhitespace c = false → isBlank c = false := by
    intro c hc
    by_contra hb
    rw [isWhitespace_of_isBlank (by simpa using hb)] at hc
    cases hc
  have hmem : ∀ {x : Text}, (∀ c ∈ x, c ∈ src ∧ isWhitespace c = true) →
      ∀ c ∈ squeeze x, c = ' ' ∨ c ∈ src ∧ isWhitespace c = true := by
    intro x hx c hc
    exact (mem_squeezeFrom hc).imp_right (hx c)
  have hbefore : ∀ c ∈ src.takeWhile isWhitespace, c ∈ src ∧ isWhitespace c = true :=
    fun c hc => ⟨(List.takeWhile_prefix _).subset hc, List.mem_takeWhile_imp hc⟩
  have hsrc := @List.takeWhile_append_dropWhile Char isWhitespace src
  cases hrest : src.dropWhile isWhitespace with
  | nil =>
      rw [hrest, List.append_nil] at hsrc
      rw [hsrc] at hbefore
      refine ⟨squeeze src, [], ?_, ?_⟩
      · rw [deflate, stringTrimBoth, hrest]
        simp [squeeze, squeezeFrom, squeezeRun]
      · rw [List.append_nil]
        exact hmem hbefore
  | cons c rest =>
      have hc : isWhitespace c = false := by
        have hhead := List.head?_dropWhile_not isWhitespace src
        rw [hrest] at hhead
        simpa using hhead
      have htrim : stringTrimBoth src ≠ [] := by
        intro hnil
        rw [stringTrimBoth, hrest, List.rdropWhile_eq_nil_iff] at hnil
        rw [hnil c List.mem_cons_self] at hc
        cases hc
      have hlast : isWhitespace ((stringTrimBoth src).getLast htrim) = false :=
        Bool.eq_false_iff.mpr
          (List.rdropWhile_last_not isWhitespace (src.dropWhile isWhitespace) htrim)
      have hafter : (c :: rest) = stringTrimBoth src ++ (c :: rest).rtakeWhile isWhitespace := by
        rw [stringTrimBoth, hrest, List.rdropWhile_append_rtakeWhile]
      have hwhite : ∀ d ∈ (c :: rest).rtakeWhile isWhitespace, d ∈ src ∧ isWhitespace d = true := by
        intro d hd
        refine ⟨?_, List.mem_rtakeWhile_imp hd⟩
        apply (List.dropWhile_suffix isWhitespace).subset
        rw [hrest]
        exact (List.rtakeWhile_suffix _ _).subset hd
      refine ⟨squeeze (src.takeWhile isWhitespace),
        squeeze ((c :: rest).rtakeWhile isWhitespace), ?_, ?_⟩
      · have hends := List.dropLast_append_getLast htrim
        have hdeflate : deflate src = squeeze (stringTrimBoth src).dropLast
            ++ [(stringTrimBoth src).getLast htrim] := by
          conv_lhs => rw [deflate, ← hends, squeeze_append_cons (hblank hlast)]
          rfl
        have hcons : squeeze (c :: rest) = deflate src
            ++ squeeze ((c :: rest).rtakeWhile isWhitespace) := by
          conv_lhs => rw [hafter, ← hends, List.append_assoc, List.singleton_append,
            squeeze_append_cons (hblank hlast)]
          rw [hdeflate, List.append_assoc, List.singleton_append]
        conv_lhs => rw [← hsrc, hrest, squeeze_append_cons (hblank hc)]
        rw [← squeeze_cons (hblank hc), hcons, List.append_assoc]
      · intro d hd
        rcases List.mem_append.mp hd with hd | hd
        · exact hmem hbefore d hd
        · exact hmem hwhite d hd

theorem stringTrimBoth_eq {c d : Char} (hc : isWhitespace c = false) (hd : isWhitespace d = false)
    {x y : Text} (h : c :: x = y ++ [d]) :
  stringTrimBoth (c :: x) = c :: x
  := by
  rw [stringTrimBoth, List.dropWhile_cons_of_neg (by simp [hc]), h,
    List.rdropWhile_concat_neg _ _ _ (by simp [hd])]

theorem stringTrimBoth_cases (src : Text) :
  stringTrimBoth src = []
    ∨ ∃ c d x y, isWhitespace c = false ∧ isWhitespace d = false
      ∧ stringTrimBoth src = c :: x ∧ stringTrimBoth src = y ++ [d]
  := by
  by_cases htrim : stringTrimBoth src = []
  · exact Or.inl htrim
  · right
    have hlast := List.rdropWhile_last_not isWhitespace (src.dropWhile isWhitespace) htrim
    have hfirst := List.head?_dropWhile_not isWhitespace src
    obtain ⟨c, x, hcons⟩ := List.exists_cons_of_ne_nil htrim
    have hprefix : stringTrimBoth src <+: src.dropWhile isWhitespace := List.rdropWhile_prefix _ _
    obtain ⟨z, hz⟩ := hprefix
    rw [← hz, hcons] at hfirst
    exact ⟨c, _, x, _, by simpa using hfirst, Bool.eq_false_iff.mpr hlast, hcons,
      (List.dropLast_append_getLast htrim).symm⟩

theorem deflate_deflate (src : Text) :
  deflate (deflate src) = deflate src
  := by
  have hblank : ∀ {c}, isWhitespace c = false → isBlank c = false := by
    intro c hc
    by_contra hb
    rw [isWhitespace_of_isBlank (by simpa using hb)] at hc
    cases hc
  have htrim : stringTrimBoth (deflate src) = deflate src := by
    obtain hnil | ⟨c, d, x, y, hc, hd, hfirst, hlast⟩ := stringTrimBoth_cases src
    · rw [deflate, hnil]
      rfl
    · have hcons : deflate src = c :: squeeze x := by rw [deflate, hfirst, squeeze_cons (hblank hc)]
      have hconcat : deflate src = squeeze y ++ [d] := by
        rw [deflate, hlast, squeeze_append_cons (hblank hd)]
        rfl
      rw [hcons]
      exact stringTrimBoth_eq hc hd (hcons.symm.trans hconcat)
  conv_lhs => rw [deflate, htrim]
  rw [deflate]
  exact squeeze_squeezeFrom (by simp)

/-! ### Templates -/

/-- A template with its blanks squeezed is a template. -/
theorem squeeze_template (t : Text) (ts : List Text) :
  squeeze (template t ts) = template (squeeze t) (ts.map squeeze)
  := by
  induction ts generalizing t with
  | nil => simp [template]
  | cons u ts ih =>
      have hsplit : ∀ (t u : Text) (ts : List Text),
          template t (u :: ts) = t ++ '~' :: 'a' :: template u ts := by
        intro t u ts
        simp [template]
      rw [hsplit, squeeze_append_cons (by decide), squeeze_cons (by decide), ih, List.map_cons, hsplit]

/-- A text without directives after a template. -/
theorem simpleFormat_append_right {w : Text} (hw : ∀ c ∈ w, c ≠ '~' ∧ c ≠ 'a') (t : Text)
    (texts : List Text) :
  simpleFormat (t ++ w) texts = (simpleFormat t texts).map (· ++ w)
  := by
  have htilde : '~' ∉ w := fun hmem => (hw '~' hmem).1 rfl
  have hfront := fun texts => simpleFormat_append htilde [] texts
  fun_induction simpleFormat t texts with
  | case1 => simpa [simpleFormat] using hfront []
  | case2 arg args => simpa [simpleFormat] using hfront (arg :: args)
  | case3 rest arg args ih =>
      rw [List.cons_append, List.cons_append, simpleFormat, ih, Option.map_map, Option.map_map]
      simp [Function.comp_def]
  | case4 rest args hnot =>
      rw [List.cons_append, simpleFormat]
      · rfl
      · intro rest' arg args' hargs heq
        cases rest with
        | nil =>
            rw [List.nil_append] at heq
            exact (hw 'a' (by rw [heq]; simp)).2 rfl
        | cons c rest =>
            obtain ⟨rfl, -⟩ := List.cons.inj heq
            exact hnot rest arg args' hargs rfl
  | case5 c rest args hnot hnot' ih =>
      rw [List.cons_append, simpleFormat, ih, Option.map_map, Option.map_map]
      · simp [Function.comp_def]
      · exact hnot'
      · exact fun _ _ _ _ hc => absurd hc hnot'

section

variable {pqEscapeLiteral : List UInt8 → List UInt8}

/-- White space around a template. -/
theorem pgQuery_white {w w' : Text} (hw : ∀ c ∈ w ++ w', isWhite c = true) (t : Text)
    (args : List Scm) :
  pgQuery pqEscapeLiteral (w ++ t ++ w') args
    = (pgQuery pqEscapeLiteral t args).map (fun text => w ++ text ++ w')
  := by
  have hplain : ∀ c ∈ w ++ w', c ≠ '~' ∧ c ≠ 'a' := by
    intro c hc
    have hwhite := hw c hc
    constructor
    · rintro rfl
      cases hwhite
    · rintro rfl
      cases hwhite
  have htilde : '~' ∉ w := fun hmem => (hplain '~' (List.mem_append_left _ hmem)).1 rfl
  rw [pgQuery, pgQuery]
  cases args.mapM (pgFormatSql pqEscapeLiteral) with
  | none => rfl
  | some texts =>
      rw [Option.bind_some, Option.bind_some,
        simpleFormat_append_right (fun c hc => hplain c (List.mem_append_right _ hc)),
        simpleFormat_append htilde, Option.map_map]
      rfl

/-- The statements that are made of a template, and of it with its blanks squeezed. -/
theorem exists_pgQuery (hescape : EscapesLiterals pqEscapeLiteral) {t : Text}
    {items : List (Scm × Text)} (ht : '~' ∉ t) (hts : ∀ i ∈ items, '~' ∉ i.2)
    (hitems : ∀ i ∈ items, InDecimal i.1 ∧ (pgFormat i.1).isSome) :
  ∃ pieces : List (Bool × Text × Text),
    (∀ p ∈ pieces, IsConstant p.1 p.2.1)
    ∧ pieces.map (fun p => (p.1, p.2.2)) = items.map (fun i => (i.1.isNegative, i.2))
    ∧ pieces.flatMap (fun p => tokens p.2.1 ++ tokens p.2.2)
      = items.flatMap (fun i => i.1.sqlTokens ++ tokens i.2)
    ∧ pgQuery pqEscapeLiteral (template t (items.map Prod.snd)) (items.map Prod.fst)
      = some (fill t (pieces.map Prod.snd))
    ∧ pgQuery pqEscapeLiteral (squeeze (template t (items.map Prod.snd))) (items.map Prod.fst)
      = some (fill (squeeze t) (pieces.map (fun p => (p.2.1, squeeze p.2.2))))
  := by
  obtain ⟨pieces, htexts, hsnd, hsigns, hconstants, htokens⟩ := exists_texts hescape hitems
  have htilde : ∀ {x : Text}, '~' ∉ x → '~' ∉ squeeze x := by
    intro x hx hmem
    rcases mem_squeezeFrom hmem with heq | hmem
    · cases heq
    · exact hx hmem
  have hpieces : ∀ p ∈ pieces, '~' ∉ p.2.2 := by
    intro p hp
    have hmem : p.2.2 ∈ items.map Prod.snd := by
      rw [← hsnd]
      exact List.mem_map_of_mem hp
    obtain ⟨i, hi, heq⟩ := List.mem_map.mp hmem
    rw [← heq]
    exact hts i hi
  -- both statements are the template with other texts around the directives
  have hformat : ∀ f : Text → Text, '~' ∉ f t → (∀ p ∈ pieces, '~' ∉ f p.2.2) →
      pgQuery pqEscapeLiteral (template (f t) ((items.map Prod.snd).map f)) (items.map Prod.fst)
        = some (fill (f t) (pieces.map (fun p => (p.2.1, f p.2.2)))) := by
    intro f hf hfs
    have htemplate := @simpleFormat_template (f t) (pieces.map (fun p => (p.2.1, f p.2.2))) hf (by
      intro p hp
      obtain ⟨q, hq, rfl⟩ := List.mem_map.mp hp
      exact hfs q hq)
    rw [List.map_map, List.map_map] at htemplate
    rw [pgQuery, htexts, Option.bind_some, ← hsnd, List.map_map]
    exact htemplate
  refine ⟨pieces, hconstants, hsigns, htokens, ?_, ?_⟩
  · have hplain := hformat id ht hpieces
    rw [List.map_id] at hplain
    exact hplain
  · rw [squeeze_template]
    exact hformat squeeze (htilde ht) (fun p hp => htilde (hpieces p hp))

/-- The statement that is made of a deflated template. -/
theorem exists_pgQuery_deflate (hescape : EscapesLiterals pqEscapeLiteral) {t : Text}
    {items : List (Scm × Text)} (ht : '~' ∉ t) (hts : ∀ i ∈ items, '~' ∉ i.2)
    (hitems : ∀ i ∈ items, InDecimal i.1 ∧ (pgFormat i.1).isSome)
    (hfits : Fits t (items.map (fun i => (i.1.isNegative, i.2))))
    (hsqueezable : Squeezable .ground t ∧ ∀ i ∈ items, Squeezable .ground i.2)
    (hwhite : ∀ c ∈ template t (items.map Prod.snd), isWhitespace c = true → isWhite c = true) :
  ∃ text, pgQuery pqEscapeLiteral (deflate (template t (items.map Prod.snd))) (items.map Prod.fst)
      = some text
    ∧ tokens text = tokens t ++ items.flatMap (fun i => i.1.sqlTokens ++ tokens i.2)
  := by
  obtain ⟨pieces, hconstants, hsigns, htokens, -, hsqueezed⟩ := exists_pgQuery hescape ht hts hitems
  obtain ⟨w, w', heq, hends⟩ := exists_squeeze_eq (template t (items.map Prod.snd))
  have hw : ∀ c ∈ w ++ w', isWhite c = true := by
    intro c hc
    obtain rfl | ⟨hmem, hspace⟩ := hends c hc
    · rfl
    · exact hwhite c hmem hspace
  have hpieces : ∀ p ∈ pieces, Squeezable .ground p.2.2 := by
    intro p hp
    have hmem : (p.1, p.2.2) ∈ items.map (fun i => (i.1.isNegative, i.2)) := by
      rw [← hsigns]
      exact List.mem_map_of_mem hp
    obtain ⟨i, hi, hpair⟩ := List.mem_map.mp hmem
    have hsnd : i.2 = p.2.2 := congrArg Prod.snd hpair
    rw [← hsnd]
    exact hsqueezable.2 i hi
  rw [← hsigns] at hfits
  have hfill := tokens_fill_squeeze hconstants hfits hsqueezable.1 hpieces
  rw [tokens_fill hconstants hfits, htokens] at hfill
  rw [heq, pgQuery_white hw] at hsqueezed
  obtain ⟨text, htext, hwhole⟩ := Option.map_eq_some_iff.mp hsqueezed
  refine ⟨text, htext, ?_⟩
  rw [← hwhole, tokens_append_white (fun c hc => hw c (List.mem_append_right _ hc)),
    tokens_white_append (fun c hc => hw c (List.mem_append_left _ hc))] at hfill
  exact hfill

/-- **Deflated statements**: what is deflated stays as it is.  When there is no white space that SQL
does not know, and no two blanks side by side are quoted, a deflated text has the tokens of the text;
and a statement made of a deflated template has the tokens of the one made of the template, when its
arguments stand apart and its numbers are in decimal. -/
theorem deflate_query (hescape : EscapesLiterals pqEscapeLiteral) :
  (∀ src, deflate (deflate src) = deflate src)
    ∧ (∀ src, (∀ c ∈ src, isWhitespace c = true → isWhite c = true) → Squeezable .ground src →
      tokens (deflate src) = tokens src)
    ∧ ∀ (t : Text) (items : List (Scm × Text)), '~' ∉ t → (∀ i ∈ items, '~' ∉ i.2) →
      (∀ i ∈ items, InDecimal i.1 ∧ (pgFormat i.1).isSome) →
      Fits t (items.map (fun i => (i.1.isNegative, i.2))) →
      Squeezable .ground t → (∀ i ∈ items, Squeezable .ground i.2) →
      (∀ c ∈ template t (items.map Prod.snd), isWhitespace c = true → isWhite c = true) →
      ∃ text text',
        pgQuery pqEscapeLiteral (template t (items.map Prod.snd)) (items.map Prod.fst) = some text
        ∧ pgQuery pqEscapeLiteral (deflate (template t (items.map Prod.snd))) (items.map Prod.fst)
          = some text'
        ∧ tokens text' = tokens text
  := by
  refine ⟨deflate_deflate, ?_, ?_⟩
  · intro src hwhite hsqueezable
    obtain ⟨w, w', heq, hends⟩ := exists_squeeze_eq src
    have hw : ∀ c ∈ w ++ w', isWhite c = true := by
      intro c hc
      obtain rfl | ⟨hmem, hspace⟩ := hends c hc
      · rfl
      · exact hwhite c hmem hspace
    have hsqueezed : tokens (squeeze src) = tokens src := (run_squeeze hsqueezable).lex_eq
    rw [← hsqueezed, heq, tokens_append_white (fun c hc => hw c (List.mem_append_right _ hc)),
      tokens_white_append (fun c hc => hw c (List.mem_append_left _ hc))]
  · intro t items ht hts hitems hfits hsqueezable hsqueezables hwhite
    obtain ⟨pieces, hconstants, hsigns, htokens, hplain, -⟩ := exists_pgQuery hescape ht hts hitems
    obtain ⟨text', hdeflated, htokens'⟩ :=
      exists_pgQuery_deflate hescape ht hts hitems hfits ⟨hsqueezable, hsqueezables⟩ hwhite
    refine ⟨_, text', hplain, hdeflated, ?_⟩
    rw [htokens', tokens_fill hconstants (by rw [hsigns]; exact hfits), htokens]

end

theorem white_of_all {t : Text} (h : t.all (fun c => !isWhitespace c || isWhite c) = true) :
  ∀ c ∈ t, isWhitespace c = true → isWhite c = true
  := by
  intro c hc hwhite
  simpa [hwhite] using List.all_eq_true.mp h c hc

/-- A text, and a template with an argument that has two blanks side by side. -/
theorem deflate_query_blanks :
  deflate "select 1\n\t\tfrom a ".toList = "select 1\n from a".toList
    ∧ tokens "select 1\n from a".toList = tokens "select 1\n\t\tfrom a ".toList
    ∧ ∃ text text',
      pgQuery escapeLiteral "select 1\n\t\twhere a=~a".toList [.str "o  k".toList] = some text
      ∧ pgQuery escapeLiteral (deflate "select 1\n\t\twhere a=~a".toList) [.str "o  k".toList]
        = some text'
      ∧ tokens text' = tokens text
  := by
  obtain ⟨-, htext, htemplate⟩ := deflate_query escapesLiterals_escapeLiteral
  refine ⟨by decide, htext "select 1\n\t\tfrom a ".toList (white_of_all rfl) (by decide), ?_⟩
  apply htemplate "select 1\n\t\twhere a=".toList [(.str "o  k".toList, [])] (by decide) (by decide)
  · intro i hi
    obtain rfl := List.mem_singleton.mp hi
    exact ⟨trivial, rfl⟩
  · refine ⟨Or.inr ⟨rfl, ['='], by decide⟩, ⟨by decide, nofun⟩, by decide, trivial⟩
  · decide
  · decide
  · exact white_of_all rfl

/-- A literal with two blanks side by side is not kept. -/
example :
  tokens (deflate [quoteMark, 'o', ' ', ' ', 'k', quoteMark])
    ≠ tokens [quoteMark, 'o', ' ', ' ', 'k', quoteMark]
  := by decide

end Gusher
