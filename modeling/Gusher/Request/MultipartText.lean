import Gusher.Request.Multipart

/-!
# Multipart bodies as texts

What the functions on the memory compute, as functions on the bytes of the part, or of the body,
that they parse.  Each of them gives `none` where the function on the memory leaves the memory or
uses a null pointer.
-/

namespace Gusher

open CString

/-! ### Case-insensitive search -/

/-- `strcasestrFrom` on a string, whose first byte is at the position `i`. -/
def findFrom (needle : List UInt8) : List UInt8 → List UInt8 → ℕ → Option ℕ → Option ℕ
  | _, [], _, anchor => anchor
  | [], _ :: _, _, _ => none
  | c :: s, d :: rest, i, anchor =>
      if toupper c ≠ toupper d then findFrom needle s needle (i + 1) none
      else findFrom needle s rest (i + 1) (some (anchor.getD i))

/-- `strcasestr` on a string: the number of bytes before the place found. -/
def find (s needle : List UInt8) : Option ℕ :=
  findFrom needle s needle 0 (some 0)

/-- The search in the memory is the search in the string that stands there. -/
theorem strcasestrFrom_eq {m a s b needle rest : List UInt8} {i : ℕ} {anchor : Option ℕ}
    (hm : m = a ++ (s ++ 0 :: b)) (hi : i = a.length) (hs : (0 : UInt8) ∉ s) :
  strcasestrFrom m needle i rest anchor = some (findFrom needle s rest i anchor)
  := by
  induction s generalizing a i rest anchor with
  | nil =>
      cases rest with
      | nil => rw [strcasestrFrom, findFrom]
      | cons d rest =>
          have hget : m[i]? = some 0 := by simp [hm, hi]
          rw [strcasestrFrom, findFrom]
          split
          case h_1 hnone =>
              rw [hget] at hnone
              cases hnone
          case h_2 c hsome =>
              rw [hget] at hsome
              obtain rfl := Option.some.inj hsome
              rw [if_pos rfl]
  | cons x s ih =>
      simp only [List.mem_cons, not_or] at hs
      cases rest with
      | nil => rw [strcasestrFrom, findFrom]
      | cons d rest =>
          have hget : m[i]? = some x := by simp [hm, hi]
          have hnext : m = (a ++ [x]) ++ (s ++ 0 :: b) := by simp [hm]
          have hi' : i + 1 = (a ++ [x]).length := by simp [hi]
          rw [strcasestrFrom, findFrom]
          split
          case h_1 hnone =>
              rw [hget] at hnone
              cases hnone
          case h_2 c hsome =>
              rw [hget] at hsome
              obtain rfl := Option.some.inj hsome
              rw [if_neg (Ne.symm hs.1)]
              split
              case isTrue => exact ih hnext hi' hs.2
              case isFalse => exact ih hnext hi' hs.2

/-- The place found does not depend on where the string stands. -/
theorem findFrom_add (needle s rest : List UInt8) (i k : ℕ) (anchor : Option ℕ) :
  findFrom needle s rest (k + i) (anchor.map (k + ·))
    = (findFrom needle s rest i anchor).map (k + ·)
  := by
  induction s generalizing rest i anchor with
  | nil =>
      cases rest with
      | nil => rw [findFrom, findFrom]
      | cons d rest => rfl
  | cons c s ih =>
      cases rest with
      | nil => rw [findFrom, findFrom]
      | cons d rest =>
          rw [findFrom, findFrom, Nat.add_assoc]
          split
          case isTrue => exact ih needle (i + 1) none
          case isFalse =>
              rw [← ih rest (i + 1) (some (anchor.getD i))]
              cases anchor with
              | none => rfl
              | some j => rfl

/-- `strcasestr` in the memory. -/
theorem strcasestr_eq (needle : List UInt8) {m a s b : List UInt8} {i : ℕ}
    (hm : m = a ++ (s ++ 0 :: b)) (hi : i = a.length) (hs : (0 : UInt8) ∉ s) :
  strcasestr m i needle = some ((find s needle).map (i + ·))
  := by
  rw [strcasestr, strcasestrFrom_eq hm hi hs, find]
  exact congrArg some (findFrom_add needle s needle 0 i (some 0))

/-- When the part `w` of the string `x ++ w ++ s` agrees with the beginning of the needle, what is
found agrees with the needle. -/
theorem exists_of_findFrom {x w s needle front rest : List UInt8} {p : ℕ} {anchor : Option ℕ}
    (hneedle : needle = front ++ rest) (hw : w.map toupper = front.map toupper)
    (hanchor : anchor = some x.length ∨ w = [] ∧ anchor = none)
    (h : findFrom needle s rest (x.length + w.length) anchor = some p) :
  ∃ u z v, x ++ w ++ s = u ++ (z ++ v) ∧ p = u.length ∧ z.map toupper = needle.map toupper
  := by
  induction s generalizing x w front rest anchor with
  | nil =>
      cases rest with
      | nil =>
          rw [findFrom] at h
          obtain hsome | ⟨-, hnone⟩ := hanchor
          · rw [hsome] at h
            obtain rfl := Option.some.inj h
            rw [List.append_nil] at hneedle
            exact ⟨x, w, [], by simp, rfl, by rw [hneedle, hw]⟩
          · rw [hnone] at h
            cases h
      | cons d rest => cases h
  | cons c s ih =>
      cases rest with
      | nil =>
          rw [findFrom] at h
          obtain hsome | ⟨-, hnone⟩ := hanchor
          · rw [hsome] at h
            obtain rfl := Option.some.inj h
            rw [List.append_nil] at hneedle
            exact ⟨x, w, c :: s, by simp, rfl, by rw [hneedle, hw]⟩
          · rw [hnone] at h
            cases h
      | cons d rest =>
          rw [findFrom] at h
          split at h
          case isTrue =>
              -- the search starts again after `c`
              have hlen : x.length + w.length + 1
                  = (x ++ w ++ [c]).length + ([] : List UInt8).length := by
                simp [Nat.add_assoc]
              rw [hlen] at h
              have hfound := @ih (x ++ w ++ [c]) [] [] needle none rfl rfl (Or.inr ⟨rfl, rfl⟩) h
              simpa using hfound
          case isFalse heq =>
              have hlen : x.length + w.length + 1 = x.length + (w ++ [c]).length := by
                simp [Nat.add_assoc]
              have hanchor' : some (anchor.getD (x.length + w.length)) = some x.length := by
                obtain rfl | ⟨rfl, rfl⟩ := hanchor
                · rfl
                · rfl
              have hw' : (w ++ [c]).map toupper = (front ++ [d]).map toupper := by
                rw [List.map_append, List.map_append, hw]
                simpa using heq
              rw [hlen, hanchor'] at h
              have hfound := @ih x (w ++ [c]) (front ++ [d]) rest (some x.length) (by simp [hneedle])
                hw' (Or.inl rfl) h
              simpa using hfound

/-- What is found agrees with the needle, up to case. -/
theorem exists_of_find {s needle : List UInt8} {p : ℕ} (h : find s needle = some p) :
  ∃ u z v, s = u ++ (z ++ v) ∧ p = u.length ∧ z.map toupper = needle.map toupper
  := @exists_of_findFrom [] [] s needle [] needle p (some 0) rfl rfl (Or.inl rfl) h

/-! ### The header of a part -/

/-- `parameter` on a line. -/
def parameterText (line needle : List UInt8) : Option (Option (List UInt8)) :=
  match find line needle with
  | none => some none
  | some p => do
      let (_, rest) ← index (line.drop p) 34
      let (value, _) ← index rest 34
      return some value

/-- The value of a parameter in the memory, which is left as it was. -/
theorem parameter_eq {m a line b needle : List UInt8} {i : ℕ} (hm : m = a ++ (line ++ 0 :: b))
    (hi : i = a.length) (hline : (0 : UInt8) ∉ line) :
  parameter m i needle = (parameterText line needle).map (fun value => (m, value))
  := by
  have hfind := strcasestr_eq needle hm hi hline
  cases hfound : find line needle with
  | none => simp [parameter, parameterText, hfind, hfound]
  | some p =>
      obtain ⟨u, z, v, hsplit, rfl, -⟩ := exists_of_find hfound
      have hdrop : line.drop u.length = z ++ v := by rw [hsplit, List.drop_left]
      generalize z ++ v = y at hsplit hdrop
      rw [hsplit] at hline hm
      simp only [List.mem_append, not_or] at hline
      obtain ⟨-, hy⟩ := hline
      have hm' : m = (a ++ u) ++ (y ++ 0 :: b) := by simp [hm]
      have hi' : i + u.length = (a ++ u).length := by simp [hi]
      cases hfirst : index y 34 with
      | none =>
          have hnull := Memory.index_eq_null hm' hi' (notMem_of_index hfirst) hy (by decide)
          simp [parameter, parameterText, hfind, hfound, hdrop, hfirst, hnull]
      | some r =>
          obtain ⟨y₁, rest⟩ := r
          obtain ⟨rfl, hy₁⟩ := eq_of_index hfirst
          simp only [List.mem_append, List.mem_cons, not_or] at hy
          obtain ⟨hy₁nul, -, hrest⟩ := hy
          have hm₁ : m = (a ++ u) ++ (y₁ ++ 34 :: (rest ++ 0 :: b)) := by simp [hm]
          have hquote := Memory.index_eq hm₁ hi' hy₁ hy₁nul
          have hm₂ : m = (a ++ u ++ y₁ ++ [34]) ++ (rest ++ 0 :: b) := by simp [hm₁]
          have hi₂ : i + u.length + y₁.length + 1 = (a ++ u ++ y₁ ++ [34]).length := by
            simp [hi, Nat.add_assoc]
          generalize a ++ u ++ y₁ ++ [34] = a₂ at hm₂ hi₂
          generalize i + u.length + y₁.length = quote at hquote hi₂
          cases hsecond : index rest 34 with
          | none =>
              have hnull := Memory.index_eq_null hm₂ hi₂ (notMem_of_index hsecond) hrest (by decide)
              simp [parameter, parameterText, hfind, hfound, hdrop, hfirst, hquote, hsecond, hnull]
          | some r =>
              obtain ⟨value, y₂⟩ := r
              obtain ⟨rfl, hvalue⟩ := eq_of_index hsecond
              simp only [List.mem_append, List.mem_cons, not_or] at hrest
              obtain ⟨hvaluenul, -, -⟩ := hrest
              have hm₃ : m = a₂ ++ (value ++ 34 :: (y₂ ++ 0 :: b)) := by simp [hm₂]
              have hclose := Memory.index_eq hm₃ hi₂ hvalue hvaluenul
              have hpt3 : ((quote + 1 + value.length : ℕ) : ℤ) = (a₂ ++ value).length := by
                rw [hi₂, List.length_append]
              generalize quote + 1 + value.length = pt3 at hclose hpt3
              have hcut : Memory.store m pt3 0 = some (a₂ ++ value ++ 0 :: (y₂ ++ 0 :: b)) :=
                Memory.store_eq (hm₃.trans (List.append_assoc a₂ value _).symm) hpt3
              have hrestore : Memory.store (a₂ ++ value ++ 0 :: (y₂ ++ 0 :: b)) pt3 34 = some m := by
                rw [Memory.store_eq rfl hpt3, hm₃, List.append_assoc]
              have hstring : Memory.string (a₂ ++ value ++ 0 :: (y₂ ++ 0 :: b)) (quote + 1)
                  = some value :=
                Memory.string_eq (List.append_assoc a₂ value _) hi₂ hvaluenul
              generalize a₂ ++ value ++ 0 :: (y₂ ++ 0 :: b) = m' at hcut hrestore hstring
              simp [parameter, parameterText, hfind, hfound, hdrop, hfirst, hquote, hsecond, hclose,
                hcut, hstring, hrestore]

/-- The values of the parameters of a header line, if it has any. -/
def headerText (line : List UInt8) : Option (Option (List UInt8) × Option (List UInt8)) :=
  if find line (ascii "content-disposition") = some 0 then do
    let name ← parameterText line (ascii "; name=\"")
    let filename ← parameterText line (ascii "; filename=\"")
    return (name, filename)
  else return (none, none)

def keyAfter (loc : Locale) (key : Scm) (name : Option (List UInt8)) : Scm :=
  (name.map loc.makesym).getD key

/-- The original file name after a header line. -/
def fileAfter (loc : Locale) (origFile : Scm) (filename : Option (List UInt8)) : Scm :=
  (filename.map (fun s => .str (loc.decode s))).getD origFile

/-- The handling of a header line in the memory, which is left as it was. -/
theorem partHeader_eq {loc : Locale} {m a line b : List UInt8} {i : ℕ} {key origFile : Scm}
    (hm : m = a ++ (line ++ 0 :: b)) (hi : i = a.length) (hline : (0 : UInt8) ∉ line) :
  partHeader loc m i key origFile
    = (headerText line).map (fun v => (m, keyAfter loc key v.1, fileAfter loc origFile v.2))
  := by
  have hfind := strcasestr_eq (ascii "content-disposition") hm hi hline
  have hiff : (find line (ascii "content-disposition")).map (i + ·) = some i
      ↔ find line (ascii "content-disposition") = some 0 := by
    cases find line (ascii "content-disposition") with
    | none => simp
    | some p => simp
  rw [partHeader, headerText, hfind]
  simp only [Option.bind_eq_bind, Option.bind_some, hiff]
  split
  case isTrue =>
      rw [parameter_eq hm hi hline]
      cases parameterText line (ascii "; name=\"") with
      | none => rfl
      | some name =>
          simp only [Option.map_some, Option.bind_some]
          rw [parameter_eq hm hi hline]
          cases parameterText line (ascii "; filename=\"") with
          | none => rfl
          | some filename => rfl
  case isFalse => rfl

/-! ### The lines of a part -/

/-- The parts of a text before and after its first newline, if no NUL stands before it. -/
def splitLine (s : List UInt8) : Option (List UInt8 × List UInt8) :=
  match index s 10 with
  | none => none
  | some (line, rest) => if (0 : UInt8) ∈ line then none else some (line, rest)

/-- A line without the carriage return at its end. -/
def stripCr (line : List UInt8) : List UInt8 :=
  if line.getLast? = some 13 then line.dropLast else line

theorem eq_of_splitLine {s line rest : List UInt8} (h : splitLine s = some (line, rest)) :
  s = line ++ 10 :: rest ∧ (10 : UInt8) ∉ line ∧ (0 : UInt8) ∉ line
  := by
  unfold splitLine at h
  split at h
  case h_1 => cases h
  case h_2 hindex =>
      obtain ⟨hs, hline⟩ := eq_of_index hindex
      split at h
      case isTrue => cases h
      case isFalse hnul =>
          obtain ⟨rfl, rfl⟩ := Prod.mk.inj (Option.some.inj h)
          exact ⟨hs, hline, hnul⟩

theorem splitLine_append {line : List UInt8} (rest : List UInt8) (hline : (10 : UInt8) ∉ line)
    (hnul : (0 : UInt8) ∉ line) :
  splitLine (line ++ 10 :: rest) = some (line, rest)
  := by
  rw [splitLine, index_append hline]
  exact if_neg hnul

/-- The key and the file name that the lines of a part give, and what comes after the lines. -/
def chunkText (loc : Locale) (s : List UInt8) (key origFile : Scm) :
    Option (Scm × Scm × List UInt8) :=
  match _h : splitLine s with
  | none => some (key, origFile, s)
  | some (line, rest) =>
      if stripCr line = [] then some (key, origFile, rest)
      else
        match headerText (stripCr line) with
        | none => none
        | some (name, filename) =>
            chunkText loc rest (keyAfter loc key name) (fileAfter loc origFile filename)
  termination_by s.length
  decreasing_by
    obtain ⟨hs, -⟩ := eq_of_splitLine _h
    have hlen := congrArg List.length hs
    rw [List.length_append, List.length_cons] at hlen
    omega

theorem chunkText_of_none {loc : Locale} {s : List UInt8} {key origFile : Scm}
    (h : splitLine s = none) :
  chunkText loc s key origFile = some (key, origFile, s)
  := by
  rw [chunkText]
  split <;> simp_all

theorem chunkText_of_some {loc : Locale} {s line rest : List UInt8} {key origFile : Scm}
    (h : splitLine s = some (line, rest)) :
  chunkText loc s key origFile
    = if stripCr line = [] then some (key, origFile, rest)
      else (headerText (stripCr line)).bind (fun v =>
        chunkText loc rest (keyAfter loc key v.1) (fileAfter loc origFile v.2))
  := by
  rw [chunkText]
  split
  case h_1 hnone =>
      rw [h] at hnone
      cases hnone
  case h_2 hsome =>
      rw [h] at hsome
      obtain ⟨rfl, rfl⟩ := Prod.mk.inj (Option.some.inj hsome)
      cases headerText (stripCr line) with
      | none => rfl
      | some v => rfl

/-- Where no line is found, the search in the memory gives the null pointer. -/
theorem index_of_splitLine_eq_none {m a s b : List UInt8} {i : ℕ} (h : splitLine s = none)
    (hm : m = a ++ (s ++ 0 :: b)) (hi : i = a.length) :
  Memory.index m i 10 = some none
  := by
  obtain ⟨tail, htail⟩ := exists_append_zero s b
  rw [htail] at hm
  apply Memory.index_eq_null hm hi _ (zero_notMem_cstr s) (by decide)
  intro hmem
  -- a newline before the first NUL would be the end of a line
  unfold splitLine at h
  split at h
  case h_1 hnone => exact notMem_of_index hnone ((List.takeWhile_sublist _).subset hmem)
  case h_2 line rest hsome =>
      obtain ⟨rfl, hline⟩ := eq_of_index hsome
      split at h
      case isFalse => cases h
      case isTrue hnul =>
          obtain ⟨u, v, rfl⟩ := List.append_of_mem hnul
          rw [List.append_assoc, List.cons_append, cstr_append_zero] at hmem
          exact hline (List.mem_append_left _ ((List.takeWhile_sublist _).subset hmem))

/-- A line is cut off with a NUL in place of its newline, or of the carriage return before it. -/
theorem exists_cut {m a line t : List UInt8} {stop : ℕ} (hm : m = a ++ (line ++ 10 :: t))
    (hstop : stop = a.length + line.length) (hne : a ≠ []) (hlast : a.getLast? ≠ some 13) :
  ∃ x z, Memory.load m (stop - 1) = some x ∧ z.getLast? ≠ some 13 ∧
    (stripCr line ++ 0 :: z).length = line.length + 1 ∧
    Memory.store m (if x = 13 then (stop : ℤ) - 1 else stop) 0
      = some (a ++ (stripCr line ++ 0 :: (z ++ t)))
  := by
  have hstore : Memory.store m stop 0 = some (a ++ line ++ 0 :: t) := by
    apply Memory.store_eq (hm.trans (List.append_assoc a line _).symm)
    rw [hstop, List.length_append]
  obtain rfl | ⟨l, x, rfl⟩ := List.eq_nil_or_concat' line
  · -- the byte before an empty line is the end of the line before it
    obtain ⟨a₀, x, rfl⟩ := (List.eq_nil_or_concat' a).resolve_left hne
    have hx : x ≠ 13 := by simpa using hlast
    have hload : Memory.load m (stop - 1) = some x := by
      apply Memory.load_eq (a := a₀) (b := 10 :: t)
      · simp [hm]
      · simp [hstop]
    refine ⟨x, [], hload, by simp, rfl, ?_⟩
    rw [if_neg hx, hstore, stripCr]
    simp
  · have hload : Memory.load m (stop - 1) = some x := by
      apply Memory.load_eq (a := a ++ l) (b := 10 :: t)
      · simp [hm]
      · simp [hstop]
        omega
    by_cases hx : x = 13
    · subst hx
      have hcut : Memory.store m ((stop : ℤ) - 1) 0 = some (a ++ l ++ 0 :: 10 :: t) := by
        apply Memory.store_eq (c := 13)
        · simp [hm]
        · simp [hstop]
          omega
      refine ⟨13, [10], hload, by simp, by simp [stripCr], ?_⟩
      rw [if_pos rfl, hcut]
      simp [stripCr]
    · refine ⟨x, [], hload, by simp, by simp [stripCr, hx], ?_⟩
      rw [if_neg hx, hstore]
      simp [stripCr, hx]

/-- A round of the loop of `process_chunk` takes a line. -/
theorem chunkRound_eq {loc : Locale} {m a s line rest b : List UInt8} {i : ℕ} {key origFile : Scm}
    (hsplit : splitLine s = some (line, rest)) (hm : m = a ++ (s ++ 0 :: b)) (hi : i = a.length)
    (hne : a ≠ []) (hlast : a.getLast? ≠ some 13) :
  ∃ a', a'.length = a.length + line.length + 1 ∧ a' ≠ [] ∧ a'.getLast? ≠ some 13 ∧
    chunkRound loc ⟨m, i, key, origFile⟩
      = if stripCr line = [] then .stop ⟨a' ++ (rest ++ 0 :: b), a'.length, key, origFile⟩
        else
          match headerText (stripCr line) with
          | none => .fault
          | some v => .next ⟨a' ++ (rest ++ 0 :: b), a'.length, keyAfter loc key v.1,
              fileAfter loc origFile v.2⟩
  := by
  obtain ⟨rfl, hnewline, hnul⟩ := eq_of_splitLine hsplit
  have hm₁ : m = a ++ (line ++ 10 :: (rest ++ 0 :: b)) := by simp [hm]
  have hindex := Memory.index_eq hm₁ hi hnewline hnul
  generalize hstop : i + line.length = stop at hindex
  obtain ⟨x, z, hload, hz, hlen, hstore⟩ := exists_cut hm₁ (hstop.symm.trans (by rw [hi])) hne hlast
  have hstrip : (0 : UInt8) ∉ stripCr line := by
    intro hmem
    apply hnul
    unfold stripCr at hmem
    split at hmem
    case isTrue => exact (List.dropLast_sublist line).subset hmem
    case isFalse => exact hmem
  generalize stripCr line = l at hlen hstore hstrip
  have hmem : a ++ (l ++ 0 :: (z ++ (rest ++ 0 :: b)))
      = (a ++ l ++ 0 :: z) ++ (rest ++ 0 :: b) := by simp
  have hstop' : stop + 1 = (a ++ l ++ 0 :: z).length := by
    rw [List.append_assoc, List.length_append, hlen, ← hstop, hi]
    omega
  refine ⟨a ++ l ++ 0 :: z, ?_, by simp, ?_, ?_⟩
  · rw [← hstop', ← hstop, hi]
  · cases z with
    | nil => simp
    | cons d z => simpa using hz
  · rw [chunkRound, hindex]
    simp only [hload, hstore]
    cases l with
    | nil =>
        have hfirst : Memory.load (a ++ ([] ++ 0 :: (z ++ (rest ++ 0 :: b)))) i = some 0 :=
          Memory.load_eq rfl (by rw [hi])
        rw [hfirst]
        simp only [if_true, hmem, hstop']
    | cons c l =>
        have hfirst : Memory.load (a ++ (c :: l ++ 0 :: (z ++ (rest ++ 0 :: b)))) i = some c :=
          Memory.load_eq rfl (by rw [hi])
        have hc : c ≠ 0 := by
          rintro rfl
          exact hstrip List.mem_cons_self
        rw [hfirst]
        simp only [if_neg hc, if_neg (List.cons_ne_nil c l), partHeader_eq rfl hi hstrip]
        cases headerText (c :: l) with
        | none => rfl
        | some v => simp only [Option.map_some, hmem, hstop']

/-- The loop of `process_chunk` reads the lines of the part that stands in the memory. -/
theorem chunkLoop_eq {loc : Locale} {m a s b : List UInt8} {i : ℕ} {key origFile : Scm}
    (hm : m = a ++ (s ++ 0 :: b)) (hi : i = a.length) (hne : a ≠ []) (hlast : a.getLast? ≠ some 13) :
  match chunkText loc s key origFile with
  | none => chunkLoop loc ⟨m, i, key, origFile⟩ = none
  | some (key', origFile', content) =>
      ∃ a', chunkLoop loc ⟨m, i, key, origFile⟩
          = some ⟨a' ++ (content ++ 0 :: b), a'.length, key', origFile'⟩ ∧
        a'.length + content.length = a.length + s.length ∧ content.length ≤ s.length
  := by
  induction hsize : s.length using Nat.strongRecOn generalizing m a s i key origFile with
  | ind n ih =>
      cases hline : splitLine s with
      | none =>
          have hround : chunkRound loc ⟨m, i, key, origFile⟩ = .stop ⟨m, i, key, origFile⟩ := by
            rw [chunkRound, index_of_splitLine_eq_none hline hm hi]
          rw [chunkText_of_none hline]
          refine ⟨a, ?_, by rw [hsize], Nat.le_of_eq hsize⟩
          rw [chunkLoop, Loop.total_stop hround, hm, hi]
      | some r =>
          obtain ⟨line, rest⟩ := r
          obtain ⟨a', hlen, hne', hlast', hround⟩ :=
            @chunkRound_eq loc m a s line rest b i key origFile hline hm hi hne hlast
          have hs := congrArg List.length (eq_of_splitLine hline).1
          rw [List.length_append, List.length_cons, hsize] at hs
          rw [chunkText_of_some hline]
          by_cases hempty : stripCr line = []
          · rw [if_pos hempty] at hround ⊢
            refine ⟨a', ?_, by omega, by omega⟩
            rw [chunkLoop, Loop.total_stop hround]
          · rw [if_neg hempty] at hround ⊢
            cases hheader : headerText (stripCr line) with
            | none =>
                rw [hheader] at hround
                exact Loop.total_fault hround
            | some v =>
                rw [hheader] at hround
                have hrest := @ih rest.length (by omega) _ a' rest _ (keyAfter loc key v.1)
                  (fileAfter loc origFile v.2) rfl rfl hne' hlast' rfl
                rw [Option.bind_some]
                rw [chunkLoop, Loop.total_next hround]
                cases hchunk : chunkText loc rest (keyAfter loc key v.1) (fileAfter loc origFile v.2)
                  with
                | none =>
                    rw [hchunk] at hrest
                    exact hrest
                | some r =>
                    rw [hchunk] at hrest
                    obtain ⟨a'', hloop, hlen', hle⟩ := hrest
                    exact ⟨a'', hloop, by omega, by omega⟩

/-- The entry of a part, and the content of the file that is made for it. -/
def partText (loc : Locale) (path s : List UInt8) : Option (Scm × Option (List UInt8)) :=
  (chunkText loc s .nil .nil).map (fun v =>
    if v.2.1 ≠ .nil then (.pair v.1 (.pair (.str (loc.decode path)) v.2.1), some v.2.2)
    else (.pair v.1 (.str (safeFromUtf8 v.2.2)), none))

/-- `process_chunk` reads the part that stands in the memory. -/
theorem processChunk_eq {loc : Locale} {path m a s b : List UInt8} (hm : m = a ++ (s ++ 0 :: b))
    (hne : a ≠ []) (hlast : a.getLast? ≠ some 13) (hs : s.length < 2 ^ 63) :
  match partText loc path s with
  | none => processChunk loc path m a.length s.length = none
  | some (entry, file) =>
      ∃ a', processChunk loc path m a.length s.length = some (a' ++ 0 :: b, entry, file) ∧
        a'.length = a.length + s.length
  := by
  have hloop := @chunkLoop_eq loc m a s b _ .nil .nil hm rfl hne hlast
  unfold partText processChunk
  cases hchunk : chunkText loc s .nil .nil with
  | none =>
      rw [hchunk] at hloop
      rw [hloop]
      rfl
  | some v =>
      obtain ⟨key, origFile, content⟩ := v
      rw [hchunk] at hloop
      obtain ⟨a', hrun, hlen, hle⟩ := hloop
      have hsize : sizeT (s.length - (a'.length - a.length : ℤ)) = content.length := by
        have hdiff : (s.length - (a'.length - a.length) : ℤ) = content.length := by omega
        rw [hdiff]
        apply sizeT_natCast
        omega
      have hbytes : Memory.bytes (a' ++ (content ++ 0 :: b)) a'.length content.length
          = some content := Memory.bytes_eq rfl rfl rfl
      have hend : a' ++ (content ++ 0 :: b) = (a' ++ content) ++ 0 :: b := by simp
      rw [← List.length_append] at hlen
      rw [hrun, Option.map_some]
      simp only [hsize, hbytes]
      by_cases hfile : origFile = .nil
      · rw [if_neg (not_not.mpr hfile), if_neg (not_not.mpr hfile)]
        exact ⟨a' ++ content, by rw [hend], hlen⟩
      · rw [if_pos hfile, if_pos hfile]
        exact ⟨a' ++ content, by rw [hend], hlen⟩

/-! ### The parts of a body -/

/-- `memscan` finds the first place of the needle in the window, and leaves the memory when it does
not find it and the window is longer than what is left of the memory. -/
theorem memscan_eq {m a rest needle : List UInt8} {i : ℕ} (field : ℕ) (hm : m = a ++ rest)
    (hi : i = a.length) (hneedle : needle ≠ []) :
  memscan m i needle field
    = match Search.strstr (rest.take field) needle with
      | some (x, _) => some (some (i + x.length))
      | none => if rest.length < field ∧ needle.length ≤ field then none else some none
  := by
  have hpos : 0 < needle.length := List.length_pos_iff.mpr hneedle
  induction field generalizing a rest i with
  | zero =>
      rw [memscan, if_pos hpos, Search.strstr_of_length_lt (by simpa using hpos)]
      simp
  | succ field ih =>
      rw [memscan]
      by_cases hshort : field + 1 < needle.length
      · rw [if_pos hshort, Search.strstr_of_length_lt]
        · simp only [if_neg (show ¬ (rest.length < field + 1 ∧ needle.length ≤ field + 1) by omega)]
        · rw [List.length_take]
          omega
      · rw [if_neg hshort]
        by_cases hroom : needle.length ≤ rest.length
        · obtain ⟨c, rest, rfl⟩ := List.exists_cons_of_length_pos (Nat.lt_of_lt_of_le hpos hroom)
          have hbytes : Memory.bytes m i needle.length = some ((c :: rest).take needle.length) := by
            have hsplit : m = a ++ ((c :: rest).take needle.length
                ++ (c :: rest).drop needle.length) := by
              rw [List.take_append_drop, hm]
            exact Memory.bytes_eq hsplit hi (List.length_take_of_le hroom).symm
          have hiff : (c :: rest).take needle.length = needle
              ↔ needle <+: (c :: rest).take (field + 1) := by
            rw [List.prefix_take_iff, List.prefix_iff_eq_take, eq_comm]
            exact (and_iff_left (Nat.not_lt.mp hshort)).symm
          rw [hbytes]
          dsimp only
          split
          case isTrue heq =>
              rw [Search.strstr_of_prefix (hiff.mp heq)]
              rfl
          case isFalse hne =>
              have hnext : m = (a ++ [c]) ++ rest := by simp [hm]
              rw [List.take_succ_cons] at hiff ⊢
              rw [Search.strstr_cons (hiff.not.mp hne), ih hnext (by simp [hi])]
              rw [List.length_cons] at hroom ⊢
              cases Search.strstr (rest.take field) needle with
              | some r =>
                  dsimp only [Option.map_some]
                  rw [List.length_cons, Nat.add_assoc, Nat.add_comm 1]
              | none =>
                  dsimp only [Option.map_none]
                  congr 1
                  rw [eq_iff_iff]
                  omega
        · have hnone : Memory.bytes m i needle.length = none := by
            rw [Memory.bytes, if_neg]
            rw [hm, hi, List.length_append]
            omega
          rw [hnone, Search.strstr_of_length_lt]
          · simp only [if_pos (show rest.length < field + 1 ∧ needle.length ≤ field + 1 by omega)]
          · rw [List.length_take]
            omega

/-- The query that the parts in the window give, and the files that are made for them. -/
def partsText (loc : Locale) (tmp : ℕ → List UInt8) (rboundary : List UInt8) (field : ℕ)
    (rest : List UInt8) (query : Scm) (files : List (List UInt8 × List UInt8)) :
    Option (Scm × List (List UInt8 × List UInt8)) :=
  match Search.strstr (rest.take field) rboundary with
  | none => if rest.length < field ∧ rboundary.length ≤ field then none else some (query, files)
  | some (chunk, _) =>
      match partText loc (tmp files.length) chunk with
      | none => none
      | some (entry, file) =>
          match _h : splitLine (rest.drop (chunk.length + rboundary.length)) with
          | none => none
          | some (line, rest') =>
              partsText loc tmp rboundary
                (sizeT (field - (chunk.length + rboundary.length + line.length + 1 : ℕ))) rest'
                (.pair entry query)
                (files ++ file.toList.map (fun content => (tmp files.length, content)))
  termination_by rest.length
  decreasing_by
    have hlen := congrArg List.length (eq_of_splitLine _h).1
    rw [List.length_drop, List.length_append, List.length_cons] at hlen
    omega

theorem partsText_of_none {loc : Locale} {tmp : ℕ → List UInt8} {rboundary rest : List UInt8}
    {field : ℕ} {query : Scm} {files : List (List UInt8 × List UInt8)}
    (h : Search.strstr (rest.take field) rboundary = none) :
  partsText loc tmp rboundary field rest query files
    = if rest.length < field ∧ rboundary.length ≤ field then none else some (query, files)
  := by
  rw [partsText, h]

theorem partsText_of_some {loc : Locale} {tmp : ℕ → List UInt8} {rboundary rest chunk y : List UInt8}
    {field : ℕ} {query : Scm} {files : List (List UInt8 × List UInt8)}
    (h : Search.strstr (rest.take field) rboundary = some (chunk, y)) :
  partsText loc tmp rboundary field rest query files
    = (partText loc (tmp files.length) chunk).bind (fun part =>
        (splitLine (rest.drop (chunk.length + rboundary.length))).bind (fun v =>
          partsText loc tmp rboundary
            (sizeT (field - (chunk.length + rboundary.length + v.1.length + 1 : ℕ))) v.2
            (.pair part.1 query)
            (files ++ part.2.toList.map (fun content => (tmp files.length, content)))))
  := by
  rw [partsText, h]
  dsimp only
  cases partText loc (tmp files.length) chunk with
  | none => rfl
  | some part =>
      dsimp only [Option.bind_some]
      split
      case h_1 hnone => rw [hnone, Option.bind_none]
      case h_2 hsome => rw [hsome, Option.bind_some]

/-- A newline is found in the memory where a line is found in the text. -/
theorem index_newline {m a s : List UInt8} {i : ℕ} (hm : m = a ++ s) (hi : i = a.length) :
  match splitLine s with
  | some (line, _) => Memory.index m i 10 = some (some (i + line.length))
  | none => ∀ j, Memory.index m i 10 ≠ some (some j)
  := by
  cases hline : splitLine s with
  | some r =>
      obtain ⟨rfl, hnewline, hnul⟩ := eq_of_splitLine hline
      exact Memory.index_eq hm hi hnewline hnul
  | none =>
      intro j hindex
      rw [Memory.index, hm, hi, List.drop_left] at hindex
      obtain ⟨line, rest, rfl, hnewline, hnul, -⟩ := Memory.exists_of_scan hindex
      rw [splitLine_append rest hnewline hnul] at hline
      cases hline

/-- What comes after the delimiter that is found. -/
theorem exists_after {rest rboundary chunk y : List UInt8} {field : ℕ}
    (h : Search.strstr (rest.take field) rboundary = some (chunk, y)) :
  ∃ after, rest = chunk ++ (rboundary ++ after)
  := by
  obtain ⟨hsplit, ⟨z, rfl⟩, -⟩ := Search.strstr_eq_some_iff.mp h
  use z ++ rest.drop field
  calc rest
    _ = rest.take field ++ rest.drop field := (List.take_append_drop field rest).symm
    _ = chunk ++ (rboundary ++ (z ++ rest.drop field)) := by simp [hsplit]

/-- A round of the loop of `form_multipart` takes a part and the line of the delimiter after it. -/
theorem partsRound_eq {loc : Locale} {tmp : ℕ → List UInt8} {rboundary m a chunk after : List UInt8}
    {i field : ℕ} {query : Scm} {files : List (List UInt8 × List UInt8)}
    (hm : m = a ++ (chunk ++ (rboundary ++ after))) (hi : i = a.length) (hne : a ≠ [])
    (hlast : a.getLast? ≠ some 13) (hboundary : rboundary ≠ []) (hchunk : chunk.length < 2 ^ 63)
    (hscan : memscan m i rboundary field = some (some (i + chunk.length))) :
  ∃ a' : List UInt8, a'.length = a.length + chunk.length + rboundary.length ∧
    partsRound loc tmp rboundary ⟨m, i, field, query, files⟩
      = match partText loc (tmp files.length) chunk with
        | none => .fault
        | some (entry, file) =>
            match splitLine after with
            | none => .fault
            | some (line, rest) =>
                .next ⟨a' ++ line ++ 10 :: rest, a'.length + line.length + 1,
                  sizeT (field - (chunk.length + rboundary.length + line.length + 1 : ℕ)),
                  .pair entry query,
                  files ++ file.toList.map (fun content => (tmp files.length, content))⟩
  := by
  obtain ⟨d, rb, rfl⟩ := List.exists_cons_of_ne_nil hboundary
  have hstop : ((i + chunk.length : ℕ) : ℤ) = (a ++ chunk).length := by
    rw [hi, List.length_append]
  have hcut : Memory.store m (i + chunk.length : ℕ) 0 = some (a ++ (chunk ++ 0 :: (rb ++ after))) := by
    rw [Memory.store_eq (b := rb ++ after) (c := d) _ hstop, List.append_assoc]
    rw [hm, List.append_assoc]
    rfl
  have hlen : i + chunk.length - i = chunk.length := by omega
  have hpart := @processChunk_eq loc (tmp files.length) _ a chunk (rb ++ after) rfl hne hlast hchunk
  cases hentry : partText loc (tmp files.length) chunk with
  | none =>
      rw [hentry] at hpart
      refine ⟨a ++ chunk ++ d :: rb, by simp [Nat.add_assoc], ?_⟩
      rw [partsRound, hscan]
      simp only [hcut, hlen]
      rw [hi, hpart]
  | some r =>
      obtain ⟨entry, file⟩ := r
      rw [hentry] at hpart
      obtain ⟨a', hrun, hlen'⟩ := hpart
      have ha' : i + chunk.length + (d :: rb).length = (a' ++ 0 :: rb).length := by
        rw [List.length_append, hlen', hi]
        rfl
      have hindex := @index_newline (a' ++ 0 :: (rb ++ after)) (a' ++ 0 :: rb) after _ (by simp) ha'
      refine ⟨a' ++ 0 :: rb, by rw [← ha', hi], ?_⟩
      rw [partsRound, hscan]
      simp only [hcut, hlen]
      rw [hi, hrun]
      rw [hi] at hindex
      dsimp only
      cases hline : splitLine after with
      | none =>
          rw [hline] at hindex
          dsimp only at hindex ⊢
          split
          case h_1 hsome => exact absurd hsome (hindex _)
          case h_2 => rfl
      | some r =>
          obtain ⟨line, rest⟩ := r
          rw [hline] at hindex
          dsimp only at hindex ⊢
          obtain ⟨rfl, -⟩ := eq_of_splitLine hline
          have hmem : a' ++ 0 :: (rb ++ (line ++ 10 :: rest))
              = a' ++ 0 :: rb ++ line ++ 10 :: rest := by
            simp
          have hpos : a.length + chunk.length + (d :: rb).length + line.length + 1
              = (a' ++ 0 :: rb).length + line.length + 1 := by
            rw [← ha', hi]
          have hcount : ((a.length + chunk.length + (d :: rb).length + line.length : ℕ) + 1
              - a.length : ℤ) = (chunk.length + (d :: rb).length + line.length + 1 : ℕ) := by
            omega
          rw [hindex]
          dsimp only
          rw [hcount, hpos, hmem]

/-- The loop of `form_multipart` reads the parts that stand in the memory. -/
theorem partsLoop_eq {loc : Locale} {tmp : ℕ → List UInt8} {rboundary m a rest : List UInt8}
    {i field : ℕ} {query : Scm} {files : List (List UInt8 × List UInt8)} (hm : m = a ++ rest)
    (hi : i = a.length) (hne : a ≠ []) (hlast : a.getLast? ≠ some 13) (hboundary : rboundary ≠ [])
    (hrest : rest.length < 2 ^ 63) :
  (partsLoop loc tmp rboundary ⟨m, i, field, query, files⟩).map (fun s => (s.query, s.files))
    = partsText loc tmp rboundary field rest query files
  := by
  induction hsize : rest.length using Nat.strongRecOn
    generalizing m a rest i field query files with
  | ind n ih =>
      have hscan := memscan_eq field hm hi hboundary
      cases hfound : Search.strstr (rest.take field) rboundary with
      | none =>
          rw [hfound] at hscan
          rw [partsText_of_none hfound]
          dsimp only at hscan
          split
          case isTrue hstick =>
              rw [if_pos hstick] at hscan
              have hround : partsRound loc tmp rboundary ⟨m, i, field, query, files⟩ = .fault := by
                rw [partsRound, hscan]
              rw [partsLoop, Loop.total_fault hround, Option.map_none]
          case isFalse hinside =>
              rw [if_neg hinside] at hscan
              have hround : partsRound loc tmp rboundary ⟨m, i, field, query, files⟩
                  = .stop ⟨m, i, field, query, files⟩ := by
                rw [partsRound, hscan]
              rw [partsLoop, Loop.total_stop hround, Option.map_some]
      | some r =>
          obtain ⟨chunk, y⟩ := r
          rw [hfound] at hscan
          rw [partsText_of_some hfound]
          obtain ⟨after, hafter⟩ := exists_after hfound
          have hdrop : rest.drop (chunk.length + rboundary.length) = after := by
            rw [hafter, ← List.append_assoc, ← List.length_append, List.drop_left]
          have hlen := congrArg List.length hafter
          rw [List.length_append, List.length_append] at hlen
          rw [hafter] at hm
          obtain ⟨a', ha', hround⟩ := @partsRound_eq loc tmp rboundary m a chunk after i field query
            files hm hi hne hlast hboundary (by omega) hscan
          rw [hdrop]
          cases hpart : partText loc (tmp files.length) chunk with
          | none =>
              rw [hpart] at hround
              rw [partsLoop, Loop.total_fault hround, Option.map_none, Option.bind_none]
          | some part =>
              rw [hpart] at hround
              dsimp only at hround
              rw [Option.bind_some]
              cases hline : splitLine after with
              | none =>
                  rw [hline] at hround
                  rw [partsLoop, Loop.total_fault hround, Option.map_none, Option.bind_none]
              | some v =>
                  obtain ⟨line, rest'⟩ := v
                  rw [hline] at hround
                  have hlen' := congrArg List.length (eq_of_splitLine hline).1
                  rw [List.length_append, List.length_cons] at hlen'
                  have hnext : a' ++ line ++ 10 :: rest' = (a' ++ line ++ [10]) ++ rest' := by simp
                  rw [partsLoop, Loop.total_next hround, Option.bind_some]
                  exact @ih rest'.length (by omega) _ (a' ++ line ++ [10]) rest' _ _ _ _ hnext
                    (by simp [Nat.add_assoc]) (by simp) (by simp) (by omega) rfl

/-- The first line of the body is skipped, and the parts are read. -/
theorem parseMap_eq {loc : Locale} {tmp : ℕ → List UInt8} {rboundary m : List UInt8} (maplen : ℕ)
    (hboundary : rboundary ≠ []) (hm : m.length < 2 ^ 63) :
  parseMap loc tmp rboundary m maplen
    = (splitLine m).bind (fun v => partsText loc tmp rboundary maplen v.2 .nil [])
  := by
  have hindex := @index_newline m [] m 0 rfl rfl
  cases hline : splitLine m with
  | none =>
      rw [hline] at hindex
      have hfirst : firstParts m maplen = none := by
        rw [firstParts]
        split
        case h_1 hsome => exact absurd hsome (hindex _)
        case h_2 => rfl
      rw [parseMap, hfirst, Option.bind_none, Option.bind_none]
  | some v =>
      obtain ⟨line, rest⟩ := v
      rw [hline] at hindex
      obtain ⟨hsplit, -⟩ := eq_of_splitLine hline
      have hlen := congrArg List.length hsplit
      rw [List.length_append, List.length_cons] at hlen
      have hrest : rest.length < 2 ^ 63 := by omega
      have hm' : m = (line ++ [10]) ++ rest := by simp [hsplit]
      rw [parseMap, firstParts, hindex, Option.bind_some, Option.bind_some]
      exact partsLoop_eq hm' (by simp) (by simp) (by simp) hboundary hrest

end Gusher
