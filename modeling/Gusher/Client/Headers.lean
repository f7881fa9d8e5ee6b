import Gusher.Request.LineBuffer
import Gusher.Scheme.Utf8
import Mathlib.Data.List.DropRight

/-!
# The headers of a response

The header lines that `http_get_master` receives.  `header_handler` writes into the line: it ends the
name at the colon, and overwrites the white space behind the value.  When there is nothing but white
space behind the colon, the loop goes back before the value, as far as the NUL at the place of the
colon.  Nothing is read or written outside the line and the byte behind it, and what is made of a line
is described by `receiveHeader`.
-/

namespace Gusher

open CString

/-- The loop of `header_handler` from the end of the value on, where the first byte it looks at is the
one before the position; `none` when it goes before the line. -/
def trimValue (value : ℕ) (buf : List UInt8) : ℕ → Option (List UInt8)
  | 0 => none
  | pt + 1 =>
      match buf[pt]? with
      | none => none
      | some c =>
          if isspace c then
            if pt = value then some (buf.set pt 0) else trimValue value (buf.set pt 0) pt
          else some buf

/-- `header_handler`, with the `rsize` bytes of a line at the start of a block: the headers, or an
inner `none` for the exception that the name is not in UTF-8. -/
def headerHandler (buf : List UInt8) (rsize : ℕ) (headers : Scm) : Option (Option Scm) := do
  let buf ← Memory.store buf rsize 0
  match ← Memory.index buf 0 58 with
  | none => return some headers
  | some pt =>
      let buf ← Memory.store buf pt 0
      let value ← skipSpaces buf (pt + 1)
      let buf ← downcase buf 0
      match fromUtf8 (← Memory.string buf 0) with
      | none => return none
      | some sym =>
          let length := (← Memory.string buf value).length
          let buf ← trimValue value buf (value + length)
          let val := fromLatin1 (← Memory.string buf value)
          return some (.pair (.pair (.symbol sym) (.str val)) headers)

/-- The calls of `header_handler` in a transfer, each with a block and the size of the line in it. -/
def handleHeaders (headers : Scm) : List (List UInt8 × ℕ) → Option (Option Scm)
  | [] => some (some headers)
  | (buf, rsize) :: blocks =>
      match headerHandler buf rsize headers with
      | some (some headers) => handleHeaders headers blocks
      | outcome => outcome

/-- The bytes of a line, as far as its first NUL. -/
def lineText (block : List UInt8 × ℕ) : List UInt8 :=
  cstr (block.1.take block.2)

/-- A value without the white space at its ends. -/
def trimSpace (value : List UInt8) : List UInt8 :=
  (value.dropWhile isspace).rdropWhile isspace

/-- The name of a header, in lower case, and its value. -/
def headerOf (line : List UInt8) : Option (List UInt8 × List UInt8) :=
  (index line 58).map (fun h => (h.1.map tolower, trimSpace h.2))

/-- What is made of a line: the header is put in front, when the line has a colon. -/
def receiveHeader (headers : Scm) (line : List UInt8) : Option Scm :=
  match headerOf line with
  | none => some headers
  | some (name, value) =>
      (fromUtf8 name).map (fun sym =>
        .pair (.pair (.symbol sym) (.str (fromLatin1 value))) headers)

/-! ### One line -/

/-- The loop overwrites the white space at the end, when it does not come across the start of the
value in it. -/
theorem trimValue_eq {value : ℕ} {s : List UInt8} (h : ∃ b ∈ s, isspace b = false)
    (hvalue : value < (s.rdropWhile isspace).length ∨ s.length ≤ value) (r : List UInt8) :
  trimValue value (s ++ r) s.length
    = some (s.rdropWhile isspace ++ (List.replicate (s.rtakeWhile isspace).length 0 ++ r))
  := by
  induction s using List.reverseRecOn generalizing r with
  | nil =>
      obtain ⟨b, hb, -⟩ := h
      cases hb
  | append_singleton s c ih =>
      have hget : (s ++ [c] ++ r)[s.length]? = some c := by simp
      have hlen : (s ++ [c]).length = s.length + 1 := List.length_append
      cases hc : isspace c with
      | true =>
          have hs : ∃ b ∈ s, isspace b = false := by
            obtain ⟨b, hb, hspace⟩ := h
            obtain hb | hb := List.mem_append.mp hb
            · exact ⟨b, hb, hspace⟩
            · rw [List.mem_singleton.mp hb, hc] at hspace
              cases hspace
          have hset : (s ++ [c] ++ r).set s.length 0 = s ++ 0 :: r := by
            rw [List.append_assoc, List.set_append_right _ _ (Nat.le_refl _), Nat.sub_self]
            rfl
          rw [List.rdropWhile_concat_pos _ _ _ hc] at hvalue ⊢
          have hle := ( List.rdropWhile_prefix isspace s).length_le
          have hne : s.length ≠ value := by omega
          rw [hlen, trimValue, hget]
          simp only [hc, if_true, if_neg hne]
          rw [hset, ih hs (by omega), List.rtakeWhile_concat_pos _ _ _ hc, List.length_append,
            List.length_singleton, List.replicate_succ', List.append_assoc]
          rfl
      | false =>
          rw [hlen, trimValue, hget]
          simp only [hc]
          rw [List.rdropWhile_concat_neg _ _ _ (by simp [hc]),
            List.rtakeWhile_concat_neg _ _ _ (by simp [hc])]
          rfl

/-- White space at the end of the second of two parts. -/
theorem rdropWhile_append {p v : List UInt8} (hv : v.rdropWhile isspace ≠ []) :
  (p ++ v).rdropWhile isspace = p ++ v.rdropWhile isspace
  := by
  rw [List.rdropWhile, List.reverse_append, List.dropWhile_append, if_neg]
  · rw [List.reverse_append, List.reverse_reverse]
    rfl
  · intro hempty
    apply hv
    rw [List.rdropWhile, List.isEmpty_iff.mp hempty, List.reverse_nil]

/-- The value in the block, after its end has been trimmed. -/
theorem exists_trimValue {p v : List UInt8} (hp : ∃ b ∈ p, isspace b = false)
    (hv : v.dropWhile isspace = v) (hnul : (0 : UInt8) ∉ v) (tail : List UInt8) :
  ∃ buf, trimValue p.length (p ++ v ++ 0 :: tail) (p.length + v.length) = some buf
    ∧ Memory.string buf p.length = some (v.rdropWhile isspace)
  := by
  have hs : ∃ b ∈ p ++ v, isspace b = false := by
    obtain ⟨b, hb, hspace⟩ := hp
    exact ⟨b, List.mem_append_left _ hb, hspace⟩
  have hzeros : ∀ k, List.replicate k 0 ++ 0 :: tail = 0 :: (List.replicate k 0 ++ tail) := by
    intro k
    rw [List.append_cons, ← List.replicate_succ', List.replicate_succ, List.cons_append]
  have hsplit := @List.rdropWhile_append_rtakeWhile _ isspace (p ++ v)
  rw [← List.length_append]
  by_cases hnil : v.rdropWhile isspace = []
  · -- there is no value, and the loop ends before it
    have hempty : v = [] := by
      rw [List.rdropWhile_eq_nil_iff] at hnil
      rw [← hv]
      exact List.dropWhile_eq_nil_iff.mpr hnil
    rw [hnil]
    subst hempty
    rw [trimValue_eq hs (Or.inr (by simp))]
    refine ⟨_, rfl, ?_⟩
    have hlength := congrArg List.length hsplit
    rw [List.append_nil, List.length_append] at hlength
    rw [List.append_nil, ← List.append_assoc]
    apply Memory.string_eq (s := []) rfl _ List.not_mem_nil
    rw [List.length_append, List.length_replicate, hlength]
  · have hdrop := @rdropWhile_append p v hnil
    have hlt : p.length < ((p ++ v).rdropWhile isspace).length := by
      have hpos := List.length_pos_iff.mpr hnil
      rw [hdrop, List.length_append]
      omega
    rw [trimValue_eq hs (Or.inl hlt), hzeros, hdrop, List.append_assoc]
    refine ⟨_, rfl, ?_⟩
    apply Memory.string_eq rfl rfl
    intro hmem
    exact hnul (( List.rdropWhile_prefix _ _).subset hmem)

/-- **A header line**: with a byte behind the line, no access is outside the block, and the headers
that are received are those of the text of the line. -/
theorem headerHandler_eq {buf : List UInt8} {rsize : ℕ} (h : rsize < buf.length) (headers : Scm) :
  headerHandler buf rsize headers = some (receiveHeader headers (lineText (buf, rsize)))
  := by
  have hbuf : buf = buf.take rsize ++ buf[rsize] :: buf.drop (rsize + 1) := by
    rw [List.getElem_cons_drop, List.take_append_drop]
  have hsize : (rsize : ℤ) = (buf.take rsize).length := by
    rw [List.length_take]
    omega
  have hcut : Memory.store buf rsize 0 = some (buf.take rsize ++ 0 :: buf.drop (rsize + 1)) :=
    Memory.store_eq hbuf hsize
  obtain ⟨tail, htail⟩ := exists_append_zero (buf.take rsize) (buf.drop (rsize + 1))
  have hline : lineText (buf, rsize) = cstr (buf.take rsize) := rfl
  have hnul := zero_notMem_cstr (buf.take rsize)
  rw [htail] at hcut
  rw [hline]
  generalize cstr (buf.take rsize) = line at hcut hnul
  cases hcolon : index line 58 with
  | none =>
      have hnull : Memory.index (line ++ 0 :: tail) 0 58 = some none :=
        Memory.index_eq_null (a := []) rfl rfl (notMem_of_index hcolon) hnul (by decide)
      simp [headerHandler, hcut, hnull, receiveHeader, headerOf, hcolon]
  | some r =>
      obtain ⟨name, value⟩ := r
      obtain ⟨rfl, hname⟩ := eq_of_index hcolon
      simp only [List.mem_append, List.mem_cons, not_or] at hnul
      obtain ⟨hnamenul, -, hvaluenul⟩ := hnul
      have hfound : Memory.index (name ++ 58 :: value ++ 0 :: tail) 0 58
          = some (some (0 + name.length)) :=
        Memory.index_eq (a := []) (List.append_assoc name _ _) rfl hname hnamenul
      rw [Nat.zero_add] at hfound
      have hstore : Memory.store (name ++ 58 :: value ++ 0 :: tail) name.length 0
          = some (name ++ 0 :: (value ++ 0 :: tail)) :=
        Memory.store_eq (List.append_assoc name _ _) rfl
      have hskip : skipSpaces (name ++ 0 :: (value ++ 0 :: tail)) (name.length + 1)
          = some (name.length + 1 + (value.takeWhile isspace).length) :=
        skipSpaces_eq (a := name ++ [0]) (b := tail) (by simp) (by simp) hvaluenul
      have hdowncase : downcase (name ++ 0 :: (value ++ 0 :: tail)) 0
          = some (name.map tolower ++ 0 :: (value ++ 0 :: tail)) :=
        downcase_eq (a := []) rfl rfl hnamenul
      have hlowernul : (0 : UInt8) ∉ name.map tolower := by
        intro hmem
        obtain ⟨c, hc, hzero⟩ := List.mem_map.mp hmem
        exact tolower_ne_zero (fun h => hnamenul (h ▸ hc)) hzero
      have hlower : Memory.string (name.map tolower ++ 0 :: (value ++ 0 :: tail)) 0
          = some (name.map tolower) :=
        Memory.string_eq (a := []) rfl rfl hlowernul
      -- the part before the value ends the name, and has the white space behind the colon
      obtain ⟨p, hp⟩ : ∃ p, p = name.map tolower ++ 0 :: value.takeWhile isspace := ⟨_, rfl⟩
      have hplen : name.length + 1 + (value.takeWhile isspace).length = p.length := by
        simp [hp]
        omega
      have hblock : name.map tolower ++ 0 :: (value ++ 0 :: tail)
          = p ++ value.dropWhile isspace ++ 0 :: tail := by
        conv_lhs => rw [← @List.takeWhile_append_dropWhile _ isspace value]
        simp [hp]
      have hrestnul : (0 : UInt8) ∉ value.dropWhile isspace :=
        fun hmem => hvaluenul ((List.dropWhile_sublist _).subset hmem)
      have hvalue : Memory.string (p ++ value.dropWhile isspace ++ 0 :: tail) p.length
          = some (value.dropWhile isspace) :=
        Memory.string_eq (List.append_assoc _ _ _) rfl hrestnul
      have hend : ∃ b ∈ p, isspace b = false := ⟨0, by simp [hp], rfl⟩
      obtain ⟨buf', htrim, hstring⟩ :=
        exists_trimValue hend (List.dropWhile_idempotent _ _) hrestnul tail
      rw [hplen] at hskip
      rw [hblock] at hdowncase hlower
      cases hsym : fromUtf8 (name.map tolower) with
      | none =>
          simp only [headerHandler, hcut, hfound, hstore, hskip, hdowncase, hlower, hsym, receiveHeader,
            headerOf, hcolon, Option.bind_eq_bind, Option.bind_some, Option.map_some, Option.map_none]
          rfl
      | some sym =>
          simp only [headerHandler, hcut, hfound, hstore, hskip, hdowncase, hlower, hsym, hvalue, htrim,
            hstring, receiveHeader, headerOf, hcolon, Option.bind_eq_bind, Option.bind_some,
            Option.map_some]
          rfl

/-! ### A transfer -/

/-- The headers of some lines. -/
def receiveHeaders (headers : Scm) (lines : List (List UInt8)) : Option Scm :=
  lines.foldlM receiveHeader headers

/-- The calls with blocks are no accesses outside them, and receive the headers of the lines. -/
theorem handleHeaders_eq {blocks : List (List UInt8 × ℕ)} (h : ∀ b ∈ blocks, b.2 < b.1.length)
    (headers : Scm) :
  handleHeaders headers blocks = some (receiveHeaders headers (blocks.map lineText))
  := by
  induction blocks generalizing headers with
  | nil => rfl
  | cons b blocks ih =>
      obtain ⟨buf, rsize⟩ := b
      rw [handleHeaders, headerHandler_eq (h _ List.mem_cons_self), receiveHeaders, List.map_cons,
        List.foldlM_cons]
      cases receiveHeader headers (lineText (buf, rsize)) with
      | none => rfl
      | some headers => exact ih (fun b hb => h b (List.mem_cons_of_mem _ hb)) headers

/-- The headers of the lines that have one, with their names as symbols. -/
def namedHeaders (lines : List (List UInt8)) : List (Text × Text) :=
  (lines.filterMap headerOf).filterMap (fun h =>
    (fromUtf8 h.1).map (fun sym => (sym, fromLatin1 h.2)))

/-- The headers are received from the first to the last, when all names are in UTF-8. -/
theorem receiveHeaders_eq {lines : List (List UInt8)}
    (h : ∀ line ∈ lines, ∀ name value, headerOf line = some (name, value) → (fromUtf8 name).isSome)
    (rest : List (Text × Scm)) :
  receiveHeaders (.alist rest) lines
    = some (.alist (((namedHeaders lines).map (fun n => (n.1, .str n.2))).reverse ++ rest))
  := by
  induction lines generalizing rest with
  | nil => rfl
  | cons line lines ih =>
      have hrest := ih (fun l hl => h l (List.mem_cons_of_mem _ hl))
      rw [receiveHeaders, List.foldlM_cons, receiveHeader]
      cases hline : headerOf line with
      | none =>
          have hnamed : namedHeaders (line :: lines) = namedHeaders lines := by
            simp [namedHeaders, hline]
          rw [hnamed]
          exact hrest rest
      | some r =>
          obtain ⟨name, value⟩ := r
          obtain ⟨sym, hsym⟩ := Option.isSome_iff_exists.mp
            (h line List.mem_cons_self name value hline)
          have hnamed : namedHeaders (line :: lines)
              = (sym, fromLatin1 value) :: namedHeaders lines := by
            simp [namedHeaders, hline, hsym]
          have hnext := hrest ((sym, .str (fromLatin1 value)) :: rest)
          rw [hnamed, List.map_cons, List.reverse_cons, List.append_assoc]
          simp only [hsym, Option.map_some]
          exact hnext

/-- A name that is not in UTF-8 raises an exception. -/
theorem receiveHeaders_none {lines : List (List UInt8)} {headers : Scm}
    (h : ∃ line ∈ lines, ∃ name value, headerOf line = some (name, value) ∧ fromUtf8 name = none) :
  receiveHeaders headers lines = none
  := by
  obtain ⟨line, hline, name, value, hof, hname⟩ := h
  induction lines generalizing headers with
  | nil => cases hline
  | cons l lines ih =>
      rw [receiveHeaders, List.foldlM_cons]
      rcases List.mem_cons.mp hline with rfl | hline
      · have hnone : receiveHeader headers line = none := by
          rw [receiveHeader, hof]
          simp only [hname, Option.map_none]
        rw [hnone]
        rfl
      · cases receiveHeader headers l with
        | none => rfl
        | some headers => exact ih hline

/-- The value of the newest entry of an association list. -/
theorem assqRef_alist_find (members : List (Text × Scm)) (key : Text) :
  (Scm.alist members).assqRef key = ((members.find? (fun m => m.1 = key)).map Prod.snd).getD (.bool false)
  := by
  induction members with
  | nil => rfl
  | cons m members ih =>
      rw [Scm.alist_cons, Scm.assqRef_entry, List.find?_cons]
      by_cases hm : m.1 = key
      · rw [if_pos (congrArg Scm.symbol hm)]
        simp [hm]
      · rw [if_neg (fun h => hm (Scm.symbol.inj h)), ih]
        simp [hm]

/-- **Headers**: when there is a byte behind each line, no access is outside the blocks.  An exception
is raised exactly if a name is not in UTF-8.  Else the status is the response code, whatever lines
there are; and any other header is what the last line says whose name is the same in lower case, or
`#f` when there is none. -/
theorem transfer_headers {blocks : List (List UInt8 × ℕ)} (h : ∀ b ∈ blocks, b.2 < b.1.length) :
  handleHeaders .nil blocks ≠ none
    ∧ (handleHeaders .nil blocks = some none ↔ ∃ b ∈ blocks, ∃ name value,
      headerOf (lineText b) = some (name, value) ∧ fromUtf8 name = none)
    ∧ ∀ headers, handleHeaders .nil blocks = some (some headers) → ∀ (code : ℤ) (key : Text),
      (Scm.acons "status" (.int code) headers).assqRef key
        = if "status".toList = key then .int code
          else ((namedHeaders (blocks.map lineText)).reverse.find? (fun n => n.1 = key)).elim
            (.bool false) (fun n => .str n.2)
  := by
  rw [handleHeaders_eq h]
  have hcases : (∃ b ∈ blocks, ∃ name value, headerOf (lineText b) = some (name, value)
      ∧ fromUtf8 name = none) ∨ ∀ line ∈ blocks.map lineText, ∀ name value,
      headerOf line = some (name, value) → (fromUtf8 name).isSome := by
    by_cases hbad : ∃ b ∈ blocks, ∃ name value, headerOf (lineText b) = some (name, value)
        ∧ fromUtf8 name = none
    · exact Or.inl hbad
    · right
      intro line hline name value heq
      obtain ⟨b, hb, rfl⟩ := List.mem_map.mp hline
      by_contra hnot
      exact hbad ⟨b, hb, name, value, heq, by simpa using hnot⟩
  refine ⟨by simp, ?_⟩
  obtain ⟨b, hb, name, value, heq, hname⟩ | hgood := hcases
  · have hnone := @receiveHeaders_none _ .nil
      ⟨_, List.mem_map_of_mem hb, name, value, heq, hname⟩
    rw [hnone]
    refine ⟨iff_of_true rfl ⟨b, hb, name, value, heq, hname⟩, ?_⟩
    intro headers hheaders
    cases Option.some.inj hheaders
  · have hall := receiveHeaders_eq hgood []
    rw [List.append_nil] at hall
    rw [← Scm.alist_nil, hall]
    constructor
    · apply iff_of_false (by simp)
      rintro ⟨b, hb, name, value, heq, hname⟩
      have hsome := hgood _ (List.mem_map_of_mem hb) name value heq
      rw [hname] at hsome
      cases hsome
    · intro headers hheaders code key
      obtain rfl := Option.some.inj (Option.some.inj hheaders)
      rw [Scm.assqRef_acons, assqRef_alist_find, ← List.map_reverse, List.find?_map]
      have hcomp : ((fun m : Text × Scm => decide (m.1 = key))
          ∘ fun n : Text × Text => (n.1, Scm.str n.2)) = fun n => decide (n.1 = key) := rfl
      rw [hcomp]
      cases (namedHeaders (blocks.map lineText)).reverse.find? (fun n => decide (n.1 = key)) with
      | none => rfl
      | some n => rfl

/-- The status line, a header with the name of the status and one without a value, each line with a
byte behind it. -/
theorem transfer_headers_two :
  ∃ headers,
    handleHeaders .nil [(ascii "HTTP/1.1 200 OK\r\n?", 17), (ascii "Status: 404 \r\n?", 14),
      (ascii "X:\r\n?", 4)] = some (some headers)
    ∧ (Scm.acons "status" (.int 200) headers).assqRef "status".toList = .int 200
    ∧ (Scm.acons "status" (.int 200) headers).assqRef "x".toList = .str []
  := by
  have hblocks : ∀ b ∈ [(ascii "HTTP/1.1 200 OK\r\n?", 17), (ascii "Status: 404 \r\n?", 14),
      (ascii "X:\r\n?", 4)], b.2 < b.1.length := by decide
  obtain ⟨headers, hheaders⟩ : ∃ headers, handleHeaders .nil [(ascii "HTTP/1.1 200 OK\r\n?", 17),
      (ascii "Status: 404 \r\n?", 14), (ascii "X:\r\n?", 4)] = some (some headers) := by
    rw [handleHeaders_eq hblocks]
    exact ⟨.alist [("x".toList, .str []), ("status".toList, .str "404".toList)], by decide⟩
  obtain ⟨-, -, hlookup⟩ := transfer_headers hblocks
  exact ⟨headers, hheaders, hlookup headers hheaders 200 _, hlookup headers hheaders 200 _⟩

end Gusher
