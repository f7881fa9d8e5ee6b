import Gusher.Library.Memory
import Gusher.Request.Line

/-!
# The line buffer

The header phase again, with the line buffer of `process_request` as a block of memory: each
access is checked, and each pointer that a search gives.  What it computes is what the functions
on lines compute, and it faults where they do (`buildLoopAt_eq`).
-/

namespace Gusher

open CString

/-- The outcome of `mygetline`, with the buffer and the bytes that are left on the socket. -/
inductive LineRead where
  | ok (buf rest : List UInt8)
  | ended
  | tooLong (buf rest : List UInt8)
  | fault
  deriving DecidableEq

/-- The message that the line is too long shows the buffer. -/
def lineTooLong (buf rest : List UInt8) : LineRead :=
  match Memory.store buf (lineSize - 1) 0 with
  | none => .fault
  | some buf =>
      match Memory.string buf 0 with
      | none => .fault
      | some _ => .tooLong buf rest

/-- `mygetline`, at the index `i`. -/
def mygetlineAt (buf : List UInt8) (i : ℕ) : List UInt8 → LineRead
  | [] => if lineSize ≤ i then lineTooLong buf [] else .ended
  | c :: rest =>
      if lineSize ≤ i then lineTooLong buf (c :: rest)
      else
        match Memory.store buf i c with
        | none => .fault
        | some buf =>
            if c = 10 then
              match Memory.load buf (i - 1) with
              | none => .fault
              | some b =>
                  match Memory.store buf (if b = 13 then (i : ℤ) - 1 else i) 0 with
                  | none => .fault
                  | some buf => .ok buf rest
            else mygetlineAt buf (i + 1) rest

/-- `start_request`; a null pointer that a search gives is used all the same. -/
def startRequestAt (loc : Locale) (buf : List UInt8) : Option (List UInt8 × Scm) := do
  let c ← Memory.load buf 0
  let method : Scm := if c = 80 then .symbol "post".toList else .symbol "get".toList
  let request := Scm.acons "method" method .nil
  let space ← (← Memory.index buf 0 32)
  let mark := space + 1
  let space ← (← Memory.index buf mark 32)
  let buf ← Memory.store buf space 0
  let url ← Memory.string buf mark
  let request := Scm.acons "url" (.str (loc.decode url)) request
  match ← Memory.index buf mark 63 with
  | some pt =>
      let buf ← Memory.store buf pt 0
      let qstring ← Memory.string buf (pt + 1)
      let path ← Memory.string buf mark
      let request := Scm.acons "url-path" (.str (loc.decode path)) request
      return (buf, Scm.acons "query-string" (.str (loc.decode qstring)) request)
  | none =>
      let path ← Memory.string buf mark
      let request := Scm.acons "url-path" (.str (loc.decode path)) request
      return (buf, Scm.acons "query-string" (.str []) request)

/-- `while (*colon && isspace(*colon)) colon++` -/
def skipSpaces (buf : List UInt8) (colon : ℕ) : Option ℕ :=
  match _h : buf[colon]? with
  | none => none
  | some c => if c ≠ 0 ∧ isspace c then skipSpaces buf (colon + 1) else some colon
  termination_by buf.length - colon
  decreasing_by
    have := (List.getElem?_eq_some_iff.mp _h).1
    omega

def downcase (buf : List UInt8) (pt : ℕ) : Option (List UInt8) :=
  match _h : buf[pt]? with
  | none => none
  | some c => if c = 0 then some buf else downcase (buf.set pt (tolower c)) (pt + 1)
  termination_by buf.length - pt
  decreasing_by
    have := (List.getElem?_eq_some_iff.mp _h).1
    rw [List.length_set]
    omega

/-- The handling of a header line. -/
def addHeaderAt (loc : Locale) (request : Scm) (buf : List UInt8) :
    Option (List UInt8 × Scm) := do
  match ← Memory.index buf 0 58 with
  | none => return (buf, request)
  | some colon =>
      let buf ← Memory.store buf colon 0
      let colon ← skipSpaces buf (colon + 1)
      let value ← Memory.string buf colon
      let buf ← downcase buf 0
      let name ← Memory.string buf 0
      return (buf, .pair (.pair (loc.makesym name) (.str (loc.decode value))) request)

/-- A line that was read has taken bytes from the socket. -/
theorem mygetlineAt_length_lt {buf buf' stream rest : List UInt8} {i : ℕ}
    (h : mygetlineAt buf i stream = .ok buf' rest) :
  rest.length < stream.length
  := by
  have htooLong : ∀ buf s, lineTooLong buf s ≠ .ok buf' rest := by
    intro buf s
    unfold lineTooLong
    split
    · simp
    · split <;> simp
  induction stream generalizing buf i with
  | nil =>
      unfold mygetlineAt at h
      split at h
      · exact absurd h (htooLong _ _)
      · cases h
  | cons c stream ih =>
      unfold mygetlineAt at h
      split at h
      case isTrue => exact absurd h (htooLong _ _)
      case isFalse =>
          split at h
          case h_1 => cases h
          case h_2 =>
              split at h
              case isTrue =>
                  split at h
                  case h_1 => cases h
                  case h_2 =>
                      split at h
                      case h_1 => cases h
                      case h_2 =>
                          obtain ⟨-, rfl⟩ := LineRead.ok.inj h
                          simp
              case isFalse =>
                  have hlt := ih h
                  simp only [List.length_cons]
                  omega

/-- The loop of `process_request` that builds the request, with what the line buffer holds. -/
def buildLoopAt (loc : Locale) (buf : List UInt8) (request : Scm) (stream : List UInt8) :
    Built :=
  match _h : mygetlineAt buf 0 stream with
  | .ended => .ended
  | .fault => .fault
  | .tooLong _ rest => .request request rest
  | .ok buf rest =>
      match Memory.load buf 0 with
      | none => .fault
      | some c =>
          if c = 0 then .request request rest
          else
            match if request = .nil then startRequestAt loc buf else addHeaderAt loc request buf
              with
            | none => .fault
            | some (buf, request) => buildLoopAt loc buf request rest
  termination_by stream.length
  decreasing_by exact mygetlineAt_length_lt _h

/-! ### Reading a line -/

/-- The buffer holds a string. -/
def HoldsLine (buf line : List UInt8) : Prop :=
  buf.length = lineSize ∧ (0 : UInt8) ∉ line ∧ ∃ tail, buf = line ++ 0 :: tail

/-- Reading into the buffer ends as reading a line does. -/
inductive Agrees : Getline → LineRead → Prop where
  | ok {line buf rest : List UInt8} (h : HoldsLine buf line) :
      Agrees (.ok line rest) (.ok buf rest)
  | ended : Agrees .ended .ended
  | tooLong {buf rest : List UInt8} (h : buf.length = lineSize) :
      Agrees (.tooLong rest) (.tooLong buf rest)
  | fault : Agrees .fault .fault

/-- When the buffer is full, the NUL at its end keeps the message in the buffer. -/
theorem agrees_tooLong {buf : List UInt8} (rest : List UInt8) (h : buf.length = lineSize) :
  Agrees (.tooLong rest) (lineTooLong buf rest)
  := by
  obtain ⟨a, c, rfl⟩ : ∃ a c, buf = a ++ [c] := by
    obtain hnil | hcons := List.eq_nil_or_concat buf
    · rw [hnil] at h
      cases h
    · obtain ⟨a, c, rfl⟩ := hcons
      exact ⟨a, c, by simp⟩
  have hlen : (lineSize : ℤ) - 1 = a.length := by
    rw [← h]
    simp
  obtain ⟨tail, htail⟩ := exists_append_zero a []
  have hstring : Memory.string (a ++ [0]) 0 = some (cstr a) := by
    exact Memory.string_eq (a := []) htail rfl (zero_notMem_cstr a)
  rw [lineTooLong, Memory.store_eq rfl hlen]
  simp only [hstring]
  apply Agrees.tooLong
  simpa using h

/-- Reading goes on in the buffer as it does on the bytes read so far. -/
theorem agrees_mygetline (stream : List UInt8) {a b : List UInt8}
    (h : (a ++ b).length = lineSize) :
  Agrees (mygetline lineSize a stream) (mygetlineAt (a ++ b) a.length stream)
  := by
  induction stream generalizing a b with
  | nil =>
      rw [mygetline, mygetlineAt]
      split
      · exact agrees_tooLong [] h
      · exact Agrees.ended
  | cons c stream ih =>
      rw [mygetline, mygetlineAt]
      split
      case isTrue => exact agrees_tooLong _ h
      case isFalse hroom =>
          cases b with
          | nil =>
              rw [List.append_nil] at h
              omega
          | cons d b =>
              rw [Memory.store_eq rfl rfl]
              dsimp only
              split
              case isFalse =>
                  have hsplit : a ++ c :: b = (a ++ [c]) ++ b := by simp
                  have hlen : a.length + 1 = (a ++ [c]).length := by simp
                  rw [hsplit, hlen]
                  apply ih
                  simpa using h
              case isTrue hc =>
                  -- the byte before the newline
                  cases hlast : a.getLast? with
                  | none =>
                      obtain rfl := List.getLast?_eq_none_iff.mp hlast
                      exact Agrees.fault
                  | some x =>
                      obtain ⟨a, rfl⟩ := List.getLast?_eq_some_iff.mp hlast
                      have hindex : (((a ++ [x]).length : ℕ) : ℤ) - 1 = a.length := by simp
                      have hload : Memory.load (a ++ [x] ++ c :: b) a.length = some x := by
                        exact Memory.load_eq (List.append_assoc a [x] (c :: b)) rfl
                      rw [hindex, hload]
                      dsimp only
                      by_cases hx : x = 13
                      · subst hx
                        rw [if_pos rfl, Memory.store_eq (List.append_assoc a [13] (c :: b)) rfl]
                        dsimp only
                        rw [List.dropLast_concat]
                        apply Agrees.ok
                        refine ⟨?_, zero_notMem_cstr a, exists_append_zero a _⟩
                        simpa using h
                      · rw [if_neg hx, Memory.store_eq rfl rfl]
                        split
                        case h_1 hnone => cases hnone
                        case h_2 hsome => exact absurd (Option.some.inj hsome) hx
                        case h_3 =>
                            apply Agrees.ok
                            refine ⟨?_, zero_notMem_cstr _, exists_append_zero _ _⟩
                            simpa using h

/-! ### The request line -/

theorem HoldsLine.load {buf line : List UInt8} (h : HoldsLine buf line) :
  Memory.load buf 0 = some (line.head?.getD 0)
  := by
  obtain ⟨-, -, tail, rfl⟩ := h
  cases line with
  | nil => rfl
  | cons c line => rfl

/-- `start_request` on the buffer computes what it computes on the line, and faults when a search
for a space fails. -/
theorem startRequestAt_eq (loc : Locale) {buf line : List UInt8} (h : HoldsLine buf line) :
  match startRequest loc line with
  | none => startRequestAt loc buf = none
  | some request => ∃ buf', startRequestAt loc buf = some (buf', request) ∧ buf'.length = lineSize
  := by
  have hload := h.load
  obtain ⟨hlen, hnul, tail, hbuf⟩ := h
  have hmethod : (line.head?.getD 0 = 80) ↔ line.head? = some 80 := by
    cases line with
    | nil => simp
    | cons c line => simp
  cases hfirst : index line 32 with
  | none =>
      have hnull : Memory.index buf 0 32 = some none :=
        Memory.index_eq_null (a := []) hbuf rfl (notMem_of_index hfirst) hnul (by decide)
      simp [startRequest, hfirst, startRequestAt, hload, hnull]
  | some r =>
      obtain ⟨a, b⟩ := r
      obtain ⟨hline, ha⟩ := eq_of_index hfirst
      rw [hline] at hnul hbuf
      simp only [List.mem_append, List.mem_cons, not_or] at hnul
      obtain ⟨hanul, -, hbnul⟩ := hnul
      have hspace : Memory.index buf 0 32 = some (some (0 + a.length)) :=
        Memory.index_eq (a := []) (hbuf.trans (List.append_assoc a _ _)) rfl ha hanul
      have hmark : buf = (a ++ [32]) ++ (b ++ 0 :: tail) := by simp [hbuf]
      have hposition : 0 + a.length + 1 = (a ++ [32]).length := by simp
      generalize (a ++ [32]) = a' at hmark hposition
      generalize 0 + a.length = space at hspace hposition
      cases hsecond : index b 32 with
      | none =>
          have hnull := Memory.index_eq_null hmark hposition (notMem_of_index hsecond) hbnul
            (by decide)
          simp [startRequest, hfirst, hsecond, startRequestAt, hload, hspace, hnull]
      | some r =>
          obtain ⟨u, v⟩ := r
          obtain ⟨rfl, hu⟩ := eq_of_index hsecond
          simp only [List.mem_append, List.mem_cons, not_or] at hbnul
          obtain ⟨hunul, -, hvnul⟩ := hbnul
          have hsplit : buf = a' ++ (u ++ 32 :: (v ++ 0 :: tail)) := by simp [hmark]
          have hspace' := Memory.index_eq hsplit hposition hu hunul
          generalize hspace'_eq : space + 1 + u.length = space' at hspace'
          have hstore : Memory.store buf space' 0 = some (a' ++ u ++ 0 :: (v ++ 0 :: tail)) := by
            apply Memory.store_eq (c := 32)
            · simp [hsplit]
            · simp [← hspace'_eq, hposition]
          have hlen' := Memory.length_store hstore
          generalize hm : a' ++ u ++ 0 :: (v ++ 0 :: tail) = m at hstore hlen'
          rw [List.append_assoc] at hm
          have hurl := Memory.string_eq hm.symm hposition hunul
          cases hquery : index u 63 with
          | none =>
              have hnull := Memory.index_eq_null hm.symm hposition (notMem_of_index hquery) hunul
                (by decide)
              simp [startRequest, hfirst, hsecond, hquery, startRequestAt, hload, hspace,
                hspace', hstore, hurl, hnull, hmethod, hlen', hlen]
          | some r =>
              obtain ⟨q, w⟩ := r
              obtain ⟨hquestion, hq⟩ := eq_of_index hquery
              rw [hquestion] at hunul
              simp only [List.mem_append, List.mem_cons, not_or] at hunul
              obtain ⟨hqnul, -, hwnul⟩ := hunul
              have hm_split : m = a' ++ (q ++ 63 :: (w ++ 0 :: (v ++ 0 :: tail))) := by
                simp [← hm, hquestion]
              have hfound := Memory.index_eq hm_split hposition hq hqnul
              generalize hpt : space + 1 + q.length = pt at hfound
              have hcut : Memory.store m pt 0
                  = some (a' ++ q ++ 0 :: (w ++ 0 :: (v ++ 0 :: tail))) := by
                apply Memory.store_eq (c := 63)
                · simp [hm_split]
                · simp [← hpt, hposition]
              have hlen'' := Memory.length_store hcut
              generalize hm' : a' ++ q ++ 0 :: (w ++ 0 :: (v ++ 0 :: tail)) = m' at hcut hlen''
              have hqstring : Memory.string m' (pt + 1) = some w := by
                apply Memory.string_eq (a := a' ++ q ++ [0]) (b := v ++ 0 :: tail) _ _ hwnul
                · simp [← hm']
                · simp [← hpt, hposition, Nat.add_assoc]
              have hpath : Memory.string m' (space + 1) = some q := by
                apply Memory.string_eq (b := w ++ 0 :: (v ++ 0 :: tail)) _ hposition hqnul
                simp [← hm']
              simp [startRequest, hfirst, hsecond, hquery, startRequestAt, hload, hspace,
                hspace', hstore, hurl, hfound, hcut, hqstring, hpath, hmethod, hlen'', hlen', hlen]

/-! ### Header lines -/

/-- The spaces at the start of a string are skipped. -/
theorem skipSpaces_eq {m a s b : List UInt8} {i : ℕ} (hm : m = a ++ (s ++ 0 :: b))
    (hi : i = a.length) (hs : (0 : UInt8) ∉ s) :
  skipSpaces m i = some (i + (s.takeWhile isspace).length)
  := by
  induction s generalizing a i with
  | nil =>
      have hget : m[i]? = some 0 := by simp [hm, hi]
      rw [skipSpaces]
      split
      case h_1 hnone =>
          rw [hget] at hnone
          cases hnone
      case h_2 c hsome =>
          rw [hget] at hsome
          obtain rfl := Option.some.inj hsome
          simp
  | cons d s ih =>
      have hget : m[i]? = some d := by simp [hm, hi]
      simp only [List.mem_cons, not_or] at hs
      rw [skipSpaces]
      split
      case h_1 hnone =>
          rw [hget] at hnone
          cases hnone
      case h_2 c hsome =>
          rw [hget] at hsome
          obtain rfl := Option.some.inj hsome
          split
          case isTrue hspace =>
              rw [ih (a := a ++ [d]) (by simp [hm]) (by simp [hi]) hs.2,
                List.takeWhile_cons_of_pos hspace.2, List.length_cons]
              congr 1
              omega
          case isFalse hspace =>
              have hneg : ¬ isspace d = true := fun h => hspace ⟨Ne.symm hs.1, h⟩
              rw [List.takeWhile_cons_of_neg hneg]
              rfl

/-- A string is put in lower case where it stands. -/
theorem downcase_eq {m a s b : List UInt8} {i : ℕ} (hm : m = a ++ (s ++ 0 :: b))
    (hi : i = a.length) (hs : (0 : UInt8) ∉ s) :
  downcase m i = some (a ++ (s.map tolower ++ 0 :: b))
  := by
  induction s generalizing m a i with
  | nil =>
      have hget : m[i]? = some 0 := by simp [hm, hi]
      rw [downcase]
      split
      case h_1 hnone =>
          rw [hget] at hnone
          cases hnone
      case h_2 c hsome =>
          rw [hget] at hsome
          obtain rfl := Option.some.inj hsome
          rw [if_pos rfl, hm]
          rfl
  | cons d s ih =>
      have hget : m[i]? = some d := by simp [hm, hi]
      simp only [List.mem_cons, not_or] at hs
      rw [downcase]
      split
      case h_1 hnone =>
          rw [hget] at hnone
          cases hnone
      case h_2 c hsome =>
          rw [hget] at hsome
          obtain rfl := Option.some.inj hsome
          have hset : m.set i (tolower d) = (a ++ [tolower d]) ++ (s ++ 0 :: b) := by
            rw [hm, hi, List.set_append_right _ _ (Nat.le_refl _)]
            simp
          rw [if_neg (Ne.symm hs.1), ih hset (by simp [hi]) hs.2]
          simp

/-- A header line in the buffer puts the same entry in front. -/
theorem addHeaderAt_eq (loc : Locale) (request : Scm) {buf line : List UInt8}
    (h : HoldsLine buf line) :
  ∃ buf', addHeaderAt loc request buf = some (buf', addHeader loc request line) ∧
    buf'.length = lineSize
  := by
  obtain ⟨hlen, hnul, tail, hbuf⟩ := h
  cases hcolon : index line 58 with
  | none =>
      have hnull : Memory.index buf 0 58 = some none :=
        Memory.index_eq_null (a := []) hbuf rfl (notMem_of_index hcolon) hnul (by decide)
      simp [addHeaderAt, hnull, addHeader, headerField, hcolon, hlen]
  | some r =>
      obtain ⟨name, value⟩ := r
      obtain ⟨hline, hname⟩ := eq_of_index hcolon
      rw [hline] at hnul hbuf
      simp only [List.mem_append, List.mem_cons, not_or] at hnul
      obtain ⟨hnamenul, -, hvaluenul⟩ := hnul
      have hfound : Memory.index buf 0 58 = some (some (0 + name.length)) :=
        Memory.index_eq (a := []) (hbuf.trans (List.append_assoc name _ _)) rfl hname hnamenul
      rw [Nat.zero_add] at hfound
      have hstore : Memory.store buf name.length 0 = some (name ++ 0 :: (value ++ 0 :: tail)) :=
        Memory.store_eq (hbuf.trans (List.append_assoc name _ _)) rfl
      have hlen' := Memory.length_store hstore
      generalize hm : name ++ 0 :: (value ++ 0 :: tail) = m at hstore hlen'
      have hskip : skipSpaces m (name.length + 1)
          = some (name.length + 1 + (value.takeWhile isspace).length) :=
        skipSpaces_eq (a := name ++ [0]) (b := tail) (by simp [← hm]) (by simp) hvaluenul
      have hstring : Memory.string m (name.length + 1 + (value.takeWhile isspace).length)
          = some (value.dropWhile isspace) := by
        apply Memory.string_eq (a := name ++ 0 :: value.takeWhile isspace) (b := tail)
        · have hsplit : value ++ 0 :: tail
              = value.takeWhile isspace ++ (value.dropWhile isspace ++ 0 :: tail) := by
            rw [← List.append_assoc, List.takeWhile_append_dropWhile]
          rw [← hm, hsplit]
          simp
        · simp
          omega
        · intro hmem
          exact hvaluenul ((List.dropWhile_sublist _).subset hmem)
      have hdowncase : downcase m 0
          = some (name.map tolower ++ 0 :: (value ++ 0 :: tail)) :=
        downcase_eq (a := []) hm.symm rfl hnamenul
      have hlower : Memory.string (name.map tolower ++ 0 :: (value ++ 0 :: tail)) 0
          = some (name.map tolower) := by
        apply Memory.string_eq (a := []) rfl rfl
        intro hmem
        obtain ⟨c, hc, hzero⟩ := List.mem_map.mp hmem
        apply tolower_ne_zero _ hzero
        rintro rfl
        exact hnamenul hc
      have hlen'' : (name.map tolower ++ 0 :: (value ++ 0 :: tail)).length = lineSize := by
        rw [← hlen, ← hlen', ← hm]
        simp
      generalize name.map tolower ++ 0 :: (value ++ 0 :: tail) = m' at hdowncase hlower hlen''
      simp [addHeaderAt, hfound, hstore, hskip, hstring, hdowncase, hlower, hlen'', addHeader,
        headerField, hcolon, Locale.makesym]

/-! ### The loop -/

/-- A line that was read is the end of the headers, the request line or a header line. -/
theorem buildLoopAt_ok {loc : Locale} {buf buf' stream rest : List UInt8} {request : Scm}
    (h : mygetlineAt buf 0 stream = .ok buf' rest) :
  buildLoopAt loc buf request stream =
    match Memory.load buf' 0 with
    | none => .fault
    | some c =>
        if c = 0 then .request request rest
        else
          match if request = .nil then startRequestAt loc buf' else addHeaderAt loc request buf'
            with
          | none => .fault
          | some (buf, request) => buildLoopAt loc buf request rest
  := by
  rw [buildLoopAt]
  split <;> simp_all

/-- The header phase on the line buffer is the header phase on lines. -/
theorem buildLoopAt_eq (loc : Locale) {buf : List UInt8} (hbuf : buf.length = lineSize)
    (request : Scm) (stream : List UInt8) :
  buildLoopAt loc buf request stream = buildLoop loc request stream
  := by
  have hagree : Agrees (mygetline lineSize [] stream) (mygetlineAt buf 0 stream) :=
    agrees_mygetline stream (a := []) hbuf
  induction hsize : stream.length using Nat.strongRecOn generalizing buf request stream with
  | ind n ih =>
      generalize hline : mygetline lineSize [] stream = g at hagree
      generalize hread : mygetlineAt buf 0 stream = r at hagree
      cases hagree with
      | ended =>
          rw [buildLoop_ended hline, buildLoopAt]
          split <;> simp_all
      | fault =>
          rw [buildLoop_fault hline, buildLoopAt]
          split <;> simp_all
      | tooLong hlen =>
          rw [buildLoop_tooLong hline, buildLoopAt]
          split <;> simp_all
      | @ok line buf' rest h =>
          have hlt := mygetline_length_lt hline
          rw [hsize] at hlt
          have hload := h.load
          have hnul := h.2.1
          rw [buildLoopAt_ok hread]
          cases line with
          | nil =>
              rw [buildLoop_empty hline, hload]
              rfl
          | cons c line =>
              have hc : c ≠ 0 := by
                rintro rfl
                exact hnul List.mem_cons_self
              rw [show Memory.load buf' 0 = some c from hload]
              dsimp only
              rw [if_neg hc]
              by_cases hrequest : request = .nil
              · subst hrequest
                rw [if_pos rfl]
                have hstart := startRequestAt_eq loc h
                cases hr : startRequest loc (c :: line) with
                | none =>
                    rw [hr] at hstart
                    rw [buildLoop_start_fault hline (List.cons_ne_nil c line) hr]
                    simp only [hstart]
                | some request =>
                    rw [hr] at hstart
                    obtain ⟨buf'', hrun, hlen⟩ := hstart
                    rw [buildLoop_start hline (List.cons_ne_nil c line) hr]
                    simp only [hrun]
                    exact ih rest.length hlt hlen request rest
                      (agrees_mygetline rest (a := []) hlen) rfl
              · rw [if_neg hrequest]
                obtain ⟨buf'', hrun, hlen⟩ := addHeaderAt_eq loc request h
                rw [buildLoop_header hline (List.cons_ne_nil c line) hrequest]
                simp only [hrun]
                exact ih rest.length hlt hlen _ rest (agrees_mygetline rest (a := []) hlen) rfl

end Gusher
