import Gusher.Request.LineBuffer

/-!
# Safety of the header phase

A line that is only a newline makes `mygetline` look before the buffer, and a request line with
fewer than two spaces makes `start_request` use the null pointer.  On every other stream the
header phase comes to its end, and stays inside the line buffer.
-/

namespace Gusher

open CString

/-- The string that a line leaves in the buffer: a CR at its end is cut off, and a NUL ends
it. -/
def content (line : List UInt8) : List UInt8 :=
  if line.getLast? = some 13 then cstr line.dropLast else cstr line

/-- The lines that the header phase reads to their end: those that fit the buffer, up to the
first one that leaves an empty string. -/
def linesRead (stream : List UInt8) : List (List UInt8) :=
  match _h : index stream 10 with
  | none => []
  | some (line, rest) =>
      if line.length < lineSize then
        if content line = [] then [line] else line :: linesRead rest
      else []
  termination_by stream.length
  decreasing_by
    rw [(eq_of_index _h).1]
    simp
    omega

/-- No line that is read is only a newline, and the request line has two spaces. -/
structure Safe (stream : List UInt8) : Prop where
  no_bare : ∀ line ∈ linesRead stream, line ≠ []
  spaces : ∀ line ∈ (linesRead stream).head?, content line ≠ [] → 2 ≤ (content line).count 32

/-! ### One line -/

/-- A line that fits the buffer is read, if there is a byte before its newline. -/
theorem mygetline_newline {len : ℕ} {buf line : List UInt8} (rest : List UInt8)
    (hline : (10 : UInt8) ∉ line) (hlen : buf.length + line.length < len) :
  mygetline len buf (line ++ 10 :: rest)
    = if buf ++ line = [] then .fault else .ok (content (buf ++ line)) rest
  := by
  induction line generalizing buf with
  | nil =>
      rw [List.length_nil] at hlen
      rw [List.nil_append, List.append_nil, mygetline, if_neg (by omega), if_pos rfl, content]
      cases hlast : buf.getLast? with
      | none =>
          obtain rfl := List.getLast?_eq_none_iff.mp hlast
          rfl
      | some c =>
          have hne : buf ≠ [] := by
            rintro rfl
            cases hlast
          rw [if_neg hne]
          by_cases hc : c = 13
          · subst hc
            rw [if_pos rfl]
            rfl
          · rw [if_neg (by simpa using hc)]
            split
            case h_1 hnone => cases hnone
            case h_2 hsome => exact absurd (Option.some.inj hsome) hc
            case h_3 => rfl
  | cons c line ih =>
      simp only [List.mem_cons, not_or] at hline
      rw [List.length_cons] at hlen
      have hroom : (buf ++ [c]).length + line.length < len := by
        rw [List.length_append, List.length_singleton]
        omega
      rw [List.cons_append, mygetline, if_neg (by omega), if_neg (Ne.symm hline.1),
        ih hline.2 hroom, List.append_assoc, List.singleton_append]

/-- A line that does not fit the buffer is too long. -/
theorem mygetline_full {len : ℕ} {buf line : List UInt8} (rest : List UInt8)
    (hline : (10 : UInt8) ∉ line) (hbuf : buf.length ≤ len)
    (hlen : len ≤ buf.length + line.length) :
  ∃ rest', mygetline len buf (line ++ 10 :: rest) = .tooLong rest'
  := by
  induction line generalizing buf with
  | nil =>
      rw [List.length_nil] at hlen
      rw [List.nil_append, mygetline, if_pos (by omega)]
      exact ⟨_, rfl⟩
  | cons c line ih =>
      simp only [List.mem_cons, not_or] at hline
      rw [List.length_cons] at hlen
      rw [List.cons_append, mygetline]
      split
      case isTrue => exact ⟨_, rfl⟩
      case isFalse =>
          rw [if_neg (Ne.symm hline.1)]
          apply ih hline.2
          · rw [List.length_append, List.length_singleton]
            omega
          · rw [List.length_append, List.length_singleton]
            omega

/-- Without a newline the stream ends, or the buffer does. -/
theorem mygetline_no_newline {len : ℕ} {buf stream : List UInt8} (h : (10 : UInt8) ∉ stream) :
  mygetline len buf stream = .ended ∨ ∃ rest, mygetline len buf stream = .tooLong rest
  := by
  induction stream generalizing buf with
  | nil =>
      rw [mygetline]
      split
      · exact Or.inr ⟨_, rfl⟩
      · exact Or.inl rfl
  | cons c stream ih =>
      simp only [List.mem_cons, not_or] at h
      rw [mygetline]
      split
      · exact Or.inr ⟨_, rfl⟩
      · rw [if_neg (Ne.symm h.1)]
        apply ih h.2

/-- Both searches of `start_request` succeed when the line has two spaces. -/
theorem startRequest_eq_none_iff (loc : Locale) (line : List UInt8) :
  startRequest loc line = none ↔ line.count 32 < 2
  := by
  cases hfirst : index line 32 with
  | none =>
      have hcount := List.count_eq_zero.mpr (notMem_of_index hfirst)
      simp [startRequest, hfirst, hcount]
  | some r =>
      obtain ⟨a, b⟩ := r
      obtain ⟨rfl, ha⟩ := eq_of_index hfirst
      cases hsecond : index b 32 with
      | none =>
          simp [startRequest, hfirst, hsecond, List.count_append,
            List.count_eq_zero.mpr ha, List.count_eq_zero.mpr (notMem_of_index hsecond)]
      | some r =>
          obtain ⟨u, v⟩ := r
          obtain ⟨rfl, hu⟩ := eq_of_index hsecond
          simp [startRequest, hfirst, hsecond, List.count_append,
            List.count_eq_zero.mpr ha, List.count_eq_zero.mpr hu]

/-- `start_request` makes entries. -/
theorem startRequest_ne_nil {loc : Locale} {line : List UInt8} {request : Scm}
    (h : startRequest loc line = some request) :
  request ≠ .nil
  := by
  rintro rfl
  simp [startRequest, Option.bind_eq_some_iff, Scm.acons] at h

/-! ### All lines -/

theorem linesRead_of_none {stream : List UInt8} (h : index stream 10 = none) :
  linesRead stream = []
  := by
  rw [linesRead]
  split <;> simp_all

theorem linesRead_of_some {stream line rest : List UInt8}
    (h : index stream 10 = some (line, rest)) :
  linesRead stream
    = if line.length < lineSize then
        if content line = [] then [line] else line :: linesRead rest
      else []
  := by
  rw [linesRead]
  split <;> simp_all

/-- The header phase does not fault when no line is only a newline, and the first line, if there
is no request yet, has two spaces. -/
theorem buildLoop_ne_fault_iff (loc : Locale) (request : Scm) (stream : List UInt8) :
  buildLoop loc request stream ≠ .fault
    ↔ (∀ line ∈ linesRead stream, line ≠ []) ∧
      (request = .nil → ∀ line ∈ (linesRead stream).head?, content line ≠ [] →
        2 ≤ (content line).count 32)
  := by
  induction stream using linesRead.induct generalizing request with
  | case1 stream hnone =>
      rw [linesRead_of_none hnone]
      obtain hended | ⟨rest, htooLong⟩ :=
        @mygetline_no_newline lineSize [] _ (notMem_of_index hnone)
      · simp [buildLoop_ended hended]
      · simp [buildLoop_tooLong htooLong]
  | case2 stream line rest hsome hlen hempty =>
      obtain ⟨rfl, hline⟩ := eq_of_index hsome
      have hread := @mygetline_newline lineSize [] _ rest hline (by simpa using hlen)
      rw [linesRead_of_some hsome, if_pos hlen, if_pos hempty]
      rw [List.nil_append, hempty] at hread
      by_cases hbare : line = []
      · rw [if_pos hbare] at hread
        rw [buildLoop_fault hread]
        simp [hbare]
      · rw [if_neg hbare] at hread
        simp [buildLoop_empty hread, hbare, hempty]
  | case3 stream line rest hsome hlen hne ih =>
      obtain ⟨rfl, hline⟩ := eq_of_index hsome
      have hread := @mygetline_newline lineSize [] _ rest hline (by simpa using hlen)
      have hbare : line ≠ [] := by
        rintro rfl
        exact hne rfl
      rw [linesRead_of_some hsome, if_pos hlen, if_neg hne]
      rw [List.nil_append, if_neg hbare] at hread
      by_cases hrequest : request = .nil
      · subst hrequest
        cases hstart : startRequest loc (content line) with
        | none =>
            have hcount := (startRequest_eq_none_iff loc _).mp hstart
            simp [buildLoop_start_fault hread hne hstart, hbare, hne, hcount]
        | some request =>
            have hcount : ¬ (content line).count 32 < 2 := by
              intro hlt
              rw [(startRequest_eq_none_iff loc _).mpr hlt] at hstart
              cases hstart
            have hnil : request ≠ .nil := startRequest_ne_nil hstart
            rw [buildLoop_start hread hne hstart, ih]
            simp [hbare, hnil, Nat.le_of_not_lt hcount]
      · rw [buildLoop_header hread hne hrequest, ih]
        simp [hbare, hrequest, addHeader_ne_nil loc _ hrequest]
  | case4 stream line rest hsome hlen =>
      obtain ⟨rfl, hline⟩ := eq_of_index hsome
      obtain ⟨rest', htooLong⟩ := @mygetline_full lineSize [] _ rest hline
        (Nat.zero_le _) (by simpa using hlen)
      rw [linesRead_of_some hsome, if_neg hlen]
      simp [buildLoop_tooLong htooLong]

/-- On every stream the header phase comes to its end; it stays inside the line buffer, and uses
no null pointer, exactly when the stream is safe. -/
theorem header_phase_safe_iff (loc : Locale) {buf : List UInt8} (hbuf : buf.length = lineSize)
    (stream : List UInt8) :
  buildLoopAt loc buf .nil stream ≠ .fault ↔ Safe stream
  := by
  rw [buildLoopAt_eq loc hbuf, buildLoop_ne_fault_iff]
  constructor
  · rintro ⟨hbare, hspaces⟩
    exact ⟨hbare, hspaces rfl⟩
  · rintro ⟨hbare, hspaces⟩
    exact ⟨hbare, fun _ => hspaces⟩

theorem header_phase_safe_get :
  buildLoopAt latin1 (List.replicate lineSize 0) .nil (ascii "GET / HTTP/1.1" ++ crlf ++ crlf)
    ≠ .fault
  := by
  apply (header_phase_safe_iff latin1 List.length_replicate _).mpr
  have hlines : linesRead (ascii "GET / HTTP/1.1" ++ crlf ++ crlf)
      = [ascii "GET / HTTP/1.1" ++ [13], [13]] := by
    have hfirst : index (ascii "GET / HTTP/1.1" ++ crlf ++ crlf) 10
        = some (ascii "GET / HTTP/1.1" ++ [13], crlf) := by decide
    have hlast : index crlf 10 = some ([13], []) := by decide
    rw [linesRead_of_some hfirst, linesRead_of_some hlast]
    decide
  constructor
  · rw [hlines]
    decide
  · rw [hlines]
    decide

/-- A newline at the start of the stream, and a request line with one space. -/
theorem header_phase_faults :
  buildLoopAt latin1 (List.replicate lineSize 0) .nil [10] = .fault ∧
  buildLoopAt latin1 (List.replicate lineSize 0) .nil (ascii "GET /" ++ crlf ++ crlf) = .fault
  := by
  rw [buildLoopAt_eq latin1 List.length_replicate, buildLoopAt_eq latin1 List.length_replicate]
  constructor
  · exact buildLoop_fault rfl
  · apply @buildLoop_start_fault latin1 _ (ascii "GET /") crlf
    · decide
    · decide
    · decide

end Gusher
