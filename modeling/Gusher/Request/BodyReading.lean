import Gusher.Request.Body

/-!
# The bytes that the parser of a body gets

Both loops come to their end, inside their memory, and hand to the parser what they have read,
when the bytes announced arrive.  A peer that closes the connection early is asked for the rest for
ever.  The result -1 is used as a count: it moves the pointer of `form_urlencoded` before its buffer,
and it lets `form_multipart` count up to the greatest `int`, after which the map is too large.
-/

namespace Gusher

open CString

/-- The parser gets the bytes that were read, in order. -/
def Delivers (sock : Socket) : Progress Handed → Prop
  | .done .raised => True
  | .done .nothing => True
  | .done (.string buf rest) =>
      ∃ received, Memory.string buf 0 = some received ∧ sock.bytes = received ++ rest.bytes
  | .done (.map m rest) => sock.bytes = m ++ rest.bytes
  | _ => False

/-- There is no memory for the body, or the length is not negative, so many bytes arrive, and none
of them is NUL. -/
def UrlencodedArrives (loc : Locale) (platform : Platform) (request : Scm) (sock : Socket) :
    Prop :=
  ∀ length, requestLength loc request = some length →
    platform.malloc (sizeT (min length postMemMax + 1)) = none ∨
    ∃ n : ℕ, min length postMemMax = n ∧ n ≤ sock.bytes.length ∧ (0 : UInt8) ∉ sock.bytes.take n

/-- The number of bytes after which the loop of `form_multipart` stops, if it has to read at all:
the first count may take a negative counter below the least `int`. -/
def announced (clength first : ℤ) : ℤ :=
  if clength - first < -2 ^ 31 then clength + 2 ^ 32 else clength

/-- So many bytes arrive, or none at all when none are announced and the peer closes. -/
def Arrives (clength : ℤ) (sock : Socket) : Prop :=
  (sock.bytes = [] → sock.ending = .closed ∧ clength < 1) ∧
  (sock.bytes ≠ [] → announced clength (sock.read chunkSize).count ≤ sock.bytes.length)

/-- The connection fails, and nothing is mapped: no byte has arrived, or the first count does not
take the counter below the least `int`, or the map of what the counter then leaves fails. -/
def Unmapped (platform : Platform) (clength : ℤ) (sock : Socket) : Prop :=
  sock.ending = .failed ∧ (sock.bytes = [] ∨ -2 ^ 31 ≤ clength - (sock.read chunkSize).count
    ∨ platform.mmap (clength + 2 ^ 31).toNat = false)

/-- If the length can be read, the bytes arrive that it announces, or nothing is mapped. -/
def MultipartArrives (loc : Locale) (platform : Platform) (request : Scm) (sock : Socket) : Prop :=
  ∀ clength, requestLength loc request = some clength →
    Arrives clength sock ∨ Unmapped platform clength sock

/-! ### The loop of `form_urlencoded` -/

/-- The part `a` of the text is stored, and the rest `b` is the next on the socket, for which there
is room in the buffer. -/
structure Reading.Holds (text left a b : List UInt8) (s : Reading) : Prop where
  text_eq : text = a ++ b
  bytes_eq : s.sock.bytes = b ++ left
  length_eq : s.length = b.length
  pt_eq : s.pt = a.length
  buf_eq : ∃ x, s.buf = a ++ x ∧ x.length = b.length + 1

/-- A round stores what it reads after what is stored. -/
theorem readRound_next {text left a b : List UInt8} {s : Reading} (h : s.Holds text left a b)
    (hint : text.length < 2 ^ 31) (hne : b ≠ []) :
  ∃ s' a' b', readRound s = .next s' ∧ s'.Holds text left a' b' ∧ b'.length < b.length
  := by
  obtain ⟨htext, hbytes, hlength, hpt, x, hbuf, hx⟩ := h
  have hpos : 0 < b.length := List.length_pos_iff.mpr hne
  have hbytes_ne : s.sock.bytes ≠ [] := by simp [hbytes, hne]
  obtain ⟨data, rest, hread, hdata, hle, hsplit, -⟩ := Socket.exists_of_read hbytes_ne hpos
  have hdatapos : 0 < data.length := List.length_pos_iff.mpr hdata
  obtain ⟨b', rfl⟩ : data <+: b := by
    have hprefix : data <+: s.sock.bytes := ⟨rest.bytes, hsplit.symm⟩
    exact List.prefix_of_prefix_length_le hprefix ⟨left, hbytes.symm⟩ hle
  have hrest : rest.bytes = b' ++ left := by
    rw [hbytes, List.append_assoc] at hsplit
    exact (List.append_cancel_left hsplit).symm
  have hcopy : Memory.copy s.buf s.pt data = some (a ++ data ++ x.drop data.length) := by
    apply Memory.copy_eq (s := x.take data.length) _ hpt
    · rw [List.length_take_of_le]
      rw [hx, List.length_append]
      omega
    · rw [List.take_append_drop, hbuf]
  have hcount : s.length - data.length = b'.length := by
    rw [hlength, List.length_append]
    omega
  rw [htext, List.length_append, List.length_append] at hint
  refine ⟨⟨a ++ data ++ x.drop data.length, s.pt + data.length, s.length - data.length, rest⟩,
    a ++ data, b', ?_, ⟨?_, hrest, hcount, ?_, x.drop data.length, rfl, ?_⟩, ?_⟩
  · rw [readRound, if_pos (by omega), hlength, Int.toNat_natCast, hread]
    simp only [hcopy]
    rw [← hlength, hcount, if_pos ⟨by omega, by omega⟩]
  · rw [htext, List.append_assoc]
  · simp [hpt]
  · rw [List.length_drop, hx, List.length_append]
    omega
  · rw [List.length_append]
    omega

/-- The bytes announced are stored one after the other. -/
theorem readLoop_done {text left : List UInt8} {s : Reading} (h : s.Holds text left [] text)
    (hint : text.length < 2 ^ 31) :
  ∃ fuel s', Loop.run readRound fuel s = .done s' ∧ s'.Holds text left text []
  := by
  apply Loop.exists_run_eq_done (fun s : Reading => ∃ a b, s.Holds text left a b)
    (fun s => s.length.toNat) _ ⟨[], text, h⟩
  rintro s ⟨a, b, hs⟩
  by_cases hb : b = []
  · subst hb
    left
    refine ⟨s, ?_, ?_⟩
    · rw [readRound, if_neg]
      simp [hs.length_eq]
    · have htext := hs.text_eq
      rw [List.append_nil] at htext
      rw [htext] at hs ⊢
      exact hs
  · right
    obtain ⟨s', a', b', hround, hs', hlt⟩ := readRound_next hs hint hb
    refine ⟨s', hround, ⟨a', b', hs'⟩, ?_⟩
    rw [hs.length_eq, hs'.length_eq]
    simpa using hlt

/-- When fewer bytes arrive, the loop does not come to its end. -/
theorem readLoop_ne_done {fuel : ℕ} {s s' : Reading} (h : s.sock.bytes.length < s.length) :
  Loop.run readRound fuel s ≠ .done s'
  := by
  apply Loop.run_ne_done (fun s : Reading => s.sock.bytes.length < s.length) _ h
  clear h s
  intro s h
  rw [readRound, if_pos (by omega)]
  dsimp only
  split
  case h_1 => exact Or.inl rfl
  case h_2 buf _ =>
      split
      case isFalse => exact Or.inl rfl
      case isTrue =>
          right
          refine ⟨_, rfl, ?_⟩
          by_cases hnil : s.sock.bytes = []
          · rw [Socket.read_of_bytes_eq_nil hnil]
            -- the result 0 leaves the counter as it is, and -1 makes it greater
            cases hending : s.sock.ending with
            | closed => simpa [hnil, Ending.result] using h
            | failed =>
                simp only [hnil, List.length_nil, Ending.result] at h ⊢
                omega
          · obtain ⟨data, rest, hread, -, -, hbytes, -⟩ :=
              @Socket.exists_of_read s.sock s.length.toNat hnil (by omega)
            rw [hread]
            rw [hbytes, List.length_append] at h
            dsimp only
            omega

/-- A text and a NUL after it are a string, whose bytes end at the first NUL. -/
theorem string_append_zero (text : List UInt8) :
  Memory.string (text ++ [0]) 0 = some (cstr text)
  := by
  obtain ⟨tail, htail⟩ := exists_append_zero text []
  exact @Memory.string_eq _ [] tail _ 0 htail rfl (zero_notMem_cstr text)

/-- The length of the body is an `int`. -/
theorem isInt_of_requestLength {loc : Locale} {request : Scm} {length : ℤ}
    (h : requestLength loc request = some length) :
  IsInt length
  := by
  unfold requestLength at h
  dsimp only at h
  split at h
  case isTrue =>
      obtain rfl := Option.some.inj h
      exact ⟨by omega, by omega⟩
  case isFalse =>
      obtain ⟨s, -, rfl⟩ := Option.map_eq_some_iff.mp h
      exact ⟨le_bmod _, bmod_lt _⟩

/-- From the allocation of a buffer for the bytes announced and a NUL on, the parser gets them when
they arrive. -/
theorem readString_done {text left buf : List UInt8} (hbuf : buf.length = text.length + 1)
    (hint : text.length < 2 ^ 31) {sock : Socket} (hbytes : sock.bytes = text ++ left) :
  ∃ fuel rest, readString buf text.length sock fuel = .done (.string (text ++ [0]) rest) ∧
    rest.bytes = left
  := by
  obtain ⟨fuel, s, hrun, hs⟩ :=
    @readLoop_done text left ⟨buf, 0, text.length, sock⟩ ⟨rfl, hbytes, rfl, rfl, buf, rfl, hbuf⟩ hint
  obtain ⟨x, hx, hxlen⟩ := hs.buf_eq
  obtain ⟨c, rfl⟩ := List.length_eq_one_iff.mp hxlen
  have hstore : Memory.store s.buf s.pt 0 = some (text ++ [0]) := Memory.store_eq hx hs.pt_eq
  refine ⟨fuel, s.sock, ?_, hs.bytes_eq⟩
  rw [readString, hrun]
  simp only [hstore]

/-- The parser gets one string. -/
theorem readString_det {buf : List UInt8} {length : ℤ} {sock : Socket} {fuel fuel' : ℕ}
    {r r' : Handed} (h : readString buf length sock fuel = .done r)
    (h' : readString buf length sock fuel' = .done r') :
  r = r'
  := by
  have hbind : ∀ fuel, readString buf length sock fuel
      = (Loop.run readRound fuel ⟨buf, 0, length, sock⟩).bind (fun s =>
          (Memory.store s.buf s.pt 0).elim .fault (fun buf => .done (.string buf s.sock))) := by
    intro fuel
    rw [readString]
    cases Loop.run readRound fuel ⟨buf, 0, length, sock⟩ with
    | running => rfl
    | fault => rfl
    | done s =>
        simp only [Progress.bind]
        cases Memory.store s.buf s.pt 0 <;> rfl
  rw [hbind] at h h'
  exact Loop.bind_run_det h h'

/-- From the allocation of a buffer for `n` bytes and a NUL on, the parser gets what is read exactly
when `n` bytes arrive, and none of them is NUL. -/
theorem readString_iff {n : ℕ} {buf : List UInt8} (hbuf : buf.length = n + 1) (hn : n < 2 ^ 31)
    (sock : Socket) :
  (∃ fuel, Delivers sock (readString buf n sock fuel))
    ↔ n ≤ sock.bytes.length ∧ (0 : UInt8) ∉ sock.bytes.take n
  := by
  by_cases hle : n ≤ sock.bytes.length
  · have hlen : (sock.bytes.take n).length = n := List.length_take_of_le hle
    have hbytes := (List.take_append_drop n sock.bytes).symm
    generalize sock.bytes.take n = text at hlen hbytes
    generalize sock.bytes.drop n = left at hbytes
    subst hlen
    obtain ⟨fuel, rest, hdone, hrest⟩ := readString_done hbuf hn hbytes
    have hstring := string_append_zero text
    constructor
    · rintro ⟨fuel', h⟩
      cases hdone' : readString buf text.length sock fuel' with
      | running => simp [hdone', Delivers] at h
      | fault => simp [hdone', Delivers] at h
      | done r =>
          obtain rfl := readString_det hdone hdone'
          simp only [hdone', Delivers, hstring, Option.some.injEq] at h
          obtain ⟨received, rfl, hreceived⟩ := h
          rw [hrest, hbytes] at hreceived
          refine ⟨hle, ?_⟩
          rw [List.append_cancel_right hreceived]
          apply zero_notMem_cstr
    · rintro ⟨-, hnul⟩
      use fuel
      rw [hdone]
      simp only [Delivers, hstring, cstr_of_not_mem hnul]
      exact ⟨text, rfl, by rw [hrest, hbytes]⟩
  · constructor
    · rintro ⟨fuel, h⟩
      unfold readString at h
      cases hrun : Loop.run readRound fuel ⟨buf, 0, n, sock⟩ with
      | running => simp [hrun, Delivers] at h
      | fault => simp [hrun, Delivers] at h
      | done s =>
          refine absurd hrun (readLoop_ne_done ?_)
          dsimp only
          omega
    · rintro ⟨hle', -⟩
      exact absurd hle' hle

/-- A buffer of no bytes has no room for the NUL. -/
theorem not_delivers_readString {length : ℤ} (hneg : length < 0) (sock : Socket) (fuel : ℕ) :
  ¬ Delivers sock (readString [] length sock fuel)
  := by
  cases fuel with
  | zero => exact id
  | succ fuel =>
      have hround : readRound ⟨[], 0, length, sock⟩ = .stop ⟨[], 0, length, sock⟩ := by
        rw [readRound, if_neg (by dsimp only; omega)]
      rw [readString, Loop.run_stop hround]
      exact id

/-- `form_urlencoded` hands to the parser what it reads exactly when the bytes announced arrive. -/
theorem readUrlencoded_iff (loc : Locale) (platform : Platform) (request : Scm) (sock : Socket) :
  (∃ fuel, Delivers sock (readUrlencoded loc platform request sock fuel))
    ↔ UrlencodedArrives loc platform request sock
  := by
  unfold UrlencodedArrives readUrlencoded
  cases hrequest : requestLength loc request with
  | none => simp [Delivers]
  | some length =>
      obtain ⟨hlow, -⟩ := isInt_of_requestLength hrequest
      have hmin : (if length > postMemMax then (postMemMax : ℤ) else length)
          = min length postMemMax := by
        split <;> omega
      have hmax : min length postMemMax ≤ 1000000 := Int.min_le_right _ _
      have hlow' : -2 ^ 31 ≤ min length postMemMax := by
        rw [postMemMax]
        omega
      simp only [hmin, Option.some.injEq, forall_eq']
      generalize min length (postMemMax : ℤ) = length at hmax hlow'
      cases hmalloc : platform.malloc (sizeT (length + 1)) with
      | none => simp [Delivers]
      | some buf =>
          have hlen := platform.length_malloc hmalloc
          simp only [reduceCtorEq, false_or]
          by_cases hneg : length < 0
          · have hminus : length = -1 := by
              by_contra hne
              rw [platform.malloc_huge (le_sizeT (by omega) (by omega))] at hmalloc
              cases hmalloc
            subst hminus
            obtain rfl : buf = [] := List.eq_nil_of_length_eq_zero hlen
            constructor
            · rintro ⟨fuel, h⟩
              exact absurd h (not_delivers_readString hneg sock fuel)
            · rintro ⟨n, hn, -⟩
              omega
          · obtain ⟨n, rfl⟩ := Int.eq_ofNat_of_zero_le (Int.not_lt.mp hneg)
            have hsize : ((n : ℤ) + 1) = (n + 1 : ℕ) := rfl
            rw [hsize, sizeT_natCast (by omega)] at hlen
            rw [readString_iff hlen (by omega)]
            constructor
            · intro h
              exact ⟨n, rfl, h⟩
            · rintro ⟨m, hm, h⟩
              rw [Int.ofNat.inj hm]
              exact h

/-! ### The loop of `form_multipart` -/

/-- The state after the bytes `data` were read into the buffer and written to the file. -/
def Copying.after (s : Copying) (buf data : List UInt8) (rest : Socket) : Copying where
  buf := buf
  file := s.file ++ data
  maplen := sizeT (s.maplen + data.length)
  clength := Int.bmod (s.clength - data.length) (2 ^ 32)
  sock := rest

/-- A round writes to the file what it reads, and stops when the counter is no longer positive. -/
theorem copyRound_of_bytes {s : Copying} (hbuf : s.buf.length = chunkSize)
    (h : s.sock.bytes ≠ []) :
  ∃ buf data rest, s.sock.read chunkSize = ⟨data.length, data, rest⟩ ∧ data ≠ [] ∧
    data.length ≤ chunkSize ∧ s.sock.bytes = data ++ rest.bytes ∧ rest.ending = s.sock.ending ∧
    buf.length = chunkSize ∧ copyRound s =
      if (s.after buf data rest).clength ≤ 0 then .stop (s.after buf data rest)
      else .next (s.after buf data rest)
  := by
  obtain ⟨data, rest, hread, hdata, hle, hbytes, hending⟩ :=
    @Socket.exists_of_read s.sock chunkSize h (by decide)
  have hpos : 0 < data.length := List.length_pos_iff.mpr hdata
  have hlen : data.length < 2 ^ 63 := Nat.lt_of_le_of_lt hle (by decide)
  have hcopy : Memory.copy s.buf 0 data = some (data ++ s.buf.drop data.length) := by
    apply @Memory.copy_eq _ [] (s.buf.drop data.length) (s.buf.take data.length) _ _ rfl data
    · rw [List.length_take_of_le (by omega)]
    · rw [List.take_append_drop, List.nil_append]
  have hout : fileWrite (data ++ s.buf.drop data.length) data.length = some data := by
    rw [fileWrite, if_neg (by omega)]
    exact @Memory.bytes_eq _ [] _ data 0 rfl data.length rfl rfl
  refine ⟨data ++ s.buf.drop data.length, data, rest, hread, hdata, hle, hbytes, hending, ?_, ?_⟩
  · rw [List.length_append, List.length_drop]
    omega
  · rw [copyRound, hread]
    dsimp only
    rw [sizeT_natCast hlen, if_neg (by omega), hcopy]
    dsimp only
    rw [hout]
    rfl

theorem copyRound_of_closed {s : Copying} (h : s.sock.bytes = [])
    (hending : s.sock.ending = .closed) :
  copyRound s = if s.clength < 1 then .stop s else .next s
  := by
  rw [copyRound, Socket.read_of_bytes_eq_nil h, hending]
  rfl

/-- The result -1 is the greatest `size_t`: nothing is written, and the counter goes up. -/
theorem copyRound_of_failed {s : Copying} (h : s.sock.bytes = []) (hending : s.sock.ending = .failed) :
  copyRound s
    = if Int.bmod (s.clength + 1) (2 ^ 32) ≤ 0 then
        .stop { s with maplen := sizeT (s.maplen - 1), clength := Int.bmod (s.clength + 1) (2 ^ 32) }
      else .next { s with
        maplen := sizeT (s.maplen - 1), clength := Int.bmod (s.clength + 1) (2 ^ 32) }
  := by
  have hsize : sizeT (-1) = 2 ^ 64 - 1 := by decide
  have hcopy : Memory.copy s.buf 0 [] = some s.buf := rfl
  have hout : fileWrite s.buf (2 ^ 64 - 1) = some [] := if_pos (by decide)
  have hlength : Int.bmod (s.clength - (2 ^ 64 - 1 : ℕ)) (2 ^ 32)
      = Int.bmod (s.clength + 1) (2 ^ 32) := by
    have hshift : s.clength - (2 ^ 64 - 1 : ℕ) = s.clength + 1 + (2 ^ 32 : ℕ) * (-2 ^ 32) := by
      omega
    rw [hshift, Int.add_mul_bmod_self_left]
  have hmaplen : sizeT (s.maplen + (2 ^ 64 - 1 : ℕ)) = sizeT (s.maplen - 1) := by
    unfold sizeT
    omega
  rw [copyRound, Socket.read_of_bytes_eq_nil h, hending]
  have hne : ¬ (2 ^ 64 - 1 : ℕ) = 0 := by decide
  simp only [Ending.result, hsize, hne, if_false, hcopy, hout, hlength, hmaplen, List.append_nil]

/-- The file has all that was read from the bytes `text`, and at least the bytes announced are
still to come. -/
structure Copying.Expects (text : List UInt8) (s : Copying) : Prop where
  buf_length : s.buf.length = chunkSize
  text_eq : text = s.file ++ s.sock.bytes
  maplen_eq : s.maplen = s.file.length
  pos : 0 < s.clength
  le : s.clength ≤ s.sock.bytes.length
  int : s.clength < 2 ^ 31
  small : s.file.length + s.clength < 2 ^ 62

/-- All that was read from the bytes `text` is in the file. -/
def Copying.Complete (text : List UInt8) (s : Copying) : Prop :=
  text = s.file ++ s.sock.bytes ∧ s.maplen = s.file.length

/-- The loop reads at least the bytes announced. -/
theorem copyLoop_done {text : List UInt8} {s : Copying} (h : s.Expects text) :
  ∃ fuel s', Loop.run copyRound fuel s = .done s' ∧ s'.Complete text ∧
    s.file.length + s.clength ≤ s'.file.length
  := by
  generalize hend : s.file.length + s.clength = length
  apply Loop.exists_run_eq_done (fun s : Copying => s.Expects text ∧
    s.file.length + s.clength = length) (fun s => s.sock.bytes.length) _ ⟨h, hend⟩
  clear h hend s
  intro s ⟨⟨hbuf, htext, hmaplen, hpos, hle, hint, hsmall⟩, hend⟩
  have hne : s.sock.bytes ≠ [] := by
    apply List.ne_nil_of_length_pos
    omega
  obtain ⟨buf, data, rest, -, hdata, hlen, hbytes, -, hbuf', hround⟩ := copyRound_of_bytes hbuf hne
  have hdatapos : 0 < data.length := List.length_pos_iff.mpr hdata
  have hmod : Int.bmod (s.clength - data.length) (2 ^ 32) = s.clength - data.length := by
    rw [chunkSize] at hlen
    apply bmod_eq_self
    · omega
    · omega
  have htext' : text = (s.file ++ data) ++ rest.bytes := by
    rw [htext, hbytes, List.append_assoc]
  have hmaplen' : sizeT (s.maplen + data.length) = (s.file ++ data).length := by
    rw [chunkSize] at hlen
    rw [hmaplen, List.length_append]
    apply sizeT_natCast
    omega
  have hsplit := congrArg List.length hbytes
  rw [List.length_append] at hsplit
  rw [hround]
  split
  case isTrue hstop =>
      refine Or.inl ⟨_, rfl, ⟨htext', hmaplen'⟩, ?_⟩
      simp only [Copying.after, hmod, List.length_append] at hstop ⊢
      omega
  case isFalse hmore =>
      rw [Copying.after, hmod] at hmore
      dsimp only at hmore
      refine Or.inr ⟨_, rfl, ⟨⟨hbuf', htext', hmaplen', ?_, ?_, ?_, ?_⟩, ?_⟩, ?_⟩
      all_goals
        simp only [Copying.after, hmod, List.length_append]
        omega

/-- When the peer closes and fewer bytes have arrived than are announced, the loop does not come to
its end. -/
theorem copyLoop_ne_done {fuel : ℕ} {s s' : Copying} (hbuf : s.buf.length = chunkSize)
    (hending : s.sock.ending = .closed) (h : s.sock.bytes.length < s.clength)
    (hint : s.clength < 2 ^ 31) :
  Loop.run copyRound fuel s ≠ .done s'
  := by
  apply Loop.run_ne_done (fun s : Copying => s.buf.length = chunkSize ∧ s.sock.ending = .closed ∧
    s.sock.bytes.length < s.clength ∧ s.clength < 2 ^ 31) _ ⟨hbuf, hending, h, hint⟩
  clear hbuf hending h hint s
  intro s ⟨hbuf, hending, h, hint⟩
  right
  by_cases hnil : s.sock.bytes = []
  · refine ⟨s, ?_, hbuf, hending, h, hint⟩
    rw [copyRound_of_closed hnil hending, if_neg]
    omega
  · obtain ⟨buf, data, rest, -, hdata, hlen, hbytes, hrest, hbuf', hround⟩ :=
      copyRound_of_bytes hbuf hnil
    have hmod : Int.bmod (s.clength - data.length) (2 ^ 32) = s.clength - data.length := by
      rw [chunkSize] at hlen
      apply bmod_eq_self
      · omega
      · omega
    have hsplit := congrArg List.length hbytes
    rw [List.length_append] at hsplit
    refine ⟨s.after buf data rest, ?_, hbuf', hrest.trans hending, ?_, ?_⟩
    · rw [hround, if_neg]
      simp only [Copying.after, hmod]
      omega
    · simp only [Copying.after, hmod]
      omega
    · simp only [Copying.after, hmod]
      omega

/-- The connection fails before the bytes announced have arrived, and the size of the file and the
counter are together `total`. -/
structure Copying.Starved (text : List UInt8) (total : ℤ) (s : Copying) : Prop where
  buf_length : s.buf.length = chunkSize
  ending : s.sock.ending = .failed
  text_eq : text = s.file ++ s.sock.bytes
  maplen_eq : s.maplen = sizeT (total - s.clength)
  less : s.sock.bytes.length < s.clength ∨ s.sock.bytes = [] ∧ 0 ≤ s.clength
  int : s.clength < 2 ^ 31

/-- What becomes less in each round: there are bytes left, or the counter can still count up. -/
def Copying.left (s : Copying) : ℕ :=
  2 * s.sock.bytes.length + (2 ^ 31 - s.clength).toNat

/-- A round after the error counts up, and is the last one at the greatest `int`. -/
theorem Copying.Starved.counts_up {text : List UInt8} {total : ℤ} {s : Copying}
    (h : s.Starved text total) (hnil : s.sock.bytes = []) :
  (∃ t, copyRound s = .stop t ∧ t.maplen = sizeT (total - 2 ^ 31) ∧ t.file = text
      ∧ t.sock.bytes = [])
    ∨ ∃ t, copyRound s = .next t ∧ t.Starved text total ∧ t.left < s.left
  := by
  obtain ⟨hbuf, hending, htext, hmaplen, hless, hint⟩ := h
  have hnonneg : 0 ≤ s.clength := by
    rcases hless with hless | ⟨-, hless⟩ <;> omega
  have hdown : sizeT (s.maplen - 1) = sizeT (total - (s.clength + 1)) := by
    rw [hmaplen]
    unfold sizeT
    omega
  rw [copyRound_of_failed hnil hending]
  by_cases hlast : s.clength = 2 ^ 31 - 1
  · left
    have hwrap : Int.bmod (s.clength + 1) (2 ^ 32) = -2 ^ 31 := by
      rw [hlast]
      decide
    rw [hwrap, if_pos (by decide)]
    refine ⟨_, rfl, ?_, ?_, hnil⟩
    · dsimp only
      rw [hdown, hlast, Int.sub_add_cancel]
    · rw [htext, hnil, List.append_nil]
  · right
    have hup : Int.bmod (s.clength + 1) (2 ^ 32) = s.clength + 1 :=
      bmod_eq_self (by omega) (by omega)
    rw [hup, if_neg (by omega)]
    refine ⟨_, rfl, ⟨hbuf, hending, htext, hdown, Or.inr ⟨hnil, by dsimp only; omega⟩, ?_⟩, ?_⟩
    · dsimp only
      omega
    · simp only [Copying.left]
      omega

/-- A round before the error takes some of the bytes. -/
theorem Copying.Starved.takes {text : List UInt8} {total : ℤ} {s : Copying} (h : s.Starved text total)
    (hne : s.sock.bytes ≠ []) :
  ∃ t, copyRound s = .next t ∧ t.Starved text total ∧ t.left < s.left
  := by
  obtain ⟨hbuf, hending, htext, hmaplen, hless, hint⟩ := h
  have hlt : s.sock.bytes.length < s.clength := hless.resolve_right (fun h => hne h.1)
  obtain ⟨buf, data, rest, -, hdata, hlen, hbytes, hrest, hbuf', hround⟩ :=
    copyRound_of_bytes hbuf hne
  have hdatapos : 0 < data.length := List.length_pos_iff.mpr hdata
  have hmod : Int.bmod (s.clength - data.length) (2 ^ 32) = s.clength - data.length := by
    rw [chunkSize] at hlen
    apply bmod_eq_self
    · omega
    · omega
  have hsplit := congrArg List.length hbytes
  rw [List.length_append] at hsplit
  refine ⟨s.after buf data rest, ?_, ⟨hbuf', hrest.trans hending, ?_, ?_, ?_, ?_⟩, ?_⟩
  · rw [hround, if_neg]
    simp only [Copying.after, hmod]
    omega
  · rw [htext, hbytes, ← List.append_assoc]
    rfl
  · simp only [Copying.after, hmod, hmaplen]
    unfold sizeT
    omega
  · simp only [Copying.after, hmod]
    omega
  · simp only [Copying.after, hmod]
    omega
  · simp only [Copying.left, Copying.after, hmod]
    omega

/-- After an error the counter counts up to the greatest `int` and the size of the map down, until the
counter is negative. -/
theorem copyLoop_failed {text : List UInt8} {total : ℤ} {s : Copying} (h : s.Starved text total) :
  ∃ fuel s', Loop.run copyRound fuel s = .done s' ∧ s'.maplen = sizeT (total - 2 ^ 31)
    ∧ s'.file = text ∧ s'.sock.bytes = []
  := by
  apply Loop.exists_run_eq_done (fun s : Copying => s.Starved text total) Copying.left _ h
  intro s hs
  by_cases hnil : s.sock.bytes = []
  · exact hs.counts_up hnil
  · exact Or.inr (hs.takes hnil)

/-- After `n` bytes, `m` more are enough when the counter has come down to `m`. -/
theorem announced_le_iff {clength : ℤ} {n : ℕ} (hint : IsInt clength) (hn : n ≤ chunkSize) (m : ℕ) :
  announced clength n ≤ (n + m : ℕ) ↔ Int.bmod (clength - n) (2 ^ 32) ≤ m
  := by
  obtain ⟨hlow, hhigh⟩ := hint
  rw [chunkSize] at hn
  unfold announced
  split
  case isTrue hlt =>
      rw [bmod_eq_add (by omega) hlt]
      omega
  case isFalse hge =>
      rw [bmod_eq_self (by omega) (by omega)]
      omega

/-- The state before the first round. -/
structure Copying.Initial (s : Copying) : Prop where
  buf_length : s.buf.length = chunkSize
  file_eq : s.file = []
  maplen_eq : s.maplen = 0
  int : IsInt s.clength

/-- When there are bytes, the first round reads some of them, and what is announced then is what
the counter says. -/
theorem exists_first_round {s : Copying} (h : s.Initial) (hne : s.sock.bytes ≠ []) :
  ∃ t : Copying, copyRound s = (if t.clength ≤ 0 then .stop t else .next t) ∧
    t.Complete s.sock.bytes ∧ t.buf.length = chunkSize ∧ t.clength < 2 ^ 31 ∧
    t.file.length ≤ chunkSize ∧ t.sock.ending = s.sock.ending ∧
    (s.sock.read chunkSize).count = t.file.length ∧
    t.clength = Int.bmod (s.clength - t.file.length) (2 ^ 32) ∧
    (Arrives s.clength s.sock ↔ t.clength ≤ t.sock.bytes.length)
  := by
  obtain ⟨hbuf, hfile, hmaplen, hint⟩ := h
  obtain ⟨buf, data, rest, hread, -, hlen, hsplit, hending, hbuf', hround⟩ :=
    copyRound_of_bytes hbuf hne
  have hmax : data.length < 2 ^ 63 := Nat.lt_of_le_of_lt hlen (by decide)
  have hdata : (s.after buf data rest).file = data := by
    rw [Copying.after, hfile, List.nil_append]
  refine ⟨s.after buf data rest, hround, ⟨?_, ?_⟩, hbuf', bmod_lt _, ?_, hending, ?_, ?_, ?_⟩
  · rw [hdata, hsplit]
    rfl
  · rw [hdata, Copying.after, hmaplen]
    dsimp only
    rw [Int.natCast_zero, Int.zero_add, sizeT_natCast hmax]
  · rw [hdata]
    exact hlen
  · rw [hdata, hread]
  · rw [hdata]
    rfl
  · have hiff := announced_le_iff hint hlen rest.bytes.length
    rw [← List.length_append, ← hsplit] at hiff
    rw [Arrives, hread]
    constructor
    · rintro ⟨-, hcons⟩
      exact hiff.mp (hcons hne)
    · intro hle
      exact ⟨fun hnil => absurd hnil hne, fun _ => hiff.mpr hle⟩

/-- When the bytes announced arrive, the loop comes to its end, and the file has what was read. -/
theorem copyLoop_done_of_arrives {s : Copying} (h : s.Initial) (harrives : Arrives s.clength s.sock) :
  ∃ fuel t, Loop.run copyRound fuel s = .done t ∧ t.Complete s.sock.bytes
  := by
  by_cases hnil : s.sock.bytes = []
  · obtain ⟨hending, hlt⟩ := harrives.1 hnil
    have hround := copyRound_of_closed hnil hending
    rw [if_pos hlt] at hround
    refine ⟨1, s, Loop.run_stop hround, ?_, ?_⟩
    · rw [h.file_eq, List.nil_append]
    · rw [h.maplen_eq, h.file_eq, List.length_nil]
  · obtain ⟨t, hround, hcomplete, hbuf, hhigh, hfile, -, -, -, hiff⟩ := exists_first_round h hnil
    by_cases hstop : t.clength ≤ 0
    · rw [if_pos hstop] at hround
      exact ⟨1, t, Loop.run_stop hround, hcomplete⟩
    · rw [if_neg hstop] at hround
      have hle := hiff.mp harrives
      rw [chunkSize] at hfile
      obtain ⟨fuel, t', hrun, ht', -⟩ := copyLoop_done
        ⟨hbuf, hcomplete.1, hcomplete.2, Int.not_le.mp hstop, hle, hhigh, by omega⟩
      exact ⟨fuel + 1, t', (Loop.run_next hround).trans hrun, ht'⟩

/-- When the peer closes, the loop comes to its end only when the bytes announced have arrived. -/
theorem arrives_of_copyLoop_done {s t : Copying} {fuel : ℕ} (h : s.Initial)
    (hending : s.sock.ending = .closed) (hrun : Loop.run copyRound fuel s = .done t) :
  Arrives s.clength s.sock
  := by
  cases fuel with
  | zero => cases hrun
  | succ fuel =>
      by_cases hnil : s.sock.bytes = []
      · refine ⟨fun _ => ⟨hending, ?_⟩, fun hne => absurd hnil hne⟩
        by_contra hge
        refine absurd hrun (copyLoop_ne_done h.buf_length hending ?_ h.int.2)
        rw [hnil, List.length_nil]
        omega
      · obtain ⟨t, hround, -, hbuf, hhigh, -, hending', -, -, hiff⟩ := exists_first_round h hnil
        apply hiff.mpr
        by_contra hlt
        rw [if_neg (by omega)] at hround
        rw [Loop.run_next hround] at hrun
        exact absurd hrun
          (copyLoop_ne_done hbuf (hending'.trans hending) (Int.not_le.mp hlt) hhigh)

/-- When the connection fails before the bytes announced have arrived, the loop comes to its end; what
is mapped then is more than half of the address space, unless the first count has taken the counter
below the least `int`. -/
theorem copyLoop_done_of_failed {s : Copying} (h : s.Initial) (hending : s.sock.ending = .failed)
    (hmissing : ¬ Arrives s.clength s.sock) :
  ∃ fuel t, Loop.run copyRound fuel s = .done t ∧ t.file = s.sock.bytes ∧ t.sock.bytes = []
    ∧ (2 ^ 63 ≤ t.maplen
        ∧ (s.sock.bytes = [] ∨ -2 ^ 31 ≤ s.clength - (s.sock.read chunkSize).count)
      ∨ s.sock.bytes ≠ [] ∧ s.clength - (s.sock.read chunkSize).count < -2 ^ 31
        ∧ t.maplen = (s.clength + 2 ^ 31).toNat ∧ t.maplen < s.sock.bytes.length)
  := by
  obtain ⟨hlow, hhigh⟩ := h.int
  by_cases hnil : s.sock.bytes = []
  · by_cases hneg : s.clength < 0
    · have hround := copyRound_of_failed hnil hending
      have hup : Int.bmod (s.clength + 1) (2 ^ 32) = s.clength + 1 :=
        bmod_eq_self (by omega) (by omega)
      rw [hup, if_pos (by omega)] at hround
      refine ⟨1, _, Loop.run_stop hround, ?_, hnil, Or.inl ⟨?_, Or.inl hnil⟩⟩
      · rw [h.file_eq, hnil]
      · dsimp only
        rw [h.maplen_eq]
        decide
    · have hstarved : s.Starved [] s.clength := by
        refine ⟨h.buf_length, hending, ?_, ?_, Or.inr ⟨hnil, by omega⟩, hhigh⟩
        · rw [h.file_eq, hnil, List.append_nil]
        · rw [h.maplen_eq, Int.sub_self]
          rfl
      obtain ⟨fuel, t, hrun, hmaplen, hfile, hrest⟩ := copyLoop_failed hstarved
      refine ⟨fuel, t, hrun, by rw [hfile, hnil], hrest, Or.inl ⟨?_, Or.inl hnil⟩⟩
      rw [hmaplen]
      exact le_sizeT (by omega) (by omega)
  · obtain ⟨t, hround, hcomplete, hbuf, hint, hfile, hending', hcount, hclength, hiff⟩ :=
      exists_first_round h hnil
    have hless : t.sock.bytes.length < t.clength := Int.not_le.mp (fun hle => hmissing (hiff.mpr hle))
    rw [if_neg (by omega)] at hround
    have hsplit := congrArg List.length hcomplete.1
    rw [List.length_append] at hsplit
    have hstarved : t.Starved s.sock.bytes (t.file.length + t.clength) := by
      refine ⟨hbuf, hending'.trans hending, hcomplete.1, ?_, Or.inl hless, hint⟩
      rw [hcomplete.2, Int.add_sub_cancel, sizeT_natCast]
      rw [chunkSize] at hfile
      omega
    obtain ⟨fuel, t', hrun, hmaplen, hfile', hrest⟩ := copyLoop_failed hstarved
    refine ⟨fuel + 1, t', (Loop.run_next hround).trans hrun, hfile', hrest, ?_⟩
    rw [chunkSize] at hfile
    rw [hmaplen, hcount]
    by_cases hwrap : s.clength - t.file.length < -2 ^ 31
    · right
      rw [bmod_eq_add (by omega) hwrap] at hclength
      refine ⟨hnil, hwrap, ?_, ?_⟩
      · rw [hclength]
        unfold sizeT
        omega
      · rw [hclength]
        unfold sizeT
        omega
    · left
      rw [bmod_eq_self (by omega) (by omega)] at hclength
      rw [hclength]
      exact ⟨le_sizeT (by omega) (by omega), Or.inr (by omega)⟩

/-- When the whole body arrives, the parser gets it. -/
theorem readMap_done {buf : List UInt8} (hbuf : buf.length = chunkSize) {platform : Platform}
    {sock : Socket} (hne : sock.bytes ≠ []) (hint : sock.bytes.length < 2 ^ 31)
    (hmap : platform.mmap sock.bytes.length = true) :
  ∃ fuel rest, readMap platform buf sock.bytes.length sock fuel = .done (.map sock.bytes rest)
  := by
  have hpos : 0 < sock.bytes.length := List.length_pos_iff.mpr hne
  obtain ⟨fuel, s, hrun, ⟨htext, hmaplen⟩, hall⟩ := @copyLoop_done sock.bytes
    ⟨buf, [], 0, sock.bytes.length, sock⟩
    ⟨hbuf, rfl, rfl, Int.natCast_pos.mpr hpos, Int.le_refl _, by dsimp only; omega, by simp; omega⟩
  have hlen := congrArg List.length htext
  rw [List.length_append] at hlen
  have hall' : (sock.bytes.length : ℤ) ≤ s.file.length := by simpa using hall
  have hnil : s.sock.bytes = [] := List.eq_nil_of_length_eq_zero (by omega)
  rw [hnil, List.append_nil] at htext
  have hbytes : Memory.bytes s.file 0 s.maplen = some s.file := by
    exact @Memory.bytes_eq _ [] [] s.file 0 (by simp) s.maplen rfl hmaplen
  use fuel, s.sock
  rw [readMap, hrun]
  dsimp only
  rw [hmaplen, ← htext, if_pos hmap, htext, ← hmaplen, hbytes]

/-- The parser gets one map. -/
theorem readMap_det {platform : Platform} {buf : List UInt8} {clength : ℤ} {sock : Socket}
    {fuel fuel' : ℕ} {r r' : Handed} (h : readMap platform buf clength sock fuel = .done r)
    (h' : readMap platform buf clength sock fuel' = .done r') :
  r = r'
  := by
  have hbind : ∀ fuel, readMap platform buf clength sock fuel
      = (Loop.run copyRound fuel ⟨buf, [], 0, clength, sock⟩).bind (fun s =>
          if platform.mmap s.maplen then
            (Memory.bytes s.file 0 s.maplen).elim .fault (fun m => .done (.map m s.sock))
          else .done .nothing) := by
    intro fuel
    rw [readMap]
    cases Loop.run copyRound fuel ⟨buf, [], 0, clength, sock⟩ with
    | running => rfl
    | fault => rfl
    | done s =>
        simp only [Progress.bind]
        cases Memory.bytes s.file 0 s.maplen <;> rfl
  rw [hbind] at h h'
  exact Loop.bind_run_det h h'

/-- What becomes of the loop decides whether the parser gets what was read. -/
theorem exists_readMap_iff {platform : Platform} {buf : List UInt8} {clength : ℤ} {sock : Socket}
    {fuel : ℕ} {s : Copying} (hrun : Loop.run copyRound fuel ⟨buf, [], 0, clength, sock⟩ = .done s) :
  (∃ fuel, Delivers sock (readMap platform buf clength sock fuel))
    ↔ (platform.mmap s.maplen = true →
      ∃ m, Memory.bytes s.file 0 s.maplen = some m ∧ sock.bytes = m ++ s.sock.bytes)
  := by
  have hread : ∀ {fuel}, Delivers sock (readMap platform buf clength sock fuel) →
      ∀ s, Loop.run copyRound fuel ⟨buf, [], 0, clength, sock⟩ = .done s →
      platform.mmap s.maplen = true →
      ∃ m, Memory.bytes s.file 0 s.maplen = some m ∧ sock.bytes = m ++ s.sock.bytes := by
    intro fuel h s hrun hmap
    rw [readMap, hrun] at h
    simp only [hmap, if_true] at h
    cases hm : Memory.bytes s.file 0 s.maplen with
    | none => simp [hm, Delivers] at h
    | some m =>
        rw [hm] at h
        exact ⟨m, rfl, h⟩
  constructor
  · rintro ⟨fuel', h⟩
    cases hrun' : Loop.run copyRound fuel' ⟨buf, [], 0, clength, sock⟩ with
    | running => simp [readMap, hrun', Delivers] at h
    | fault => simp [readMap, hrun', Delivers] at h
    | done s' =>
        obtain rfl := Loop.run_det hrun hrun'
        exact hread h s hrun'
  · intro h
    use fuel
    rw [readMap, hrun]
    dsimp only
    split
    case isTrue hmap =>
        obtain ⟨m, hm, hbytes⟩ := h hmap
        rw [hm]
        exact hbytes
    case isFalse => trivial

/-- `form_multipart` hands to the parser what it reads exactly when the bytes announced arrive, or
nothing is mapped. -/
theorem readMap_iff {buf : List UInt8} {clength : ℤ} (hbuf : buf.length = chunkSize)
    (hint : IsInt clength) (platform : Platform) (sock : Socket) :
  (∃ fuel, Delivers sock (readMap platform buf clength sock fuel))
    ↔ Arrives clength sock ∨ Unmapped platform clength sock
  := by
  have hinitial : Copying.Initial ⟨buf, [], 0, clength, sock⟩ := ⟨hbuf, rfl, rfl, hint⟩
  by_cases harrives : Arrives clength sock
  · obtain ⟨fuel, s, hrun, hbytes, hmaplen⟩ := copyLoop_done_of_arrives hinitial harrives
    apply iff_of_true ((exists_readMap_iff hrun).mpr _) (Or.inl harrives)
    intro _
    have hmap : Memory.bytes s.file 0 s.maplen = some s.file := by
      exact @Memory.bytes_eq _ [] [] s.file 0 (by simp) s.maplen rfl hmaplen
    exact ⟨s.file, hmap, hbytes⟩
  · rw [or_iff_right harrives]
    cases hending : sock.ending with
    | closed =>
        apply iff_of_false
        · rintro ⟨fuel, h⟩
          unfold readMap at h
          cases hrun : Loop.run copyRound fuel ⟨buf, [], 0, clength, sock⟩ with
          | running => simp [hrun, Delivers] at h
          | fault => simp [hrun, Delivers] at h
          | done s => exact harrives (arrives_of_copyLoop_done hinitial hending hrun)
        · rintro ⟨hfailed, -⟩
          rw [hending] at hfailed
          cases hfailed
    | failed =>
        obtain ⟨fuel, s, hrun, hfile, hrest, hmaplen⟩ :=
          copyLoop_done_of_failed hinitial hending harrives
        rw [exists_readMap_iff hrun, Unmapped]
        rcases hmaplen with ⟨hhuge, hcases⟩ | ⟨hne, hwrap, hmaplen, hless⟩
        · apply iff_of_true
          · intro hmap
            rw [platform.mmap_huge hhuge] at hmap
            cases hmap
          · exact ⟨hending, hcases.imp_right Or.inl⟩
        · rw [← hmaplen, or_iff_right hne, or_iff_right (Int.not_le.mpr hwrap), and_iff_right hending]
          constructor
          · intro h
            by_contra hmap
            obtain ⟨m, hm, hbytes⟩ := h (Bool.not_eq_false _ ▸ hmap)
            have hlength := Memory.length_bytes hm
            rw [hrest, List.append_nil] at hbytes
            rw [← hbytes] at hlength
            exact absurd hlength.symm (Nat.ne_of_lt hless)
          · intro hmap hmap'
            rw [hmap] at hmap'
            cases hmap'

/-- For every length that a request announces, and everything that the peer may send: the loops of
`form_urlencoded` and of `form_multipart` come to their end, inside their memory, and the parser
gets the bytes that were read, exactly when the bytes arrive that are announced, or, for
`form_multipart`, when the connection fails and nothing is mapped. -/
theorem body_reading_iff (loc : Locale) (platform : Platform) (buf : {m : List UInt8 //
    m.length = chunkSize}) (request : Scm) (sock : Socket) :
  ((∃ fuel, Delivers sock (readUrlencoded loc platform request sock fuel))
    ↔ UrlencodedArrives loc platform request sock) ∧
  ((∃ fuel, Delivers sock (readMultipart loc platform buf request sock fuel))
    ↔ MultipartArrives loc platform request sock)
  := by
  constructor
  · exact readUrlencoded_iff loc platform request sock
  · unfold MultipartArrives readMultipart
    cases hrequest : requestLength loc request with
    | none => simp [Delivers]
    | some clength =>
        simpa using readMap_iff buf.property (isInt_of_requestLength hrequest) platform sock

/-- The peer announces five bytes and closes the connection, or announces -1 bytes. -/
theorem body_reading_fails :
  (∀ fuel, ¬ Delivers ⟨[], .closed, by simp⟩ (readUrlencoded latin1 .generous
    (.acons "content-length" (.str "5".toList) .nil) ⟨[], .closed, by simp⟩ fuel)) ∧
  (∀ fuel, ¬ Delivers ⟨[], .closed, by simp⟩ (readMultipart latin1 .generous
    (List.replicate chunkSize 0) (.acons "content-length" (.str "5".toList) .nil)
    ⟨[], .closed, by simp⟩ fuel)) ∧
  (∀ fuel, ¬ Delivers ⟨[], .closed, by simp⟩ (readUrlencoded latin1 .generous
    (.acons "content-length" (.str "-1".toList) .nil) ⟨[], .closed, by simp⟩ fuel))
  := by
  have hfive : requestLength latin1 (.acons "content-length" (.str "5".toList) .nil) = some 5 := by
    decide
  have hminus : requestLength latin1 (.acons "content-length" (.str "-1".toList) .nil)
      = some (-1) := by
    decide
  refine ⟨fun fuel h => ?_, fun fuel h => ?_, fun fuel h => ?_⟩
  · obtain hnone | ⟨n, hn, hle, -⟩ := (readUrlencoded_iff _ _ _ _).mp ⟨fuel, h⟩ 5 hfive
    · cases hnone
    · obtain rfl : n = 5 := Int.ofNat.inj hn.symm
      exact absurd hle (by decide)
  · unfold readMultipart at h
    rw [hfive] at h
    have harrives := (readMap_iff List.length_replicate ⟨by decide, by decide⟩ _ _).mp ⟨fuel, h⟩
    rcases harrives with harrives | ⟨hfailed, -⟩
    · exact absurd (harrives.1 rfl).2 (by decide)
    · cases hfailed
  · obtain hnone | ⟨n, hn, -⟩ := (readUrlencoded_iff _ _ _ _).mp ⟨fuel, h⟩ (-1) hminus
    · cases hnone
    · cases hn

end Gusher
