import Gusher.Library.Search
import Gusher.Request.Body

/-!
# Multipart bodies

How `form_multipart` parses the body that it has mapped into memory: `memscan` looks for the next
delimiter in a window of the memory, and `process_chunk` reads the lines of a part, up to an empty
line, and takes what follows for the content.  The memory is a block, each access is checked, and
so is each pointer that a search gives.
-/

namespace Gusher

open CString

/-- The loop of `strcasestr`: `rest` is what is left of the needle. -/
def strcasestrFrom (m needle : List UInt8) (pt : ℕ) (rest : List UInt8) (anchor : Option ℕ) :
    Option (Option ℕ) :=
  match rest with
  | [] => some anchor
  | d :: rest =>
      match _h : m[pt]? with
      | none => none
      | some c =>
          if c = 0 then some none
          else if toupper c ≠ toupper d then strcasestrFrom m needle (pt + 1) needle none
          else strcasestrFrom m needle (pt + 1) rest (some (anchor.getD pt))
  termination_by m.length - pt
  decreasing_by
    all_goals
      have := (List.getElem?_eq_some_iff.mp _h).1
      omega

/-- `strcasestr(&m[pt], needle)` -/
def strcasestr (m : List UInt8) (pt : ℕ) (needle : List UInt8) : Option (Option ℕ) :=
  strcasestrFrom m needle pt needle (some pt)

/-- The value of a parameter of a header line, between quotes.  A NUL is stored in place of the
closing quote for a moment; a null pointer that a search gives is used all the same. -/
def parameter (m : List UInt8) (pt : ℕ) (needle : List UInt8) :
    Option (List UInt8 × Option (List UInt8)) := do
  match ← strcasestr m pt needle with
  | none => return (m, none)
  | some pt2 =>
      let pt2 := (← (← Memory.index m pt2 34)) + 1
      let pt3 ← (← Memory.index m pt2 34)
      let m ← Memory.store m pt3 0
      let value ← Memory.string m pt2
      let m ← Memory.store m pt3 34
      return (m, some value)

def partHeader (loc : Locale) (m : List UInt8) (pt : ℕ) (key origFile : Scm) :
    Option (List UInt8 × Scm × Scm) := do
  if (← strcasestr m pt (ascii "content-disposition")) = some pt then
    let (m, name) ← parameter m pt (ascii "; name=\"")
    let (m, filename) ← parameter m pt (ascii "; filename=\"")
    return (m, (name.map loc.makesym).getD key, (filename.map (.str ∘ loc.decode)).getD origFile)
  else return (m, key, origFile)

/-- The variables of the loop of `process_chunk`, with the memory. -/
structure Chunk where
  m : List UInt8
  pt : ℕ
  key : Scm
  origFile : Scm

/-- The body of the loop of `process_chunk`. -/
def chunkRound (loc : Locale) (s : Chunk) : Round Chunk Chunk :=
  match Memory.index s.m s.pt 10 with
  | none => .fault
  | some none => .stop s
  | some (some stop) =>
      match Memory.load s.m (stop - 1) with
      | none => .fault
      | some b =>
          match Memory.store s.m (if b = 13 then (stop : ℤ) - 1 else stop) 0 with
          | none => .fault
          | some m =>
              match Memory.load m s.pt with
              | none => .fault
              | some c =>
                  if c = 0 then .stop { s with m := m, pt := stop + 1 }
                  else
                    match partHeader loc m s.pt s.key s.origFile with
                    | none => .fault
                    | some (m, key, origFile) => .next ⟨m, stop + 1, key, origFile⟩

/-- A parameter is read without a change to the size of the memory. -/
theorem length_parameter {m m' needle : List UInt8} {pt : ℕ} {value : Option (List UInt8)}
    (h : parameter m pt needle = some (m', value)) :
  m'.length = m.length
  := by
  simp only [parameter, Option.bind_eq_bind, Option.bind_eq_some_iff] at h
  obtain ⟨found, -, h⟩ := h
  cases found with
  | none =>
      obtain ⟨rfl, -⟩ := Prod.mk.inj (Option.some.inj h)
      rfl
  | some pt2 =>
      simp only [Option.bind_eq_some_iff] at h
      obtain ⟨_, -, _, -, _, -, _, -, m₁, hm₁, _, -, m₂, hm₂, hm'⟩ := h
      obtain ⟨rfl, -⟩ := Prod.mk.inj (Option.some.inj hm')
      rw [Memory.length_store hm₂, Memory.length_store hm₁]

/-- A header line is read without a change to the size of the memory. -/
theorem length_partHeader {loc : Locale} {m m' : List UInt8} {pt : ℕ}
    {key key' origFile origFile' : Scm}
    (h : partHeader loc m pt key origFile = some (m', key', origFile')) :
  m'.length = m.length
  := by
  simp only [partHeader, Option.bind_eq_bind, Option.bind_eq_some_iff] at h
  obtain ⟨found, -, h⟩ := h
  split at h
  case isTrue =>
      simp only [Option.bind_eq_some_iff] at h
      obtain ⟨⟨m₁, name⟩, hm₁, ⟨m₂, filename⟩, hm₂, hm'⟩ := h
      obtain ⟨rfl, -⟩ := Prod.mk.inj (Option.some.inj hm')
      rw [length_parameter hm₂, length_parameter hm₁]
  case isFalse =>
      obtain ⟨rfl, -⟩ := Prod.mk.inj (Option.some.inj h)
      rfl

/-- A round of the loop of `process_chunk` goes forward, and keeps the size of the memory. -/
theorem of_chunkRound_next {loc : Locale} {s s' : Chunk} (h : chunkRound loc s = .next s') :
  s'.m.length = s.m.length ∧ s.pt < s'.pt ∧ s'.pt ≤ s.m.length
  := by
  unfold chunkRound at h
  split at h
  case h_1 => cases h
  case h_2 => cases h
  case h_3 stop hstop =>
      obtain ⟨hle, hlt⟩ := Memory.le_and_lt_of_index hstop
      split at h
      case h_1 => cases h
      case h_2 =>
          split at h
          case h_1 => cases h
          case h_2 m hm =>
              split at h
              case h_1 => cases h
              case h_2 =>
                  split at h
                  case isTrue => cases h
                  case isFalse =>
                      split at h
                      case h_1 => cases h
                      case h_2 hheader =>
                          obtain rfl := Round.next.inj h
                          have hlen := length_partHeader hheader
                          rw [Memory.length_store hm] at hlen
                          dsimp only
                          exact ⟨hlen, by omega, by omega⟩

theorem chunkRound_lt {loc : Locale} {s s' : Chunk} (h : chunkRound loc s = .next s') :
  s'.m.length - s'.pt < s.m.length - s.pt
  := by
  obtain ⟨hlen, hlt, hle⟩ := of_chunkRound_next h
  omega

/-- The last round keeps the size of the memory, too. -/
theorem length_of_chunkRound_stop {loc : Locale} {s s' : Chunk} (h : chunkRound loc s = .stop s') :
  s'.m.length = s.m.length
  := by
  unfold chunkRound at h
  split at h
  case h_1 => cases h
  case h_2 =>
      obtain rfl := Round.stop.inj h
      rfl
  case h_3 =>
      split at h
      case h_1 => cases h
      case h_2 =>
          split at h
          case h_1 => cases h
          case h_2 m hm =>
              split at h
              case h_1 => cases h
              case h_2 =>
                  split at h
                  case isTrue =>
                      obtain rfl := Round.stop.inj h
                      exact Memory.length_store hm
                  case isFalse => split at h <;> cases h

/-- The loop of `process_chunk`. -/
def chunkLoop (loc : Locale) (s : Chunk) : Option Chunk :=
  Loop.total (chunkRound loc) (fun s => s.m.length - s.pt) chunkRound_lt s

/-- `process_chunk`: the entry of the part, and the content of the file `path` if it is made. -/
def processChunk (loc : Locale) (path m : List UInt8) (chunk len : ℕ) :
    Option (List UInt8 × Scm × Option (List UInt8)) :=
  match chunkLoop loc ⟨m, chunk, .nil, .nil⟩ with
  | none => none
  | some s =>
      match Memory.bytes s.m s.pt (sizeT (len - (s.pt - chunk : ℤ))) with
      | none => none
      | some content =>
          if s.origFile ≠ .nil then
            some (s.m, .pair s.key (.pair (.str (loc.decode path)) s.origFile), some content)
          else some (s.m, .pair s.key (.str (safeFromUtf8 content)), none)

/-- `memscan`: the first place of the needle in the window of the size `field` at `haystack`. -/
def memscan (m : List UInt8) (haystack : ℕ) (needle : List UInt8) : ℕ → Option (Option ℕ)
  | 0 =>
      if 0 < needle.length then some none
      else (Memory.bytes m haystack 0).map (fun _ => some haystack)
  | field + 1 =>
      if field + 1 < needle.length then some none
      else
        match Memory.bytes m haystack needle.length with
        | none => none
        | some x =>
            if x = needle then some (some haystack)
            else memscan m (haystack + 1) needle field

/-- A part is read without a change to the size of the memory. -/
theorem length_processChunk {loc : Locale} {path m m' : List UInt8} {chunk len : ℕ} {entry : Scm}
    {file : Option (List UInt8)} (h : processChunk loc path m chunk len = some (m', entry, file)) :
  m'.length = m.length
  := by
  unfold processChunk at h
  split at h
  case h_1 => cases h
  case h_2 s hs =>
      have hlen : s.m.length = m.length := by
        apply Loop.of_total_eq_some (fun s : Chunk => s.m.length = m.length) _ _ _ hs
        · intro s s' hs hround
          exact (of_chunkRound_next hround).1.trans hs
        · intro s s' hs hround
          exact (length_of_chunkRound_stop hround).trans hs
        · rfl
      split at h
      case h_1 => cases h
      case h_2 =>
          split at h
          case isTrue =>
              obtain ⟨rfl, -⟩ := Prod.mk.inj (Option.some.inj h)
              exact hlen
          case isFalse =>
              obtain ⟨rfl, -⟩ := Prod.mk.inj (Option.some.inj h)
              exact hlen

/-- The variables of the loop of `form_multipart`, with the memory and the files that are made. -/
structure Parts where
  m : List UInt8
  cursor : ℕ
  field : ℕ
  query : Scm
  files : List (List UInt8 × List UInt8)

/-- The condition and the body of the loop of `form_multipart`; `tmp` has the names that `mkstemp`
makes. -/
def partsRound (loc : Locale) (tmp : ℕ → List UInt8) (rboundary : List UInt8) (s : Parts) :
    Round Parts Parts :=
  match memscan s.m s.cursor rboundary s.field with
  | none => .fault
  | some none => .stop s
  | some (some stop) =>
      match Memory.store s.m stop 0 with
      | none => .fault
      | some m =>
          match processChunk loc (tmp s.files.length) m s.cursor (stop - s.cursor) with
          | none => .fault
          | some (m, entry, file) =>
              match Memory.index m (stop + rboundary.length) 10 with
              | some (some newline) =>
                  .next ⟨m, newline + 1, sizeT (s.field - (newline + 1 - s.cursor : ℤ)),
                    .pair entry s.query,
                    s.files ++ file.toList.map (fun content => (tmp s.files.length, content))⟩
              | _ => .fault

/-- What is found lies in the window. -/
theorem le_of_memscan {m needle : List UInt8} {haystack field stop : ℕ}
    (h : memscan m haystack needle field = some (some stop)) :
  haystack ≤ stop
  := by
  induction field generalizing haystack with
  | zero =>
      rw [memscan] at h
      split at h
      case isTrue => cases h
      case isFalse =>
          obtain ⟨_, -, hstop⟩ := Option.map_eq_some_iff.mp h
          exact Nat.le_of_eq (Option.some.inj hstop)
  | succ field ih =>
      rw [memscan] at h
      split at h
      case isTrue => cases h
      case isFalse =>
          split at h
          case h_1 => cases h
          case h_2 =>
              split at h
              case isTrue => exact Nat.le_of_eq (Option.some.inj (Option.some.inj h))
              case isFalse => exact Nat.le_of_succ_le (ih h)

/-- A round of the loop of `form_multipart` goes forward. -/
theorem partsRound_lt {loc : Locale} {tmp : ℕ → List UInt8} {rboundary : List UInt8} {s s' : Parts}
    (h : partsRound loc tmp rboundary s = .next s') :
  s'.m.length - s'.cursor < s.m.length - s.cursor
  := by
  unfold partsRound at h
  split at h
  case h_1 => cases h
  case h_2 => cases h
  case h_3 stop hstop =>
      have hle := le_of_memscan hstop
      split at h
      case h_1 => cases h
      case h_2 m hm =>
          split at h
          case h_1 => cases h
          case h_2 m' _ _ hm' =>
              split at h
              case h_1 newline hnewline =>
                  obtain rfl := Round.next.inj h
                  have hbounds := Memory.le_and_lt_of_index hnewline
                  have hlen := length_processChunk hm'
                  rw [Memory.length_store hm] at hlen
                  dsimp only
                  omega
              case h_2 => cases h

/-- The loop of `form_multipart` on the parts. -/
def partsLoop (loc : Locale) (tmp : ℕ → List UInt8) (rboundary : List UInt8) (s : Parts) :
    Option Parts :=
  Loop.total (partsRound loc tmp rboundary) (fun s => s.m.length - s.cursor) partsRound_lt s

/-- The state after the first line of the body, which is skipped. -/
def firstParts (m : List UInt8) (maplen : ℕ) : Option Parts :=
  match Memory.index m 0 10 with
  | some (some newline) => some ⟨m, newline + 1, maplen, .nil, []⟩
  | _ => none

/-- `form_multipart`, from the mapping of the body of `maplen` bytes on: the query, and the files
that are made. -/
def parseMap (loc : Locale) (tmp : ℕ → List UInt8) (rboundary m : List UInt8) (maplen : ℕ) :
    Option (Scm × List (List UInt8 × List UInt8)) :=
  (firstParts m maplen).bind (fun s =>
    (partsLoop loc tmp rboundary s).map (fun s => (s.query, s.files)))

/-- The array `rboundary`, which has room for 255 bytes and a NUL, if the content type has a
boundary. -/
def delimiter (ctype : List UInt8) : Option (Option (List UInt8)) :=
  match Search.strstr ctype (ascii "boundary=") with
  | none => some none
  | some (_, boundary) =>
      match index boundary 45 with
      | none => none
      | some (_, boundary) =>
          let rboundary := crlf ++ ascii "--" ++ 45 :: boundary
          if rboundary.length < 256 then some (some rboundary) else none

/-- `form_multipart` with the content type `ctype` on a body that was read: `pad` NULs can be
accessed after its end.  The result is `none` when the memory is left, or a null pointer used. -/
def formMultipart (loc : Locale) (platform : Platform) (tmp : ℕ → List UInt8)
    (ctype body : List UInt8) (pad : ℕ) : Option (Scm × List (List UInt8 × List UInt8)) :=
  match delimiter ctype with
  | none => none
  | some none => some (.bool false, [])
  | some (some rboundary) =>
      if platform.mmap body.length then
        parseMap loc tmp rboundary (body ++ List.replicate pad 0) body.length
      else some (.bool false, [])

end Gusher
