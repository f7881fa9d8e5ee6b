import Gusher.Library.Loop
import Gusher.Library.Memory
import Gusher.Library.Socket
import Gusher.Request.Query
import Gusher.Scheme.Number

/-!
# Reading the body

How `form_urlencoded` and `form_multipart` read the body of a request, up to the place where they
start to parse it.  The counters are those of the code, an `int` or a `size_t`, and the results of
`read` are subtracted from them as they come.  The loops are run for a number of rounds.
-/

namespace Gusher

open CString

/-- A number as a `size_t`. -/
def sizeT (z : ℤ) : ℕ :=
  (z % 2 ^ 64).toNat

theorem sizeT_natCast {n : ℕ} (h : n < 2 ^ 63) :
  sizeT n = n
  := by
  unfold sizeT
  omega

/-- A negative number is a `size_t` that takes more than half of the address space. -/
theorem le_sizeT {z : ℤ} (hz : z < 0) (hlow : -2 ^ 31 ≤ z) :
  2 ^ 63 ≤ sizeT z
  := by
  unfold sizeT
  omega

/-- What the code relies on: a block that is allocated has the size asked for, and there is none
that takes more than half of the address space; a map of no bytes fails, and so does one that takes
more than half of the address space. -/
structure Platform where
  malloc : ℕ → Option (List UInt8)
  length_malloc : ∀ {n m}, malloc n = some m → m.length = n
  malloc_huge : ∀ {n}, 2 ^ 63 ≤ n → malloc n = none
  mmap : ℕ → Bool
  mmap_zero : mmap 0 = false
  mmap_huge : ∀ {n}, 2 ^ 63 ≤ n → mmap n = false

/-- A platform where whatever can succeed does, and allocated memory is clear. -/
def Platform.generous : Platform where
  malloc n := if n < 2 ^ 63 then some (List.replicate n 0) else none
  length_malloc h := by
    obtain ⟨-, hm⟩ := Option.ite_none_right_eq_some.mp h
    rw [← Option.some.inj hm, List.length_replicate]
  malloc_huge h := if_neg (Nat.not_lt.mpr h)
  mmap n := 0 < n ∧ n < 2 ^ 63
  mmap_zero := rfl
  mmap_huge h := decide_eq_false (fun hn => Nat.not_lt.mpr h hn.2)

def postMemMax : ℕ :=
  1000000

/-- The size of the buffer of `form_multipart`. -/
def chunkSize : ℕ :=
  4096

/-- `request_length`; `none` when the header cannot be encoded. -/
def requestLength (loc : Locale) (request : Scm) : Option ℤ :=
  let clength := request.assqRef "content-length".toList
  if clength = .bool false then some 0 else (loc.toLocaleString clength).map atoi

/-- What the parser of the body gets, and what is left on the socket. -/
inductive Handed where
  /-- the length of the body cannot be read -/
  | raised
  /-- there is no memory for the body -/
  | nothing
  | string (buf : List UInt8) (rest : Socket)
  | map (m : List UInt8) (rest : Socket)

/-- The variables of the loop of `form_urlencoded`, with its buffer and what is left on the
socket. -/
structure Reading where
  buf : List UInt8
  pt : ℤ
  length : ℤ
  sock : Socket

/-- The condition and the body of the loop of `form_urlencoded`. -/
def readRound (s : Reading) : Round Reading Reading :=
  if s.length > 0 then
    let n := s.sock.read s.length.toNat
    match Memory.copy s.buf s.pt n.data with
    | none => .fault
    | some buf =>
        if IsInt (s.length - n.count) then
          .next ⟨buf, s.pt + n.count, s.length - n.count, n.rest⟩
        else .fault
  else .stop s

/-- `form_urlencoded`, from the allocation of the buffer on. -/
def readString (buf : List UInt8) (length : ℤ) (sock : Socket) (fuel : ℕ) : Progress Handed :=
  match Loop.run readRound fuel ⟨buf, 0, length, sock⟩ with
  | .running => .running
  | .fault => .fault
  | .done s =>
      match Memory.store s.buf s.pt 0 with
      | none => .fault
      | some buf => .done (.string buf s.sock)

/-- `form_urlencoded`, before it parses the buffer. -/
def readUrlencoded (loc : Locale) (platform : Platform) (request : Scm) (sock : Socket)
    (fuel : ℕ) : Progress Handed :=
  match requestLength loc request with
  | none => .done .raised
  | some length =>
      let length := if length > postMemMax then (postMemMax : ℤ) else length
      match platform.malloc (sizeT (length + 1)) with
      | none => .done .nothing
      | some buf => readString buf length sock fuel

/-- The variables of the loop of `form_multipart`, with its buffer, the file that it writes and
what is left on the socket. -/
structure Copying where
  buf : List UInt8
  file : List UInt8
  maplen : ℕ
  clength : ℤ
  sock : Socket

/-- What `write` writes of the first `n` bytes of a buffer: a count that is negative as a `ssize_t` is
refused. -/
def fileWrite (buf : List UInt8) (n : ℕ) : Option (List UInt8) :=
  if 2 ^ 63 ≤ n then some [] else Memory.bytes buf 0 n

/-- The condition and the body of the loop of `form_multipart`; as `n` is unsigned, it is never
negative, and the result of `write` is not looked at. -/
def copyRound (s : Copying) : Round Copying Copying :=
  let r := s.sock.read chunkSize
  let n := sizeT r.count
  if n = 0 then
    if s.clength < 1 then .stop { s with sock := r.rest } else .next { s with sock := r.rest }
  else
    match Memory.copy s.buf 0 r.data with
    | none => .fault
    | some buf =>
        match fileWrite buf n with
        | none => .fault
        | some out =>
            let s := ⟨buf, s.file ++ out, sizeT (s.maplen + n), Int.bmod (s.clength - n) (2 ^ 32),
              r.rest⟩
            if s.clength ≤ 0 then .stop s else .next s

/-- `form_multipart`, from the reading of the body to the mapping of the file. -/
def readMap (platform : Platform) (buf : List UInt8) (clength : ℤ) (sock : Socket) (fuel : ℕ) :
    Progress Handed :=
  match Loop.run copyRound fuel ⟨buf, [], 0, clength, sock⟩ with
  | .running => .running
  | .fault => .fault
  | .done s =>
      if platform.mmap s.maplen then
        match Memory.bytes s.file 0 s.maplen with
        | none => .fault
        | some m => .done (.map m s.sock)
      else .done .nothing

/-- `form_multipart`, before it parses the map. -/
def readMultipart (loc : Locale) (platform : Platform) (buf : List UInt8) (request : Scm)
    (sock : Socket) (fuel : ℕ) : Progress Handed :=
  match requestLength loc request with
  | none => .done .raised
  | some clength => readMap platform buf clength sock fuel

end Gusher
