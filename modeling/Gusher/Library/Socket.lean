import Mathlib.Data.List.Basic
import Mathlib.Algebra.Group.Int.Defs
import Mathlib.Tactic.Common

/-!
# Reading from a socket

What the peer sends arrives in pieces, none of them empty.  A read takes what has arrived, at most
as many bytes as are asked for.  After the last piece the peer has closed the connection, and each
read gives 0, or the connection has failed, and each read gives -1.
-/

/-- What becomes of a connection. -/
inductive Ending where
  | closed
  | failed
  deriving DecidableEq

/-- The result of a read after the last byte. -/
def Ending.result : Ending → ℤ
  | closed => 0
  | failed => -1

/-- The pieces that are still to be read, and what comes after them. -/
structure Socket where
  arrivals : List (List UInt8)
  ending : Ending
  ne_nil : ∀ a ∈ arrivals, a ≠ []

namespace Socket

/-- The bytes that are still to be read. -/
def bytes (s : Socket) : List UInt8 :=
  s.arrivals.flatten

/-- The result of a read, the bytes it stores, and what is left on the socket. -/
structure Received where
  count : ℤ
  data : List UInt8
  rest : Socket

/-- `read(s, pt, size)` -/
def read : Socket → ℕ → Received
  | ⟨[], e, h⟩, _ => ⟨e.result, [], ⟨[], e, h⟩⟩
  | ⟨a :: l, e, h⟩, size =>
      if hsize : a.length ≤ size then
        ⟨a.length, a, ⟨l, e, fun b hb => h b (List.mem_cons_of_mem a hb)⟩⟩
      else
        ⟨size, a.take size, ⟨a.drop size :: l, e, by
          intro b hb
          obtain rfl | hb := List.mem_cons.mp hb
          · intro hnil
            exact hsize (List.drop_eq_nil_iff.mp hnil)
          · exact h b (List.mem_cons_of_mem a hb)⟩⟩

variable {s : Socket} {size : ℕ}

/-- After the last byte a read changes nothing. -/
theorem read_of_bytes_eq_nil (h : s.bytes = []) :
  s.read size = ⟨s.ending.result, [], s⟩
  := by
  obtain ⟨l, e, hne⟩ := s
  cases l with
  | nil => rfl
  | cons a l =>
      rw [bytes, List.flatten_cons] at h
      exact absurd (List.append_eq_nil_iff.mp h).1 (hne a List.mem_cons_self)

/-- As long as there are bytes, a read takes some of them, from the front. -/
theorem exists_of_read (h : s.bytes ≠ []) (hsize : 0 < size) :
  ∃ data rest, s.read size = ⟨data.length, data, rest⟩ ∧ data ≠ [] ∧ data.length ≤ size ∧
    s.bytes = data ++ rest.bytes ∧ rest.ending = s.ending
  := by
  obtain ⟨l, e, hne⟩ := s
  cases l with
  | nil => exact absurd rfl h
  | cons a l =>
      rw [read]
      split
      case isTrue hle =>
          exact ⟨a, _, rfl, hne a List.mem_cons_self, hle, List.flatten_cons, rfl⟩
      case isFalse hlt =>
          have hlen : (a.take size).length = size := by
            apply List.length_take_of_le
            omega
          have hcount : (size : ℤ) = (a.take size).length := by rw [hlen]
          have hne' : a.take size ≠ [] := by
            apply List.ne_nil_of_length_pos
            omega
          have hsplit : (a :: l).flatten = a.take size ++ (a.drop size :: l).flatten := by
            rw [List.flatten_cons, List.flatten_cons, ← List.append_assoc, List.take_append_drop]
          rw [hcount]
          exact ⟨_, _, rfl, hne', Nat.le_of_eq hlen, hsplit, rfl⟩

/-- What is left after `n` reads of one byte each. -/
def skip : ℕ → Socket → Socket
  | 0, s => s
  | n + 1, s => skip n (s.read 1).rest

/-- Reads of one byte take the bytes one after the other. -/
theorem bytes_skip (n : ℕ) (s : Socket) :
  (s.skip n).bytes = s.bytes.drop n
  := by
  induction n generalizing s with
  | zero => rfl
  | succ n ih =>
      rw [skip, ih]
      by_cases hnil : s.bytes = []
      · rw [read_of_bytes_eq_nil hnil, hnil, List.drop_nil, List.drop_nil]
      · obtain ⟨data, rest, hread, hne, hlen, hbytes, -⟩ := exists_of_read hnil Nat.one_pos
        obtain ⟨b, rfl⟩ := List.length_eq_one_iff.mp
          (Nat.le_antisymm hlen (List.length_pos_of_ne_nil hne))
        rw [hread, hbytes]
        rfl

end Socket
