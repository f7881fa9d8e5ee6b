import Gusher.Scheme.Time

/-!
# The PostgreSQL interface

How Scheme objects are put into SQL statements, and how the rows of a result are taken out.  A
statement is represented by its constants, which is what the server makes of its text: the quoted
literal that `PQescapeLiteral` makes denotes the string that was quoted.
-/

namespace Gusher

/-- A constant in a statement. -/
inductive Constant where
  | null
  /-- a quoted literal, with the string that it denotes -/
  | literal (s : Text)
  | number (digits : Text)
  deriving DecidableEq

/-- The part of `pg_format_sql` for strings: the empty string is `NULL`.  The bytes that are
escaped must not contain a NUL. -/
def pgFormatString (s : Text) : Option Constant :=
  if s = [] then some .null else (toUtf8 s).map (fun src => .literal (safeFromUtf8 src))

/-- `pg_format_sql`. -/
def pgFormat : Scm → Option Constant
  | .time t => some (.literal (formatTime t))
  | .bool b => some (.literal (if b then ['t'] else ['f']))
  | .int z => some (.number (numberText z))
  | .number digits => some (.number digits)
  | .symbol name => pgFormatString name
  | .str s => pgFormatString s
  | _ => some .null

/-- A field of a row in a result. -/
inductive Cell where
  | null
  | text (s : Text)
  | int8 (z : ℤ)
  deriving DecidableEq

/-- `pg_decode`, and `build_row` for a field that is null.  A text comes as UTF-8; a number comes
in decimal, and `atoi` makes an `int` of it. -/
def pgDecode : Cell → Scm
  | .null => .nil
  | .text s => .str (safeFromUtf8 (s.flatMap String.utf8EncodeChar))
  | .int8 z => .int (Int.bmod z (2 ^ 32))

/-- `struct pg_res`: the names of the fields, the rows, and the number of rows that the statement
is about, which `atoi` makes an `int`. -/
structure PGResult where
  fields : List Text
  tuples : List (List Cell)
  cmdTuples : ℤ
  deriving DecidableEq

def PGResult.failed : PGResult where
  fields := []
  tuples := []
  cmdTuples := 0

/-- `build_row`: the last field comes first. -/
def buildRow (fields : List Text) (tuple : List Cell) : Scm :=
  (fields.zip tuple).foldl (fun row c => .pair (.pair (.symbol c.1) (pgDecode c.2)) row) .nil

def pgOneRow (res : PGResult) : Scm :=
  match res.tuples with
  | [] => .bool false
  | tuple :: _ => buildRow res.fields tuple

def pgMapRows (res : PGResult) (func : Scm → Scm) : List Scm :=
  res.tuples.map (fun tuple => func (buildRow res.fields tuple))

def pgCmdTuples (res : PGResult) : ℤ :=
  res.cmdTuples

def pgCell (row : Scm) (colKey : String) : Scm :=
  row.assqRef colKey.toList

/-! ### Strings -/

/-- The constant for a string without a NUL. -/
def constant (s : Text) : Constant :=
  if s = [] then .null else .literal s

/-- A string without a NUL is put into a statement as it is, except that the empty one is
`NULL`. -/
theorem pgFormat_str {s : Text} (h : Char.ofNat 0 ∉ s) :
  pgFormat (.str s) = some (constant s)
  := by
  rw [pgFormat, pgFormatString, constant]
  split
  case isTrue => rfl
  case isFalse =>
      rw [toUtf8, if_neg h, Option.map_some, safeFromUtf8_flatMap]

theorem pgFormat_str_nul {s : Text} (h : Char.ofNat 0 ∈ s) :
  pgFormat (.str s) = none
  := by
  have hne : s ≠ [] := List.ne_nil_of_mem h
  rw [pgFormat, pgFormatString, if_neg hne, toUtf8, if_pos h, Option.map_none]

@[simp]
theorem pgDecode_text (s : Text) :
  pgDecode (.text s) = .str s
  := by
  rw [pgDecode, safeFromUtf8_flatMap]

theorem buildRow_singleton (field : Text) (c : Cell) :
  buildRow [field] [c] = .pair (.pair (.symbol field) (pgDecode c)) .nil
  := rfl

theorem pgCell_buildRow (field : String) (c : Cell) :
  pgCell (buildRow [field.toList] [c]) field = pgDecode c
  := by
  rw [buildRow_singleton, pgCell, Scm.assqRef, if_pos rfl]

end Gusher
