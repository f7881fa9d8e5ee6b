import Gusher.Library.JsonText
import Gusher.Scheme.Calendar
import Gusher.Store.Postgres

/-!
# Columns

The columns of a table by their types: what PostgreSQL stores for a constant, the text it gives for
what is stored, and what `pg_decode` makes of the text.
-/

namespace Gusher

open CString

/-! ### The server -/

/-- The types of columns that Scheme objects are written to. -/
inductive ColumnType where
  | bool
  | int8
  | text
  | timestamp
  deriving DecidableEq

/-- The code of a type, from `pg_type.h`. -/
def ColumnType.oid : ColumnType → ℕ
  | bool => 16
  | int8 => 20
  | text => 25
  | timestamp => 1114

/-- What is stored in a column. -/
inductive Datum where
  | null
  | bool (b : Bool)
  | int8 (n : Int64)
  | text (s : Text)
  | timestamp (c : Civil)
  deriving DecidableEq

/-- The number that decimal digits denote. -/
def decimalValue (t : Text) : Option ℕ :=
  if t ≠ [] ∧ t.all Char.isDigit then some (Nat.ofDigitChars 10 t 0) else none

/-- The number in front of a character, and what follows the character. -/
def numberUpTo (d : Char) (s : Text) : Option (ℕ × Text) :=
  match s.dropWhile (· ≠ d) with
  | [] => none
  | _ :: rest => (decimalValue (s.takeWhile (· ≠ d))).map (·, rest)

/-- How a date with a time is read.  The year has at least three digits, as otherwise it is not the
first part of a date. -/
def readTimestamp (s : Text) : Option Civil :=
  (numberUpTo '-' s).bind (fun year =>
    (numberUpTo '-' year.2).bind (fun month =>
      (numberUpTo ' ' month.2).bind (fun day =>
        (numberUpTo ':' day.2).bind (fun hour =>
          (numberUpTo ':' hour.2).bind (fun minute =>
            (decimalValue minute.2).bind (fun second =>
              let c : Civil := ⟨year.1, month.1, day.1, hour.1, minute.1, second⟩
              if 3 ≤ (s.takeWhile (· ≠ '-')).length ∧ c.year ≤ 294276 ∧ c.Valid then some c
              else none))))))

/-- What is stored for a constant; a constant that is not accepted makes the statement fail. -/
def ColumnType.stored : ColumnType → Constant → Option Datum
  | _, .null => some .null
  | bool, .literal s =>
      if s = ['t'] then some (.bool true) else if s = ['f'] then some (.bool false) else none
  | int8, .number digits =>
      (Json.intOf digits).bind (fun z =>
        if -2 ^ 63 ≤ z ∧ z < 2 ^ 63 then some (.int8 (Int64.ofInt z)) else none)
  | text, .literal s => some (.text s)
  | timestamp, .literal s => (readTimestamp s).map .timestamp
  | _, _ => none

/-- The text form of what is stored; there is none of `NULL`. -/
def Datum.textForm : Datum → Option Text
  | null => none
  | bool b => some (if b then ['t'] else ['f'])
  | int8 n => some (numberText n.toInt)
  | text s => some s
  | timestamp c => some (yearText c.year ++ '-' :: twoDigits c.month ++ '-' :: twoDigits c.day
      ++ ' ' :: twoDigits c.hour ++ ':' :: twoDigits c.minute ++ ':' :: twoDigits c.second)

/-! ### Decoding -/

variable (lib : CLibrary)

/-- `decode_timestamp`.  Where there is not the character that is looked for, memory is read that
is not there.  The seconds are passed as an `int`, which is what `gtime.h` declares. -/
def decodeTimestamp (string : List UInt8) : Option Scm :=
  (index string 45).bind (fun here =>
    (index here.2 45).bind (fun here' =>
      if (index here'.2 58).isNone then
        some (lib.localTimeIntern (atoi string) (atoi here.2) (atoi here'.2) 0 0 (0, 0))
      else
        (index here'.2 32).bind (fun hour =>
          (index hour.2 58).bind (fun min =>
            (index min.2 58).bind (fun sec =>
              some (lib.localTimeIntern (atoi string) (atoi here.2) (atoi here'.2) (atoi hour.2)
                (atoi min.2) ((lib.seconds sec.2).1, 0)))))))

/-- `pg_decode`, by the code of the type. -/
def pgDecodeType (string : List UInt8) (dtype : ℕ) : Option Scm :=
  if dtype = 701 ∨ dtype = 1700 ∨ dtype = 700 then some (.number (lib.real string))
  else if dtype = 20 ∨ dtype = 21 ∨ dtype = 23 then some (.int (atoi string))
  else if dtype = 1114 ∨ dtype = 1184 ∨ dtype = 1082 then decodeTimestamp lib string
  else if dtype = 16 ∨ dtype = 1000 then some (.bool (string.head? = some 116))
  else some (.str (safeFromUtf8 string))

/-- The value of a field in `build_row`. -/
def fieldValue (dtype : ℕ) : Option (List UInt8) → Option Scm
  | none => some .nil
  | some string => pgDecodeType lib string dtype

/-- The loop of `build_row`, with the names, the types and the texts of the fields. -/
def buildTypedRow (row : Scm) : List (Text × ℕ × Option (List UInt8)) → Option Scm
  | [] => some row
  | (name, dtype, string) :: fields =>
      (fieldValue lib dtype string).bind (fun value =>
        buildTypedRow (.pair (.pair (.symbol name) value) row) fields)

/-! ### Numbers in texts -/

theorem decimalValue_eq {n : ℕ} {t : Text} (h : Decimal n t) :
  decimalValue t = some n
  := by
  have hall : t.all Char.isDigit = true := by
    rw [List.all_eq_true]
    exact h.digits
  rw [decimalValue, if_pos ⟨h.ne_nil, hall⟩, h.value]

theorem Decimal.notMem {n : ℕ} {t : Text} (h : Decimal n t) {d : Char} (hd : d.isDigit = false) :
  d ∉ t
  := by
  intro hmem
  rw [h.digits d hmem] at hd
  cases hd

/-- Digits up to a character. -/
theorem takeWhile_decimal {n : ℕ} {t : Text} (h : Decimal n t) {d : Char} (hd : d.isDigit = false)
    (rest : Text) :
  (t ++ d :: rest).takeWhile (· ≠ d) = t ∧ (t ++ d :: rest).dropWhile (· ≠ d) = d :: rest
  := by
  have hne : ∀ c ∈ t, decide (c ≠ d) = true := by
    intro c hc
    rw [decide_eq_true_iff]
    rintro rfl
    exact h.notMem hd hc
  rw [List.takeWhile_append_of_pos hne, List.dropWhile_append_of_pos hne]
  simp

theorem numberUpTo_eq {n : ℕ} {t : Text} (h : Decimal n t) {d : Char} (hd : d.isDigit = false)
    (rest : Text) :
  numberUpTo d (t ++ d :: rest) = some (n, rest)
  := by
  obtain ⟨htake, hdrop⟩ := takeWhile_decimal h hd rest
  rw [numberUpTo, hdrop, htake]
  simp only [decimalValue_eq h, Option.map_some]

/-- The parts of a date with a time. -/
structure DateText (c : Civil) (year month day hour minute second : Text) : Prop where
  year : Decimal c.year.natAbs year
  month : Decimal c.month.natAbs month
  day : Decimal c.day.natAbs day
  hour : Decimal c.hour.natAbs hour
  minute : Decimal c.minute.natAbs minute
  second : Decimal c.second.natAbs second

/-- The parts put together. -/
def dateText (year month day hour minute second : Text) : Text :=
  year ++ '-' :: (month ++ '-' :: (day ++ ' ' :: (hour ++ ':' :: (minute ++ ':' :: second))))

section Date

variable {c : Civil} {year month day hour minute second : Text}

theorem Civil.Valid.natAbs (h : c.Valid) (hyear : 0 ≤ c.year) :
  (c.year.natAbs : ℤ) = c.year ∧ (c.month.natAbs : ℤ) = c.month ∧ (c.day.natAbs : ℤ) = c.day ∧
    (c.hour.natAbs : ℤ) = c.hour ∧ (c.minute.natAbs : ℤ) = c.minute ∧
    (c.second.natAbs : ℤ) = c.second
  := by
  obtain ⟨⟨hmonth, -⟩, ⟨hday, -⟩, ⟨hhour, -⟩, ⟨hminute, -⟩, ⟨hsecond, -⟩⟩ := h
  omega

/-- PostgreSQL reads a date with a time. -/
theorem readTimestamp_dateText (h : DateText c year month day hour minute second)
    (hvalid : c.Valid) (hlow : 0 ≤ c.year) (hhigh : c.year ≤ 294276) (hlength : 3 ≤ year.length) :
  readTimestamp (dateText year month day hour minute second) = some c
  := by
  obtain ⟨hy, hmo, hd, hh, hmi, hs⟩ := hvalid.natAbs hlow
  obtain ⟨htake, -⟩ := takeWhile_decimal h.year (d := '-') (by decide)
    (month ++ '-' :: (day ++ ' ' :: (hour ++ ':' :: (minute ++ ':' :: second))))
  unfold readTimestamp dateText
  rw [numberUpTo_eq h.year (by decide), Option.bind_some, numberUpTo_eq h.month (by decide),
    Option.bind_some, numberUpTo_eq h.day (by decide), Option.bind_some,
    numberUpTo_eq h.hour (by decide), Option.bind_some, numberUpTo_eq h.minute (by decide),
    Option.bind_some, decimalValue_eq h.second, Option.bind_some, htake]
  simp only [hy, hmo, hd, hh, hmi, hs]
  exact if_pos ⟨hlength, hhigh, hvalid⟩

/-- A character that is no digit does not occur in the bytes of decimal digits. -/
theorem Decimal.notMem_encodeUtf8 {n : ℕ} {t : Text} (h : Decimal n t) {b : UInt8}
    (hb : isdigit b = false) :
  b ∉ encodeUtf8 t
  := by
  intro hmem
  obtain ⟨c, hc, hbc⟩ := List.mem_flatMap.mp hmem
  obtain ⟨hbyte, hdigit, -⟩ := utf8EncodeChar_of_digit (h.digits c hc)
  rw [hbyte, List.mem_singleton] at hbc
  rw [hbc, hdigit] at hb
  cases hb

/-- `atoi` and `index` of decimal digits with a character after them. -/
theorem atoi_index {n : ℕ} {t : Text} (h : Decimal n t) (hn : n < 2 ^ 31) {b : UInt8}
    (hb : isdigit b = false) (rest : List UInt8) :
  atoi (encodeUtf8 t ++ b :: rest) = n ∧
    index (encodeUtf8 t ++ b :: rest) b = some (encodeUtf8 t, rest)
  := by
  constructor
  · apply atoi_of_decimal h hn
    rintro d ⟨⟩
    exact hb
  · apply index_append (h.notMem_encodeUtf8 hb)

/-- `decode_timestamp` of a date with a time. -/
theorem decodeTimestamp_time {lib : CLibrary} {y mo d h mi : ℕ} (hyear : Decimal y year)
    (hmonth : Decimal mo month) (hday : Decimal d day) (hhour : Decimal h hour)
    (hminute : Decimal mi minute) (hy : y < 2 ^ 31) (hmo : mo < 2 ^ 31) (hd : d < 2 ^ 31)
    (hh : h < 2 ^ 31) (hmi : mi < 2 ^ 31) (sec : List UInt8) :
  decodeTimestamp lib (encodeUtf8 year ++ 45 :: (encodeUtf8 month ++ 45 :: (encodeUtf8 day
      ++ 32 :: (encodeUtf8 hour ++ 58 :: (encodeUtf8 minute ++ 58 :: sec)))))
    = some (lib.localTimeIntern y mo d h mi ((lib.seconds sec).1, 0))
  := by
  -- the bytes from each part on
  let fromMinute := encodeUtf8 minute ++ 58 :: sec
  let fromHour := encodeUtf8 hour ++ 58 :: fromMinute
  let fromDay := encodeUtf8 day ++ 32 :: fromHour
  let fromMonth := encodeUtf8 month ++ 45 :: fromDay
  obtain ⟨hatoiYear, hindexYear⟩ := atoi_index hyear hy (b := 45) (by decide) fromMonth
  obtain ⟨hatoiMonth, hindexMonth⟩ := atoi_index hmonth hmo (b := 45) (by decide) fromDay
  obtain ⟨hatoiDay, hindexDay⟩ := atoi_index hday hd (b := 32) (by decide) fromHour
  obtain ⟨hatoiHour, hindexHour⟩ := atoi_index hhour hh (b := 58) (by decide) fromMinute
  obtain ⟨hatoiMinute, hindexMinute⟩ := atoi_index hminute hmi (b := 58) (by decide) sec
  have hcolon : index fromDay 58 = some (encodeUtf8 day ++ 32 :: encodeUtf8 hour, fromMinute) := by
    have hbefore : (58 : UInt8) ∉ encodeUtf8 day ++ 32 :: encodeUtf8 hour := by
      simp only [List.mem_append, List.mem_cons, not_or]
      exact ⟨hday.notMem_encodeUtf8 (by decide), by decide, hhour.notMem_encodeUtf8 (by decide)⟩
    have hindex := index_append (b := fromMinute) hbefore
    rwa [List.append_assoc, List.cons_append] at hindex
  have hnone : ¬ (index fromDay 58).isNone = true := by
    rw [hcolon]
    simp
  rw [decodeTimestamp, hindexYear, Option.bind_some]
  simp only []
  rw [hindexMonth, Option.bind_some]
  simp only []
  rw [if_neg hnone, hindexDay, Option.bind_some]
  simp only []
  rw [hindexHour, Option.bind_some]
  simp only []
  rw [hindexMinute, Option.bind_some, hatoiYear, hatoiMonth, hatoiDay, hatoiHour, hatoiMinute]

/-- `decode_timestamp` reads a date with a time. -/
theorem decodeTimestamp_dateText {lib : CLibrary} (hlib : lib.Lawful)
    (h : DateText c year month day hour minute second) (hvalid : c.Valid) (hlow : 0 ≤ c.year)
    (hhigh : c.year ≤ 294276) :
  decodeTimestamp lib (encodeUtf8 (dateText year month day hour minute second))
    = some (lib.localTimeIntern c.year c.month c.day c.hour c.minute (c.second, 0))
  := by
  obtain ⟨hy, hmo, hd, hh, hmi, hs⟩ := hvalid.natAbs hlow
  obtain ⟨⟨-, hmonth⟩, ⟨-, hday⟩, ⟨-, hhour⟩, ⟨-, hminute⟩, ⟨-, hsecond⟩⟩ := hvalid
  have hdays := (daysInMonth_mem c.year c.month).2
  have hbytes : encodeUtf8 (dateText year month day hour minute second)
      = encodeUtf8 year ++ 45 :: (encodeUtf8 month ++ 45 :: (encodeUtf8 day
        ++ 32 :: (encodeUtf8 hour ++ 58 :: (encodeUtf8 minute ++ 58 :: encodeUtf8 second)))) := by
    simp only [dateText, encodeUtf8_append, encodeUtf8_cons]
    rfl
  rw [hbytes, decodeTimestamp_time h.year h.month h.day h.hour h.minute (by omega) (by omega)
    (by omega) (by omega) (by omega), hlib.seconds_decimal (by omega) h.second, hy, hmo, hd, hh,
    hmi, hs]

end Date

/-! ### Writing and reading -/

/-- A field that is written: its name, the type of its column, and the object. -/
structure Column where
  name : Text
  type : ColumnType
  value : Scm

/-- The field in the result, when the object has been put into a statement and stored. -/
def Column.written (c : Column) : Option (Text × ℕ × Option (List UInt8)) :=
  (pgFormat c.value).bind (fun constant =>
    (c.type.stored constant).map (fun d => (c.name, c.type.oid, d.textForm.map encodeUtf8)))

/-- The row that is read back after the fields have been written. -/
def rowTrip (lib : CLibrary) (columns : List Column) : Option Scm :=
  (columns.mapM Column.written).bind (buildTypedRow lib .nil)

/-- The objects that are written: integers in the range of an `int`, strings without NUL, and the
timestamps of years that PostgreSQL knows, apart from the local time of the second before the
epoch. -/
inductive Storable (lib : CLibrary) : ColumnType → Scm → Prop
  | bool (b : Bool) : Storable lib .bool (.bool b)
  | int {z : ℤ} (h : IsInt z) : Storable lib .int8 (.int z)
  | str {s : Text} (h : Char.ofNat 0 ∉ s) : Storable lib .text (.str s)
  | time {epoch usec : ℤ} (hlow : 100 ≤ (lib.localtime epoch).1.year)
      (hhigh : (lib.localtime epoch).1.year ≤ 294276)
      (hbefore : (lib.localtime epoch).1 ≠ (lib.localtime (-1)).1) :
      Storable lib .timestamp (.time (lib.at epoch usec))

/-- What an object is read back as.  The empty string comes back as the empty list, and a timestamp
without its microseconds as one with the same local time, which is the same instant when there is
only one with this local time. -/
inductive ReadBack (lib : CLibrary) : Scm → Scm → Prop
  | bool (b : Bool) : ReadBack lib (.bool b) (.bool b)
  | int (z : ℤ) : ReadBack lib (.int z) (.int z)
  | str {s : Text} (h : s ≠ []) : ReadBack lib (.str s) (.str s)
  | empty : ReadBack lib (.str []) .nil
  | time {t t' : GTime} (hcivil : t'.civil = t.civil) (husec : t'.usec = 0)
      (honce : (∀ e, (lib.localtime e).1 = t.civil → e = t.epoch) → t' = { t with usec := 0 }) :
      ReadBack lib (.time t) (.time t')

theorem length_numberText {z : ℤ} (hz : 100 ≤ z) :
  3 ≤ (numberText z).length
  := by
  rw [numberText, if_neg (by omega)]
  have h := Nat.length_toDigits_le_iff (n := z.natAbs) (k := 2) (b := 10) (by decide) (by decide)
  by_contra hlt
  have hle := h.mp (by omega)
  omega

theorem formatTime_eq (t : GTime) :
  formatTime t
    = dateText (numberText t.year) (twoDigits t.month) (twoDigits t.day) (twoDigits t.hour)
        (twoDigits t.minute) (twoDigits t.second)
  := by
  simp [formatTime, dateText]

theorem textForm_timestamp (c : Civil) :
  (Datum.timestamp c).textForm
    = some (dateText (yearText c.year) (twoDigits c.month) (twoDigits c.day) (twoDigits c.hour)
        (twoDigits c.minute) (twoDigits c.second))
  := by
  simp [Datum.textForm, dateText]

/-- The texts of the parts of a valid time, with any text of the year. -/
theorem Civil.Valid.dateText {c : Civil} (h : c.Valid) {year : Text}
    (hyear : Decimal c.year.natAbs year) :
  DateText c year (twoDigits c.month) (twoDigits c.day) (twoDigits c.hour) (twoDigits c.minute)
    (twoDigits c.second)
  := by
  obtain ⟨⟨hmonth, -⟩, ⟨hday, -⟩, ⟨hhour, -⟩, ⟨hminute, -⟩, ⟨hsecond, -⟩⟩ := h
  exact {
    year := hyear
    month := decimal_twoDigits (by omega)
    day := decimal_twoDigits (by omega)
    hour := decimal_twoDigits hhour
    minute := decimal_twoDigits hminute
    second := decimal_twoDigits hsecond
  }

/-- A timestamp is stored as its local time. -/
theorem stored_formatTime {t : GTime} (hvalid : t.civil.Valid) (hlow : 100 ≤ t.civil.year)
    (hhigh : t.civil.year ≤ 294276) :
  ColumnType.stored .timestamp (.literal (formatTime t)) = some (.timestamp t.civil)
  := by
  have hyear : 0 ≤ t.civil.year := by omega
  have hparts := hvalid.dateText (decimal_numberText hyear)
  have hread := readTimestamp_dateText hparts hvalid hyear hhigh (length_numberText hlow)
  rw [ColumnType.stored, formatTime_eq]
  exact congrArg (Option.map Datum.timestamp) hread

/-- The local time that is stored is read back by `mktime`. -/
theorem fieldValue_timestamp {lib : CLibrary} (hlib : lib.Lawful) {c : Civil} (hvalid : c.Valid)
    (hlow : 0 ≤ c.year) (hhigh : c.year ≤ 294276) :
  fieldValue lib ColumnType.timestamp.oid ((Datum.timestamp c).textForm.map encodeUtf8)
    = some (lib.localTimeIntern c.year c.month c.day c.hour c.minute (c.second, 0))
  := by
  have hparts := hvalid.dateText (decimal_yearText hlow)
  have hdecode := decodeTimestamp_dateText hlib hparts hvalid hlow hhigh
  rw [textForm_timestamp]
  exact hdecode

/-- A timestamp is read back as one with the same local time. -/
theorem readBack_localTimeIntern {lib : CLibrary} (hlib : lib.Lawful) {epoch usec : ℤ}
    (hbefore : (lib.localtime epoch).1 ≠ (lib.localtime (-1)).1) :
  ReadBack lib (.time (lib.at epoch usec))
    (lib.localTimeIntern (lib.at epoch usec).year (lib.at epoch usec).month
      (lib.at epoch usec).day (lib.at epoch usec).hour (lib.at epoch usec).minute
      ((lib.at epoch usec).second, 0))
  := by
  have hmktime := hlib.mktime_localtime epoch
  have hfound : lib.mktime (lib.localtime epoch).1 ≠ -1 := by
    intro hminus
    rw [hminus] at hmktime
    exact hbefore hmktime.symm
  have hread : lib.localTimeIntern (lib.at epoch usec).year (lib.at epoch usec).month
        (lib.at epoch usec).day (lib.at epoch usec).hour (lib.at epoch usec).minute
        ((lib.at epoch usec).second, 0)
      = .time (lib.at (lib.mktime (lib.localtime epoch).1) 0) :=
    (if_neg hfound).trans (if_neg (by simp))
  rw [hread]
  apply ReadBack.time
  · apply hmktime
  · rfl
  · intro honce
    have hepoch : lib.mktime (lib.localtime epoch).1 = epoch := honce _ hmktime
    rw [hepoch]
    rfl

/-- A column that is written is read back. -/
theorem column_read_back {lib : CLibrary} (hlib : lib.Lawful) {c : Column}
    (h : Storable lib c.type c.value) :
  ∃ string value, c.written = some (c.name, c.type.oid, string) ∧
    fieldValue lib c.type.oid string = some value ∧ ReadBack lib c.value value
  := by
  obtain ⟨name, type, v⟩ := c
  cases h with
  | bool b =>
      cases b with
      | true => exact ⟨some (encodeUtf8 ['t']), _, rfl, rfl, .bool true⟩
      | false => exact ⟨some (encodeUtf8 ['f']), _, rfl, rfl, .bool false⟩
  | @int z h =>
      obtain ⟨hlow, hhigh⟩ := h
      have hstored : ColumnType.stored .int8 (.number (numberText z))
          = some (.int8 (Int64.ofInt z)) := by
        have hread : Json.intOf (numberText z) = some z := Json.intOf_printInt z
        rw [ColumnType.stored, hread, Option.bind_some, if_pos ⟨by omega, by omega⟩]
      refine ⟨some (encodeUtf8 (numberText z)), .int z, ?_, ?_, .int z⟩
      · rw [Column.written, pgFormat, Option.bind_some, hstored, Option.map_some, Datum.textForm,
          Int64.toInt_ofInt_of_le (by omega) (by omega), Option.map_some]
      · have hatoi := atoi_numberText (z := z) (by omega) (by omega)
        rw [bmod_eq_self hlow hhigh] at hatoi
        exact congrArg (fun z => some (Scm.int z)) hatoi
  | @str s h =>
      by_cases hs : s = []
      · subst hs
        exact ⟨none, _, rfl, rfl, .empty⟩
      · refine ⟨some (encodeUtf8 s), .str s, ?_, ?_, .str hs⟩
        · rw [Column.written, pgFormat_str h, Option.bind_some, constant, if_neg hs]
          rfl
        · exact congrArg (fun s => some (Scm.str s)) (safeFromUtf8_flatMap s)
  | @time epoch usec hlow hhigh hbefore =>
      have hvalid := hlib.valid epoch
      refine ⟨(Datum.timestamp (lib.localtime epoch).1).textForm.map encodeUtf8, _, ?_,
        fieldValue_timestamp hlib hvalid (by omega) hhigh, readBack_localTimeIntern hlib hbefore⟩
      rw [Column.written, pgFormat, Option.bind_some,
        stored_formatTime (t := lib.at epoch usec) hvalid hlow hhigh]
      rfl

/-- The fields of a row are put one before the other. -/
theorem buildTypedRow_eq {lib : CLibrary} {fields : List (Text × ℕ × Option (List UInt8))}
    {values : List Scm}
    (h : List.Forall₂ (fun f v => fieldValue lib f.2.1 f.2.2 = some v) fields values)
    (row : List (Text × Scm)) :
  buildTypedRow lib (.alist row) fields
    = some (.alist (((fields.map Prod.fst).zip values).reverse ++ row))
  := by
  induction h generalizing row with
  | nil => rfl
  | @cons f v fields values hv _ ih =>
      obtain ⟨name, dtype, string⟩ := f
      rw [buildTypedRow, hv, Option.bind_some, ← Scm.alist_cons (name, v) row, ih, List.map_cons,
        List.zip_cons_cons, List.reverse_cons, List.append_assoc, List.singleton_append]

/-- The columns of a row are written and read back. -/
theorem columns_read_back {lib : CLibrary} (hlib : lib.Lawful) {columns : List Column}
    (h : ∀ c ∈ columns, Storable lib c.type c.value) :
  ∃ fields values, columns.mapM Column.written = some fields ∧
    fields.map Prod.fst = columns.map Column.name ∧
    List.Forall₂ (fun f v => fieldValue lib f.2.1 f.2.2 = some v) fields values ∧
    List.Forall₂ (fun c v => ReadBack lib c.value v) columns values
  := by
  induction columns with
  | nil => exact ⟨[], [], rfl, rfl, .nil, .nil⟩
  | cons c columns ih =>
      obtain ⟨string, value, hwritten, hvalue, hback⟩ :=
        column_read_back hlib (h c List.mem_cons_self)
      obtain ⟨fields, values, hfields, hnames, hvalues, hbacks⟩ :=
        ih (fun d hd => h d (List.mem_cons_of_mem c hd))
      refine ⟨(c.name, c.type.oid, string) :: fields, value :: values, ?_, ?_,
        .cons hvalue hvalues, .cons hback hbacks⟩
      · rw [List.mapM_cons, hwritten, hfields]
        rfl
      · rw [List.map_cons, List.map_cons, hnames]

/-- **Round trip through a table.**  Each object that is written to a column of its type is read
back. -/
theorem row_round_trip {lib : CLibrary} (hlib : lib.Lawful) {columns : List Column}
    (h : ∀ c ∈ columns, Storable lib c.type c.value) :
  ∃ values, List.Forall₂ (fun c v => ReadBack lib c.value v) columns values ∧
    rowTrip lib columns = some (.alist ((columns.map Column.name).zip values).reverse)
  := by
  obtain ⟨fields, values, hfields, hnames, hvalues, hbacks⟩ := columns_read_back hlib h
  have hrow := buildTypedRow_eq hvalues []
  rw [hnames, List.append_nil] at hrow
  use values, hbacks
  rw [rowTrip, hfields]
  exact hrow

/-! ### An afternoon in universal time -/

/-- A library that knows universal time at an instant of an afternoon, at the second before the
epoch, and at the epoch. -/
def afternoon : CLibrary where
  localtime e :=
    if e = 1700000000 then (⟨2023, 11, 14, 22, 13, 20⟩, 0)
    else if e = -1 then (⟨1969, 12, 31, 23, 59, 59⟩, 0)
    else (⟨1970, 1, 1, 0, 0, 0⟩, 0)
  mktime c :=
    if c = ⟨2023, 11, 14, 22, 13, 20⟩ then 1700000000
    else if c = ⟨1969, 12, 31, 23, 59, 59⟩ then -1
    else 0
  seconds s := (signedValue s, 0)
  real s := numberText (signedValue s) ++ ".0".toList

theorem lawful_afternoon :
  afternoon.Lawful
  where
  valid := by
    intro e
    simp only [afternoon]
    split_ifs <;> decide
  mktime_localtime := by
    intro e
    by_cases hafternoon : e = 1700000000
    · subst hafternoon
      decide
    · by_cases hbefore : e = -1
      · subst hbefore
        decide
      · have hepoch : afternoon.localtime e = (⟨1970, 1, 1, 0, 0, 0⟩, 0) := by
          simp [afternoon, hafternoon, hbefore]
        rw [hepoch]
        decide
  seconds_decimal := by
    intro n t _ ht
    have hvalue := @signedValue_of_decimal _ _ ht [] (by simp)
    rw [List.append_nil] at hvalue
    simp only [afternoon, hvalue]

/-- A row with an object of each kind. -/
theorem row_round_trip_order :
  ∃ values,
    List.Forall₂ (fun (c : Column) v => ReadBack afternoon c.value v)
      [⟨"paid".toList, .bool, .bool true⟩, ⟨"amount".toList, .int8, .int (-250)⟩,
        ⟨"item".toList, .text, .str "tea".toList⟩,
        ⟨"at".toList, .timestamp, .time (afternoon.at 1700000000 5)⟩] values ∧
    rowTrip afternoon
      [⟨"paid".toList, .bool, .bool true⟩, ⟨"amount".toList, .int8, .int (-250)⟩,
        ⟨"item".toList, .text, .str "tea".toList⟩,
        ⟨"at".toList, .timestamp, .time (afternoon.at 1700000000 5)⟩]
      = some (.alist ((["paid".toList, "amount".toList, "item".toList, "at".toList]).zip
          values).reverse)
  := by
  apply row_round_trip lawful_afternoon
  simp only [List.forall_mem_cons, List.not_mem_nil, false_implies, implies_true, and_true]
  exact ⟨.bool true, .int (by decide), .str (by decide),
    .time (by decide) (by decide) (by decide)⟩

/-- The empty string is stored as `NULL`. -/
theorem empty_string_lost :
  rowTrip afternoon [⟨"note".toList, .text, .str []⟩]
      = some (.alist [("note".toList, .nil)]) ∧
    Scm.nil ≠ .str []
  := by
  constructor
  · rfl
  · nofun

end Gusher
