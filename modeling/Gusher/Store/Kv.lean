import Gusher.Library.Proc
import Gusher.Store.Postgres

/-!
# The key-value store

The table `_kv_`, the statements that the functions of the key-value store execute on it, and the
functions themselves.  A function is a procedure that sends statements to the server, and each
statement is executed at once.
-/

namespace Gusher

/-- A row of the table `_kv_`. -/
structure Row where
  ns : Option Text
  key : Option Text
  value : Option Text
  deriving DecidableEq

/-- The table `_kv_`. -/
abbrev Table := List Row

/-- The statements on the table `_kv_`, named after what they start with. -/
inductive Statement where
  | selectValue (ns key : Constant)
  | selectKey (ns key : Constant)
  | selectCount (ns : Constant)
  | selectKeys (ns : Constant)
  | update (value ns key : Constant)
  | insert (ns key value : Constant)
  | delete (ns key : Constant)
  deriving DecidableEq

/-! ### The server -/

def Constant.column : Constant → Option Text
  | .null => none
  | .literal s => some s
  | .number digits => some digits

/-- A text cannot be compared with a number. -/
def Constant.isNumber : Constant → Bool
  | .number _ => true
  | _ => false

/-- A comparison of a column with a constant: nothing compares with `NULL`. -/
def sqlEq (column : Option Text) (c : Constant) : Bool :=
  column.isSome && column = c.column

/-- The row has the given namespace and key. -/
def Row.is (ns key : Constant) (row : Row) : Bool :=
  sqlEq row.ns ns && sqlEq row.key key

def Cell.ofColumn : Option Text → Cell
  | none => .null
  | some s => .text s

def Statement.compared : Statement → List Constant
  | .selectValue ns key | .selectKey ns key | .update _ ns key | .delete ns key => [ns, key]
  | .selectCount ns | .selectKeys ns => [ns]
  | .insert _ _ _ => []

/-- The result of a `select` of one field. -/
def PGResult.select (field : String) (cells : List Cell) : PGResult where
  fields := [field.toList]
  tuples := cells.map (fun c => [c])
  cmdTuples := Int.bmod cells.length (2 ^ 32)

/-- The result of a statement that changes some rows. -/
def PGResult.command (n : ℕ) : PGResult where
  fields := []
  tuples := []
  cmdTuples := Int.bmod n (2 ^ 32)

/-- The result of a statement whose comparisons are possible, and the table it leaves.  The
constraint `unique (namespace, key)` makes an `insert` fail when there is a row with the same
namespace and key, neither of them `NULL`. -/
def Statement.effect (t : Table) : Statement → PGResult × Table
  | .selectValue ns key =>
      (.select "value" ((t.filter (Row.is ns key)).map (fun row => .ofColumn row.value)), t)
  | .selectKey ns key =>
      (.select "key" ((t.filter (Row.is ns key)).map (fun row => .ofColumn row.key)), t)
  | .selectCount ns => (.select "n" [.int8 (t.countP (fun row => sqlEq row.ns ns))], t)
  | .selectKeys ns =>
      (.select "key" ((t.filter (fun row => sqlEq row.ns ns)).map (fun row => .ofColumn row.key)), t)
  | .update value ns key =>
      (.command (t.countP (Row.is ns key)),
        t.map (fun row => if row.is ns key then { row with value := value.column } else row))
  | .insert ns key value =>
      if t.any (Row.is ns key) then (.failed, t)
      else (.command 1, t ++ [⟨ns.column, key.column, value.column⟩])
  | .delete ns key =>
      (.command (t.countP (Row.is ns key)), t.filter (fun row => ¬ row.is ns key))

/-- The result of a statement, and the table it leaves. -/
def Statement.exec (t : Table) (s : Statement) : PGResult × Table :=
  if s.compared.any Constant.isNumber then (.failed, t) else s.effect t

/-- The server: it gives the rows of a result in any order. -/
def serve (t : Table) (s : Statement) (r : PGResult) : Option Table :=
  if r.fields = (s.exec t).1.fields ∧ r.tuples.Perm (s.exec t).1.tuples
      ∧ r.cmdTuples = (s.exec t).1.cmdTuples then
    some (s.exec t).2
  else none

/-- No two rows have the same namespace and key, neither of them `NULL`. -/
def Table.Unique (t : Table) : Prop :=
  t.Pairwise (fun r₁ r₂ => r₁.ns.isSome → r₁.key.isSome → ¬ (r₁.ns = r₂.ns ∧ r₁.key = r₂.key))

/-! ### The functions -/

/-- A function of the key-value store. -/
abbrev Kv := Proc Statement PGResult

/-- `pg-format`. -/
def format (obj : Scm) : Kv Constant :=
  .ofOption (pgFormat obj)

/-- `kv-get`, with the namespace of the handle. -/
def kvGet (ns key : Scm) : Kv Scm := do
  let res ← .ask (.selectValue (← format ns) (← format key))
  return pgCell (pgOneRow res) "value"

/-- The second statement of `kv-set`. -/
def kvInsert (ns key value : Scm) : Kv Unit := do
  let _ ← .ask (.insert (← format ns) (← format key) (← format value))
  return ()

/-- `kv-set`; what it returns is not used. -/
def kvSet (ns key value : Scm) : Kv Unit := do
  let res ← .ask (.update (← format value) (← format ns) (← format key))
  if pgCmdTuples res < 1 then kvInsert ns key value else return ()

def kvExists (ns key : Scm) : Kv Bool := do
  let res ← .ask (.selectKey (← format ns) (← format key))
  return pgOneRow res ≠ .bool false

def kvCount (ns : Scm) : Kv Scm := do
  let res ← .ask (.selectCount (← format ns))
  return pgCell (pgOneRow res) "n"

def kvKeys (ns : Scm) : Kv (List Scm) := do
  let res ← .ask (.selectKeys (← format ns))
  return pgMapRows res (fun row => pgCell row "key")

/-- `kv-del`; what it returns is not used. -/
def kvDel (ns key : Scm) : Kv Unit := do
  let _ ← .ask (.delete (← format ns) (← format key))
  return ()

/-- A call of a function of the key-value store, with strings for arguments. -/
inductive KvCall where
  | get (ns key : Text)
  | set (ns key value : Text)
  | exist (ns key : Text)
  | count (ns : Text)
  | keys (ns : Text)
  | del (ns key : Text)
  deriving DecidableEq

/-- What a call returns. -/
inductive KvAnswer where
  /-- of `kv-get` and `kv-count` -/
  | object (x : Scm)
  /-- of `kv-exists` -/
  | bool (b : Bool)
  /-- of `kv-keys` -/
  | keys (xs : List Scm)
  /-- of `kv-set` and `kv-del` -/
  | done
  deriving DecidableEq

def kvCall : KvCall → Kv KvAnswer
  | .get ns key => do return .object (← kvGet (.str ns) (.str key))
  | .set ns key value => do
      kvSet (.str ns) (.str key) (.str value)
      return .done
  | .exist ns key => do return .bool (← kvExists (.str ns) (.str key))
  | .count ns => do return .object (← kvCount (.str ns))
  | .keys ns => do return .keys (← kvKeys (.str ns))
  | .del ns key => do
      kvDel (.str ns) (.str key)
      return .done

end Gusher
