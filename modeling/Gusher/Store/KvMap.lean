import Gusher.Store.Kv
import Mathlib.Data.Set.Card

/-!
# What the key-value store is for

The abstract store: a finite map from namespaces and keys to values, with the special place that
the empty string has.  An empty value is read as `'()`.  Nothing is stored under an empty
namespace, and what is stored under an empty key has no name: it is only seen by `kv-count` and
`kv-keys`.  A call with a NUL in a string raises an exception.

The statements on the table are described by what they do to the abstract store
(`serve_selectValue` and so on).
-/

namespace Gusher

/-- The abstract store. -/
@[ext]
structure KvMap where
  /-- the values, where `none` is the empty value -/
  value : Text → Text → Option (Option Text)
  finite : ∀ ns, {key | (value ns key).isSome}.Finite
  /-- the number of values without a name -/
  unnamed : Text → ℕ

namespace KvMap

/-- The map with another value in one place, or none. -/
def put (m : KvMap) (ns key : Text) (x : Option (Option Text)) : KvMap where
  value ns' key' := if ns' = ns ∧ key' = key then x else m.value ns' key'
  finite ns' := by
    apply ((m.finite ns').insert key).subset
    intro key' hkey'
    by_cases hkey : key' = key
    · exact Or.inl hkey
    · right
      simpa [hkey] using hkey'
  unnamed := m.unnamed

/-- What is found. -/
def lookup (m : KvMap) (ns key : Text) : Option (Option Text) :=
  if ns = [] ∨ key = [] then none else m.value ns key

/-- A value is stored. -/
def set (m : KvMap) (ns key value : Text) : KvMap :=
  if ns = [] then m
  else if key = [] then { m with unnamed := Function.update m.unnamed ns (m.unnamed ns + 1) }
  else m.put ns key (some (if value = [] then none else some value))

/-- A value is deleted. -/
def del (m : KvMap) (ns key : Text) : KvMap :=
  if ns = [] ∨ key = [] then m else m.put ns key none

/-- How many values a namespace has. -/
noncomputable def count (m : KvMap) (ns : Text) : ℕ :=
  if ns = [] then 0 else {key | (m.value ns key).isSome}.ncard + m.unnamed ns

/-- A list of the keys of a namespace, in any order, and `'()` for each value without a name. -/
def ListsKeys (m : KvMap) (ns : Text) (xs : List Scm) : Prop :=
  if ns = [] then xs = []
  else ∃ keys : List Text, keys.Nodup ∧ (∀ key, key ∈ keys ↔ (m.value ns key).isSome)
    ∧ xs.Perm (keys.map .str ++ List.replicate (m.unnamed ns) .nil)

def read : Option (Option Text) → Scm
  | none => .bool false
  | some none => .nil
  | some (some s) => .str s

end KvMap

namespace KvCall

/-- The arguments of a call. -/
def strings : KvCall → List Text
  | get ns key | exist ns key | del ns key => [ns, key]
  | set ns key value => [value, ns, key]
  | count ns | keys ns => [ns]

def HasNul (call : KvCall) : Prop :=
  ∃ s ∈ call.strings, Char.ofNat 0 ∈ s

instance (call : KvCall) : Decidable call.HasNul :=
  inferInstanceAs (Decidable (∃ s ∈ call.strings, Char.ofNat 0 ∈ s))

end KvCall

namespace KvMap

/-- The answers to a call without a NUL.  How a namespace with 2³¹ values or more is counted is
left open. -/
def Answers (m : KvMap) : KvCall → KvAnswer → Prop
  | .get ns key, ans => ans = .object (read (m.lookup ns key))
  | .set _ _ _, ans => ans = .done
  | .exist ns key, ans => ans = .bool (m.lookup ns key).isSome
  | .count ns, ans => ∃ n : ℤ, ans = .object (.int n) ∧ (m.count ns < 2 ^ 31 → n = m.count ns)
  | .keys ns, ans => ∃ xs, ans = .keys xs ∧ m.ListsKeys ns xs
  | .del _ _, ans => ans = .done

/-- The map after a call without a NUL. -/
def after (m : KvMap) : KvCall → KvMap
  | .set ns key value => m.set ns key value
  | .del ns key => m.del ns key
  | _ => m

/-- A call may return `out`, where `none` is an exception. -/
def Allows (m : KvMap) (call : KvCall) (out : Option KvAnswer) : Prop :=
  if call.HasNul then out = none else ∃ ans, out = some ans ∧ m.Answers call ans

/-- The map after a call. -/
def next (m : KvMap) (call : KvCall) : KvMap :=
  if call.HasNul then m else m.after call

end KvMap

/-- The abstract store. -/
def kvSpec : Spec KvCall KvAnswer KvMap where
  allows := KvMap.Allows
  next := KvMap.next

/-! ### The table as a map -/

/-- The row is that of a namespace and a key. -/
def Row.at (ns key : Text) (row : Row) : Bool :=
  row.ns = some ns ∧ row.key = some key

/-- The row belongs to a namespace. -/
def Row.within (ns : Text) (row : Row) : Bool :=
  row.ns = some ns

namespace Table

def keys (t : Table) (ns : Text) : List Text :=
  t.filterMap (fun row => if row.ns = some ns then row.key else none)

/-- A key has a row exactly when it is found. -/
theorem mem_keys {t : Table} {ns key : Text} :
  key ∈ t.keys ns ↔ (t.find? (Row.at ns key)).isSome
  := by
  rw [keys, List.mem_filterMap, List.find?_isSome]
  constructor
  · rintro ⟨row, hrow, hkey⟩
    refine ⟨row, hrow, ?_⟩
    split at hkey
    case isTrue hns => simp [Row.at, hns, hkey]
    case isFalse => cases hkey
  · rintro ⟨row, hrow, hat⟩
    simp only [Row.at, Bool.decide_and, Bool.and_eq_true, decide_eq_true_eq] at hat
    exact ⟨row, hrow, by rw [if_pos hat.1, hat.2]⟩

/-- The abstract store of a table. -/
def toMap (t : Table) : KvMap where
  value ns key := (t.find? (Row.at ns key)).map Row.value
  finite ns := by
    apply (t.keys ns).finite_toSet.subset
    intro key hkey
    apply mem_keys.mpr
    simpa using hkey
  unnamed ns := t.countP (fun row => row.within ns ∧ row.key = none)

end Table

/-! ### Rows -/

/-- A comparison with a string without a NUL. -/
theorem sqlEq_constant (column : Option Text) (s : Text) :
  sqlEq column (constant s) = decide (s ≠ [] ∧ column = some s)
  := by
  rw [constant]
  by_cases hs : s = []
  · cases column with
    | none => simp [sqlEq, hs]
    | some a => simp [sqlEq, hs, Constant.column]
  · cases column with
    | none => simp [sqlEq, hs]
    | some a => simp [sqlEq, hs, Constant.column]

/-- The condition in a statement, with names that are not empty. -/
theorem is_constant {ns key : Text} (hns : ns ≠ []) (hkey : key ≠ []) :
  Row.is (constant ns) (constant key) = Row.at ns key
  := by
  funext row
  simp [Row.is, Row.at, sqlEq_constant, hns, hkey]

/-- The condition in a statement, with an empty name. -/
theorem is_constant_empty {ns key : Text} (h : ns = [] ∨ key = []) :
  Row.is (constant ns) (constant key) = fun _ => false
  := by
  funext row
  rcases h with h | h
  · simp [Row.is, sqlEq_constant, h]
  · simp [Row.is, sqlEq_constant, h]

theorem isNumber_constant (s : Text) :
  (constant s).isNumber = false
  := by
  rw [constant]
  split
  case isTrue => rfl
  case isFalse => rfl

theorem column_constant (s : Text) :
  (constant s).column = if s = [] then none else some s
  := by
  rw [constant]
  split
  case isTrue => rfl
  case isFalse => rfl

namespace Table.Unique

/-- At most one row has a namespace and a key. -/
theorem filter_at {t : Table} (hu : t.Unique) (ns key : Text) :
  t.filter (Row.at ns key) = (t.find? (Row.at ns key)).toList
  := by
  induction t with
  | nil => rfl
  | cons row t ih =>
      obtain ⟨hrow, hrest⟩ := List.pairwise_cons.mp hu
      by_cases hat : row.at ns key
      · have hnone : t.filter (Row.at ns key) = [] := by
          apply List.filter_eq_nil_iff.mpr
          intro row' hrow' hat'
          simp only [Row.at, Bool.decide_and, Bool.and_eq_true, decide_eq_true_eq] at hat hat'
          apply hrow row' hrow'
          · rw [hat.1]
            rfl
          · rw [hat.2]
            rfl
          · rw [hat.1, hat.2, hat'.1, hat'.2]
            exact ⟨rfl, rfl⟩
        rw [List.filter_cons_of_pos hat, List.find?_cons_of_pos hat, hnone]
        rfl
      · rw [List.filter_cons_of_neg hat, List.find?_cons_of_neg hat, ih hrest]

/-- The rows that a statement is about. -/
theorem filter_is {t : Table} (hu : t.Unique) (ns key : Text) :
  (t.filter (Row.is (constant ns) (constant key))).map Row.value = (t.toMap.lookup ns key).toList
  := by
  rw [KvMap.lookup]
  split
  case isTrue h => simp [is_constant_empty h]
  case isFalse h =>
      rw [not_or] at h
      rw [is_constant h.1 h.2, hu.filter_at]
      cases hfind : t.find? (Row.at ns key) with
      | none => simp [toMap, hfind]
      | some row => simp [toMap, hfind]

/-- How many rows a statement is about. -/
theorem countP_is {t : Table} (hu : t.Unique) (ns key : Text) :
  t.countP (Row.is (constant ns) (constant key)) = if (t.toMap.lookup ns key).isSome then 1 else 0
  := by
  have hlength := congrArg List.length (hu.filter_is ns key)
  rw [List.length_map, ← List.countP_eq_length_filter] at hlength
  rw [hlength]
  cases t.toMap.lookup ns key with
  | none => rfl
  | some x => rfl

/-- The keys of a namespace are different. -/
theorem nodup_keys {t : Table} (hu : t.Unique) (ns : Text) :
  (t.keys ns).Nodup
  := by
  apply hu.filterMap
  intro r₁ r₂ hr key₁ hkey₁ key₂ hkey₂ heq
  simp only [Option.ite_none_right_eq_some] at hkey₁ hkey₂
  apply hr
  · rw [hkey₁.1]
    rfl
  · rw [hkey₁.2]
    rfl
  · rw [hkey₁.1, hkey₁.2, hkey₂.1, hkey₂.2, heq]
    exact ⟨rfl, rfl⟩

end Table.Unique

/-- The keys of the rows of a namespace, as they are taken out of a result. -/
theorem decode_keys (t : Table) (ns : Text) :
  ((t.filter (Row.within ns)).map (fun row => pgDecode (.ofColumn row.key))).Perm
    ((t.keys ns).map .str ++ List.replicate (t.toMap.unnamed ns) .nil)
  := by
  induction t with
  | nil => exact List.Perm.refl _
  | cons row t ih =>
      by_cases hns : row.ns = some ns
      · have hwithin : row.within ns = true := by simp [Row.within, hns]
        cases hkey : row.key with
        | none =>
            have hcount : (Table.toMap (row :: t)).unnamed ns = (Table.toMap t).unnamed ns + 1 := by
              simp [Table.toMap, hwithin, hkey]
            have hkeys : Table.keys (row :: t) ns = Table.keys t ns := by
              simp [Table.keys, hns, hkey]
            rw [List.filter_cons_of_pos hwithin, List.map_cons, hcount, hkeys, hkey,
              List.replicate_succ]
            exact (ih.cons _).trans List.perm_middle.symm
        | some key =>
            have hcount : (Table.toMap (row :: t)).unnamed ns = (Table.toMap t).unnamed ns := by
              simp [Table.toMap, hkey]
            have hkeys : Table.keys (row :: t) ns = key :: Table.keys t ns := by
              simp [Table.keys, hns, hkey]
            rw [List.filter_cons_of_pos hwithin, List.map_cons, hcount, hkeys, hkey]
            simp only [Cell.ofColumn, pgDecode_text, List.map_cons, List.cons_append]
            exact ih.cons _
      · have hwithin : ¬ row.within ns = true := by simp [Row.within, hns]
        have hcount : (Table.toMap (row :: t)).unnamed ns = (Table.toMap t).unnamed ns := by
          simp [Table.toMap, hwithin]
        have hkeys : Table.keys (row :: t) ns = Table.keys t ns := by
          simp [Table.keys, hns]
        rw [List.filter_cons_of_neg hwithin, hcount, hkeys]
        exact ih

/-- How many rows a namespace has. -/
theorem count_toMap {t : Table} (hu : t.Unique) {ns : Text} (hns : ns ≠ []) :
  t.toMap.count ns = t.countP (Row.within ns)
  := by
  have hkeys : {key | (t.toMap.value ns key).isSome} = ((t.keys ns).toFinset : Set Text) := by
    ext key
    simp [Table.mem_keys, Table.toMap]
  have hlength := (decode_keys t ns).length_eq
  rw [List.length_map, List.length_append, List.length_map, List.length_replicate] at hlength
  rw [KvMap.count, if_neg hns, hkeys, Set.ncard_coe_finset,
    List.toFinset_card_of_nodup (hu.nodup_keys ns), List.countP_eq_length_filter, hlength]

/-! ### What the statements do -/

/-- A response that is possible, when nothing is compared with a number. -/
theorem serve_eq_some {t t' : Table} {s : Statement} {r : PGResult}
    (hs : s.compared.any Constant.isNumber = false) (h : serve t s r = some t') :
  r.fields = (s.effect t).1.fields ∧ r.tuples.Perm (s.effect t).1.tuples
    ∧ r.cmdTuples = (s.effect t).1.cmdTuples ∧ t' = (s.effect t).2
  := by
  rw [serve, Statement.exec, hs] at h
  simp only [Bool.false_eq_true, if_false, Option.ite_none_right_eq_some, Option.some.injEq] at h
  exact ⟨h.1.1, h.1.2.1, h.1.2.2, h.2.symm⟩

/-- The response to a `select` of one field with at most one row. -/
theorem pgOneRow_select {r : PGResult} {field : String} (cell : Option Cell)
    (hfields : r.fields = [field.toList])
    (htuples : r.tuples.Perm (cell.toList.map (fun c => [c]))) :
  pgOneRow r = (cell.map (fun c => buildRow [field.toList] [c])).getD (.bool false)
  := by
  cases cell with
  | none =>
      rw [pgOneRow, List.perm_nil.mp htuples]
      rfl
  | some c =>
      rw [pgOneRow, List.perm_singleton.mp htuples, hfields]
      rfl

section

variable {t t' : Table} {r : PGResult}

/-- The statement of `kv-get`. -/
theorem serve_selectValue (hu : t.Unique) {ns key : Text}
    (h : serve t (.selectValue (constant ns) (constant key)) r = some t') :
  t' = t ∧ pgCell (pgOneRow r) "value" = KvMap.read (t.toMap.lookup ns key)
  := by
  obtain ⟨hfields, htuples, -, ht⟩ :=
    serve_eq_some (by simp [Statement.compared, isNumber_constant]) h
  have hcells : (t.filter (Row.is (constant ns) (constant key))).map
      (fun row => Cell.ofColumn row.value)
      = ((t.toMap.lookup ns key).map Cell.ofColumn).toList := by
    rw [Option.toList_map, ← hu.filter_is, List.map_map]
    rfl
  rw [Statement.effect, PGResult.select, hcells] at htuples
  refine ⟨ht, ?_⟩
  rw [pgOneRow_select _ hfields htuples]
  cases t.toMap.lookup ns key with
  | none => rfl
  | some x =>
      rw [Option.map_some, Option.map_some, Option.getD_some, pgCell_buildRow]
      cases x with
      | none => rfl
      | some s => apply pgDecode_text

/-- The statement of `kv-exists`. -/
theorem serve_selectKey (hu : t.Unique) {ns key : Text}
    (h : serve t (.selectKey (constant ns) (constant key)) r = some t') :
  t' = t ∧ decide (pgOneRow r ≠ .bool false) = (t.toMap.lookup ns key).isSome
  := by
  obtain ⟨hfields, htuples, -, ht⟩ :=
    serve_eq_some (by simp [Statement.compared, isNumber_constant]) h
  refine ⟨ht, ?_⟩
  have hlength := congrArg List.length (hu.filter_is ns key)
  rw [List.length_map] at hlength
  cases hfilter : t.filter (Row.is (constant ns) (constant key)) with
  | nil =>
      rw [hfilter] at hlength
      rw [Statement.effect, PGResult.select, hfilter] at htuples
      rw [pgOneRow_select none hfields htuples]
      cases hlookup : t.toMap.lookup ns key with
      | none => rfl
      | some x => simp [hlookup] at hlength
  | cons row rows =>
      rw [hfilter] at hlength
      cases hlookup : t.toMap.lookup ns key with
      | none => simp [hlookup] at hlength
      | some x =>
          have hrows : rows = [] := by simpa [hlookup] using hlength
          rw [Statement.effect, PGResult.select, hfilter, hrows] at htuples
          rw [pgOneRow_select (some (Cell.ofColumn row.key)) hfields htuples]
          simp [buildRow_singleton]

/-- The statement of `kv-count`. -/
theorem serve_selectCount (hu : t.Unique) {ns : Text}
    (h : serve t (.selectCount (constant ns)) r = some t') :
  t' = t ∧ pgCell (pgOneRow r) "n" = .int (Int.bmod (t.toMap.count ns) (2 ^ 32))
  := by
  obtain ⟨hfields, htuples, -, ht⟩ :=
    serve_eq_some (by simp [Statement.compared, isNumber_constant]) h
  refine ⟨ht, ?_⟩
  have hcount : t.countP (fun row => sqlEq row.ns (constant ns)) = t.toMap.count ns := by
    by_cases hns : ns = []
    · simp [hns, sqlEq_constant, KvMap.count]
    · rw [count_toMap hu hns]
      simp only [sqlEq_constant, ne_eq, hns, not_false_eq_true, true_and]
      rfl
  rw [Statement.effect, PGResult.select, hcount] at htuples
  rw [pgOneRow_select (some (.int8 (t.toMap.count ns))) hfields htuples]
  apply pgCell_buildRow

/-- The statement of `kv-keys`. -/
theorem serve_selectKeys (hu : t.Unique) {ns : Text}
    (h : serve t (.selectKeys (constant ns)) r = some t') :
  t' = t ∧ t.toMap.ListsKeys ns (pgMapRows r (fun row => pgCell row "key"))
  := by
  obtain ⟨hfields, htuples, -, ht⟩ :=
    serve_eq_some (by simp [Statement.compared, isNumber_constant]) h
  refine ⟨ht, ?_⟩
  have hrows : (pgMapRows r (fun row => pgCell row "key")).Perm
      ((t.filter (fun row => sqlEq row.ns (constant ns))).map
        (fun row => pgDecode (.ofColumn row.key))) := by
    have hcells : ((Statement.selectKeys (constant ns)).effect t).1.tuples.map
        (fun tuple => pgCell (buildRow r.fields tuple) "key")
        = (t.filter (fun row => sqlEq row.ns (constant ns))).map
          (fun row => pgDecode (.ofColumn row.key)) := by
      rw [hfields, Statement.effect, PGResult.select, List.map_map, List.map_map]
      apply List.map_congr_left
      intro row _
      exact pgCell_buildRow "key" _
    rw [← hcells]
    exact htuples.map _
  rw [KvMap.ListsKeys]
  split
  case isTrue hns => simpa [hns, sqlEq_constant] using hrows
  case isFalse hns =>
      have hwithin : (fun row : Row => sqlEq row.ns (constant ns)) = Row.within ns := by
        funext row
        simp [sqlEq_constant, hns, Row.within]
      rw [hwithin] at hrows
      refine ⟨t.keys ns, hu.nodup_keys ns, ?_, hrows.trans (decode_keys t ns)⟩
      intro key
      simp [Table.mem_keys, Table.toMap]

/-- There is a row with the names of a statement exactly when there is a value. -/
theorem any_is (hu : t.Unique) (ns key : Text) :
  t.any (Row.is (constant ns) (constant key)) = (t.toMap.lookup ns key).isSome
  := by
  have hcount := hu.countP_is ns key
  cases hlookup : (t.toMap.lookup ns key).isSome with
  | false =>
      rw [hlookup, if_neg Bool.false_ne_true, List.countP_eq_zero] at hcount
      simpa using hcount
  | true =>
      rw [hlookup, if_pos rfl] at hcount
      have hpos : 0 < t.countP (Row.is (constant ns) (constant key)) := by omega
      obtain ⟨row, hrow, his⟩ := List.countP_pos_iff.mp hpos
      exact List.any_eq_true.mpr ⟨row, hrow, his⟩

theorem ne_nil_of_lookup {m : KvMap} {ns key : Text} (h : (m.lookup ns key).isSome) :
  ns ≠ [] ∧ key ≠ []
  := by
  rw [KvMap.lookup] at h
  split at h
  case isTrue => cases h
  case isFalse hne => exact not_or.mp hne

/-- Another value in the row of a namespace and a key. -/
theorem toMap_update {ns key : Text} {x : Option Text}
    (hfind : (t.find? (Row.at ns key)).isSome) :
  Table.toMap (t.map (fun row => if row.at ns key then { row with value := x } else row))
    = t.toMap.put ns key (some x)
  := by
  have hat : ∀ ns' key', Row.at ns' key'
      ∘ (fun row : Row => if row.at ns key then { row with value := x } else row)
      = Row.at ns' key' := by
    intro ns' key'
    funext row
    simp only [Function.comp_apply]
    split
    case isTrue => rfl
    case isFalse => rfl
  ext1
  · funext ns' key'
    simp only [Table.toMap, KvMap.put, List.find?_map, hat, Option.map_map]
    split
    case isTrue heq =>
        rw [heq.1, heq.2]
        obtain ⟨row, hrow⟩ := Option.isSome_iff_exists.mp hfind
        rw [hrow, Option.map_some]
        simp [List.find?_some hrow]
    case isFalse hne =>
        cases hrow : t.find? (Row.at ns' key') with
        | none => rfl
        | some row =>
            have hat' := List.find?_some hrow
            have hnot : ¬ row.at ns key = true := by
              intro hat''
              simp only [Row.at, Bool.decide_and, Bool.and_eq_true, decide_eq_true_eq] at hat' hat''
              apply hne
              rw [hat'.1, hat'.2] at hat''
              exact ⟨Option.some.inj hat''.1, Option.some.inj hat''.2⟩
            simp [hnot]
  · funext ns'
    simp only [Table.toMap, KvMap.put, List.countP_map]
    congr 1
    funext row
    simp only [Function.comp_apply]
    split
    case isTrue => rfl
    case isFalse => rfl

/-- The first statement of `kv-set`. -/
theorem serve_update (hu : t.Unique) {ns key value : Text}
    (h : serve t (.update (constant value) (constant ns) (constant key)) r = some t') :
  t'.Unique ∧ if (t.toMap.lookup ns key).isSome then
      pgCmdTuples r = 1 ∧ t'.toMap = t.toMap.set ns key value
    else pgCmdTuples r = 0 ∧ t' = t
  := by
  obtain ⟨-, -, hcount, ht⟩ :=
    serve_eq_some (by simp [Statement.compared, isNumber_constant]) h
  have hcount : pgCmdTuples r = if (t.toMap.lookup ns key).isSome then 1 else 0 := by
    rw [pgCmdTuples, hcount, Statement.effect, PGResult.command, hu.countP_is]
    split
    case isTrue => exact (bmod_natCast_eq_iff 1).mpr (by decide)
    case isFalse => exact (bmod_natCast_eq_iff 0).mpr (by decide)
  constructor
  · rw [ht, Statement.effect, Table.Unique, List.pairwise_map]
    apply List.Pairwise.imp _ hu
    intro r₁ r₂ hr
    split
    case isTrue =>
        split
        case isTrue => exact hr
        case isFalse => exact hr
    case isFalse =>
        split
        case isTrue => exact hr
        case isFalse => exact hr
  · split
    case isTrue hsome =>
        rw [hsome, if_pos rfl] at hcount
        obtain ⟨hns, hkey⟩ := ne_nil_of_lookup hsome
        have hfind : (t.find? (Row.at ns key)).isSome := by
          simpa [KvMap.lookup, hns, hkey, Table.toMap] using hsome
        refine ⟨hcount, ?_⟩
        rw [ht, Statement.effect, is_constant hns hkey, toMap_update hfind, KvMap.set, if_neg hns,
          if_neg hkey, column_constant]
    case isFalse hnone =>
        rw [if_neg hnone] at hcount
        refine ⟨hcount, ?_⟩
        rw [ht, Statement.effect]
        have hany := any_is hu ns key
        rw [Bool.not_eq_true] at hnone
        rw [hnone, List.any_eq_false] at hany
        conv_rhs => rw [← List.map_id t]
        apply List.map_congr_left
        intro row hrow
        rw [if_neg (hany row hrow)]
        rfl

/-- The row that `insert` makes. -/
def newRow (ns key value : Text) : Row where
  ns := if ns = [] then none else some ns
  key := if key = [] then none else some key
  value := if value = [] then none else some value

/-- A new row keeps the constraint when there is no value. -/
theorem unique_append (hu : t.Unique) {ns key : Text} (value : Text)
    (hnone : ¬ (t.toMap.lookup ns key).isSome) :
  Table.Unique (t ++ [newRow ns key value])
  := by
  apply List.pairwise_append.mpr
  refine ⟨hu, List.pairwise_singleton _ _, ?_⟩
  intro row hrow new hnew
  obtain rfl := List.mem_singleton.mp hnew
  intro hns hkey heq
  rw [heq.1, newRow] at hns
  rw [heq.2, newRow] at hkey
  have hne : ns ≠ [] ∧ key ≠ [] := by
    constructor
    · intro hempty
      simp [hempty] at hns
    · intro hempty
      simp [hempty] at hkey
  apply hnone
  have hfind : (t.find? (Row.at ns key)).isSome := by
    apply List.find?_isSome.mpr
    refine ⟨row, hrow, ?_⟩
    simp [Row.at, heq.1, heq.2, newRow, hne.1, hne.2]
  simpa [KvMap.lookup, hne.1, hne.2, Table.toMap] using hfind

/-- A new row stores a value. -/
theorem toMap_append {ns key : Text} (value : Text)
    (hnone : ¬ (t.toMap.lookup ns key).isSome) :
  Table.toMap (t ++ [newRow ns key value]) = t.toMap.set ns key value
  := by
  rw [KvMap.set]
  split
  case isTrue hns =>
      ext1
      · funext ns' key'
        simp [Table.toMap, newRow, hns, Row.at]
      · funext ns'
        simp [Table.toMap, newRow, hns, Row.within]
  case isFalse hns =>
  split
  case isTrue hkey =>
      ext1
      · funext ns' key'
        simp [Table.toMap, newRow, hkey, Row.at]
      · funext ns'
        by_cases heq : ns' = ns
        · simp [Table.toMap, newRow, hns, hkey, Row.within, heq]
        · simp [Table.toMap, newRow, hns, hkey, Row.within, heq, Ne.symm heq]
  case isFalse hkey =>
      have hfind : t.find? (Row.at ns key) = none := by
        simpa [KvMap.lookup, hns, hkey, Table.toMap] using hnone
      ext1
      · funext ns' key'
        simp only [Table.toMap, KvMap.put, List.find?_append]
        split
        case isTrue heq => simp [heq.1, heq.2, hfind, newRow, hns, hkey, Row.at]
        case isFalse hother =>
            have hnot : Row.at ns' key' (newRow ns key value) = false := by
              simp only [Row.at, newRow, if_neg hns, if_neg hkey]
              simp only [Option.some.injEq, decide_eq_false_iff_not]
              rintro ⟨hns', hkey'⟩
              exact hother ⟨hns'.symm, hkey'.symm⟩
            simp [hnot]
      · funext ns'
        simp [Table.toMap, KvMap.put, newRow, hkey]

/-- The second statement of `kv-set`: it fails when there is a value. -/
theorem serve_insert (hu : t.Unique) {ns key value : Text}
    (h : serve t (.insert (constant ns) (constant key) (constant value)) r = some t') :
  t'.Unique ∧ if (t.toMap.lookup ns key).isSome then t' = t
    else t'.toMap = t.toMap.set ns key value
  := by
  obtain ⟨-, -, -, ht⟩ :=
    serve_eq_some (by simp [Statement.compared]) h
  rw [Statement.effect, any_is hu] at ht
  split at ht
  case isTrue hsome =>
      rw [if_pos hsome]
      subst ht
      exact ⟨hu, rfl⟩
  case isFalse hnone =>
      rw [if_neg hnone, ht]
      simp only [column_constant]
      exact ⟨unique_append hu value hnone, toMap_append value hnone⟩

/-- The statement of `kv-del`. -/
theorem serve_delete (hu : t.Unique) {ns key : Text}
    (h : serve t (.delete (constant ns) (constant key)) r = some t') :
  t'.Unique ∧ t'.toMap = t.toMap.del ns key
  := by
  obtain ⟨-, -, -, ht⟩ :=
    serve_eq_some (by simp [Statement.compared, isNumber_constant]) h
  rw [ht, Statement.effect]
  constructor
  · exact List.Pairwise.filter _ hu
  · rw [KvMap.del]
    split
    case isTrue hempty => simp [is_constant_empty hempty]
    case isFalse hne =>
        rw [not_or] at hne
        rw [is_constant hne.1 hne.2]
        ext1
        · funext ns' key'
          simp only [Table.toMap, KvMap.put, List.find?_filter]
          split
          case isTrue heq => simp [heq]
          case isFalse hother =>
              congr 2
              funext row
              simp only [Row.at] at *
              grind
        · funext ns'
          simp only [Table.toMap, KvMap.put, List.countP_filter]
          congr 1
          funext row
          simp only [Row.at] at *
          grind

end

end Gusher
