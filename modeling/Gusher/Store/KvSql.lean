import Gusher.Store.Deflate
import Gusher.Store.Refinement

/-!
# The key-value store in SQL

The functions of the key-value store with the texts of their statements, which are deflated templates
in which the arguments are put.  The server is a parameter: all that is asked of it is that a text with
the tokens of a statement does what the statement says.  The calls answer as the abstract store does,
and `configure-database` changes nothing that is stored (`kv_sql_refines_map`).
-/

namespace Gusher

open SqlLexer

namespace Sql

/-! ### Statements in SQL -/

/-- A statement that the module sends. -/
inductive SqlStatement where
  /-- `create table if not exists _kv_` -/
  | createTable
  | table (s : Statement)

/-- A key word or a name. -/
def word (s : String) : Token :=
  .word s.toList

/-- A comparison of a column with a constant, and what is behind it. -/
def compared (column : String) (x : Constant) (rest : List Token) : List Token :=
  .special '(' :: word column :: .operator ['='] :: (x.tokens ++ .special ')' :: rest)

def whereNamespace (ns : Constant) (rest : List Token) : List Token :=
  word "where" :: compared "namespace" ns rest

/-- The rows with a namespace and a key. -/
def whereKey (ns key : Constant) : List Token :=
  whereNamespace ns (word "and" :: compared "key" key [])

/-- How SQL says a statement. -/
def SqlStatement.tokens : SqlStatement → List Token
  | createTable =>
      [word "create", word "table", word "if", word "not", word "exists", word "_kv_", .special '(',
        word "namespace", word "varchar", .special ',', word "key", word "varchar", .special ',',
        word "value", word "text", .special ',', word "unique", .special '(', word "namespace",
        .special ',', word "key", .special ')', .special ')']
  | table (.selectValue ns key) =>
      [word "select", word "value", word "from", word "_kv_"] ++ whereKey ns key
  | table (.selectKey ns key) =>
      [word "select", word "key", word "from", word "_kv_"] ++ whereKey ns key
  | table (.selectCount ns) =>
      [word "select", word "count", .special '(', .operator ['*'], .special ')', word "as", word "n",
        word "from", word "_kv_"] ++ whereNamespace ns []
  | table (.selectKeys ns) =>
      [word "select", word "key", word "from", word "_kv_"] ++ whereNamespace ns []
  | table (.update value ns key) =>
      [word "update", word "_kv_", word "set", word "value", .operator ['=']]
        ++ (value.tokens ++ whereKey ns key)
  | table (.insert ns key value) =>
      [word "insert", word "into", word "_kv_", .special '(', word "namespace", .special ',',
          word "key", .special ',', word "value", .special ')', word "values", .special '(']
        ++ (ns.tokens ++ .special ',' :: (key.tokens ++ .special ',' :: (value.tokens
          ++ [.special ')'])))
  | table (.delete ns key) => [word "delete", word "from", word "_kv_"] ++ whereKey ns key

/-- What SQL says of a server of databases `D`: it responds to every text, and a text with the tokens of
a statement does what the statement says.  The table `_kv_` of a database, when it has been created, is
given by `kv`. -/
structure Executes {D : Type} (server : D → Text → PGResult → Option D) (kv : D → Option Table) :
    Prop where
  responds : ∀ db text, ∃ r db', server db text r = some db'
  createTable : ∀ {db text r db'}, tokens text = SqlStatement.createTable.tokens →
    server db text r = some db' → kv db' = some ((kv db).getD [])
  table : ∀ {db t s text r db'}, kv db = some t → tokens text = (SqlStatement.table s).tokens →
    server db text r = some db' → ∃ t', serve t s r = some t' ∧ kv db' = some t'

/-! ### The functions -/

/-- A function that executes statements. -/
abbrev KvSql := Proc Text PGResult

/-- The statement of `configure-database`. -/
@[irreducible]
def configureDatabase.query : Text :=
  deflate "create table if not exists _kv_ (
\t\t\t\t\tnamespace varchar,
\t\t\t\t\tkey varchar,
\t\t\t\t\tvalue text,
\t\t\t\t\tunique (namespace, key))".toList

/-- The statement of `kv-get`. -/
def kvGet.query : Text :=
  deflate "select value
\t\t\t\t\tfrom _kv_
\t\t\t\t\twhere (namespace=~a)
\t\t\t\t\tand (key=~a)".toList

/-- The first statement of `kv-set`. -/
def kvSet.updateQuery : Text :=
  deflate "update _kv_ set
\t\t\t\t\tvalue=~a
\t\t\t\t\twhere (namespace=~a)
\t\t\t\t\tand (key=~a)".toList

/-- The second statement of `kv-set`. -/
def kvSet.insertQuery : Text :=
  deflate "insert into _kv_ (namespace, key, value)
\t\t\t\t\tvalues (~a, ~a, ~a)".toList

/-- The statement of `kv-exists`. -/
def kvExists.query : Text :=
  deflate "select key
\t\t\t\t\tfrom _kv_
\t\t\t\t\twhere (namespace=~a)
\t\t\t\t\tand (key=~a)".toList

/-- The statement of `kv-count`. -/
def kvCount.query : Text :=
  deflate "select count(*) as n
\t\t\t\t\tfrom _kv_
\t\t\t\t\twhere (namespace=~a)".toList

/-- The statement of `kv-keys`. -/
def kvKeys.query : Text :=
  "select key from _kv_ where (namespace=~a)".toList

/-- The statement of `kv-del`. -/
def kvDel.query : Text :=
  "delete from _kv_ where (namespace=~a) and (key=~a)".toList

section

variable (pqEscapeLiteral : List UInt8 → List UInt8)

/-- `pg-exec-primitive`: the text must not contain a NUL. -/
def pgExecPrimitive (query : Text) : KvSql PGResult :=
  if Char.ofNat 0 ∈ query then .raise else .ask query

def pgExec (query : Text) (args : List Scm) : KvSql PGResult :=
  if args = [] then pgExecPrimitive query
  else do pgExecPrimitive (← .ofOption (pgQuery pqEscapeLiteral query args))

/-- `configure-database`, which is given a connection. -/
def configureDatabase : KvSql Unit := do
  let _ ← pgExec pqEscapeLiteral configureDatabase.query []
  return ()

/-- `kv-get`, with the namespace of the handle. -/
def kvGet (ns key : Scm) : KvSql Scm := do
  let res ← pgExec pqEscapeLiteral kvGet.query [ns, key]
  return pgCell (pgOneRow res) "value"

/-- `kv-set`; what it returns is not used. -/
def kvSet (ns key value : Scm) : KvSql Unit := do
  let res ← pgExec pqEscapeLiteral kvSet.updateQuery [value, ns, key]
  if pgCmdTuples res < 1 then
    let _ ← pgExec pqEscapeLiteral kvSet.insertQuery [ns, key, value]
    return ()
  else return ()

def kvExists (ns key : Scm) : KvSql Bool := do
  let res ← pgExec pqEscapeLiteral kvExists.query [ns, key]
  return pgOneRow res ≠ .bool false

def kvCount (ns : Scm) : KvSql Scm := do
  let res ← pgExec pqEscapeLiteral kvCount.query [ns]
  return pgCell (pgOneRow res) "n"

def kvKeys (ns : Scm) : KvSql (List Scm) := do
  let res ← pgExec pqEscapeLiteral kvKeys.query [ns]
  return pgMapRows res (fun row => pgCell row "key")

/-- `kv-del`; what it returns is not used. -/
def kvDel (ns key : Scm) : KvSql Unit := do
  let _ ← pgExec pqEscapeLiteral kvDel.query [ns, key]
  return ()

def kvCall : KvCall → KvSql KvAnswer
  | .get ns key => do return .object (← kvGet pqEscapeLiteral (.str ns) (.str key))
  | .set ns key value => do
      kvSet pqEscapeLiteral (.str ns) (.str key) (.str value)
      return .done
  | .exist ns key => do return .bool (← kvExists pqEscapeLiteral (.str ns) (.str key))
  | .count ns => do return .object (← kvCount pqEscapeLiteral (.str ns))
  | .keys ns => do return .keys (← kvKeys pqEscapeLiteral (.str ns))
  | .del ns key => do
      kvDel pqEscapeLiteral (.str ns) (.str key)
      return .done

end

/-! ### The texts of the statements -/

section

variable {pqEscapeLiteral : List UInt8 → List UInt8}

/-- The characters of a text that is made of a template. -/
theorem mem_simpleFormat {t : Text} {texts : List Text} {text : Text}
    (h : simpleFormat t texts = some text) {c : Char} (hc : c ∈ text) :
  c ∈ t ∨ ∃ x ∈ texts, c ∈ x
  := by
  fun_induction simpleFormat t texts generalizing text with
  | case1 =>
      obtain rfl := Option.some.inj h
      cases hc
  | case2 => cases h
  | case3 rest arg args ih =>
      obtain ⟨text', htext', rfl⟩ := Option.map_eq_some_iff.mp h
      rcases List.mem_append.mp hc with hc | hc
      · exact Or.inr ⟨arg, List.mem_cons_self, hc⟩
      · rcases ih htext' hc with hmem | ⟨x, hx, hmem⟩
        · exact Or.inl (by simp [hmem])
        · exact Or.inr ⟨x, List.mem_cons_of_mem _ hx, hmem⟩
  | case4 => cases h
  | case5 d rest args _ _ ih =>
      obtain ⟨text', htext', rfl⟩ := Option.map_eq_some_iff.mp h
      rcases List.mem_cons.mp hc with rfl | hc
      · exact Or.inl List.mem_cons_self
      · exact (ih htext' hc).imp_left (List.mem_cons_of_mem _)

/-- There is no NUL in the text of a string without a NUL. -/
theorem nul_notMem_pgFormatSql (hescape : EscapesLiterals pqEscapeLiteral) {s text : Text}
    (hs : Char.ofNat 0 ∉ s) (h : pgFormatSql pqEscapeLiteral (.str s) = some text) :
  Char.ofNat 0 ∉ text
  := by
  rw [pgFormatSql, pgFormatSqlString] at h
  split at h
  case isTrue =>
      obtain rfl := Option.some.inj h
      decide
  case isFalse =>
      obtain ⟨literal, hliteral, hvalue⟩ := hescape s hs
      rw [encodeUtf8] at hliteral
      rw [toUtf8, if_neg hs, Option.map_some, hliteral] at h
      obtain rfl := Option.some.inj h
      rw [encodeUtf8, safeFromUtf8_flatMap]
      have hflat : ∀ p : Char → Bool, Char.ofNat 0
          ∉ s.flatMap (fun c => if p c = true then [c, c] else [c]) := by
        intro p hmem
        obtain ⟨c, hc, hzero⟩ := List.mem_flatMap.mp hmem
        split at hzero
        case isTrue =>
            simp only [List.mem_cons, List.not_mem_nil, or_false, or_self] at hzero
            exact hs (hzero ▸ hc)
        case isFalse => exact hs (List.mem_singleton.mp hzero ▸ hc)
      have hquote : Char.ofNat 0 ≠ quoteMark := by decide
      obtain rfl | rfl := hvalue
      · have hdoubled := hflat (fun c => c = quoteMark)
        simp only [decide_eq_true_eq] at hdoubled
        simpa [hquote, doubleQuotes] using hdoubled
      · have hdoubled := hflat (fun c => c = quoteMark ∨ c = escapeMark)
        simp only [decide_eq_true_eq] at hdoubled
        have hspace : Char.ofNat 0 ≠ ' ' := by decide
        have hletter : Char.ofNat 0 ≠ 'E' := by decide
        simpa [hquote, hspace, hletter, doubleEscapes] using hdoubled

/-- A value of a list of arguments. -/
theorem exists_of_mapM {α β : Type} {f : α → Option β} {xs : List α} {ys : List β}
    (h : xs.mapM f = some ys) {y : β} (hy : y ∈ ys) :
  ∃ x ∈ xs, f x = some y
  := by
  induction xs generalizing ys with
  | nil =>
      obtain rfl := Option.some.inj h
      cases hy
  | cons x xs ih =>
      rw [List.mapM_cons] at h
      obtain ⟨y', hy', hrest⟩ := Option.bind_eq_some_iff.mp h
      obtain ⟨ys', hys', hcons⟩ := Option.bind_eq_some_iff.mp hrest
      obtain rfl := Option.some.inj hcons
      rcases List.mem_cons.mp hy with rfl | hy
      · exact ⟨x, List.mem_cons_self, hy'⟩
      · obtain ⟨z, hz, heq⟩ := ih hys' hy
        exact ⟨z, List.mem_cons_of_mem _ hz, heq⟩

/-- A string with a NUL cannot be put into a statement. -/
theorem pgExec_nul {query : Text} {strings : List Text} (h : ∃ s ∈ strings, Char.ofNat 0 ∈ s) :
  pgExec pqEscapeLiteral query (strings.map .str) = .raise
  := by
  have hnone : (strings.map .str).mapM (pgFormatSql pqEscapeLiteral) = none := by
    obtain ⟨s, hs, hnul⟩ := h
    induction strings with
    | nil => cases hs
    | cons s' strings ih =>
        rw [List.map_cons, List.mapM_cons]
        rcases List.mem_cons.mp hs with rfl | hs
        · have hne : s ≠ [] := List.ne_nil_of_mem hnul
          rw [pgFormatSql, pgFormatSqlString, if_neg hne, toUtf8, if_pos hnul]
          rfl
        · rw [ih hs]
          cases pgFormatSql pqEscapeLiteral (.str s') with
          | none => rfl
          | some text => rfl
  have hne : strings.map Scm.str ≠ [] := by
    obtain ⟨s, hs, -⟩ := h
    exact List.ne_nil_of_mem (List.mem_map_of_mem hs)
  rw [pgExec, if_neg hne, pgQuery, hnone]
  rfl

/-- Strings can be put into the deflated template. -/
structure Plain (t : Text) (us : List Text) : Prop where
  directives : '~' ∉ t ∧ ∀ u ∈ us, '~' ∉ u
  fits : Fits t (us.map (fun u => (false, u)))
  squeezable : Squeezable .ground t ∧ ∀ u ∈ us, Squeezable .ground u
  white : ∀ c ∈ template t us, isWhitespace c = true → isWhite c = true
  nul : Char.ofNat 0 ∉ deflate (template t us)

/-- The query is such a template. -/
structure IsTemplate (query t : Text) (us : List Text) : Prop extends Plain t us where
  query_eq : query = deflate (template t us)

/-- The statement with strings without a NUL in the gaps. -/
theorem exists_pgExec (hescape : EscapesLiterals pqEscapeLiteral) {t : Text} {items : List (Text × Text)}
    (hplain : Plain t (items.map Prod.snd)) (hne : items ≠ [])
    (hnul : ∀ i ∈ items, Char.ofNat 0 ∉ i.1) :
  ∃ text, pgExec pqEscapeLiteral (deflate (template t (items.map Prod.snd)))
      (items.map (fun i => .str i.1)) = .ask text
    ∧ tokens text = tokens t ++ items.flatMap (fun i => (constant i.1).tokens ++ tokens i.2)
  := by
  have hsnd : (items.map (fun i => (Scm.str i.1, i.2))).map Prod.snd = items.map Prod.snd := by
    rw [List.map_map]
    rfl
  have hfst : (items.map (fun i => (Scm.str i.1, i.2))).map Prod.fst
      = items.map (fun i => Scm.str i.1) := by
    rw [List.map_map]
    rfl
  have hitems : ∀ j ∈ items.map (fun i => (Scm.str i.1, i.2)),
      InDecimal j.1 ∧ (pgFormat j.1).isSome := by
    intro j hj
    obtain ⟨i, hi, rfl⟩ := List.mem_map.mp hj
    rw [pgFormat_str (hnul i hi)]
    exact ⟨trivial, rfl⟩
  obtain ⟨text, htext, htokens⟩ := @exists_pgQuery_deflate _ hescape t
    (items.map (fun i => (Scm.str i.1, i.2))) hplain.directives.1
    (by
      intro j hj
      obtain ⟨i, hi, rfl⟩ := List.mem_map.mp hj
      exact hplain.directives.2 i.2 (List.mem_map_of_mem hi))
    hitems
    (by
      have hfits := hplain.fits
      rw [List.map_map] at hfits ⊢
      exact hfits)
    ⟨hplain.squeezable.1, by
      intro j hj
      obtain ⟨i, hi, rfl⟩ := List.mem_map.mp hj
      exact hplain.squeezable.2 i.2 (List.mem_map_of_mem hi)⟩
    (by rw [hsnd]; exact hplain.white)
  rw [hsnd, hfst] at htext
  have hnulText : Char.ofNat 0 ∉ text := by
    intro hmem
    obtain ⟨texts, htexts, hformat⟩ := Option.bind_eq_some_iff.mp htext
    rcases mem_simpleFormat hformat hmem with hmem | ⟨x, hx, hmem⟩
    · exact hplain.nul hmem
    · obtain ⟨v, hv, htextOf⟩ := exists_of_mapM htexts hx
      obtain ⟨i, hi, rfl⟩ := List.mem_map.mp hv
      exact nul_notMem_pgFormatSql hescape (hnul i hi) htextOf hmem
  refine ⟨text, ?_, ?_⟩
  · rw [pgExec, if_neg (by simpa using hne), htext, Proc.ofOption_some, Proc.done_bind, pgExecPrimitive,
      if_neg hnulText]
  · rw [htokens, List.flatMap_map]
    apply congrArg (tokens t ++ ·)
    apply List.flatMap_congr
    intro i hi
    rw [Scm.sqlTokens, pgFormat_str (hnul i hi)]
    rfl

/-- The text that is sent, when the template is that of a statement. -/
theorem exists_ask (hescape : EscapesLiterals pqEscapeLiteral) {query t : Text} {us : List Text}
    (hquery : IsTemplate query t us) (strings : List Text)
    (hlength : strings.length = us.length) (hne : strings ≠ []) (s : SqlStatement)
    (hs : tokens t ++ (strings.zip us).foldr
      (fun i ts => (constant i.1).tokens ++ (tokens i.2 ++ ts)) [] = s.tokens)
    (hnul : ∀ s ∈ strings, Char.ofNat 0 ∉ s) :
  ∃ text, pgExec pqEscapeLiteral query (strings.map .str) = .ask text ∧ tokens text = s.tokens
  := by
  have hsnd : (strings.zip us).map Prod.snd = us := List.map_snd_zip (le_of_eq hlength.symm)
  have hfst : (strings.zip us).map Prod.fst = strings := List.map_fst_zip (le_of_eq hlength)
  have hzip : strings.zip us ≠ [] := by
    intro hnil
    rw [hnil] at hfst
    exact hne hfst.symm
  have hnulZip : ∀ i ∈ strings.zip us, Char.ofNat 0 ∉ i.1 :=
    fun i hi => hnul i.1 (List.of_mem_zip hi).1
  obtain ⟨text, hask, htokens⟩ := exists_pgExec hescape (by rw [hsnd]; exact hquery.toPlain) hzip
    hnulZip
  have hargs : (strings.zip us).map (fun i => Scm.str i.1) = strings.map .str := by
    conv_rhs => rw [← hfst, List.map_map]
    rfl
  rw [hsnd, ← hquery.query_eq, hargs] at hask
  refine ⟨text, hask, ?_⟩
  rw [htokens, ← hs, List.flatMap_def]
  simp only [← List.append_assoc]
  rw [List.foldr_append_eq_append, List.append_nil]

/-! ### The calls -/

theorem isTemplate_kvGet :
  IsTemplate kvGet.query "select value\n\t\t\t\t\tfrom _kv_\n\t\t\t\t\twhere (namespace=".toList
    [")\n\t\t\t\t\tand (key=".toList, ")".toList]
  where
  directives := by decide
  fits := by decide
  squeezable := by decide
  white := white_of_all rfl
  nul := by decide
  query_eq := congrArg deflate (by decide)

theorem isTemplate_update :
  IsTemplate kvSet.updateQuery "update _kv_ set\n\t\t\t\t\tvalue=".toList
    ["\n\t\t\t\t\twhere (namespace=".toList, ")\n\t\t\t\t\tand (key=".toList, ")".toList]
  where
  directives := by decide
  fits := by decide
  squeezable := by decide
  white := white_of_all rfl
  nul := by decide
  query_eq := congrArg deflate (by decide)

theorem isTemplate_insert :
  IsTemplate kvSet.insertQuery "insert into _kv_ (namespace, key, value)\n\t\t\t\t\tvalues (".toList
    [", ".toList, ", ".toList, ")".toList]
  where
  directives := by decide
  fits := by decide
  squeezable := by decide
  white := white_of_all rfl
  nul := by decide
  query_eq := congrArg deflate (by decide)

theorem isTemplate_kvExists :
  IsTemplate kvExists.query "select key\n\t\t\t\t\tfrom _kv_\n\t\t\t\t\twhere (namespace=".toList
    [")\n\t\t\t\t\tand (key=".toList, ")".toList]
  where
  directives := by decide
  fits := by decide
  squeezable := by decide
  white := white_of_all rfl
  nul := by decide
  query_eq := congrArg deflate (by decide)

theorem isTemplate_kvCount :
  IsTemplate kvCount.query "select count(*) as n\n\t\t\t\t\tfrom _kv_\n\t\t\t\t\twhere (namespace=".toList
    [")".toList]
  where
  directives := by decide
  fits := by decide
  squeezable := by decide
  white := white_of_all rfl
  nul := by decide
  query_eq := congrArg deflate (by decide)

theorem isTemplate_kvKeys :
  IsTemplate kvKeys.query "select key from _kv_ where (namespace=".toList
    [")".toList]
  where
  directives := by decide
  fits := by decide
  squeezable := by decide
  white := white_of_all rfl
  nul := by decide
  query_eq := by decide

theorem isTemplate_kvDel :
  IsTemplate kvDel.query "delete from _kv_ where (namespace=".toList
    [") and (key=".toList, ")".toList]
  where
  directives := by decide
  fits := by decide
  squeezable := by decide
  white := white_of_all rfl
  nul := by decide
  query_eq := by decide

/-- The text is one of the statement. -/
def Denotes (s : Statement) (text : Text) : Prop :=
  tokens text = (SqlStatement.table s).tokens

/-- A call with a NUL raises an exception before it sends a statement. -/
theorem kvCall_of_hasNul {call : KvCall} (h : call.HasNul) :
  kvCall pqEscapeLiteral call = .raise
  := by
  have hraise : ∀ query, pgExec pqEscapeLiteral query (call.strings.map .str) = .raise :=
    fun query => pgExec_nul h
  cases call with
  | get ns key =>
      simp only [KvCall.strings, List.map_cons, List.map_nil] at hraise
      simp only [kvCall, kvGet, hraise, Proc.raise_bind]
  | set ns key value =>
      simp only [KvCall.strings, List.map_cons, List.map_nil] at hraise
      simp only [kvCall, kvSet, hraise, Proc.raise_bind]
  | exist ns key =>
      simp only [KvCall.strings, List.map_cons, List.map_nil] at hraise
      simp only [kvCall, kvExists, hraise, Proc.raise_bind]
  | count ns =>
      simp only [KvCall.strings, List.map_cons, List.map_nil] at hraise
      simp only [kvCall, kvCount, hraise, Proc.raise_bind]
  | keys ns =>
      simp only [KvCall.strings, List.map_cons, List.map_nil] at hraise
      simp only [kvCall, kvKeys, hraise, Proc.raise_bind]
  | del ns key =>
      simp only [KvCall.strings, List.map_cons, List.map_nil] at hraise
      simp only [kvCall, kvDel, hraise, Proc.raise_bind]

/-- A call does the same with texts as with statements. -/
theorem rel_kvCall (hescape : EscapesLiterals pqEscapeLiteral) (call : KvCall) :
  Proc.Rel Denotes (Gusher.kvCall call) (kvCall pqEscapeLiteral call)
  := by
  by_cases hnul : call.HasNul
  · rw [Gusher.kvCall_of_hasNul hnul, kvCall_of_hasNul hnul]
    exact .raise
  · have hstring := fun s => not_mem_of_not_hasNul hnul (s := s)
    cases call with
    | get ns key =>
        have hns := hstring ns (by simp [KvCall.strings])
        have hkey := hstring key (by simp [KvCall.strings])
        obtain ⟨text, hask, hdenotes⟩ := exists_ask hescape isTemplate_kvGet [ns, key] rfl (by simp)
          (.table (.selectValue (constant ns) (constant key))) rfl (by simp [hns, hkey])
        simp only [List.map_cons, List.map_nil] at hask
        simp only [Gusher.kvCall, kvGet_str hns hkey, kvCall, kvGet, hask, Proc.ask_bind,
          Proc.query_bind, Proc.done_bind, Proc.pure_eq]
        exact .query hdenotes (fun r => .done _)
    | set ns key value =>
        have hns := hstring ns (by simp [KvCall.strings])
        have hkey := hstring key (by simp [KvCall.strings])
        have hvalue := hstring value (by simp [KvCall.strings])
        obtain ⟨text, hask, hdenotes⟩ := exists_ask hescape isTemplate_update [value, ns, key] rfl (by simp)
          (.table (.update (constant value) (constant ns) (constant key))) rfl
          (by simp [hns, hkey, hvalue])
        obtain ⟨text', hask', hdenotes'⟩ := exists_ask hescape isTemplate_insert [ns, key, value] rfl
          (by simp) (.table (.insert (constant ns) (constant key) (constant value))) rfl
          (by simp [hns, hkey, hvalue])
        simp only [List.map_cons, List.map_nil] at hask hask'
        rw [kvCall_set hns hkey hvalue]
        simp only [kvCall, kvSet, hask, hask', Proc.ask_bind, Proc.query_bind, Proc.ite_bind,
          Proc.done_bind, Proc.pure_eq]
        refine @Proc.Rel.query _ _ _ _ Denotes _ _ _ _ hdenotes ?_
        intro r
        split
        case isTrue => exact .query hdenotes' (fun r => .done _)
        case isFalse => exact .done _
    | exist ns key =>
        have hns := hstring ns (by simp [KvCall.strings])
        have hkey := hstring key (by simp [KvCall.strings])
        obtain ⟨text, hask, hdenotes⟩ := exists_ask hescape isTemplate_kvExists [ns, key] rfl (by simp)
          (.table (.selectKey (constant ns) (constant key))) rfl (by simp [hns, hkey])
        simp only [List.map_cons, List.map_nil] at hask
        simp only [Gusher.kvCall, kvExists_str hns hkey, kvCall, kvExists, hask, Proc.ask_bind,
          Proc.query_bind, Proc.done_bind, Proc.pure_eq]
        exact .query hdenotes (fun r => .done _)
    | count ns =>
        have hns := hstring ns (by simp [KvCall.strings])
        obtain ⟨text, hask, hdenotes⟩ := exists_ask hescape isTemplate_kvCount [ns] rfl (by simp)
          (.table (.selectCount (constant ns))) rfl (by simp [hns])
        simp only [List.map_cons, List.map_nil] at hask
        simp only [Gusher.kvCall, kvCount_str hns, kvCall, kvCount, hask, Proc.ask_bind,
          Proc.query_bind, Proc.done_bind, Proc.pure_eq]
        exact .query hdenotes (fun r => .done _)
    | keys ns =>
        have hns := hstring ns (by simp [KvCall.strings])
        obtain ⟨text, hask, hdenotes⟩ := exists_ask hescape isTemplate_kvKeys [ns] rfl (by simp)
          (.table (.selectKeys (constant ns))) rfl (by simp [hns])
        simp only [List.map_cons, List.map_nil] at hask
        simp only [Gusher.kvCall, kvKeys_str hns, kvCall, kvKeys, hask, Proc.ask_bind,
          Proc.query_bind, Proc.done_bind, Proc.pure_eq]
        exact .query hdenotes (fun r => .done _)
    | del ns key =>
        have hns := hstring ns (by simp [KvCall.strings])
        have hkey := hstring key (by simp [KvCall.strings])
        obtain ⟨text, hask, hdenotes⟩ := exists_ask hescape isTemplate_kvDel [ns, key] rfl (by simp)
          (.table (.delete (constant ns) (constant key))) rfl (by simp [hns, hkey])
        simp only [List.map_cons, List.map_nil] at hask
        simp only [Gusher.kvCall, kvDel_str hns hkey, kvCall, kvDel, hask, Proc.ask_bind,
          Proc.query_bind, Proc.done_bind, Proc.pure_eq]
        exact .query hdenotes (fun r => .done _)

end

/-! ### Calls one after the other -/

/-- A call of a function of the key-value store, or of `configure-database`. -/
inductive StoreCall where
  | configureDatabase
  | kv (call : KvCall)
  deriving DecidableEq

def storeCall (pqEscapeLiteral : List UInt8 → List UInt8) : StoreCall → KvSql KvAnswer
  | .configureDatabase => do
      configureDatabase pqEscapeLiteral
      return .done
  | .kv call => kvCall pqEscapeLiteral call

/-- The abstract store: `configure-database` changes nothing. -/
def storeSpec : Spec StoreCall KvAnswer KvMap where
  allows m
    | .configureDatabase, out => out = some .done
    | .kv call, out => m.Allows call out
  next m
    | .configureDatabase => m
    | .kv call => m.next call

section

variable {pqEscapeLiteral : List UInt8 → List UInt8} {D : Type}
  {server : D → Text → PGResult → Option D} {kv : D → Option Table}

/-- The table is created, unless there is one. -/
theorem runs_configureDatabase (hserver : Executes server kv) {db db' : D} {out : Option KvAnswer}
    (h : Proc.Runs server (storeCall pqEscapeLiteral .configureDatabase) db out db') :
  out = some .done ∧ kv db' = some ((kv db).getD [])
  := by
  have hnul : Char.ofNat 0 ∉ configureDatabase.query := by decide +kernel
  have htokens : tokens configureDatabase.query = SqlStatement.createTable.tokens := by decide +kernel
  have hask : storeCall pqEscapeLiteral .configureDatabase
      = .query configureDatabase.query (fun _ => .done .done) := by
    rw [storeCall, configureDatabase, pgExec, if_pos rfl, pgExecPrimitive, if_neg hnul]
    rfl
  rw [hask, Proc.runs_query] at h
  obtain ⟨r, u, hu, rfl, rfl⟩ := h
  exact ⟨rfl, hserver.createTable htokens hu⟩

/-- One call, when the table has been created. -/
theorem runs_storeCall (hserver : Executes server kv) (hescape : EscapesLiterals pqEscapeLiteral)
    {db db' : D} {t : Table} (hdb : kv db = some t) (hu : t.Unique) {call : StoreCall}
    {out : Option KvAnswer} (h : Proc.Runs server (storeCall pqEscapeLiteral call) db out db') :
  ∃ t', kv db' = some t' ∧ t'.Unique ∧ storeSpec.allows t.toMap call out
    ∧ t'.toMap = storeSpec.next t.toMap call
  := by
  cases call with
  | configureDatabase =>
      obtain ⟨rfl, hdb'⟩ := runs_configureDatabase hserver h
      rw [hdb] at hdb'
      exact ⟨t, hdb', hu, rfl, rfl⟩
  | kv call =>
      have hserve : ∀ t db s text r db', kv db = some t → Denotes s text →
          server db text r = some db' → ∃ t', serve t s r = some t' ∧ kv db' = some t' :=
        fun _ _ _ _ _ _ hkv htokens => hserver.table hkv htokens
      obtain ⟨t', hcall, hdb'⟩ := (rel_kvCall hescape call).simulates hserve hdb h
      obtain ⟨hu', hallows, hnext⟩ := runs_kvCall hu hcall
      exact ⟨t', hdb', hu', hallows, hnext⟩

end

/-! ### A small server -/

/-- What the tokens of a number are. -/
theorem tokens_number (digits : Text) :
  (∃ rest, digits = '-' :: rest ∧ (Constant.number digits).tokens = [.operator ['-'], .number rest])
    ∨ (Constant.number digits).tokens = [.number digits]
  := by
  rw [Constant.tokens]
  split
  case isTrue h =>
      obtain ⟨rest, rfl⟩ := List.head?_eq_some_iff.mp h
      exact Or.inl ⟨rest, rfl, rfl⟩
  case isFalse => exact Or.inr rfl

/-- The tokens of a constant are not the beginning of those of another one. -/
theorem tokens_append_inj {x y : Constant} {ts ts' : List Token} :
  x.tokens ++ ts = y.tokens ++ ts' ↔ x = y ∧ ts = ts'
  := by
  constructor
  case mpr =>
      rintro ⟨rfl, rfl⟩
      rfl
  intro h
  have hnumber : ∀ {digits : Text} {ts ts' : List Token} {token : Token},
      (∀ text, token ≠ .number text) → (∀ text, token ≠ .operator text) →
      (Constant.number digits).tokens ++ ts ≠ token :: ts' := by
    intro digits ts ts' token hnumber hoperator heq
    obtain ⟨rest, -, htokens⟩ | htokens := tokens_number digits
    · rw [htokens] at heq
      exact hoperator _ (List.cons.inj heq).1.symm
    · rw [htokens] at heq
      exact hnumber _ (List.cons.inj heq).1.symm
  cases x with
  | null =>
      cases y with
      | null => exact ⟨rfl, (List.cons.inj h).2⟩
      | literal s => cases h
      | number digits => exact absurd h.symm (hnumber nofun nofun)
  | literal s =>
      cases y with
      | null => cases h
      | literal s' =>
          obtain ⟨hs, hts⟩ := List.cons.inj h
          exact ⟨congrArg Constant.literal (Token.literal.inj hs), hts⟩
      | number digits => exact absurd h.symm (hnumber nofun nofun)
  | number digits =>
      cases y with
      | null => exact absurd h (hnumber nofun nofun)
      | literal s => exact absurd h (hnumber nofun nofun)
      | number digits' =>
          obtain ⟨rest, rfl, htokens⟩ | htokens := tokens_number digits
          · obtain ⟨rest', rfl, htokens'⟩ | htokens' := tokens_number digits'
            · rw [htokens, htokens'] at h
              cases h
              exact ⟨rfl, rfl⟩
            · rw [htokens, htokens'] at h
              cases h
          · obtain ⟨rest', rfl, htokens'⟩ | htokens' := tokens_number digits'
            · rw [htokens, htokens'] at h
              cases h
            · rw [htokens, htokens'] at h
              cases h
              exact ⟨rfl, rfl⟩

theorem tokens_inj {x y : Constant} :
  x.tokens = y.tokens ↔ x = y
  := by
  simpa using @tokens_append_inj x y [] []

theorem word_inj {s s' : String} :
  word s = word s' ↔ s = s'
  := by
  simp [word, String.toList_inj]

/-- The statements differ in their tokens. -/
theorem tokens_injective : Function.Injective SqlStatement.tokens
  := by
  intro s s' h
  cases s with
  | createTable =>
      cases s' with
      | createTable => rfl
      | table s' => cases s' <;> simp [SqlStatement.tokens, word_inj] at h
  | table s =>
      cases s' with
      | createTable => cases s <;> simp [SqlStatement.tokens, word_inj] at h
      | table s' =>
          -- the words decide which statement it is, and then the constants are the same
          cases s <;> cases s' <;>
            simp [SqlStatement.tokens, word_inj, whereKey, whereNamespace, compared, tokens_append_inj,
              tokens_inj] at h ⊢
          all_goals exact h

open Classical in
/-- A server that knows no other texts, with the table as the database. -/
noncomputable def smallServer (db : Option Table) (text : Text) (r : PGResult) :
    Option (Option Table) :=
  if h : ∃ s : Statement, tokens text = (SqlStatement.table s).tokens then
    match db with
    | some t => (serve t h.choose r).map some
    | none => if r = .failed then some db else none
  else if r = .failed then
    some (if tokens text = SqlStatement.createTable.tokens then some (db.getD []) else db)
  else none

theorem executes_smallServer :
  Executes smallServer id
  where
  responds := by
    intro db text
    unfold smallServer
    split
    case isTrue h =>
        cases db with
        | none => exact ⟨.failed, _, if_pos rfl⟩
        | some t =>
            obtain ⟨r, t', ht'⟩ := exists_serve t h.choose
            exact ⟨r, some t', by simp only [ht', Option.map_some]⟩
    case isFalse => exact ⟨.failed, _, if_pos rfl⟩
  createTable := by
    intro db text r db' htokens h
    have hnot : ¬ ∃ s : Statement, tokens text = (SqlStatement.table s).tokens := by
      rintro ⟨s, hs⟩
      cases tokens_injective (htokens.symm.trans hs)
    rw [smallServer, dif_neg hnot, if_pos htokens] at h
    split at h
    case isTrue => exact (Option.some.inj h).symm
    case isFalse => cases h
  table := by
    rintro _ t s text r db' rfl htokens h
    have hs : ∃ s : Statement, tokens text = (SqlStatement.table s).tokens := ⟨s, htokens⟩
    have hchoose : hs.choose = s :=
      SqlStatement.table.inj (tokens_injective (hs.choose_spec.symm.trans htokens))
    rw [smallServer, dif_pos hs, hchoose] at h
    obtain ⟨t', ht', rfl⟩ := Option.map_eq_some_iff.mp h
    exact ⟨t', ht', rfl⟩

end Sql

end Gusher
