import Gusher.Store.KvMap

/-!
# The key-value store refines a map

Calls that come one after the other answer as the abstract store does (`kv_refines_map`).
-/

namespace Gusher

/-! ### The procedures -/

theorem format_str {s : Text} (h : Char.ofNat 0 ∉ s) :
  format (.str s) = .done (constant s)
  := by
  rw [format, pgFormat_str h, Proc.ofOption_some]

theorem format_str_nul {s : Text} (h : Char.ofNat 0 ∈ s) :
  format (.str s) = .raise
  := by
  rw [format, pgFormat_str_nul h, Proc.ofOption_none]

section

variable {ns key value : Text} (hns : Char.ofNat 0 ∉ ns) (hkey : Char.ofNat 0 ∉ key)
  (hvalue : Char.ofNat 0 ∉ value)

include hns hkey

theorem kvGet_str :
  kvGet (.str ns) (.str key) = .query (.selectValue (constant ns) (constant key))
    (fun r => .done (pgCell (pgOneRow r) "value"))
  := by simp [kvGet, format_str hns, format_str hkey]

theorem kvExists_str :
  kvExists (.str ns) (.str key) = .query (.selectKey (constant ns) (constant key))
    (fun r => .done (pgOneRow r ≠ .bool false))
  := by simp [kvExists, format_str hns, format_str hkey]

theorem kvDel_str :
  kvDel (.str ns) (.str key) = .query (.delete (constant ns) (constant key)) (fun _ => .done ())
  := by simp [kvDel, format_str hns, format_str hkey]

include hvalue

theorem kvInsert_str :
  kvInsert (.str ns) (.str key) (.str value)
    = .query (.insert (constant ns) (constant key) (constant value)) (fun _ => .done ())
  := by simp [kvInsert, format_str hns, format_str hkey, format_str hvalue]

theorem kvSet_str :
  kvSet (.str ns) (.str key) (.str value)
    = .query (.update (constant value) (constant ns) (constant key)) (fun r =>
      if pgCmdTuples r < 1 then
        .query (.insert (constant ns) (constant key) (constant value)) (fun _ => .done ())
      else .done ())
  := by
  simp [kvSet, kvInsert_str hns hkey hvalue, format_str hns, format_str hkey, format_str hvalue]

theorem kvCall_set :
  kvCall (.set ns key value)
    = .query (.update (constant value) (constant ns) (constant key)) (fun r =>
      if pgCmdTuples r < 1 then
        .query (.insert (constant ns) (constant key) (constant value)) (fun _ => .done .done)
      else .done .done)
  := by
  rw [kvCall, kvSet_str hns hkey hvalue, Proc.query_bind]
  congr 1
  funext r
  rw [Proc.ite_bind, Proc.query_bind]
  simp only [Proc.done_bind, Proc.pure_eq]

end

theorem kvCount_str {ns : Text} (hns : Char.ofNat 0 ∉ ns) :
  kvCount (.str ns) = .query (.selectCount (constant ns))
    (fun r => .done (pgCell (pgOneRow r) "n"))
  := by simp [kvCount, format_str hns]

theorem kvKeys_str {ns : Text} (hns : Char.ofNat 0 ∉ ns) :
  kvKeys (.str ns) = .query (.selectKeys (constant ns))
    (fun r => .done (pgMapRows r (fun row => pgCell row "key")))
  := by simp [kvKeys, format_str hns]

/-- A call with a NUL raises an exception before it sends a statement. -/
theorem kvCall_of_hasNul {call : KvCall} (h : call.HasNul) :
  kvCall call = .raise
  := by
  have hcases : ∀ s, format (.str s) = .raise ∨ format (.str s) = .done (constant s) := by
    intro s
    by_cases hs : Char.ofNat 0 ∈ s
    · exact Or.inl (format_str_nul hs)
    · exact Or.inr (format_str hs)
  obtain ⟨s, hs, hnul⟩ := h
  have hraise := format_str_nul hnul
  cases call with
  | get ns key =>
      rcases hcases ns with hns | hns
      · simp [kvCall, kvGet, hns]
      · rcases List.mem_pair.mp hs with rfl | rfl
        · simp [kvCall, kvGet, hraise]
        · simp [kvCall, kvGet, hns, hraise]
  | set ns key value =>
      rcases hcases value with hvalue | hvalue
      · simp [kvCall, kvSet, hvalue]
      · rcases hcases ns with hns | hns
        · simp [kvCall, kvSet, hvalue, hns]
        · simp only [KvCall.strings, List.mem_cons, List.not_mem_nil, or_false] at hs
          rcases hs with rfl | rfl | rfl
          · simp [kvCall, kvSet, hraise]
          · simp [kvCall, kvSet, hvalue, hraise]
          · simp [kvCall, kvSet, hvalue, hns, hraise]
  | exist ns key =>
      rcases hcases ns with hns | hns
      · simp [kvCall, kvExists, hns]
      · rcases List.mem_pair.mp hs with rfl | rfl
        · simp [kvCall, kvExists, hraise]
        · simp [kvCall, kvExists, hns, hraise]
  | count ns =>
      obtain rfl := List.mem_singleton.mp hs
      simp [kvCall, kvCount, hraise]
  | keys ns =>
      obtain rfl := List.mem_singleton.mp hs
      simp [kvCall, kvKeys, hraise]
  | del ns key =>
      rcases hcases ns with hns | hns
      · simp [kvCall, kvDel, hns]
      · rcases List.mem_pair.mp hs with rfl | rfl
        · simp [kvCall, kvDel, hraise]
        · simp [kvCall, kvDel, hns, hraise]

theorem not_mem_of_not_hasNul {call : KvCall} (h : ¬ call.HasNul) {s : Text}
    (hs : s ∈ call.strings) :
  Char.ofNat 0 ∉ s
  := fun hnul => h ⟨s, hs, hnul⟩

/-- What a call does: it raises an exception, or it sends one statement, or it is a `kv-set`. -/
inductive KvProc : KvCall → Kv KvAnswer → Prop where
  | raise {call : KvCall} (hnul : call.HasNul) : KvProc call .raise
  | one {call : KvCall} (hnul : ¬ call.HasNul) (q : Statement) (answer : PGResult → KvAnswer) :
      KvProc call (.query q (fun r => .done (answer r)))
  | set {ns key value : Text} (hnul : ¬ (KvCall.set ns key value).HasNul) :
      KvProc (.set ns key value)
        (.query (.update (constant value) (constant ns) (constant key)) (fun r =>
          if pgCmdTuples r < 1 then
            .query (.insert (constant ns) (constant key) (constant value)) (fun _ => .done .done)
          else .done .done))

/-- A call does one of these. -/
theorem kvCall_cases (call : KvCall) :
  KvProc call (kvCall call)
  := by
  by_cases hnul : call.HasNul
  · rw [kvCall_of_hasNul hnul]
    exact .raise hnul
  · have hstring := fun s => not_mem_of_not_hasNul hnul (s := s)
    cases call with
    | get ns key =>
        rw [kvCall, kvGet_str (hstring ns (by simp [KvCall.strings]))
          (hstring key (by simp [KvCall.strings]))]
        exact .one hnul _ _
    | set ns key value =>
        rw [kvCall_set (hstring ns (by simp [KvCall.strings]))
          (hstring key (by simp [KvCall.strings])) (hstring value (by simp [KvCall.strings]))]
        exact .set hnul
    | exist ns key =>
        rw [kvCall, kvExists_str (hstring ns (by simp [KvCall.strings]))
          (hstring key (by simp [KvCall.strings]))]
        exact .one hnul _ _
    | count ns =>
        rw [kvCall, kvCount_str (hstring ns (by simp [KvCall.strings]))]
        exact .one hnul _ _
    | keys ns =>
        rw [kvCall, kvKeys_str (hstring ns (by simp [KvCall.strings]))]
        exact .one hnul _ _
    | del ns key =>
        rw [kvCall, kvDel_str (hstring ns (by simp [KvCall.strings]))
          (hstring key (by simp [KvCall.strings]))]
        exact .one hnul _ _

/-! ### The functions on their own -/

section

variable {t t' : Table} {ns key value : Text}

/-- `kv-del`, with strings without a NUL. -/
theorem runs_kvDel (hu : t.Unique) (hns : Char.ofNat 0 ∉ ns) (hkey : Char.ofNat 0 ∉ key)
    {out : Option Unit} (h : Proc.Runs serve (kvDel (.str ns) (.str key)) t out t') :
  t'.Unique ∧ out = some () ∧ t'.toMap = t.toMap.del ns key
  := by
  rw [kvDel_str hns hkey] at h
  obtain ⟨r, u, hserve, rfl, rfl⟩ := h
  obtain ⟨hu', hmap⟩ := serve_delete hu hserve
  exact ⟨hu', rfl, hmap⟩

/-- `kv-keys`, with a string without a NUL. -/
theorem runs_kvKeys (hu : t.Unique) (hns : Char.ofNat 0 ∉ ns) {out : Option (List Scm)}
    (h : Proc.Runs serve (kvKeys (.str ns)) t out t') :
  t' = t ∧ ∃ xs, out = some xs ∧ t.toMap.ListsKeys ns xs
  := by
  rw [kvKeys_str hns] at h
  obtain ⟨r, u, hserve, rfl, rfl⟩ := h
  obtain ⟨rfl, hkeys⟩ := serve_selectKeys hu hserve
  exact ⟨rfl, _, rfl, hkeys⟩

/-- `kv-set`, with strings without a NUL: when there is a value, it is the `update` that stores the
new one, and else the `insert`. -/
theorem runs_kvSet (hu : t.Unique) (hns : Char.ofNat 0 ∉ ns) (hkey : Char.ofNat 0 ∉ key)
    (hvalue : Char.ofNat 0 ∉ value) {out : Option Unit}
    (h : Proc.Runs serve (kvSet (.str ns) (.str key) (.str value)) t out t') :
  t'.Unique ∧ out = some () ∧ t'.toMap = t.toMap.set ns key value
  := by
  rw [kvSet_str hns hkey hvalue] at h
  simp only [Proc.runs_query] at h
  obtain ⟨r, t₁, hupdate, hrest⟩ := h
  obtain ⟨hu₁, hcases⟩ := serve_update hu hupdate
  split at hcases
  case isTrue =>
      rw [if_neg (by omega)] at hrest
      obtain ⟨rfl, rfl⟩ := hrest
      exact ⟨hu₁, rfl, hcases.2⟩
  case isFalse hnone =>
      obtain ⟨hzero, rfl⟩ := hcases
      rw [if_pos (by omega)] at hrest
      obtain ⟨r', t₂, hinsert, rfl, rfl⟩ := hrest
      obtain ⟨hu₂, hinserted⟩ := serve_insert hu hinsert
      rw [if_neg hnone] at hinserted
      exact ⟨hu₂, rfl, hinserted⟩

end

/-! ### Calls one after the other -/

theorem exists_serve (t : Table) (s : Statement) :
  ∃ r t', serve t s r = some t'
  := ⟨(s.exec t).1, (s.exec t).2, if_pos ⟨rfl, List.Perm.refl _, rfl⟩⟩

/-- One call on its own. -/
theorem runs_kvCall {t t' : Table} {out : Option KvAnswer} (hu : t.Unique) {call : KvCall}
    (h : Proc.Runs serve (kvCall call) t out t') :
  t'.Unique ∧ t.toMap.Allows call out ∧ t'.toMap = t.toMap.next call
  := by
  by_cases hnul : call.HasNul
  · rw [kvCall_of_hasNul hnul] at h
    obtain ⟨rfl, rfl⟩ := h
    rw [KvMap.Allows, if_pos hnul, KvMap.next, if_pos hnul]
    exact ⟨hu, rfl, rfl⟩
  · rw [KvMap.Allows, if_neg hnul, KvMap.next, if_neg hnul]
    have hstring := fun s => not_mem_of_not_hasNul hnul (s := s)
    cases call with
    | get ns key =>
        rw [kvCall, kvGet_str (hstring ns (by simp [KvCall.strings]))
          (hstring key (by simp [KvCall.strings]))] at h
        obtain ⟨r, t₁, hserve, rfl, rfl⟩ := h
        obtain ⟨rfl, hvalue⟩ := serve_selectValue hu hserve
        exact ⟨hu, ⟨_, rfl, congrArg KvAnswer.object hvalue⟩, rfl⟩
    | set ns key value =>
        obtain (⟨-, hraise⟩ | ⟨_, t₁, hset, rfl, rfl⟩) := Proc.runs_bind.mp h
        · obtain ⟨-, hout, -⟩ := runs_kvSet hu (hstring ns (by simp [KvCall.strings]))
            (hstring key (by simp [KvCall.strings])) (hstring value (by simp [KvCall.strings]))
            hraise
          cases hout
        · obtain ⟨hu', -, hmap⟩ := runs_kvSet hu (hstring ns (by simp [KvCall.strings]))
            (hstring key (by simp [KvCall.strings])) (hstring value (by simp [KvCall.strings])) hset
          exact ⟨hu', ⟨_, rfl, rfl⟩, hmap⟩
    | exist ns key =>
        rw [kvCall, kvExists_str (hstring ns (by simp [KvCall.strings]))
          (hstring key (by simp [KvCall.strings]))] at h
        obtain ⟨r, t₁, hserve, rfl, rfl⟩ := h
        obtain ⟨rfl, hsome⟩ := serve_selectKey hu hserve
        exact ⟨hu, ⟨_, rfl, congrArg KvAnswer.bool hsome⟩, rfl⟩
    | count ns =>
        rw [kvCall, kvCount_str (hstring ns (by simp [KvCall.strings]))] at h
        obtain ⟨r, t₁, hserve, rfl, rfl⟩ := h
        obtain ⟨rfl, hcount⟩ := serve_selectCount hu hserve
        exact ⟨hu, ⟨_, rfl, _, congrArg KvAnswer.object hcount,
          (bmod_natCast_eq_iff _).mpr⟩, rfl⟩
    | keys ns =>
        rw [kvCall, kvKeys_str (hstring ns (by simp [KvCall.strings]))] at h
        obtain ⟨r, t₁, hserve, rfl, rfl⟩ := h
        obtain ⟨rfl, hkeys⟩ := serve_selectKeys hu hserve
        exact ⟨hu, ⟨_, rfl, _, rfl, hkeys⟩, rfl⟩
    | del ns key =>
        rw [kvCall, kvDel_str (hstring ns (by simp [KvCall.strings]))
          (hstring key (by simp [KvCall.strings]))] at h
        obtain ⟨r, t₁, hserve, rfl, rfl⟩ := h
        obtain ⟨hu', hmap⟩ := serve_delete hu hserve
        exact ⟨hu', ⟨_, rfl, rfl⟩, hmap⟩

/-- **Refinement**: calls one after the other come to their ends, and answer as the abstract store
does; and no two rows of the table they leave have the same namespace and key. -/
theorem kv_refines_map {t : Table} (hu : t.Unique) (calls : List KvCall) :
  (∃ outs t', Proc.RunsAll serve (calls.map kvCall) t outs t')
    ∧ ∀ outs t', Proc.RunsAll serve (calls.map kvCall) t outs t' →
      t'.Unique ∧ outs.length = calls.length ∧ kvSpec.Runs t.toMap (calls.zip outs) t'.toMap
  := by
  constructor
  · apply Proc.exists_runsAll exists_serve
  · intro outs t' h
    have hcall : ∀ (s : Table) (c : KvCall) (out : Option KvAnswer) (t : Table), s.Unique →
        Proc.Runs serve (kvCall c) s out t →
        t.Unique ∧ kvSpec.allows s.toMap c out ∧ t.toMap = kvSpec.next s.toMap c :=
      fun _ _ _ _ hu h => runs_kvCall hu h
    exact h.refines hcall hu

/-- A value is stored in the table that `configure-database` creates, and read. -/
theorem kv_refines_map_created :
  ∃ outs t', Proc.RunsAll serve
      (List.map kvCall [.set ['a'] ['b'] ['c'], .get ['a'] ['b'], .count ['a']]) [] outs t'
    ∧ Table.Unique t' ∧ outs.length = 3 ∧ kvSpec.Runs (Table.toMap [])
      (List.zip [.set ['a'] ['b'] ['c'], .get ['a'] ['b'], .count ['a']] outs) (Table.toMap t')
  := by
  obtain ⟨⟨outs, t', h⟩, hruns⟩ := kv_refines_map (t := []) List.Pairwise.nil
    [.set ['a'] ['b'] ['c'], .get ['a'] ['b'], .count ['a']]
  exact ⟨outs, t', h, hruns outs t' h⟩

/-- An empty value is stored as `NULL`, and is not returned as it was set. -/
theorem empty_value_not_returned :
  (∃ outs t', Proc.RunsAll serve (List.map kvCall [.set ['a'] ['b'] [], .get ['a'] ['b']]) [] outs t')
    ∧ ∀ outs t',
      Proc.RunsAll serve (List.map kvCall [.set ['a'] ['b'] [], .get ['a'] ['b']]) [] outs t' →
      outs = [some .done, some (.object .nil)] ∧ outs ≠ [some .done, some (.object (.str []))]
  := by
  constructor
  · apply Proc.exists_runsAll exists_serve
  · intro outs t' h
    have hempty : Table.Unique [] := List.Pairwise.nil
    obtain ⟨out₁, rest₁, t₁, rfl, h₁, out₂, rest₂, t₂, rfl, h₂, rfl, -⟩ := h
    obtain ⟨hu₁, hset, hnext⟩ := runs_kvCall hempty h₁
    obtain ⟨-, hget, -⟩ := runs_kvCall hu₁ h₂
    rw [hnext] at hget
    have hnul₁ : ¬ (KvCall.set ['a'] ['b'] []).HasNul := by decide
    have hnul₂ : ¬ (KvCall.get ['a'] ['b']).HasNul := by decide
    have hlookup : ((Table.toMap []).next (.set ['a'] ['b'] [])).lookup ['a'] ['b'] = some none := by
      decide
    rw [KvMap.Allows, if_neg hnul₁] at hset
    rw [KvMap.Allows, if_neg hnul₂] at hget
    obtain ⟨ans₁, rfl, hans₁⟩ := hset
    obtain ⟨ans₂, rfl, hans₂⟩ := hget
    rw [KvMap.Answers] at hans₁
    rw [KvMap.Answers, hlookup] at hans₂
    subst hans₁ hans₂
    exact ⟨rfl, by decide⟩

end Gusher
