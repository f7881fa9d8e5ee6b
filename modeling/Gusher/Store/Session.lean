import Gusher.Scheme.JsonRoundTrip
import Gusher.Store.ReadWrite

/-!
# Sessions

A session is stored as an association list in JSON.  What sessions are for: each has values under
keys, and a value is found as it was last set, up to the order of members.  Calls that come one
after the other keep to that (`session_refines_map`).
-/

namespace Gusher

open Proc

/-! ### The functions -/

/-- The entry that `assq-set!` looks for has another value. -/
def Scm.assqReplace (key : Text) (value : Scm) : Scm → Option Scm
  | .pair (.pair k v) rest =>
      if k = .symbol key then some (.pair (.pair k value) rest)
      else (Scm.assqReplace key value rest).map (.pair (.pair k v))
  | .pair x rest => (Scm.assqReplace key value rest).map (.pair x)
  | _ => none

/-- `assq-set!`: when there is no entry with the key, a new one comes first. -/
def Scm.assqSet (alist : Scm) (key : Text) (value : Scm) : Scm :=
  (Scm.assqReplace key value alist).getD (.pair (.pair (.symbol key) value) alist)

/-- `assq-remove!`: the first entry with the key is taken out. -/
def Scm.assqRemove (key : Text) : Scm → Scm
  | .pair (.pair k v) rest =>
      if k = .symbol key then rest else .pair (.pair k v) (Scm.assqRemove key rest)
  | .pair x rest => .pair x (Scm.assqRemove key rest)
  | x => x

def sessions : Text :=
  "sessions".toList

/-- The key of the time of the last change. -/
def stampKey : Text :=
  "stamp".toList

section

variable (js : Jansson)

/-- `session-read`, for the session of the request. -/
def sessionRead (sessKey : Text) : Kv Scm := do
  let session ← kvGet (.str sessions) (.str sessKey)
  if session = .bool false then return .bool false else .ofOption (js.jsonDecode session)

def sessionGet (sessKey key : Text) : Kv Scm := do
  let session ← sessionRead js sessKey
  if session = .bool false then return .bool false else return session.assqRef key

/-- `(or (json-decode (or session-raw "")) '())`. -/
def sessionOr (raw : Scm) : Option Scm :=
  (js.jsonDecode (if raw = .bool false then .str [] else raw)).map (fun session =>
    if session = .bool false then .nil else session)

/-- The last part of `session-set` and `session-unset`; the stamp is what `to-i` makes of the
time. -/
def sessionStore (sessKey : Text) (stamp : Int32) (session : Scm) : Kv Unit := do
  let json ← .ofOption (js.jsonEncode (session.assqSet stampKey (.int stamp.toInt)))
  kvSet (.str sessions) (.str sessKey) json

def sessionSet (sessKey key : Text) (value : Scm) (stamp : Int32) : Kv Unit := do
  let raw ← kvGet (.str sessions) (.str sessKey)
  let session ← .ofOption (sessionOr js raw)
  sessionStore js sessKey stamp (session.assqSet key value)

def sessionUnset (sessKey key : Text) (stamp : Int32) : Kv Unit := do
  let raw ← kvGet (.str sessions) (.str sessKey)
  let session ← .ofOption (sessionOr js raw)
  sessionStore js sessKey stamp (Scm.assqRemove key session)

end

/-- A change of a session. -/
inductive SessionEdit where
  | set (key : Text) (value : Scm)
  | unset (key : Text)
  deriving DecidableEq

def SessionEdit.key : SessionEdit → Text
  | set key _ | unset key => key

/-- What is under the key afterwards. -/
def SessionEdit.value : SessionEdit → Option Scm
  | set _ value => some value
  | unset _ => none

/-- The function that makes a change. -/
def sessionEdit (js : Jansson) (sessKey : Text) (edit : SessionEdit) (stamp : Int32) : Kv Unit :=
  match edit with
  | .set key value => sessionSet js sessKey key value stamp
  | .unset key => sessionUnset js sessKey key stamp

/-! ### Association lists -/

section

variable {members : List (Text × Scm)} {key : Text} {value : Scm}

/-- A key that is not there. -/
theorem assqRef_alist_of_notMem (h : key ∉ members.map Prod.fst) :
  (Scm.alist members).assqRef key = .bool false
  := by
  induction members with
  | nil => rfl
  | cons m members ih =>
      simp only [List.map_cons, List.mem_cons, not_or] at h
      rw [Scm.alist_cons, Scm.assqRef_entry, if_neg (fun hk => h.1 (Scm.symbol.inj hk).symm),
        ih h.2]

/-- The value of a key, when no other entry has the key. -/
theorem assqRef_alist_of_mem (hkeys : (members.map Prod.fst).Nodup) (h : (key, value) ∈ members) :
  (Scm.alist members).assqRef key = value
  := by
  induction members with
  | nil => cases h
  | cons m members ih =>
      rw [List.map_cons, List.nodup_cons] at hkeys
      rw [Scm.alist_cons, Scm.assqRef_entry]
      rcases List.mem_cons.mp h with rfl | h
      · exact if_pos rfl
      · have hne : m.1 ≠ key := by
          rintro rfl
          exact hkeys.1 (List.mem_map.mpr ⟨_, h, rfl⟩)
        rw [if_neg (fun hk => hne (Scm.symbol.inj hk)), ih hkeys.2 h]

/-- There is no entry to be replaced. -/
theorem assqReplace_alist_of_notMem (h : key ∉ members.map Prod.fst) :
  Scm.assqReplace key value (.alist members) = none
  := by
  induction members with
  | nil => rfl
  | cons m members ih =>
      simp only [List.map_cons, List.mem_cons, not_or] at h
      rw [Scm.alist_cons, Scm.assqReplace, if_neg (fun hk => h.1 (Scm.symbol.inj hk).symm), ih h.2,
        Option.map_none]

/-- The entry with the key is replaced. -/
theorem assqReplace_alist_of_mem (hkeys : (members.map Prod.fst).Nodup)
    (h : key ∈ members.map Prod.fst) :
  Scm.assqReplace key value (.alist members)
    = some (.alist (members.map (fun m => if m.1 = key then (key, value) else m)))
  := by
  induction members with
  | nil => cases h
  | cons m members ih =>
      rw [List.map_cons, List.nodup_cons] at hkeys
      rw [Scm.alist_cons, Scm.assqReplace]
      by_cases hm : m.1 = key
      · have hrest : members.map (fun m => if m.1 = key then (key, value) else m) = members := by
          apply List.map_congr_left (g := id) _ |>.trans (List.map_id members)
          intro n hn
          apply if_neg
          rintro hkey
          apply hkeys.1
          rw [hm, ← hkey]
          exact List.mem_map_of_mem hn
        rw [if_pos (congrArg Scm.symbol hm), List.map_cons, if_pos hm, hrest, hm]
        rfl
      · have hmem : key ∈ members.map Prod.fst := by
          rcases List.mem_cons.mp h with hkey | hmem
          · exact absurd hkey.symm hm
          · exact hmem
        rw [if_neg (fun hk => hm (Scm.symbol.inj hk)), ih hkeys.2 hmem, List.map_cons, if_neg hm]
        rfl

/-- The entries with another one, or another value. -/
def putMember (members : List (Text × Scm)) (key : Text) (value : Scm) : List (Text × Scm) :=
  if (members.map Prod.fst).contains key then
    members.map (fun m => if m.1 = key then (key, value) else m)
  else (key, value) :: members

theorem putMember_of_mem (h : key ∈ members.map Prod.fst) :
  putMember members key value = members.map (fun m => if m.1 = key then (key, value) else m)
  := if_pos (List.contains_iff_mem.mpr h)

theorem putMember_of_notMem (h : key ∉ members.map Prod.fst) :
  putMember members key value = (key, value) :: members
  := if_neg (fun hmem => h (List.contains_iff_mem.mp hmem))

/-- The entries without that of a key. -/
def dropMember (members : List (Text × Scm)) (key : Text) : List (Text × Scm) :=
  members.filter (fun m => m.1 ≠ key)

/-- `assq-set!`, when the entries have different keys. -/
theorem assqSet_alist (hkeys : (members.map Prod.fst).Nodup) :
  (Scm.alist members).assqSet key value = .alist (putMember members key value)
  := by
  rw [Scm.assqSet]
  by_cases h : key ∈ members.map Prod.fst
  · rw [assqReplace_alist_of_mem hkeys h, Option.getD_some, putMember_of_mem h]
  · rw [assqReplace_alist_of_notMem h, Option.getD_none, putMember_of_notMem h, Scm.alist_cons]

/-- `assq-remove!`, when the entries have different keys. -/
theorem assqRemove_alist (hkeys : (members.map Prod.fst).Nodup) :
  Scm.assqRemove key (.alist members) = .alist (dropMember members key)
  := by
  induction members with
  | nil => rfl
  | cons m members ih =>
      rw [List.map_cons, List.nodup_cons] at hkeys
      rw [Scm.alist_cons, Scm.assqRemove, dropMember]
      by_cases hm : m.1 = key
      · have hrest : members.filter (fun m => m.1 ≠ key) = members := by
          apply List.filter_eq_self.mpr
          intro n hn
          apply decide_eq_true
          rintro hkey
          apply hkeys.1
          rw [hm, ← hkey]
          exact List.mem_map_of_mem hn
        rw [if_pos (congrArg Scm.symbol hm), List.filter_cons_of_neg (by simpa using hm), hrest]
      · rw [if_neg (fun hk => hm (Scm.symbol.inj hk)), ih hkeys.2,
          List.filter_cons_of_pos (by simpa using hm)]
        rfl

theorem mem_putMember {m : Text × Scm} :
  m ∈ putMember members key value ↔ m = (key, value) ∨ (m.1 ≠ key ∧ m ∈ members)
  := by
  by_cases h : key ∈ members.map Prod.fst
  · rw [putMember_of_mem h, List.mem_map]
    constructor
    · rintro ⟨n, hn, rfl⟩
      by_cases hkey : n.1 = key
      · exact Or.inl (if_pos hkey)
      · rw [if_neg hkey]
        exact Or.inr ⟨hkey, hn⟩
    · rintro (rfl | ⟨hkey, hm⟩)
      · obtain ⟨n, hn, hkey⟩ := List.mem_map.mp h
        exact ⟨n, hn, if_pos hkey⟩
      · exact ⟨m, hm, if_neg hkey⟩
  · rw [putMember_of_notMem h, List.mem_cons]
    constructor
    · rintro (rfl | hm)
      · exact Or.inl rfl
      · right
        refine ⟨?_, hm⟩
        rintro rfl
        exact h (List.mem_map_of_mem hm)
    · rintro (rfl | ⟨-, hm⟩)
      · exact Or.inl rfl
      · exact Or.inr hm

theorem nodup_putMember (hkeys : (members.map Prod.fst).Nodup) :
  ((putMember members key value).map Prod.fst).Nodup
  := by
  by_cases h : key ∈ members.map Prod.fst
  · have hfst : (members.map (fun m => if m.1 = key then (key, value) else m)).map Prod.fst
        = members.map Prod.fst := by
      rw [List.map_map]
      apply List.map_congr_left
      intro m _
      by_cases hm : m.1 = key
      · simp [hm]
      · simp [hm]
    rw [putMember_of_mem h, hfst]
    exact hkeys
  · rw [putMember_of_notMem h]
    exact List.nodup_cons.mpr ⟨h, hkeys⟩

theorem mem_dropMember {m : Text × Scm} :
  m ∈ dropMember members key ↔ m.1 ≠ key ∧ m ∈ members
  := by rw [dropMember, List.mem_filter, decide_eq_true_eq, and_comm]

theorem nodup_dropMember (hkeys : (members.map Prod.fst).Nodup) :
  ((dropMember members key).map Prod.fst).Nodup
  := ((List.filter_sublist).map Prod.fst).nodup hkeys

end

/-! ### The values of a session -/

/-- What a session is for: the values under its keys. -/
abbrev SessionMap := Text → Option Scm

/-- The map after a change. -/
def SessionMap.edit (m : SessionMap) (edit : SessionEdit) : SessionMap :=
  Function.update m edit.key edit.value

/-- The value is stored as JSON; its keys and strings have no NUL. -/
def SessionEdit.Fits : SessionEdit → Prop
  | set key value => Char.ofNat 0 ∉ key ∧ JsonValue (Char.ofNat 0 ∉ ·) value
  | unset _ => True

/-- The entries have the values of the map, but for the stamp. -/
structure Entries (m : SessionMap) (members : List (Text × Scm)) : Prop where
  nodup : (members.map Prod.fst).Nodup
  no_nul : ∀ n ∈ members, Char.ofNat 0 ∉ n.1
  values : ∀ n ∈ members, JsonValue (Char.ofNat 0 ∉ ·) n.2
  same : ∀ n ∈ members, n.1 ≠ stampKey → ∃ v, m n.1 = some v ∧ Scm.Same v n.2
  missing : ∀ key, key ≠ stampKey → key ∉ members.map Prod.fst → m key = none

/-- The entries that are stored; there are none when nothing is stored. -/
def Decodes (js : Jansson) (x : Option (Option Text)) (members : List (Text × Scm)) : Prop :=
  (x = none ∧ members = [])
    ∨ ∃ text, x = some (some text) ∧ js.jsonDecode (.str text) = some (.alist members)

def SessionValue (js : Jansson) (x : Option (Option Text)) (m : SessionMap) : Prop :=
  ∃ members, Decodes js x members ∧ Entries m members

/-- A value as it is found: it is the same up to the order of members, or `#f` when there is
none. -/
def Finds : Option Scm → Scm → Prop
  | some v, x => Scm.Same v x
  | none, x => x = .bool false

theorem putMember_ne_nil {members : List (Text × Scm)} {key : Text} {value : Scm} :
  putMember members key value ≠ []
  := List.ne_nil_of_mem (mem_putMember.mpr (Or.inl rfl))

theorem Scm.str_ne_bool (s : Text) (b : Bool) :
  Scm.str s ≠ .bool b
  := by
  intro h
  cases h

theorem Scm.alist_ne_bool (members : List (Text × Scm)) (b : Bool) :
  Scm.alist members ≠ .bool b
  := by
  cases members with
  | nil => nofun
  | cons m members => nofun

section

variable {js : Jansson} {m : SessionMap} {members members' : List (Text × Scm)} {key : Text}
  {x : Option (Option Text)}

namespace Entries

theorem empty :
  Entries (fun _ => none) []
  where
  nodup := List.nodup_nil
  no_nul := by simp
  values := by simp
  same := by simp
  missing _ _ _ := rfl

/-- Another value under a key. -/
theorem put (h : Entries m members) {value : Scm} (hnul : Char.ofNat 0 ∉ key)
    (hvalue : JsonValue (Char.ofNat 0 ∉ ·) value) :
  Entries (Function.update m key (some value)) (putMember members key value)
  where
  nodup := nodup_putMember h.nodup
  no_nul := by
    intro n hn
    rcases mem_putMember.mp hn with rfl | ⟨-, hn⟩
    · exact hnul
    · exact h.no_nul n hn
  values := by
    intro n hn
    rcases mem_putMember.mp hn with rfl | ⟨-, hn⟩
    · exact hvalue
    · exact h.values n hn
  same := by
    intro n hn hstamp
    rcases mem_putMember.mp hn with rfl | ⟨hkey, hn⟩
    · exact ⟨value, Function.update_self .., .refl value⟩
    · rw [Function.update_of_ne hkey]
      exact h.same n hn hstamp
  missing := by
    intro key' hstamp hmissing
    have hkey : key' ≠ key := by
      rintro rfl
      exact hmissing (List.mem_map.mpr ⟨_, mem_putMember.mpr (Or.inl rfl), rfl⟩)
    rw [Function.update_of_ne hkey]
    apply h.missing key' hstamp
    intro hmem
    obtain ⟨n, hn, rfl⟩ := List.mem_map.mp hmem
    exact hmissing (List.mem_map.mpr ⟨n, mem_putMember.mpr (Or.inr ⟨hkey, hn⟩), rfl⟩)

/-- No value under a key. -/
theorem drop (h : Entries m members) :
  Entries (Function.update m key none) (dropMember members key)
  where
  nodup := nodup_dropMember h.nodup
  no_nul n hn := h.no_nul n (mem_dropMember.mp hn).2
  values n hn := h.values n (mem_dropMember.mp hn).2
  same := by
    intro n hn hstamp
    obtain ⟨hkey, hn⟩ := mem_dropMember.mp hn
    rw [Function.update_of_ne hkey]
    exact h.same n hn hstamp
  missing := by
    intro key' hstamp hmissing
    by_cases hkey : key' = key
    · rw [hkey, Function.update_self]
    · rw [Function.update_of_ne hkey]
      apply h.missing key' hstamp
      intro hmem
      obtain ⟨n, hn, rfl⟩ := List.mem_map.mp hmem
      exact hmissing (List.mem_map.mpr ⟨n, mem_dropMember.mpr ⟨hkey, hn⟩, rfl⟩)

/-- The stamp is not one of the values. -/
theorem stamp (h : Entries m members) (stamp : Int32) :
  Entries m (putMember members stampKey (.int stamp.toInt))
  := by
  have hint : IsInt stamp.toInt := ⟨stamp.le_toInt, stamp.toInt_lt⟩
  have hput : Entries (Function.update m stampKey (some (.int stamp.toInt))) _ :=
    h.put (by decide) (.int hint)
  exact {
    nodup := hput.nodup
    no_nul := hput.no_nul
    values := hput.values
    same := by
      intro n hn hstamp
      have hsame := hput.same n hn hstamp
      rwa [Function.update_of_ne hstamp] at hsame
    missing := by
      intro key hstamp hmissing
      have hnone := hput.missing key hstamp hmissing
      rwa [Function.update_of_ne hstamp] at hnone
  }

/-- The entries are encoded, and decoded in the opposite order. -/
theorem trip (hjs : js.Lawful) (h : Entries m members) (hne : members ≠ []) :
  ∃ text members', js.jsonEncode (.alist members) = some (.str text) ∧ text ≠ []
    ∧ Char.ofNat 0 ∉ text ∧ js.jsonDecode (.str text) = some (.alist members')
    ∧ Entries m members'
  := by
  obtain ⟨n₀, rest, rfl⟩ := List.exists_cons_of_ne_nil hne
  have hencodes := encodes_alist h.nodup h.no_nul (fun n hn => (h.values n hn).encodes)
  obtain ⟨text, hencode, hdecode, htext, hnul⟩ := hencodes.trip hjs rfl
  rw [jsonParse_obj, List.map_map] at hdecode
  refine ⟨text, _, hencode, htext, hnul, hdecode, ?_⟩
  generalize n₀ :: rest = members at *
  have hmem : ∀ n, n ∈ (members.map
      ((fun n : Text × Json => (n.1, jsonParse n.2)) ∘ fun n => (n.1, built n.2))).reverse
      ↔ ∃ n' ∈ members, (n'.1, jsonParse (built n'.2)) = n := by
    intro n
    rw [List.mem_reverse, List.mem_map]
    rfl
  have hfst : ((members.map
      ((fun n : Text × Json => (n.1, jsonParse n.2)) ∘ fun n => (n.1, built n.2))).reverse.map
        Prod.fst).Perm (members.map Prod.fst) := by
    have hperm := (List.reverse_perm (members.map
      ((fun n : Text × Json => (n.1, jsonParse n.2)) ∘ fun n => (n.1, built n.2)))).map Prod.fst
    rwa [List.map_map] at hperm
  constructor
  · exact hfst.nodup_iff.mpr h.nodup
  · intro n hn
    obtain ⟨n', hn', rfl⟩ := (hmem n).mp hn
    exact h.no_nul n' hn'
  · intro n hn
    obtain ⟨n', hn', rfl⟩ := (hmem n).mp hn
    have hbuilt := (h.values n' hn').encodes
    exact jsonValue_jsonParse hbuilt.wf hbuilt.noReal
  · intro n hn hstamp
    obtain ⟨n', hn', rfl⟩ := (hmem n).mp hn
    obtain ⟨v, hv, hsame⟩ := h.same n' hn' hstamp
    exact ⟨v, hv, hsame.trans (h.values n' hn').encodes.same⟩
  · intro key hstamp hmissing
    exact h.missing key hstamp (fun hkey => hmissing (hfst.mem_iff.mpr hkey))

/-- The value that `assq-ref` finds. -/
theorem finds (h : Entries m members) (hstamp : key ≠ stampKey) :
  Finds (m key) ((Scm.alist members).assqRef key)
  := by
  by_cases hmem : key ∈ members.map Prod.fst
  · obtain ⟨n, hn, rfl⟩ := List.mem_map.mp hmem
    obtain ⟨v, hv, hsame⟩ := h.same n hn hstamp
    rw [hv, assqRef_alist_of_mem h.nodup hn]
    exact hsame
  · rw [h.missing key hstamp hmem, assqRef_alist_of_notMem hmem]
    rfl

end Entries

theorem Decodes.unique (h : Decodes js x members) (h' : Decodes js x members') :
  members = members'
  := by
  rcases h with ⟨rfl, rfl⟩ | ⟨text, rfl, hdecode⟩
  · rcases h' with ⟨-, rfl⟩ | ⟨text, htext, -⟩
    · rfl
    · cases htext
  · rcases h' with ⟨htext, -⟩ | ⟨text', htext, hdecode'⟩
    · cases htext
    · obtain rfl := Option.some.inj (Option.some.inj htext)
      exact Scm.alist_inj.mp (Option.some.inj (hdecode.symm.trans hdecode'))

/-- The session that `session-set` and `session-unset` change. -/
theorem Decodes.sessionOr_eq (hempty : js.loads [] = none) (h : Decodes js x members) :
  sessionOr js (KvMap.read x) = some (.alist members)
  := by
  rcases h with ⟨rfl, rfl⟩ | ⟨text, rfl, hdecode⟩
  · have hdecode : js.jsonDecode (.str []) = some (.bool false) := by
      rw [Jansson.jsonDecode, toUtf8, if_neg (by simp)]
      simp [hempty]
    rw [sessionOr, KvMap.read, if_pos rfl, hdecode, Option.map_some, if_pos rfl]
    rfl
  · have hraw : KvMap.read (some (some text)) ≠ .bool false := Scm.str_ne_bool text false
    rw [sessionOr, if_neg hraw, KvMap.read, hdecode, Option.map_some,
      if_neg (Scm.alist_ne_bool members false)]

end

/-! ### What the functions do -/

/-- The entries after a change. -/
def SessionEdit.apply (members : List (Text × Scm)) : SessionEdit → List (Text × Scm)
  | set key value => putMember members key value
  | unset key => dropMember members key

section

variable {js : Jansson} {sessKey : Text} {edit : SessionEdit} {stamp : Int32} {m : SessionMap}
  {members : List (Text × Scm)} {x : Option (Option Text)}

theorem Entries.apply (h : Entries m members) (hfits : edit.Fits) :
  Entries (m.edit edit) (edit.apply members)
  := by
  cases edit with
  | set key value => exact h.put hfits.1 hfits.2
  | unset key => exact h.drop

/-- A change reads the session, and stores another one. -/
theorem sessionEdit_eq (place : Place sessions sessKey) :
  ∃ next, sessionEdit js sessKey edit stamp
      = .query (.selectValue (constant sessions) (constant sessKey)) next
    ∧ ∀ r members, (members.map Prod.fst).Nodup →
      sessionOr js (pgCell (pgOneRow r) "value") = some (.alist members) →
      next r = sessionStore js sessKey stamp (.alist (edit.apply members))
  := by
  have hget := kvGet_str place.ns_nul place.key_nul
  cases edit with
  | set key value =>
      refine ⟨_, by rw [sessionEdit, sessionSet, hget, query_bind], ?_⟩
      intro r members hkeys hsession
      rw [done_bind, hsession, ofOption_some, done_bind, assqSet_alist hkeys]
      rfl
  | unset key =>
      refine ⟨_, by rw [sessionEdit, sessionUnset, hget, query_bind], ?_⟩
      intro r members hkeys hsession
      rw [done_bind, hsession, ofOption_some, done_bind, assqRemove_alist hkeys]
      rfl

/-- A session is encoded and stored. -/
theorem sessionStore_eq (hjs : js.Lawful) (h : Entries m members) :
  ∃ text, sessionStore js sessKey stamp (.alist members) = (Edit.set text).perform sessions sessKey
    ∧ (Edit.set text).Storable ∧ ∀ m', Entries m' members →
      SessionValue js ((Edit.set text).apply x) m'
  := by
  obtain ⟨text, members', hencode, htext, hnul, hdecode, -⟩ :=
    (h.stamp stamp).trip hjs putMember_ne_nil
  refine ⟨text, ?_, ⟨htext, hnul⟩, ?_⟩
  · rw [sessionStore, assqSet_alist h.nodup, hencode]
    rfl
  · intro m' h'
    obtain ⟨text', members'', hencode', -, -, hdecode', hentries⟩ :=
      (h'.stamp stamp).trip hjs putMember_ne_nil
    obtain rfl := Scm.str.inj (Option.some.inj (hencode.symm.trans hencode'))
    exact ⟨members'', Or.inr ⟨text, rfl, hdecode'⟩, hentries⟩

/-- A change whose value fits into JSON. -/
theorem updates_sessionEdit (hjs : js.Lawful) (hempty : js.loads [] = none)
    (place : Place sessions sessKey) (hfits : edit.Fits) (stamp : Int32) :
  Updates sessions sessKey (SessionValue js) (SessionMap.edit · edit) (fun _ => True)
    (sessionEdit js sessKey edit stamp)
  := by
  obtain ⟨next, hquery, hnext⟩ := @sessionEdit_eq js sessKey edit stamp place
  refine ⟨next, hquery, ?_⟩
  rintro x r ⟨m, members, hdecodes, hentries⟩ hcell
  have hsession := hdecodes.sessionOr_eq hempty
  rw [← hcell] at hsession
  obtain ⟨text, hstore, hstorable, hvalue⟩ :=
    sessionStore_eq hjs (hentries.apply hfits)
  refine ⟨.set text, (hnext r members hentries.nodup hsession).trans hstore, hstorable, ?_⟩
  rintro m' ⟨members', hdecodes', hentries'⟩
  obtain rfl := hdecodes.unique hdecodes'
  exact ⟨hvalue _ (hentries'.apply hfits), fun _ => trivial⟩

end

/-! ### Calls one after the other -/

/-- A call by a request of a session. -/
inductive SessionCall where
  | get (key : Text)
  | change (edit : SessionEdit) (stamp : Int32)

/-- The function that is called; only `session-get` returns something that is used. -/
def sessionCall (js : Jansson) (c : Text × SessionCall) : Kv (Option Scm) :=
  match c.2 with
  | .get key => do return some (← sessionGet js c.1 key)
  | .change edit stamp => do
      sessionEdit js c.1 edit stamp
      return none

/-- The call is about a key of a session with a name, other than that of the stamp, and a value is
one that JSON has room for. -/
def SessionCall.Admissible (c : Text × SessionCall) : Prop :=
  c.1 ≠ [] ∧ match c.2 with
    | .get key => key ≠ stampKey
    | .change (.set key value) _ => key ≠ stampKey ∧ JsonValue (fun _ => True) value
    | .change (.unset key) _ => key ≠ stampKey

/-- There is a NUL where none can be. -/
def SessionCall.HasNul (c : Text × SessionCall) : Prop :=
  Char.ofNat 0 ∈ c.1 ∨ match c.2 with
    | .get _ => False
    | .change edit _ => ¬ edit.Fits

abbrev Sessions := Text → SessionMap

open Classical in
/-- The abstract sessions: a call with a NUL raises an exception. -/
noncomputable def sessionSpec : Spec (Text × SessionCall) (Option Scm) Sessions where
  allows m c out :=
    if SessionCall.HasNul c then out = none
    else match c.2 with
      | .get key => ∃ x, out = some (some x) ∧ Finds (m c.1 key) x
      | .change _ _ => out = some none
  next m c :=
    if SessionCall.HasNul c then m
    else match c.2 with
      | .get _ => m
      | .change edit _ => Function.update m c.1 ((m c.1).edit edit)

def SessionCall.changes (sessKey key : Text) (c : Text × SessionCall) : Bool :=
  decide (c.1 = sessKey) && match c.2 with
    | .get _ => false
    | .change edit _ => decide (edit.key = key)

/-- The value that a change leaves. -/
def SessionCall.value (c : Text × SessionCall) : Option Scm :=
  match c.2 with
  | .get _ => none
  | .change edit _ => edit.value

/-- The value that the key of the session was most recently set to, unless it was unset since. -/
def latest (calls : List (Text × SessionCall)) (sessKey key : Text) : Option Scm :=
  (calls.filter (SessionCall.changes sessKey key)).getLast?.bind SessionCall.value

open Classical in
noncomputable def SessionCall.complete (calls : List (Text × SessionCall)) :
    List (Text × SessionCall) :=
  calls.filter (fun c => ¬ SessionCall.HasNul c)

/-- What a call leaves under a key of a session. -/
theorem sessionSpec_next {m : Sessions} {c : Text × SessionCall} (hnul : ¬ SessionCall.HasNul c)
    (sessKey key : Text) :
  sessionSpec.next m c sessKey key
    = if SessionCall.changes sessKey key c then SessionCall.value c else m sessKey key
  := by
  obtain ⟨sessKey', call⟩ := c
  simp only [sessionSpec]
  rw [if_neg hnul]
  cases call with
  | get key' => simp [SessionCall.changes]
  | change edit stamp =>
      by_cases hsess : sessKey' = sessKey
      · subst hsess
        by_cases hkey : edit.key = key
        · subst hkey
          simp [SessionCall.changes, SessionCall.value, SessionMap.edit]
        · simp [SessionCall.changes, SessionMap.edit, hkey, Ne.symm hkey]
      · simp [SessionCall.changes, hsess, Ne.symm hsess]

/-- What the abstract sessions have after some calls. -/
theorem foldl_sessionSpec {calls : List (Text × SessionCall)} {sessKey key : Text} :
  calls.foldl sessionSpec.next (fun _ _ => none) sessKey key
    = latest (SessionCall.complete calls) sessKey key
  := by
  induction calls using List.reverseRecOn with
  | nil => rfl
  | append_singleton calls c ih =>
      rw [List.foldl_append, List.foldl_cons, List.foldl_nil]
      by_cases hnul : SessionCall.HasNul c
      · have hcalls : SessionCall.complete (calls ++ [c]) = SessionCall.complete calls := by
          simp [SessionCall.complete, hnul]
        rw [hcalls, ← ih]
        simp only [sessionSpec]
        rw [if_pos hnul]
      · have hcalls : SessionCall.complete (calls ++ [c]) = SessionCall.complete calls ++ [c] := by
          simp [SessionCall.complete, hnul]
        rw [sessionSpec_next hnul, hcalls, latest, List.filter_append]
        split
        case isTrue hchanges =>
            rw [List.filter_cons_of_pos hchanges, List.filter_nil, List.getLast?_append,
              List.getLast?_singleton, Option.some_or, Option.bind_some]
        case isFalse hchanges =>
            rw [List.filter_cons_of_neg hchanges, List.filter_nil, List.append_nil, ih, latest]

/-- The table has the values of the sessions. -/
structure Holds (js : Jansson) (t : Table) (m : Sessions) : Prop where
  unique : t.Unique
  values : ∀ sessKey, sessKey ≠ [] →
    SessionValue js (t.toMap.value sessions sessKey) (m sessKey)

section

variable {js : Jansson} {t t' : Table} {m : Sessions} {sessKey key : Text} {edit : SessionEdit}
  {stamp : Int32}

theorem place_sessions (hkey : sessKey ≠ []) (hnul : Char.ofNat 0 ∉ sessKey) :
  Place sessions sessKey
  where
  ns_ne := by decide
  key_ne := hkey
  ns_nul := by decide
  key_nul := hnul

theorem kvGet_sessions_nul (hnul : Char.ofNat 0 ∈ sessKey) :
  kvGet (.str sessions) (.str sessKey) = .raise
  := by
  have hns : format (.str sessions) = .done (constant sessions) := format_str (by decide)
  simp [kvGet, hns, format_str_nul hnul]

/-- `session-get` executes one statement. -/
theorem sessionGet_eq (place : Place sessions sessKey) :
  sessionGet js sessKey key = .query (.selectValue (constant sessions) (constant sessKey))
    (fun r => (if pgCell (pgOneRow r) "value" = .bool false then .done (.bool false)
        else .ofOption (js.jsonDecode (pgCell (pgOneRow r) "value"))) >>= fun session =>
      if session = .bool false then .done (.bool false) else .done (session.assqRef key))
  := by
  rw [sessionGet, sessionRead, kvGet_str place.ns_nul place.key_nul]
  rfl

/-- `session-get`. -/
theorem Holds.get (h : Holds js t m) (hne : sessKey ≠ []) (hnul : Char.ofNat 0 ∉ sessKey)
    (hstamp : key ≠ stampKey) {out : Option Scm}
    (hruns : Runs serve (sessionGet js sessKey key) t out t') :
  t' = t ∧ ∃ x, out = some x ∧ Finds (m sessKey key) x
  := by
  have place := place_sessions hne hnul
  obtain ⟨members, hdecodes, hentries⟩ := h.values sessKey hne
  rw [sessionGet_eq place] at hruns
  obtain ⟨r, u, hserve, hrest⟩ := hruns
  obtain ⟨rfl, hcell⟩ := serve_selectValue h.unique hserve
  rw [KvMap.lookup, if_neg (not_or.mpr ⟨place.ns_ne, place.key_ne⟩)] at hcell
  have hfinds := hentries.finds hstamp
  beta_reduce at hrest
  rw [hcell] at hrest
  rcases hdecodes with ⟨hvalue, rfl⟩ | ⟨text, hvalue, hdecode⟩
  · rw [hvalue, KvMap.read, if_pos rfl, done_bind, if_pos rfl] at hrest
    obtain ⟨rfl, rfl⟩ := hrest
    exact ⟨rfl, _, rfl, hfinds⟩
  · rw [hvalue, KvMap.read, if_neg (Scm.str_ne_bool text false), hdecode, ofOption_some, done_bind,
      if_neg (Scm.alist_ne_bool members false)] at hrest
    obtain ⟨rfl, rfl⟩ := hrest
    exact ⟨rfl, _, rfl, hfinds⟩

/-- `session-set` and `session-unset`. -/
theorem Holds.change (hjs : js.Lawful) (hempty : js.loads [] = none) (h : Holds js t m)
    (hne : sessKey ≠ []) (hnul : Char.ofNat 0 ∉ sessKey) (hfits : edit.Fits) {out : Option Unit}
    (hruns : Runs serve (sessionEdit js sessKey edit stamp) t out t') :
  out = some () ∧ Holds js t' (Function.update m sessKey ((m sessKey).edit edit))
    ∧ ∀ sessKey', sessKey' ≠ sessKey →
      t'.toMap.value sessions sessKey' = t.toMap.value sessions sessKey'
  := by
  have place := place_sessions hne hnul
  obtain ⟨hout, y, hat, hy⟩ := (updates_sessionEdit hjs hempty place hfits stamp).runs place
    (has_self h.unique) (h.values sessKey hne) hruns
  have hothers : ∀ sessKey', sessKey' ≠ sessKey →
      t'.toMap.value sessions sessKey' = t.toMap.value sessions sessKey' := by
    intro sessKey' hother
    rw [hat.map_eq, KvMap.put]
    simp [hother]
  refine ⟨hout, ⟨hat.unique, ?_⟩, hothers⟩
  intro sessKey' hne'
  by_cases hsess : sessKey' = sessKey
  · subst hsess
    rw [Function.update_self, hat.map_eq, KvMap.put]
    simpa using hy
  · rw [Function.update_of_ne hsess, hothers sessKey' hsess]
    exact h.values sessKey' hne'

/-- A key or a value with a NUL cannot be encoded. -/
theorem sessionEdit_unfit (place : Place sessions sessKey)
    (hadmissible : SessionCall.Admissible (sessKey, .change edit stamp)) (hfits : ¬ edit.Fits) :
  ∃ next, sessionEdit js sessKey edit stamp
      = .query (.selectValue (constant sessions) (constant sessKey)) next
    ∧ ∀ r members, (members.map Prod.fst).Nodup →
      sessionOr js (pgCell (pgOneRow r) "value") = some (.alist members) → next r = .raise
  := by
  obtain ⟨next, hquery, hnext⟩ := @sessionEdit_eq js sessKey edit stamp place
  refine ⟨next, hquery, ?_⟩
  intro r members hkeys hsession
  rw [hnext r members hkeys hsession]
  cases edit with
  | unset key => exact absurd trivial hfits
  | set key value =>
      obtain ⟨-, hstamp, hvalue⟩ := hadmissible
      have hnodup : ((putMember members key value).map Prod.fst).Nodup := nodup_putMember hkeys
      have hnone : jsonBuild (.alist (putMember (putMember members key value) stampKey
          (.int stamp.toInt))) = none := by
        have hmem : (key, value) ∈ putMember (putMember members key value) stampKey
            (.int stamp.toInt) :=
          mem_putMember.mpr (Or.inr ⟨hstamp, mem_putMember.mpr (Or.inl rfl)⟩)
        apply jsonBuild_alist_none hmem
        by_cases hkey : Char.ofNat 0 ∈ key
        · exact Or.inl hkey
        · exact Or.inr (hvalue.no_nul_or.resolve_left (fun hfit => hfits ⟨hkey, hfit⟩))
      rw [SessionEdit.apply, sessionStore, assqSet_alist hnodup, Jansson.jsonEncode, hnone,
        Option.bind_none, ofOption_none, raise_bind]

/-- `session-set` of a key or a value with a NUL. -/
theorem Holds.change_nul (hempty : js.loads [] = none) (h : Holds js t m)
    (hne : sessKey ≠ []) (hnul : Char.ofNat 0 ∉ sessKey)
    (hadmissible : SessionCall.Admissible (sessKey, .change edit stamp)) (hfits : ¬ edit.Fits)
    {out : Option Unit} (hruns : Runs serve (sessionEdit js sessKey edit stamp) t out t') :
  out = none ∧ t' = t
  := by
  have place := place_sessions hne hnul
  obtain ⟨members, hdecodes, hentries⟩ := h.values sessKey hne
  obtain ⟨next, hquery, hnext⟩ := @sessionEdit_unfit js sessKey edit stamp place hadmissible hfits
  rw [hquery] at hruns
  obtain ⟨r, u, hserve, hrest⟩ := hruns
  obtain ⟨rfl, hcell⟩ := serve_selectValue h.unique hserve
  rw [KvMap.lookup, if_neg (not_or.mpr ⟨place.ns_ne, place.key_ne⟩)] at hcell
  have hsession := hdecodes.sessionOr_eq hempty
  rw [← hcell] at hsession
  rw [hnext r members hentries.nodup hsession] at hrest
  exact hrest

/-- One call. -/
theorem Holds.call (hjs : js.Lawful) (hempty : js.loads [] = none) (h : Holds js t m)
    {c : Text × SessionCall} (hc : SessionCall.Admissible c) {out : Option (Option Scm)}
    (hruns : Runs serve (sessionCall js c) t out t') :
  sessionSpec.allows m c out ∧ Holds js t' (sessionSpec.next m c)
    ∧ ∀ sessKey, sessKey ≠ c.1 →
      t'.toMap.value sessions sessKey = t.toMap.value sessions sessKey
  := by
  obtain ⟨sessKey, call⟩ := c
  simp only [sessionSpec]
  by_cases hnul : Char.ofNat 0 ∈ sessKey
  · have hraise : sessionCall js (sessKey, call) = .raise := by
      have hget := kvGet_sessions_nul hnul
      cases call with
      | get key => simp [sessionCall, sessionGet, sessionRead, hget]
      | change edit stamp =>
          cases edit with
          | set key value => simp [sessionCall, sessionEdit, sessionSet, hget]
          | unset key => simp [sessionCall, sessionEdit, sessionUnset, hget]
    have hhas : SessionCall.HasNul (sessKey, call) := Or.inl hnul
    rw [hraise] at hruns
    obtain ⟨rfl, rfl⟩ := hruns
    rw [if_pos hhas, if_pos hhas]
    exact ⟨rfl, h, fun _ _ => rfl⟩
  · cases call with
    | get key =>
        have hhas : ¬ SessionCall.HasNul (sessKey, .get key) := by
          rintro (hsess | hfalse)
          · exact hnul hsess
          · exact hfalse
        rw [if_neg hhas, if_neg hhas]
        obtain (⟨-, hraise⟩ | ⟨x, u, hget, rfl, rfl⟩) := runs_bind.mp hruns
        · obtain ⟨-, x, hx, -⟩ := h.get hc.1 hnul hc.2 hraise
          cases hx
        · obtain ⟨rfl, _, ⟨⟩, hfinds⟩ := h.get hc.1 hnul hc.2 hget
          exact ⟨⟨x, rfl, hfinds⟩, h, fun _ _ => rfl⟩
    | change edit stamp =>
        by_cases hfits : edit.Fits
        · have hhas : ¬ SessionCall.HasNul (sessKey, .change edit stamp) := by
            rintro (hsess | hfalse)
            · exact hnul hsess
            · exact hfalse hfits
          rw [if_neg hhas, if_neg hhas]
          obtain (⟨-, hraise⟩ | ⟨_, u, hedit, rfl, rfl⟩) := runs_bind.mp hruns
          · cases (h.change hjs hempty hc.1 hnul hfits hraise).1
          · obtain ⟨-, hholds, hothers⟩ := h.change hjs hempty hc.1 hnul hfits hedit
            exact ⟨rfl, hholds, hothers⟩
        · have hhas : SessionCall.HasNul (sessKey, .change edit stamp) := Or.inr hfits
          rw [if_pos hhas, if_pos hhas]
          obtain (⟨rfl, hraise⟩ | ⟨_, u, hedit, -, -⟩) := runs_bind.mp hruns
          · obtain ⟨-, rfl⟩ := h.change_nul hempty hc.1 hnul hc hfits hraise
            exact ⟨rfl, h, fun _ _ => rfl⟩
          · cases (h.change_nul hempty hc.1 hnul hc hfits hedit).1

end

/-- A table without sessions. -/
theorem holds_empty {js : Jansson} {t : Table} (hu : t.Unique)
    (hempty : ∀ row ∈ t, row.ns ≠ some sessions) :
  Holds js t (fun _ _ => none)
  where
  unique := hu
  values sessKey _ := by
    have hnone : t.find? (Row.at sessions sessKey) = none := by
      apply List.find?_eq_none.mpr
      intro row hrow
      simp [Row.at, hempty row hrow]
    refine ⟨[], Or.inl ⟨?_, rfl⟩, Entries.empty⟩
    simp [Table.toMap, hnone]

/-- **Sessions**: after any calls that come one after the other, `session-get` returns the value
that the key of the session was most recently set to, up to the order of members, or `#f` when it
was not set or was unset since; and one more call leaves what is stored for other sessions.  Only
a call with a NUL in a key or in a value raises an exception. -/
theorem session_refines_map {js : Jansson} (hjs : js.Lawful) (hloads : js.loads [] = none)
    {t t' : Table} (hu : t.Unique) (hempty : ∀ row ∈ t, row.ns ≠ some sessions)
    {calls : List (Text × SessionCall)} (hcalls : ∀ c ∈ calls, SessionCall.Admissible c)
    {outs : List (Option (Option Scm))}
    (hruns : RunsAll serve (calls.map (sessionCall js)) t outs t') :
  ∀ c, SessionCall.Admissible c → ∀ out t'', Runs serve (sessionCall js c) t' out t'' →
    (out = none ↔ SessionCall.HasNul c)
    ∧ (∀ key answer, c.2 = .get key → out = some answer →
      ∃ x, answer = some x ∧ Finds (latest (SessionCall.complete calls) c.1 key) x)
    ∧ ∀ sessKey, sessKey ≠ c.1 →
      t''.toMap.value sessions sessKey = t'.toMap.value sessions sessKey
  := by
  have hcall : ∀ s m c out t, Holds js s m → SessionCall.Admissible c →
      Runs serve (sessionCall js c) s out t →
      sessionSpec.allows m c out ∧ Holds js t (sessionSpec.next m c) := by
    intro s m c out t h hc hruns
    obtain ⟨hallows, hnext, -⟩ := h.call hjs hloads hc hruns
    exact ⟨hallows, hnext⟩
  obtain ⟨hlength, m, hspec, hm⟩ := hruns.simulates hcall hcalls (holds_empty hu hempty)
  intro c hc out t'' hnext
  obtain ⟨hallows, -, hothers⟩ := hm.call hjs hloads hc hnext
  have hlatest : ∀ sessKey key, m sessKey key = latest (SessionCall.complete calls) sessKey key := by
    intro sessKey key
    rw [hspec.state_eq hlength, foldl_sessionSpec]
  simp only [sessionSpec] at hallows
  split at hallows
  case isTrue hnul =>
      subst hallows
      exact ⟨⟨fun _ => hnul, fun _ => rfl⟩, by nofun, hothers⟩
  case isFalse hnul =>
      obtain ⟨sessKey, call⟩ := c
      cases call with
      | get key =>
          obtain ⟨x, rfl, hfinds⟩ := hallows
          refine ⟨⟨by nofun, fun h => absurd h hnul⟩, ?_, hothers⟩
          rintro key' answer ⟨⟩ ⟨⟩
          rw [← hlatest]
          exact ⟨x, rfl, hfinds⟩
      | change edit stamp =>
          subst hallows
          exact ⟨⟨by nofun, fun h => absurd h hnul⟩, by nofun, hothers⟩

/-- A value is set in one session, and read after a call of another one. -/
theorem session_refines_map_two :
  ∃ outs t' out t'',
    RunsAll serve (List.map (sessionCall jansson) [(['s'], .change (.set ['k'] (.int 7)) 1),
      (['t'], .change (.unset ['k']) 2)]) [] outs t'
    ∧ Runs serve (sessionCall jansson (['s'], .get ['k'])) t' out t''
    ∧ (out = none ↔ SessionCall.HasNul (['s'], .get ['k']))
    ∧ ∀ answer, out = some answer → ∃ x, answer = some x
      ∧ Finds (latest (SessionCall.complete [(['s'], .change (.set ['k'] (.int 7)) 1),
        (['t'], .change (.unset ['k']) 2)]) ['s'] ['k']) x
  := by
  obtain ⟨outs, t', hruns⟩ := exists_runsAll exists_serve
    (List.map (sessionCall jansson) [(['s'], .change (.set ['k'] (.int 7)) 1),
      (['t'], .change (.unset ['k']) 2)]) []
  obtain ⟨out, t'', hget⟩ := exists_runs exists_serve (sessionCall jansson (['s'], .get ['k'])) t'
  have hadmissible : SessionCall.Admissible (['s'], .get ['k']) := ⟨by decide, by decide⟩
  have hcalls : ∀ c ∈ [(['s'], SessionCall.change (.set ['k'] (.int 7)) 1),
      (['t'], .change (.unset ['k']) 2)], SessionCall.Admissible c := by
    simp only [List.forall_mem_cons, List.not_mem_nil, false_implies, implies_true, and_true]
    exact ⟨⟨by decide, by decide, .int (by decide)⟩, by decide, by decide⟩
  obtain ⟨hnul, hfinds, -⟩ := session_refines_map lawful_jansson (by decide) List.Pairwise.nil
    (by simp) hcalls hruns _ hadmissible out t'' hget
  exact ⟨outs, t', out, t'', hruns, hget, hnul, fun answer => hfinds ['k'] answer rfl⟩

end Gusher
