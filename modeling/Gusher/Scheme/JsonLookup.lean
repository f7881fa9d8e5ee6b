import Gusher.Scheme.JsonRoundTrip

/-!
# Looking up in an association list that was encoded

`assq-ref` finds the first entry for a key.  The encoder sets one member after the other, and the
last entry for a key replaces those before.  So a lookup is kept when the first and the last entry
for every key have the same value (`keepsLookup_iff`).
-/

namespace Gusher

/-- An association list of strings, with symbols for keys. -/
def stringAlist (al : List (Text × Text)) : Scm :=
  .alist (al.map (fun p => (p.1, .str p.2)))

/-- The list is encoded, the text is decoded, and in the result every lookup gives what it gives in
the list. -/
def KeepsLookup (js : Jansson) (al : List (Text × Text)) : Prop :=
  ∃ text decoded, js.jsonEncode (stringAlist al) = some text ∧ js.jsonDecode text = some decoded
    ∧ ∀ k, decoded.assqRef k = (stringAlist al).assqRef k

/-- No key and no value has a NUL. -/
def NulFree (al : List (Text × Text)) : Prop :=
  ∀ p ∈ al, Char.ofNat 0 ∉ p.1 ∧ Char.ofNat 0 ∉ p.2

/-- The first and the last entry for a key have the same value. -/
def FirstIsLast (al : List (Text × Text)) : Prop :=
  ∀ k, al.lookup k = al.reverse.lookup k

/-- The members of the object that is built. -/
def stringMembers (al : List (Text × Text)) : List (Text × Json) :=
  (al.map (fun p => (p.1, Json.str p.2))).foldl (fun ms m => Json.set ms m.1 m.2) []

/-! ### Lookups -/

/-- What is found in a list whose values are changed. -/
theorem lookup_map_snd {α β : Type} (f : α → β) (l : List (Text × α)) (k : Text) :
  (l.map (fun p => (p.1, f p.2))).lookup k = (l.lookup k).map f
  := by
  induction l with
  | nil => rfl
  | cons p l ih =>
      rw [List.map_cons, Json.lookup_cons_ite, Json.lookup_cons_ite, ih]
      split
      case isTrue => rfl
      case isFalse => rfl

/-- `assq-ref` finds the first entry for a key. -/
theorem assqRef_alist (members : List (Text × Scm)) (k : Text) :
  (Scm.alist members).assqRef k = (members.lookup k).getD (.bool false)
  := by
  induction members with
  | nil => rfl
  | cons m members ih =>
      rw [Scm.alist_cons, Scm.assqRef_entry, ih, Json.lookup_cons_ite]
      by_cases hk : k = m.1
      · simp [hk]
      · simp [hk, Ne.symm hk]

theorem assqRef_stringAlist (al : List (Text × Text)) (k : Text) :
  (stringAlist al).assqRef k = ((al.lookup k).map Scm.str).getD (.bool false)
  := by
  rw [stringAlist, assqRef_alist, lookup_map_snd]

/-- A lookup in what is parsed finds the last entry. -/
theorem assqRef_jsonParse (al : List (Text × Text)) (k : Text) :
  (jsonParse (.obj (stringMembers al))).assqRef k = (stringAlist al.reverse).assqRef k
  := by
  have hstr : (fun p : Text × Text => (p.1, jsonParse (Json.str p.2)))
      = (fun p => (p.1, Scm.str p.2)) := rfl
  rw [jsonParse_obj, ← List.map_reverse, assqRef_alist, lookup_map_snd, stringMembers,
    Json.lookup_reverse_foldl_set, List.reverse_nil, List.append_nil, ← List.map_reverse,
    ← lookup_map_snd, List.map_map, assqRef_stringAlist, ← lookup_map_snd, ← hstr]
  rfl

theorem assqRef_stringAlist_inj {al al' : List (Text × Text)} {k : Text} :
  (stringAlist al).assqRef k = (stringAlist al').assqRef k ↔ al.lookup k = al'.lookup k
  := by
  rw [assqRef_stringAlist, assqRef_stringAlist]
  cases al.lookup k <;> cases al'.lookup k <;> simp

/-! ### Encoding -/

/-- A list without NUL becomes an object. -/
theorem jsonBuild_stringAlist {al : List (Text × Text)} (hne : al ≠ []) (hnul : NulFree al) :
  jsonBuild (stringAlist al) = some (some (.obj (stringMembers al)))
  := by
  have hvalue : ∀ p ∈ al, jsonBuild (.str p.2) = some (some (.str p.2)) := by
    intro p hp
    rw [jsonBuild, jsonString, if_neg (hnul p hp).2]
  have hmembers := buildMembers_foldl (fun p hp => (hnul p hp).1) hvalue []
  obtain ⟨p, al, rfl⟩ := List.exists_cons_of_ne_nil hne
  rw [List.map_cons, Scm.alist_cons] at hmembers
  rw [stringAlist, List.map_cons, Scm.alist_cons, jsonBuild_member,
    if_pos (Scm.isList_alist _), hmembers]
  rfl

/-- The object has no NUL in it, and different keys. -/
theorem wf_stringMembers {al : List (Text × Text)} (hnul : NulFree al) :
  (Json.obj (stringMembers al)).Wf
  := by
  apply Json.foldl_set_sound
  · apply Json.wf_obj
    · exact ⟨List.nodup_nil, by simp⟩
    · simp
  · intro m hm
    obtain ⟨p, hp, rfl⟩ := List.mem_map.mp hm
    exact ⟨(hnul p hp).1, Json.wf_atom (fun x hx => by cases hx; rfl) (hnul p hp).2⟩

/-- The members that are set are among those that are given. -/
theorem mem_foldl_set {new members : List (Text × Json)} {m : Text × Json}
    (h : m ∈ new.foldl (fun ms m => Json.set ms m.1 m.2) members) :
  m ∈ members ∨ m ∈ new
  := by
  induction new generalizing members with
  | nil => exact Or.inl h
  | cons n new ih =>
      rcases ih h with hmem | hmem
      · rcases Json.mem_set hmem with hmem | rfl
        · exact Or.inl hmem
        · exact Or.inr List.mem_cons_self
      · exact Or.inr (List.mem_cons_of_mem n hmem)

theorem noReal_stringMembers (al : List (Text × Text)) :
  (Json.obj (stringMembers al)).NoReal
  := by
  apply Json.noReal_obj
  intro m hm
  rcases mem_foldl_set hm with hm | hm
  · cases hm
  · obtain ⟨p, -, rfl⟩ := List.mem_map.mp hm
    rintro digits ⟨⟩

/-- A list with a NUL is not encoded. -/
theorem jsonBuild_stringAlist_none {al : List (Text × Text)} (hnul : ¬ NulFree al) :
  jsonBuild (stringAlist al) = none
  := by
  simp only [NulFree, not_forall] at hnul
  obtain ⟨p, hp, hnul⟩ := hnul
  apply jsonBuild_alist_none (List.mem_map_of_mem hp)
  by_cases hkey : Char.ofNat 0 ∈ p.1
  · exact Or.inl hkey
  · right
    rw [jsonBuild, jsonString, if_pos (not_not.mp (fun h => hnul ⟨hkey, h⟩))]

/-- A list without NUL is encoded, and the text is decoded. -/
theorem decoded_stringAlist {js : Jansson} (hjs : js.Lawful) {al : List (Text × Text)}
    (hne : al ≠ []) (hnul : NulFree al) :
  ∃ text, js.jsonEncode (stringAlist al) = some text
    ∧ js.jsonDecode text = some (jsonParse (.obj (stringMembers al)))
  := by
  have hwf := wf_stringMembers hnul
  have hreal := noReal_stringMembers al
  obtain ⟨t, hencode, ht, -⟩ := jsonEncode_eq hjs (jsonBuild_stringAlist hne hnul) hwf hreal rfl
  exact ⟨_, hencode, jsonDecode_eq ht (hjs.loads_dumps hwf hreal rfl)⟩

/-- What is decoded of a list without NUL keeps the lookups exactly when the first and the last
entry for every key have the same value. -/
theorem assqRef_jsonParse_iff (al : List (Text × Text)) :
  (∀ k, (jsonParse (.obj (stringMembers al))).assqRef k = (stringAlist al).assqRef k)
    ↔ FirstIsLast al
  := by
  apply forall_congr'
  intro k
  rw [assqRef_jsonParse, assqRef_stringAlist_inj]
  exact eq_comm

/-- An association list of strings that is not empty keeps its lookups exactly when it has no NUL,
and the first and the last entry for every key have the same value. -/
theorem keepsLookup_iff {js : Jansson} (hjs : js.Lawful) {al : List (Text × Text)} (hne : al ≠ []) :
  KeepsLookup js al ↔ NulFree al ∧ FirstIsLast al
  := by
  constructor
  · rintro ⟨text, decoded, hencode, hdecode, hkeeps⟩
    have hnul : NulFree al := by
      by_contra hnul
      rw [Jansson.jsonEncode, jsonBuild_stringAlist_none hnul] at hencode
      cases hencode
    obtain ⟨text', hencode', hdecode'⟩ := decoded_stringAlist hjs hne hnul
    rw [hencode] at hencode'
    obtain rfl := Option.some.inj hencode'
    rw [hdecode] at hdecode'
    obtain rfl := Option.some.inj hdecode'
    exact ⟨hnul, (assqRef_jsonParse_iff al).mp hkeeps⟩
  · rintro ⟨hnul, hfirst⟩
    obtain ⟨text, hencode, hdecode⟩ := decoded_stringAlist hjs hne hnul
    exact ⟨text, _, hencode, hdecode, (assqRef_jsonParse_iff al).mpr hfirst⟩

/-- A list with a key between two entries for another key, which have the same value. -/
theorem keepsLookup_iff_repeated :
  KeepsLookup jansson
    [("a".toList, "1".toList), ("b".toList, "2".toList), ("a".toList, "1".toList)]
  := by
  apply (keepsLookup_iff lawful_jansson (by decide)).mpr
  constructor
  · intro p hp
    revert p
    decide
  · intro k
    rfl

/-- Of two entries for one key the second is found in what is decoded. -/
theorem repeated_key_last :
  ∃ text decoded, jansson.jsonEncode (stringAlist [("a".toList, "1".toList),
        ("a".toList, "2".toList)]) = some text
    ∧ jansson.jsonDecode text = some decoded
    ∧ decoded.assqRef "a".toList = .str "2".toList
    ∧ (stringAlist [("a".toList, "1".toList), ("a".toList, "2".toList)]).assqRef "a".toList
      = .str "1".toList
    ∧ ¬ KeepsLookup jansson [("a".toList, "1".toList), ("a".toList, "2".toList)]
  := by
  have hnul : NulFree [("a".toList, "1".toList), ("a".toList, "2".toList)] := by
    intro p hp
    revert p
    decide
  obtain ⟨text, hencode, hdecode⟩ := decoded_stringAlist lawful_jansson (by decide) hnul
  have hlast := assqRef_jsonParse [("a".toList, "1".toList), ("a".toList, "2".toList)] "a".toList
  refine ⟨text, _, hencode, hdecode, hlast, rfl, ?_⟩
  rintro ⟨text', decoded, hencode', hdecode', hkeeps⟩
  rw [hencode] at hencode'
  obtain rfl := Option.some.inj hencode'
  rw [hdecode] at hdecode'
  obtain rfl := Option.some.inj hdecode'
  have hfirst := hlast.symm.trans (hkeeps "a".toList)
  revert hfirst
  decide

end Gusher
