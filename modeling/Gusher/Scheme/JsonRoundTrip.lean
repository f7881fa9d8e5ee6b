import Gusher.Scheme.Json

/-!
# Round trips through JSON

What becomes of a Scheme object that is encoded and decoded, and of a JSON document that is decoded
and encoded.  The members of an association list come back in the opposite order.
-/

namespace Gusher

/-! ### The order of members -/

/-- The objects are the same up to the order of the members of association lists: neighbouring
members with different keys are exchanged. -/
inductive Scm.Same : Scm → Scm → Prop
  | refl (x : Scm) : Same x x
  | trans {x y z : Scm} (hxy : Same x y) (hyz : Same y z) : Same x z
  | pair {car car' cdr cdr' : Scm} (hcar : Same car car') (hcdr : Same cdr cdr') :
      Same (.pair car cdr) (.pair car' cdr')
  | swap {k l : Text} (hkl : k ≠ l) (v w rest : Scm) :
      Same (.pair (.pair (.symbol k) v) (.pair (.pair (.symbol l) w) rest))
        (.pair (.pair (.symbol l) w) (.pair (.pair (.symbol k) v) rest))

theorem Scm.isList_ofList (xs : List Scm) :
  (ofList xs).isList = true
  := by
  induction xs with
  | nil => rfl
  | cons x xs ih => exact ih

theorem Scm.isList_alist (members : List (Text × Scm)) :
  (alist members).isList = true
  := isList_ofList _

namespace Scm.Same

/-- Lists are the same when their items are. -/
theorem ofList_map {α : Type} {f g : α → Scm} {xs : List α} (h : ∀ x ∈ xs, Same (f x) (g x)) :
  Same (.ofList (xs.map f)) (.ofList (xs.map g))
  := by
  induction xs with
  | nil => apply refl
  | cons x xs ih =>
      apply pair
      · apply h x List.mem_cons_self
      · apply ih
        intro y hy
        apply h y (List.mem_cons_of_mem x hy)

/-- Association lists are the same when they have the same keys in the same order, with values
that are the same. -/
theorem alist_map {α : Type} {f g : α → Scm} {k : α → Text} {xs : List α}
    (h : ∀ x ∈ xs, Same (f x) (g x)) :
  Same (.alist (xs.map (fun x => (k x, f x)))) (.alist (xs.map (fun x => (k x, g x))))
  := by
  induction xs with
  | nil => apply refl
  | cons x xs ih =>
      apply pair
      · apply pair (refl _)
        apply h x List.mem_cons_self
      · apply ih
        intro y hy
        apply h y (List.mem_cons_of_mem x hy)

/-- The order of the members of an association list with different keys does not matter. -/
theorem alist_perm {members members' : List (Text × Scm)} (h : members.Perm members')
    (hkeys : (members.map Prod.fst).Nodup) :
  Same (.alist members) (.alist members')
  := by
  induction h with
  | nil => apply refl
  | cons m _ ih =>
      rw [List.map_cons, List.nodup_cons] at hkeys
      apply pair (refl _)
      apply ih hkeys.2
  | swap m n members =>
      simp only [List.map_cons, List.nodup_cons, List.mem_cons, not_or] at hkeys
      apply swap hkeys.1.1
  | trans h₁ _ ih₁ ih₂ =>
      apply (ih₁ hkeys).trans
      apply ih₂
      apply (h₁.map Prod.fst).nodup_iff.mp hkeys

theorem str_iff {x y : Scm} (h : Same x y) (s : Text) :
  x = .str s ↔ y = .str s
  := by
  induction h with
  | refl => rfl
  | trans _ _ ihxy ihyz => exact ihxy.trans ihyz
  | pair => simp
  | swap => simp

end Scm.Same

/-! ### Parsing -/

theorem parseItems_eq (items : List Json) :
  parseItems items = .ofList (items.map jsonParse)
  := by
  induction items with
  | nil => rfl
  | cons x items ih => rw [parseItems, ih, List.map_cons, Scm.ofList_cons]

/-- The last member comes first. -/
theorem parseMembers_eq (members : List (Text × Json)) (rest : List (Text × Scm)) :
  parseMembers members (.alist rest)
    = .alist ((members.map (fun m => (m.1, jsonParse m.2))).reverse ++ rest)
  := by
  induction members generalizing rest with
  | nil => rfl
  | cons m members ih =>
      rw [parseMembers, ← Scm.alist_cons (m.1, jsonParse m.2) rest, ih, List.map_cons,
        List.reverse_cons, List.append_assoc, List.singleton_append]

theorem jsonParse_arr (items : List Json) :
  jsonParse (.arr items) = .ofList (items.map jsonParse)
  := by
  rw [jsonParse, parseItems_eq]

theorem jsonParse_obj (members : List (Text × Json)) :
  jsonParse (.obj members) = .alist (members.map (fun m => (m.1, jsonParse m.2))).reverse
  := by
  rw [jsonParse, ← Scm.alist_nil, parseMembers_eq, List.append_nil]

/-! ### Building -/

/-- The items of a list are built one after the other. -/
theorem buildItems_ofList {α : Type} {f : α → Scm} {g : α → Json} {xs : List α}
    (h : ∀ x ∈ xs, jsonBuild (f x) = some (some (g x))) (items : List Json) :
  buildItems items (.ofList (xs.map f)) = some (some (.arr (items ++ xs.map g)))
  := by
  induction xs generalizing items with
  | nil => simp [buildItems]
  | cons x xs ih =>
      rw [List.map_cons, Scm.ofList_cons, buildItems, h x List.mem_cons_self, Option.bind_some,
        Option.toList_some, ih (fun y hy => h y (List.mem_cons_of_mem x hy)), List.append_assoc,
        List.map_cons, List.singleton_append]

/-- The members of an association list are set one after the other. -/
theorem buildMembers_foldl {α : Type} {key : α → Text} {f : α → Scm} {g : α → Json} {xs : List α}
    (hkeys : ∀ x ∈ xs, Char.ofNat 0 ∉ key x)
    (h : ∀ x ∈ xs, jsonBuild (f x) = some (some (g x))) (members : List (Text × Json)) :
  buildMembers members (.alist (xs.map (fun x => (key x, f x))))
    = some (some (.obj ((xs.map (fun x => (key x, g x))).foldl
        (fun ms m => Json.set ms m.1 m.2) members)))
  := by
  induction xs generalizing members with
  | nil => rfl
  | cons x xs ih =>
      rw [List.map_cons, Scm.alist_cons, buildMembers, makeKey, if_neg (hkeys x List.mem_cons_self),
        Option.bind_some, h x List.mem_cons_self, Option.bind_some, objectSetNew,
        ih (fun y hy => hkeys y (List.mem_cons_of_mem x hy))
          (fun y hy => h y (List.mem_cons_of_mem x hy))]
      rfl

/-- The members of an association list with different keys are built one after the other. -/
theorem buildMembers_alist {α : Type} {key : α → Text} {f : α → Scm} {g : α → Json} {xs : List α}
    (hkeys : ∀ x ∈ xs, Char.ofNat 0 ∉ key x)
    (h : ∀ x ∈ xs, jsonBuild (f x) = some (some (g x))) {members : List (Text × Json)}
    (hnodup : ((members ++ xs.map (fun x => (key x, g x))).map Prod.fst).Nodup) :
  buildMembers members (.alist (xs.map (fun x => (key x, f x))))
    = some (some (.obj (members ++ xs.map (fun x => (key x, g x)))))
  := by
  rw [← Json.foldl_set hnodup]
  exact buildMembers_foldl hkeys h members

theorem jsonBuild_pair {car cdr : Scm} (h : ∀ name value, car ≠ .pair (.symbol name) value) :
  jsonBuild (.pair car cdr)
    = if cdr.isList then buildItems [] (.pair car cdr) else some (some .null)
  := by
  rw [jsonBuild]
  · rfl
  · rintro name value rfl
    exact h name value rfl

theorem jsonBuild_member (name : Text) (value cdr : Scm) :
  jsonBuild (.pair (.pair (.symbol name) value) cdr)
    = if cdr.isList then buildMembers [] (.pair (.pair (.symbol name) value) cdr)
      else some (some .null)
  := by
  rw [jsonBuild]
  rfl

/-! ### Encoding and decoding -/

/-- The objects that JSON has room for: strings without NUL, the integers of an `int`, the truth
values, the empty list, lists of such objects, and association lists whose keys are different
symbols that meet a condition. -/
inductive JsonValue (KeyOk : Text → Prop) : Scm → Prop
  | str {s : Text} (h : Char.ofNat 0 ∉ s) : JsonValue KeyOk (.str s)
  | int {z : ℤ} (h : IsInt z) : JsonValue KeyOk (.int z)
  | bool (b : Bool) : JsonValue KeyOk (.bool b)
  | nil : JsonValue KeyOk .nil
  | list {x : Scm} {xs : List Scm} (h : ∀ y ∈ x :: xs, JsonValue KeyOk y) :
      JsonValue KeyOk (.ofList (x :: xs))
  | alist {m : Text × Scm} {members : List (Text × Scm)}
      (hkeys : ((m :: members).map Prod.fst).Nodup) (hok : ∀ n ∈ m :: members, KeyOk n.1)
      (h : ∀ n ∈ m :: members, JsonValue KeyOk n.2) : JsonValue KeyOk (.alist (m :: members))

/-- The object is built into the value, which is parsed into the object, up to the order of
members. -/
structure Encodes (v : Scm) (j : Json) : Prop where
  build : jsonBuild v = some (some j)
  wf : j.Wf
  noReal : j.NoReal
  same : Scm.Same v (jsonParse j)

/-- The value that is built of an object. -/
def built (v : Scm) : Json :=
  (jsonBuild v).join.getD .null

theorem built_eq {v : Scm} {j : Json} (h : jsonBuild v = some (some j)) :
  built v = j
  := by
  rw [built, h]
  rfl

theorem int64_toInt_of_isInt {z : ℤ} (h : IsInt z) :
  (Int64.ofInt z).toInt = z
  := by
  obtain ⟨hlow, hhigh⟩ := h
  apply Int64.toInt_ofInt_of_le
  · omega
  · omega

theorem encodes_int {z : ℤ} (h : IsInt z) :
  Encodes (.int z) (.int (Int64.ofInt z))
  where
  build := by rw [jsonBuild, if_pos h]
  wf := Json.wf_atom (fun x hx => by cases hx; rfl) trivial
  noReal := by rintro digits ⟨⟩
  same := by
    rw [jsonParse, int64_toInt_of_isInt h, bmod_eq_self h.1 h.2]
    apply Scm.Same.refl

theorem encodes_str {s : Text} (h : Char.ofNat 0 ∉ s) :
  Encodes (.str s) (.str s)
  where
  build := by rw [jsonBuild, jsonString, if_neg h]
  wf := Json.wf_atom (fun x hx => by cases hx; rfl) h
  noReal := by rintro digits ⟨⟩
  same := Scm.Same.refl _

/-- A list whose first item is not taken for a member of an association list. -/
theorem encodes_ofList {x : Scm} {xs : List Scm}
    (hfirst : ∀ name value, x ≠ .pair (.symbol name) value)
    (h : ∀ y ∈ x :: xs, Encodes y (built y)) :
  Encodes (.ofList (x :: xs)) (.arr ((x :: xs).map built))
  where
  build := by
    have hitems := buildItems_ofList (f := id) (fun y hy => (h y hy).build) []
    rw [List.map_id, Scm.ofList_cons] at hitems
    rw [Scm.ofList_cons, jsonBuild_pair hfirst, if_pos (Scm.isList_ofList xs), hitems]
    rfl
  wf := by
    apply Json.wf_arr
    intro j hj
    obtain ⟨y, hy, rfl⟩ := List.mem_map.mp hj
    apply (h y hy).wf
  noReal := by
    apply Json.noReal_arr
    intro j hj
    obtain ⟨y, hy, rfl⟩ := List.mem_map.mp hj
    apply (h y hy).noReal
  same := by
    have hitems := Scm.Same.ofList_map (f := id) (fun y hy => (h y hy).same)
    rw [List.map_id] at hitems
    rw [jsonParse_arr, List.map_map]
    apply hitems

/-- The members of an association list, taken apart and put together. -/
theorem map_pair_self {α β : Type} (xs : List (α × β)) :
  xs.map (fun x => (x.1, x.2)) = xs
  := List.map_id' xs

/-- An association list with keys without NUL. -/
theorem encodes_alist {m : Text × Scm} {members : List (Text × Scm)}
    (hkeys : ((m :: members).map Prod.fst).Nodup)
    (hnul : ∀ n ∈ m :: members, Char.ofNat 0 ∉ n.1)
    (h : ∀ n ∈ m :: members, Encodes n.2 (built n.2)) :
  Encodes (.alist (m :: members)) (.obj ((m :: members).map (fun n => (n.1, built n.2))))
  where
  build := by
    have hnodup : (([] ++ (m :: members).map (fun n : Text × Scm =>
        (n.1, built n.2))).map Prod.fst).Nodup := by
      rw [List.nil_append, List.map_map]
      exact hkeys
    have hmembers := buildMembers_alist hnul (fun n hn => (h n hn).build) hnodup
    rw [map_pair_self, Scm.alist_cons, List.nil_append] at hmembers
    rw [Scm.alist_cons, jsonBuild_member, if_pos (Scm.isList_alist members), hmembers]
  wf := by
    apply Json.wf_obj
    · constructor
      · rw [List.map_map]
        exact hkeys
      · intro a ha
        obtain ⟨n, hn, rfl⟩ := List.mem_map.mp ha
        apply hnul n hn
    · intro a ha
      obtain ⟨n, hn, rfl⟩ := List.mem_map.mp ha
      apply (h n hn).wf
  noReal := by
    apply Json.noReal_obj
    intro a ha
    obtain ⟨n, hn, rfl⟩ := List.mem_map.mp ha
    apply (h n hn).noReal
  same := by
    have hvalues := Scm.Same.alist_map (fun n hn => (h n hn).same) (k := Prod.fst)
    rw [map_pair_self] at hvalues
    apply hvalues.trans
    rw [jsonParse_obj, List.map_map]
    apply Scm.Same.alist_perm
    · apply (List.reverse_perm _).symm
    · rw [List.map_map]
      exact hkeys

/-- Such an object does not start with a symbol. -/
theorem JsonValue.ne_member {KeyOk : Text → Prop} {v : Scm} (h : JsonValue KeyOk v)
    (name : Text) (value : Scm) :
  v ≠ .pair (.symbol name) value
  := by
  intro heq
  cases h with
  | list hitems =>
      obtain ⟨rfl, -⟩ := Scm.pair.inj heq
      have hsymbol := hitems _ List.mem_cons_self
      generalize hv : Scm.symbol name = v at hsymbol
      cases hsymbol <;> cases hv
  | alist => cases heq
  | _ => cases heq

/-- Every such object with keys without NUL is encoded. -/
theorem JsonValue.encodes {v : Scm} (h : JsonValue (Char.ofNat 0 ∉ ·) v) :
  Encodes v (built v)
  := by
  suffices hex : ∃ j, Encodes v j by
    obtain ⟨j, hj⟩ := hex
    rwa [built_eq hj.build]
  induction h with
  | str h => exact ⟨_, encodes_str h⟩
  | int h => exact ⟨_, encodes_int h⟩
  | bool b =>
      use .bool b
      exact {
        build := rfl
        wf := Json.wf_atom (fun x hx => by cases hx; rfl) trivial
        noReal := by rintro digits ⟨⟩
        same := Scm.Same.refl _
      }
  | nil =>
      use .null
      exact {
        build := rfl
        wf := Json.wf_atom (fun x hx => by cases hx; rfl) trivial
        noReal := by rintro digits ⟨⟩
        same := Scm.Same.refl _
      }
  | list h ih =>
      refine ⟨_, encodes_ofList (h _ List.mem_cons_self).ne_member ?_⟩
      intro y hy
      obtain ⟨j, hj⟩ := ih y hy
      rwa [built_eq hj.build]
  | alist hkeys hok h ih =>
      refine ⟨_, encodes_alist hkeys hok ?_⟩
      intro n hn
      obtain ⟨j, hj⟩ := ih n hn
      rwa [built_eq hj.build]

/-- What a document is parsed into has room in JSON. -/
theorem jsonValue_jsonParse {j : Json} (hj : j.Wf) (hreal : j.NoReal) :
  JsonValue (Char.ofNat 0 ∉ ·) (jsonParse j)
  := by
  induction j with
  | null => exact .nil
  | bool b => exact .bool b
  | int n => exact .int ⟨le_bmod _, bmod_lt _⟩
  | real digits => exact absurd (.refl _) (hreal digits)
  | str s => exact .str (hj _ (.refl _))
  | arr items ih =>
      rw [jsonParse_arr]
      cases items with
      | nil => exact .nil
      | cons x items =>
          apply JsonValue.list
          intro y hy
          obtain ⟨z, hz, rfl⟩ := List.mem_map.mp (List.map_cons ▸ hy)
          exact ih z hz (hj.item hz) (hreal.item hz)
  | obj members ih =>
      obtain ⟨hkeys, hnul⟩ : (Json.obj members).Sound := hj _ (.refl _)
      rw [jsonParse_obj]
      have hmem : ∀ n ∈ (members.map (fun m => (m.1, jsonParse m.2))).reverse,
          Char.ofNat 0 ∉ n.1 ∧ JsonValue (Char.ofNat 0 ∉ ·) n.2 := by
        intro n hn
        obtain ⟨m, hm, rfl⟩ := List.mem_map.mp (List.mem_reverse.mp hn)
        exact ⟨hnul m hm, ih m hm (hj.member hm) (hreal.member hm)⟩
      have hnodup : ((members.map (fun m => (m.1, jsonParse m.2))).reverse.map Prod.fst).Nodup := by
        apply ((List.reverse_perm _).map Prod.fst).nodup_iff.mpr
        rw [List.map_map]
        exact hkeys
      cases hrev : (members.map (fun m => (m.1, jsonParse m.2))).reverse with
      | nil => exact .nil
      | cons m rest =>
          rw [hrev] at hmem hnodup
          exact .alist hnodup (fun n hn => (hmem n hn).1) (fun n hn => (hmem n hn).2)

/-- A list is not built when one of its items is not. -/
theorem buildItems_none {xs : List Scm} {x : Scm} (hx : x ∈ xs) (hnone : jsonBuild x = none)
    (items : List Json) :
  buildItems items (.ofList xs) = none
  := by
  induction xs generalizing items with
  | nil => cases hx
  | cons y xs ih =>
      rw [Scm.ofList_cons, buildItems]
      rcases List.mem_cons.mp hx with rfl | hx
      · rw [hnone, Option.bind_none]
      · cases jsonBuild y with
        | none => rfl
        | some z => exact ih hx _

/-- An association list is not built when a key has a NUL, or when one of the values is not
built. -/
theorem buildMembers_none {xs : List (Text × Scm)} {x : Text × Scm} (hx : x ∈ xs)
    (hnone : Char.ofNat 0 ∈ x.1 ∨ jsonBuild x.2 = none) (members : List (Text × Json)) :
  buildMembers members (.alist xs) = none
  := by
  induction xs generalizing members with
  | nil => cases hx
  | cons y xs ih =>
      rw [Scm.alist_cons, buildMembers]
      rcases List.mem_cons.mp hx with rfl | hx
      · rcases hnone with hnul | hnone
        · rw [makeKey, if_pos hnul, Option.bind_none]
        · rw [hnone]
          cases makeKey (.symbol x.1) with
          | none => rfl
          | some k => rfl
      · cases makeKey (.symbol y.1) with
        | none => rfl
        | some k =>
            cases jsonBuild y.2 with
            | none => rfl
            | some z => exact ih hx _

/-- An association list with a NUL in a key or with a value that is not built is not built. -/
theorem jsonBuild_alist_none {xs : List (Text × Scm)} {x : Text × Scm} (hx : x ∈ xs)
    (hnone : Char.ofNat 0 ∈ x.1 ∨ jsonBuild x.2 = none) :
  jsonBuild (.alist xs) = none
  := by
  have h := buildMembers_none hx hnone []
  cases xs with
  | nil => cases hx
  | cons y xs =>
      rw [Scm.alist_cons] at h ⊢
      rw [jsonBuild_member, if_pos (Scm.isList_alist xs), h]

/-- An object has no NUL in its keys, or else it is not built. -/
theorem JsonValue.no_nul_or {v : Scm} (h : JsonValue (fun _ => True) v) :
  JsonValue (Char.ofNat 0 ∉ ·) v ∨ jsonBuild v = none
  := by
  induction h with
  | str h => exact Or.inl (.str h)
  | int h => exact Or.inl (.int h)
  | bool b => exact Or.inl (.bool b)
  | nil => exact Or.inl .nil
  | @list x xs h ih =>
      by_cases hall : ∀ y ∈ x :: xs, JsonValue (Char.ofNat 0 ∉ ·) y
      · exact Or.inl (.list hall)
      · simp only [not_forall] at hall
        obtain ⟨y, hy, hnot⟩ := hall
        right
        have hitems := buildItems_none hy ((ih y hy).resolve_left hnot) []
        rw [Scm.ofList_cons] at hitems ⊢
        rw [jsonBuild_pair (h _ List.mem_cons_self).ne_member, if_pos (Scm.isList_ofList _), hitems]
  | @alist m members hkeys hok h ih =>
      by_cases hall : ∀ n ∈ m :: members, Char.ofNat 0 ∉ n.1 ∧ JsonValue (Char.ofNat 0 ∉ ·) n.2
      · exact Or.inl (.alist hkeys (fun n hn => (hall n hn).1) (fun n hn => (hall n hn).2))
      · simp only [not_forall, not_and_or, not_not] at hall
        obtain ⟨n, hn, hnul⟩ := hall
        right
        apply jsonBuild_alist_none hn
        rcases hnul with hnul | hnot
        · exact Or.inl hnul
        · exact Or.inr ((ih n hn).resolve_left hnot)

/-- The texts of the library are what the code relies on. -/
theorem lawful_jansson :
  jansson.Lawful
  where
  loads_dumps := by
    intro j hj hreal hcontainer
    simp only [jansson]
    rw [fromUtf8_eq_some_iff.mpr rfl, Option.bind_some, Json.read_print hj hreal hcontainer]
  exists_text := by
    intro j hj hreal hcontainer
    refine ⟨j.print, rfl, ?_, Json.no_nul_print hj hreal⟩
    cases j with
    | arr items => nofun
    | obj members => nofun
    | _ => cases hcontainer
  loads_wf := by
    intro s j h
    obtain ⟨t, -, ht⟩ := Option.bind_eq_some_iff.mp h
    apply Json.wf_read ht

section Library

variable {js : Jansson}

/-- The text of the value that is built. -/
theorem jsonEncode_eq (hjs : js.Lawful) {v : Scm} {j : Json} (hbuild : jsonBuild v = some (some j))
    (hj : j.Wf) (hreal : j.NoReal) (hcontainer : j.isContainer = true) :
  ∃ t, js.jsonEncode v = some (.str t) ∧ toUtf8 t = some (js.dumps j) ∧ t ≠ [] ∧
    Char.ofNat 0 ∉ t
  := by
  obtain ⟨t, ht, hne, hnul⟩ := hjs.exists_text hj hreal hcontainer
  use t
  refine ⟨?_, ?_, hne, hnul⟩
  · rw [Jansson.jsonEncode, hbuild, Option.bind_some, Jansson.jsonDumps, if_pos hcontainer]
    simp only [ht, fromUtf8_eq_some_iff.mpr rfl, Option.map_some]
  · rw [toUtf8, if_neg hnul, ht, encodeUtf8]

theorem jsonDecode_eq {t : Text} {s : List UInt8} {j : Json} (ht : toUtf8 t = some s)
    (hloads : js.loads s = some j) :
  js.jsonDecode (.str t) = some (jsonParse j)
  := by
  rw [Jansson.jsonDecode, ht, Option.map_some, hloads]

/-- An object that is encoded is decoded, up to the order of members. -/
theorem Encodes.trip (hjs : js.Lawful) {v : Scm} {j : Json} (h : Encodes v j)
    (hcontainer : j.isContainer = true) :
  ∃ t, js.jsonEncode v = some (.str t) ∧ js.jsonDecode (.str t) = some (jsonParse j) ∧ t ≠ [] ∧
    Char.ofNat 0 ∉ t
  := by
  obtain ⟨t, hencode, ht, hne, hnul⟩ := jsonEncode_eq hjs h.build h.wf h.noReal hcontainer
  exact ⟨t, hencode, jsonDecode_eq ht (hjs.loads_dumps h.wf h.noReal hcontainer), hne, hnul⟩

/-- A pair becomes an array or an object. -/
theorem JsonValue.isContainer_built {car cdr : Scm}
    (h : JsonValue (Char.ofNat 0 ∉ ·) (.pair car cdr)) :
  (built (.pair car cdr)).isContainer = true
  := by
  cases h with
  | list hitems =>
      have h := encodes_ofList (hitems _ List.mem_cons_self).ne_member
        (fun y hy => (hitems y hy).encodes)
      apply congrArg Json.isContainer (built_eq h.build)
  | alist hkeys hok hvalues =>
      have h := encodes_alist hkeys hok (fun n hn => (hvalues n hn).encodes)
      apply congrArg Json.isContainer (built_eq h.build)

/-- **Round trip.**  A list without NUL in a string or a key is encoded, and the text is decoded
into the list, up to the order of the members of association lists. -/
theorem json_round_trip (hjs : js.Lawful) {car cdr : Scm}
    (h : JsonValue (Char.ofNat 0 ∉ ·) (.pair car cdr)) :
  ∃ t w, js.jsonEncode (.pair car cdr) = some t ∧ js.jsonDecode t = some w ∧
    Scm.Same (.pair car cdr) w
  := by
  obtain ⟨t, hencode, hdecode, -⟩ := h.encodes.trip hjs h.isContainer_built
  exact ⟨.str t, _, hencode, hdecode, h.encodes.same⟩

/-- An association list with a list and a nested association list in it. -/
theorem json_round_trip_session :
  ∃ t w,
    jansson.jsonEncode (.alist [("cart".toList, .ofList [.int 3, .nil, .str []]),
      ("user".toList, .alist [("id".toList, .int (-7)), ("admin".toList, .bool false)])]) = some t ∧
    jansson.jsonDecode t = some w ∧
    Scm.Same (.alist [("cart".toList, .ofList [.int 3, .nil, .str []]),
      ("user".toList, .alist [("id".toList, .int (-7)), ("admin".toList, .bool false)])]) w
  := by
  apply json_round_trip lawful_jansson
  apply JsonValue.alist
  · decide
  · decide
  · simp only [List.forall_mem_cons, List.not_mem_nil, false_implies, implies_true, and_true]
    constructor
    · apply JsonValue.list
      simp only [List.forall_mem_cons, List.not_mem_nil, false_implies, implies_true, and_true]
      exact ⟨.int (by decide), .nil, .str (by decide)⟩
    · apply JsonValue.alist
      · decide
      · decide
      · simp only [List.forall_mem_cons, List.not_mem_nil, false_implies, implies_true, and_true]
        exact ⟨.int (by decide), .bool false⟩

/-- A key with a NUL raises an exception. -/
theorem json_round_trip_nul_key :
  JsonValue (fun _ => True) (.alist [([Char.ofNat 0], .int 1)]) ∧
    jansson.jsonEncode (.alist [([Char.ofNat 0], .int 1)]) = none
  := by
  constructor
  · apply JsonValue.alist
    · decide
    · simp
    · simp only [List.forall_mem_cons, List.not_mem_nil, false_implies, implies_true, and_true]
      exact .int (by decide)
  · decide

end Library

/-! ### Decoding and encoding -/

mutual

/-- The object that a document denotes, with its integers as they are. -/
def jsonTree : Json → Scm
  | .str s => .str s
  | .int n => .int n.toInt
  | .real digits => .number digits
  | .bool b => .bool b
  | .null => .nil
  | .arr items => treeItems items
  | .obj members => treeMembers members

/-- The list that the items of an array denote. -/
def treeItems : List Json → Scm
  | [] => .nil
  | x :: items => .pair (jsonTree x) (treeItems items)

/-- The association list that the members of an object denote. -/
def treeMembers : List (Text × Json) → Scm
  | [] => .nil
  | (key, x) :: members => .pair (.pair (.symbol key) (jsonTree x)) (treeMembers members)

end

theorem jsonTree_arr (items : List Json) :
  jsonTree (.arr items) = .ofList (items.map jsonTree)
  := by
  suffices h : treeItems items = .ofList (items.map jsonTree) by rw [jsonTree, h]
  induction items with
  | nil => rfl
  | cons x items ih => rw [treeItems, ih, List.map_cons, Scm.ofList_cons]

theorem jsonTree_obj (members : List (Text × Json)) :
  jsonTree (.obj members) = .alist (members.map (fun m => (m.1, jsonTree m.2)))
  := by
  suffices h : treeMembers members = .alist (members.map (fun m => (m.1, jsonTree m.2))) by
    rw [jsonTree, h]
  induction members with
  | nil => rfl
  | cons m members ih => rw [treeMembers, ih, List.map_cons, Scm.alist_cons]

/-- No array and no object in a document is empty. -/
def NoEmpty (j : Json) : Prop :=
  ¬ Json.Inside (.arr []) j ∧ ¬ Json.Inside (.obj []) j

/-- The integers in a document are in the range of an `int`. -/
def IntsFit (j : Json) : Prop :=
  ∀ n, Json.Inside (.int n) j → IsInt n.toInt

/-- An array or an object without anything in it. -/
def isEmpty : Json → Bool
  | .arr items => items.isEmpty
  | .obj members => members.isEmpty
  | _ => false

instance (j : Json) : Decidable (NoEmpty j) :=
  decidable_of_iff (j.all (fun x => !isEmpty x) = true) (by
    rw [Json.all_iff]
    constructor
    · intro h
      exact ⟨fun harr => absurd (h _ harr) (by decide), fun hobj => absurd (h _ hobj) (by decide)⟩
    · rintro ⟨harr, hobj⟩ x hx
      cases x with
      | arr items =>
          cases items with
          | nil => exact absurd hx harr
          | cons x items => rfl
      | obj members =>
          cases members with
          | nil => exact absurd hx hobj
          | cons m members => rfl
      | _ => rfl)

/-- An integer out of the range of an `int`. -/
def isWide : Json → Bool
  | .int n => ¬ IsInt n.toInt
  | _ => false

instance (j : Json) : Decidable (IntsFit j) :=
  decidable_of_iff (j.all (fun x => !isWide x) = true) (by
    rw [Json.all_iff]
    constructor
    · intro h n hn
      have hwide := h _ hn
      simpa [isWide] using hwide
    · intro h x hx
      cases x with
      | int n => simpa [isWide] using h n hx
      | _ => rfl)

/-- A text that is read as the given document is decoded into the object that it denotes, and this
is encoded into a text that is read as the same document, both up to the order of members. -/
def Survives (js : Jansson) (s : Text) (j : Json) : Prop :=
  ∃ x t buf j', js.jsonDecode (.str s) = some x ∧ Scm.Same (jsonTree j) x ∧
    js.jsonEncode x = some (.str t) ∧ toUtf8 t = some buf ∧ js.loads buf = some j' ∧ Json.Same j j'

/-- With integers that fit, a document is parsed into what it denotes. -/
theorem same_jsonParse {j : Json} (hj : j.Wf) (hfit : IntsFit j) :
  Scm.Same (jsonTree j) (jsonParse j)
  := by
  induction j with
  | int n =>
      have hn := hfit n (.refl _)
      rw [jsonTree, jsonParse, bmod_eq_self hn.1 hn.2]
      apply Scm.Same.refl
  | arr items ih =>
      rw [jsonTree_arr, jsonParse_arr]
      apply Scm.Same.ofList_map
      intro x hx
      apply ih x hx (hj.item hx)
      intro n hn
      apply hfit n (.item hx hn)
  | obj members ih =>
      obtain ⟨hkeys, -⟩ : (Json.obj members).Sound := hj _ (.refl _)
      have hvalues := Scm.Same.alist_map (f := fun m => jsonTree m.2)
        (g := fun m => jsonParse m.2) (k := Prod.fst)
        (fun m hm => ih m hm (hj.member hm) (fun n hn => hfit n (.member hm hn)))
      rw [jsonTree_obj, jsonParse_obj]
      apply hvalues.trans
      apply Scm.Same.alist_perm (List.reverse_perm _).symm
      rw [List.map_map]
      exact hkeys
  | _ => apply Scm.Same.refl

/-- What a document is parsed into does not start with a symbol. -/
theorem jsonParse_ne_member (j : Json) (name : Text) (value : Scm) :
  jsonParse j ≠ .pair (.symbol name) value
  := by
  have hsymbol : ∀ x : Json, jsonParse x ≠ .symbol name := by
    intro x
    cases x with
    | arr items =>
        rw [jsonParse_arr]
        cases items <;> nofun
    | obj members =>
        rw [jsonParse_obj]
        cases (members.map (fun m => (m.1, jsonParse m.2))).reverse <;> nofun
    | _ => nofun
  cases j with
  | arr items =>
      rw [jsonParse_arr]
      cases items with
      | nil => nofun
      | cons x items =>
          intro heq
          apply hsymbol x (Scm.pair.inj heq).1
  | obj members =>
      rw [jsonParse_obj]
      cases (members.map (fun m => (m.1, jsonParse m.2))).reverse with
      | nil => nofun
      | cons m members =>
          intro heq
          cases (Scm.pair.inj heq).1
  | _ => nofun

/-- What a document without empty parts is parsed into is built into the document, with the members
in the opposite order. -/
theorem jsonBuild_jsonParse {j : Json} (hj : j.Wf) (hreal : j.NoReal) (hempty : NoEmpty j)
    (hfit : IntsFit j) :
  jsonBuild (jsonParse j) = some (some j.mirror)
  := by
  induction j with
  | null => rfl
  | bool b => rfl
  | int n =>
      have hn := hfit n (.refl _)
      rw [jsonParse, bmod_eq_self hn.1 hn.2, jsonBuild, if_pos hn, Int64.ofInt_toInt, Json.mirror]
      · intro items hitems
        cases hitems
      · intro members hmembers
        cases hmembers
  | real digits => exact absurd (.refl _) (hreal digits)
  | str s =>
      have hs : Char.ofNat 0 ∉ s := hj _ (.refl _)
      rw [jsonParse, jsonBuild, jsonString, if_neg hs]
      rfl
  | arr items ih =>
      have hitems : buildItems [] (.ofList (items.map jsonParse))
          = some (some (.arr (items.map Json.mirror))) := by
        apply buildItems_ofList
        intro x hx
        apply ih x hx (hj.item hx) (hreal.item hx)
        · exact ⟨fun h => hempty.1 (.item hx h), fun h => hempty.2 (.item hx h)⟩
        · exact fun n hn => hfit n (.item hx hn)
      rw [jsonParse_arr, Json.mirror_arr]
      cases items with
      | nil => exact absurd (.refl _) hempty.1
      | cons x items =>
          rw [List.map_cons, Scm.ofList_cons] at hitems ⊢
          rw [jsonBuild_pair (jsonParse_ne_member x), if_pos (Scm.isList_ofList _), hitems]
  | obj members ih =>
      obtain ⟨hkeys, hnul⟩ : (Json.obj members).Sound := hj _ (.refl _)
      have hmembers : buildMembers []
            (.alist (members.reverse.map (fun m => (m.1, jsonParse m.2))))
          = some (some (.obj ([] ++ members.reverse.map (fun m => (m.1, m.2.mirror))))) := by
        apply buildMembers_alist
        · intro m hm
          apply hnul m (List.mem_reverse.mp hm)
        · intro m hm
          have hm := List.mem_reverse.mp hm
          apply ih m hm (hj.member hm) (hreal.member hm)
          · exact ⟨fun h => hempty.1 (.member hm h), fun h => hempty.2 (.member hm h)⟩
          · exact fun n hn => hfit n (.member hm hn)
        · rw [List.nil_append, List.map_map]
          apply ((List.reverse_perm members).map Prod.fst).nodup_iff.mpr hkeys
      rw [jsonParse_obj, Json.mirror_obj, ← List.map_reverse, ← List.map_reverse]
      rw [List.nil_append] at hmembers
      cases hrev : members.reverse with
      | nil =>
          obtain rfl := List.reverse_eq_nil_iff.mp hrev
          exact absurd (.refl _) hempty.2
      | cons m rest =>
          rw [hrev] at hmembers
          rw [List.map_cons, Scm.alist_cons] at hmembers ⊢
          rw [jsonBuild_member, if_pos (Scm.isList_alist _), hmembers]

/-- Every integer in an object is in the range of an `int`. -/
def Scm.IntsFit : Scm → Prop
  | .int z => IsInt z
  | .pair car cdr => car.IntsFit ∧ cdr.IntsFit
  | _ => True

/-- The integers do not depend on the order of members. -/
theorem Scm.Same.intsFit_iff {x y : Scm} (h : Same x y) :
  x.IntsFit ↔ y.IntsFit
  := by
  induction h with
  | refl => rfl
  | trans _ _ ihxy ihyz => rw [ihxy, ihyz]
  | pair _ _ ihcar ihcdr => rw [Scm.IntsFit, ihcar, ihcdr, Scm.IntsFit]
  | swap =>
      simp only [Scm.IntsFit]
      constructor
      · rintro ⟨hv, hw, hrest⟩
        exact ⟨hw, hv, hrest⟩
      · rintro ⟨hw, hv, hrest⟩
        exact ⟨hv, hw, hrest⟩

theorem Scm.intsFit_ofList {xs : List Scm} :
  (ofList xs).IntsFit ↔ ∀ x ∈ xs, x.IntsFit
  := by
  induction xs with
  | nil => simp [IntsFit]
  | cons x xs ih => rw [ofList_cons, IntsFit, ih, List.forall_mem_cons]

theorem Scm.intsFit_alist {members : List (Text × Scm)} :
  (alist members).IntsFit ↔ ∀ m ∈ members, m.2.IntsFit
  := by
  induction members with
  | nil => simp [IntsFit]
  | cons m members ih => simp [IntsFit, ih]

/-- Every integer that `parse` makes is an `int`. -/
theorem intsFit_jsonParse (j : Json) :
  (jsonParse j).IntsFit
  := by
  induction j with
  | int n => exact ⟨le_bmod _, bmod_lt _⟩
  | arr items ih =>
      rw [jsonParse_arr, Scm.intsFit_ofList]
      intro x hx
      obtain ⟨y, hy, rfl⟩ := List.mem_map.mp hx
      apply ih y hy
  | obj members ih =>
      rw [jsonParse_obj, Scm.intsFit_alist]
      intro x hx
      obtain ⟨m, hm, rfl⟩ := List.mem_map.mp (List.mem_reverse.mp hx)
      apply ih m hm
  | _ => trivial

/-- The integers in a document are in what it denotes. -/
theorem intsFit_of_jsonTree {j : Json} (h : (jsonTree j).IntsFit) :
  IntsFit j
  := by
  intro n hn
  induction hn with
  | refl => exact h
  | item hy _ ih =>
      rw [jsonTree_arr, Scm.intsFit_ofList] at h
      apply ih (h _ (List.mem_map_of_mem hy))
  | member hm _ ih =>
      rw [jsonTree_obj, Scm.intsFit_alist] at h
      apply ih (h _ (List.mem_map_of_mem hm))

section Library

variable {js : Jansson} {s : Text} {buf : List UInt8} {j : Json}

/-- Only integers in the range of an `int` survive. -/
theorem Survives.intsFit (h : Survives js s j) (hs : toUtf8 s = some buf)
    (hloads : js.loads buf = some j) :
  IntsFit j
  := by
  obtain ⟨x, t, buf', j', hdecode, hsame, -⟩ := h
  rw [jsonDecode_eq hs hloads] at hdecode
  obtain rfl := Option.some.inj hdecode
  apply intsFit_of_jsonTree
  apply hsame.intsFit_iff.mpr
  apply intsFit_jsonParse

/-- **Decoding and encoding.**  A document without reals and empty parts survives when its integers
are in the range of an `int`, and only then. -/
theorem survives_iff (hjs : js.Lawful) (hs : toUtf8 s = some buf) (hloads : js.loads buf = some j)
    (hreal : j.NoReal) (hempty : NoEmpty j) :
  Survives js s j ↔ IntsFit j
  := by
  obtain ⟨hj, hcontainer⟩ := hjs.loads_wf hloads
  constructor
  · intro h
    apply h.intsFit hs hloads
  · intro hfit
    rw [← Json.isContainer_mirror] at hcontainer
    obtain ⟨t, hencode, ht, -⟩ := jsonEncode_eq hjs (jsonBuild_jsonParse hj hreal hempty hfit)
      hj.mirror hreal.mirror hcontainer
    exact ⟨_, t, _, j.mirror, jsonDecode_eq hs hloads, same_jsonParse hj hfit, hencode, ht,
      hjs.loads_dumps hj.mirror hreal.mirror hcontainer, j.same_mirror⟩

/-- A document with a small number and a null. -/
theorem survives_iff_small :
  Survives jansson "[\x7b\"n\":[12,null]\x7d,true]".toList
    (.arr [.obj [("n".toList, .arr [.int 12, .null])], .bool true])
  := by
  have hs : toUtf8 "[\x7b\"n\":[12,null]\x7d,true]".toList
      = some (jansson.dumps (.arr [.obj [("n".toList, .arr [.int 12, .null])], .bool true])) := by
    decide +kernel
  apply (survives_iff lawful_jansson hs ?_ ?_ ?_).mpr
  · decide +kernel
  · apply lawful_jansson.loads_dumps
    · decide +kernel
    · decide +kernel
    · rfl
  · decide +kernel
  · decide +kernel

/-- The milliseconds of a date are cut off. -/
theorem milliseconds_cut_off :
  jansson.loads (jansson.dumps (.arr [.int 1700000000000])) = some (.arr [.int 1700000000000]) ∧
    Json.NoReal (.arr [.int 1700000000000]) ∧ NoEmpty (.arr [.int 1700000000000]) ∧
    ¬ Survives jansson "[1700000000000]".toList (.arr [.int 1700000000000])
  := by
  have hloads : jansson.loads (jansson.dumps (.arr [.int 1700000000000]))
      = some (.arr [.int 1700000000000]) := by
    apply lawful_jansson.loads_dumps
    · decide +kernel
    · decide +kernel
    · rfl
  refine ⟨hloads, by decide +kernel, by decide +kernel, ?_⟩
  intro h
  have hfit := h.intsFit (by decide +kernel) hloads
  revert hfit
  decide +kernel

end Library

end Gusher
