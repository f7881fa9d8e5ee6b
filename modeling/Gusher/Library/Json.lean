import Mathlib.Algebra.Group.Int.Defs
import Mathlib.Algebra.Group.Nat.Defs
import Mathlib.Data.List.Perm.Basic

/-!
# JSON

The values of JSON with integers of 64 bits, when two values differ in the order of members only,
and the compact text of a value with a reader for it.
-/

/-- A JSON value. -/
inductive Json where
  | null
  | bool (b : Bool)
  | int (n : Int64)
  /-- a number with a fraction or an exponent, as it is written -/
  | real (digits : List Char)
  | str (s : List Char)
  | arr (items : List Json)
  | obj (members : List (List Char × Json))

namespace Json

/-- Induction on the items of arrays and the values of the members of objects. -/
@[elab_as_elim, induction_eliminator]
theorem induct {P : Json → Prop} (null : P null) (bool : ∀ b, P (bool b)) (int : ∀ n, P (int n))
    (real : ∀ digits, P (real digits)) (str : ∀ s, P (str s))
    (arr : ∀ items, (∀ x ∈ items, P x) → P (arr items))
    (obj : ∀ members, (∀ m ∈ members, P m.2) → P (obj members)) (j : Json) :
  P j
  := by
  apply @Json.rec P (fun items => ∀ x ∈ items, P x) (fun members => ∀ m ∈ members, P m.2)
    (fun m => P m.2) null bool int real str arr obj
  · simp
  · intro x items hx hitems y hy
    obtain rfl | hy := List.mem_cons.mp hy
    · apply hx
    · apply hitems y hy
  · simp
  · intro m members hm hmembers n hn
    obtain rfl | hn := List.mem_cons.mp hn
    · apply hm
    · apply hmembers n hn
  · intro k x hx
    apply hx

/-! ### The values inside a value -/

/-- A value, the items of an array and the values of the members of an object, and what is inside
these. -/
inductive Inside : Json → Json → Prop
  | refl (x : Json) : Inside x x
  | item {x y : Json} {items : List Json} (hy : y ∈ items) (hx : Inside x y) :
      Inside x (arr items)
  | member {x : Json} {m : List Char × Json} {members : List (List Char × Json)}
      (hm : m ∈ members) (hx : Inside x m.2) : Inside x (obj members)

/-- There is no NUL in a string or in the key of a member, and the members of an object have
different keys. -/
def Sound : Json → Prop
  | str s => Char.ofNat 0 ∉ s
  | obj members => (members.map Prod.fst).Nodup ∧ ∀ m ∈ members, Char.ofNat 0 ∉ m.1
  | _ => True

/-- The values inside are sound. -/
def Wf (j : Json) : Prop :=
  ∀ x, Inside x j → x.Sound

/-- No number has a fraction or an exponent. -/
def NoReal (j : Json) : Prop :=
  ∀ digits, ¬ Inside (real digits) j

/-- An array or an object. -/
def isContainer : Json → Bool
  | arr _ | obj _ => true
  | _ => false

theorem Wf.item {items : List Json} (h : (arr items).Wf) {x : Json} (hx : x ∈ items) :
  x.Wf
  := by
  intro y hy
  apply h y (.item hx hy)

theorem Wf.member {members : List (List Char × Json)} (h : (obj members).Wf)
    {m : List Char × Json} (hm : m ∈ members) :
  m.2.Wf
  := by
  intro y hy
  apply h y (.member hm hy)

theorem NoReal.item {items : List Json} (h : (arr items).NoReal) {x : Json} (hx : x ∈ items) :
  x.NoReal
  := by
  intro digits hreal
  apply h digits (.item hx hreal)

theorem NoReal.member {members : List (List Char × Json)} (h : (obj members).NoReal)
    {m : List Char × Json} (hm : m ∈ members) :
  m.2.NoReal
  := by
  intro digits hreal
  apply h digits (.member hm hreal)

theorem wf_arr {items : List Json} (h : ∀ x ∈ items, x.Wf) :
  (arr items).Wf
  := by
  intro y hy
  cases hy with
  | refl => trivial
  | item hx hy => apply h _ hx y hy

/-- An object is well-formed when its values are, and its keys are different and without NUL. -/
theorem wf_obj {members : List (List Char × Json)} (hsound : (obj members).Sound)
    (h : ∀ m ∈ members, m.2.Wf) :
  (obj members).Wf
  := by
  intro y hy
  cases hy with
  | refl => exact hsound
  | member hm hy => apply h _ hm y hy

theorem noReal_arr {items : List Json} (h : ∀ x ∈ items, x.NoReal) :
  (arr items).NoReal
  := by
  intro digits hreal
  cases hreal with
  | item hx hreal => apply h _ hx digits hreal

theorem noReal_obj {members : List (List Char × Json)} (h : ∀ m ∈ members, m.2.NoReal) :
  (obj members).NoReal
  := by
  intro digits hreal
  cases hreal with
  | member hm hreal => apply h _ hm digits hreal

theorem wf_atom {j : Json} (h : ∀ x, Inside x j → x = j) (hsound : j.Sound) :
  j.Wf
  := by
  intro x hx
  rwa [h x hx]

mutual

/-- All values inside pass a test. -/
def all (p : Json → Bool) : Json → Bool
  | arr items => p (arr items) && allItems p items
  | obj members => p (obj members) && allMembers p members
  | x => p x

/-- All values inside the items of an array pass a test. -/
def allItems (p : Json → Bool) : List Json → Bool
  | [] => true
  | x :: items => all p x && allItems p items

/-- All values inside the members of an object pass a test. -/
def allMembers (p : Json → Bool) : List (List Char × Json) → Bool
  | [] => true
  | (_, x) :: members => all p x && allMembers p members

end

theorem allItems_iff {p : Json → Bool} {items : List Json} :
  allItems p items = true ↔ ∀ x ∈ items, x.all p = true
  := by
  induction items with
  | nil => simp [allItems]
  | cons x items ih => rw [allItems, Bool.and_eq_true, ih, List.forall_mem_cons]

theorem allMembers_iff {p : Json → Bool} {members : List (List Char × Json)} :
  allMembers p members = true ↔ ∀ m ∈ members, m.2.all p = true
  := by
  induction members with
  | nil => simp [allMembers]
  | cons m members ih => rw [allMembers, Bool.and_eq_true, ih, List.forall_mem_cons]

/-- The test is passed by every value inside. -/
theorem all_iff {p : Json → Bool} {j : Json} :
  j.all p = true ↔ ∀ x, Inside x j → p x = true
  := by
  constructor
  · intro h x hx
    induction hx with
    | refl =>
        cases x with
        | arr items => exact (Bool.and_eq_true_iff.mp h).1
        | obj members => exact (Bool.and_eq_true_iff.mp h).1
        | _ => exact h
    | item hy _ ih =>
        apply ih
        apply allItems_iff.mp (Bool.and_eq_true_iff.mp h).2 _ hy
    | member hm _ ih =>
        apply ih
        apply allMembers_iff.mp (Bool.and_eq_true_iff.mp h).2 _ hm
  · intro h
    induction j with
    | arr items ih =>
        rw [all, Bool.and_eq_true, allItems_iff]
        refine ⟨h _ (.refl _), ?_⟩
        intro x hx
        apply ih x hx
        intro y hy
        apply h y (.item hx hy)
    | obj members ih =>
        rw [all, Bool.and_eq_true, allMembers_iff]
        refine ⟨h _ (.refl _), ?_⟩
        intro m hm
        apply ih m hm
        intro y hy
        apply h y (.member hm hy)
    | _ => exact h _ (.refl _)

instance : DecidablePred Sound
  | null | bool _ | int _ | real _ | arr _ => inferInstanceAs (Decidable True)
  | str s => inferInstanceAs (Decidable (Char.ofNat 0 ∉ s))
  | obj members => inferInstanceAs
      (Decidable ((members.map Prod.fst).Nodup ∧ ∀ m ∈ members, Char.ofNat 0 ∉ m.1))

instance (j : Json) : Decidable j.Wf :=
  decidable_of_iff (j.all (fun x => x.Sound) = true) (by simp [all_iff, Wf])

/-- A number with a fraction or an exponent. -/
def isReal : Json → Bool
  | real _ => true
  | _ => false

instance (j : Json) : Decidable j.NoReal :=
  decidable_of_iff (j.all (fun x => !x.isReal) = true) (by
    rw [all_iff]
    constructor
    · intro h digits hreal
      exact absurd (h _ hreal) (by simp [isReal])
    · intro h x hx
      cases x with
      | real digits => exact absurd hx (h digits)
      | _ => rfl)

/-! ### The order of members -/

/-- The values are the same up to the order of the members of objects. -/
inductive Same : Json → Json → Prop
  | refl (x : Json) : Same x x
  | trans {x y z : Json} (hxy : Same x y) (hyz : Same y z) : Same x z
  | item {x y : Json} (l r : List Json) (h : Same x y) : Same (arr (l ++ x :: r)) (arr (l ++ y :: r))
  | value {x y : Json} (k : List Char) (l r : List (List Char × Json)) (h : Same x y) :
      Same (obj (l ++ (k, x) :: r)) (obj (l ++ (k, y) :: r))
  | order {members members' : List (List Char × Json)} (h : members.Perm members') :
      Same (obj members) (obj members')

/-- Arrays are the same when their items are. -/
theorem Same.arr_map {f : Json → Json} {items : List Json} (h : ∀ x ∈ items, Same x (f x)) :
  Same (arr items) (arr (items.map f))
  := by
  suffices hleft : ∀ l, Same (arr (l ++ items)) (arr (l ++ items.map f)) from hleft []
  induction items with
  | nil =>
      intro l
      apply refl
  | cons x items ih =>
      intro l
      have hx : Same (arr (l ++ x :: items)) (arr (l ++ f x :: items)) :=
        item l items (h x List.mem_cons_self)
      have hrest := ih (fun y hy => h y (List.mem_cons_of_mem x hy)) (l ++ [f x])
      rw [List.append_assoc, List.append_assoc] at hrest
      apply hx.trans hrest

/-- Objects are the same when their values are. -/
theorem Same.obj_map {f : Json → Json} {members : List (List Char × Json)}
    (h : ∀ m ∈ members, Same m.2 (f m.2)) :
  Same (obj members) (obj (members.map (fun m => (m.1, f m.2))))
  := by
  suffices hleft : ∀ l, Same (obj (l ++ members)) (obj (l ++ members.map (fun m => (m.1, f m.2))))
    from hleft []
  induction members with
  | nil =>
      intro l
      apply refl
  | cons m members ih =>
      intro l
      have hm : Same (obj (l ++ m :: members)) (obj (l ++ (m.1, f m.2) :: members)) :=
        value m.1 l members (h m List.mem_cons_self)
      have hrest := ih (fun n hn => h n (List.mem_cons_of_mem m hn)) (l ++ [(m.1, f m.2)])
      rw [List.append_assoc, List.append_assoc] at hrest
      apply hm.trans hrest

/-! ### Members the other way round -/

mutual

/-- The value with the members of every object in the opposite order. -/
def mirror : Json → Json
  | arr items => arr (mirrorItems items)
  | obj members => obj (mirrorMembers members [])
  | x => x

/-- The items of an array with the members in the opposite order. -/
def mirrorItems : List Json → List Json
  | [] => []
  | x :: items => mirror x :: mirrorItems items

/-- Members are put before others one after the other. -/
def mirrorMembers : List (List Char × Json) → List (List Char × Json) → List (List Char × Json)
  | [], others => others
  | (k, x) :: members, others => mirrorMembers members ((k, mirror x) :: others)

end

theorem mirror_arr (items : List Json) :
  (arr items).mirror = arr (items.map mirror)
  := by
  suffices h : mirrorItems items = items.map mirror by rw [mirror, h]
  induction items with
  | nil => rfl
  | cons x items ih => rw [mirrorItems, ih, List.map_cons]

theorem mirrorMembers_eq (members others : List (List Char × Json)) :
  mirrorMembers members others = (members.map (fun m => (m.1, m.2.mirror))).reverse ++ others
  := by
  induction members generalizing others with
  | nil => rfl
  | cons m members ih => rw [mirrorMembers, ih, List.map_cons, List.reverse_cons, List.append_assoc,
      List.singleton_append]

theorem mirror_obj (members : List (List Char × Json)) :
  (obj members).mirror = obj (members.map (fun m => (m.1, m.2.mirror))).reverse
  := by
  rw [mirror, mirrorMembers_eq, List.append_nil]

/-- Only the order of members changes. -/
theorem same_mirror (j : Json) :
  Same j j.mirror
  := by
  induction j with
  | arr items ih =>
      rw [mirror_arr]
      apply Same.arr_map ih
  | obj members ih =>
      rw [mirror_obj]
      apply (Same.obj_map ih).trans
      apply Same.order
      apply (List.reverse_perm _).symm
  | _ => apply Same.refl

/-- What is inside the value with its members the other way round. -/
theorem inside_mirror {x j : Json} (h : Inside x j.mirror) :
  ∃ y, Inside y j ∧ x = y.mirror
  := by
  induction j generalizing x with
  | arr items ih =>
      rw [mirror_arr] at h
      cases h with
      | refl => exact ⟨_, .refl _, (mirror_arr items).symm⟩
      | item hy hx =>
          obtain ⟨y, hmem, rfl⟩ := List.mem_map.mp hy
          obtain ⟨z, hz, rfl⟩ := ih y hmem hx
          exact ⟨z, .item hmem hz, rfl⟩
  | obj members ih =>
      rw [mirror_obj] at h
      cases h with
      | refl => exact ⟨_, .refl _, (mirror_obj members).symm⟩
      | member hm hx =>
          obtain ⟨m, hmem, rfl⟩ := List.mem_map.mp (List.mem_reverse.mp hm)
          obtain ⟨z, hz, rfl⟩ := ih m hmem hx
          exact ⟨z, .member hmem hz, rfl⟩
  | _ => exact ⟨x, h, by cases h; rfl⟩

theorem Sound.mirror {j : Json} (h : j.Sound) :
  j.mirror.Sound
  := by
  cases j with
  | arr items => rwa [mirror_arr]
  | obj members =>
      obtain ⟨hkeys, hnul⟩ := h
      rw [mirror_obj]
      constructor
      · rw [List.map_reverse, List.map_map]
        apply (List.reverse_perm _).nodup_iff.mpr hkeys
      · intro m hm
        obtain ⟨n, hn, rfl⟩ := List.mem_map.mp (List.mem_reverse.mp hm)
        apply hnul n hn
  | _ => exact h

theorem Wf.mirror {j : Json} (h : j.Wf) :
  j.mirror.Wf
  := by
  intro x hx
  obtain ⟨y, hy, rfl⟩ := inside_mirror hx
  apply (h y hy).mirror

theorem NoReal.mirror {j : Json} (h : j.NoReal) :
  j.mirror.NoReal
  := by
  intro digits hx
  obtain ⟨y, hy, heq⟩ := inside_mirror hx
  cases y with
  | real digits' => exact h digits' hy
  | arr items => rw [mirror_arr] at heq; cases heq
  | obj members => rw [mirror_obj] at heq; cases heq
  | _ => cases heq

theorem isContainer_mirror (j : Json) :
  j.mirror.isContainer = j.isContainer
  := by
  cases j with
  | arr items => rfl
  | obj members => rfl
  | _ => rfl

/-! ### Setting a member -/

/-- The members with the one that has the given key replaced, or with a new one at the end. -/
def set (members : List (List Char × Json)) (key : List Char) (x : Json) :
    List (List Char × Json) :=
  if key ∈ members.map Prod.fst then
    members.map (fun m => if m.1 = key then (key, x) else m)
  else members ++ [(key, x)]

/-- Members with different keys, set one after the other, are all there. -/
theorem foldl_set {members new : List (List Char × Json)}
    (h : ((members ++ new).map Prod.fst).Nodup) :
  new.foldl (fun ms m => set ms m.1 m.2) members = members ++ new
  := by
  induction new generalizing members with
  | nil => rw [List.foldl_nil, List.append_nil]
  | cons m new ih =>
      have hnew : m.1 ∉ members.map Prod.fst := by
        rw [List.map_append, List.map_cons, List.nodup_append] at h
        intro hmem
        exact h.2.2 _ hmem _ List.mem_cons_self rfl
      rw [List.append_cons] at h
      rw [List.foldl_cons, set, if_neg hnew, ih h, ← List.append_cons]

/-- The keys after a member has been set. -/
theorem map_fst_set (members : List (List Char × Json)) (key : List Char) (x : Json) :
  (set members key x).map Prod.fst
    = if key ∈ members.map Prod.fst then members.map Prod.fst else members.map Prod.fst ++ [key]
  := by
  unfold set
  split
  case isTrue =>
      rw [List.map_map]
      apply List.map_congr_left
      intro m _
      simp only [Function.comp_apply]
      split
      case isTrue hm => exact hm.symm
      case isFalse => rfl
  case isFalse => rw [List.map_append, List.map_singleton]

/-- Setting a member keeps the keys different. -/
theorem nodup_set {members : List (List Char × Json)} (h : (members.map Prod.fst).Nodup)
    (key : List Char) (x : Json) :
  ((set members key x).map Prod.fst).Nodup
  := by
  rw [map_fst_set]
  split
  case isTrue => exact h
  case isFalse hkey =>
      rw [List.nodup_append]
      refine ⟨h, by simp, ?_⟩
      intro k hk l hl
      rw [List.mem_singleton.mp hl]
      rintro rfl
      exact hkey hk

/-- What is a member after one has been set. -/
theorem mem_set {members : List (List Char × Json)} {key : List Char} {x : Json}
    {m : List Char × Json} (h : m ∈ set members key x) :
  m ∈ members ∨ m = (key, x)
  := by
  unfold set at h
  split at h
  case isTrue =>
      obtain ⟨n, hn, rfl⟩ := List.mem_map.mp h
      split
      case isTrue => exact Or.inr rfl
      case isFalse => exact Or.inl hn
  case isFalse => simpa using h

/-- The members of an object that is set member by member. -/
theorem foldl_set_sound {new members : List (List Char × Json)}
    (hmembers : (obj members).Wf) (hnew : ∀ m ∈ new, Char.ofNat 0 ∉ m.1 ∧ m.2.Wf) :
  (obj (new.foldl (fun ms m => set ms m.1 m.2) members)).Wf
  := by
  induction new generalizing members with
  | nil => exact hmembers
  | cons m new ih =>
      apply ih
      · obtain ⟨hkeys, hnul⟩ : (obj members).Sound := hmembers _ (.refl _)
        obtain ⟨hkey, hvalue⟩ := hnew m List.mem_cons_self
        apply wf_obj
        · refine ⟨nodup_set hkeys m.1 m.2, ?_⟩
          intro n hn
          obtain hn | rfl := mem_set hn
          · apply hnul n hn
          · exact hkey
        · intro n hn
          obtain hn | rfl := mem_set hn
          · apply hmembers.member hn
          · exact hvalue
      · intro n hn
        apply hnew n (List.mem_cons_of_mem m hn)

/-- The first entry of a list is found, or an entry of the rest. -/
theorem lookup_cons_ite {α β : Type} [BEq α] [LawfulBEq α] [DecidableEq α] (k : α) (m : α × β)
    (l : List (α × β)) :
  (m :: l).lookup k = if k = m.1 then some m.2 else l.lookup k
  := by
  rw [List.lookup_cons]
  by_cases hk : k = m.1
  · simp [hk]
  · simp [hk, beq_false_of_ne hk]

/-- What is found under a key, from the end, after a member has been set. -/
theorem lookup_reverse_set (members : List (List Char × Json)) (key : List Char) (x : Json)
    (k : List Char) :
  (set members key x).reverse.lookup k = if k = key then some x else members.reverse.lookup k
  := by
  have hreplace : ∀ l : List (List Char × Json),
      (l.map (fun m => if m.1 = key then (key, x) else m)).lookup k
        = if k = key then (l.lookup k).map (fun _ => x) else l.lookup k := by
    intro l
    induction l with
    | nil => simp
    | cons m l ih =>
        rw [List.map_cons, lookup_cons_ite, lookup_cons_ite, ih]
        by_cases hm : m.1 = key
        · by_cases hk : k = key <;> simp [hm, hk]
        · by_cases hk : k = key
          · subst hk
            simp [hm, Ne.symm hm]
          · simp [hm, hk]
  unfold set
  split
  case isTrue hmem =>
      rw [← List.map_reverse, hreplace]
      split
      case isTrue hk =>
          subst hk
          have hsome : (members.reverse.lookup k).isSome := by
            rw [List.lookup_isSome_iff]
            obtain ⟨m, hm, rfl⟩ := List.mem_map.mp hmem
            exact ⟨m, List.mem_reverse.mpr hm, by simp⟩
          obtain ⟨y, hy⟩ := Option.isSome_iff_exists.mp hsome
          rw [hy, Option.map_some]
      case isFalse => rfl
  case isFalse =>
      rw [List.reverse_append, List.reverse_singleton, List.singleton_append, lookup_cons_ite]

/-- Of the members that have been set under one key the last is found. -/
theorem lookup_reverse_foldl_set (new members : List (List Char × Json)) (k : List Char) :
  (new.foldl (fun ms m => set ms m.1 m.2) members).reverse.lookup k
    = (new.reverse ++ members.reverse).lookup k
  := by
  induction new generalizing members with
  | nil => rfl
  | cons m new ih =>
      rw [List.foldl_cons, ih, List.lookup_append, lookup_reverse_set, List.reverse_cons,
        List.append_assoc, List.lookup_append, List.singleton_append, lookup_cons_ite]

end Json
