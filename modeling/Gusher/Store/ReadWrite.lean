import Gusher.Library.Parallel
import Gusher.Store.Refinement

/-!
# Procedures that read a value and write it back

A procedure gets the value in one place of the key-value store, and then sets it, deletes it, or
leaves it.  Other calls can come between the statements, as there is no transaction.  Two such
procedures in the same place have the effects of both, unless they both write and the second one
begins before the first one has ended; then at least one of the effects is there
(`Updates.parallel`).
-/

namespace Gusher

open Proc

/-- What is done to a value. -/
inductive Edit where
  | keep
  | set (text : Text)
  | del
  deriving DecidableEq

namespace Edit

/-- The value afterwards. -/
def apply (x : Option (Option Text)) : Edit → Option (Option Text)
  | keep => x
  | set text => some (some text)
  | del => none

/-- What is set is not empty and has no NUL. -/
def Storable : Edit → Prop
  | set text => text ≠ [] ∧ Char.ofNat 0 ∉ text
  | _ => True

/-- The call of the key-value store. -/
def perform (ns key : Text) : Edit → Kv Unit
  | keep => return ()
  | set text => kvSet (.str ns) (.str key) (.str text)
  | del => kvDel (.str ns) (.str key)

end Edit

/-- A namespace and a key that the store can have. -/
structure Place (ns key : Text) : Prop where
  ns_ne : ns ≠ []
  key_ne : key ≠ []
  ns_nul : Char.ofNat 0 ∉ ns
  key_nul : Char.ofNat 0 ∉ key

/-- The table is that of a map, but for the value in one place. -/
structure Has (m : KvMap) (ns key : Text) (t : Table) (x : Option (Option Text)) : Prop where
  unique : t.Unique
  map_eq : t.toMap = m.put ns key x

namespace KvMap

variable {m : KvMap} {ns key text : Text} {x y : Option (Option Text)}

theorem put_self :
  m.put ns key (m.value ns key) = m
  := by
  ext1
  · funext ns' key'
    simp only [put]
    split
    case isTrue h => rw [h.1, h.2]
    case isFalse => rfl
  · rfl

theorem put_put :
  (m.put ns key x).put ns key y = m.put ns key y
  := by
  ext1
  · funext ns' key'
    simp only [put]
    split
    case isTrue => rfl
    case isFalse => rfl
  · rfl

theorem lookup_put (h : Place ns key) :
  (m.put ns key x).lookup ns key = x
  := by
  rw [lookup, if_neg (not_or.mpr ⟨h.ns_ne, h.key_ne⟩)]
  exact if_pos ⟨rfl, rfl⟩

theorem set_eq_put (h : Place ns key) (htext : text ≠ []) :
  m.set ns key text = m.put ns key (some (some text))
  := by rw [set, if_neg h.ns_ne, if_neg h.key_ne, if_neg htext]

theorem del_eq_put (h : Place ns key) :
  m.del ns key = m.put ns key none
  := by rw [del, if_neg (not_or.mpr ⟨h.ns_ne, h.key_ne⟩)]

end KvMap

section

variable {m : KvMap} {ns key : Text} (place : Place ns key) {t t' u : Table}
  {x : Option (Option Text)} {e : Edit}

theorem has_self (hu : t.Unique) :
  Has t.toMap ns key t (t.toMap.value ns key)
  where
  unique := hu
  map_eq := KvMap.put_self.symm

include place

theorem Has.lookup_eq (h : Has m ns key t x) :
  t.toMap.lookup ns key = x
  := by rw [h.map_eq, KvMap.lookup_put place]

theorem Has.set (h : Has m ns key t x) (hu : u.Unique) {text : Text} (htext : text ≠ [])
    (hmap : u.toMap = t.toMap.set ns key text) :
  Has m ns key u (some (some text))
  where
  unique := hu
  map_eq := by rw [hmap, h.map_eq, KvMap.set_eq_put place htext, KvMap.put_put]

theorem Has.del (h : Has m ns key t x) (hu : u.Unique) (hmap : u.toMap = t.toMap.del ns key) :
  Has m ns key u none
  where
  unique := hu
  map_eq := by rw [hmap, h.map_eq, KvMap.del_eq_put place, KvMap.put_put]

/-- A change without other calls in between. -/
theorem runs_perform (hat : Has m ns key t x) (he : e.Storable) {out : Option Unit}
    (h : Runs serve (e.perform ns key) t out t') :
  out = some () ∧ Has m ns key t' (e.apply x)
  := by
  cases e with
  | keep =>
      obtain ⟨rfl, rfl⟩ := h
      exact ⟨rfl, hat⟩
  | set text =>
      obtain ⟨hu, hout, hmap⟩ := runs_kvSet hat.unique place.ns_nul place.key_nul he.2 h
      exact ⟨hout, hat.set place hu he.1 hmap⟩
  | del =>
      obtain ⟨hu, hout, hmap⟩ := runs_kvDel hat.unique place.ns_nul place.key_nul h
      exact ⟨hout, hat.del place hu hmap⟩

end

/-! ### Changes with other calls in between -/

/-- What is left of a change that is not finished; `missed` says that its `update` has found no
row. -/
inductive Pending (ns key : Text) : Edit → Bool → Kv Unit → Prop
  | whole {e : Edit} (he : e ≠ .keep) : Pending ns key e false (e.perform ns key)
  | insert (text : Text) :
      Pending ns key (.set text) true (kvInsert (.str ns) (.str key) (.str text))

/-- How far a change has come, when the values that may be written meet `W`. -/
inductive Side (ns key : Text) (W : Option (Option Text) → Prop) (e : Edit)
    (x : Option (Option Text)) : Kv Unit → Prop
  | pending {missed : Bool} {p : Kv Unit} (hp : Pending ns key e missed p)
      (hmissed : missed = true → x = none ∨ W x) : Side ns key W e x p
  | ended (hx : W x) : Side ns key W e x (.done ())

section

variable {m : KvMap} {ns key : Text} (place : Place ns key) {t t' u : Table}
  {x y : Option (Option Text)} {e e' : Edit} {W : Option (Option Text) → Prop} {p p' : Kv Unit}
  {missed : Bool}

include place

/-- A change that is not finished has a statement to execute. -/
theorem Pending.result_eq (hp : Pending ns key e missed p) (he : e.Storable) :
  p.result = none
  := by
  cases hp with
  | whole hkeep =>
      cases e with
      | keep => exact absurd rfl hkeep
      | set text =>
          rw [Edit.perform, kvSet_str place.ns_nul place.key_nul he.2]
          rfl
      | del =>
          rw [Edit.perform, kvDel_str place.ns_nul place.key_nul]
          rfl
  | insert text =>
      rw [kvInsert_str place.ns_nul place.key_nul he.2]
      rfl

/-- A statement finishes the change, or it finds no row, or it is an `insert` that fails. -/
theorem Pending.step (hp : Pending ns key e missed p) (he : e.Storable) (hat : Has m ns key t x)
    {q : Statement} {next : PGResult → Kv Unit} {r : PGResult} (hq : p = .query q next)
    (hserve : serve t q r = some u) :
  (next r = .done () ∧ Has m ns key u (e.apply x))
    ∨ (Pending ns key e true (next r) ∧ x = none ∧ u = t)
    ∨ (next r = .done () ∧ missed = true ∧ x ≠ none ∧ u = t)
  := by
  have hlookup := hat.lookup_eq place
  cases hp with
  | whole hkeep =>
      cases e with
      | keep => exact absurd rfl hkeep
      | set text =>
          rw [Edit.perform, kvSet_str place.ns_nul place.key_nul he.2] at hq
          obtain ⟨rfl, rfl⟩ := Proc.query.inj hq
          obtain ⟨hu, hupdate⟩ := serve_update hat.unique hserve
          rw [hlookup] at hupdate
          split at hupdate
          case isTrue =>
              exact Or.inl ⟨if_neg (by omega), hat.set place hu he.1 hupdate.2⟩
          case isFalse hnone =>
              right
              left
              beta_reduce
              rw [if_pos (by omega), ← kvInsert_str place.ns_nul place.key_nul he.2]
              exact ⟨.insert text, Option.not_isSome_iff_eq_none.mp hnone, hupdate.2⟩
      | del =>
          rw [Edit.perform, kvDel_str place.ns_nul place.key_nul] at hq
          obtain ⟨rfl, rfl⟩ := Proc.query.inj hq
          obtain ⟨hu, hmap⟩ := serve_delete hat.unique hserve
          exact Or.inl ⟨rfl, hat.del place hu hmap⟩
  | insert text =>
      rw [kvInsert_str place.ns_nul place.key_nul he.2] at hq
      obtain ⟨rfl, rfl⟩ := Proc.query.inj hq
      obtain ⟨hu, hinsert⟩ := serve_insert hat.unique hserve
      rw [hlookup] at hinsert
      split at hinsert
      case isTrue hsome =>
          right
          right
          refine ⟨rfl, rfl, ?_, hinsert⟩
          rintro rfl
          cases hsome
      case isFalse => exact Or.inl ⟨rfl, hat.set place hu he.1 hinsert⟩

omit place in
/-- The other side has written, or nothing has changed. -/
theorem Side.mono (h : Side ns key W e x p) (hy : y = x ∨ W y) :
  Side ns key W e y p
  := by
  rcases hy with rfl | hy
  · exact h
  · cases h with
    | pending hp hmissed => exact .pending hp (fun _ => Or.inr hy)
    | ended => exact .ended hy

/-- One statement of a change. -/
theorem Side.step (h : Side ns key W e x p) (hW : ∀ y, W (e.apply y)) (he : e.Storable)
    (hat : Has m ns key t x) {q : Statement} {next : PGResult → Kv Unit} {r : PGResult}
    (hq : p = .query q next) (hserve : serve t q r = some u) :
  ∃ y, Has m ns key u y ∧ (y = x ∨ W y) ∧ Side ns key W e y (next r)
  := by
  cases h with
  | pending hp hmissed =>
      obtain (⟨hnext, hu⟩ | ⟨hnext, rfl, rfl⟩ | ⟨hnext, hm, hx, rfl⟩) :=
        hp.step place he hat hq hserve
      · rw [hnext]
        exact ⟨_, hu, Or.inr (hW x), .ended (hW x)⟩
      · exact ⟨none, hat, Or.inl rfl, .pending hnext (fun _ => Or.inl rfl)⟩
      · rw [hnext]
        exact ⟨x, hat, Or.inl rfl, .ended ((hmissed hm).resolve_left hx)⟩
  | ended => cases hq

/-- Two changes: the value at the end is one of those that are written. -/
theorem Side.parallel {w : List Bool} (hW : ∀ y, W (e.apply y)) (hW' : ∀ y, W (e'.apply y))
    (he : e.Storable) (he' : e'.Storable) (hat : Has m ns key t x) (hp : Side ns key W e x p)
    (hp' : Side ns key W e' x p') {out out' : Option Unit}
    (h : Parallel serve w p p' t out out' t') :
  out = some () ∧ out' = some () ∧ ∃ y, Has m ns key t' y ∧ W y
  := by
  induction w generalizing p p' t x with
  | nil =>
      obtain ⟨hout, hout', rfl⟩ := h
      cases hp with
      | pending hpending =>
          rw [hpending.result_eq place he] at hout
          cases hout
      | ended hx =>
          cases hp' with
          | pending hpending =>
              rw [hpending.result_eq place he'] at hout'
              cases hout'
          | ended => exact ⟨(Option.some.inj hout).symm, (Option.some.inj hout').symm, x, hat, hx⟩
  | cons side w ih =>
      cases side with
      | true =>
          obtain ⟨q, next, r, u, hq, hserve, hrest⟩ := h
          obtain ⟨y, hy, hxy, hnext⟩ := hp.step place hW he hat hq hserve
          exact ih hy hnext (hp'.mono hxy) hrest
      | false =>
          obtain ⟨q, next, r, u, hq, hserve, hrest⟩ := h
          obtain ⟨y, hy, hxy, hnext⟩ := hp'.step place hW' he' hat hq hserve
          exact ih hy (hp.mono hxy) hnext hrest

/-- What is left of a change, without other calls in between. -/
theorem Pending.runs (hp : Pending ns key e missed p) (he : e.Storable) (hat : Has m ns key t x)
    (hmissed : missed = true → x = none) {out : Option Unit} (h : Runs serve p t out t') :
  out = some () ∧ Has m ns key t' (e.apply x)
  := by
  cases hp with
  | whole hkeep => exact runs_perform place hat he h
  | insert text =>
      rw [kvInsert_str place.ns_nul place.key_nul he.2] at h
      obtain ⟨r, u, hserve, rfl, rfl⟩ := h
      obtain ⟨hu, hinsert⟩ := serve_insert hat.unique hserve
      rw [hat.lookup_eq place, hmissed rfl, if_neg (by simp)] at hinsert
      exact ⟨rfl, hat.set place hu he.1 hinsert⟩

end

/-! ### Reading and writing -/

/-- The procedure reads the value in a place, which stands for a state `a`, and makes it stand for
`op a`; it writes only when `writes a`. -/
def Updates {A : Type} (ns key : Text) (V : Option (Option Text) → A → Prop) (op : A → A)
    (writes : A → Prop) (p : Kv Unit) : Prop :=
  ∃ next, p = .query (.selectValue (constant ns) (constant key)) next
    ∧ ∀ x r, (∃ a, V x a) → pgCell (pgOneRow r) "value" = KvMap.read x →
      ∃ e : Edit, next r = e.perform ns key ∧ e.Storable
        ∧ ∀ a, V x a → V (e.apply x) (op a) ∧ (e ≠ .keep → writes a)

/-- What two procedures may have done to the state: both effects, one after the other, or, when
both write and their statements are mixed, one of them. -/
def Combined {A : Type} (op op' : A → A) (writes writes' : A → Prop) (mixed : Prop) (a b : A) :
    Prop :=
  b = op' (op a) ∨ b = op (op' a) ∨ (mixed ∧ writes a ∧ writes' a ∧ (b = op a ∨ b = op' a))

namespace Updates

variable {A : Type} {m : KvMap} {ns key : Text} (place : Place ns key) {t t' u : Table}
  {x : Option (Option Text)} {V : Option (Option Text) → A → Prop} {op op' : A → A}
  {writes writes' : A → Prop} {p p' : Kv Unit} {a : A} {w : List Bool} {out out' : Option Unit}

include place

/-- The first statement. -/
theorem read (hp : Updates ns key V op writes p) (hat : Has m ns key t x) (hV : V x a)
    {q : Statement} {next : PGResult → Kv Unit} {r : PGResult} (hq : p = .query q next)
    (hserve : serve t q r = some u) :
  u = t ∧ ∃ e : Edit, next r = e.perform ns key ∧ e.Storable
    ∧ ∀ a, V x a → V (e.apply x) (op a) ∧ (e ≠ .keep → writes a)
  := by
  obtain ⟨next', rfl, hnext⟩ := hp
  obtain ⟨rfl, rfl⟩ := Proc.query.inj hq
  obtain ⟨rfl, hcell⟩ := serve_selectValue hat.unique hserve
  rw [hat.lookup_eq place] at hcell
  exact ⟨rfl, hnext x r ⟨a, hV⟩ hcell⟩

/-- The procedure on its own. -/
theorem runs (hp : Updates ns key V op writes p) (hat : Has m ns key t x) (hV : V x a)
    (h : Runs serve p t out t') :
  out = some () ∧ ∃ y, Has m ns key t' y ∧ V y (op a)
  := by
  obtain ⟨next, hq, -⟩ := id hp
  rw [hq] at h
  obtain ⟨r, u, hserve, hrest⟩ := h
  obtain ⟨rfl, e, hnext, he, hop⟩ := hp.read place hat hV hq hserve
  rw [hnext] at hrest
  obtain ⟨hout, hat'⟩ := runs_perform place hat he hrest
  exact ⟨hout, _, hat', (hop a hV).1⟩

/-- A procedure that has only read the value, and one that begins. -/
theorem parallel_pending {e : Edit} {missed : Bool} (hp' : Updates ns key V op' writes' p')
    (hat : Has m ns key t x) (hV : V x a) (hp : Pending ns key e missed p) (hkeep : e ≠ .keep)
    (he : e.Storable) (hop : ∀ a, V x a → V (e.apply x) (op a) ∧ (e ≠ .keep → writes a))
    (hmissed : missed = true → x = none) (h : Parallel serve w p p' t out out' t') :
  out = some () ∧ out' = some () ∧ ∃ y b, Has m ns key t' y ∧ V y b
    ∧ Combined op op' writes writes' (¬ w.Pairwise (· ≥ ·)) a b
  := by
  induction w generalizing p t missed with
  | nil =>
      obtain ⟨next, rfl, -⟩ := hp'
      cases h.2.1
  | cons side w ih =>
      cases side with
      | true =>
          obtain ⟨q, next, r, u, hq, hserve, hrest⟩ := h
          obtain (⟨hnext, hu⟩ | ⟨hnext, hx, rfl⟩ | ⟨-, hm, hx, -⟩) :=
            hp.step place he hat hq hserve
          · rw [hnext] at hrest
            obtain ⟨hout, hruns⟩ := hrest.runs_right rfl
            obtain ⟨hout', y, hy, hVy⟩ := hp'.runs place hu (hop a hV).1 hruns
            exact ⟨hout, hout', y, _, hy, hVy, Or.inl rfl⟩
          · obtain ⟨hout, hout', y, b, hy, hVy, houtcome⟩ := ih hat hnext (fun _ => hx) hrest
            refine ⟨hout, hout', y, b, hy, hVy, ?_⟩
            rcases houtcome with hb | hb | ⟨hmixed, hrest⟩
            · exact Or.inl hb
            · exact Or.inr (Or.inl hb)
            · exact Or.inr (Or.inr ⟨fun hw => hmixed hw.of_cons, hrest⟩)
          · exact absurd (hmissed hm) hx
      | false =>
          obtain ⟨q, next, r, u, hq, hserve, hrest⟩ := h
          obtain ⟨rfl, e', hnext, he', hop'⟩ := hp'.read place hat hV hq hserve
          rw [hnext] at hrest
          by_cases hkeep' : e' = .keep
          · subst hkeep'
            obtain ⟨hout', hruns⟩ := hrest.runs_left rfl
            obtain ⟨hout, hy⟩ := hp.runs place he hat hmissed hruns
            exact ⟨hout, hout', _, _, hy, (hop _ (hop' a hV).1).1, Or.inr (Or.inl rfl)⟩
          · have happly : ∀ {e : Edit}, e ≠ .keep → ∀ y, e.apply y = e.apply x := by
              intro e hkeep y
              cases e with
              | keep => exact absurd rfl hkeep
              | set text => rfl
              | del => rfl
            have hmixed : ¬ (false :: w).Pairwise (· ≥ ·) := by
              intro hw
              have hmem : true ∈ w := by
                cases hproc : p with
                | query q next =>
                    rw [hproc] at hrest
                    exact hrest.mem_left
                | done c =>
                    rw [hproc] at hp
                    cases hp.result_eq place he
                | raise =>
                    rw [hproc] at hp
                    cases hp.result_eq place he
              exact absurd (List.rel_of_pairwise_cons hw hmem) (by decide)
            obtain ⟨hout, hout', y, hy, hW⟩ :=
              Side.parallel place (W := fun y => y = e.apply x ∨ y = e'.apply x)
                (fun y => Or.inl (happly hkeep y)) (fun y => Or.inr (happly hkeep' y)) he he' hat
                (.pending hp (fun hm => Or.inl (hmissed hm))) (.pending (.whole hkeep') (by simp))
                hrest
            obtain ⟨hVe, hwrites⟩ := hop a hV
            obtain ⟨hVe', hwrites'⟩ := hop' a hV
            rcases hW with rfl | rfl
            · exact ⟨hout, hout', _, _, hy, hVe,
                Or.inr (Or.inr ⟨hmixed, hwrites hkeep, hwrites' hkeep', Or.inl rfl⟩)⟩
            · exact ⟨hout, hout', _, _, hy, hVe',
                Or.inr (Or.inr ⟨hmixed, hwrites hkeep, hwrites' hkeep', Or.inr rfl⟩)⟩

/-- The first procedure begins. -/
theorem parallel_left (hp : Updates ns key V op writes p) (hp' : Updates ns key V op' writes' p')
    (hat : Has m ns key t x) (hV : V x a) (h : Parallel serve (true :: w) p p' t out out' t') :
  out = some () ∧ out' = some () ∧ ∃ y b, Has m ns key t' y ∧ V y b
    ∧ Combined op op' writes writes' (¬ Ordered (true :: w)) a b
  := by
  obtain ⟨q, next, r, u, hq, hserve, hrest⟩ := h
  obtain ⟨rfl, e, hnext, he, hop⟩ := hp.read place hat hV hq hserve
  rw [hnext] at hrest
  by_cases hkeep : e = .keep
  · subst hkeep
    obtain ⟨hout, hruns⟩ := hrest.runs_right rfl
    obtain ⟨hout', y, hy, hVy⟩ := hp'.runs place hat (hop a hV).1 hruns
    exact ⟨hout, hout', y, _, hy, hVy, Or.inl rfl⟩
  · have hmem : false ∈ w := by
      obtain ⟨next', rfl, -⟩ := hp'
      exact hrest.mem_right
    obtain ⟨hout, hout', y, b, hy, hVy, houtcome⟩ :=
      parallel_pending place hp' hat hV (.whole hkeep) hkeep he hop (by simp) hrest
    refine ⟨hout, hout', y, b, hy, hVy, ?_⟩
    rcases houtcome with hb | hb | ⟨hmixed, hrest⟩
    · exact Or.inl hb
    · exact Or.inr (Or.inl hb)
    · exact Or.inr (Or.inr ⟨not_ordered hmem hmixed, hrest⟩)

/-- **Two procedures in one place**: they come to their ends, and have the effects of both unless
both write and their statements are mixed; nothing else changes. -/
theorem parallel (hp : Updates ns key V op writes p) (hp' : Updates ns key V op' writes' p')
    (hat : Has m ns key t x) (hV : V x a) (h : Parallel serve w p p' t out out' t') :
  out = some () ∧ out' = some () ∧ ∃ y b, Has m ns key t' y ∧ V y b
    ∧ Combined op op' writes writes' (¬ Ordered w) a b
  := by
  cases w with
  | nil =>
      obtain ⟨next, rfl, -⟩ := hp
      cases h.1
  | cons side w =>
      cases side with
      | true => exact parallel_left place hp hp' hat hV h
      | false =>
          have hswap := h.swap
          obtain ⟨hout', hout, y, b, hy, hVy, houtcome⟩ :=
            parallel_left place hp' hp hat hV hswap
          refine ⟨hout, hout', y, b, hy, hVy, ?_⟩
          have hordered : Ordered (true :: w.map not) ↔ Ordered (false :: w) :=
            ordered_map_not (w := false :: w)
          rw [hordered] at houtcome
          rcases houtcome with hb | hb | ⟨hmixed, hwrites', hwrites, hb | hb⟩
          · exact Or.inr (Or.inl hb)
          · exact Or.inl hb
          · exact Or.inr (Or.inr ⟨hmixed, hwrites, hwrites', Or.inr hb⟩)
          · exact Or.inr (Or.inr ⟨hmixed, hwrites, hwrites', Or.inl hb⟩)

/-- An effect is lost when there is a value, and both procedures read it before they write. -/
theorem exists_lost (hp : Updates ns key V op writes p) (hp' : Updates ns key V op' writes' p')
    {x : Option Text} (hat : Has m ns key t (some x)) (hV : V (some x) a)
    (hset : ∀ e : Edit, V (e.apply (some x)) (op a) → ∃ text, e = .set text)
    (hset' : ∀ e : Edit, V (e.apply (some x)) (op' a) → ∃ text, e = .set text) :
  ∃ t' y, Parallel serve [true, false, true, false] p p' t (some ()) (some ()) t'
    ∧ Has m ns key t' y ∧ V y (op' a)
  := by
  obtain ⟨next, hq, -⟩ := id hp
  obtain ⟨next', hq', -⟩ := id hp'
  obtain ⟨r₁, u₁, hread⟩ := exists_serve t (.selectValue (constant ns) (constant key))
  obtain ⟨rfl, e, hnext, he, hop⟩ := hp.read place hat hV hq hread
  obtain ⟨r₂, u₂, hread'⟩ := exists_serve u₁ (.selectValue (constant ns) (constant key))
  obtain ⟨rfl, e', hnext', he', hop'⟩ := hp'.read place hat hV hq' hread'
  obtain ⟨text, rfl⟩ := hset e (hop a hV).1
  obtain ⟨text', rfl⟩ := hset' e' (hop' a hV).1
  have hupdate : ∀ {text : Text} {u : Table} {y : Option Text}, (Edit.set text).Storable →
      Has m ns key u (some y) → ∃ q next r v, (Edit.set text).perform ns key = .query q next
        ∧ serve u q r = some v ∧ next r = .done () ∧ Has m ns key v (some (some text)) := by
    intro text u y he hu
    obtain ⟨r, v, hserve⟩ :=
      exists_serve u (.update (constant text) (constant ns) (constant key))
    have hquery := kvSet_str place.ns_nul place.key_nul he.2
    refine ⟨_, _, r, v, hquery, hserve, ?_⟩
    obtain (hdone | ⟨-, hnone, -⟩ | ⟨-, hmissed, -⟩) :=
      (Pending.whole (e := .set text) (by nofun)).step place he hu hquery hserve
    · exact hdone
    · cases hnone
    · cases hmissed
  obtain ⟨q₃, next₃, r₃, u₃, hq₃, hserve₃, hdone₃, hat₃⟩ := hupdate he hat
  obtain ⟨q₄, next₄, r₄, u₄, hq₄, hserve₄, hdone₄, hat₄⟩ := hupdate he' hat₃
  refine ⟨u₄, _, ?_, hat₄, (hop' a hV).1⟩
  refine ⟨_, next, r₁, _, hq, hread, _, next', r₂, _, hq', hread', q₃, next₃, r₃, u₃,
    hnext.trans hq₃, hserve₃, q₄, next₄, r₄, u₄, hnext'.trans hq₄, hserve₄, ?_⟩
  rw [hdone₃, hdone₄]
  exact ⟨rfl, rfl, rfl⟩

end Updates

end Gusher
