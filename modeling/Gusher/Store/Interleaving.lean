import Gusher.Library.Linearizable
import Gusher.Store.Refinement

/-!
# The key-value store is linearizable

Any number of clients call the functions of the key-value store at the same time, each statement
being executed at once.  Most calls take their place in the order when the server executes their
one statement.  A `kv-set` takes its place at the `update`, when that finds a row, or else at the
`insert`.  When the `insert` fails, another `kv-set` of the same key has come in between, and the
call takes the place just before it, where its value is never seen (`KvMap.set_set`).
-/

namespace Gusher

open Concurrent

/-! ### The abstract store -/

namespace KvMap

/-- A value that is replaced at once is never seen. -/
theorem set_set {m : KvMap} {ns key value value' : Text} (hns : ns ≠ []) (hkey : key ≠ []) :
  (m.set ns key value).set ns key value' = m.set ns key value'
  := by
  simp only [set, if_neg hns, if_neg hkey]
  ext1
  · funext ns' key'
    simp only [put]
    split
    case isTrue => rfl
    case isFalse => rfl
  · rfl

/-- A value that is found after a call was there before, or was stored by the call. -/
theorem lookup_next {m : KvMap} {call : KvCall} {ns key : Text}
    (h : ((m.next call).lookup ns key).isSome) :
  (m.lookup ns key).isSome ∨ ∃ value, call = .set ns key value ∧ ¬ call.HasNul
  := by
  rw [next] at h
  split at h
  case isTrue => exact Or.inl h
  case isFalse hnul =>
      obtain ⟨hns, hkey⟩ := ne_nil_of_lookup h
      have hplace : ∀ m : KvMap, m.lookup ns key = m.value ns key := by
        intro m
        rw [lookup, if_neg (not_or.mpr ⟨hns, hkey⟩)]
      rw [hplace] at h ⊢
      cases call with
      | get _ _ => exact Or.inl h
      | exist _ _ => exact Or.inl h
      | count _ => exact Or.inl h
      | keys _ => exact Or.inl h
      | set ns' key' value =>
          by_cases hsame : ns = ns' ∧ key = key'
          · obtain ⟨rfl, rfl⟩ := hsame
            exact Or.inr ⟨value, rfl, hnul⟩
          · left
            rw [after, set] at h
            split at h
            case isTrue => exact h
            case isFalse =>
                split at h
                case isTrue => exact h
                case isFalse => simpa [put, hsame] using h
      | del ns' key' =>
          left
          rw [after, del] at h
          split at h
          case isTrue => exact h
          case isFalse =>
              simp only [put] at h
              split at h
              case isTrue => cases h
              case isFalse => exact h

end KvMap

/-! ### The statements of a call -/

/-- The first statement of a call is the last one, or it is an `update` that finds no row. -/
theorem serve_kvCall {call : KvCall} {q : Statement} {next : PGResult → Kv KvAnswer} {t t' : Table}
    {r : PGResult} (hu : t.Unique) (hcall : kvCall call = .query q next)
    (hserve : serve t q r = some t') :
  (∃ ans, next r = .done ans) ∨ ∃ ns key value, call = .set ns key value ∧ ¬ call.HasNul
    ∧ next r = .query (.insert (constant ns) (constant key) (constant value)) (fun _ => .done .done)
    ∧ ¬ (t.toMap.lookup ns key).isSome ∧ t' = t
  := by
  have hcases := kvCall_cases call
  rw [hcall] at hcases
  cases hcases with
  | one hnul q answer => exact Or.inl ⟨_, rfl⟩
  | set hnul =>
      obtain ⟨-, hupdate⟩ := serve_update hu hserve
      split at hupdate
      case isTrue => exact Or.inl ⟨.done, if_neg (by omega)⟩
      case isFalse hnone =>
          exact Or.inr ⟨_, _, _, rfl, hnul, if_pos (by omega), hnone, hupdate.2⟩

/-- A call that has nothing to execute raises an exception. -/
theorem result_kvCall {call : KvCall} {out : Option KvAnswer} (h : (kvCall call).result = some out) :
  call.HasNul ∧ out = none
  := by
  have hcases := kvCall_cases call
  generalize kvCall call = p at h hcases
  cases hcases with
  | raise hnul => exact ⟨hnul, (Option.some.inj h).symm⟩
  | one hnul q answer => cases h
  | set hnul => cases h

/-! ### Calls in progress -/

/-- A call in progress. -/
abbrev KvActive := Active Statement PGResult KvCall KvAnswer

/-- The table, and the calls of the clients. -/
abbrev KvState (ι : Type) := State Table Statement PGResult KvCall KvAnswer ι

/-- A place in the order in front of a `kv-set` of the same key, which was made before anything
from there on returned. -/
def Absorbed (h : List (Event KvCall KvAnswer)) (order : List (Entry KvCall KvAnswer)) (id : ℕ)
    (ns key : Text) : Prop :=
  ∃ before d behind, order = before ++ d :: behind
    ∧ (∃ value, d.call = .set ns key value ∧ ¬ d.call.HasNul)
    ∧ ∀ b ∈ d :: behind, ¬ Precedes h b.id id

/-- How far a call in progress has come. -/
inductive Phase (h : List (Event KvCall KvAnswer)) (order : List (Entry KvCall KvAnswer))
    (m : KvMap) (a : KvActive) : Prop where
  /-- it has not executed a statement -/
  | fresh (hproc : a.proc = kvCall a.call) (hnew : a.id ∉ order.map Entry.id)
  /-- it is a `kv-set` whose `update` has found no row -/
  | missed (ns key value : Text) (hcall : a.call = .set ns key value) (hnul : ¬ a.call.HasNul)
      (hproc : a.proc = .query (.insert (constant ns) (constant key) (constant value))
        (fun _ => .done .done))
      (hnew : a.id ∉ order.map Entry.id)
      (habsorbed : (m.lookup ns key).isSome → Absorbed h order a.id ns key)
  /-- it has its place in the order -/
  | placed (out : Option KvAnswer) (hresult : a.proc.result = some out)
      (hmem : ⟨a.id, a.call, out⟩ ∈ order)

/-- A list with one more entry, and a place in it. -/
theorem insert_place {α : Type} {before behind before' behind' : List α} {d : α} (e : α)
    (h : before ++ behind = before' ++ d :: behind') :
  ∃ front back, before ++ e :: behind = front ++ d :: back ∧ ∀ x ∈ back, x ∈ behind' ∨ x = e
  := by
  rcases List.append_eq_append_iff.mp h with ⟨as, hbefore, hbehind⟩ | ⟨bs, hbefore, hbehind⟩
  · exact ⟨before ++ e :: as, behind', by rw [hbehind]; simp, fun x hx => Or.inl hx⟩
  · cases bs with
    | nil =>
        rw [List.nil_append] at hbehind
        exact ⟨before ++ [e], behind', by rw [← hbehind]; simp, fun x hx => Or.inl hx⟩
    | cons b bs =>
        obtain ⟨rfl, hrest⟩ := List.cons.inj hbehind
        refine ⟨before', bs ++ e :: behind, by rw [hbefore]; simp, ?_⟩
        intro x hx
        rw [show behind' = bs ++ behind from hrest]
        rcases List.mem_append.mp hx with hx | hx
        · exact Or.inl (List.mem_append_left _ hx)
        · rcases List.mem_cons.mp hx with rfl | hx
          · exact Or.inr rfl
          · exact Or.inl (List.mem_append_right _ hx)

/-- A place in front of a `kv-set` stays one when another call takes its place. -/
theorem Absorbed.insert {h : List (Event KvCall KvAnswer)}
    {before behind : List (Entry KvCall KvAnswer)} {id : ℕ} {ns key : Text}
    (habsorbed : Absorbed h (before ++ behind) id ns key) {e : Entry KvCall KvAnswer}
    (hpending : ∀ out, .ret e.id out ∉ h) :
  Absorbed h (before ++ e :: behind) id ns key
  := by
  obtain ⟨before', d, behind', heq, hset, htime⟩ := habsorbed
  obtain ⟨front, back, hplace, hback⟩ := insert_place e heq
  refine ⟨front, d, back, hplace, hset, ?_⟩
  intro b hb
  rcases List.mem_cons.mp hb with rfl | hb
  · exact htime b List.mem_cons_self
  · rcases hback b hb with hb | rfl
    · exact htime b (List.mem_cons_of_mem _ hb)
    · exact not_precedes_of_pending hpending

/-- A call in progress when another one takes its place in the order. -/
theorem Phase.insert {h : List (Event KvCall KvAnswer)}
    {before behind : List (Entry KvCall KvAnswer)} {m m' : KvMap} {b : KvActive}
    (hphase : Phase h (before ++ behind) m b) {e : Entry KvCall KvAnswer}
    (hpending : ∀ out, .ret e.id out ∉ h) (hne : b.id ≠ e.id)
    (hlookup : ∀ ns key, (m'.lookup ns key).isSome → (m.lookup ns key).isSome
      ∨ behind = [] ∧ ∃ value, e.call = .set ns key value ∧ ¬ e.call.HasNul) :
  Phase h (before ++ e :: behind) m' b
  := by
  have hids : b.id ∉ (before ++ behind).map Entry.id →
      b.id ∉ (before ++ e :: behind).map Entry.id := by
    intro hnew hmem
    rw [(List.perm_middle.map Entry.id).mem_iff, List.map_cons, List.mem_cons] at hmem
    rcases hmem with hmem | hmem
    · exact hne hmem
    · exact hnew hmem
  cases hphase with
  | fresh hproc hnew => exact .fresh hproc (hids hnew)
  | missed ns key value hcall hnul hproc hnew habsorbed =>
      apply Phase.missed ns key value hcall hnul hproc (hids hnew)
      intro hsome
      rcases hlookup ns key hsome with hsome | ⟨rfl, value', hset, hnul'⟩
      · exact (habsorbed hsome).insert hpending
      · refine ⟨before, e, [], rfl, ⟨value', hset, hnul'⟩, ?_⟩
        rw [List.forall_mem_singleton]
        exact not_precedes_of_pending hpending
  | placed out hresult hmem =>
      exact .placed out hresult (List.perm_middle.mem_iff.mpr (List.mem_cons_of_mem _ hmem))

/-- A call in progress when there is another event. -/
theorem Phase.event {h : List (Event KvCall KvAnswer)} {order : List (Entry KvCall KvAnswer)}
    {m : KvMap} {b : KvActive} (hphase : Phase h order m b) (e : Event KvCall KvAnswer)
    (hid : b.id < h.length) :
  Phase (h ++ [e]) order m b
  := by
  cases hphase with
  | fresh hproc hnew => exact .fresh hproc hnew
  | missed ns key value hcall hnul hproc hnew habsorbed =>
      apply Phase.missed ns key value hcall hnul hproc hnew
      intro hsome
      obtain ⟨before, d, behind, heq, hset, htime⟩ := habsorbed hsome
      refine ⟨before, d, behind, heq, hset, ?_⟩
      intro c hc
      rw [precedes_append hid]
      exact htime c hc
  | placed out hresult hmem => exact .placed out hresult hmem

/-! ### The invariant -/

section

variable {ι : Type} [DecidableEq ι]

/-- The calls have an order, and each call in progress is on its way to its place. -/
structure KvInvariant (m₀ : KvMap) (s : KvState ι) (order : List (Entry KvCall KvAnswer)) :
    Prop where
  wellFormed : s.WellFormed
  unique : s.server.Unique
  linearizes : Linearizes kvSpec m₀ s.history order s.server.toMap
  phases : ∀ i a, s.clients i = some a → Phase s.history order s.server.toMap a
  known : ∀ e ∈ order, (∃ out, .ret e.id out ∈ s.history) ∨ ∃ i a, s.clients i = some a ∧ a.id = e.id

omit [DecidableEq ι] in
theorem kvInvariant_start {t : Table} (hu : t.Unique) :
  KvInvariant t.toMap (start t : KvState ι) []
  where
  wellFormed := wellFormed_start t
  unique := hu
  linearizes := .nil
  phases _ _ h := by cases h
  known _ he := by cases he

/-- A call in progress takes its place in the order. -/
theorem KvInvariant.insert {m₀ : KvMap} {s : KvState ι} {before behind : List (Entry KvCall KvAnswer)}
    (hinv : KvInvariant m₀ s (before ++ behind)) {i : ι} {a : KvActive}
    (hi : s.clients i = some a) (hnew : a.id ∉ (before ++ behind).map Entry.id)
    {p : Kv KvAnswer} {out : Option KvAnswer} (hp : p.result = some out) {t : Table}
    (hu : t.Unique) (htime : ∀ b ∈ behind, ¬ Precedes s.history b.id a.id)
    (hruns : kvSpec.Runs m₀ ((before ++ ⟨a.id, a.call, out⟩ :: behind).map Entry.answered) t.toMap)
    (hlookup : ∀ ns key, (t.toMap.lookup ns key).isSome → (s.server.toMap.lookup ns key).isSome
      ∨ behind = [] ∧ ∃ value, a.call = .set ns key value ∧ ¬ a.call.HasNul)
    (hwf : State.WellFormed { s with
      server := t, clients := Function.update s.clients i (some { a with proc := p }) }) :
  KvInvariant m₀
    { s with server := t, clients := Function.update s.clients i (some { a with proc := p }) }
    (before ++ ⟨a.id, a.call, out⟩ :: behind)
  where
  wellFormed := hwf
  unique := hu
  linearizes :=
    hinv.linearizes.insert (hinv.wellFormed.called i a hi) (hinv.wellFormed.pending i a hi) hnew
      htime hruns
  phases := by
    intro j b hb
    rcases update_eq_some hb with ⟨-, hb⟩ | ⟨hj, hb⟩
    · obtain rfl := Option.some.inj hb
      exact .placed out hp (List.mem_append_right _ List.mem_cons_self)
    · apply (hinv.phases j b hb).insert (hinv.wellFormed.pending i a hi) _ hlookup
      intro hid
      exact hj (hinv.wellFormed.distinct j i b a hb hi hid)
  known := by
    intro e he
    rcases List.mem_cons.mp (List.perm_middle.mem_iff.mp he) with rfl | he
    · exact Or.inr ⟨i, _, Function.update_self .., rfl⟩
    · rcases hinv.known e he with hret | ⟨j, b, hb, hid⟩
      · exact Or.inl hret
      · right
        by_cases hj : j = i
        · subst hj
          obtain rfl := Option.some.inj (hi.symm.trans hb)
          exact ⟨j, _, Function.update_self .., hid⟩
        · exact ⟨j, b, (Function.update_of_ne hj ..).trans hb, hid⟩

/-- A call in progress takes the last place in the order. -/
theorem KvInvariant.append {m₀ : KvMap} {s : KvState ι} {order : List (Entry KvCall KvAnswer)}
    (hinv : KvInvariant m₀ s order) {i : ι} {a : KvActive}
    (hi : s.clients i = some a) (hnew : a.id ∉ order.map Entry.id)
    {p : Kv KvAnswer} {out : Option KvAnswer} (hp : p.result = some out) {t : Table}
    (hu : t.Unique) (hallows : s.server.toMap.Allows a.call out)
    (hnext : t.toMap = s.server.toMap.next a.call)
    (hwf : State.WellFormed { s with
      server := t, clients := Function.update s.clients i (some { a with proc := p }) }) :
  KvInvariant m₀
    { s with server := t, clients := Function.update s.clients i (some { a with proc := p }) }
    (order ++ [⟨a.id, a.call, out⟩])
  := by
  have hruns := hinv.linearizes.runs
  rw [← List.append_nil order] at hinv hnew
  apply hinv.insert hi hnew hp hu (by simp) _ _ hwf
  · rw [List.map_append]
    exact Spec.runs_append.mpr ⟨_, hruns, hallows, hnext⟩
  · intro ns key hsome
    rw [hnext] at hsome
    exact (KvMap.lookup_next hsome).imp_right (fun h => ⟨rfl, h⟩)

/-- A call is made. -/
theorem KvInvariant.call {m₀ : KvMap} {s : KvState ι} {order : List (Entry KvCall KvAnswer)}
    (hinv : KvInvariant m₀ s order) {i : ι} (hi : s.clients i = none) (c : KvCall)
    (hwf : State.WellFormed { s with
      clients := Function.update s.clients i (some ⟨s.history.length, c, kvCall c⟩)
      history := s.history ++ [.call c] }) :
  KvInvariant m₀
    { s with
      clients := Function.update s.clients i (some ⟨s.history.length, c, kvCall c⟩)
      history := s.history ++ [.call c] } order
  where
  wellFormed := hwf
  unique := hinv.unique
  linearizes := hinv.linearizes.call c
  phases := by
    intro j b hb
    rcases update_eq_some hb with ⟨-, hb⟩ | ⟨-, hb⟩
    · obtain rfl := Option.some.inj hb
      apply Phase.fresh rfl
      intro hmem
      obtain ⟨e, he, hid⟩ := List.mem_map.mp hmem
      have hlt := lt_length_of_called (hinv.linearizes.called e he)
      rw [hid] at hlt
      exact Nat.lt_irrefl _ hlt
    · exact (hinv.phases j b hb).event _ (lt_length_of_called (hinv.wellFormed.called j b hb))
  known := by
    intro e he
    rcases hinv.known e he with ⟨out, hret⟩ | ⟨j, b, hb, hid⟩
    · exact Or.inl ⟨out, List.mem_append_left _ hret⟩
    · right
      have hj : j ≠ i := by
        rintro rfl
        rw [hi] at hb
        cases hb
      exact ⟨j, b, (Function.update_of_ne hj ..).trans hb, hid⟩

/-- A call that has its place in the order returns. -/
theorem KvInvariant.ret {m₀ : KvMap} {s : KvState ι} {order : List (Entry KvCall KvAnswer)}
    (hinv : KvInvariant m₀ s order) {i : ι} {a : KvActive} (hi : s.clients i = some a)
    {out : Option KvAnswer} (hmem : ⟨a.id, a.call, out⟩ ∈ order)
    (hwf : State.WellFormed { s with
      clients := Function.update s.clients i none
      history := s.history ++ [.ret a.id out] }) :
  KvInvariant m₀
    { s with
      clients := Function.update s.clients i none
      history := s.history ++ [.ret a.id out] } order
  where
  wellFormed := hwf
  unique := hinv.unique
  linearizes := hinv.linearizes.ret hmem
  phases := by
    intro j b hb
    rcases update_eq_some hb with ⟨-, hb⟩ | ⟨-, hb⟩
    · cases hb
    · exact (hinv.phases j b hb).event _ (lt_length_of_called (hinv.wellFormed.called j b hb))
  known := by
    intro e he
    rcases hinv.known e he with ⟨out', hret⟩ | ⟨j, b, hb, hid⟩
    · exact Or.inl ⟨out', List.mem_append_left _ hret⟩
    · by_cases hj : j = i
      · subst hj
        obtain rfl := Option.some.inj (hi.symm.trans hb)
        left
        use out
        rw [← hid]
        exact List.mem_append_right _ List.mem_cons_self
      · exact Or.inr ⟨j, b, (Function.update_of_ne hj ..).trans hb, hid⟩

/-- A call in progress goes on without taking its place. -/
theorem KvInvariant.wait {m₀ : KvMap} {s : KvState ι} {order : List (Entry KvCall KvAnswer)}
    (hinv : KvInvariant m₀ s order) {i : ι} {a : KvActive} (hi : s.clients i = some a)
    {p : Kv KvAnswer} (hphase : Phase s.history order s.server.toMap { a with proc := p })
    (hwf : State.WellFormed { s with
      clients := Function.update s.clients i (some { a with proc := p }) }) :
  KvInvariant m₀ { s with clients := Function.update s.clients i (some { a with proc := p }) } order
  where
  wellFormed := hwf
  unique := hinv.unique
  linearizes := hinv.linearizes
  phases := by
    intro j b hb
    rcases update_eq_some hb with ⟨-, hb⟩ | ⟨-, hb⟩
    · obtain rfl := Option.some.inj hb
      exact hphase
    · exact hinv.phases j b hb
  known := by
    intro e he
    rcases hinv.known e he with hret | ⟨j, b, hb, hid⟩
    · exact Or.inl hret
    · right
      by_cases hj : j = i
      · subst hj
        obtain rfl := Option.some.inj (hi.symm.trans hb)
        exact ⟨j, _, Function.update_self .., hid⟩
      · exact ⟨j, b, (Function.update_of_ne hj ..).trans hb, hid⟩

/-- A `kv-set` in front of another one of the same key changes nothing. -/
theorem runs_absorbed {m₀ m : KvMap} {before behind : List (Entry KvCall KvAnswer)}
    {d : Entry KvCall KvAnswer} {ns key value value' : Text} (id : ℕ) (hns : ns ≠ [])
    (hkey : key ≠ []) (hnul : ¬ (KvCall.set ns key value).HasNul)
    (hset : d.call = .set ns key value') (hnul' : ¬ d.call.HasNul)
    (hruns : kvSpec.Runs m₀ ((before ++ d :: behind).map Entry.answered) m) :
  kvSpec.Runs m₀ ((before ++ ⟨id, .set ns key value, some .done⟩ :: d :: behind).map Entry.answered) m
  := by
  rw [List.map_append] at hruns ⊢
  obtain ⟨n, hbefore, hallows, hbehind⟩ := Spec.runs_append.mp hruns
  rw [hset] at hnul'
  have hset' : Entry.answered d = (.set ns key value', d.out) := by rw [Entry.answered, hset]
  rw [hset'] at hallows hbehind
  have habsorb : (n.next (.set ns key value)).next (.set ns key value') = n.next (.set ns key value')
      := by
    simp only [KvMap.next, if_neg hnul, if_neg hnul', KvMap.after, KvMap.set_set hns hkey]
  apply Spec.runs_append.mpr
  refine ⟨n, hbefore, ?_⟩
  rw [List.map_cons, List.map_cons, hset']
  refine ⟨?_, ?_, ?_⟩
  · change n.Allows (.set ns key value) (some .done)
    rw [KvMap.Allows, if_neg hnul]
    exact ⟨_, rfl, rfl⟩
  · change n.Allows (.set ns key value') d.out at hallows
    change (n.next (.set ns key value)).Allows (.set ns key value') d.out
    rw [KvMap.Allows, if_neg hnul'] at hallows ⊢
    exact hallows
  · change kvSpec.Runs ((n.next (.set ns key value)).next (.set ns key value')) _ m
    rw [habsorb]
    exact hbehind

/-- A step keeps the invariant, with another call in the order if necessary. -/
theorem KvInvariant.step {m₀ : KvMap} {s t : KvState ι} {order : List (Entry KvCall KvAnswer)}
    (hinv : KvInvariant m₀ s order) (h : Stepped serve kvCall s t) :
  ∃ order', KvInvariant m₀ t order'
  := by
  have hwf := hinv.wellFormed.step h
  cases h with
  | call i c hi => exact ⟨order, hinv.call hi c hwf⟩
  | serve i a q next r t hi hproc hserve =>
      cases hinv.phases i a hi with
      | fresh hfresh hnew =>
          have hcall : kvCall a.call = .query q next := hfresh.symm.trans hproc
          rcases serve_kvCall hinv.unique hcall hserve with
            ⟨ans, hans⟩ | ⟨ns, key, value, hset, hnul, hnext, hnone, rfl⟩
          · have hruns : Proc.Runs serve (kvCall a.call) s.server (some ans) t := by
              rw [hcall]
              refine ⟨r, t, hserve, ?_⟩
              rw [hans]
              exact ⟨rfl, rfl⟩
            obtain ⟨hu, hallows, hmap⟩ := runs_kvCall hinv.unique hruns
            have hresult : (next r).result = some (some ans) := by
              rw [hans]
              rfl
            exact ⟨_, hinv.append hi hnew hresult hu hallows hmap hwf⟩
          · exact ⟨order, hinv.wait hi (.missed ns key value hset hnul hnext hnew
              (fun hsome => absurd hsome hnone)) hwf⟩
      | missed ns key value hset hnul hmissed hnew habsorbed =>
          obtain ⟨rfl, rfl⟩ := Proc.query.inj (hmissed.symm.trans hproc)
          obtain ⟨hu, hcases⟩ := serve_insert hinv.unique hserve
          split at hcases
          case isTrue hsome =>
              subst hcases
              obtain ⟨before, d, behind, rfl, ⟨value', hset', hnul'⟩, htime⟩ := habsorbed hsome
              obtain ⟨hns, hkey⟩ := ne_nil_of_lookup hsome
              rw [hset] at hnul
              have hruns := runs_absorbed a.id hns hkey hnul hset' hnul'
                hinv.linearizes.runs
              rw [← hset] at hruns
              exact ⟨_, hinv.insert hi hnew rfl hu htime hruns (fun _ _ h => Or.inl h) hwf⟩
          case isFalse =>
              have hallows : s.server.toMap.Allows a.call (some .done) := by
                rw [KvMap.Allows, if_neg hnul, hset]
                exact ⟨_, rfl, rfl⟩
              have hmap : t.toMap = s.server.toMap.next a.call := by
                rw [KvMap.next, if_neg hnul, hset, KvMap.after, hcases]
              exact ⟨_, hinv.append hi hnew rfl hu hallows hmap hwf⟩
      | placed out hresult hmem =>
          rw [hproc] at hresult
          cases hresult
  | ret i a out hi hout =>
      cases hinv.phases i a hi with
      | fresh hfresh hnew =>
          rw [hfresh] at hout
          obtain ⟨hnul, rfl⟩ := result_kvCall hout
          have hself : ({ s with
              server := s.server
              clients := Function.update s.clients i (some { a with proc := a.proc }) } : KvState ι)
              = s := by
            rw [← hi, Function.update_eq_self]
          have hallows : s.server.toMap.Allows a.call none := by rw [KvMap.Allows, if_pos hnul]
          have hmap : s.server.toMap = s.server.toMap.next a.call := by rw [KvMap.next, if_pos hnul]
          have hplaced := hinv.append hi hnew (p := a.proc) (by rw [hfresh, hout]) hinv.unique hallows
            hmap (by rw [hself]; exact hinv.wellFormed)
          rw [hself] at hplaced
          exact ⟨_, hplaced.ret hi (List.mem_append_right _ List.mem_cons_self) hwf⟩
      | missed ns key value hset hnul hmissed hnew habsorbed =>
          rw [hmissed] at hout
          cases hout
      | placed out' hresult hmem =>
          obtain rfl := Option.some.inj (hout.symm.trans hresult)
          exact ⟨order, hinv.ret hi hmem hwf⟩

/-- **Linearizability**: after any interleaving of the statements of any number of clients, no two
rows of the table have the same namespace and key; and the calls have an order, consistent with
real time, in which the answers and the table are those of the abstract store.  The order consists
of the calls that have returned, and of some that are in progress. -/
theorem kv_linearizable {t : Table} (hu : t.Unique) {s : KvState ι}
    (h : Run.Reaches (step serve kvCall) (start t) s) :
  s.server.Unique ∧ ∃ order, Linearizes kvSpec t.toMap s.history order s.server.toMap
    ∧ ∀ e ∈ order, (∃ out, .ret e.id out ∈ s.history) ∨ ∃ i a, s.clients i = some a ∧ a.id = e.id
  := by
  have hinvariant : ∃ order, KvInvariant t.toMap s order := by
    apply Run.Reaches.invariant (I := fun s => ∃ order, KvInvariant t.toMap s order) _
      ⟨[], kvInvariant_start hu⟩ h
    rintro s l s' ⟨order, hinv⟩ hstep
    exact hinv.step (stepped hstep)
  obtain ⟨order, hinv⟩ := hinvariant
  exact ⟨hinv.unique, order, hinv.linearizes, hinv.known⟩

/-- Two clients store a value under the same key, and neither `update` finds a row. -/
def raceActions : List (Concurrent.Action Bool PGResult KvCall) :=
  [.call true (.set ['a'] ['b'] ['c']), .call false (.set ['a'] ['b'] ['d']),
    .serve true (.command 0), .serve false (.command 0), .serve false (.command 1), .ret false,
    .serve true .failed, .ret true]

/-- The second `insert` fails, and its call takes its place before the other one. -/
theorem kv_linearizable_race :
  ∃ s, Run.run (step serve kvCall) (start [] : KvState Bool) raceActions = some s
    ∧ s.server.Unique ∧ ∃ order, Linearizes kvSpec (Table.toMap []) s.history order s.server.toMap
    ∧ ∀ e ∈ order, (∃ out, .ret e.id out ∈ s.history) ∨ ∃ i a, s.clients i = some a ∧ a.id = e.id
  := by
  have hsome : (Run.run (step serve kvCall) (start [] : KvState Bool) raceActions).isSome := by
    decide
  obtain ⟨s, hs⟩ := Option.isSome_iff_exists.mp hsome
  exact ⟨s, hs, kv_linearizable (t := []) List.Pairwise.nil ⟨raceActions, hs⟩⟩

end

end Gusher
