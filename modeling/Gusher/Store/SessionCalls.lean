import Gusher.Library.Effects
import Gusher.Store.Overlap

/-!
# Session calls of many requests at the same time

The statements of `session-get`, `session-set` and `session-unset` come between each other in any way.
`session-get` takes effect at its statement; a change takes effect when it stores the session that it has
read before, and until then the session must stay as it is.  Other sessions can change in the meantime,
and so the calls are linearizable unless two changes of one session are under way at the same time
(`sessions_linearizable`).
-/

namespace Gusher

open Concurrent Proc

/-- The requests of all sessions, and the table. -/
abbrev SessionState (ι : Type) :=
  State Table Statement PGResult (Text × SessionCall) (Option Scm) ι

def SessionCall.isChange : SessionCall → Bool
  | get _ => false
  | change _ _ => true

/-- Two changes of one session. -/
def SessionCall.Conflict (c d : Text × SessionCall) : Prop :=
  c.1 = d.1 ∧ c.2.isChange = true ∧ d.2.isChange = true

/-- How far a call has come that has not taken effect: a change has read the session that is still
stored, and what it stores stands for the change of the session. -/
inductive SessionPhase (js : Jansson) (t : Table) : Text × SessionCall → Kv (Option Scm) → Prop where
  | fresh (c : Text × SessionCall) (hc : SessionCall.Admissible c) :
      SessionPhase js t c (sessionCall js c)
  | stores {sessKey : Text} {edit : SessionEdit} {stamp : Int32} {e : Edit} {missed : Bool}
      {p : Kv Unit} (place : Place sessions sessKey) (hfits : edit.Fits) (he : e.Storable)
      (hp : Pending sessions sessKey e missed p)
      (hmissed : missed = true → t.toMap.value sessions sessKey = none)
      (hvalue : ∀ m, SessionValue js (t.toMap.value sessions sessKey) m →
        SessionValue js (e.apply (t.toMap.value sessions sessKey)) (m.edit edit)) :
      SessionPhase js t (sessKey, .change edit stamp) (p >>= fun _ => pure none)

section

variable {js : Jansson} {t u : Table} {m : Sessions} {sessKey : Text} {q : Statement} {r : PGResult}

/-- A change that is not finished has a statement to execute. -/
theorem Pending.exists_query {e : Edit} {missed : Bool} {p : Kv Unit} (place : Place sessions sessKey)
    (he : e.Storable) (hp : Pending sessions sessKey e missed p) {next : PGResult → Kv (Option Scm)}
    (hq : (p >>= fun _ => pure none) = .query q next) :
  ∃ next', p = .query q next' ∧ ∀ r, next r = next' r >>= fun _ => pure none
  := by
  have hresult := hp.result_eq place he
  cases p with
  | done a => cases hresult
  | raise => cases hresult
  | query q' next' =>
      rw [query_bind] at hq
      obtain ⟨rfl, rfl⟩ := Proc.query.inj hq
      exact ⟨next', rfl, fun _ => rfl⟩

/-- A statement of a change leaves the other sessions alone. -/
theorem Pending.others {e : Edit} {missed : Bool} {p : Kv Unit} (place : Place sessions sessKey)
    (he : e.Storable) (hp : Pending sessions sessKey e missed p) (hu : t.Unique)
    {next : PGResult → Kv Unit} (hq : p = .query q next) (hserve : serve t q r = some u)
    {sessKey' : Text} (hne : sessKey' ≠ sessKey) :
  u.toMap.value sessions sessKey' = t.toMap.value sessions sessKey'
  := by
  rcases hp.step place he (has_self hu) hq hserve with ⟨-, hhas⟩ | ⟨-, -, rfl⟩ | ⟨-, -, -, rfl⟩
  · rw [hhas.map_eq, KvMap.put]
    exact if_neg (fun h => hne h.2)
  · rfl
  · rfl

theorem sessionCall_get (key : Text) :
  sessionCall js (sessKey, .get key) = (sessionGet js sessKey key >>= fun x => pure (some x))
  := rfl

theorem sessionCall_change (edit : SessionEdit) (stamp : Int32) :
  sessionCall js (sessKey, .change edit stamp)
    = (sessionEdit js sessKey edit stamp >>= fun _ => pure none)
  := rfl

/-- One session is stored. -/
theorem Holds.stored (h : Holds js t m) {y : Option (Option Text)} {m' : SessionMap}
    (hhas : Has t.toMap sessions sessKey u y) (hy : SessionValue js y m') :
  Holds js u (Function.update m sessKey m')
  where
  unique := hhas.unique
  values := by
    intro sessKey' hne
    by_cases hsess : sessKey' = sessKey
    · subst hsess
      rw [Function.update_self, hhas.map_eq, KvMap.put]
      simpa using hy
    · rw [Function.update_of_ne hsess, hhas.map_eq, KvMap.put]
      simpa [hsess] using h.values sessKey' hne

theorem sessionCall_nul {c : Text × SessionCall} (hnul : Char.ofNat 0 ∈ c.1) :
  sessionCall js c = .raise
  := by
  obtain ⟨sessKey, call⟩ := c
  cases call with
  | get key => simp [sessionCall, sessionGet, sessionRead, kvGet_sessions_nul hnul]
  | change edit stamp => simp [sessionCall, sessionEdit_nul hnul]

/-- Every other request has a statement to execute. -/
theorem result_sessionCall {c : Text × SessionCall} {out : Option (Option Scm)} (hne : c.1 ≠ [])
    (h : (sessionCall js c).result = some out) :
  Char.ofNat 0 ∈ c.1 ∧ out = none
  := by
  obtain ⟨sessKey, call⟩ := c
  by_cases hnul : Char.ofNat 0 ∈ sessKey
  · rw [sessionCall_nul hnul] at h
    exact ⟨hnul, (Option.some.inj h).symm⟩
  · have place := place_sessions hne hnul
    cases call with
    | get key =>
        rw [sessionCall_get, sessionGet_eq place] at h
        cases h
    | change edit stamp =>
        obtain ⟨next, hquery, -⟩ := @sessionEdit_eq js sessKey edit stamp place
        rw [sessionCall_change, hquery] at h
        cases h

/-- `session-get` has executed its statement. -/
theorem exists_result_get {key : Text} (place : Place sessions sessKey)
    {next : PGResult → Kv (Option Scm)} (hq : sessionCall js (sessKey, .get key) = .query q next) :
  q = .selectValue (constant sessions) (constant sessKey)
    ∧ ∀ r, ∃ out, (next r).result = some out
  := by
  rw [sessionCall_get, sessionGet_eq place, query_bind] at hq
  obtain ⟨rfl, rfl⟩ := Proc.query.inj hq
  refine ⟨rfl, ?_⟩
  intro r
  by_cases hcell : pgCell (pgOneRow r) "value" = .bool false
  · simp [hcell, Proc.result]
  · cases hdecode : js.jsonDecode (pgCell (pgOneRow r) "value") with
    | none => simp [hcell, hdecode, Proc.result]
    | some session =>
        by_cases hsession : session = .bool false
        · simp [hcell, hdecode, hsession, Proc.result]
        · simp [hcell, hdecode, hsession, Proc.result]

/-- `session-set` and `session-unset` read the session first. -/
theorem change_serves (hjs : js.Lawful) (hloads : js.loads [] = none) (h : Holds js t m)
    {edit : SessionEdit} {stamp : Int32} (place : Place sessions sessKey)
    (hc : SessionCall.Admissible (sessKey, .change edit stamp)) {next : PGResult → Kv (Option Scm)}
    (hq : sessionCall js (sessKey, .change edit stamp) = .query q next) (hserve : serve t q r = some u) :
  u = t ∧ (SessionPhase js t (sessKey, .change edit stamp) (next r)
    ∨ ∃ out, (next r).result = some out)
  := by
  obtain ⟨members, hdecodes, hentries⟩ := h.values sessKey place.key_ne
  rw [sessionCall_change] at hq
  by_cases hfits : edit.Fits
  · have hupdates := updates_sessionEdit hjs hloads place hfits stamp
    obtain ⟨next', hquery, -⟩ := id hupdates
    rw [hquery, query_bind] at hq
    obtain ⟨rfl, rfl⟩ := Proc.query.inj hq
    obtain ⟨rfl, e, hnext, he, hvalue⟩ := hupdates.read place (has_self h.unique)
      ⟨members, hdecodes, hentries⟩ hquery hserve
    refine ⟨rfl, ?_⟩
    beta_reduce
    rw [hnext]
    by_cases hkeep : e = .keep
    · right
      rw [hkeep]
      exact ⟨_, rfl⟩
    · left
      exact .stores place hfits he (.whole hkeep) (by simp) (fun m hm => (hvalue m hm).1)
  · obtain ⟨next', hquery, hnext⟩ := @sessionEdit_unfit js sessKey edit stamp place hc hfits
    rw [hquery, query_bind] at hq
    obtain ⟨rfl, rfl⟩ := Proc.query.inj hq
    obtain ⟨rfl, hcell⟩ := serve_selectValue h.unique hserve
    rw [KvMap.lookup, if_neg (not_or.mpr ⟨place.ns_ne, place.key_ne⟩)] at hcell
    have hsession := hdecodes.sessionOr_eq hloads
    rw [← hcell] at hsession
    refine ⟨rfl, Or.inr ⟨none, ?_⟩⟩
    beta_reduce
    rw [hnext r members hentries.nodup hsession]
    rfl

/-- A change that has read its session stores it. -/
theorem stores_serves (h : Holds js t m) {edit : SessionEdit} {stamp : Int32} {e : Edit}
    {missed : Bool} {p : Kv Unit} (place : Place sessions sessKey) (hfits : edit.Fits)
    (he : e.Storable) (hp : Pending sessions sessKey e missed p)
    (hmissed : missed = true → t.toMap.value sessions sessKey = none)
    (hvalue : ∀ m, SessionValue js (t.toMap.value sessions sessKey) m →
      SessionValue js (e.apply (t.toMap.value sessions sessKey)) (m.edit edit))
    {next : PGResult → Kv (Option Scm)} (hq : (p >>= fun _ => pure none) = .query q next)
    (hserve : serve t q r = some u) :
  (SessionPhase js u (sessKey, .change edit stamp) (next r) ∧ u = t)
    ∨ ((next r).result = some (some none)
      ∧ Holds js u (Function.update m sessKey ((m sessKey).edit edit)))
  := by
  obtain ⟨next', hquery, hnext⟩ := hp.exists_query place he hq
  rw [hnext r]
  rcases hp.step place he (has_self h.unique) hquery hserve with
    ⟨hdone, hhas⟩ | ⟨hpending, hnone, rfl⟩ | ⟨-, hmiss, hsome, -⟩
  · right
    rw [hdone]
    exact ⟨rfl, h.stored hhas (hvalue _ (h.values sessKey place.key_ne))⟩
  · exact Or.inl ⟨.stores place hfits he hpending (fun _ => hnone) hvalue, rfl⟩
  · exact absurd (hmissed hmiss) hsome

/-- The first statement of a call. -/
theorem fresh_serves (hjs : js.Lawful) (hloads : js.loads [] = none) (h : Holds js t m)
    {c : Text × SessionCall} (hc : SessionCall.Admissible c) {next : PGResult → Kv (Option Scm)}
    (hq : sessionCall js c = .query q next) (hserve : serve t q r = some u) :
  u = t ∧ (SessionPhase js t c (next r)
    ∨ ∃ out, (next r).result = some out ∧ sessionSpec.allows m c out
      ∧ Holds js t (sessionSpec.next m c))
  := by
  obtain ⟨sessKey, call⟩ := c
  have hnul : Char.ofNat 0 ∉ sessKey := by
    intro hnul
    rw [sessionCall_nul hnul] at hq
    cases hq
  have place := place_sessions hc.1 hnul
  have heffect : u = t → ∀ out, (next r).result = some out →
      sessionSpec.allows m (sessKey, call) out ∧ Holds js t (sessionSpec.next m (sessKey, call)) := by
    rintro rfl out hout
    have hruns : Runs serve (sessionCall js (sessKey, call)) u out u := by
      rw [hq]
      exact ⟨r, u, hserve, runs_of_result hout⟩
    obtain ⟨hallows, hnext, -⟩ := h.call hjs hloads hc hruns
    exact ⟨hallows, hnext⟩
  cases call with
  | get key =>
      obtain ⟨rfl, hresult⟩ := exists_result_get place hq
      obtain ⟨hut, -⟩ := serve_selectValue h.unique hserve
      obtain ⟨out, hout⟩ := hresult r
      exact ⟨hut, Or.inr ⟨out, hout, heffect hut out hout⟩⟩
  | change edit stamp =>
      obtain ⟨hut, hphase | ⟨out, hout⟩⟩ := change_serves hjs hloads h place hc hq hserve
      · exact ⟨hut, Or.inl hphase⟩
      · exact ⟨hut, Or.inr ⟨out, hout, heffect hut out hout⟩⟩

/-- The calls take effect at one statement. -/
theorem atOnce_sessionCall (hjs : js.Lawful) (hloads : js.loads [] = none) :
  AtOnce serve (sessionCall js) sessionSpec (Holds js) (SessionPhase js) SessionCall.Admissible
    SessionCall.Conflict
  where
  symm := by
    rintro c d ⟨hsess, hc, hd⟩
    exact ⟨hsess.symm, hd, hc⟩
  begins t c hc := .fresh c hc
  serves := by
    intro t m c q next r u h hphase hserve
    generalize hproc : Proc.query q next = proc at hphase
    cases hphase with
    | fresh _ hc =>
        obtain ⟨rfl, hphase | ⟨out, hout, hallows, hnext⟩⟩ :=
          fresh_serves hjs hloads h hc hproc.symm hserve
        · exact Or.inl ⟨hphase, h⟩
        · exact Or.inr ⟨out, hout, hallows, hnext⟩
    | @stores sessKey edit stamp e missed p place hfits he hp hmissed hvalue =>
        have hnul : ¬ SessionCall.HasNul (sessKey, .change edit stamp) := by
          rintro (hnul | hnot)
          · exact place.key_nul hnul
          · exact hnot hfits
        rcases @stores_serves js t u m sessKey q r h edit stamp e missed p place hfits he hp hmissed
          hvalue next hproc.symm hserve with ⟨hphase, rfl⟩ | ⟨hout, hnext⟩
        · exact Or.inl ⟨hphase, h⟩
        · refine Or.inr ⟨some none, hout, ?_, ?_⟩
          · simp only [sessionSpec]
            rw [if_neg hnul]
            trivial
          · simp only [sessionSpec]
            rw [if_neg hnul]
            exact hnext
  stays := by
    intro t m c p d q next r u h hp hd hnot hserve
    cases hp with
    | fresh _ hc => exact .fresh c hc
    | @stores sessKey edit stamp e missed p place hfits he hp hmissed hvalue =>
        have hsame : u.toMap.value sessions sessKey = t.toMap.value sessions sessKey := by
          generalize hproc : Proc.query q next = proc at hd
          cases hd with
          | fresh _ hd =>
              obtain ⟨rfl, -⟩ := fresh_serves hjs hloads h hd hproc.symm hserve
              rfl
          | @stores sessKey' edit' stamp' e' missed' p' place' hfits' he' hp' hmissed' hvalue' =>
              obtain ⟨next', hquery, -⟩ := hp'.exists_query place' he' hproc.symm
              apply hp'.others place' he' h.unique hquery hserve
              intro hsess
              exact hnot ⟨hsess, rfl, rfl⟩
        rw [← hsame] at hmissed hvalue
        exact .stores place hfits he hp hmissed hvalue
  ends := by
    intro t m c p out h hp hout
    cases hp with
    | fresh _ hc =>
        obtain ⟨hnul, rfl⟩ := result_sessionCall hc.1 hout
        have hhas : SessionCall.HasNul c := Or.inl hnul
        simp only [sessionSpec]
        rw [if_pos hhas, if_pos hhas]
        exact ⟨trivial, rfl⟩
    | @stores sessKey edit stamp e missed p place hfits he hp =>
        have hresult := hp.result_eq place he
        cases p with
        | done a => cases hresult
        | raise => cases hresult
        | query q next => cases hout

end

section

variable {js : Jansson} {t : Table} {ι : Type} [DecidableEq ι] {s : SessionState ι}

/-- A call that changes a key of a session. -/
theorem of_changes {sessKey key : Text} {c : Text × SessionCall}
    (h : SessionCall.changes sessKey key c = true) :
  c.1 = sessKey ∧ c.2.isChange = true
  := by
  obtain ⟨sessKey', call⟩ := c
  rw [SessionCall.changes, Bool.and_eq_true] at h
  refine ⟨of_decide_eq_true h.1, ?_⟩
  cases call with
  | get key' => cases h.2
  | change edit stamp => rfl

theorem latest_congr {sessKey key : Text} {calls calls' : List (Text × SessionCall)}
    (h : calls.filter (SessionCall.changes sessKey key)
      = calls'.filter (SessionCall.changes sessKey key)) :
  latest (SessionCall.complete calls) sessKey key = latest (SessionCall.complete calls') sessKey key
  := by
  rw [latest, latest, SessionCall.complete, SessionCall.complete, List.filter_comm, h,
    List.filter_comm]

/-- **Session calls**: when no two changes of one session are under way at the same time, the calls are
linearizable, however the statements of any number of requests come between each other.  And then
`session-get` returns the value that its key was most recently set to before, when no change of this key
is under way at the same time, whatever happens to other sessions. -/
theorem sessions_linearizable (hjs : js.Lawful) (hloads : js.loads [] = none) (hu : t.Unique)
    (hempty : ∀ row ∈ t, row.ns ≠ some sessions)
    (h : Run.Reaches (step serve (sessionCall js)) (start t) s)
    (hcalls : ∀ c, .call c ∈ s.history → SessionCall.Admissible c)
    (hapart : Apart SessionCall.Conflict s.history) :
  (∃ order m, Linearizes sessionSpec (fun _ _ => none) s.history order m ∧ Holds js s.server m
    ∧ ∀ e ∈ order, (∃ out, .ret e.id out ∈ s.history) ∨ ∃ i a, s.clients i = some a ∧ a.id = e.id)
  ∧ ∀ id sessKey key out, s.history[id]? = some (.call (sessKey, .get key)) →
    .ret id out ∈ s.history → Char.ofNat 0 ∉ sessKey →
    ApartFrom (SessionCall.changes sessKey key · = true) s.history id →
    ∃ x, out = some (some x)
      ∧ Finds (latest (SessionCall.complete (madeBefore s.history id)) sessKey key) x
  := by
  obtain ⟨order, m, hlin, hholds, hknown⟩ :=
    (atOnce_sessionCall hjs hloads).linearizes (holds_empty hu hempty) h hcalls hapart
  refine ⟨⟨order, m, hlin, hholds, hknown⟩, ?_⟩
  intro id sessKey key out hid hret hnul hfrom
  obtain ⟨call, hmem⟩ := hlin.returned id out hret
  obtain rfl : call = (sessKey, .get key) := hlin.call_eq hmem hid
  obtain ⟨before, behind, rfl⟩ := List.append_of_mem hmem
  have hruns := hlin.runs
  rw [List.map_append] at hruns
  obtain ⟨n, hbefore, hallows, -⟩ := Spec.runs_append.mp hruns
  have hsame : (before.map Entry.call).filter (SessionCall.changes sessKey key)
      = (madeBefore s.history id).filter (SessionCall.changes sessKey key) := by
    refine hlin.filter_eq ?_ hfrom
    intro a b c d hlt ha hb hcd
    obtain ⟨hc, hc'⟩ := of_changes hcd.1
    obtain ⟨hd, hd'⟩ := of_changes hcd.2
    exact hapart a b c d hlt ha hb ⟨hc.trans hd.symm, hc', hd'⟩
  have hzip : before.map Entry.answered = (before.map Entry.call).zip (before.map Entry.out) :=
    List.zip_map'.symm
  rw [hzip] at hbefore
  have hvalue : n sessKey key
      = latest (SessionCall.complete (madeBefore s.history id)) sessKey key := by
    rw [hbefore.state_eq (by simp), foldl_sessionSpec]
    exact latest_congr hsame
  have hhas : ¬ SessionCall.HasNul (sessKey, .get key) := by
    rintro (hmem | hfalse)
    · exact hnul hmem
    · exact hfalse
  simp only [Entry.answered, sessionSpec] at hallows
  rw [if_neg hhas, hvalue] at hallows
  exact hallows

end

/-! ### An example -/

deriving instance DecidableEq for SessionCall

/-- A request sets a key of its session while a request of another session has only read, and then gets
the key. -/
def overlapActions : List (Concurrent.Action Bool PGResult (Text × SessionCall)) :=
  [.call true (['s'], .change (.set ['k'] (.int 7)) 1), .call false (['t'], .change (.unset ['k']) 2),
    .serve true (.select "value" []), .serve false (.select "value" []), .serve true (.command 0),
    .serve true (.command 1), .ret true, .call true (['s'], .get ['k']),
    .serve true (.select "value" [.text "\x7b\"stamp\":1,\"k\":7\x7d".toList]), .ret true]

/-- The calls, and what they return. -/
def overlapHistory : List (Event (Text × SessionCall) (Option Scm)) :=
  [.call (['s'], .change (.set ['k'] (.int 7)) 1), .call (['t'], .change (.unset ['k']) 2),
    .ret 0 (some none), .call (['s'], .get ['k']), .ret 3 (some (some (.int 7)))]

/-- The changes are in different sessions. -/
theorem overlapHistory_change {a : ℕ} {c : Text × SessionCall}
    (ha : overlapHistory[a]? = some (.call c)) (hc : c.2.isChange = true) :
  (a = 0 ∧ c.1 = ['s']) ∨ (a = 1 ∧ c.1 = ['t'])
  := by
  rcases a with _ | _ | _ | _ | _ | a
  · obtain rfl := Event.call.inj (Option.some.inj ha)
    exact Or.inl ⟨rfl, rfl⟩
  · obtain rfl := Event.call.inj (Option.some.inj ha)
    exact Or.inr ⟨rfl, rfl⟩
  · cases Option.some.inj ha
  · obtain rfl := Event.call.inj (Option.some.inj ha)
    cases hc
  · cases Option.some.inj ha
  · cases ha

/-- The value is found that was set before. -/
theorem sessions_linearizable_overlap :
  ∃ s, Run.run (step serve (sessionCall jansson)) (start [] : SessionState Bool) overlapActions = some s
    ∧ (∃ order m, Linearizes sessionSpec (fun _ _ => none) s.history order m
      ∧ Holds jansson s.server m
      ∧ ∀ e ∈ order, (∃ out, .ret e.id out ∈ s.history) ∨ ∃ i a, s.clients i = some a ∧ a.id = e.id)
    ∧ Finds (latest (SessionCall.complete (madeBefore s.history 3)) ['s'] ['k']) (.int 7)
  := by
  have hhistory : (Run.run (step serve (sessionCall jansson)) (start [] : SessionState Bool)
      overlapActions).map State.history = some overlapHistory := by decide +kernel
  obtain ⟨s, hs, hrun⟩ := Option.map_eq_some_iff.mp hhistory
  have hcalls : ∀ c, .call c ∈ s.history → SessionCall.Admissible c := by
    intro c hc
    rw [hrun] at hc
    simp only [overlapHistory, List.mem_cons, Event.call.injEq, reduceCtorEq, List.not_mem_nil, or_false,
      false_or] at hc
    rcases hc with rfl | rfl | rfl
    · exact ⟨by decide, by decide, .int (by decide)⟩
    · exact ⟨by decide, by decide⟩
    · exact ⟨by decide, by decide⟩
  have hapart : Apart SessionCall.Conflict s.history := by
    rw [hrun]
    rintro a b c d hlt ha hb ⟨hsess, hc, hd⟩
    rcases overlapHistory_change ha hc with ⟨rfl, hcs⟩ | ⟨rfl, hcs⟩
    · rcases overlapHistory_change hb hd with ⟨rfl, -⟩ | ⟨-, hds⟩
      · exact absurd hlt (Nat.lt_irrefl _)
      · rw [hcs, hds] at hsess
        exact absurd hsess (by decide)
    · rcases overlapHistory_change hb hd with ⟨rfl, -⟩ | ⟨rfl, -⟩
      · exact absurd hlt (by decide)
      · exact absurd hlt (Nat.lt_irrefl _)
  obtain ⟨hlin, hget⟩ := sessions_linearizable (t := []) lawful_jansson (by decide) List.Pairwise.nil
    (by simp) ⟨overlapActions, hs⟩ hcalls hapart
  refine ⟨s, hs, hlin, ?_⟩
  have hfrom : ApartFrom (SessionCall.changes ['s'] ['k'] · = true) s.history 3 := by
    rw [hrun]
    intro j c hj hc
    obtain ⟨hsess, hchange⟩ := of_changes hc
    rcases overlapHistory_change hj hchange with ⟨rfl, -⟩ | ⟨rfl, hcs⟩
    · exact ⟨fun _ => ⟨2, some none, rfl, by decide⟩, fun hlt => absurd hlt (by decide)⟩
    · rw [hsess] at hcs
      exact absurd hcs (by decide)
  obtain ⟨x, hx, hfinds⟩ := hget 3 ['s'] ['k'] (some (some (.int 7))) (by rw [hrun]; rfl)
    (by rw [hrun]; simp [overlapHistory]) (by decide) hfrom
  obtain rfl := Option.some.inj (Option.some.inj hx)
  exact hfinds

end Gusher
