import Gusher.Store.Registry
import Gusher.Store.Session

/-!
# Calls of several applications at the same time

Functions that read a list or a session, change it and write it back execute up to three statements,
and the statements of other calls can come between them.  When the calls are not mixed each finds
what the other has written; otherwise the effect of one of them may be lost.
-/

namespace Gusher

open Proc

variable {js : Jansson}

/-! ### Subscriptions -/

/-- The application subscribes to the key, or leaves it. -/
def MsgCall.about (key : Text) (on : Bool) : MsgCall :=
  if on then .subscribe key else .unsubscribe key

/-- The list with the URL, or without it. -/
def toggle (on : Bool) (url : Text) (urls : List Text) : List Text :=
  if on then addUrl url urls else removeUrl url urls

theorem mem_toggle {on : Bool} {url u : Text} {urls : List Text} :
  u ∈ toggle on url urls ↔ if u = url then on = true else u ∈ urls
  := by
  rw [toggle]
  cases on with
  | true =>
      rw [if_pos rfl, mem_addUrl]
      split
      case isTrue hu => simp [hu]
      case isFalse hu => simp [hu]
  | false =>
      rw [if_neg (by decide), mem_removeUrl]
      split
      case isTrue hu => simp [hu]
      case isFalse hu => simp [hu]

/-- A call of an application about a key. -/
theorem updates_msgCall (hjs : js.Lawful) {key : Text} (place : Place subscriptions key) (port : ℕ)
    (on : Bool) :
  Updates subscriptions key (Listed js) (toggle on (callbackUrl port key))
    (fun urls => ¬ (on = true ∧ callbackUrl port key ∈ urls)) (msgCall js (port, .about key on))
  := by
  cases on with
  | true =>
      have hwrites : (fun urls : List Text => ¬ (true = true ∧ callbackUrl port key ∈ urls))
          = (callbackUrl port key ∉ ·) := by simp
      rw [hwrites]
      exact updates_msgSubscribe hjs place
  | false =>
      have hwrites : (fun urls : List Text => ¬ (false = true ∧ callbackUrl port key ∈ urls))
          = fun _ => True := by simp
      rw [hwrites]
      exact updates_msgUnsubscribe hjs place

theorem msgCall_about_nul {key : Text} (hnul : Char.ofNat 0 ∈ key) (port : ℕ) (on : Bool) :
  msgCall js (port, .about key on) = .raise
  := by
  cases on with
  | true => exact msgSubscribe_nul hnul
  | false => exact msgUnsubscribe_nul hnul

/-- **Two applications and one key**: when calls that are made at the same time have returned, the
list has every other URL that was there, and no more, and has the effect of one of the calls at
least.  It has the effects of both when their statements are not mixed, or when one of them is
a subscription that was there already. -/
theorem subscriptions_overlap (hjs : js.Lawful) {t t' : Table} (hu : t.Unique) {key : Text}
    (hkey : key ≠ []) {urls : List Text} (hurls : Stored js t key urls) {port port' : ℕ}
    (hport : port ≠ port') {on on' : Bool} {w : List Bool}
    (h : Parallel serve w (msgCall js (port, .about key on)) (msgCall js (port', .about key on')) t
      (some ()) (some ()) t') :
  ∃ urls', Stored js t' key urls'
    ∧ (∀ u, u ≠ callbackUrl port key → u ≠ callbackUrl port' key → (u ∈ urls' ↔ u ∈ urls))
    ∧ ((callbackUrl port key ∈ urls' ↔ on = true) ∨ (callbackUrl port' key ∈ urls' ↔ on' = true))
    ∧ ((Ordered w ∨ (on = true ∧ callbackUrl port key ∈ urls)
        ∨ (on' = true ∧ callbackUrl port' key ∈ urls)) →
      (callbackUrl port key ∈ urls' ↔ on = true) ∧ (callbackUrl port' key ∈ urls' ↔ on' = true))
  := by
  by_cases hnul : Char.ofNat 0 ∈ key
  · rw [msgCall_about_nul hnul] at h
    cases (h.runs_right rfl).1
  · have place := place_subscriptions hkey hnul
    have hne : callbackUrl port key ≠ callbackUrl port' key := fun h => hport (callbackUrl_inj.mp h)
    obtain ⟨-, -, x, urls', hat, hx, hcombined⟩ :=
      Updates.parallel place (updates_msgCall hjs place port on)
        (updates_msgCall hjs place port' on') (has_self hu) hurls h
    refine ⟨urls', ?_, ?_⟩
    · rw [Stored, hat.map_eq, KvMap.put]
      simpa using hx
    · rcases hcombined with rfl | rfl | ⟨hmixed, hwrites, hwrites', rfl | rfl⟩
      · simp only [mem_toggle, hne, if_true, if_false, true_or, and_self, implies_true, and_true]
        intro u hu hu'
        rw [if_neg hu', if_neg hu]
      · simp only [mem_toggle, hne.symm, if_true, if_false, true_or, and_self, implies_true,
          and_true]
        intro u hu hu'
        rw [if_neg hu, if_neg hu']
      · refine ⟨?_, ?_, ?_⟩
        · intro u hu _
          rw [mem_toggle, if_neg hu]
        · left
          rw [mem_toggle, if_pos rfl]
        · rintro (hw | hon | hon')
          · exact absurd hw hmixed
          · exact absurd hon hwrites
          · exact absurd hon' hwrites'
      · refine ⟨?_, ?_, ?_⟩
        · intro u _ hu'
          rw [mem_toggle, if_neg hu']
        · right
          rw [mem_toggle, if_pos rfl]
        · rintro (hw | hon | hon')
          · exact absurd hw hmixed
          · exact absurd hon hwrites
          · exact absurd hon' hwrites'

/-- A table with the subscription of one application. -/
def oneSubscription : Table :=
  [⟨some subscriptions, some ['a'], some "[\"http://127.0.0.1:82/msg-a\"]".toList⟩]

theorem stored_oneSubscription :
  Stored jansson oneSubscription ['a'] [callbackUrl 82 ['a']]
  := by
  rw [Stored, Listed, if_neg (List.cons_ne_nil _ _)]
  refine ⟨"[\"http://127.0.0.1:82/msg-a\"]".toList, by decide, ?_⟩
  decide +kernel

theorem unique_oneSubscription :
  oneSubscription.Unique
  := List.pairwise_singleton _ _

/-- Two other applications subscribe, one after the other. -/
theorem subscriptions_overlap_ordered :
  ∃ w t', Parallel serve w (msgCall jansson (80, .about ['a'] true))
      (msgCall jansson (81, .about ['a'] true)) oneSubscription (some ()) (some ()) t'
    ∧ ∃ urls', Stored jansson t' ['a'] urls'
      ∧ (∀ u, u ≠ callbackUrl 80 ['a'] → u ≠ callbackUrl 81 ['a'] →
        (u ∈ urls' ↔ u ∈ [callbackUrl 82 ['a']]))
      ∧ (callbackUrl 80 ['a'] ∈ urls' ↔ true = true) ∧ (callbackUrl 81 ['a'] ∈ urls' ↔ true = true)
  := by
  have place : Place subscriptions ['a'] := place_subscriptions (by decide) (by decide)
  obtain ⟨out, u, hruns⟩ :=
    exists_runs exists_serve (msgCall jansson (80, .about ['a'] true)) oneSubscription
  obtain ⟨rfl, x, hat, hx⟩ := (updates_msgCall lawful_jansson place 80 true).runs place
    (has_self unique_oneSubscription) stored_oneSubscription hruns
  obtain ⟨out', t', hruns'⟩ :=
    exists_runs exists_serve (msgCall jansson (81, .about ['a'] true)) u
  obtain ⟨rfl, -⟩ :=
    (updates_msgCall lawful_jansson place 81 true).runs place hat hx hruns'
  obtain ⟨w, hw, hparallel⟩ := hruns.parallel hruns'
  obtain ⟨urls', hstored, hothers, -, hboth⟩ :=
    subscriptions_overlap lawful_jansson unique_oneSubscription (by decide)
      stored_oneSubscription (by decide) hparallel
  exact ⟨w, t', hparallel, urls', hstored, hothers, hboth (Or.inl (Or.inr hw))⟩

/-- When two applications read the list before they write, the first subscription is lost. -/
theorem subscription_lost :
  ∃ t', Parallel serve [true, false, true, false] (msgCall jansson (80, .about ['a'] true))
      (msgCall jansson (81, .about ['a'] true)) oneSubscription (some ()) (some ()) t'
    ∧ ∀ urls', Stored jansson t' ['a'] urls' → ¬ (callbackUrl 80 ['a'] ∈ urls' ↔ true = true)
  := by
  have place : Place subscriptions ['a'] := place_subscriptions (by decide) (by decide)
  have hset : ∀ port ∈ [80, 81], ∀ e : Edit,
      Listed jansson (e.apply (oneSubscription.toMap.value subscriptions ['a']))
        (toggle true (callbackUrl port ['a']) [callbackUrl 82 ['a']]) →
      ∃ text, e = .set text := by
    intro port hport e he
    have hadded : toggle true (callbackUrl port ['a']) [callbackUrl 82 ['a']]
        = [callbackUrl port ['a'], callbackUrl 82 ['a']] := by
      have hne : port ≠ 82 := by
        rintro rfl
        revert hport
        decide
      rw [toggle, if_pos rfl, addUrl_of_notMem (by simpa [callbackUrl_inj] using hne)]
    rw [hadded] at he
    cases e with
    | keep =>
        have hlength := congrArg List.length (he.unique stored_oneSubscription)
        simp at hlength
    | set text => exact ⟨text, rfl⟩
    | del =>
        rw [Listed, if_neg (List.cons_ne_nil _ _)] at he
        obtain ⟨text, htext, -⟩ := he
        cases htext
  have hvalue : oneSubscription.toMap.value subscriptions ['a']
      = some (some "[\"http://127.0.0.1:82/msg-a\"]".toList) := by decide
  have hat : Has oneSubscription.toMap subscriptions ['a'] oneSubscription _ :=
    has_self unique_oneSubscription
  have hstored := stored_oneSubscription
  rw [Stored] at hstored
  rw [hvalue] at hat hstored hset
  obtain ⟨t', y, hparallel, hat', hy⟩ := Updates.exists_lost place
    (updates_msgCall lawful_jansson place 80 true) (updates_msgCall lawful_jansson place 81 true)
    hat hstored (hset 80 (by decide)) (hset 81 (by decide))
  refine ⟨t', hparallel, ?_⟩
  intro urls' hurls'
  have hlisted : Stored jansson t' ['a']
      (toggle true (callbackUrl 81 ['a']) [callbackUrl 82 ['a']]) := by
    rw [Stored, hat'.map_eq, KvMap.put]
    simpa using hy
  rw [hurls'.unique hlisted, mem_toggle, if_neg (by simp [callbackUrl_inj])]
  simp [callbackUrl_inj]

/-! ### Sessions -/

theorem sessionEdit_nul {sessKey : Text} (hnul : Char.ofNat 0 ∈ sessKey) (edit : SessionEdit)
    (stamp : Int32) :
  sessionEdit js sessKey edit stamp = .raise
  := by
  have hget := kvGet_sessions_nul hnul
  cases edit with
  | set key value => simp [sessionEdit, sessionSet, hget]
  | unset key => simp [sessionEdit, sessionUnset, hget]

theorem SessionMap.edit_self {m : SessionMap} {edit : SessionEdit} :
  m.edit edit edit.key = edit.value
  := Function.update_self ..

theorem SessionMap.edit_of_ne {m : SessionMap} {edit : SessionEdit} {key : Text}
    (h : key ≠ edit.key) :
  m.edit edit key = m key
  := Function.update_of_ne h ..

/-- **Two requests of one session**: when changes of different keys that are made at the same time
have returned, every other key is as before, each of the two keys is as before or changed, and at
least one is changed.  Both are changed when the statements are not mixed. -/
theorem sessions_overlap (hjs : js.Lawful) (hloads : js.loads [] = none) {t t' : Table}
    (hu : t.Unique) {sessKey : Text} (hsess : sessKey ≠ []) {m : SessionMap}
    (hm : SessionValue js (t.toMap.value sessions sessKey) m) {edit edit' : SessionEdit}
    (hkeys : edit.key ≠ edit'.key) (hfits : edit.Fits) (hfits' : edit'.Fits)
    {stamp stamp' : Int32} {w : List Bool}
    (h : Parallel serve w (sessionEdit js sessKey edit stamp) (sessionEdit js sessKey edit' stamp')
      t (some ()) (some ()) t') :
  ∃ m', SessionValue js (t'.toMap.value sessions sessKey) m'
    ∧ (∀ key, key ≠ edit.key → key ≠ edit'.key → m' key = m key)
    ∧ (m' edit.key = edit.value ∨ m' edit.key = m edit.key)
    ∧ (m' edit'.key = edit'.value ∨ m' edit'.key = m edit'.key)
    ∧ (m' edit.key = edit.value ∨ m' edit'.key = edit'.value)
    ∧ (Ordered w → m' edit.key = edit.value ∧ m' edit'.key = edit'.value)
  := by
  by_cases hnul : Char.ofNat 0 ∈ sessKey
  · rw [sessionEdit_nul hnul] at h
    cases (h.runs_right rfl).1
  · have place := place_sessions hsess hnul
    obtain ⟨-, -, x, m', hat, hx, hcombined⟩ :=
      Updates.parallel place (updates_sessionEdit hjs hloads place hfits stamp)
        (updates_sessionEdit hjs hloads place hfits' stamp') (has_self hu) hm h
    have hvalue : SessionValue js (t'.toMap.value sessions sessKey) m' := by
      rw [hat.map_eq, KvMap.put]
      simpa using hx
    refine ⟨m', hvalue, ?_⟩
    rcases hcombined with rfl | rfl | ⟨hmixed, -, -, rfl | rfl⟩
    · beta_reduce
      rw [SessionMap.edit_of_ne hkeys, SessionMap.edit_self, SessionMap.edit_self]
      refine ⟨?_, Or.inl rfl, Or.inl rfl, Or.inl rfl, fun _ => ⟨rfl, rfl⟩⟩
      intro key hkey hkey'
      rw [SessionMap.edit_of_ne hkey', SessionMap.edit_of_ne hkey]
    · beta_reduce
      rw [SessionMap.edit_of_ne hkeys.symm, SessionMap.edit_self, SessionMap.edit_self]
      refine ⟨?_, Or.inl rfl, Or.inl rfl, Or.inl rfl, fun _ => ⟨rfl, rfl⟩⟩
      intro key hkey hkey'
      rw [SessionMap.edit_of_ne hkey, SessionMap.edit_of_ne hkey']
    · beta_reduce
      rw [SessionMap.edit_of_ne hkeys.symm, SessionMap.edit_self]
      refine ⟨?_, Or.inl rfl, Or.inr rfl, Or.inl rfl, fun hw => absurd hw hmixed⟩
      intro key hkey _
      rw [SessionMap.edit_of_ne hkey]
    · beta_reduce
      rw [SessionMap.edit_of_ne hkeys, SessionMap.edit_self]
      refine ⟨?_, Or.inr rfl, Or.inl rfl, Or.inr rfl, fun hw => absurd hw hmixed⟩
      intro key _ hkey'
      rw [SessionMap.edit_of_ne hkey']

/-- A table with a session that has only a stamp. -/
def oneSession : Table :=
  [⟨some sessions, some ['s'], some "\x7b\"stamp\":1\x7d".toList⟩]

theorem value_oneSession :
  oneSession.toMap.value sessions ['s'] = some (some "\x7b\"stamp\":1\x7d".toList)
  := by decide

theorem unique_oneSession :
  oneSession.Unique
  := List.pairwise_singleton _ _

theorem decodes_oneSession :
  Decodes jansson (oneSession.toMap.value sessions ['s']) [(stampKey, .int 1)]
  := by
  rw [value_oneSession]
  refine Or.inr ⟨_, rfl, ?_⟩
  decide +kernel

theorem sessionValue_oneSession :
  SessionValue jansson (oneSession.toMap.value sessions ['s']) (fun _ => none)
  := by
  refine ⟨_, decodes_oneSession, ?_⟩
  exact Entries.empty.stamp 1

/-- Two requests set two keys, one after the other. -/
theorem sessions_overlap_ordered :
  ∃ w t', Parallel serve w (sessionEdit jansson ['s'] (.set ['a'] (.int 1)) 5)
      (sessionEdit jansson ['s'] (.set ['b'] (.int 2)) 6) oneSession (some ()) (some ()) t'
    ∧ ∃ m', SessionValue jansson (t'.toMap.value sessions ['s']) m'
      ∧ (∀ key, key ≠ ['a'] → key ≠ ['b'] → m' key = none)
      ∧ m' ['a'] = some (.int 1) ∧ m' ['b'] = some (.int 2)
  := by
  have place : Place sessions ['s'] := place_sessions (by decide) (by decide)
  have hfits : SessionEdit.Fits (.set ['a'] (.int 1)) := ⟨by decide, .int (by decide)⟩
  have hfits' : SessionEdit.Fits (.set ['b'] (.int 2)) := ⟨by decide, .int (by decide)⟩
  obtain ⟨out, u, hruns⟩ :=
    exists_runs exists_serve (sessionEdit jansson ['s'] (.set ['a'] (.int 1)) 5) oneSession
  obtain ⟨rfl, x, hat, hx⟩ := (updates_sessionEdit lawful_jansson (by decide) place hfits 5).runs
    place (has_self unique_oneSession) sessionValue_oneSession hruns
  obtain ⟨out', t', hruns'⟩ :=
    exists_runs exists_serve (sessionEdit jansson ['s'] (.set ['b'] (.int 2)) 6) u
  obtain ⟨rfl, -⟩ := (updates_sessionEdit lawful_jansson (by decide) place hfits' 6).runs
    place hat hx hruns'
  obtain ⟨w, hw, hparallel⟩ := hruns.parallel hruns'
  obtain ⟨m', hm', hothers, -, -, -, hboth⟩ :=
    sessions_overlap lawful_jansson (by decide) unique_oneSession (by decide)
      sessionValue_oneSession (by decide) hfits hfits' hparallel
  obtain ⟨ha, hb⟩ := hboth (Or.inr hw)
  exact ⟨w, t', hparallel, m', hm', hothers, ha, hb⟩

/-- When two requests read the session before they write it, the first change is lost. -/
theorem session_update_lost :
  ∃ t', Parallel serve [true, false, true, false]
      (sessionEdit jansson ['s'] (.set ['a'] (.int 1)) 5)
      (sessionEdit jansson ['s'] (.set ['b'] (.int 2)) 6) oneSession (some ()) (some ()) t'
    ∧ ∀ m', SessionValue jansson (t'.toMap.value sessions ['s']) m' →
      ¬ (m' ['a'] = some (.int 1) ∧ m' ['b'] = some (.int 2))
  := by
  have place : Place sessions ['s'] := place_sessions (by decide) (by decide)
  have hfits : SessionEdit.Fits (.set ['a'] (.int 1)) := ⟨by decide, .int (by decide)⟩
  have hfits' : SessionEdit.Fits (.set ['b'] (.int 2)) := ⟨by decide, .int (by decide)⟩
  have hset : ∀ key value, key ≠ stampKey → ∀ e : Edit,
      SessionValue jansson (e.apply (oneSession.toMap.value sessions ['s']))
        (SessionMap.edit (fun _ => none) (.set key value)) →
      ∃ text, e = .set text := by
    rintro key value hstamp e ⟨members, hdecodes, hentries⟩
    have hmem : key ∈ members.map Prod.fst := by
      by_contra hmissing
      have hnone := hentries.missing key hstamp hmissing
      have hsome : SessionMap.edit (fun _ => none) (.set key value) key = some value :=
        SessionMap.edit_self
      cases hsome.symm.trans hnone
    cases e with
    | keep =>
        rw [hdecodes.unique decodes_oneSession] at hmem
        exact absurd (List.mem_singleton.mp hmem) hstamp
    | set text => exact ⟨text, rfl⟩
    | del =>
        rcases hdecodes with ⟨-, rfl⟩ | ⟨text, htext, -⟩
        · cases hmem
        · cases htext
  have hat : Has oneSession.toMap sessions ['s'] oneSession _ := has_self unique_oneSession
  have hvalue := sessionValue_oneSession
  rw [value_oneSession] at hat hvalue hset
  obtain ⟨t', y, hparallel, hat', members, hdecodes, hentries⟩ := Updates.exists_lost place
    (updates_sessionEdit lawful_jansson (by decide) place hfits 5)
    (updates_sessionEdit lawful_jansson (by decide) place hfits' 6)
    hat hvalue (hset _ _ (by decide)) (hset _ _ (by decide))
  refine ⟨t', hparallel, ?_⟩
  rintro m' ⟨members', hdecodes', hentries'⟩ ⟨ha, -⟩
  have hmap : t'.toMap.value sessions ['s'] = y := by
    rw [hat'.map_eq, KvMap.put]
    simp
  rw [hmap] at hdecodes'
  obtain rfl := hdecodes.unique hdecodes'
  have hmissing : ['a'] ∉ members.map Prod.fst := by
    intro hmem
    obtain ⟨n, hn, hkey⟩ := List.mem_map.mp hmem
    obtain ⟨v, hv, -⟩ := hentries.same n hn (by rw [hkey]; decide)
    rw [hkey] at hv
    cases hv
  rw [hentries'.missing ['a'] (by decide) hmissing] at ha
  cases ha

end Gusher
