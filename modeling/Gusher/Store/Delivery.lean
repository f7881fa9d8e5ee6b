import Gusher.Store.Publish
import Gusher.Store.Registry

/-!
# The delivery of messages

Applications are started, stopped and restarted, subscribe to keys and leave them.  A message that
is published should reach the handler of each application that subscribes to the key, and no other.
But `msg-publish` posts the message as it is, and the responders decode what they get as JSON: so
a message reaches its subscribers only when there are none.
-/

namespace Gusher

/-! ### Several applications -/

/-- `set_handler`, on the list of handlers: `qsort` may leave entries whose paths have the same
length in any order. -/
def SetsHandler (loc : Locale) (handlers : List HandlerEntry) (path : Text) (lambda : Scm)
    (handlers' : List HandlerEntry) : Prop :=
  ∃ p, loc.encode path = some p ∧ handlers'.Perm (⟨p, lambda⟩ :: handlers)
    ∧ handlers'.Pairwise (fun e e' => e'.path.length ≤ e.path.length)

/-- The table of the key-value store, and the applications that run, by their ports. -/
structure World where
  table : Table
  apps : ℕ → Option App

/-- What happens to them; the start of an application that runs is a restart. -/
inductive MsgEvent where
  | start (port : ℕ)
  | stop (port : ℕ)
  | subscribe (port : ℕ) (key : Text)
  | unsubscribe (port : ℕ) (key : Text)
  | publish (key : Text) (msg : Scm)
  deriving DecidableEq

/-- A symbol of letters and digits. -/
def IsKey (key : Text) : Prop :=
  key ≠ [] ∧ ∀ c ∈ key, c.isAlphanum = true

/-- The keys of the event are symbols of letters and digits. -/
def MsgEvent.HasKey : MsgEvent → Prop
  | subscribe _ key | unsubscribe _ key | publish key _ => IsKey key
  | _ => True

section

variable (loc : Locale) (js : Jansson) (lib : PostLibrary)

/-- One event, from its beginning to its end, and the calls of handlers that it leads to. -/
inductive Step (w : World) : MsgEvent → World → List Call → Prop
  | start (port : ℕ) :
      Step w (.start port) { w with apps := Function.update w.apps port (some ⟨[], []⟩) } []
  | stop (port : ℕ) :
      Step w (.stop port) { w with apps := Function.update w.apps port none } []
  | subscribe {port : ℕ} {key : Text} {app : App} {t : Table} {handlers : List HandlerEntry}
      (hrunning : w.apps port = some app)
      (hregister : Proc.Runs serve (msgSubscribe js port key) w.table (some ()) t)
      (hhttp : SetsHandler loc app.handlers (msgCallbackPath key) (.other app.keys.length)
        handlers) :
      Step w (.subscribe port key)
        ⟨t, Function.update w.apps port (some ⟨handlers, app.keys ++ [key]⟩)⟩ []
  | unsubscribe {port : ℕ} {key : Text} {app : App} {t : Table} (hrunning : w.apps port = some app)
      (hregister : Proc.Runs serve (msgUnsubscribe js port key) w.table (some ()) t) :
      Step w (.unsubscribe port key) { w with table := t } []
  | publish {key : Text} {msg callbacks : Scm} {t : Table}
      (hget : Proc.Runs serve (msgGetCallbacks js key) w.table (some callbacks) t) :
      Step w (.publish key msg) { w with table := t } (publishEach loc js lib w.apps msg callbacks).1

/-- The events that lead from a table, when no application runs, to a world. -/
inductive History (t : Table) : List MsgEvent → World → Prop
  | nil : History t [] ⟨t, fun _ => none⟩
  | snoc {events : List MsgEvent} {event : MsgEvent} {w w' : World} {calls : List Call}
      (hevents : History t events w) (hstep : Step loc js lib w event w' calls) :
      History t (events ++ [event]) w'

end

/-! ### Subscribers -/

/-- The event decides whether the application subscribes to the key. -/
def MsgEvent.About (port : ℕ) (key : Text) : MsgEvent → Prop
  | start port' | stop port' => port' = port
  | subscribe port' key' | unsubscribe port' key' => port' = port ∧ key' = key
  | publish _ _ => False

instance (port : ℕ) (key : Text) (a : MsgEvent) : Decidable (a.About port key) :=
  match a with
  | .start port' | .stop port' => inferInstanceAs (Decidable (port' = port))
  | .subscribe port' key' | .unsubscribe port' key' =>
      inferInstanceAs (Decidable (port' = port ∧ key' = key))
  | .publish _ _ => inferInstanceAs (Decidable False)

/-- The application runs and subscribes to the key: it has not left since it subscribed, and has
not been stopped or restarted. -/
def Subscribes (events : List MsgEvent) (port : ℕ) (key : Text) : Prop :=
  (events.filter (fun a => a.About port key)).getLast? = some (.subscribe port key)

theorem subscribes_append {events : List MsgEvent} {a : MsgEvent} {port : ℕ} {key : Text} :
  Subscribes (events ++ [a]) port key
    ↔ if a.About port key then a = .subscribe port key else Subscribes events port key
  := by
  rw [Subscribes, List.filter_append]
  split
  case isTrue h => simp [h]
  case isFalse h =>
      rw [List.filter_cons_of_neg (by simpa using h), List.filter_nil, List.append_nil]
      rfl

theorem IsKey.no_nul {key : Text} (h : IsKey key) :
  Char.ofNat 0 ∉ key
  := fun hmem => absurd (h.2 _ hmem) (by decide)

/-- The URL of the application is stored under the key. -/
def IsListed (js : Jansson) (t : Table) (port : ℕ) (key : Text) : Prop :=
  ∃ urls, Stored js t key urls ∧ callbackUrl port key ∈ urls

section

variable {loc : Locale} {js : Jansson} {lib : PostLibrary} {t : Table} {r : Registry} {port : ℕ}
  {key : Text}

/-- The applications that are listed are those of the registry. -/
theorem Registered.isListed_iff (h : Registered js t r) :
  IsListed js t port key ↔ port ∈ r key
  := by
  constructor
  · rintro ⟨urls, hurls, hmem⟩
    exact (h.lists_of_stored hurls).callbackUrl_mem.mp hmem
  · intro hport
    obtain ⟨urls, hurls, hlists⟩ := h.lists key
    exact ⟨urls, hurls, hlists.callbackUrl_mem.mpr hport⟩

/-- `msg-get-callbacks` reads the stored list. -/
theorem Registered.runs_msgGetCallbacks (h : Registered js t r) (hkey : IsKey key)
    {out : Option Scm} {t' : Table} (hruns : Proc.Runs serve (msgGetCallbacks js key) t out t') :
  t' = t ∧ ∃ urls, Stored js t key urls ∧ out = some (urlList urls)
  := by
  have place := place_subscriptions hkey.1 hkey.no_nul
  obtain ⟨urls, hurls, -⟩ := h.lists key
  rw [msgGetCallbacks_eq place] at hruns
  obtain ⟨result, u, hserve, hrest⟩ := hruns
  obtain ⟨rfl, hcell⟩ := serve_selectValue h.unique hserve
  rw [(has_self h.unique).lookup_eq place] at hcell
  dsimp only at hrest
  rw [hcell, Listed.decodeOr_eq hurls] at hrest
  obtain ⟨rfl, rfl⟩ := hrest
  exact ⟨rfl, urls, hurls, rfl⟩

/-- The applications after one has changed. -/
theorem eq_some_of_update {apps : ℕ → Option App} {port port' : ℕ} {app? : Option App} {app : App}
    (h : Function.update apps port app? port' = some app) :
  port' = port ∧ app? = some app ∨ apps port' = some app
  := by
  by_cases hsame : port' = port
  · subst hsame
    rw [Function.update_self] at h
    exact Or.inl ⟨rfl, h⟩
  · rw [Function.update_of_ne hsame] at h
    exact Or.inr h

/-- What holds of a world after some events. -/
structure World.After (loc : Locale) (js : Jansson) (events : List MsgEvent) (w : World)
    (r : Registry) : Prop where
  registered : Registered js w.table r
  routes : ∀ port app, w.apps port = some app → app.Routes loc
  /-- the path of a key to which someone subscribes is encoded -/
  path : ∀ port key, port ∈ r key → (loc.encode (msgCallbackPath key)).isSome
  /-- an application that is listed, and has a handler, subscribes -/
  subscribes : ∀ port key app, port ∈ r key → w.apps port = some app → key ∈ app.keys →
    Subscribes events port key

/-- The list of handlers with a new responder. -/
theorem App.Routes.subscribe {app : App} (h : app.Routes loc)
    {handlers : List HandlerEntry}
    (hhttp : SetsHandler loc app.handlers (msgCallbackPath key) (.other app.keys.length) handlers) :
  App.Routes loc ⟨handlers, app.keys ++ [key]⟩
  := by
  obtain ⟨p, hp, hperm, -⟩ := hhttp
  constructor
  case entry =>
      intro e he
      obtain rfl | he := List.mem_cons.mp (hperm.mem_iff.mp he)
      · exact ⟨_, key, rfl, by simp, hp⟩
      · obtain ⟨i, key', hhandler, hkey', hp'⟩ := h.entry e he
        refine ⟨i, key', hhandler, ?_, hp'⟩
        rw [List.getElem?_append_left (List.getElem?_eq_some_iff.mp hkey').1, hkey']
  case handled =>
      intro key' hkey'
      obtain hkey' | hkey' := List.mem_append.mp hkey'
      · obtain ⟨e, he, hp'⟩ := h.handled key' hkey'
        exact ⟨e, hperm.mem_iff.mpr (List.mem_cons_of_mem _ he), hp'⟩
      · obtain rfl := List.mem_singleton.mp hkey'
        exact ⟨⟨p, _⟩, hperm.mem_iff.mpr List.mem_cons_self, hp⟩

namespace World.After

variable {events : List MsgEvent} {w w' : World} {t' : Table} {app : App}

/-- No application runs, and nobody subscribes. -/
theorem nil (hu : t.Unique) (hempty : ∀ row ∈ t, row.ns ≠ some subscriptions) :
  After loc js [] ⟨t, fun _ => none⟩ (fun _ => ∅)
  where
  registered := registered_empty hu hempty
  routes _ _ happ := by cases happ
  path _ _ hport := hport.elim
  subscribes _ _ _ hport := hport.elim

/-- An application is started, restarted or stopped; a new one has no handlers. -/
theorem update_apps (h : After loc js events w r) {a : MsgEvent}
    (ha : ∀ port' key, a.About port' key → port' = port) {app? : Option App}
    (happ : ∀ app ∈ app?, app = ⟨[], []⟩) :
  After loc js (events ++ [a]) { w with apps := Function.update w.apps port app? } r
  where
  registered := h.registered
  routes port' app hport' := by
    obtain ⟨-, hsome⟩ | hport' := eq_some_of_update hport'
    · obtain rfl := happ app hsome
      constructor
      case entry =>
          intro e he
          cases he
      case handled =>
          intro key hkey
          cases hkey
    · exact h.routes port' app hport'
  path := h.path
  subscribes port' key app hlisted hport' hkey := by
    rw [subscribes_append]
    by_cases hsame : port' = port
    · subst hsame
      obtain rfl := happ app (by simpa using hport')
      cases hkey
    · rw [if_neg (fun habout => hsame (ha _ _ habout))]
      exact h.subscribes port' key app hlisted (by simpa [hsame] using hport') hkey

/-- An application subscribes. -/
theorem subscribe (h : After loc js events w r) (hjs : js.Lawful) (hkey : IsKey key)
    {handlers : List HandlerEntry} (hrunning : w.apps port = some app)
    (hregister : Proc.Runs serve (msgSubscribe js port key) w.table (some ()) t')
    (hhttp : SetsHandler loc app.handlers (msgCallbackPath key) (.other app.keys.length) handlers) :
  After loc js (events ++ [.subscribe port key])
    ⟨t', Function.update w.apps port (some ⟨handlers, app.keys ++ [key]⟩)⟩
    (r.after port (.subscribe key))
  where
  registered := (h.registered.subscribe hjs hkey.1 hkey.no_nul hregister).2
  routes port' app' hport' := by
    obtain ⟨-, hsome⟩ | hport' := eq_some_of_update hport'
    · obtain rfl := Option.some.inj hsome
      exact (h.routes _ _ hrunning).subscribe hhttp
    · exact h.routes port' app' hport'
  path port' key' hport' := by
    rw [@mem_after r (port, .subscribe key)] at hport'
    split at hport'
    case isTrue habout =>
        obtain ⟨p, hp, -⟩ := hhttp
        rw [← habout.2, hp]
        rfl
    case isFalse => exact h.path port' key' hport'
  subscribes port' key' app' hlisted hport' hkey' := by
    rw [subscribes_append]
    split
    case isTrue habout => rw [habout.1, habout.2]
    case isFalse habout =>
        rw [@mem_after r (port, .subscribe key), if_neg (by exact habout)] at hlisted
        obtain ⟨rfl, hsome⟩ | hport' := eq_some_of_update hport'
        · obtain rfl := Option.some.inj hsome
          obtain hkey' | hkey' := List.mem_append.mp hkey'
          · exact h.subscribes _ key' app hlisted hrunning hkey'
          · exact absurd ⟨rfl, (List.mem_singleton.mp hkey').symm⟩ habout
        · exact h.subscribes port' key' app' hlisted hport' hkey'

/-- An application leaves. -/
theorem unsubscribe (h : After loc js events w r) (hjs : js.Lawful) (hkey : IsKey key)
    (hregister : Proc.Runs serve (msgUnsubscribe js port key) w.table (some ()) t') :
  After loc js (events ++ [.unsubscribe port key]) { w with table := t' }
    (r.after port (.unsubscribe key))
  where
  registered := (h.registered.unsubscribe hjs hkey.1 hkey.no_nul hregister).2
  routes := h.routes
  path port' key' hport' := by
    rw [@mem_after r (port, .unsubscribe key)] at hport'
    split at hport'
    case isTrue => cases hport'
    case isFalse => exact h.path port' key' hport'
  subscribes port' key' app' hlisted hport' hkey' := by
    rw [@mem_after r (port, .unsubscribe key)] at hlisted
    rw [subscribes_append]
    split at hlisted
    case isTrue => cases hlisted
    case isFalse habout =>
        rw [if_neg (by exact habout)]
        exact h.subscribes port' key' app' hlisted hport' hkey'

/-- A message is published. -/
theorem publish (h : After loc js events w r) (hkey : IsKey key) {msg callbacks : Scm}
    (hget : Proc.Runs serve (msgGetCallbacks js key) w.table (some callbacks) t') :
  After loc js (events ++ [.publish key msg]) { w with table := t' } r
  := by
  obtain ⟨rfl, -⟩ := h.registered.runs_msgGetCallbacks hkey hget
  constructor
  case registered => exact h.registered
  case routes => exact h.routes
  case path => exact h.path
  case subscribes =>
      intro port' key' app' hlisted hport' hkey'
      rw [subscribes_append, if_neg (by exact id)]
      exact h.subscribes port' key' app' hlisted hport' hkey'

/-- One event. -/
theorem step (h : After loc js events w r) (hjs : js.Lawful) {a : MsgEvent} (ha : a.HasKey)
    {calls : List Call} (hstep : Step loc js lib w a w' calls) :
  ∃ r', After loc js (events ++ [a]) w' r'
  := by
  cases hstep with
  | start port =>
      refine ⟨r, h.update_apps ?_ (by simp)⟩
      intro _ _ habout
      exact Eq.symm habout
  | stop port =>
      refine ⟨r, h.update_apps ?_ (by simp)⟩
      intro _ _ habout
      exact Eq.symm habout
  | subscribe hrunning hregister hhttp => exact ⟨_, h.subscribe hjs ha hrunning hregister hhttp⟩
  | unsubscribe hrunning hregister => exact ⟨_, h.unsubscribe hjs ha hregister⟩
  | publish hget => exact ⟨r, h.publish ha hget⟩

end World.After

/-- What holds after any events. -/
theorem History.after (hjs : js.Lawful) (hu : t.Unique)
    (hempty : ∀ row ∈ t, row.ns ≠ some subscriptions) {events : List MsgEvent} {w : World}
    (hevents : ∀ a ∈ events, a.HasKey) (h : History loc js lib t events w) :
  ∃ r, World.After loc js events w r
  := by
  induction h with
  | nil => exact ⟨_, .nil hu hempty⟩
  | snoc hprevious hstep ih =>
      obtain ⟨r, hr⟩ := ih (fun a ha => hevents a (List.mem_append_left _ ha))
      exact hr.step hjs (hevents _ (by simp)) hstep

end

/-! ### Delivery -/

/-- The value is the message, up to what JSON makes of it. -/
def IsMessage (msg value : Scm) : Prop :=
  ∃ j, jsonBuild msg = some (some j) ∧ Scm.Same (jsonParse j) value

/-- Each application that subscribes is called once, with the message, and no handler for another
key is called. -/
structure Delivered (events : List MsgEvent) (key : Text) (msg : Scm) (calls : List Call) : Prop where
  once : ∀ port, Subscribes events port key →
    ∃ value, IsMessage msg value ∧ calls.filter (·.port = port) = [⟨port, key, value⟩]
  own : ∀ call ∈ calls, call.key = key

section

variable {loc : Locale} {js : Jansson} {lib : PostLibrary} {code : Char → Option (List UInt8)}
  {msg value : Scm}

/-- `json-decode` gives no strings. -/
theorem jsonDecode_ne_str (hjs : js.Lawful) {json : Scm} (h : js.jsonDecode json = some value)
    (s : Text) :
  value ≠ .str s
  := by
  rintro rfl
  cases json with
  | str t =>
      obtain ⟨buf, -, hbuf⟩ := Option.map_eq_some_iff.mp h
      split at hbuf
      case h_1 => cases hbuf
      case h_2 root hloads =>
          have hcontainer := (hjs.loads_wf hloads).2
          rw [eq_of_jsonParse_str hbuf] at hcontainer
          cases hcontainer
  | _ => cases h

/-- What is read back from a post is not the message. -/
theorem not_isMessage_str (hjs : js.Lawful) {text : Text} (h : postedValue loc js text = some value) :
  ¬ IsMessage (.str text) value
  := by
  rintro ⟨j, hbuild, hsame⟩
  have hj : j = .str text := by
    rw [jsonBuild, jsonString] at hbuild
    split at hbuild
    case isTrue => cases hbuild
    case isFalse => exact (Option.some.inj (Option.some.inj hbuild)).symm
  obtain ⟨query, -, hdecode⟩ := Option.bind_eq_some_iff.mp h
  apply jsonDecode_ne_str hjs hdecode text
  exact (hsame.str_iff text).mp (by rw [hj, jsonParse])

theorem no_nul_of_jsonBuild {text : Text} {j : Json} (h : jsonBuild (.str text) = some (some j)) :
  Char.ofNat 0 ∉ text
  := by
  intro hnul
  rw [jsonBuild, jsonString, if_pos hnul] at h
  cases h

variable {t : Table} {r : Registry} {events : List MsgEvent} {w w' : World} {key text : Text}
  {calls : List Call}

/-- The calls when a string is published: those of the handlers that the listed applications have
for the beginnings of the key. -/
theorem World.After.mem_publish (hlib : lib.Percent) (h : w.After loc js events r) (hkey : IsKey key)
    (hnul : Char.ofNat 0 ∉ text) (hstep : Step loc js lib w (.publish key (.str text)) w' calls)
    {call : Call} :
  call ∈ calls ↔ ∃ port app, IsListed js w.table port key ∧ w.apps port = some app ∧
    call ∈ app.receive loc js port (msgCallbackPath key) (postedText text)
  := by
  cases hstep with
  | publish hget =>
      obtain ⟨-, urls, hurls, hcallbacks⟩ := h.registered.runs_msgGetCallbacks hkey hget
      obtain rfl := Option.some.inj hcallbacks
      have hlists := h.registered.lists_of_stored hurls
      have hports : ∀ url ∈ urls, ∃ port, url = callbackUrl port key := by
        intro url hurl
        obtain ⟨port, -, heq⟩ := (hlists.mem_iff url).mp hurl
        exact ⟨port, heq⟩
      rw [mem_publishEach hlib hnul hkey.no_nul hports]
      simp only [h.registered.isListed_iff, hlists.callbackUrl_mem]

theorem calls_eq_nil (hmsg : ∀ s, msg ≠ .str s)
    (hstep : Step loc js lib w (.publish key msg) w' calls) :
  calls = []
  := by
  cases hstep with
  | publish hget => exact publishEach_ne_str hmsg _

/-- No application that subscribes gets the message. -/
theorem not_delivered_of_subscribes (hjs : js.Lawful) (hloc : loc.Charwise code) (hlib : lib.Percent)
    (h : w.After loc js events r) (hkey : IsKey key) {j : Json}
    (hmsg : jsonBuild msg = some (some j)) (hstep : Step loc js lib w (.publish key msg) w' calls)
    {port : ℕ} (hsubscribes : Subscribes events port key) :
  ¬ Delivered events key msg calls
  := by
  intro hdelivered
  obtain ⟨value, hvalue, hcalls⟩ := hdelivered.once port hsubscribes
  have hcall : (⟨port, key, value⟩ : Call) ∈ calls := by
    apply List.mem_of_mem_filter
    rw [hcalls]
    exact List.mem_singleton_self _
  by_cases hstr : ∃ s, msg = .str s
  · obtain ⟨text, rfl⟩ := hstr
    obtain ⟨port', app, -, happ, hreceive⟩ :=
      (h.mem_publish hlib hkey (no_nul_of_jsonBuild hmsg) hstep).mp hcall
    obtain ⟨-, -, -, hposted⟩ := (h.routes port' app happ).of_mem_receive hloc hreceive
    exact not_isMessage_str hjs hposted hvalue
  · rw [calls_eq_nil (not_exists.mp hstr) hstep] at hcall
    cases hcall

/-- **Publishing** a message under a key delivers it exactly when no application subscribes to the
key and, if the message is a string that is read back, no application that is listed under the key
has a handler for another key with which it begins. -/
theorem delivered_iff (hjs : js.Lawful) (hloc : loc.Charwise code) (hlib : lib.Percent) (hu : t.Unique)
    (hempty : ∀ row ∈ t, row.ns ≠ some subscriptions) (hevents : ∀ a ∈ events, a.HasKey)
    (hhistory : History loc js lib t events w) (hkey : IsKey key) {j : Json}
    (hmsg : jsonBuild msg = some (some j)) (hstep : Step loc js lib w (.publish key msg) w' calls) :
  Delivered events key msg calls
    ↔ (∀ port, ¬ Subscribes events port key) ∧
      ∀ text, msg = .str text → (postedValue loc js text).isSome →
        ∀ port app, IsListed js w.table port key → w.apps port = some app →
          ∀ key' ∈ app.keys, key' <+: key → key' = key
  := by
  obtain ⟨r, h⟩ := hhistory.after hjs hu hempty hevents
  constructor
  · intro hdelivered
    have hnobody : ∀ port, ¬ Subscribes events port key := fun port hsubscribes =>
      not_delivered_of_subscribes hjs hloc hlib h hkey hmsg hstep hsubscribes hdelivered
    refine ⟨hnobody, ?_⟩
    rintro text rfl hvalue port app hlisted happ key' hkey' hbegin
    have hport := h.registered.isListed_iff.mp hlisted
    obtain ⟨call, hcall⟩ := (h.routes port app happ).exists_receive hloc (h.path port key hport)
      hkey' hbegin hvalue
    obtain ⟨-, hhandled, -⟩ := (h.routes port app happ).of_mem_receive hloc hcall
    have hmem := (h.mem_publish hlib hkey (no_nul_of_jsonBuild hmsg) hstep).mpr
      ⟨port, app, hlisted, happ, hcall⟩
    rw [hdelivered.own call hmem] at hhandled
    exact absurd (h.subscribes port key app hport happ hhandled) (hnobody port)
  · rintro ⟨hnobody, hown⟩
    constructor
    case once => exact fun port hsubscribes => absurd hsubscribes (hnobody port)
    case own =>
        intro call hcall
        by_cases hstr : ∃ s, msg = .str s
        · obtain ⟨text, rfl⟩ := hstr
          obtain ⟨port, app, hlisted, happ, hreceive⟩ :=
            (h.mem_publish hlib hkey (no_nul_of_jsonBuild hmsg) hstep).mp hcall
          obtain ⟨-, hkeys, hbegin, hvalue⟩ :=
            (h.routes port app happ).of_mem_receive hloc hreceive
          exact hown text rfl (by rw [hvalue]; rfl) port app hlisted happ _ hkeys hbegin
        · rw [calls_eq_nil (not_exists.mp hstr) hstep] at hcall
          cases hcall

end

theorem isKey_a :
  IsKey ['a']
  := by
  refine ⟨List.cons_ne_nil _ _, ?_⟩
  intro c hc
  obtain rfl := List.mem_singleton.mp hc
  rfl

/-- An application is started and subscribes, and a message is published. -/
theorem exists_publish {key : Text} (hkey : IsKey key) (msg : Scm) :
  ∃ w w' calls, History utf8 jansson curlLibrary [] [.start 80, .subscribe 80 ['a']] w
    ∧ Step utf8 jansson curlLibrary w (.publish key msg) w' calls
  := by
  obtain ⟨out, t', hregister⟩ := Proc.exists_runs exists_serve (msgSubscribe jansson 80 ['a']) []
  have hempty : Registered jansson [] (fun _ => ∅) :=
    registered_empty List.Pairwise.nil (by simp)
  obtain ⟨rfl, hregistered⟩ :=
    hempty.subscribe lawful_jansson isKey_a.1 isKey_a.no_nul hregister
  obtain ⟨out, t'', hget⟩ := Proc.exists_runs exists_serve (msgGetCallbacks jansson key) t'
  obtain ⟨-, urls, -, rfl⟩ := hregistered.runs_msgGetCallbacks hkey hget
  have hhttp : SetsHandler utf8 [] (msgCallbackPath ['a']) (.other 0)
      [⟨encodeUtf8 (msgCallbackPath ['a']), .other 0⟩] :=
    ⟨_, rfl, List.Perm.refl _, List.pairwise_singleton _ _⟩
  have hnil : History utf8 jansson curlLibrary [] [] ⟨[], fun _ => none⟩ := .nil
  have hstart := hnil.snoc (.start 80)
  have hsubscribe := hstart.snoc (Step.subscribe (Function.update_self ..) hregister hhttp)
  exact ⟨_, _, _, hsubscribe, .publish hget⟩

theorem hasKey_subscribe_a :
  ∀ a ∈ [MsgEvent.start 80, .subscribe 80 ['a']], a.HasKey
  := by
  rw [List.forall_mem_cons, List.forall_mem_singleton]
  exact ⟨trivial, isKey_a⟩

/-- A list is published under a key to which nobody subscribes. -/
theorem delivered_iff_list :
  ∃ w w' calls, History utf8 jansson curlLibrary [] [.start 80, .subscribe 80 ['a']] w
    ∧ Step utf8 jansson curlLibrary w (.publish ['b'] (.pair (.int 1) .nil)) w' calls
    ∧ Delivered [.start 80, .subscribe 80 ['a']] ['b'] (.pair (.int 1) .nil) calls
  := by
  have hkey : IsKey ['b'] := by
    refine ⟨List.cons_ne_nil _ _, ?_⟩
    intro c hc
    obtain rfl := List.mem_singleton.mp hc
    rfl
  obtain ⟨w, w', calls, hhistory, hstep⟩ := exists_publish hkey (.pair (.int 1) .nil)
  refine ⟨w, w', calls, hhistory, hstep, ?_⟩
  apply (delivered_iff lawful_jansson charwise_utf8 percent_curlLibrary List.Pairwise.nil (by simp)
    hasKey_subscribe_a hhistory hkey (j := .arr [.int 1]) rfl hstep).mpr
  refine ⟨?_, fun text htext => nomatch htext⟩
  intro port hsubscribes
  have hmem := List.mem_of_getLast? hsubscribes
  simp at hmem

/-- The list does not arrive. -/
theorem list_not_delivered :
  ∃ w w' calls, History utf8 jansson curlLibrary [] [.start 80, .subscribe 80 ['a']] w
    ∧ Step utf8 jansson curlLibrary w (.publish ['a'] (.pair (.int 1) .nil)) w' calls
    ∧ Subscribes [.start 80, .subscribe 80 ['a']] 80 ['a']
    ∧ ¬ Delivered [.start 80, .subscribe 80 ['a']] ['a'] (.pair (.int 1) .nil) calls
  := by
  obtain ⟨w, w', calls, hhistory, hstep⟩ := exists_publish isKey_a (.pair (.int 1) .nil)
  have hsubscribes : Subscribes [.start 80, .subscribe 80 ['a']] 80 ['a'] := rfl
  obtain ⟨r, h⟩ := hhistory.after lawful_jansson List.Pairwise.nil (by simp) hasKey_subscribe_a
  refine ⟨w, w', calls, hhistory, hstep, hsubscribes, ?_⟩
  have hmsg : jsonBuild (.pair (.int 1) .nil) = some (some (.arr [.int 1])) := rfl
  exact not_delivered_of_subscribes lawful_jansson charwise_utf8 percent_curlLibrary h isKey_a hmsg
    hstep hsubscribes

end Gusher
