import Gusher.Store.Messaging
import Gusher.Store.ReadWrite

/-!
# The registry of subscriptions

What the registry is for: it knows which applications subscribe to which key, an application being
known by its port.  Calls of the messaging module that come one after the other keep the stored
lists of callbacks equal to it, up to their order (`registry_exact`).
-/

namespace Gusher

open Proc

variable {js : Jansson}

/-! ### The abstract registry -/

/-- The applications that subscribe to each key. -/
abbrev Registry := Text → Set ℕ

def MsgCall.HasNul : MsgCall → Prop
  | subscribe key | unsubscribe key => Char.ofNat 0 ∈ key
  | unsubscribeAll => False

instance (c : MsgCall) : Decidable c.HasNul :=
  match c with
  | .subscribe key | .unsubscribe key => inferInstanceAs (Decidable (Char.ofNat 0 ∈ key))
  | .unsubscribeAll => inferInstanceAs (Decidable False)

/-- The call is about the key. -/
def MsgCall.Affects (key : Text) : MsgCall → Prop
  | subscribe key' | unsubscribe key' => key' = key
  | unsubscribeAll => True

instance (key : Text) (c : MsgCall) : Decidable (c.Affects key) :=
  match c with
  | .subscribe key' | .unsubscribe key' => inferInstanceAs (Decidable (key' = key))
  | .unsubscribeAll => inferInstanceAs (Decidable True)

/-- The registry after a call of the application at a port. -/
def Registry.after (r : Registry) (port : ℕ) : MsgCall → Registry
  | .subscribe key => Function.update r key (insert port (r key))
  | .unsubscribe key => Function.update r key (r key \ {port})
  | .unsubscribeAll => fun key => r key \ {port}

/-- A call with a NUL in its key raises an exception, and changes nothing. -/
def registrySpec : Spec (ℕ × MsgCall) Unit Registry where
  allows _ c out := out = if c.2.HasNul then none else some ()
  next r c := if c.2.HasNul then r else r.after c.1 c.2

/-- The latest call of the application about the key was a subscription. -/
def Subscribed (calls : List (ℕ × MsgCall)) (port : ℕ) (key : Text) : Prop :=
  (calls.filter (fun c => c.1 = port ∧ c.2.Affects key)).getLast? = some (port, .subscribe key)

def complete (calls : List (ℕ × MsgCall)) : List (ℕ × MsgCall) :=
  calls.filter (fun c => ¬ c.2.HasNul)

/-- A call decides whether its application subscribes to the keys that it is about. -/
theorem mem_after {r : Registry} {c : ℕ × MsgCall} {port : ℕ} {key : Text} :
  port ∈ r.after c.1 c.2 key
    ↔ if c.1 = port ∧ c.2.Affects key then c.2 = .subscribe key else port ∈ r key
  := by
  obtain ⟨port', call⟩ := c
  cases call with
  | subscribe key' =>
      by_cases hkey : key' = key
      · subst hkey
        by_cases hport : port' = port
        · simp [Registry.after, MsgCall.Affects, hport]
        · simp [Registry.after, MsgCall.Affects, hport, Ne.symm hport]
      · simp [Registry.after, MsgCall.Affects, hkey, Ne.symm hkey]
  | unsubscribe key' =>
      by_cases hkey : key' = key
      · subst hkey
        by_cases hport : port' = port
        · simp [Registry.after, MsgCall.Affects, hport]
        · simp [Registry.after, MsgCall.Affects, hport, Ne.symm hport]
      · simp [Registry.after, MsgCall.Affects, hkey, Ne.symm hkey]
  | unsubscribeAll =>
      by_cases hport : port' = port
      · simp [Registry.after, MsgCall.Affects, hport]
      · simp [Registry.after, MsgCall.Affects, hport, Ne.symm hport]

theorem mem_next {r : Registry} {c : ℕ × MsgCall} {port : ℕ} {key : Text} (hport : port ≠ c.1) :
  port ∈ registrySpec.next r c key ↔ port ∈ r key
  := by
  simp only [registrySpec]
  split
  case isTrue => exact Iff.rfl
  case isFalse => rw [mem_after, if_neg (fun h => hport h.1.symm)]

/-- What the registry knows after some calls. -/
theorem mem_foldl_next {calls : List (ℕ × MsgCall)} {port : ℕ} {key : Text} :
  port ∈ calls.foldl registrySpec.next (fun _ => ∅) key ↔ Subscribed (complete calls) port key
  := by
  induction calls using List.reverseRecOn with
  | nil => simp [Subscribed, complete]
  | append_singleton calls c ih =>
      rw [List.foldl_append, List.foldl_cons, List.foldl_nil]
      simp only [registrySpec]
      split
      case isTrue hnul =>
          have hcalls : complete (calls ++ [c]) = complete calls := by simp [complete, hnul]
          rw [hcalls]
          exact ih
      case isFalse hnul =>
          have hcalls : complete (calls ++ [c]) = complete calls ++ [c] := by simp [complete, hnul]
          rw [hcalls, mem_after, Subscribed, List.filter_append]
          split
          case isTrue haffects =>
              simp only [haffects, and_self, decide_true, List.filter_cons_of_pos, List.filter_nil,
                List.getLast?_append, List.getLast?_singleton, Option.some_or, Option.some.injEq]
              rw [← haffects.1]
              exact ⟨fun h => Prod.ext rfl h, fun h => congrArg Prod.snd h⟩
          case isFalse haffects =>
              rw [List.filter_cons_of_neg (by simpa using haffects), List.filter_nil,
                List.append_nil]
              exact ih

/-! ### The stored lists -/

/-- What is stored for a list of callbacks; there is nothing for an empty list. -/
def Listed (js : Jansson) (x : Option (Option Text)) (urls : List Text) : Prop :=
  if urls = [] then x = none
  else ∃ text, x = some (some text) ∧ js.jsonDecode (.str text) = some (urlList urls)

/-- The list of callbacks that is stored under a key; an empty list has no row. -/
def Stored (js : Jansson) (t : Table) (key : Text) (urls : List Text) : Prop :=
  Listed js (t.toMap.value subscriptions key) urls

section

variable {x : Option (Option Text)} {urls urls' : List Text}

/-- The value stands for at most one list. -/
theorem Listed.unique (h : Listed js x urls) (h' : Listed js x urls') :
  urls = urls'
  := by
  rw [Listed] at h h'
  split at h
  case isTrue hnil =>
      split at h'
      case isTrue hnil' => rw [hnil, hnil']
      case isFalse =>
          obtain ⟨text, htext, -⟩ := h'
          cases h.symm.trans htext
  case isFalse =>
      obtain ⟨text, htext, hdecode⟩ := h
      split at h'
      case isTrue => cases h'.symm.trans htext
      case isFalse =>
          obtain ⟨text', htext', hdecode'⟩ := h'
          obtain rfl := Option.some.inj (Option.some.inj (htext.symm.trans htext'))
          exact urlList_inj.mp (Option.some.inj (hdecode.symm.trans hdecode'))

/-- The list as `msg-get-callbacks` decodes it. -/
theorem Listed.decodeOr_eq (h : Listed js x urls) :
  decodeOr js (KvMap.read x) = some (urlList urls)
  := by
  rw [Listed] at h
  split at h
  case isTrue hnil =>
      rw [h, hnil]
      rfl
  case isFalse hne =>
      obtain ⟨text, rfl, hdecode⟩ := h
      rw [KvMap.read, decodeOr, if_neg (by nofun), hdecode, Option.map_some,
        if_neg (urlList_ne hne false)]

/-- Only strings without NUL are decoded. -/
theorem Listed.no_nul (hjs : js.Lawful) (h : Listed js x urls) :
  ∀ u ∈ urls, Char.ofNat 0 ∉ u
  := by
  rw [Listed] at h
  split at h
  case isTrue hnil => simp [hnil]
  case isFalse hne =>
      obtain ⟨text, -, hdecode⟩ := h
      obtain ⟨buf, -, hbuf⟩ := Option.map_eq_some_iff.mp hdecode
      split at hbuf
      case h_1 => exact absurd hbuf.symm (urlList_ne hne false)
      case h_2 j hload =>
          apply no_nul_of_jsonParse (hjs.loads_wf hload).1 hbuf

end

/-! ### The functions -/

section

variable {port : ℕ} {key : Text} {urls : List Text}

theorem place_subscriptions (hkey : key ≠ []) (hnul : Char.ofNat 0 ∉ key) :
  Place subscriptions key
  where
  ns_ne := by decide
  key_ne := hkey
  ns_nul := by decide
  key_nul := hnul

/-- `msg-get-callbacks` executes one statement. -/
theorem msgGetCallbacks_eq (place : Place subscriptions key) :
  msgGetCallbacks js key = .query (.selectValue (constant subscriptions) (constant key))
    (fun r => .ofOption (decodeOr js (pgCell (pgOneRow r) "value")))
  := by
  have hget : kvGet (.str subscriptions) (.symbol key) = _ :=
    kvGet_str place.ns_nul place.key_nul
  rw [msgGetCallbacks, hget]
  rfl

/-- A list that is not empty is encoded and stored. -/
theorem exists_setCallbacks (hjs : js.Lawful) (hne : urls ≠ []) (hurls : ∀ u ∈ urls, Char.ofNat 0 ∉ u) :
  ∃ text, (do
      let json ← .ofOption (js.jsonEncode (urlList urls))
      kvSet (.str subscriptions) (.symbol key) json) = (Edit.set text).perform subscriptions key
    ∧ (Edit.set text).Storable ∧ ∀ x, Listed js ((Edit.set text).apply x) urls
  := by
  obtain ⟨text, hencode, hdecode, htext, hnul⟩ := jsonEncode_urlList hjs hne hurls
  refine ⟨text, ?_, ⟨htext, hnul⟩, ?_⟩
  · rw [hencode]
    rfl
  · intro x
    rw [Listed, if_neg hne]
    exact ⟨text, rfl, hdecode⟩

/-- `msg-subscribe` puts the URL in front of the list, unless it is there. -/
theorem updates_msgSubscribe (hjs : js.Lawful) (place : Place subscriptions key) :
  Updates subscriptions key (Listed js) (addUrl (callbackUrl port key))
    (callbackUrl port key ∉ ·) (msgSubscribe js port key)
  := by
  refine ⟨_, by rw [msgSubscribe, msgGetCallbacks_eq place, query_bind], ?_⟩
  rintro x r ⟨urls, hurls⟩ hcell
  rw [hcell, hurls.decodeOr_eq, ofOption_some, done_bind, member?_urlList, ofOption_some,
    done_bind]
  by_cases hmem : callbackUrl port key ∈ urls
  · refine ⟨.keep, if_pos (decide_eq_true hmem), trivial, ?_⟩
    intro urls' hurls'
    obtain rfl := hurls.unique hurls'
    rw [addUrl_of_mem hmem]
    exact ⟨hurls, fun h => absurd rfl h⟩
  · have hnul : ∀ u ∈ callbackUrl port key :: urls, Char.ofNat 0 ∉ u :=
      List.forall_mem_cons.mpr ⟨no_nul_callbackUrl place.key_nul, hurls.no_nul hjs⟩
    obtain ⟨text, hset, hstorable, hlisted⟩ := exists_setCallbacks hjs (List.cons_ne_nil _ _) hnul
    refine ⟨.set text, ?_, hstorable, ?_⟩
    · rw [if_neg (by simpa using hmem), ← hset]
      rfl
    · intro urls' hurls'
      obtain rfl := hurls.unique hurls'
      rw [addUrl_of_notMem hmem]
      exact ⟨hlisted x, fun _ => hmem⟩

/-- `msg-unsubscribe` takes the URL out of the list. -/
theorem updates_msgUnsubscribe (hjs : js.Lawful) (place : Place subscriptions key) :
  Updates subscriptions key (Listed js) (removeUrl (callbackUrl port key)) (fun _ => True)
    (msgUnsubscribe js port key)
  := by
  refine ⟨_, by rw [msgUnsubscribe, msgGetCallbacks_eq place, query_bind], ?_⟩
  rintro x r ⟨urls, hurls⟩ hcell
  rw [hcell, hurls.decodeOr_eq, ofOption_some, done_bind, keepers_urlList, ofOption_some,
    done_bind]
  by_cases hnil : removeUrl (callbackUrl port key) urls = []
  · refine ⟨.del, ?_, trivial, ?_⟩
    · apply if_pos
      exact congrArg urlList hnil
    · intro urls' hurls'
      obtain rfl := hurls.unique hurls'
      rw [hnil, Listed, if_pos rfl]
      exact ⟨rfl, fun _ => trivial⟩
  · have hnul : ∀ u ∈ removeUrl (callbackUrl port key) urls, Char.ofNat 0 ∉ u :=
      fun u hu => hurls.no_nul hjs u (mem_removeUrl.mp hu).2
    obtain ⟨text, hset, hstorable, hlisted⟩ := exists_setCallbacks hjs hnil hnul
    refine ⟨.set text, ?_, hstorable, ?_⟩
    · have hlist : urlList (removeUrl (callbackUrl port key) urls) ≠ .nil :=
        fun h => hnil (urlList_inj.mp h)
      rw [if_neg hlist]
      exact hset
    · intro urls' hurls'
      obtain rfl := hurls.unique hurls'
      exact ⟨hlisted x, fun _ => trivial⟩

end

/-! ### The table as a registry -/

/-- The list is that of the URLs of the applications that subscribe to the key. -/
structure Lists (r : Registry) (key : Text) (urls : List Text) : Prop where
  nodup : urls.Nodup
  mem_iff : ∀ url, url ∈ urls ↔ ∃ port ∈ r key, url = callbackUrl port key

/-- The table has the lists of callbacks of a registry. -/
structure Registered (js : Jansson) (t : Table) (r : Registry) : Prop where
  unique : t.Unique
  unnamed : t.toMap.unnamed subscriptions = 0
  /-- the keys to which someone subscribes -/
  named : ∀ key port, port ∈ r key → key ≠ [] ∧ Char.ofNat 0 ∉ key
  lists : ∀ key, ∃ urls, Stored js t key urls ∧ Lists r key urls

namespace Lists

variable {r : Registry} {key : Text} {urls : List Text} {port : ℕ}

/-- An application is in the list when it subscribes. -/
theorem callbackUrl_mem (h : Lists r key urls) :
  callbackUrl port key ∈ urls ↔ port ∈ r key
  := by
  rw [h.mem_iff]
  constructor
  · rintro ⟨port', hport', hurl⟩
    rw [callbackUrl_inj] at hurl
    rwa [hurl]
  · intro hport
    exact ⟨port, hport, rfl⟩

theorem insert (h : Lists r key urls) :
  Lists (Function.update r key (insert port (r key))) key (addUrl (callbackUrl port key) urls)
  := by
  constructor
  · by_cases hmem : callbackUrl port key ∈ urls
    · rw [addUrl_of_mem hmem]
      exact h.nodup
    · rw [addUrl_of_notMem hmem]
      exact List.nodup_cons.mpr ⟨hmem, h.nodup⟩
  · intro url
    rw [Function.update_self, mem_addUrl, h.mem_iff]
    simp

theorem erase (h : Lists r key urls) :
  Lists (Function.update r key (r key \ {port})) key (removeUrl (callbackUrl port key) urls)
  := by
  constructor
  · exact h.nodup.filter _
  · intro url
    rw [Function.update_self, mem_removeUrl, h.mem_iff]
    constructor
    · rintro ⟨hne, port', hport', rfl⟩
      exact ⟨port', ⟨hport', fun h => hne (congrArg (callbackUrl · key) h)⟩, rfl⟩
    · rintro ⟨port', ⟨hport', hne⟩, rfl⟩
      exact ⟨fun h => hne (callbackUrl_inj.mp h), port', hport', rfl⟩

end Lists

section

variable {t t' : Table} {r : Registry} {port : ℕ} {key : Text} {urls : List Text}

/-- Another list under one key. -/
theorem Registered.edit (h : Registered js t r) {x : Option (Option Text)}
    (hat : Has t.toMap subscriptions key t' x) (hx : Listed js x urls) {ports : Set ℕ}
    (hurls : Lists (Function.update r key ports) key urls)
    (hnamed : ∀ p ∈ ports, key ≠ [] ∧ Char.ofNat 0 ∉ key) :
  Registered js t' (Function.update r key ports)
  where
  unique := hat.unique
  unnamed := by
    rw [hat.map_eq]
    exact h.unnamed
  named key' p hp := by
    by_cases hkey : key' = key
    · subst hkey
      rw [Function.update_self] at hp
      exact hnamed p hp
    · rw [Function.update_of_ne hkey] at hp
      exact h.named key' p hp
  lists key' := by
    by_cases hkey : key' = key
    · subst hkey
      refine ⟨urls, ?_, hurls⟩
      rw [Stored, hat.map_eq, KvMap.put]
      simpa using hx
    · obtain ⟨urls', hstored, hlists⟩ := h.lists key'
      use urls'
      constructor
      · rw [Stored, hat.map_eq, KvMap.put]
        simpa [hkey, Stored] using hstored
      · constructor
        · exact hlists.nodup
        · rw [Function.update_of_ne hkey]
          exact hlists.mem_iff

/-- `msg-subscribe`. -/
theorem Registered.subscribe (hjs : js.Lawful) (h : Registered js t r) (hkey : key ≠ [])
    (hnul : Char.ofNat 0 ∉ key) {out : Option Unit}
    (hruns : Runs serve (msgSubscribe js port key) t out t') :
  out = some () ∧ Registered js t' (r.after port (.subscribe key))
  := by
  have place := place_subscriptions hkey hnul
  obtain ⟨urls, hstored, hlists⟩ := h.lists key
  obtain ⟨hout, x, hat, hx⟩ :=
    (updates_msgSubscribe hjs place).runs place (has_self h.unique) hstored hruns
  exact ⟨hout, h.edit hat hx hlists.insert (fun _ _ => ⟨hkey, hnul⟩)⟩

/-- `msg-unsubscribe`. -/
theorem Registered.unsubscribe (hjs : js.Lawful) (h : Registered js t r) (hkey : key ≠ [])
    (hnul : Char.ofNat 0 ∉ key) {out : Option Unit}
    (hruns : Runs serve (msgUnsubscribe js port key) t out t') :
  out = some () ∧ Registered js t' (r.after port (.unsubscribe key))
  := by
  have place := place_subscriptions hkey hnul
  obtain ⟨urls, hstored, hlists⟩ := h.lists key
  obtain ⟨hout, x, hat, hx⟩ :=
    (updates_msgUnsubscribe hjs place).runs place (has_self h.unique) hstored hruns
  exact ⟨hout, h.edit hat hx hlists.erase (fun _ _ => ⟨hkey, hnul⟩)⟩

/-- The loop of `msg-unsubscribe-all`. -/
theorem Registered.unsubscribeEach (hjs : js.Lawful) (h : Registered js t r) {keys : List Text}
    (hkeys : ∀ key ∈ keys, key ≠ [] ∧ Char.ofNat 0 ∉ key) {out : Option Unit}
    (hruns : Runs serve (unsubscribeEach js port (keys.map .str)) t out t') :
  out = some () ∧ Registered js t' (fun key => if key ∈ keys then r key \ {port} else r key)
  := by
  induction keys generalizing t r with
  | nil =>
      obtain ⟨rfl, rfl⟩ := hruns
      exact ⟨rfl, h⟩
  | cons key keys ih =>
      obtain ⟨hkey, hnul⟩ := hkeys key List.mem_cons_self
      rw [List.map_cons, Gusher.unsubscribeEach, runs_bind] at hruns
      obtain (⟨-, hfirst⟩ | ⟨_, u, hfirst, hrest⟩) := hruns
      · cases (h.unsubscribe hjs hkey hnul hfirst).1
      · obtain ⟨-, hu⟩ := h.unsubscribe hjs hkey hnul hfirst
        obtain ⟨hout, ht⟩ := ih hu (fun k hk => hkeys k (List.mem_cons_of_mem key hk)) hrest
        refine ⟨hout, ?_⟩
        convert ht using 1
        funext key'
        by_cases hsame : key' = key
        · subst hsame
          simp [Registry.after]
        · simp [Registry.after, hsame]

/-- A key has a row when someone subscribes to it. -/
theorem Registered.value_isSome (h : Registered js t r) (key : Text) :
  (t.toMap.value subscriptions key).isSome ↔ (r key).Nonempty
  := by
  obtain ⟨urls, hstored, hlists⟩ := h.lists key
  rw [Stored, Listed] at hstored
  split at hstored
  case isTrue hnil =>
      subst hnil
      rw [hstored]
      constructor
      · nofun
      · rintro ⟨port, hport⟩
        cases hlists.callbackUrl_mem.mpr hport
  case isFalse hne =>
      obtain ⟨text, htext, -⟩ := hstored
      rw [htext]
      constructor
      · intro _
        obtain ⟨url, hurl⟩ := List.exists_mem_of_ne_nil urls hne
        obtain ⟨port, hport, -⟩ := (hlists.mem_iff url).mp hurl
        exact ⟨port, hport⟩
      · intro _
        rfl

/-- `msg-unsubscribe-all`. -/
theorem Registered.unsubscribeAll (hjs : js.Lawful) (h : Registered js t r) {out : Option Unit}
    (hruns : Runs serve (msgUnsubscribeAll js port) t out t') :
  out = some () ∧ Registered js t' (r.after port .unsubscribeAll)
  := by
  rw [msgUnsubscribeAll, runs_bind] at hruns
  obtain (⟨-, hkeys⟩ | ⟨xs, u, hkeys, hrest⟩) := hruns
  · obtain ⟨-, xs, hxs, -⟩ := runs_kvKeys h.unique (by decide) hkeys
    cases hxs
  · obtain ⟨rfl, _, ⟨⟩, hlisted⟩ := runs_kvKeys h.unique (by decide) hkeys
    rw [KvMap.ListsKeys, if_neg (by decide), h.unnamed, List.replicate_zero] at hlisted
    obtain ⟨keys, -, hmem, hperm⟩ := hlisted
    rw [List.append_nil] at hperm
    obtain ⟨keys', rfl⟩ : xs ∈ Set.range (List.map Scm.str) := by
      rw [Set.range_list_map]
      intro x hx
      obtain ⟨key, -, rfl⟩ := List.mem_map.mp (hperm.mem_iff.mp hx)
      exact ⟨key, rfl⟩
    have hkeys' : ∀ key, key ∈ keys' ↔ (r key).Nonempty := by
      intro key
      rw [← h.value_isSome, ← hmem, ← List.mem_map_of_injective (fun _ _ => Scm.str.inj),
        hperm.mem_iff, List.mem_map_of_injective (fun _ _ => Scm.str.inj)]
    obtain ⟨hout, ht⟩ := h.unsubscribeEach hjs (by
      intro key hkey
      obtain ⟨p, hp⟩ := (hkeys' key).mp hkey
      exact h.named key p hp) hrest
    refine ⟨hout, ?_⟩
    convert ht using 1
    funext key
    split
    case isTrue => rfl
    case isFalse hkey =>
        rw [hkeys', Set.not_nonempty_iff_eq_empty] at hkey
        simp [Registry.after, hkey]

/-- One call. -/
theorem Registered.call (hjs : js.Lawful) (h : Registered js t r) {c : ℕ × MsgCall}
    (hc : c.2.Named) {out : Option Unit} (hruns : Runs serve (msgCall js c) t out t') :
  registrySpec.allows r c out ∧ Registered js t' (registrySpec.next r c)
  := by
  obtain ⟨port, call⟩ := c
  simp only [registrySpec]
  by_cases hnul : call.HasNul
  · rw [if_pos hnul, if_pos hnul]
    have hraise : msgCall js (port, call) = .raise := by
      cases call with
      | subscribe key => exact msgSubscribe_nul hnul
      | unsubscribe key => exact msgUnsubscribe_nul hnul
      | unsubscribeAll => exact hnul.elim
    rw [hraise] at hruns
    obtain ⟨rfl, rfl⟩ := hruns
    exact ⟨rfl, h⟩
  · rw [if_neg hnul, if_neg hnul]
    cases call with
    | subscribe key => exact h.subscribe hjs hc hnul hruns
    | unsubscribe key => exact h.unsubscribe hjs hc hnul hruns
    | unsubscribeAll => exact h.unsubscribeAll hjs hruns

end

theorem Registered.lists_of_stored {t : Table} {r : Registry} (h : Registered js t r) {key : Text}
    {urls : List Text} (hurls : Stored js t key urls) :
  Lists r key urls
  := by
  obtain ⟨urls', hstored, hlists⟩ := h.lists key
  rwa [hurls.unique hstored]

/-- A table without subscriptions. -/
theorem registered_empty {t : Table} (hu : t.Unique)
    (hempty : ∀ row ∈ t, row.ns ≠ some subscriptions) :
  Registered js t (fun _ => ∅)
  where
  unique := hu
  unnamed := by
    apply List.countP_eq_zero.mpr
    intro row hrow
    simp [Row.within, hempty row hrow]
  named key port hport := hport.elim
  lists key := by
    refine ⟨[], ?_, List.nodup_nil, by simp⟩
    have hnone : t.find? (Row.at subscriptions key) = none := by
      apply List.find?_eq_none.mpr
      intro row hrow
      simp [Row.at, hempty row hrow]
    rw [Stored, Listed, if_pos rfl]
    simp [Table.toMap, hnone]

/-- **The registry**: after any calls that come one after the other, the list that is stored under
a key is, without duplicates, that of the URLs of the applications whose latest call about the key
was a subscription, and a key without such applications has no row.  One more call leaves the URLs
of the other applications where they are.  A call with a NUL in its key is not complete: it raises
an exception. -/
theorem registry_exact (hjs : js.Lawful) {t : Table} (hu : t.Unique)
    (hempty : ∀ row ∈ t, row.ns ≠ some subscriptions) {calls : List (ℕ × MsgCall)}
    (hcalls : ∀ c ∈ calls, c.2.Named) {outs : List (Option Unit)} {t' : Table}
    (hruns : RunsAll serve (calls.map (msgCall js)) t outs t') :
  outs = calls.map (fun c => if c.2.HasNul then none else some ())
    ∧ (∀ key, ∃ urls, Stored js t' key urls ∧ urls.Nodup
      ∧ ∀ url, url ∈ urls ↔ ∃ port, Subscribed (complete calls) port key ∧ url = callbackUrl port key)
    ∧ (∀ key, (∃ row ∈ t', row.at subscriptions key) ↔ ∃ port, Subscribed (complete calls) port key)
    ∧ ∀ c out t'', c.2.Named → Runs serve (msgCall js c) t' out t'' →
      ∀ key urls urls', Stored js t' key urls → Stored js t'' key urls' →
        ∀ url, url ≠ callbackUrl c.1 key → (url ∈ urls' ↔ url ∈ urls)
  := by
  have hcall : ∀ s r c out t, Registered js s r → c.2.Named → Runs serve (msgCall js c) s out t →
      registrySpec.allows r c out ∧ Registered js t (registrySpec.next r c) :=
    fun _ _ _ _ _ h hc hruns => h.call hjs hc hruns
  obtain ⟨hlength, r, hspec, hr⟩ := hruns.simulates hcall hcalls (registered_empty hu hempty)
  have hmem : ∀ port key, port ∈ r key ↔ Subscribed (complete calls) port key := by
    intro port key
    rw [hspec.state_eq hlength, mem_foldl_next]
  refine ⟨?_, ?_, ?_, ?_⟩
  · exact hspec.answers_eq (fun _ _ _ hallows => hallows) hlength
  · intro key
    obtain ⟨urls, hstored, hlists⟩ := hr.lists key
    refine ⟨urls, hstored, hlists.nodup, ?_⟩
    intro url
    simp only [hlists.mem_iff, hmem]
  · intro key
    have hvalue := hr.value_isSome key
    simp only [Table.toMap, Option.isSome_map, List.find?_isSome] at hvalue
    rw [hvalue, Set.Nonempty]
    simp only [hmem]
  · intro c out t'' hc hnext key urls urls' hurls hurls' url hurl
    have hr' := (hr.call hjs hc hnext).2
    rw [(hr.lists_of_stored hurls).mem_iff, (hr'.lists_of_stored hurls').mem_iff]
    have hport : ∀ port, url = callbackUrl port key → port ≠ c.1 := by
      rintro port rfl rfl
      exact hurl rfl
    constructor
    · rintro ⟨port, hmem', heq⟩
      exact ⟨port, (mem_next (hport port heq)).mp hmem', heq⟩
    · rintro ⟨port, hmem', heq⟩
      exact ⟨port, (mem_next (hport port heq)).mpr hmem', heq⟩

/-- Two applications subscribe to two keys, and the second one leaves. -/
theorem registry_exact_two :
  ∃ outs t', RunsAll serve (List.map (msgCall jansson)
      [(80, .subscribe ['a']), (81, .subscribe ['a']), (81, .subscribe ['b']),
        (81, .unsubscribeAll)]) [] outs t'
    ∧ ∃ urls, Stored jansson t' ['a'] urls ∧ urls.Nodup
      ∧ ∀ url, url ∈ urls ↔ ∃ port, Subscribed (complete [(80, .subscribe ['a']),
        (81, .subscribe ['a']), (81, .subscribe ['b']), (81, .unsubscribeAll)]) port ['a']
        ∧ url = callbackUrl port ['a']
  := by
  obtain ⟨outs, t', hruns⟩ := exists_runsAll exists_serve (List.map (msgCall jansson)
    [(80, .subscribe ['a']), (81, .subscribe ['a']), (81, .subscribe ['b']),
      (81, .unsubscribeAll)]) []
  exact ⟨outs, t', hruns, (registry_exact lawful_jansson List.Pairwise.nil (by simp)
    (by decide) hruns).2.1 ['a']⟩

end Gusher
