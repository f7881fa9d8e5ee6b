import Gusher.Scheme.JsonRoundTrip
import Gusher.Store.Refinement

/-!
# Subscriptions

The functions of the messaging module that keep the registry of callbacks: under each key the store
has a list of URLs in JSON.  They are procedures of the key-value store.
-/

namespace Gusher

/-- `member`, whose second argument has to be a list. -/
def Scm.member? (x : Scm) : Scm → Option Bool
  | .nil => some false
  | .pair car cdr => if car = x then some true else Scm.member? x cdr
  | _ => none

/-- `(filter (lambda (cb) (not (string=? cb url))) callbacks)`; the callbacks have to be a list of
strings. -/
def Scm.keepers (url : Text) : Scm → Option Scm
  | .nil => some .nil
  | .pair (.str cb) cdr =>
      (Scm.keepers url cdr).map (fun rest => if cb = url then rest else .pair (.str cb) rest)
  | _ => none

/-- The namespace of `msg-dbconn`. -/
def subscriptions : Text :=
  "subscriptions".toList

/-- `msg-callback-url`, for the port that the application listens to. -/
def msgCallbackUrl (port : ℕ) (path : Text) : Text :=
  "http://127.0.0.1:".toList ++ Nat.toDigits 10 port ++ path

def msgCallbackPath (key : Text) : Text :=
  "/msg-".toList ++ key

/-- The URL of the handler of an application for a key. -/
def callbackUrl (port : ℕ) (key : Text) : Text :=
  msgCallbackUrl port (msgCallbackPath key)

section

variable (js : Jansson)

/-- `(or (and json (json-decode json)) '())`. -/
def decodeOr (json : Scm) : Option Scm :=
  if json = .bool false then some .nil
  else (js.jsonDecode json).map (fun list => if list = .bool false then .nil else list)

def msgGetCallbacks (key : Text) : Kv Scm := do
  let json ← kvGet (.str subscriptions) (.symbol key)
  .ofOption (decodeOr js json)

/-- The part of `msg-subscribe` that registers the callback. -/
def msgSubscribe (port : ℕ) (key : Text) : Kv Unit := do
  let callbacks ← msgGetCallbacks js key
  let known ← .ofOption (Scm.member? (.str (callbackUrl port key)) callbacks)
  if known then return ()
  else
    let json ← .ofOption (js.jsonEncode (.pair (.str (callbackUrl port key)) callbacks))
    kvSet (.str subscriptions) (.symbol key) json

def msgUnsubscribe (port : ℕ) (key : Text) : Kv Unit := do
  let callbacks ← msgGetCallbacks js key
  let keepers ← .ofOption (Scm.keepers (callbackUrl port key) callbacks)
  if keepers = .nil then kvDel (.str subscriptions) (.symbol key)
  else
    let json ← .ofOption (js.jsonEncode keepers)
    kvSet (.str subscriptions) (.symbol key) json

/-- The loop of `msg-unsubscribe-all`; `string->symbol` needs a string. -/
def unsubscribeEach (port : ℕ) : List Scm → Kv Unit
  | [] => return ()
  | .str key :: keys => do
      msgUnsubscribe js port key
      unsubscribeEach port keys
  | _ :: _ => .raise

def msgUnsubscribeAll (port : ℕ) : Kv Unit := do
  let keys ← kvKeys (.str subscriptions)
  unsubscribeEach js port keys

end

/-- A call of one of the functions. -/
inductive MsgCall where
  | subscribe (key : Text)
  | unsubscribe (key : Text)
  | unsubscribeAll
  deriving DecidableEq

/-- The key of the call is not empty. -/
def MsgCall.Named : MsgCall → Prop
  | subscribe key | unsubscribe key => key ≠ []
  | unsubscribeAll => True

instance (c : MsgCall) : Decidable c.Named :=
  match c with
  | .subscribe key | .unsubscribe key => inferInstanceAs (Decidable (key ≠ []))
  | .unsubscribeAll => inferInstanceAs (Decidable True)

/-- The function that is called by the application at a port. -/
def msgCall (js : Jansson) (c : ℕ × MsgCall) : Kv Unit :=
  match c.2 with
  | .subscribe key => msgSubscribe js c.1 key
  | .unsubscribe key => msgUnsubscribe js c.1 key
  | .unsubscribeAll => msgUnsubscribeAll js c.1

/-! ### Keys with a NUL -/

section

variable {js : Jansson} {port : ℕ} {key : Text}

theorem msgGetCallbacks_nul (h : Char.ofNat 0 ∈ key) :
  msgGetCallbacks js key = .raise
  := by
  have hformat : format (.symbol key) = .raise := format_str_nul h
  have hns : format (.str subscriptions) = .done (constant subscriptions) := format_str (by decide)
  simp [msgGetCallbacks, kvGet, hns, hformat]

theorem msgSubscribe_nul (h : Char.ofNat 0 ∈ key) :
  msgSubscribe js port key = .raise
  := by rw [msgSubscribe, msgGetCallbacks_nul h, Proc.raise_bind]

theorem msgUnsubscribe_nul (h : Char.ofNat 0 ∈ key) :
  msgUnsubscribe js port key = .raise
  := by rw [msgUnsubscribe, msgGetCallbacks_nul h, Proc.raise_bind]

end

/-! ### The URLs -/

theorem callbackUrl_eq (port : ℕ) (key : Text) :
  callbackUrl port key
    = "http://127.0.0.1:".toList ++ (Nat.toDigits 10 port ++ ("/msg-".toList ++ key))
  := List.append_assoc _ _ _

/-- The digits of a number, which are not empty, determine it. -/
theorem toDigits_inj {m n : ℕ} :
  Nat.toDigits 10 m = Nat.toDigits 10 n ↔ m = n
  := by
  constructor
  · intro h
    rw [← Nat.ofDigitChars_ten_toDigits (n := m), h, Nat.ofDigitChars_ten_toDigits]
  · rintro rfl
    rfl

theorem callbackUrl_inj {port port' : ℕ} {key : Text} :
  callbackUrl port key = callbackUrl port' key ↔ port = port'
  := by
  rw [callbackUrl_eq, callbackUrl_eq, List.append_right_inj, List.append_left_inj, toDigits_inj]

/-- There is a NUL in a URL only when there is one in the key. -/
theorem no_nul_callbackUrl {port : ℕ} {key : Text} (h : Char.ofNat 0 ∉ key) :
  Char.ofNat 0 ∉ callbackUrl port key
  := by
  have hscheme : Char.ofNat 0 ∉ "http://127.0.0.1:".toList := by decide
  have hpath : Char.ofNat 0 ∉ "/msg-".toList := by decide
  have hdigits : Char.ofNat 0 ∉ Nat.toDigits 10 port := by
    intro hdigit
    have hzero := Nat.isDigit_of_mem_toDigits (by decide) (by decide) hdigit
    revert hzero
    decide
  rw [callbackUrl_eq, List.mem_append, List.mem_append, List.mem_append]
  simp only [hscheme, hpath, hdigits, h, or_self, not_false_eq_true]

/-! ### Lists of strings -/

def urlList (urls : List Text) : Scm :=
  .ofList (urls.map .str)

theorem urlList_inj {urls urls' : List Text} :
  urlList urls = urlList urls' ↔ urls = urls'
  := by
  rw [urlList, urlList, Scm.ofList_inj]
  exact (List.map_injective_iff.mpr (fun _ _ => Scm.str.inj)).eq_iff

theorem urlList_ne {urls : List Text} (h : urls ≠ []) (b : Bool) :
  urlList urls ≠ .bool b
  := by
  cases urls with
  | nil => exact absurd rfl h
  | cons u urls => nofun

theorem member?_urlList {url : Text} {urls : List Text} :
  Scm.member? (.str url) (urlList urls) = some (decide (url ∈ urls))
  := by
  induction urls with
  | nil => rfl
  | cons u urls ih =>
      rw [urlList, List.map_cons, Scm.ofList_cons, Scm.member?]
      by_cases hu : u = url
      · simp [hu]
      · rw [if_neg (fun h => hu (Scm.str.inj h))]
        rw [urlList] at ih
        rw [ih]
        simp [Ne.symm hu]

/-- The list with a URL in front, unless it is there. -/
def addUrl (url : Text) (urls : List Text) : List Text :=
  if urls.contains url then urls else url :: urls

/-- The list without a URL. -/
def removeUrl (url : Text) (urls : List Text) : List Text :=
  urls.filter (· ≠ url)

theorem addUrl_of_mem {url : Text} {urls : List Text} (h : url ∈ urls) :
  addUrl url urls = urls
  := if_pos (List.contains_iff_mem.mpr h)

theorem addUrl_of_notMem {url : Text} {urls : List Text} (h : url ∉ urls) :
  addUrl url urls = url :: urls
  := if_neg (fun hmem => h (List.contains_iff_mem.mp hmem))

theorem mem_addUrl {url u : Text} {urls : List Text} :
  u ∈ addUrl url urls ↔ u = url ∨ u ∈ urls
  := by
  by_cases hmem : url ∈ urls
  · rw [addUrl_of_mem hmem]
    constructor
    · exact Or.inr
    · rintro (rfl | hu)
      · exact hmem
      · exact hu
  · rw [addUrl_of_notMem hmem, List.mem_cons]

theorem mem_removeUrl {url u : Text} {urls : List Text} :
  u ∈ removeUrl url urls ↔ u ≠ url ∧ u ∈ urls
  := by rw [removeUrl, List.mem_filter, decide_eq_true_eq, and_comm]

theorem keepers_urlList {url : Text} {urls : List Text} :
  Scm.keepers url (urlList urls) = some (urlList (removeUrl url urls))
  := by
  induction urls with
  | nil => rfl
  | cons u urls ih =>
      rw [urlList, List.map_cons, Scm.ofList_cons, Scm.keepers]
      rw [urlList] at ih
      rw [ih, Option.map_some]
      by_cases hu : u = url
      · simp [hu, removeUrl]
      · simp [hu, urlList, removeUrl]

/-- A list of strings without NUL is encoded and decoded. -/
theorem jsonEncode_urlList {js : Jansson} (hjs : js.Lawful) {urls : List Text} (hne : urls ≠ [])
    (hnul : ∀ u ∈ urls, Char.ofNat 0 ∉ u) :
  ∃ t, js.jsonEncode (urlList urls) = some (.str t) ∧
    js.jsonDecode (.str t) = some (urlList urls) ∧ t ≠ [] ∧ Char.ofNat 0 ∉ t
  := by
  have hbuild : jsonBuild (urlList urls) = some (some (.arr (urls.map .str))) := by
    have hitems : buildItems [] (urlList urls) = some (some (.arr (urls.map Json.str))) := by
      apply buildItems_ofList
      intro u hu
      rw [jsonBuild, jsonString, if_neg (hnul u hu)]
    cases urls with
    | nil => exact absurd rfl hne
    | cons u urls =>
        rw [urlList, List.map_cons, Scm.ofList_cons] at hitems ⊢
        rw [jsonBuild_pair (by intro name value h; cases h), if_pos (Scm.isList_ofList _), hitems]
  have hwf : (Json.arr (urls.map .str)).Wf := by
    apply Json.wf_arr
    intro x hx
    obtain ⟨u, hu, rfl⟩ := List.mem_map.mp hx
    exact Json.wf_atom (fun x hx => by cases hx; rfl) (hnul u hu)
  have hreal : (Json.arr (urls.map .str)).NoReal := by
    apply Json.noReal_arr
    intro x hx
    obtain ⟨u, hu, rfl⟩ := List.mem_map.mp hx
    rintro digits ⟨⟩
  obtain ⟨t, hencode, ht, htext⟩ := jsonEncode_eq hjs hbuild hwf hreal rfl
  refine ⟨t, hencode, ?_, htext⟩
  rw [jsonDecode_eq ht (hjs.loads_dumps hwf hreal rfl), jsonParse_arr, List.map_map]
  rfl

/-- Only strings are parsed into strings. -/
theorem eq_of_jsonParse_str {j : Json} {s : Text} (h : jsonParse j = .str s) :
  j = .str s
  := by
  cases j with
  | str s' => rw [Scm.str.inj h]
  | arr items =>
      rw [jsonParse_arr] at h
      cases items with
      | nil => cases h
      | cons x items => cases h
  | obj members =>
      rw [jsonParse_obj] at h
      cases hrev : (members.map (fun m => (m.1, jsonParse m.2))).reverse with
      | nil =>
          rw [hrev] at h
          cases h
      | cons m ms =>
          rw [hrev] at h
          cases h
  | _ => cases h

/-- A document that is parsed into a list of strings has no NUL in them. -/
theorem no_nul_of_jsonParse {j : Json} {urls : List Text} (hj : j.Wf)
    (h : jsonParse j = urlList urls) :
  ∀ u ∈ urls, Char.ofNat 0 ∉ u
  := by
  intro u hu
  have hmem : Scm.str u ∈ urls.map .str := List.mem_map_of_mem hu
  cases j with
  | arr items =>
      rw [jsonParse_arr, urlList, Scm.ofList_inj] at h
      rw [← h] at hmem
      obtain ⟨x, hx, hparse⟩ := List.mem_map.mp hmem
      obtain rfl := eq_of_jsonParse_str hparse
      exact hj _ (.item hx (.refl _))
  | obj members =>
      rw [jsonParse_obj, Scm.alist, urlList, Scm.ofList_inj] at h
      rw [← h] at hmem
      obtain ⟨m, -, hm⟩ := List.mem_map.mp hmem
      cases hm
  | _ =>
      cases urls with
      | nil => cases hu
      | cons u' urls => cases h

end Gusher
