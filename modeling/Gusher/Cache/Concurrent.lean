import Gusher.Cache.Freshness

/-!
# The cache under concurrency

A walk of `invalidate` for a datum is going to set the flags of the documents above the nodes that it
has still to come to.  While it is under way, and after the new value has been stored, the origins of
every payload that is not spoiled have the last value of the datum only, and none of its values during
the walk (`Fresh`).  So when `touch_node` returns, every payload that was computed from the value that
it has replaced belongs to a document whose flag is set (`Since`), and what is fetched from then on is
not computed from this value.
-/

namespace Gusher

open Run

/-- A thread is in the walk of `invalidate` for the node. -/
def Walking (s : SharedCache) (d : ℕ) : Prop :=
  ∃ v frames args todo, s.threads v = .active frames (.invalidate d args todo)

section Procedures

variable (c : Cache)

/-- A walk for the node is going to come to the document. -/
def Threatened (s : SharedCache) (d doc : ℕ) : Prop :=
  ∃ v frames args todo, s.threads v = .active frames (.invalidate d args todo)
    ∧ ∃ i ∈ todo, c.Above i doc

/-- A value of the datum `d` has to be the last one, and no thread may be in a walk for `d`. -/
def LastValue (s : SharedCache) (d : ℕ) (x : ℕ × ℕ) : Prop :=
  x.1 = d → ¬ Walking s d ∧ x.2 + 1 = (s.values d).length

/-- What is not spoiled has been computed from the last value of the datum. -/
def Fresh (s : SharedCache) (d : ℕ) : Prop :=
  Guard s (Threatened c s d) (LastValue s d)

variable {loc : Locale} {apply : Scm → List Scm → Recipe} {c} {s t : SharedCache} {w : ℕ}
  {frames : List Waiting} {phase : CachePhase} {d : ℕ}

/-- What is above a document that a walk is going to come to, the walk is going to come to. -/
theorem Threatened.above {i j : ℕ} (h : Threatened c s d i) (hij : c.Above i j) :
  Threatened c s d j
  := by
  obtain ⟨v, frames, args, todo, hv, k, hk, hki⟩ := h
  exact ⟨v, frames, args, todo, hv, k, hk, hki.trans hij⟩

/-- A thread is in a walk after its step when it was in it before, or has begun it. -/
theorem Advanced.walks (h : Advanced apply c s w frames phase t) {frames' : List Waiting}
    {args : List Scm} {todo : List ℕ}
    (ht : t.threads w = .active frames' (.invalidate d args todo)) :
  phase = .touch d args ∨ ∃ i todo, phase = .invalidate d args (i :: todo)
  := by
  have hframes : ∀ o used, (t.threads w) ≠ deliver frames o used := by
    intro o used hdeliver
    rw [hdeliver] at ht
    cases frames with
    | nil => cases ht
    | cons f frames => cases ht
  cases h with
  | unlock | finish => exact absurd (SharedCache.put_self _ _ _) (hframes _ _)
  | lockTouch =>
      rw [SharedCache.put_self] at ht
      cases ht
      exact Or.inl rfl
  | mark doc args i todo =>
      rw [SharedCache.put_self] at ht
      cases ht
      exact Or.inr ⟨i, todo, rfl⟩
  | lock | dirty | clean | clear | datum | chain | ret | fetch | store | read | value | noValue =>
      rw [SharedCache.put_self] at ht
      cases ht

/-- A walk that begins is going to come to every document that was computed from the datum. -/
theorem Working.fresh_of_walk (hs : Working loc apply c s) {args : List Scm}
    (hw : s.threads w = .active frames (.invalidate d args [d])) :
  Fresh c s d
  := by
  have hguards : ∀ doc used, (∀ x ∈ used, c.Feeds x.1 doc) →
      Guards s (Threatened c s d) (LastValue s d) doc used := by
    intro doc used hfeeds
    by_cases habove : c.Above d doc
    · exact Or.inl (Or.inr ⟨w, frames, args, [d], hw, d, List.mem_cons_self, habove⟩)
    · right
      intro x hx hd
      exact absurd (hd ▸ (hfeeds x hx).2) habove
  exact ⟨fun i _ => hguards i _ (hs.below i), fun v => (hs.nested v).imp (fun i _ => hguards i)⟩

/-- A thread that holds the mutex of a node is the one that is in a walk for it, if any is. -/
theorem Working.eq_of_walking (hs : Working loc apply c s) {v : ℕ} {args : List Scm}
    {todo : List ℕ} (hv : s.threads v = .active frames (.invalidate d args todo))
    (hheld : d ∈ (s.threads w).held) :
  v = w
  := by
  apply (hs.exclusive w d hheld).2
  rw [hv]
  exact List.mem_cons_self

/-- A document that a walk was going to come to: the walk still is, or it was that of the thread
that has made a step. -/
theorem Confined.threatened (h : Confined s t w) {i : ℕ} (hi : Threatened c s d i)
    (hw : ∀ frames args todo, s.threads w = .active frames (.invalidate d args todo) →
      (∃ j ∈ todo, c.Above j i) → Spoiled t (Threatened c t d) i) :
  Spoiled t (Threatened c t d) i
  := by
  obtain ⟨v, frames, args, todo, hv, hreach⟩ := hi
  by_cases hvw : v = w
  · rw [hvw] at hv
    exact hw frames args todo hv hreach
  · exact Or.inr ⟨v, frames, args, todo, (h.threads v hvw).trans hv, hreach⟩

/-- A walk after a step of the thread `w` was under way before, unless the thread has begun it. -/
theorem Advanced.not_walking (h : Advanced apply c s w frames phase t)
    (hw : s.threads w = .active frames phase)
    (hs : ∀ v frames args todo, v ≠ w → s.threads v ≠ .active frames (.invalidate d args todo))
    (htouch : ∀ args, phase ≠ .touch d args)
    (hphase : ∀ args i todo, phase ≠ .invalidate d args (i :: todo)) :
  ¬ Walking t d
  := by
  rintro ⟨v, frames', args, todo, hv⟩
  by_cases hvw : v = w
  · rw [hvw] at hv
    rcases h.walks hv with hbegin | ⟨i, todo, hwalk⟩
    · exact htouch args hbegin
    · exact hphase args i todo hwalk
  · rw [(h.confined hw).threads v hvw] at hv
    exact hs v frames' args todo hvw hv

/-- At the end of the walk, the payloads that were computed from the datum are spoiled: the flags
of their documents are set. -/
theorem Fresh.end_walk (hf : Fresh c s d) (hs : Working loc apply c s) (hc : c.Built apply)
    {args : List Scm} (hw : s.threads w = .active frames (.invalidate d args []))
    (h : Advanced apply c s w frames (.invalidate d args []) t) :
  Fresh c t d
  := by
  have hheld : d ∈ (s.threads w).held := by
    rw [hw]
    exact List.mem_cons_self
  have hnot : ¬ Walking t d := by
    apply h.not_walking hw _ nofun nofun
    intro v frames' args' todo hv hwalk
    exact hv (hs.eq_of_walking hwalk hheld)
  have hguard : Guard s (Threatened c s d) (LastValue t d) := by
    apply hf.mono (fun _ => Or.inr)
    intro x hx hd
    exact absurd ⟨w, frames, args, [], hw⟩ (hx hd).1
  have hadmits : Admits c s t (.invalidate d args []) (LastValue t d) := by
    refine ⟨nofun, ?_⟩
    rintro doc arg args ⟨⟩ hvalues -
    rw [hvalues, List.length_append]
    exact ⟨hnot, rfl⟩
  apply (hguard.advance hs hc (fun _ _ => Threatened.above) hw h hadmits).mono _ (fun _ => id)
  intro i hi
  apply (h.confined hw).threatened hi
  rintro frames' args' todo hw' ⟨j, hj, -⟩
  rw [hw] at hw'
  cases hw'
  cases hj

/-- During the walk, or when the step has nothing to do with the datum. -/
theorem Fresh.go_on (hf : Fresh c s d) (hs : Working loc apply c s) (hc : c.Built apply)
    (hw : s.threads w = .active frames phase) (h : Advanced apply c s w frames phase t)
    (htouch : ∀ args, phase ≠ .touch d args) (hend : ∀ args, phase ≠ .invalidate d args []) :
  Fresh c t d
  := by
  have hconfined := h.confined hw
  have hvalues : t.values d = s.values d := by
    rcases h.stored with hsame | ⟨doc, payload, used, -, rfl⟩ | ⟨doc, arg, args, rfl, -, rfl⟩
    · rw [hsame.values]
    · rfl
    · rw [SharedCache.put_values, SharedCache.setDatum_values, if_neg]
      rintro rfl
      exact hend _ rfl
  have hadmits : Admits c s t phase (LastValue s d) := by
    constructor
    · rintro doc args rfl htype x hx hd
      obtain ⟨last, hdatum⟩ := hs.datum doc htype
      rw [hdatum.origins, List.mem_singleton] at hx
      obtain rfl : doc = d := by rwa [hx] at hd
      rw [hx]
      refine ⟨?_, hdatum.length.symm⟩
      rintro ⟨v, frames', args', todo, hv⟩
      have hheld : doc ∈ (s.threads w).held := by
        rw [hw]
        exact List.mem_cons_self
      obtain rfl := hs.eq_of_walking hv hheld
      rw [hw] at hv
      cases hv
    · rintro doc arg args rfl - rfl
      exact absurd rfl (hend (arg :: args))
  apply (hf.advance hs hc (fun _ _ => Threatened.above) hw h hadmits).mono
  · intro i hi
    apply hconfined.threatened hi
    rintro frames' args todo hw' ⟨k, hk, hki⟩
    rw [hw] at hw'
    cases hw'
    cases h with
    | noValue => cases hk
    | value => cases hk
    | mark _ _ j todo =>
        -- the flag of `j` has been set, and the walk is going to come to its ascendants
        have hthreatened : ∀ k ∈ (c.node j).ascendants ++ todo, c.Above k i →
            Threatened c ((s.modify j (fun node => { node with dirty := true })).put w
              (.active frames (.invalidate d args ((c.node j).ascendants ++ todo)))) d i := by
          intro k hk hki
          exact ⟨w, frames, args, _, SharedCache.put_self _ _ _, k, hk, hki⟩
        rcases List.mem_cons.mp hk with rfl | hk
        · rcases Mark.path_iff.mp hki with rfl | ⟨k', hk', hki'⟩
          · left
            rw [SharedCache.put_cache, SharedCache.modify_node, if_pos rfl]
          · exact Or.inr (hthreatened k' (List.mem_append_left _ hk') hki')
        · exact Or.inr (hthreatened k (List.mem_append_right _ hk) hki)
  · intro x hx hd
    obtain ⟨hnot, hlength⟩ := hx hd
    rw [hvalues]
    refine ⟨?_, hlength⟩
    apply h.not_walking hw (fun v frames args todo _ hv => hnot ⟨v, frames, args, todo, hv⟩) htouch
    rintro args i todo rfl
    exact hnot ⟨w, frames, args, i :: todo, hw⟩

/-- What is not spoiled after a step has been computed from the last value of the datum. -/
theorem Fresh.advance (hf : Fresh c s d) (hs : Working loc apply c s) (hc : c.Built apply)
    (hw : s.threads w = .active frames phase) (h : Advanced apply c s w frames phase t) :
  Fresh c t d
  := by
  have ht := hs.advance hc hw h
  by_cases htouch : ∃ args, phase = .touch d args
  · obtain ⟨args, rfl⟩ := htouch
    cases h
    exact ht.fresh_of_walk (SharedCache.put_self _ _ _)
  by_cases hend : ∃ args, phase = .invalidate d args []
  · obtain ⟨args, rfl⟩ := hend
    exact hf.end_walk hs hc hw h
  · apply hf.go_on hs hc hw h
    · exact fun args hphase => htouch ⟨args, hphase⟩
    · exact fun args hphase => hend ⟨args, hphase⟩

/-- A call is no part of a walk. -/
theorem Fresh.call (hf : Fresh c s d) (hs : Working loc apply c s) {doc : ℕ}
    (h : s.call w doc phase = some t) (hlevel : phase.level = [])
    (hphase : ∀ args todo, phase ≠ .invalidate d args todo) :
  Fresh c t d
  := by
  have hguard := Guard.call hf hs h hlevel
  obtain ⟨hconfined, rfl, o, hw⟩ := confined_call h
  apply hguard.mono
  · intro i hi
    apply hconfined.threatened hi
    intro frames args todo hw'
    rw [hw] at hw'
    cases hw'
  · intro x hx hd
    obtain ⟨hnot, hlength⟩ := hx hd
    refine ⟨?_, hlength⟩
    rintro ⟨v, frames, args, todo, hv⟩
    rw [SharedCache.put_threads] at hv
    split at hv
    case isTrue =>
        cases hv
        exact hphase args todo rfl
    case isFalse => exact hnot ⟨v, frames, args, todo, hv⟩

/-- An event is a call, or the next step of a thread that is in a call. -/
theorem Working.event_cases (hs : Working loc apply c s) (hc : c.Built apply) {e : ThreadEvent}
    (h : s.step loc apply e = some t) :
  (∃ w doc phase, s.call w doc phase = some t ∧ phase.held = [] ∧ phase.level = []
      ∧ ∀ d args todo, phase ≠ .invalidate d args todo)
    ∨ ∃ w frames phase, e = .go w ∧ s.threads w = .active frames phase
      ∧ Advanced apply c s w frames phase t
  := by
  cases e with
  | callFetch w doc args => exact Or.inl ⟨w, doc, .fetch doc args, h, rfl, rfl, nofun⟩
  | callTouch w doc args => exact Or.inl ⟨w, doc, .touch doc args, h, rfl, rfl, nofun⟩
  | go w =>
      right
      rw [SharedCache.step] at h
      cases hw : s.threads w with
      | idle o =>
          rw [hw] at h
          cases h
      | active frames phase =>
          rw [hw] at h
          have hok := hs.threads w
          rw [hw] at hok
          exact ⟨w, frames, phase, rfl, hw, advance_cases hc hs.frozen hok.2.1 h⟩

/-- What is not spoiled when the threads start has been computed from the values of the data. -/
theorem Fresh.start (hc : c.Built apply) :
  Fresh c (SharedCache.start c) d
  := by
  refine ⟨?_, fun _ => trivial⟩
  intro i _
  cases htype : (c.node i).type with
  | datum =>
      right
      intro x hx hd
      simp only [SharedCache.start, htype, List.mem_singleton] at hx
      refine ⟨?_, by rw [hx]; rfl⟩
      rintro ⟨v, frames, args, todo, ⟨⟩⟩
  | file => exact absurd htype (hc.type i)
  | chain => exact Or.inl (Or.inl (hc.dirty i htype))

/-- What is known in every state that is reached. -/
theorem fresh_of_reaches (hc : c.Built apply)
    (h : Reaches (SharedCache.step loc apply) (SharedCache.start c) s) :
  Working loc apply c s ∧ ∀ d, Fresh c s d
  := by
  apply h.invariant (I := fun s => Working loc apply c s ∧ ∀ d, Fresh c s d)
  · rintro s e t ⟨hs, hf⟩ hstep
    refine ⟨hs.step hc hstep, ?_⟩
    intro d
    rcases hs.event_cases hc hstep with ⟨w, doc, phase, hcall, -, hlevel, hphase⟩
      | ⟨w, frames, phase, -, hw, hadvance⟩
    · exact (hf d).call hs hcall hlevel (hphase d)
    · exact (hf d).advance hs hc hw hadvance
  · exact ⟨.start hc, fun d => .start hc⟩

/-! ### After a touch has returned -/

/-- What is not spoiled has been computed from later values of the datum than the value number `n`,
and a later value has been stored. -/
structure Since (s : SharedCache) (d n : ℕ) : Prop where
  guard : Guard s (fun _ => False) (fun x => x.1 = d → n < x.2)
  length : n + 2 ≤ (s.values d).length

/-- When the flags are set and the new value has been stored. -/
theorem Fresh.since {replaced : Origins} {x : ℕ × ℕ} (hf : Fresh c s x.1)
    (hs : Working loc apply c s) (hw : s.threads w = .active frames (.finish d replaced))
    (hx : x ∈ replaced) :
  Since s x.1 x.2
  := by
  have hok := hs.threads w
  rw [hw] at hok
  obtain ⟨rfl, hlength⟩ := hok.2.1 x hx
  have hheld : x.1 ∈ (s.threads w).held := by
    rw [hw]
    exact List.mem_cons_self
  refine ⟨hf.mono ?_ ?_, hlength.le⟩
  · rintro i ⟨v, frames', args, todo, hv, -⟩
    obtain rfl := hs.eq_of_walking hv hheld
    rw [hw] at hv
    cases hv
  · intro y hy hd
    obtain ⟨-, hlast⟩ := hy hd
    omega

/-- A step admits later values of the datum only. -/
theorem Since.admits {n : ℕ} (h : Since s d n) (hs : Working loc apply c s) :
  Admits c s t phase (fun x => x.1 = d → n < x.2)
  := by
  have hlength := h.length
  constructor
  · rintro doc args - htype x hx hd
    obtain ⟨last, hdatum⟩ := hs.datum doc htype
    rw [hdatum.origins, List.mem_singleton] at hx
    obtain rfl : doc = d := by rwa [hx] at hd
    have hlast := hdatum.length
    rw [hx]
    omega
  · rintro doc arg args - - rfl
    exact Nat.lt_of_succ_lt hlength

/-- Once a touch has returned, what is not spoiled is not computed from the value that it has
replaced. -/
theorem Since.step {n : ℕ} (h : Since s d n) (hs : Working loc apply c s) (hc : c.Built apply)
    {e : ThreadEvent} (hstep : s.step loc apply e = some t) :
  Since t d n
  := by
  rcases hs.event_cases hc hstep with ⟨w, doc, phase, hcall, -, hlevel, -⟩
    | ⟨w, frames, phase, -, hw, hadvance⟩
  · refine ⟨h.guard.call hs hcall hlevel, ?_⟩
    obtain ⟨-, rfl, -⟩ := confined_call hcall
    exact h.length
  · refine ⟨h.guard.advance hs hc nofun hw hadvance (h.admits hs), ?_⟩
    exact h.length.trans ((hadvance.confined hw).grows d).length_le

/-! ### A fetch that starts afterwards -/

/-- The thread `w` is in a fetch, for which the recipes `frames` wait, and all that it has fetched
since this call has begun satisfies the condition. -/
structure Fetching (s : SharedCache) (w : ℕ) (frames : List Waiting) (ok : ℕ × ℕ → Prop)
    (inner : List Waiting) (phase : CachePhase) : Prop where
  thread : s.threads w = .active (inner ++ frames) phase
  fetches : ¬ phase.Touching
  inHand : ∀ x ∈ (CacheThread.active (inner ++ frames) phase).inHand s.origins, ok x
  used : ∀ l ∈ phase.level ++ inner.map Waiting.level, ∀ x ∈ l.2, ok x

/-- The step is not the one with which the fetch returns. -/
def NotReturning (w : ℕ) (frames : List Waiting) (s : SharedCache) (e : ThreadEvent) : Prop :=
  e = .go w → ∀ doc payload used, s.threads w ≠ .active frames (.unlock doc payload used)

/-- What a thread fetches since its call has begun satisfies the condition. -/
theorem Fetching.advance {ok : ℕ × ℕ → Prop} {inner : List Waiting}
    (h : Fetching s w frames ok inner phase) (hguard : Guard s (fun _ => False) ok)
    (hs : Working loc apply c s) (hc : c.Built apply)
    (hadmits : Admits c s t phase ok) (hadvance : Advanced apply c s w (inner ++ frames) phase t)
    (hreturn : NotReturning w frames s (.go w)) :
  ∃ inner phase, Fetching t w frames ok inner phase
  := by
  obtain ⟨hw, hfetches, hinHand, hused⟩ := h
  have hnil : ∀ x ∈ ([] : Origins), ok x := List.forall_mem_nil ok
  cases hadvance with
  | lock doc args hlocked => exact ⟨inner, _, SharedCache.put_self _ _ _, id, hnil, hused⟩
  | dirty doc args hdirty => exact ⟨inner, _, SharedCache.put_self _ _ _, id, hnil, hused⟩
  | clean doc args hdirty =>
      refine ⟨inner, _, SharedCache.put_self _ _ _, id, ?_, hused⟩
      rcases hguard.nodes doc (hs.not_regenerating hc hw rfl rfl) with (hdirty' | hfalse) | hused'
      · rw [hdirty] at hdirty'
        cases hdirty'
      · exact hfalse.elim
      · exact hused'
  | clear doc args =>
      refine ⟨inner, _, SharedCache.put_self _ _ _, id, hnil, ?_⟩
      intro l hl
      rcases List.mem_cons.mp hl with rfl | hl
      · exact hnil
      · exact hused l hl
  | datum doc args htype =>
      refine ⟨inner, _, SharedCache.put_self _ _ _, id, hadmits.read doc args rfl htype, ?_⟩
      exact fun l hl => hused l (List.mem_cons_of_mem _ hl)
  | chain doc args htype => exact ⟨inner, _, SharedCache.put_self _ _ _, id, hnil, hused⟩
  | ret doc v used => exact ⟨inner, _, SharedCache.put_self _ _ _, id, hnil, hused⟩
  | fetch doc d args cont used =>
      exact ⟨⟨doc, cont, used⟩ :: inner, _, SharedCache.put_self _ _ _, id, hnil, hused⟩
  | store doc payload used =>
      refine ⟨inner, _, SharedCache.put_self _ _ _, id, ?_, ?_⟩
      · intro x hx
        rw [CacheThread.inHand, SharedCache.put_origins, SharedCache.setPayload_origins,
          if_pos rfl] at hx
        exact hused _ List.mem_cons_self x hx
      · exact fun l hl => hused l (List.mem_cons_of_mem _ hl)
  | read doc => exact ⟨inner, _, SharedCache.put_self _ _ _, id, hinHand, hused⟩
  | unlock doc payload used =>
      cases inner with
      | nil => exact absurd hw (hreturn rfl doc payload used)
      | cons f inner =>
          refine ⟨inner, _, SharedCache.put_self _ _ _, id, hnil, ?_⟩
          intro l hl x hx
          rcases List.mem_cons.mp hl with rfl | hl
          · rcases List.mem_append.mp hx with hx | hx
            · exact hused _ List.mem_cons_self x hx
            · exact hinHand x hx
          · exact hused l (List.mem_cons_of_mem _ hl) x hx
  | lockTouch | mark | value | noValue | finish => exact absurd trivial hfetches

/-- A step of another thread, or a call. -/
theorem Fetching.other {ok : ℕ × ℕ → Prop} {inner : List Waiting}
    (h : Fetching s w frames ok inner phase) {v : ℕ} (hconfined : Confined s t v) (hv : w ≠ v)
    (hheld : ∀ i, i ∈ (s.threads w).held → i ∉ (s.threads v).held) :
  Fetching t w frames ok inner phase
  := by
  obtain ⟨hw, hfetches, hinHand, hused⟩ := h
  refine ⟨(hconfined.threads w hv).trans hw, hfetches, ?_, hused⟩
  rw [hw] at hheld
  rw [hconfined.inHand hheld]
  exact hinHand

/-- A fetch goes on, and what it fetches satisfies the condition. -/
theorem Fetching.step {n : ℕ} {inner : List Waiting}
    (h : Fetching s w frames (fun x => x.1 = d → n < x.2) inner phase) (hsince : Since s d n)
    (hs : Working loc apply c s) (hc : c.Built apply) {e : ThreadEvent}
    (hstep : s.step loc apply e = some t) (hreturn : NotReturning w frames s e) :
  ∃ inner phase, Fetching t w frames (fun x => x.1 = d → n < x.2) inner phase
  := by
  rcases hs.event_cases hc hstep with ⟨v, doc, phase', hcall, -⟩
    | ⟨v, frames', phase', rfl, hv, hadvance⟩
  · obtain ⟨hconfined, -, o, hv⟩ := confined_call hcall
    have hwv : w ≠ v := by
      rintro rfl
      have := hv.symm.trans h.thread
      cases this
    refine ⟨inner, phase, h.other hconfined hwv ?_⟩
    rw [hv]
    exact fun _ _ => List.not_mem_nil
  · by_cases hvw : v = w
    · subst hvw
      obtain ⟨rfl, rfl⟩ := CacheThread.active.inj (hv.symm.trans h.thread)
      exact h.advance hsince.guard hs hc (hsince.admits hs) hadvance hreturn
    · refine ⟨inner, phase, h.other (hadvance.confined hv) (Ne.symm hvw) ?_⟩
      exact fun i hi hi' => hvw ((hs.exclusive w i hi).2 v hi')

/-- What a fetch returns that starts after a touch has returned has not been computed from the value
that the touch has replaced. -/
theorem Since.not_mem_fetched {x : ℕ × ℕ} (hsince : Since s x.1 x.2)
    (hs : Working loc apply c s) (hc : c.Built apply) {doc : ℕ} {args : List Scm}
    (hw : s.threads w = .active frames (.fetch doc args)) {events : List ThreadEvent}
    (hrun : run (SharedCache.step loc apply) s events = some t)
    (hmeets : Meets (SharedCache.step loc apply) (NotReturning w frames) s events)
    {doc' : ℕ} {payload : Scm} {used : Origins}
    (hreturns : t.threads w = .active frames (.unlock doc' payload used)) :
  x ∉ used
  := by
  have hfetching : ∃ inner phase,
      Fetching t w frames (fun y => y.1 = x.1 → x.2 < y.2) inner phase := by
    apply (run_invariant_of_meets
      (I := fun s => (Working loc apply c s ∧ Since s x.1 x.2) ∧ ∃ inner phase,
        Fetching s w frames (fun y => y.1 = x.1 → x.2 < y.2) inner phase) ?_ ?_ hmeets hrun).2
    · rintro s e t ⟨⟨hs, hsince⟩, inner, phase, hfetching⟩ hreturn hstep
      exact ⟨⟨hs.step hc hstep, hsince.step hs hc hstep⟩,
        hfetching.step hsince hs hc hstep hreturn⟩
    · exact ⟨⟨hs, hsince⟩, [], _, hw, nofun, nofun, nofun⟩
  obtain ⟨inner, phase, hthread, -, hinHand, -⟩ := hfetching
  obtain ⟨hframes, rfl⟩ := CacheThread.active.inj (hthread.symm.trans hreturns)
  intro hx
  exact Nat.lt_irrefl _ (hinHand x hx rfl)

/-! ### When no call is in progress -/

/-- The payload of a clean document is its value for the data as they are, when no call is in
progress. -/
theorem Working.payload_eq_recompute (hs : Working loc apply c s) (hc : c.Built apply)
    (hfresh : ∀ d, Fresh c s d) (hidle : ∀ v, ∃ o, s.threads v = .idle o) {i : ℕ}
    (hdirty : (s.cache.node i).dirty = false) :
  (s.cache.node i).payload = s.cache.recompute loc apply i
  := by
  have hregenerating : ¬ Regenerating s i := by
    rintro ⟨v, hv⟩
    obtain ⟨o, ho⟩ := hidle v
    rw [ho] at hv
    cases hv
  have hlast : ∀ x ∈ s.origins i, x.2 + 1 = (s.values x.1).length := by
    intro x hx
    rcases (hfresh x.1).nodes i hregenerating with (hdirty' | ⟨v, _, _, _, hv, -⟩) | hok
    · rw [hdirty] at hdirty'
      cases hdirty'
    · obtain ⟨o, ho⟩ := hidle v
      have := ho.symm.trans hv
      cases this
    · exact (hok x hx rfl).2
  have hagree : DataAgree s.values (fun i => (s.cache.node i).payload) (s.origins i) := by
    intro x hx v hv
    obtain ⟨last, hdatum⟩ := hs.datum x.1 (hs.below i x hx).1
    have hx2 : x.2 = last := by
      have := hlast x hx
      rw [hdatum.length] at this
      omega
    rw [hx2, hdatum.payload] at hv
    exact Option.some.inj hv
  rw [hc.recompute_eq hs.frozen]
  cases htype : (c.node i).type with
  | datum => rw [Cache.valueOf_datum _ htype]
  | file => exact absurd htype (hc.type i)
  | chain =>
      rcases hs.node i hregenerating htype with hdirty' | hcomputed
      · rw [hdirty] at hdirty'
        cases hdirty'
      · exact hcomputed.value _ hagree

variable (loc apply) in
/-- What threads at a cache that has been made can rely on. -/
structure ConcurrentlyCoherent (c : Cache) : Prop where
  /-- When a call of `touch-doc` returns in the state `s`, and a call of `fetch-doc` begins in a later
  state, also one from a recipe, then the payload that this call is going to return when it ends has
  not been computed from the value that `touch-doc` has replaced. -/
  fetch : ∀ {s s₁ s₂ s₃ : SharedCache} {v w d doc doc' : ℕ} {frames frames' : List Waiting}
    {replaced used : Origins} {args : List Scm} {payload : Scm} {events : List ThreadEvent},
    Reaches (SharedCache.step loc apply) (SharedCache.start c) s →
    s.threads v = .active frames (.finish d replaced) →
    s.step loc apply (.go v) = some s₁ →
    Reaches (SharedCache.step loc apply) s₁ s₂ →
    s₂.threads w = .active frames' (.fetch doc args) →
    run (SharedCache.step loc apply) s₂ events = some s₃ →
    Meets (SharedCache.step loc apply) (NotReturning w frames') s₂ events →
    s₃.threads w = .active frames' (.unlock doc' payload used) →
    ∀ x ∈ replaced, x ∉ used
  /-- Whenever no call is in progress, every clean node has the recomputed value as its payload. -/
  clean : ∀ {s : SharedCache}, Reaches (SharedCache.step loc apply) (SharedCache.start c) s →
    (∀ v, ∃ o, s.threads v = .idle o) → ∀ i, (s.cache.node i).dirty = false →
    (s.cache.node i).payload = s.cache.recompute loc apply i

/-- Any number of threads can work at a cache of data and documents: a fetch that begins after a touch
has returned is not computed from the value that the touch has replaced, and whenever no call is in
progress, every clean node has the recomputed value as its payload. -/
theorem concurrently_coherent {files : List UInt8 → Option File} {newest : ℕ}
    {makes : List CacheAction} (hmakes : ∀ a ∈ makes, PureMake apply a)
    (hrun : run (cacheStep loc apply) (startCache files newest) makes = some c) :
  ConcurrentlyCoherent loc apply c
  := by
  have hc : c.Built apply := Cache.built_of_run hmakes hrun
  constructor
  · intro s s₁ s₂ s₃ v w d doc doc' frames frames' replaced used args payload events hreaches hv
      hstep hreaches' hw hevents hmeets hreturns x hx
    obtain ⟨hs, hfresh⟩ := fresh_of_reaches hc hreaches
    have hsince : Since s x.1 x.2 := (hfresh x.1).since hs hv hx
    have hinvariant := hreaches'.invariant
      (I := fun s => Working loc apply c s ∧ Since s x.1 x.2)
      (fun s e t hs hstep => ⟨hs.1.step hc hstep, hs.2.step hs.1 hc hstep⟩)
      ⟨hs.step hc hstep, hsince.step hs hc hstep⟩
    exact hinvariant.2.not_mem_fetched hinvariant.1 hc hw hevents hmeets hreturns
  · intro s hreaches hidle i hdirty
    obtain ⟨hs, hfresh⟩ := fresh_of_reaches hc hreaches
    exact hs.payload_eq_recompute hc hfresh hidle hdirty

end Procedures

/-- A datum, and a document made from it. -/
def makeOverlap : List CacheAction :=
  [.make (.symbol "data".toList) (.str "a".toList), .make (.docs [0]) (.bool true)]

/-- The thread 1 has fetched the datum for the document when the thread 2 touches the datum. -/
def touchDuringFetch : List ThreadEvent :=
  .callFetch 1 1 [] :: List.replicate 9 (.go 1)
    ++ .callTouch 2 0 [.str "b".toList] :: List.replicate 4 (.go 2)

/-- The thread 1 stores the payload that it has computed from the old value, and then the thread 3
fetches the document. -/
def fetchAgain : List ThreadEvent :=
  List.replicate 4 (.go 1) ++ [.callFetch 3 1 []]

/-- A touch in the middle of a fetch leaves an old payload in the cache, which is not returned by the
next fetch. -/
theorem concurrently_coherent_overlap :
  ∃ c s s₁ s₂ s₃ used,
    run (cacheStep latin1 returnsFirst) (startCache (fun _ => none) 0) makeOverlap = some c
    ∧ run (SharedCache.step latin1 returnsFirst) (SharedCache.start c) touchDuringFetch = some s
    ∧ s.threads 2 = .active [] (.finish 0 [(0, 0)])
    ∧ s.step latin1 returnsFirst (.go 2) = some s₁
    ∧ run (SharedCache.step latin1 returnsFirst) s₁ fetchAgain = some s₂
    ∧ (s₂.cache.node 1).payload = .str "a".toList
    ∧ run (SharedCache.step latin1 returnsFirst) s₂ (List.replicate 14 (.go 3)) = some s₃
    ∧ s₃.threads 3 = .active [] (.unlock 1 (.str "b".toList) used)
    ∧ (0, 0) ∉ used
  := by
  have hpure : ∀ a ∈ makeOverlap, PureMake returnsFirst a := by
    intro a ha
    rcases List.mem_pair.mp ha with rfl | rfl
    · exact fun h => absurd h (by decide)
    · exact ⟨fun _ => ⟨List.mem_singleton.mpr rfl, fun _ => trivial⟩, fun _ _ => rfl⟩
  have hruns : ∃ c s s₁ s₂ s₃ used,
      run (cacheStep latin1 returnsFirst) (startCache (fun _ => none) 0) makeOverlap = some c
      ∧ run (SharedCache.step latin1 returnsFirst) (SharedCache.start c) touchDuringFetch = some s
      ∧ s.threads 2 = .active [] (.finish 0 [(0, 0)])
      ∧ s.step latin1 returnsFirst (.go 2) = some s₁
      ∧ run (SharedCache.step latin1 returnsFirst) s₁ fetchAgain = some s₂
      ∧ (s₂.cache.node 1).payload = .str "a".toList
      ∧ s₂.threads 3 = .active [] (.fetch 1 [])
      ∧ run (SharedCache.step latin1 returnsFirst) s₂ (List.replicate 14 (.go 3)) = some s₃
      ∧ s₃.threads 3 = .active [] (.unlock 1 (.str "b".toList) used)
      ∧ Meets (SharedCache.step latin1 returnsFirst) (NotReturning 3 []) s₂
        (List.replicate 14 (.go 3)) := by
    refine ⟨_, _, _, _, _, _, rfl, rfl, rfl, rfl, rfl, rfl, rfl, rfl, rfl, ?_⟩
    iterate 14
      refine ⟨fun _ => nofun, fun t ht => ?_⟩
      obtain rfl := Option.some.inj ht
      clear ht
    trivial
  obtain ⟨c, s, s₁, s₂, s₃, used, hmakes, hrun, htouch, hreturn, hagain, hold, hbegin, hfetch, hnew,
    hmeets⟩ := hruns
  refine ⟨c, s, s₁, s₂, s₃, used, hmakes, hrun, htouch, hreturn, hagain, hold, hfetch, hnew, ?_⟩
  exact (concurrently_coherent hpure hmakes).fetch ⟨_, hrun⟩ htouch hreturn ⟨_, hagain⟩ hbegin hfetch
    hmeets hnew _ List.mem_cons_self

end Gusher
