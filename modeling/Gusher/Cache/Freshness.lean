import Gusher.Cache.Regeneration

/-!
# What guards against old data

A document is spoiled when its flag is set, or when a walk of `invalidate` is still going to set it.
For a condition on origins, a state is guarded (`Guard`) when the origins of every payload satisfy the
condition unless the document is spoiled, and so do the origins of all that has been fetched for a
document that is being regenerated, also by the recipes that it waits for.  Every step of a thread
keeps a state guarded (`Guard.advance`): a thread uses the payload of a document only when the flag is
not set, and clears the flag before it fetches anything for the new payload.
-/

namespace Gusher

/-- What a thread has got from the document that it is at, and has not returned yet. -/
def CacheThread.inHand (origins : ℕ → Origins) : CacheThread → Origins
  | .active _ (.read doc) => origins doc
  | .active _ (.unlock _ _ used) => used
  | _ => []

/-- A property of every document that is being regenerated, with the origins of all that has been
fetched for it so far. -/
def Nested (P : ℕ → Origins → Prop) : Origins → List (ℕ × Origins) → Prop
  | _, [] => True
  | inner, l :: levels => P l.1 (l.2 ++ inner) ∧ Nested P (l.2 ++ inner) levels

/-- Its flag is set, or it is going to be set. -/
def Spoiled (s : SharedCache) (T : ℕ → Prop) (doc : ℕ) : Prop :=
  (s.cache.node doc).dirty = true ∨ T doc

/-- The document is spoiled, or the origins satisfy the condition. -/
def Guards (s : SharedCache) (T : ℕ → Prop) (ok : ℕ × ℕ → Prop) (doc : ℕ) (used : Origins) : Prop :=
  Spoiled s T doc ∨ ∀ x ∈ used, ok x

/-- The origins of payloads satisfy the condition, unless the flag of the document is set or is going
to be set. -/
structure Guard (s : SharedCache) (T : ℕ → Prop) (ok : ℕ × ℕ → Prop) : Prop where
  nodes : ∀ i, ¬ Regenerating s i → Guards s T ok i (s.origins i)
  threads : ∀ v, Nested (Guards s T ok) ((s.threads v).inHand s.origins) (s.threads v).levels

section Nested

variable {P Q : ℕ → Origins → Prop} {inner : Origins} {levels : List (ℕ × Origins)}

/-- A property that another one implies for the documents that are being regenerated. -/
theorem Nested.imp (h : Nested P inner levels)
    (hPQ : ∀ doc ∈ levels.map Prod.fst, ∀ used, P doc used → Q doc used) :
  Nested Q inner levels
  := by
  induction levels generalizing inner with
  | nil => trivial
  | cons l levels ih =>
      refine ⟨hPQ l.1 List.mem_cons_self _ h.1, ih h.2 ?_⟩
      exact fun doc hdoc => hPQ doc (List.mem_cons_of_mem _ hdoc)

/-- A property that holds of the documents that are being regenerated, whatever has been fetched. -/
theorem Nested.of_forall (h : ∀ doc ∈ levels.map Prod.fst, ∀ used, P doc used) :
  Nested P inner levels
  := by
  induction levels generalizing inner with
  | nil => trivial
  | cons l levels ih =>
      refine ⟨h l.1 List.mem_cons_self _, ih ?_⟩
      exact fun doc hdoc => h doc (List.mem_cons_of_mem _ hdoc)

/-- Something else in hand, which satisfies the condition. -/
theorem Nested.inHand {s : SharedCache} {T : ℕ → Prop} {ok : ℕ × ℕ → Prop}
    (h : Nested (Guards s T ok) inner levels) {inner' : Origins}
    (hinner : ∀ x ∈ inner', x ∈ inner ∨ ok x) :
  Nested (Guards s T ok) inner' levels
  := by
  induction levels generalizing inner inner' with
  | nil => trivial
  | cons l levels ih =>
      have happend : ∀ x ∈ l.2 ++ inner', x ∈ l.2 ++ inner ∨ ok x := by
        intro x hx
        rcases List.mem_append.mp hx with hx | hx
        · exact Or.inl (List.mem_append_left _ hx)
        · exact (hinner x hx).imp_left (List.mem_append_right _)
      refine ⟨h.1.imp_right ?_, ih h.2 happend⟩
      intro hok x hx
      exact (happend x hx).elim (hok x) id

end Nested

section Procedures

variable {loc : Locale} {apply : Scm → List Scm → Recipe} {c : Cache} {s t : SharedCache} {w : ℕ}
  {frames : List Waiting} {phase : CachePhase} {T T' : ℕ → Prop} {ok ok' : ℕ × ℕ → Prop}

/-- A guarded state, with more documents that are spoiled and a weaker condition. -/
theorem Guard.mono (h : Guard s T ok) (hT : ∀ i, T i → Spoiled s T' i) (hok : ∀ x, ok x → ok' x) :
  Guard s T' ok'
  := by
  have hguards : ∀ i used, Guards s T ok i used → Guards s T' ok' i used := by
    intro i used hi
    exact hi.imp (fun hspoiled => hspoiled.elim Or.inl (hT i)) (fun hused x hx => hok x (hused x hx))
  exact ⟨fun i hi => hguards i _ (h.nodes i hi), fun v => (h.threads v).imp (fun i _ => hguards i)⟩

/-- What has been fetched for a document has been computed from data below it. -/
theorem FramesOk.nested {values : ℕ → List Scm} {child : ℕ}
    (h : FramesOk loc apply c values child frames) {inner : Origins}
    (hinner : ∀ x ∈ inner, c.Feeds x.1 child) :
  Nested (fun doc used => ∀ x ∈ used, c.Feeds x.1 doc) inner (frames.map Waiting.level)
  := by
  induction frames generalizing child inner with
  | nil => trivial
  | cons f frames ih =>
      have hfeeds : ∀ x ∈ f.used ++ inner, c.Feeds x.1 f.doc := by
        intro x hx
        rcases List.mem_append.mp hx with hx | hx
        · exact (h.1.2 (.bool true)).below x hx
        · obtain ⟨htype, hbelow⟩ := hinner x hx
          exact ⟨htype, hbelow.tail h.1.1⟩
      exact ⟨hfeeds, ih h.2 hfeeds⟩

/-- What a thread has fetched for a document has been computed from data below it. -/
theorem Working.nested (hs : Working loc apply c s) (v : ℕ) :
  Nested (fun doc used => ∀ x ∈ used, c.Feeds x.1 doc) ((s.threads v).inHand s.origins)
    (s.threads v).levels
  := by
  have hok := hs.threads v
  cases hv : s.threads v with
  | idle => trivial
  | active frames phase =>
      rw [hv] at hok
      obtain ⟨hframes, hphase, -⟩ := hok
      cases phase with
      | fetch | check | clear | touch | invalidate | finish => exact hframes.nested nofun
      | generate => exact ⟨nofun, hframes.nested nofun⟩
      | run doc recipe used =>
          have hused : ∀ x ∈ used ++ [], c.Feeds x.1 doc := by
            rw [List.append_nil]
            exact hphase.below
          exact ⟨hused, hframes.nested hused⟩
      | store doc payload used =>
          have hused : ∀ x ∈ used ++ [], c.Feeds x.1 doc := by
            rw [List.append_nil]
            exact hphase.2.below
          exact ⟨hused, hframes.nested hused⟩
      | read doc => exact hframes.nested (hs.below doc)
      | unlock doc payload used => exact hframes.nested hphase.below

/-! ### Steps -/

/-- A document that a thread waits for is spoiled after a step of the thread if it was before. -/
theorem Advanced.spoiled (h : Advanced apply c s w frames phase t)
    (hframes : phase.doc ∉ frames.map Waiting.doc) {i : ℕ} (hi : i ∈ frames.map Waiting.doc)
    (hspoiled : Spoiled s T i) :
  Spoiled t T i
  := by
  refine hspoiled.imp_left ?_
  intro hdirty
  by_cases hclear : ∃ doc args, phase = .clear doc args
  · obtain ⟨doc, args, rfl⟩ := hclear
    cases h
    rw [SharedCache.put_cache, SharedCache.modify_node, if_neg]
    · exact hdirty
    · rintro rfl
      exact hframes hi
  · exact h.dirty_mono (fun doc args hphase => hclear ⟨doc, args, hphase⟩) hdirty

/-- What is in the hands of another thread after a step. -/
theorem Confined.inHand (h : Confined s t w) {thread : CacheThread}
    (hheld : ∀ i, i ∈ thread.held → i ∉ (s.threads w).held) :
  thread.inHand t.origins = thread.inHand s.origins
  := by
  cases thread with
  | idle => rfl
  | active frames phase =>
      cases phase with
      | read doc => exact h.origins doc (hheld doc List.mem_cons_self)
      | fetch | check | clear | generate | run | store | unlock | touch | invalidate | finish => rfl

/-- A step keeps the other threads guarded. -/
theorem Guard.other (hg : Guard s T ok) (hs : Working loc apply c s) (h : Confined s t w) {v : ℕ}
    (hv : v ≠ w) :
  Nested (Guards t T ok) ((t.threads v).inHand t.origins) (t.threads v).levels
  := by
  have hheld : ∀ i, i ∈ (s.threads v).held → i ∉ (s.threads w).held :=
    fun i hi hi' => hv ((hs.exclusive w i hi').2 v hi)
  rw [h.threads v hv, h.inHand hheld]
  apply (hg.threads v).imp
  intro doc hdoc used
  exact Or.imp_left (Or.imp_left (h.dirty doc (hheld doc (held_of_mem_levels hdoc))))

/-- What a step of a thread does to the conditions: the value of a datum that it reads, and a new
value of a datum that it stores, have to satisfy the condition. -/
structure Admits (c : Cache) (s t : SharedCache) (phase : CachePhase) (ok : ℕ × ℕ → Prop) :
    Prop where
  read : ∀ doc args, phase = .generate doc args → (c.node doc).type = .datum →
    ∀ x ∈ s.origins doc, ok x
  store : ∀ doc arg args, phase = .invalidate doc (arg :: args) [] →
    t.values doc = s.values doc ++ [arg] → ok (doc, (s.values doc).length)

/-- A step keeps the payloads guarded. -/
theorem Guard.nodes_advance (hg : Guard s T ok) (hs : Working loc apply c s) (hc : c.Built apply)
    (hw : s.threads w = .active frames phase) (h : Advanced apply c s w frames phase t)
    (hadmits : Admits c s t phase ok) {i : ℕ} (hi : ¬ Regenerating t i) :
  Guards t T ok i (t.origins i)
  := by
  have hconfined := h.confined hw
  refine nodes_step (Q := fun i => Guards t T ok i (t.origins i)) hg.nodes hw h ?_ ?_ hi
  · intro j hj
    rw [hconfined.origins j hj]
    exact Or.imp_left (Or.imp_left (hconfined.dirty j hj))
  intro hheld hnot hguards
  rcases h.not_regenerating hw hheld hnot with ⟨hphase, hlevel, hclear⟩
    | ⟨doc, payload, used, rfl⟩ | ⟨doc, args, rfl, hdatum⟩
  · have hguards := hguards (hs.not_regenerating hc hw hphase hlevel)
    rcases h.stored with hsame | ⟨doc, payload, used, rfl, rfl⟩ | ⟨doc, arg, args, rfl, -, rfl⟩
    · rw [hsame.origins]
      exact hguards.imp_left (Or.imp_left (h.dirty_mono hclear))
    · cases hlevel
    · right
      intro x hx
      rw [CachePhase.doc, SharedCache.put_origins, SharedCache.setDatum_origins, if_pos rfl] at hx
      rw [List.mem_singleton.mp hx]
      apply hadmits.store doc arg args rfl
      rw [SharedCache.put_values, SharedCache.setDatum_values, if_pos rfl]
  · have hthread := (hg.threads w)
    rw [hw] at hthread
    have hused : Guards s T ok doc (used ++ []) := hthread.1
    rw [List.append_nil] at hused
    have horigins : t.origins doc = used := by
      cases h
      rw [SharedCache.put_origins, SharedCache.setPayload_origins, if_pos rfl]
    rw [CachePhase.doc, horigins]
    exact hused.imp_left (Or.imp_left (h.dirty_mono (by rintro _ _ ⟨⟩)))
  · right
    have hsame : t.origins doc = s.origins doc := by
      cases h with
      | datum => rfl
      | chain => rfl
    rw [CachePhase.doc, hsame]
    exact hadmits.read doc args rfl hdatum

/-- A step keeps its thread guarded. -/
theorem Guard.thread_advance (hg : Guard s T ok) (hs : Working loc apply c s) (hc : c.Built apply)
    (hT : ∀ i j, T i → c.Above i j → T j) (hw : s.threads w = .active frames phase)
    (h : Advanced apply c s w frames phase t) (hadmits : Admits c s t phase ok) :
  Nested (Guards t T ok) ((t.threads w).inHand t.origins) (t.threads w).levels
  := by
  have hok := hs.threads w
  rw [hw] at hok
  obtain ⟨hframes, -, htouching⟩ := hok
  have hthread := hg.threads w
  rw [hw] at hthread
  have hspoiled : ∀ {inner}, Nested (Guards s T ok) inner (frames.map Waiting.level) →
      Nested (Guards t T ok) inner (frames.map Waiting.level) := by
    intro inner hnested
    apply hnested.imp
    rw [map_fst_level]
    intro i hi used
    exact Or.imp_left (h.spoiled (hframes.not_mem hc.formed.layered) hi)
  cases h with
  | lock | lockTouch | dirty | mark =>
      rw [SharedCache.put_self]
      exact hspoiled hthread
  | clean doc args hdirty =>
      rw [SharedCache.put_self]
      rcases hg.nodes doc (hs.not_regenerating hc hw rfl rfl) with (hdirty' | hdoc) | hused
      · rw [hdirty] at hdirty'
        cases hdirty'
      · -- the flag is going to be set, and so are those of the documents above
        apply Nested.of_forall
        intro i hi used
        obtain ⟨f, hf, rfl⟩ := List.mem_map.mp (map_fst_level frames ▸ hi)
        exact Or.inl (Or.inr (hT doc f.doc hdoc (hframes.above hf)))
      · exact (hspoiled hthread).inHand (fun x hx => Or.inr (hused x hx))
  | clear doc args =>
      rw [SharedCache.put_self]
      exact ⟨Or.inr nofun, hspoiled hthread⟩
  | datum doc args htype =>
      rw [SharedCache.put_self]
      apply (hspoiled hthread.2).inHand
      exact fun x hx => Or.inr (hadmits.read doc args rfl htype x hx)
  | chain doc args htype =>
      rw [SharedCache.put_self]
      exact ⟨Or.inr nofun, hspoiled hthread.2⟩
  | ret doc v used =>
      rw [SharedCache.put_self]
      exact ⟨hthread.1, hspoiled hthread.2⟩
  | fetch doc d args cont used =>
      rw [SharedCache.put_self]
      exact ⟨hthread.1, hspoiled hthread.2⟩
  | store doc payload used =>
      rw [SharedCache.put_self]
      apply (hspoiled hthread.2).inHand
      intro x hx
      rw [CacheThread.inHand, SharedCache.put_origins, SharedCache.setPayload_origins,
        if_pos rfl] at hx
      exact Or.inl (List.mem_append_left _ hx)
  | read doc =>
      rw [SharedCache.put_self]
      exact hspoiled hthread
  | unlock doc payload used =>
      rw [SharedCache.put_self]
      have hframes' := hspoiled hthread
      cases frames with
      | nil => trivial
      | cons f frames =>
          have hinner : ∀ {P : ℕ → Origins → Prop}, Nested P used ((f :: frames).map Waiting.level) →
              Nested P [] ((f.doc, f.used ++ used) :: frames.map Waiting.level) := by
            intro P hnested
            rw [Nested, List.append_nil]
            exact hnested
          exact hinner hframes'
  | value | noValue =>
      rw [SharedCache.put_self]
      exact hspoiled hthread
  | finish doc replaced =>
      rw [SharedCache.put_self, htouching trivial]
      trivial

/-- A step keeps a state guarded. -/
theorem Guard.advance (hg : Guard s T ok) (hs : Working loc apply c s) (hc : c.Built apply)
    (hT : ∀ i j, T i → c.Above i j → T j) (hw : s.threads w = .active frames phase)
    (h : Advanced apply c s w frames phase t) (hadmits : Admits c s t phase ok) :
  Guard t T ok
  where
  nodes _ hi := hg.nodes_advance hs hc hw h hadmits hi
  threads v := by
    by_cases hv : v = w
    · rw [hv]
      exact hg.thread_advance hs hc hT hw h hadmits
    · exact hg.other hs (h.confined hw) hv

/-- A call keeps a state guarded. -/
theorem Guard.call (hg : Guard s T ok) (hs : Working loc apply c s) {doc : ℕ}
    (h : s.call w doc phase = some t) (hlevel : phase.level = []) :
  Guard t T ok
  := by
  obtain ⟨hconfined, rfl, o, hw⟩ := confined_call h
  constructor
  · intro i hi
    apply hg.nodes i
    rintro ⟨v, hv⟩
    by_cases hvw : v = w
    · rw [hvw, hw] at hv
      cases hv
    · apply hi
      use v
      rwa [hconfined.threads v hvw]
  · intro v
    by_cases hv : v = w
    · rw [hv, SharedCache.put_self, CacheThread.levels, hlevel]
      trivial
    · exact hg.other hs hconfined hv

end Procedures

end Gusher
