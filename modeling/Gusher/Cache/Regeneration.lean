import Gusher.Cache.Exclusion

/-!
# Regenerating documents

Between the clearing of the flag of a document and the storing of its payload, a thread regenerates
the document.  Every other document that is clean has a payload that has been computed from the data
that its origins say (`Working.node`), although these data may have been replaced since.
-/

namespace Gusher

/-- What a thread is regenerating in its innermost call, with the origins of what it has fetched for
it. -/
def CachePhase.level : CachePhase → List (ℕ × Origins)
  | generate doc _ => [(doc, [])]
  | run doc _ used | store doc _ used => [(doc, used)]
  | _ => []

/-- The document that a recipe waits for to be regenerated, with the origins of what the recipe has
fetched. -/
def Waiting.level (f : Waiting) : ℕ × Origins :=
  (f.doc, f.used)

/-- What a thread is regenerating, from the inside. -/
def CacheThread.levels : CacheThread → List (ℕ × Origins)
  | idle _ => []
  | active frames phase => phase.level ++ frames.map Waiting.level

/-- Some thread is regenerating the document. -/
def Regenerating (s : SharedCache) (doc : ℕ) : Prop :=
  ∃ v, doc ∈ (s.threads v).levels.map Prod.fst

theorem map_fst_level (frames : List Waiting) :
  (frames.map Waiting.level).map Prod.fst = frames.map Waiting.doc
  := by
  rw [List.map_map]
  rfl

/-- A thread holds the mutexes of the documents that it is regenerating. -/
theorem held_of_mem_levels {thread : CacheThread} {doc : ℕ}
    (h : doc ∈ thread.levels.map Prod.fst) :
  doc ∈ thread.held
  := by
  cases thread with
  | idle => cases h
  | active frames phase =>
      rw [CacheThread.levels, List.map_append, map_fst_level] at h
      rw [CacheThread.held]
      rcases List.mem_append.mp h with h | h
      · apply List.mem_append_left
        cases phase with
        | generate | run | store => exact h
        | fetch | check | clear | read | unlock | touch | invalidate | finish => cases h
      · exact List.mem_append_right _ h

section Procedures

variable {loc : Locale} {apply : Scm → List Scm → Recipe} {c : Cache} {s t : SharedCache} {w : ℕ}
  {frames : List Waiting} {phase : CachePhase}

/-- A recipe that waits goes on waiting, or runs. -/
theorem Advanced.levels (h : Advanced apply c s w frames phase t) {doc : ℕ}
    (hdoc : doc ∈ frames.map Waiting.doc) :
  Regenerating t doc
  := by
  have hframes : ∀ phase, doc ∈ (CacheThread.active frames phase).levels.map Prod.fst := by
    intro phase
    rw [CacheThread.levels, List.map_append, map_fst_level]
    exact List.mem_append_right _ hdoc
  have hdeliver : ∀ o used, doc ∈ (deliver frames o used).levels.map Prod.fst := by
    intro o used
    cases frames with
    | nil => cases hdoc
    | cons f frames =>
        rw [deliver, CacheThread.levels, List.map_append, map_fst_level]
        exact hdoc
  use w
  cases h with
  | unlock | finish =>
      rw [SharedCache.put_self]
      apply hdeliver
  | fetch d _ _ _ =>
      rw [SharedCache.put_self, CacheThread.levels, List.map_append, map_fst_level]
      exact List.mem_cons_of_mem _ hdoc
  | lock | dirty | clean | clear | datum | chain | ret | store | read | lockTouch | mark | value
  | noValue =>
      rw [SharedCache.put_self]
      apply hframes

/-- When nobody is regenerating the document that a thread is at after the step of the thread, the
thread was not regenerating it before, has stored its payload, or has found that it is a datum. -/
theorem Advanced.not_regenerating (h : Advanced apply c s w frames phase t)
    (hw : s.threads w = .active frames phase) (hheld : phase.doc ∈ (s.threads w).held)
    (hnot : ¬ Regenerating t phase.doc) :
  (phase.held = [phase.doc] ∧ phase.level = [] ∧ ∀ doc args, phase ≠ .clear doc args)
    ∨ (∃ doc payload used, phase = .store doc payload used)
    ∨ (∃ doc args, phase = .generate doc args ∧ (c.node doc).type = .datum)
  := by
  have hframes : phase.doc ∉ frames.map Waiting.doc := fun hmem => hnot (h.levels hmem)
  have hregenerates : ∀ {frames' phase'}, t.threads w = .active frames' phase' →
      phase.doc ∈ (phase'.level ++ frames'.map Waiting.level).map Prod.fst → False := by
    intro frames' phase' ht hmem
    apply hnot
    use w
    rw [ht]
    exact hmem
  cases h with
  | lock | lockTouch =>
      rw [hw] at hheld
      exact absurd hheld hframes
  | dirty | clean | read | unlock | finish | mark | value | noValue =>
      exact Or.inl ⟨rfl, rfl, nofun⟩
  | clear | chain | ret | fetch =>
      exact (hregenerates (SharedCache.put_self _ _ _) List.mem_cons_self).elim
  | datum doc args htype => exact Or.inr (Or.inr ⟨doc, args, rfl, htype⟩)
  | store doc payload used => exact Or.inr (Or.inl ⟨doc, payload, used, rfl⟩)

/-- What is known of the documents that nobody is regenerating, after a step of the thread `w`: the
step may change the documents whose mutexes the thread holds, and of these only the one that it is
at. -/
theorem nodes_step {P Q : ℕ → Prop} (hs : ∀ i, ¬ Regenerating s i → P i)
    (hw : s.threads w = .active frames phase) (h : Advanced apply c s w frames phase t)
    (hother : ∀ i, i ∉ (s.threads w).held → P i → Q i)
    (hself : phase.doc ∈ (s.threads w).held → ¬ Regenerating t phase.doc →
      (¬ Regenerating s phase.doc → P phase.doc) → Q phase.doc) {i : ℕ}
    (hi : ¬ Regenerating t i) :
  Q i
  := by
  by_cases hheld : i ∈ (s.threads w).held
  · by_cases hdoc : i = phase.doc
    · rw [hdoc] at hheld hi ⊢
      exact hself hheld hi (hs _)
    · rw [hw, CacheThread.held] at hheld
      rcases List.mem_append.mp hheld with hphase | hframes
      · have hsingle : phase.held = [] ∨ phase.held = [phase.doc] := by
          cases phase <;> simp [CachePhase.held]
        rcases hsingle with hempty | hsingle
        · rw [hempty] at hphase
          cases hphase
        · rw [hsingle] at hphase
          exact absurd (List.mem_singleton.mp hphase) hdoc
      · exact absurd (h.levels hframes) hi
  · apply hother i hheld
    apply hs
    rintro ⟨v, hv⟩
    by_cases hvw : v = w
    · rw [hvw] at hv
      exact hheld (held_of_mem_levels hv)
    · apply hi
      use v
      rwa [(h.confined hw).threads v hvw]

/-! ### What is known in every state -/

/-- Values that agree with the origins when all values that a datum will have are known agree with
the origins now. -/
theorem DataAgree.mono {values values' : ℕ → List Scm} (hgrows : ∀ i, values i <+: values' i)
    {g : ℕ → Scm} {used : Origins} (h : DataAgree values' g used) :
  DataAgree values g used
  := by
  intro x hx v hv
  obtain ⟨later, hlater⟩ := hgrows x.1
  apply h x hx v
  rw [← hlater, List.getElem?_append_left, hv]
  exact (List.getElem?_eq_some_iff.mp hv).1

theorem Computed.mono {values values' : ℕ → List Scm} (hgrows : ∀ i, values i <+: values' i)
    {doc : ℕ} {payload : Scm} {used : Origins} (h : Computed loc apply c values doc payload used) :
  Computed loc apply c values' doc payload used
  := ⟨h.below, fun g hg => h.value g (hg.mono hgrows)⟩

theorem Cooking.mono {values values' : ℕ → List Scm} (hgrows : ∀ i, values i <+: values' i)
    {condition : (ℕ → Scm) → Prop} {doc : ℕ} {recipe : Recipe} {used : Origins}
    (h : Cooking loc apply c values condition doc recipe used) :
  Cooking loc apply c values' condition doc recipe used
  := ⟨h.chain, h.fetches, h.below, fun g hcond hg => h.value g hcond (hg.mono hgrows)⟩

theorem FramesOk.mono {values values' : ℕ → List Scm} (hgrows : ∀ i, values i <+: values' i)
    {child : ℕ} (h : FramesOk loc apply c values child frames) :
  FramesOk loc apply c values' child frames
  := by
  induction frames generalizing child with
  | nil => trivial
  | cons f frames ih => exact ⟨⟨h.1.1, fun v => (h.1.2 v).mono hgrows⟩, ih h.2⟩

/-- What is known of a thread is not changed by a step of another one. -/
theorem ThreadOk.other {thread : CacheThread} (h : ThreadOk loc apply c s thread)
    (hconfined : Confined s t w) (hheld : ∀ i, i ∈ thread.held → i ∉ (s.threads w).held) :
  ThreadOk loc apply c t thread
  := by
  cases thread with
  | idle => trivial
  | active frames phase =>
      obtain ⟨hframes, hphase, htouching⟩ := h
      refine ⟨hframes.mono hconfined.grows, ?_, htouching⟩
      have hdoc : ∀ {doc}, phase.held = [doc] → doc ∉ (s.threads w).held := by
        intro doc hdoc
        apply hheld
        rw [CacheThread.held, hdoc]
        exact List.mem_cons_self
      cases phase with
      | fetch | check | clear | generate | touch | invalidate => trivial
      | run => exact hphase.mono hconfined.grows
      | store => exact ⟨hphase.1, hphase.2.mono hconfined.grows⟩
      | read doc =>
          rw [PhaseOk, hconfined.payload doc (hdoc rfl), hconfined.origins doc (hdoc rfl)]
          exact hphase.mono hconfined.grows
      | unlock => exact hphase.mono hconfined.grows
      | finish doc =>
          rw [PhaseOk, hconfined.values doc (hdoc rfl)]
          exact hphase

/-- The payload of a datum is the last of its values. -/
structure DatumOk (s : SharedCache) (doc last : ℕ) : Prop where
  length : (s.values doc).length = last + 1
  origins : s.origins doc = [(doc, last)]
  payload : (s.values doc)[last]? = some (s.cache.node doc).payload

variable (loc apply c s) in
/-- What is known in every state: a document that is clean, and that nobody is regenerating, has a
payload that has been computed from the data that its origins say. -/
structure Working : Prop where
  frozen : c.Frozen s.cache
  threads : ∀ v, ThreadOk loc apply c s (s.threads v)
  exclusive : Exclusive s
  below : ∀ i, ∀ x ∈ s.origins i, c.Feeds x.1 i
  datum : ∀ i, (c.node i).type = .datum → ∃ last, DatumOk s i last
  node : ∀ i, ¬ Regenerating s i → (c.node i).type = .chain → (s.cache.node i).dirty = true
    ∨ Computed loc apply c s.values i (s.cache.node i).payload (s.origins i)

/-- The payload of a datum has been computed from its last value. -/
theorem DatumOk.computed {doc last : ℕ} (h : DatumOk s doc last)
    (htype : (c.node doc).type = .datum) :
  Computed loc apply c s.values doc (s.cache.node doc).payload (s.origins doc)
  := by
  rw [h.origins]
  constructor
  · intro x hx
    rw [List.mem_singleton.mp hx]
    exact ⟨htype, .refl⟩
  · intro g hg
    rw [Cache.valueOf_datum g htype]
    exact (hg _ List.mem_cons_self _ h.payload).symm

/-- A document whose mutex is held by a thread that is not regenerating it is not regenerated. -/
theorem Working.not_regenerating (hs : Working loc apply c s) (hc : c.Built apply)
    (hw : s.threads w = .active frames phase) (hheld : phase.held = [phase.doc])
    (hlevel : phase.level = []) :
  ¬ Regenerating s phase.doc
  := by
  rintro ⟨v, hv⟩
  have hmem : phase.doc ∈ (s.threads w).held := by
    rw [hw, CacheThread.held, hheld]
    exact List.mem_cons_self
  obtain rfl := (hs.exclusive w _ hmem).2 v (held_of_mem_levels hv)
  have hok := hs.threads v
  rw [hw] at hok hv
  rw [CacheThread.levels, hlevel, List.nil_append, map_fst_level] at hv
  exact hok.1.not_mem hc.formed.layered hv

/-- The payload of a clean document that a thread has locked has been computed from the data that
its origins say. -/
theorem Working.computed (hs : Working loc apply c s) (hc : c.Built apply)
    (hw : s.threads w = .active frames phase) (hheld : phase.held = [phase.doc])
    (hlevel : phase.level = []) (hdirty : (s.cache.node phase.doc).dirty = false) :
  Computed loc apply c s.values phase.doc (s.cache.node phase.doc).payload (s.origins phase.doc)
  := by
  cases htype : (c.node phase.doc).type with
  | datum =>
      obtain ⟨last, hdatum⟩ := hs.datum _ htype
      exact hdatum.computed htype
  | file => exact absurd htype (hc.type _)
  | chain =>
      apply (hs.node _ (hs.not_regenerating hc hw hheld hlevel) htype).resolve_left
      rw [hdirty]
      exact Bool.false_ne_true

/-- A recipe goes on with the value of the ingredient that it waited for. -/
theorem Cooking.resume {child doc : ℕ} (habove : doc ∈ (c.node child).ascendants) {payload : Scm}
    {recipe : Recipe} {used used' : Origins}
    (h : Cooking loc apply c s.values (fun g => payload = c.valueOf loc apply g child) doc recipe used)
    (hcomputed : Computed loc apply c s.values child payload used') :
  Cooking loc apply c s.values (fun _ => True) doc recipe (used ++ used')
  where
  chain := h.chain
  fetches := h.fetches
  below := by
    intro x hx
    rcases List.mem_append.mp hx with hx | hx
    · exact h.below x hx
    · obtain ⟨htype, hbelow⟩ := hcomputed.below x hx
      exact ⟨htype, hbelow.tail habove⟩
  value := by
    intro g _ hg
    apply h.value g
    · apply hcomputed.value
      exact fun x hx => hg x (List.mem_append_right _ hx)
    · exact fun x hx => hg x (List.mem_append_left _ hx)

/-- What is known of the thread that makes a step. -/
theorem Advanced.threadOk (hs : Working loc apply c s) (hc : c.Built apply)
    (hw : s.threads w = .active frames phase) (h : Advanced apply c s w frames phase t) :
  ThreadOk loc apply c t (t.threads w)
  := by
  have hok := hs.threads w
  rw [hw] at hok
  obtain ⟨hframes, hphase, htouching⟩ := hok
  have hmono := hframes.mono (h.confined hw).grows
  cases h with
  | lock doc args =>
      rw [SharedCache.put_self]
      exact ⟨hmono, trivial, nofun⟩
  | dirty doc args =>
      rw [SharedCache.put_self]
      exact ⟨hmono, trivial, nofun⟩
  | clean doc args hdirty =>
      rw [SharedCache.put_self]
      exact ⟨hmono, hs.computed hc hw rfl rfl hdirty, nofun⟩
  | clear doc args =>
      rw [SharedCache.put_self]
      exact ⟨hmono, trivial, nofun⟩
  | datum doc args htype =>
      obtain ⟨last, hdatum⟩ := hs.datum _ htype
      rw [SharedCache.put_self]
      exact ⟨hmono, hdatum.computed htype, nofun⟩
  | chain doc args htype =>
      rw [SharedCache.put_self]
      refine ⟨hmono, ⟨htype, (hc.cooks doc htype).fetches args, by simp, ?_⟩, nofun⟩
      intro g _ _
      apply hc.valueOf_chain g htype
  | ret doc v used =>
      rw [SharedCache.put_self]
      refine ⟨hmono, ⟨hphase.chain, hphase.below, ?_⟩, nofun⟩
      exact fun g hg => (hphase.value g trivial hg).symm
  | fetch doc d args cont used =>
      rw [SharedCache.put_self]
      refine ⟨⟨⟨hphase.fetches.1, ?_⟩, hmono⟩, trivial, nofun⟩
      intro v
      refine ⟨hphase.chain, hphase.fetches.2 v, hphase.below, ?_⟩
      rintro g rfl hg
      exact hphase.value g trivial hg
  | store doc payload used =>
      rw [SharedCache.put_self]
      refine ⟨hmono, ?_, nofun⟩
      rw [PhaseOk, SharedCache.put_cache, SharedCache.put_origins, SharedCache.setPayload_node,
        SharedCache.setPayload_origins, if_pos rfl, if_pos rfl]
      exact hphase.2
  | read doc =>
      rw [SharedCache.put_self]
      exact ⟨hmono, hphase, nofun⟩
  | unlock doc payload used =>
      rw [SharedCache.put_self]
      cases frames with
      | nil => trivial
      | cons f frames =>
          refine ⟨hframes.2, ?_, nofun⟩
          exact (hframes.1.2 payload).resume hframes.1.1 hphase
  | lockTouch doc args =>
      rw [SharedCache.put_self]
      exact ⟨hmono, trivial, fun _ => htouching trivial⟩
  | mark doc args i todo =>
      rw [SharedCache.put_self]
      exact ⟨hmono, trivial, fun _ => htouching trivial⟩
  | value doc arg args htype =>
      rw [SharedCache.put_self]
      refine ⟨hmono, ?_, fun _ => htouching trivial⟩
      obtain ⟨last, hdatum⟩ := hs.datum _ htype
      intro x hx
      rw [hdatum.origins] at hx
      rw [List.mem_singleton.mp hx, SharedCache.put_values, SharedCache.setDatum_values, if_pos rfl,
        List.length_append, hdatum.length]
      exact ⟨rfl, rfl⟩
  | noValue doc args =>
      rw [SharedCache.put_self]
      exact ⟨hmono, nofun, fun _ => htouching trivial⟩
  | finish doc replaced =>
      rw [SharedCache.put_self, htouching trivial]
      trivial

/-- The step stores no payload. -/
structure SamePayloads (s t : SharedCache) : Prop where
  values : t.values = s.values
  origins : t.origins = s.origins
  payload : ∀ i, (t.cache.node i).payload = (s.cache.node i).payload

/-- A step stores the payload of a document or of a datum, or none. -/
theorem Advanced.stored (h : Advanced apply c s w frames phase t) :
  SamePayloads s t
    ∨ (∃ doc payload used, phase = .store doc payload used
      ∧ t = (s.setPayload doc payload used).put w (.active frames (.read doc)))
    ∨ (∃ doc arg args, phase = .invalidate doc (arg :: args) [] ∧ (c.node doc).type = .datum
      ∧ t = (s.setDatum doc arg).put w (.active frames (.finish doc (s.origins doc))))
  := by
  have hmodify : ∀ (doc : ℕ) (f : MakeNode → MakeNode) (thread : CacheThread),
      (f (s.cache.node doc)).payload = (s.cache.node doc).payload →
      SamePayloads s ((s.modify doc f).put w thread) :=
    fun _ _ _ hf => ⟨rfl, rfl, fun i => Cache.modify_field MakeNode.payload hf i⟩
  cases h with
  | lock doc | lockTouch doc =>
      exact Or.inl (hmodify doc (fun node => { node with locked := true }) _ rfl)
  | unlock doc | finish doc =>
      exact Or.inl (hmodify doc (fun node => { node with locked := false }) _ rfl)
  | clear doc => exact Or.inl (hmodify doc (fun node => { node with dirty := false }) _ rfl)
  | mark doc args i => exact Or.inl (hmodify i (fun node => { node with dirty := true }) _ rfl)
  | dirty | clean | datum | chain | ret | fetch | read | noValue =>
      exact Or.inl ⟨rfl, rfl, fun _ => rfl⟩
  | store doc payload used => exact Or.inr (Or.inl ⟨doc, payload, used, rfl, rfl⟩)
  | value doc arg args htype => exact Or.inr (Or.inr ⟨doc, arg, args, rfl, htype, rfl⟩)

/-- A datum after a step. -/
theorem Working.datum_step (hs : Working loc apply c s) (hw : s.threads w = .active frames phase)
    (h : Advanced apply c s w frames phase t) {i : ℕ} (htype : (c.node i).type = .datum) :
  ∃ last, DatumOk t i last
  := by
  obtain ⟨last, hlength, horigins, hpayload⟩ := hs.datum i htype
  rcases h.stored with ⟨hvalues', horigins', hpayload'⟩ | ⟨doc, payload, used, rfl, rfl⟩
    | ⟨doc, arg, args, rfl, -, rfl⟩
  · exact ⟨last, by rw [hvalues', hlength], by rw [horigins', horigins],
      by rw [hvalues', hpayload' i, hpayload]⟩
  · have hchain := hs.threads w
    rw [hw] at hchain
    have hdoc : i ≠ doc := by
      rintro rfl
      have := htype.symm.trans hchain.2.1.1
      cases this
    refine ⟨last, hlength, ?_, ?_⟩
    · rw [SharedCache.put_origins, SharedCache.setPayload_origins, if_neg hdoc, horigins]
    · rw [SharedCache.put_cache, SharedCache.setPayload_node, if_neg hdoc]
      exact hpayload
  · by_cases hdoc : i = doc
    · subst hdoc
      refine ⟨last + 1, ?_, ?_, ?_⟩
      · simp [hlength]
      · simp [hlength]
      · simp [← hlength]
    · refine ⟨last, ?_, ?_, ?_⟩
      · rw [SharedCache.put_values, SharedCache.setDatum_values, if_neg hdoc, hlength]
      · rw [SharedCache.put_origins, SharedCache.setDatum_origins, if_neg hdoc, horigins]
      · rw [SharedCache.put_cache, SharedCache.setDatum_node, if_neg hdoc, SharedCache.put_values,
          SharedCache.setDatum_values, if_neg hdoc, hpayload]

/-- Origins after a step are still data below the document. -/
theorem Working.below_step (hs : Working loc apply c s) (hw : s.threads w = .active frames phase)
    (h : Advanced apply c s w frames phase t) {i : ℕ} {x : ℕ × ℕ} (hx : x ∈ t.origins i) :
  c.Feeds x.1 i
  := by
  rcases h.stored with ⟨-, horigins, -⟩ | ⟨doc, payload, used, rfl, rfl⟩
    | ⟨doc, arg, args, rfl, htype, rfl⟩
  · rw [horigins] at hx
    exact hs.below i x hx
  · rw [SharedCache.put_origins, SharedCache.setPayload_origins] at hx
    split at hx
    case isTrue hdoc =>
        have hok := hs.threads w
        rw [hw] at hok
        rw [hdoc]
        exact hok.2.1.2.below x hx
    case isFalse => exact hs.below i x hx
  · rw [SharedCache.put_origins, SharedCache.setDatum_origins] at hx
    split at hx
    case isTrue hdoc =>
        rw [List.mem_singleton.mp hx, hdoc]
        exact ⟨htype, .refl⟩
    case isFalse => exact hs.below i x hx

/-- Only the beginning of a regeneration clears a flag. -/
theorem Advanced.dirty_mono (h : Advanced apply c s w frames phase t)
    (hphase : ∀ doc args, phase ≠ .clear doc args) {i : ℕ}
    (hdirty : (s.cache.node i).dirty = true) :
  (t.cache.node i).dirty = true
  := by
  cases h with
  | clear doc args => exact absurd rfl (hphase doc args)
  | lock doc | lockTouch doc =>
      exact (SharedCache.modify_field (f := fun node => { node with locked := true })
        MakeNode.dirty rfl i).trans hdirty
  | unlock doc | finish doc =>
      exact (SharedCache.modify_field (f := fun node => { node with locked := false })
        MakeNode.dirty rfl i).trans hdirty
  | store doc payload used =>
      exact (SharedCache.modify_field (f := fun node => { node with payload := payload })
        MakeNode.dirty rfl i).trans hdirty
  | value doc arg =>
      exact (SharedCache.modify_field (f := fun node => { node with payload := arg })
        MakeNode.dirty rfl i).trans hdirty
  | mark doc args j =>
      rw [SharedCache.put_cache, SharedCache.modify_node]
      split
      case isTrue => rfl
      case isFalse => exact hdirty
  | dirty | clean | datum | chain | ret | fetch | read | noValue => exact hdirty

/-- A step keeps the payloads of the clean documents computed. -/
theorem Working.node_step (hs : Working loc apply c s) (hc : c.Built apply)
    (hw : s.threads w = .active frames phase) (h : Advanced apply c s w frames phase t) {i : ℕ}
    (hi : ¬ Regenerating t i) :
  (c.node i).type = .chain → (t.cache.node i).dirty = true
    ∨ Computed loc apply c t.values i (t.cache.node i).payload (t.origins i)
  := by
  have hconfined := h.confined hw
  refine nodes_step (Q := fun i => (c.node i).type = .chain → (t.cache.node i).dirty = true
    ∨ Computed loc apply c t.values i (t.cache.node i).payload (t.origins i)) hs.node hw h ?_ ?_ hi
  · intro j hj hnode htype
    rw [hconfined.payload j hj, hconfined.origins j hj]
    exact (hnode htype).imp (hconfined.dirty j hj) (Computed.mono hconfined.grows)
  · intro hheld hnot hnode htype
    rcases h.not_regenerating hw hheld hnot with ⟨hphase, hlevel, hclear⟩
      | ⟨doc, payload, used, rfl⟩ | ⟨doc, args, rfl, hdatum⟩
    · rcases h.stored with hsame | ⟨doc, payload, used, rfl, rfl⟩
        | ⟨doc, arg, args, rfl, hdatum, -⟩
      · rw [hsame.values, hsame.origins, hsame.payload]
        exact (hnode (hs.not_regenerating hc hw hphase hlevel) htype).imp_left
          (h.dirty_mono hclear)
      · cases hlevel
      · have := htype.symm.trans hdatum
        cases this
    · cases h
      have hok := hs.threads w
      rw [hw] at hok
      rw [CachePhase.doc, SharedCache.put_cache, SharedCache.put_origins,
        SharedCache.setPayload_node, SharedCache.setPayload_origins, if_pos rfl, if_pos rfl]
      exact Or.inr hok.2.1.2
    · have := htype.symm.trans hdatum
      cases this

/-- What is known in every state is known after a step of a thread. -/
theorem Working.advance (hs : Working loc apply c s) (hc : c.Built apply)
    (hw : s.threads w = .active frames phase) (h : Advanced apply c s w frames phase t) :
  Working loc apply c t
  where
  frozen := hs.frozen.trans (h.confined hw).frozen
  threads v := by
    by_cases hv : v = w
    · rw [hv]
      exact h.threadOk hs hc hw
    · rw [(h.confined hw).threads v hv]
      apply (hs.threads v).other (h.confined hw)
      exact fun i hi hi' => hv ((hs.exclusive w i hi').2 v hi)
  exclusive := by
    apply hs.exclusive.step (h.confined hw)
    intro i hi
    have hok := hs.threads w
    rw [hw] at hok
    exact h.held hc.formed.layered hw hok.1 hi
  below _ _ hx := hs.below_step hw h hx
  datum _ htype := hs.datum_step hw h htype
  node _ hi := hs.node_step hc hw h hi

/-- What is known in every state is known after a call. -/
theorem Working.call (hs : Working loc apply c s) {doc : ℕ} (h : s.call w doc phase = some t)
    (hheld : phase.held = []) (hphase : ∀ u : SharedCache, PhaseOk loc apply c u phase) :
  Working loc apply c t
  := by
  obtain ⟨hconfined, rfl, o, hw⟩ := confined_call h
  refine ⟨hs.frozen, ?_, ?_, hs.below, ?_, ?_⟩
  · intro v
    by_cases hv : v = w
    · rw [hv, SharedCache.put_self]
      exact ⟨trivial, hphase _, fun _ => rfl⟩
    · rw [hconfined.threads v hv]
      apply (hs.threads v).other hconfined
      rw [hw]
      exact fun _ _ => List.not_mem_nil
  · apply hs.exclusive.step hconfined
    intro i hi
    rw [SharedCache.put_self, CacheThread.held, hheld] at hi
    cases hi
  · intro i htype
    obtain ⟨last, hdatum⟩ := hs.datum i htype
    exact ⟨last, hdatum.length, hdatum.origins, hdatum.payload⟩
  · intro i hi
    apply hs.node i
    rintro ⟨v, hv⟩
    by_cases hvw : v = w
    · rw [hvw, hw] at hv
      cases hv
    · apply hi
      use v
      rwa [hconfined.threads v hvw]

/-- What is known in every state is known after every event. -/
theorem Working.step (hs : Working loc apply c s) (hc : c.Built apply) {e : ThreadEvent}
    (h : s.step loc apply e = some t) :
  Working loc apply c t
  := by
  cases e with
  | callFetch w doc args => exact hs.call h rfl (fun _ => trivial)
  | callTouch w doc args => exact hs.call h rfl (fun _ => trivial)
  | go w =>
      rw [SharedCache.step] at h
      cases hw : s.threads w with
      | idle o =>
          rw [hw] at h
          cases h
      | active frames phase =>
          rw [hw] at h
          have hok := hs.threads w
          rw [hw] at hok
          exact hs.advance hc hw (advance_cases hc hs.frozen hok.2.1 h)

/-- What is known when the threads start. -/
theorem Working.start (hc : c.Built apply) :
  Working loc apply c (SharedCache.start c)
  where
  frozen := .refl c
  threads _ := trivial
  exclusive := nofun
  below i x hx := by
    simp only [SharedCache.start] at hx
    split at hx
    case h_1 htype =>
        rw [List.mem_singleton.mp hx]
        exact ⟨htype, .refl⟩
    case h_2 => cases hx
  datum i htype := by
    use 0
    refine ⟨rfl, ?_, rfl⟩
    simp only [SharedCache.start, htype]
  node i _ htype := Or.inl (hc.dirty i htype)

end Procedures

end Gusher
