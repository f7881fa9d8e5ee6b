import Gusher.Cache.Concurrent
import Gusher.Library.Termination
import Mathlib.Data.Set.Finite.Basic

/-!
# Every call of the cache comes to its end

A thread that waits for a mutex waits for a thread that is at an older document: `fetch_node` locks
the mutexes downwards, and a thread in `touch_node` holds one mutex only and waits for none while it
does.  So the threads in calls are never all blocked (`Working.exists_step`).  The recipes go down in
the graph, `invalidate` goes up in it, and both end whatever the other threads do
(`ends_fetch`, `ends_invalidate`); hence, unless new calls are made, there is no infinite run, and a
run that cannot go on has ended all calls (`calls_end`).
-/

namespace Gusher

open Run Termination

section Procedures

variable {loc : Locale} {apply : Scm → List Scm → Recipe} {c : Cache} {s t : SharedCache} {w : ℕ}
  {frames : List Waiting} {phase : CachePhase}

/-! ### Who holds a mutex -/

/-- A mutex that is locked is held by a thread. -/
def Held (s : SharedCache) : Prop :=
  ∀ i, (s.cache.node i).locked = true → ∃ v, i ∈ (s.threads v).held

/-- A mutex that is locked after a step is held by the thread that moved, or was locked before and not
held by it. -/
theorem Advanced.locked (h : Advanced apply c s w frames phase t)
    (hw : s.threads w = .active frames phase) {i : ℕ} (hi : (t.cache.node i).locked = true) :
  i ∈ (t.threads w).held ∨ (s.cache.node i).locked = true ∧ i ∉ (s.threads w).held
  := by
  have hmodify : ∀ (doc : ℕ) (f : MakeNode → MakeNode),
      (f (s.cache.node doc)).locked = (s.cache.node doc).locked →
      ((s.modify doc f).cache.node i).locked = (s.cache.node i).locked :=
    fun _ _ hf => Cache.modify_field MakeNode.locked hf i
  -- what the thread held before the step it holds after it
  have hkept : (s.cache.node i).locked = true →
      (∀ j ∈ (s.threads w).held, j ∈ (t.threads w).held) →
      i ∈ (t.threads w).held ∨ (s.cache.node i).locked = true ∧ i ∉ (s.threads w).held := by
    intro hlocked hsub
    by_cases hheld : i ∈ (s.threads w).held
    · exact Or.inl (hsub i hheld)
    · exact Or.inr ⟨hlocked, hheld⟩
  rw [hw] at hkept ⊢
  cases h with
  | lock doc | lockTouch doc =>
      rw [SharedCache.put_cache, SharedCache.modify_node] at hi
      rw [SharedCache.put_self] at hkept ⊢
      by_cases hdoc : i = doc
      · rw [hdoc]
        exact Or.inl List.mem_cons_self
      · rw [if_neg hdoc] at hi
        exact hkept hi (fun j hj => List.mem_cons_of_mem _ hj)
  | unlock doc | finish doc =>
      rw [SharedCache.put_cache, SharedCache.modify_node] at hi
      rw [SharedCache.put_self, held_deliver]
      by_cases hdoc : i = doc
      · rw [if_pos hdoc] at hi
        cases hi
      · rw [if_neg hdoc] at hi
        by_cases hheld : i ∈ frames.map Waiting.doc
        · exact Or.inl hheld
        · refine Or.inr ⟨hi, ?_⟩
          intro hmem
          rcases List.mem_cons.mp hmem with hmem | hmem
          · exact hdoc hmem
          · exact hheld hmem
  | clear doc =>
      rw [SharedCache.put_cache, hmodify doc (fun node => { node with dirty := false }) rfl] at hi
      rw [SharedCache.put_self] at hkept ⊢
      exact hkept hi (fun j hj => hj)
  | mark _ _ j =>
      rw [SharedCache.put_cache, hmodify j (fun node => { node with dirty := true }) rfl] at hi
      rw [SharedCache.put_self] at hkept ⊢
      exact hkept hi (fun j hj => hj)
  | store doc payload =>
      have hsame := hmodify doc (fun node => { node with payload := payload }) rfl
      rw [SharedCache.put_self] at hkept ⊢
      exact hkept (hsame.symm.trans hi) (fun j hj => hj)
  | value doc arg =>
      have hsame := hmodify doc (fun node => { node with payload := arg }) rfl
      rw [SharedCache.put_self] at hkept ⊢
      exact hkept (hsame.symm.trans hi) (fun j hj => hj)
  | dirty | clean | datum | chain | ret | fetch | read | noValue =>
      rw [SharedCache.put_self] at hkept ⊢
      exact hkept hi (fun j hj => hj)

/-- A mutex that is locked stays with a thread. -/
theorem Held.advance (hs : Held s) (h : Advanced apply c s w frames phase t)
    (hw : s.threads w = .active frames phase) :
  Held t
  := by
  intro i hi
  rcases h.locked hw hi with hheld | ⟨hlocked, hnot⟩
  · exact ⟨w, hheld⟩
  · obtain ⟨v, hv⟩ := hs i hlocked
    have hne : v ≠ w := by
      rintro rfl
      exact hnot hv
    use v
    rwa [(h.confined hw).threads v hne]

/-- What is known of the threads in calls: who holds the mutexes, that there are finitely many of them,
and that a call which has returned has returned a value. -/
structure Running (s : SharedCache) : Prop where
  held : Held s
  finite : {v | ∃ frames phase, s.threads v = .active frames phase}.Finite
  value : ∀ v o, s.threads v = .idle (some o) → ∃ x, o = .ok x

theorem deliver_eq_idle {o o' : Outcome} {used : Origins}
    (h : deliver frames o used = .idle (some o')) :
  o' = o
  := by
  cases frames with
  | nil => exact (Option.some.inj (CacheThread.idle.inj h)).symm
  | cons f frames => cases h

/-- A call that ends returns a value. -/
theorem Advanced.returned (h : Advanced apply c s w frames phase t) {o : Outcome}
    (ht : t.threads w = .idle (some o)) :
  ∃ x, o = .ok x
  := by
  cases h with
  | unlock doc payload =>
      rw [SharedCache.put_self] at ht
      exact ⟨payload, deliver_eq_idle ht⟩
  | finish =>
      rw [SharedCache.put_self] at ht
      exact ⟨.bool true, deliver_eq_idle ht⟩
  | _ =>
      rw [SharedCache.put_self] at ht
      cases ht

/-- What is known of the threads in calls is known after every event. -/
theorem Running.step (hs : Running s) (hworking : Working loc apply c s) (hc : c.Built apply)
    {e : ThreadEvent} (h : s.step loc apply e = some t) :
  Running t
  := by
  rcases hworking.event_cases hc h with ⟨w, doc, phase, hcall, hheld, -⟩
    | ⟨w, frames, phase, -, hw, hadvance⟩
  · obtain ⟨-, rfl, o, hw⟩ := confined_call hcall
    constructor
    · intro i hi
      obtain ⟨v, hv⟩ := hs.held i hi
      have hne : v ≠ w := by
        rintro rfl
        rw [hw] at hv
        cases hv
      use v
      rwa [SharedCache.put_threads, if_neg hne]
    · apply (hs.finite.insert w).subset
      rintro v ⟨frames, phase', hv⟩
      by_cases hne : v = w
      · exact Or.inl hne
      · rw [SharedCache.put_threads, if_neg hne] at hv
        exact Or.inr ⟨frames, phase', hv⟩
    · intro v o' hv
      by_cases hne : v = w
      · rw [hne, SharedCache.put_self] at hv
        cases hv
      · rw [SharedCache.put_threads, if_neg hne] at hv
        exact hs.value v o' hv
  · have hthreads := (hadvance.confined hw).threads
    constructor
    · exact hs.held.advance hadvance hw
    · apply hs.finite.subset
      rintro v ⟨frames', phase', hv⟩
      by_cases hne : v = w
      · exact ⟨frames, phase, hne ▸ hw⟩
      · rw [hthreads v hne] at hv
        exact ⟨frames', phase', hv⟩
    · intro v o hv
      by_cases hne : v = w
      · rw [hne] at hv
        exact hadvance.returned hv
      · rw [hthreads v hne] at hv
        exact hs.value v o hv

/-- When the threads start none is in a call. -/
theorem Running.start (hc : c.Built apply) :
  Running (SharedCache.start c)
  := by
  constructor
  · intro i hi
    have hfree : ((SharedCache.start c).cache.node i).locked = false := hc.unlocked i
    rw [hfree] at hi
    cases hi
  · apply Set.finite_empty.subset
    rintro v ⟨frames, phase, hv⟩
    cases hv
  · intro v o hv
    cases hv

theorem running_of_reaches (hc : c.Built apply)
    (h : Reaches (SharedCache.step loc apply) (SharedCache.start c) s) :
  Working loc apply c s ∧ Running s
  := by
  apply h.invariant (I := fun s => Working loc apply c s ∧ Running s)
  · rintro s e t ⟨hworking, hs⟩ hstep
    exact ⟨hworking.step hc hstep, hs.step hworking hc hstep⟩
  · exact ⟨.start hc, .start hc⟩

/-! ### Somebody can go on -/

/-- A thread that cannot go on is in front of a mutex that is locked. -/
theorem blocked_of_advance_eq_none (hc : c.Built apply) (hfrozen : c.Frozen s.cache)
    (hok : PhaseOk loc apply c s phase) (h : s.advance loc apply w frames phase = none) :
  ∃ doc args, (phase = .fetch doc args ∨ phase = .touch doc args)
    ∧ (s.cache.node doc).locked = true
  := by
  have hlock : ∀ doc thread, s.lock w doc thread = none → (s.cache.node doc).locked = true := by
    intro doc thread hnone
    rw [SharedCache.lock, Option.map_eq_none_iff, Cache.lockMutex] at hnone
    split at hnone
    case isTrue hlocked => exact hlocked
    case isFalse => cases hnone
  cases phase with
  | fetch doc args => exact ⟨doc, args, Or.inl rfl, hlock _ _ h⟩
  | touch doc args => exact ⟨doc, args, Or.inr rfl, hlock _ _ h⟩
  | check doc args =>
      rw [SharedCache.advance] at h
      split at h <;> cases h
  | generate doc args =>
      rw [SharedCache.advance, hfrozen.type] at h
      cases htype : (c.node doc).type with
      | file => exact absurd htype (hc.type doc)
      | _ =>
          rw [htype] at h
          cases h
  | run doc recipe used =>
      cases recipe with
      | ret v => cases h
      | raise e => cases hok.fetches
      | touch d args cont => cases hok.fetches
      | fetch d args cont =>
          have hlt := hc.formed.layered d doc hok.fetches.1
          have hcount : d < s.cache.count := by
            rw [hfrozen.count]
            exact hlt.1.trans hlt.2
          rw [SharedCache.advance, if_pos hcount] at h
          cases h
  | invalidate doc args todo =>
      cases todo with
      | cons i todo => cases h
      | nil =>
          cases args with
          | nil => cases h
          | cons arg args =>
              have hsame := hfrozen.type doc
              cases htype : (s.cache.node doc).type with
              | file => exact absurd (hsame.symm.trans htype) (hc.type doc)
              | _ =>
                  simp only [SharedCache.advance, htype] at h
                  cases h
  | clear | store | read | unlock | finish => cases h

/-- Of the threads in calls one can go on: a thread that cannot waits for one that is at an older
document. -/
theorem Working.exists_step (hs : Working loc apply c s) (hheld : Held s) (hc : c.Built apply)
    (hw : s.threads w = .active frames phase) :
  ∃ v t, s.step loc apply (.go v) = some t
  := by
  induction hdoc : phase.doc using Nat.strongRecOn generalizing w frames phase with
  | ind doc ih =>
      have hok := hs.threads w
      rw [hw] at hok
      cases hadvance : s.advance loc apply w frames phase with
      | some t =>
          use w, t
          rw [SharedCache.step, hw]
          exact hadvance
      | none =>
          obtain ⟨i, args, hphase, hlocked⟩ :=
            blocked_of_advance_eq_none hc hs.frozen hok.2.1 hadvance
          obtain rfl : i = doc := by
            rcases hphase with rfl | rfl <;> exact hdoc
          obtain ⟨v, hv⟩ := hheld i hlocked
          cases hthread : s.threads v with
          | idle o =>
              rw [hthread] at hv
              cases hv
          | active frames' phase' =>
              have hok' := hs.threads v
              rw [hthread] at hok' hv
              cases hadvance' : s.advance loc apply v frames' phase' with
              | some t =>
                  use v, t
                  rw [SharedCache.step, hthread]
                  exact hadvance'
              | none =>
                  obtain ⟨j, args', hphase', -⟩ :=
                    blocked_of_advance_eq_none hc hs.frozen hok'.2.1 hadvance'
                  -- what the thread `v` holds it holds for a recipe that waits
                  have hmem : i ∈ frames'.map Waiting.doc := by
                    rcases hphase' with rfl | rfl <;> exact hv
                  have hlt : phase'.doc < i :=
                    (List.pairwise_cons.mp (hok'.1.pairwise hc.formed.layered)).1 i hmem
                  exact ih phase'.doc hlt hthread rfl

/-! ### Every thread comes to its end -/

variable (apply c) in
/-- What a thread may be after a step, whatever the other threads have done to the cache. -/
def NextThread (x y : CacheThread) : Prop :=
  ∃ s t w frames phase, x = .active frames phase ∧ Advanced apply c s w frames phase t
    ∧ y = t.threads w

theorem ends_active (h : ∀ s t w, Advanced apply c s w frames phase t →
    Ends (NextThread apply c) (t.threads w)) :
  Ends (NextThread apply c) (.active frames phase)
  := by
  apply Ends.intro
  rintro y ⟨s, t, w, frames', phase', heq, hadvance, rfl⟩
  obtain ⟨rfl, rfl⟩ := CacheThread.active.inj heq
  exact h s t w hadvance

theorem ends_idle (o : Option Outcome) :
  Ends (NextThread apply c) (.idle o)
  := by
  apply Ends.intro
  rintro y ⟨s, t, w, frames, phase, heq, -⟩
  cases heq

/-- However the call of a document ends, the thread comes to its end. -/
def Resumes (apply : Scm → List Scm → Recipe) (c : Cache) (frames : List Waiting) : Prop :=
  ∀ v used, Ends (NextThread apply c) (deliver frames (.ok v) used)

theorem ends_unlock (h : Resumes apply c frames) (doc : ℕ) (payload : Scm) (used : Origins) :
  Ends (NextThread apply c) (.active frames (.unlock doc payload used))
  := by
  apply ends_active
  intro s t w hadvance
  cases hadvance
  rw [SharedCache.put_self]
  apply h

theorem ends_read (h : Resumes apply c frames) (doc : ℕ) :
  Ends (NextThread apply c) (.active frames (.read doc))
  := by
  apply ends_active
  intro s t w hadvance
  cases hadvance
  rw [SharedCache.put_self]
  apply ends_unlock h

theorem ends_store (h : Resumes apply c frames) (doc : ℕ) (payload : Scm) (used : Origins) :
  Ends (NextThread apply c) (.active frames (.store doc payload used))
  := by
  apply ends_active
  intro s t w hadvance
  cases hadvance
  rw [SharedCache.put_self]
  apply ends_read h

theorem ends_finish (h : Resumes apply c frames) (doc : ℕ) (replaced : Origins) :
  Ends (NextThread apply c) (.active frames (.finish doc replaced))
  := by
  apply ends_active
  intro s t w hadvance
  cases hadvance
  rw [SharedCache.put_self]
  apply h

/-- A recipe comes to its end when the fetches do that it makes. -/
theorem ends_run {S : ℕ → Prop} (hfetch : ∀ d, S d → ∀ frames args, Resumes apply c frames →
      Ends (NextThread apply c) (.active frames (.fetch d args)))
    (h : Resumes apply c frames) {doc : ℕ} {recipe : Recipe} (hrecipe : recipe.Fetches S)
    (used : Origins) :
  Ends (NextThread apply c) (.active frames (.run doc recipe used))
  := by
  induction recipe generalizing used with
  | ret v =>
      apply ends_active
      intro s t w hadvance
      cases hadvance
      rw [SharedCache.put_self]
      apply ends_store h
  | raise e => cases hrecipe
  | touch d args cont => cases hrecipe
  | fetch d args cont ih =>
      apply ends_active
      intro s t w hadvance
      cases hadvance
      rw [SharedCache.put_self]
      apply hfetch d hrecipe.1
      intro v used'
      exact ih (.ok v) (hrecipe.2 v) (used ++ used')

/-- `fetch_node` comes to its end: its recipe fetches older documents only. -/
theorem ends_fetch (hc : c.Built apply) (doc : ℕ) (h : Resumes apply c frames) (args : List Scm) :
  Ends (NextThread apply c) (.active frames (.fetch doc args))
    ∧ Ends (NextThread apply c) (.active frames (.check doc args))
    ∧ Ends (NextThread apply c) (.active frames (.clear doc args))
    ∧ Ends (NextThread apply c) (.active frames (.generate doc args))
  := by
  induction doc using Nat.strongRecOn generalizing frames args with
  | ind doc ih =>
      have hgenerate : Ends (NextThread apply c) (.active frames (.generate doc args)) := by
        apply ends_active
        intro s t w hadvance
        cases hadvance with
        | datum =>
            rw [SharedCache.put_self]
            apply ends_read h
        | chain _ _ htype =>
            rw [SharedCache.put_self]
            apply ends_run _ h ((hc.cooks doc htype).fetches args)
            intro d hd frames args hframes
            exact (ih d (hc.formed.layered d doc hd).1 hframes args).1
      have hclear : Ends (NextThread apply c) (.active frames (.clear doc args)) := by
        apply ends_active
        intro s t w hadvance
        cases hadvance
        rw [SharedCache.put_self]
        exact hgenerate
      have hcheck : Ends (NextThread apply c) (.active frames (.check doc args)) := by
        apply ends_active
        intro s t w hadvance
        cases hadvance with
        | dirty =>
            rw [SharedCache.put_self]
            exact hclear
        | clean =>
            rw [SharedCache.put_self]
            apply ends_read h
      refine ⟨?_, hcheck, hclear, hgenerate⟩
      apply ends_active
      intro s t w hadvance
      cases hadvance
      rw [SharedCache.put_self]
      exact hcheck

/-- `invalidate` comes to its end: it goes on to newer documents only. -/
theorem ends_invalidate (hc : c.Built apply) (h : Resumes apply c frames) (doc : ℕ)
    (args : List Scm) (todo : List ℕ) :
  Ends (NextThread apply c) (.active frames (.invalidate doc args todo))
  := by
  -- one node, when those above it come to an end, in front of any others
  have hnode : ∀ n i, c.count ≤ i + n → ∀ todo,
      Ends (NextThread apply c) (.active frames (.invalidate doc args todo)) →
      Ends (NextThread apply c) (.active frames (.invalidate doc args (i :: todo))) := by
    intro n
    induction n with
    | zero =>
        intro i hi todo htodo
        apply ends_active
        intro s t w hadvance
        cases hadvance
        rw [SharedCache.put_self]
        have hnone : (c.node i).ascendants = [] := by
          apply List.eq_nil_iff_forall_not_mem.mpr
          intro j hj
          have := hc.formed.layered i j hj
          omega
        rw [hnone]
        exact htodo
    | succ n ih =>
        intro i hi todo htodo
        apply ends_active
        intro s t w hadvance
        cases hadvance
        rw [SharedCache.put_self]
        have habove : ∀ js : List ℕ, (∀ j ∈ js, i < j) →
            Ends (NextThread apply c) (.active frames (.invalidate doc args (js ++ todo))) := by
          intro js hjs
          induction js with
          | nil => exact htodo
          | cons j js ihjs =>
              have hj := hjs j List.mem_cons_self
              apply ih j (by omega)
              exact ihjs (fun k hk => hjs k (List.mem_cons_of_mem j hk))
        exact habove _ (fun j hj => (hc.formed.layered i j hj).1)
  induction todo with
  | nil =>
      apply ends_active
      intro s t w hadvance
      cases hadvance with
      | value =>
          rw [SharedCache.put_self]
          apply ends_finish h
      | noValue =>
          rw [SharedCache.put_self]
          apply ends_finish h
  | cons i todo ih => exact hnode c.count i (Nat.le_add_left _ _) todo ih

/-- The recipes that wait come to their end. -/
theorem resumes_frames (hc : c.Built apply) {values : ℕ → List Scm} {child : ℕ}
    (h : FramesOk loc apply c values child frames) :
  Resumes apply c frames
  := by
  induction frames generalizing child with
  | nil => exact fun v used => ends_idle _
  | cons f frames ih =>
      intro v used
      apply ends_run _ (ih h.2) (h.1.2 v).fetches
      intro d _ frames' args hframes
      exact (ends_fetch hc d hframes args).1

/-- Every thread comes to its end. -/
theorem ends_thread (hc : c.Built apply) {thread : CacheThread}
    (h : ThreadOk loc apply c s thread) :
  Ends (NextThread apply c) thread
  := by
  cases thread with
  | idle o => apply ends_idle
  | active frames phase =>
      have hresumes : Resumes apply c frames := resumes_frames hc h.1
      cases phase with
      | fetch doc args => exact (ends_fetch hc doc hresumes args).1
      | check doc args => exact (ends_fetch hc doc hresumes args).2.1
      | clear doc args => exact (ends_fetch hc doc hresumes args).2.2.1
      | generate doc args => exact (ends_fetch hc doc hresumes args).2.2.2
      | run doc recipe used =>
          apply ends_run _ hresumes h.2.1.fetches
          intro d _ frames' args hframes
          exact (ends_fetch hc d hframes args).1
      | store doc payload used => apply ends_store hresumes
      | read doc => apply ends_read hresumes
      | unlock doc payload used => apply ends_unlock hresumes
      | touch doc args =>
          apply ends_active
          intro s t w hadvance
          cases hadvance
          rw [SharedCache.put_self]
          exact ends_invalidate hc hresumes doc args [doc]
      | invalidate doc args todo => exact ends_invalidate hc hresumes doc args todo
      | finish doc replaced => apply ends_finish hresumes

/-- The next step of a thread in a call. -/
theorem Working.go_cases (hs : Working loc apply c s) (hc : c.Built apply)
    (h : s.step loc apply (.go w) = some t) :
  ∃ frames phase, s.threads w = .active frames phase ∧ Advanced apply c s w frames phase t
  := by
  rw [SharedCache.step] at h
  have hok := hs.threads w
  cases hw : s.threads w with
  | idle o =>
      rw [hw] at h
      cases h
  | active frames phase =>
      rw [hw] at h hok
      exact ⟨frames, phase, rfl, advance_cases hc hs.frozen hok.2.1 h⟩

/-- A run in which no thread makes a new call comes to its end. -/
theorem Working.ends (hs : Working loc apply c s) (hrunning : Running s) (hc : c.Built apply) :
  Ends (fun s t => ∃ w, SharedCache.step loc apply s (.go w) = some t) s
  := by
  -- the threads that are in calls
  let calls := hrunning.finite.toFinset
  have hcalls : ∀ v frames phase, s.threads v = .active frames phase → v ∈ calls :=
    fun v frames phase hv => hrunning.finite.mem_toFinset.mpr ⟨frames, phase, hv⟩
  apply Ends.of_simulation (Moves (NextThread apply c) calls) SharedCache.threads
    (fun t => Working loc apply c t
      ∧ ∀ v frames phase, t.threads v = .active frames phase → v ∈ calls)
  · rintro t u ⟨ht, hmem⟩ ⟨w, hstep⟩
    obtain ⟨frames, phase, hw, hadvance⟩ := ht.go_cases hc hstep
    have hthreads := (hadvance.confined hw).threads
    refine ⟨⟨ht.step hc hstep, ?_⟩, w, hmem w frames phase hw, ?_, fun v _ hv => hthreads v hv⟩
    · intro v frames' phase' hv
      by_cases hne : v = w
      · rw [hne]
        exact hmem w frames phase hw
      · rw [hthreads v hne] at hv
        exact hmem v frames' phase' hv
    · exact ⟨t, u, w, frames, phase, hw, hadvance, rfl⟩
  · exact ⟨hs, hcalls⟩
  · apply ends_moves
    intro v _
    exact ends_thread hc (hs.threads v)

variable {files : List UInt8 → Option File} {newest : ℕ} {makes : List CacheAction}

/-- **Calls end**: however threads that work at a cache of data and of documents with pure recipes take
turns, after a time in which no new calls are made all calls have returned.  There is no infinite run of their steps, as
long as a thread is in a call some thread can make a step, and what a call has returned is a value. -/
theorem calls_end (hmakes : ∀ a ∈ makes, PureMake apply a)
    (hrun : run (cacheStep loc apply) (startCache files newest) makes = some c)
    (hreaches : Reaches (SharedCache.step loc apply) (SharedCache.start c) s) :
  Ends (fun s t => ∃ w, SharedCache.step loc apply s (.go w) = some t) s
    ∧ ((∀ w, s.step loc apply (.go w) = none) → ∀ v, ∃ o, s.threads v = .idle o)
    ∧ ∀ v o, s.threads v = .idle (some o) → ∃ x, o = .ok x
  := by
  have hc : c.Built apply := Cache.built_of_run hmakes hrun
  obtain ⟨hs, hrunning⟩ := running_of_reaches hc hreaches
  refine ⟨hs.ends hrunning hc, ?_, hrunning.value⟩
  intro hstuck v
  cases hv : s.threads v with
  | idle o => exact ⟨o, rfl⟩
  | active frames phase =>
      obtain ⟨u, t, hstep⟩ := hs.exists_step hrunning.held hc hv
      rw [hstuck u] at hstep
      cases hstep

end Procedures

/-- The thread 1 fetches the document while the thread 2 touches its datum. -/
theorem calls_end_overlap :
  ∃ c s, run (cacheStep latin1 returnsFirst) (startCache (fun _ => none) 0) makeOverlap = some c
    ∧ run (SharedCache.step latin1 returnsFirst) (SharedCache.start c) touchDuringFetch = some s
    ∧ Ends (fun s t => ∃ w, SharedCache.step latin1 returnsFirst s (.go w) = some t) s
  := by
  have hpure : ∀ a ∈ makeOverlap, PureMake returnsFirst a := by
    intro a ha
    rcases List.mem_pair.mp ha with rfl | rfl
    · exact fun h => absurd h (by decide)
    · exact ⟨fun _ => ⟨List.mem_singleton.mpr rfl, fun _ => trivial⟩, fun _ _ => rfl⟩
  obtain ⟨c, s, hmakes, hrun⟩ : ∃ c s,
      run (cacheStep latin1 returnsFirst) (startCache (fun _ => none) 0) makeOverlap = some c
      ∧ run (SharedCache.step latin1 returnsFirst) (SharedCache.start c) touchDuringFetch = some s :=
    ⟨_, _, rfl, rfl⟩
  exact ⟨c, s, hmakes, hrun, (calls_end hpure hmakes ⟨_, hrun⟩).1⟩

end Gusher
