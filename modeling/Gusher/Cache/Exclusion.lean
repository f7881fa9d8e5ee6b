import Gusher.Cache.Dag
import Gusher.Cache.Threads

/-!
# What the threads hold

The threads at a cache of data and documents.  A thread that is in a call has well-formed recipes
waiting (`ThreadOk`), so that it goes from a document to its ingredients, and never waits at a mutex
that it holds itself.  With this, `advance_cases` says once what the next step of a thread does.  No two
threads hold one mutex (`Exclusive`).
-/

namespace Gusher

/-- The document that a thread is at. -/
def CachePhase.doc : CachePhase → ℕ
  | fetch doc _ | check doc _ | clear doc _ | generate doc _ | run doc _ _ | store doc _ _
  | read doc | unlock doc _ _ | touch doc _ | invalidate doc _ _ | finish doc _ => doc

/-- The mutex that a thread has locked in its innermost call. -/
def CachePhase.held : CachePhase → List ℕ
  | fetch _ _ | touch _ _ => []
  | phase => [phase.doc]

/-- The mutexes that a thread has locked. -/
def CacheThread.held : CacheThread → List ℕ
  | idle _ => []
  | active frames phase => phase.held ++ frames.map Waiting.doc

section Procedures

variable (loc : Locale) (apply : Scm → List Scm → Recipe) (c : Cache)

/-- The values `g` of the data agree with the origins of a value. -/
def DataAgree (values : ℕ → List Scm) (g : ℕ → Scm) (used : Origins) : Prop :=
  ∀ x ∈ used, ∀ v, (values x.1)[x.2]? = some v → g x.1 = v

/-- A value of a document that has been computed from the given data. -/
structure Computed (values : ℕ → List Scm) (doc : ℕ) (payload : Scm) (used : Origins) : Prop where
  below : ∀ x ∈ used, c.Feeds x.1 doc
  value : ∀ g, DataAgree values g used → payload = c.valueOf loc apply g doc

/-- What is left of a recipe computes the value of the document when the data agree with what has
been fetched, and satisfy a condition. -/
structure Cooking (values : ℕ → List Scm) (condition : (ℕ → Scm) → Prop) (doc : ℕ)
    (recipe : Recipe) (used : Origins) : Prop where
  chain : (c.node doc).type = .chain
  fetches : recipe.Fetches (fun j => doc ∈ (c.node j).ascendants)
  below : ∀ x ∈ used, c.Feeds x.1 doc
  value : ∀ g, condition g → DataAgree values g used →
    c.valueOf loc apply g doc = recipe.formula.eval (c.valueOf loc apply g)

/-- The recipes that wait: each for the value of an ingredient. -/
def FramesOk (values : ℕ → List Scm) : ℕ → List Waiting → Prop
  | _, [] => True
  | child, f :: frames =>
      (f.doc ∈ (c.node child).ascendants
        ∧ ∀ v, Cooking loc apply c values (fun g => v = c.valueOf loc apply g child) f.doc
          (f.cont (.ok v)) f.used)
      ∧ FramesOk values f.doc frames

/-- What a thread has in hand. -/
def PhaseOk (s : SharedCache) : CachePhase → Prop
  | .run doc recipe used => Cooking loc apply c s.values (fun _ => True) doc recipe used
  | .store doc payload used =>
      (c.node doc).type = .chain ∧ Computed loc apply c s.values doc payload used
  | .read doc => Computed loc apply c s.values doc (s.cache.node doc).payload (s.origins doc)
  | .unlock doc payload used => Computed loc apply c s.values doc payload used
  | .finish doc replaced => ∀ x ∈ replaced, x.1 = doc ∧ x.2 + 2 = (s.values doc).length
  | _ => True

/-- The thread is in `touch_node`. -/
def CachePhase.Touching : CachePhase → Prop
  | touch _ _ | invalidate _ _ _ | finish _ _ => True
  | _ => False

/-- A thread whose recipes fetch their ingredients only. -/
def ThreadOk (s : SharedCache) : CacheThread → Prop
  | .idle _ => True
  | .active frames phase =>
      FramesOk loc apply c s.values phase.doc frames ∧ PhaseOk loc apply c s phase
        ∧ (phase.Touching → frames = [])

/-- What the next step of the thread `w` does, when the recipes fetch their ingredients only. -/
inductive Advanced (s : SharedCache) (w : ℕ) (frames : List Waiting) :
    CachePhase → SharedCache → Prop where
  | lock (doc : ℕ) (args : List Scm) (hlocked : (s.cache.node doc).locked = false) :
      Advanced s w frames (.fetch doc args)
        ((s.modify doc (fun node => { node with locked := true })).put w
          (.active frames (.check doc args)))
  | dirty (doc : ℕ) (args : List Scm) (hdirty : (s.cache.node doc).dirty = true) :
      Advanced s w frames (.check doc args) (s.put w (.active frames (.clear doc args)))
  | clean (doc : ℕ) (args : List Scm) (hdirty : (s.cache.node doc).dirty = false) :
      Advanced s w frames (.check doc args) (s.put w (.active frames (.read doc)))
  | clear (doc : ℕ) (args : List Scm) :
      Advanced s w frames (.clear doc args)
        ((s.modify doc (fun node => { node with dirty := false })).put w
          (.active frames (.generate doc args)))
  | datum (doc : ℕ) (args : List Scm) (htype : (c.node doc).type = .datum) :
      Advanced s w frames (.generate doc args) (s.put w (.active frames (.read doc)))
  | chain (doc : ℕ) (args : List Scm) (htype : (c.node doc).type = .chain) :
      Advanced s w frames (.generate doc args)
        (s.put w (.active frames (.run doc (apply (c.node doc).callback args) [])))
  | ret (doc : ℕ) (v : Scm) (used : Origins) :
      Advanced s w frames (.run doc (.ret v) used) (s.put w (.active frames (.store doc v used)))
  | fetch (doc : ℕ) (d : ℕ) (args : List Scm) (cont : Outcome → Recipe) (used : Origins) :
      Advanced s w frames (.run doc (.fetch d args cont) used)
        (s.put w (.active (⟨doc, cont, used⟩ :: frames) (.fetch d args)))
  | store (doc : ℕ) (payload : Scm) (used : Origins) :
      Advanced s w frames (.store doc payload used)
        ((s.setPayload doc payload used).put w (.active frames (.read doc)))
  | read (doc : ℕ) :
      Advanced s w frames (.read doc)
        (s.put w (.active frames (.unlock doc (s.cache.node doc).payload (s.origins doc))))
  | unlock (doc : ℕ) (payload : Scm) (used : Origins) :
      Advanced s w frames (.unlock doc payload used)
        ((s.modify doc (fun node => { node with locked := false })).put w
          (deliver frames (.ok payload) used))
  | lockTouch (doc : ℕ) (args : List Scm) (hlocked : (s.cache.node doc).locked = false) :
      Advanced s w frames (.touch doc args)
        ((s.modify doc (fun node => { node with locked := true })).put w
          (.active frames (.invalidate doc args [doc])))
  | mark (doc : ℕ) (args : List Scm) (i : ℕ) (todo : List ℕ) :
      Advanced s w frames (.invalidate doc args (i :: todo))
        ((s.modify i (fun node => { node with dirty := true })).put w
          (.active frames (.invalidate doc args ((c.node i).ascendants ++ todo))))
  | value (doc : ℕ) (arg : Scm) (args : List Scm) (htype : (c.node doc).type = .datum) :
      Advanced s w frames (.invalidate doc (arg :: args) [])
        ((s.setDatum doc arg).put w (.active frames (.finish doc (s.origins doc))))
  | noValue (doc : ℕ) (args : List Scm) :
      Advanced s w frames (.invalidate doc args []) (s.put w (.active frames (.finish doc [])))
  | finish (doc : ℕ) (replaced : Origins) :
      Advanced s w frames (.finish doc replaced)
        ((s.modify doc (fun node => { node with locked := false })).put w
          (deliver frames (.ok (.bool true)) []))

variable {loc apply c} {s t : SharedCache} {w : ℕ} {frames : List Waiting} {phase : CachePhase}

/-- A mutex that can be locked is free. -/
theorem SharedCache.lock_eq_some {doc : ℕ} {thread : CacheThread}
    (h : s.lock w doc thread = some t) :
  (s.cache.node doc).locked = false
    ∧ t = (s.modify doc (fun node => { node with locked := true })).put w thread
  := by
  obtain ⟨cache, hlock, rfl⟩ := Option.map_eq_some_iff.mp h
  rw [Cache.lockMutex] at hlock
  split at hlock
  case isTrue => cases hlock
  case isFalse hlocked =>
      cases hlock
      exact ⟨Bool.eq_false_iff.mpr hlocked, rfl⟩

/-- The next step of a thread does one of these. -/
theorem advance_cases (hc : c.Built apply) (hfrozen : c.Frozen s.cache)
    (hok : PhaseOk loc apply c s phase) (h : s.advance loc apply w frames phase = some t) :
  Advanced apply c s w frames phase t
  := by
  cases phase with
  | fetch doc args =>
      obtain ⟨hlocked, rfl⟩ := SharedCache.lock_eq_some h
      exact .lock doc args hlocked
  | check doc args =>
      rw [SharedCache.advance] at h
      split at h
      case isTrue hdirty =>
          cases h
          exact .dirty doc args hdirty
      case isFalse hdirty =>
          cases h
          exact .clean doc args (Bool.eq_false_iff.mpr hdirty)
  | clear doc args =>
      cases h
      exact .clear doc args
  | generate doc args =>
      rw [SharedCache.advance, hfrozen.type, hfrozen.callback] at h
      cases htype : (c.node doc).type with
      | datum =>
          rw [htype] at h
          cases h
          exact .datum doc args htype
      | file => exact absurd htype (hc.type doc)
      | chain =>
          rw [htype] at h
          cases h
          exact .chain doc args htype
  | run doc recipe used =>
      cases recipe with
      | ret v =>
          cases h
          exact .ret doc v used
      | raise e => cases hok.fetches
      | fetch d args cont =>
          rw [SharedCache.advance] at h
          split at h
          case isTrue =>
              cases h
              exact .fetch doc d args cont used
          case isFalse => cases h
      | touch d args cont => cases hok.fetches
  | store doc payload used =>
      cases h
      exact .store doc payload used
  | read doc =>
      cases h
      exact .read doc
  | unlock doc payload used =>
      cases h
      exact .unlock doc payload used
  | touch doc args =>
      obtain ⟨hlocked, rfl⟩ := SharedCache.lock_eq_some h
      exact .lockTouch doc args hlocked
  | invalidate doc args todo =>
      cases todo with
      | cons i todo =>
          rw [SharedCache.advance, hfrozen.ascendants] at h
          cases h
          exact .mark doc args i todo
      | nil =>
          cases args with
          | nil =>
              cases h
              exact .noValue doc []
          | cons arg args =>
              have hsame := hfrozen.type doc
              cases htype : (s.cache.node doc).type with
              | datum =>
                  simp only [SharedCache.advance, htype, Option.some.injEq] at h
                  rw [← h]
                  exact .value doc arg args (hsame.symm.trans htype)
              | file => exact absurd (hsame.symm.trans htype) (hc.type doc)
              | chain =>
                  simp only [SharedCache.advance, htype, Option.some.injEq] at h
                  rw [← h]
                  exact .noValue doc (arg :: args)
  | finish doc replaced =>
      cases h
      exact .finish doc replaced

/-! ### What a step leaves as it is -/

/-- What a step of the thread `w` leaves as it is: the other threads, the graph, and all fields of
the nodes whose mutex the thread has not locked, except that it may set a flag or lock a mutex. -/
structure Confined (s t : SharedCache) (w : ℕ) : Prop where
  threads : ∀ v, v ≠ w → t.threads v = s.threads v
  frozen : s.cache.Frozen t.cache
  grows : ∀ i, s.values i <+: t.values i
  payload : ∀ i, i ∉ (s.threads w).held → (t.cache.node i).payload = (s.cache.node i).payload
  origins : ∀ i, i ∉ (s.threads w).held → t.origins i = s.origins i
  values : ∀ i, i ∉ (s.threads w).held → t.values i = s.values i
  dirty : ∀ i, i ∉ (s.threads w).held → (s.cache.node i).dirty = true →
    (t.cache.node i).dirty = true
  locked : ∀ i, i ∉ (s.threads w).held → (s.cache.node i).locked = true →
    (t.cache.node i).locked = true

namespace SharedCache

@[simp]
theorem put_cache (s : SharedCache) (w : ℕ) (thread : CacheThread) :
  (s.put w thread).cache = s.cache
  := rfl

@[simp]
theorem put_values (s : SharedCache) (w : ℕ) (thread : CacheThread) :
  (s.put w thread).values = s.values
  := rfl

@[simp]
theorem put_origins (s : SharedCache) (w : ℕ) (thread : CacheThread) :
  (s.put w thread).origins = s.origins
  := rfl

theorem put_threads (s : SharedCache) (w : ℕ) (thread : CacheThread) (v : ℕ) :
  (s.put w thread).threads v = if v = w then thread else s.threads v
  := Function.update_apply _ _ _ _

@[simp]
theorem put_self (s : SharedCache) (w : ℕ) (thread : CacheThread) :
  (s.put w thread).threads w = thread
  := Function.update_self _ _ _

@[simp]
theorem modify_node (s : SharedCache) (doc : ℕ) (f : MakeNode → MakeNode) (i : ℕ) :
  (s.modify doc f).cache.node i = if i = doc then f (s.cache.node doc) else s.cache.node i
  := Cache.modify_node _ _ _ _

/-- What a change of one node leaves as it is in that node, it leaves as it is in all nodes. -/
theorem modify_field {α : Type} {s : SharedCache} {doc : ℕ} {f : MakeNode → MakeNode}
    (g : MakeNode → α) (h : g (f (s.cache.node doc)) = g (s.cache.node doc)) (i : ℕ) :
  g ((s.modify doc f).cache.node i) = g (s.cache.node i)
  := Cache.modify_field g h i

@[simp]
theorem setPayload_node (s : SharedCache) (doc : ℕ) (payload : Scm) (used : Origins) (i : ℕ) :
  (s.setPayload doc payload used).cache.node i
    = if i = doc then { s.cache.node doc with payload := payload } else s.cache.node i
  := modify_node s doc (fun node => { node with payload := payload }) i

@[simp]
theorem setPayload_origins (s : SharedCache) (doc : ℕ) (payload : Scm) (used : Origins) (i : ℕ) :
  (s.setPayload doc payload used).origins i = if i = doc then used else s.origins i
  := Function.update_apply _ _ _ _

@[simp]
theorem setDatum_node (s : SharedCache) (doc : ℕ) (value : Scm) (i : ℕ) :
  (s.setDatum doc value).cache.node i
    = if i = doc then { s.cache.node doc with payload := value } else s.cache.node i
  := modify_node s doc (fun node => { node with payload := value }) i

@[simp]
theorem setDatum_origins (s : SharedCache) (doc : ℕ) (value : Scm) (i : ℕ) :
  (s.setDatum doc value).origins i
    = if i = doc then [(doc, (s.values doc).length)] else s.origins i
  := Function.update_apply _ _ _ _

@[simp]
theorem setDatum_values (s : SharedCache) (doc : ℕ) (value : Scm) (i : ℕ) :
  (s.setDatum doc value).values i = if i = doc then s.values doc ++ [value] else s.values i
  := Function.update_apply _ _ _ _

end SharedCache

/-- A change of one thread. -/
theorem confined_put (s : SharedCache) (w : ℕ) (thread : CacheThread) :
  Confined s (s.put w thread) w
  where
  threads _ hv := Function.update_of_ne hv _ _
  frozen := .refl _
  grows _ := List.prefix_refl _
  payload _ _ := rfl
  origins _ _ := rfl
  values _ _ := rfl
  dirty _ _ h := h
  locked _ _ h := h

/-- A change of one thread and of one node. -/
theorem confined_modify (s : SharedCache) (w : ℕ) (thread : CacheThread) (doc : ℕ)
    {f : MakeNode → MakeNode} (hfrozen : s.cache.Frozen (s.cache.modify doc f))
    (hf : doc ∈ (s.threads w).held ∨ (f (s.cache.node doc)).payload = (s.cache.node doc).payload
      ∧ ((s.cache.node doc).dirty = true → (f (s.cache.node doc)).dirty = true)
      ∧ ((s.cache.node doc).locked = true → (f (s.cache.node doc)).locked = true)) :
  Confined s ((s.modify doc f).put w thread) w
  := by
  have hnode : ∀ i, i ∉ (s.threads w).held →
      ((s.modify doc f).cache.node i).payload = (s.cache.node i).payload
        ∧ ((s.cache.node i).dirty = true → ((s.modify doc f).cache.node i).dirty = true)
        ∧ ((s.cache.node i).locked = true → ((s.modify doc f).cache.node i).locked = true) := by
    intro i hi
    rw [SharedCache.modify_node]
    split
    case isTrue hdoc =>
        rw [hdoc] at hi ⊢
        exact hf.resolve_left hi
    case isFalse => exact ⟨rfl, id, id⟩
  exact {
    threads := fun _ hv => Function.update_of_ne hv _ _
    frozen := hfrozen
    grows := fun _ => List.prefix_refl _
    payload := fun i hi => (hnode i hi).1
    origins := fun _ _ => rfl
    values := fun _ _ => rfl
    dirty := fun i hi => (hnode i hi).2.1
    locked := fun i hi => (hnode i hi).2.2 }

/-- A new payload of a node whose mutex the thread has locked. -/
theorem confined_setPayload (s : SharedCache) (w : ℕ) (thread : CacheThread) {doc : ℕ}
    (payload : Scm) (used : Origins) (hheld : doc ∈ (s.threads w).held) :
  Confined s ((s.setPayload doc payload used).put w thread) w
  := by
  have hmodify := confined_modify s w thread doc
    (f := fun node => { node with payload := payload }) (.modify _ _ rfl rfl rfl) (Or.inl hheld)
  refine { hmodify with origins := ?_ }
  intro i hi
  rw [SharedCache.put_origins, SharedCache.setPayload_origins, if_neg]
  rintro rfl
  exact hi hheld

/-- A new value of a datum whose mutex the thread has locked. -/
theorem confined_setDatum (s : SharedCache) (w : ℕ) (thread : CacheThread) {doc : ℕ} (value : Scm)
    (hheld : doc ∈ (s.threads w).held) :
  Confined s ((s.setDatum doc value).put w thread) w
  := by
  have hpayload := confined_setPayload s w thread value [(doc, (s.values doc).length)] hheld
  refine { hpayload with grows := ?_, values := ?_ }
  · intro i
    rw [SharedCache.put_values, SharedCache.setDatum_values]
    split
    case isTrue hi =>
        rw [hi]
        apply List.prefix_append
    case isFalse => exact List.prefix_refl _
  · intro i hi
    rw [SharedCache.put_values, SharedCache.setDatum_values, if_neg]
    rintro rfl
    exact hi hheld

/-- What a step leaves as it is. -/
theorem Advanced.confined (h : Advanced apply c s w frames phase t)
    (hw : s.threads w = .active frames phase) :
  Confined s t w
  := by
  have hheld : ∀ {i}, phase.held = [i] → i ∈ (s.threads w).held := by
    intro i hi
    rw [hw, CacheThread.held, hi]
    exact List.mem_cons_self
  cases h with
  | lock doc | lockTouch doc =>
      exact confined_modify s w _ doc (.modify _ _ rfl rfl rfl) (Or.inr ⟨rfl, id, fun _ => rfl⟩)
  | dirty | clean | datum | chain | ret | fetch | read | noValue => exact confined_put s w _
  | clear doc | unlock doc | finish doc =>
      exact confined_modify s w _ doc (.modify _ _ rfl rfl rfl) (Or.inl (hheld rfl))
  | store doc payload used => exact confined_setPayload s w _ payload used (hheld rfl)
  | mark doc args i todo =>
      exact confined_modify s w _ i (.modify _ _ rfl rfl rfl) (Or.inr ⟨rfl, fun _ => rfl, id⟩)
  | value doc arg => exact confined_setDatum s w _ arg (hheld rfl)

/-- A call by a thread leaves the nodes as they are. -/
theorem confined_call {doc : ℕ} (h : s.call w doc phase = some t) :
  Confined s t w ∧ t = s.put w (.active [] phase) ∧ ∃ o, s.threads w = .idle o
  := by
  rw [SharedCache.call] at h
  split at h
  case h_1 o hw =>
      split at h
      case isTrue =>
          cases h
          exact ⟨confined_put s w _, rfl, o, hw⟩
      case isFalse => cases h
  case h_2 => cases h

/-! ### Mutexes -/

/-- The recipes that wait are those of documents above the one that the thread is at. -/
theorem FramesOk.above {values : ℕ → List Scm} {child : ℕ}
    (h : FramesOk loc apply c values child frames) {f : Waiting} (hf : f ∈ frames) :
  c.Above child f.doc
  := by
  induction frames generalizing child with
  | nil => cases hf
  | cons f' frames ih =>
      have hfirst : c.Above child f'.doc := .single h.1.1
      rcases List.mem_cons.mp hf with rfl | hf
      · exact hfirst
      · exact hfirst.trans (ih h.2 hf)

/-- The documents of a thread are newer and newer, from the inside out. -/
theorem FramesOk.pairwise (hc : c.Layered) {values : ℕ → List Scm} {child : ℕ}
    (h : FramesOk loc apply c values child frames) :
  (child :: frames.map Waiting.doc).Pairwise (· < ·)
  := by
  induction frames generalizing child with
  | nil => exact List.pairwise_singleton _ _
  | cons f frames ih =>
      have hlt : child < f.doc := (hc child f.doc h.1.1).1
      have hrest := ih h.2
      apply List.pairwise_cons.mpr
      refine ⟨?_, hrest⟩
      intro i hi
      rcases List.mem_cons.mp hi with rfl | hi
      · exact hlt
      · exact hlt.trans ((List.pairwise_cons.mp hrest).1 i hi)

theorem FramesOk.not_mem (hc : c.Layered) {values : ℕ → List Scm} {child : ℕ}
    (h : FramesOk loc apply c values child frames) :
  child ∉ frames.map Waiting.doc
  := fun hmem => Nat.lt_irrefl _ ((List.pairwise_cons.mp (h.pairwise hc)).1 child hmem)

theorem held_deliver (frames : List Waiting) (o : Outcome) (used : Origins) :
  (deliver frames o used).held = frames.map Waiting.doc
  := by
  cases frames with
  | nil => rfl
  | cons f frames => rfl

/-- A thread locks a mutex that is free, or keeps mutexes that it has locked. -/
theorem Advanced.held (hc : c.Layered) (h : Advanced apply c s w frames phase t)
    (hw : s.threads w = .active frames phase)
    (hframes : FramesOk loc apply c s.values phase.doc frames) {i : ℕ}
    (hi : i ∈ (t.threads w).held) :
  (i ∈ (s.threads w).held ∧ (t.cache.node i).locked = (s.cache.node i).locked)
    ∨ ((s.cache.node i).locked = false ∧ (t.cache.node i).locked = true)
  := by
  have hmodify : ∀ (doc : ℕ) (f : MakeNode → MakeNode),
      (f (s.cache.node doc)).locked = (s.cache.node doc).locked →
      ((s.modify doc f).cache.node i).locked = (s.cache.node i).locked :=
    fun _ _ hf => Cache.modify_field MakeNode.locked hf i
  rw [hw]
  have hlock : ∀ {doc : ℕ}, (s.cache.node doc).locked = false → i ∈ doc :: frames.map Waiting.doc →
      (i ∈ frames.map Waiting.doc
        ∧ ((s.modify doc (fun node => { node with locked := true })).cache.node i).locked
          = (s.cache.node i).locked)
      ∨ ((s.cache.node i).locked = false
        ∧ ((s.modify doc (fun node => { node with locked := true })).cache.node i).locked = true) := by
    intro doc hlocked hi
    by_cases hdoc : i = doc
    · rw [SharedCache.modify_node, if_pos hdoc, hdoc]
      exact Or.inr ⟨hlocked, rfl⟩
    · rw [SharedCache.modify_node, if_neg hdoc]
      exact Or.inl ⟨(List.mem_cons.mp hi).resolve_left hdoc, rfl⟩
  have hunlock : i ∈ frames.map Waiting.doc →
      i ∈ phase.doc :: frames.map Waiting.doc
        ∧ ((s.modify phase.doc (fun node => { node with locked := false })).cache.node i).locked
          = (s.cache.node i).locked := by
    intro hi
    have hdoc : i ≠ phase.doc := by
      rintro rfl
      exact hframes.not_mem hc hi
    rw [SharedCache.modify_node, if_neg hdoc]
    exact ⟨List.mem_cons_of_mem _ hi, rfl⟩
  cases h with
  | lock doc args hlocked | lockTouch doc args hlocked =>
      rw [SharedCache.put_self] at hi
      exact hlock hlocked hi
  | unlock | finish =>
      rw [SharedCache.put_self, held_deliver] at hi
      exact Or.inl (hunlock hi)
  | clear doc =>
      rw [SharedCache.put_self] at hi
      exact Or.inl ⟨hi, hmodify doc (fun node => { node with dirty := false }) rfl⟩
  | mark _ _ j =>
      rw [SharedCache.put_self] at hi
      exact Or.inl ⟨hi, hmodify j (fun node => { node with dirty := true }) rfl⟩
  | store doc payload =>
      rw [SharedCache.put_self] at hi
      exact Or.inl ⟨hi, hmodify doc (fun node => { node with payload := payload }) rfl⟩
  | value doc arg =>
      rw [SharedCache.put_self] at hi
      exact Or.inl ⟨hi, hmodify doc (fun node => { node with payload := arg }) rfl⟩
  | dirty | clean | datum | chain | ret | fetch | read | noValue =>
      rw [SharedCache.put_self] at hi
      exact Or.inl ⟨hi, rfl⟩

/-- A mutex that a thread has locked is locked, and no other thread has locked it. -/
def Exclusive (s : SharedCache) : Prop :=
  ∀ v i, i ∈ (s.threads v).held →
    (s.cache.node i).locked = true ∧ ∀ u, i ∈ (s.threads u).held → u = v

/-- No two threads come to hold one mutex. -/
theorem Exclusive.step (hs : Exclusive s) (hconfined : Confined s t w)
    (hheld : ∀ i, i ∈ (t.threads w).held →
      (i ∈ (s.threads w).held ∧ (t.cache.node i).locked = (s.cache.node i).locked)
        ∨ ((s.cache.node i).locked = false ∧ (t.cache.node i).locked = true)) :
  Exclusive t
  := by
  -- another thread that holds a mutex held it before, and the thread `w` did not
  have hother : ∀ v, v ≠ w → ∀ i, i ∈ (t.threads v).held →
      i ∈ (s.threads v).held ∧ i ∉ (s.threads w).held ∧ i ∉ (t.threads w).held := by
    intro v hv i hi
    rw [hconfined.threads v hv] at hi
    have hw : i ∉ (s.threads w).held := fun hw => hv ((hs w i hw).2 v hi)
    refine ⟨hi, hw, ?_⟩
    intro hit
    rcases hheld i hit with ⟨his, -⟩ | ⟨hfree, -⟩
    · exact hw his
    · rw [(hs v i hi).1] at hfree
      cases hfree
  intro v i hi
  by_cases hv : v = w
  · subst hv
    constructor
    · rcases hheld i hi with ⟨his, hlocked⟩ | ⟨-, hlocked⟩
      · rw [hlocked, (hs v i his).1]
      · exact hlocked
    · intro u hu
      by_contra hne
      exact (hother u hne i hu).2.2 hi
  · obtain ⟨hi', hw, hwt⟩ := hother v hv i hi
    constructor
    · exact hconfined.locked i hw (hs v i hi').1
    · intro u hu
      have hu' : u ≠ w := by
        rintro rfl
        exact hwt hu
      exact (hs v i hi').2 u (hother u hu' i hu).1

end Procedures

end Gusher
