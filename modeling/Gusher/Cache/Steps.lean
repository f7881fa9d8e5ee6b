import Gusher.Cache.Node

/-!
# What touching and fetching a document do

The ascendants of a node are newer than the node, so that `invalidate` comes to an end and marks
the node and all nodes above it.  With this, `touchNode_cases` and `fetchNode_cases` say once what
a call of `touch-doc` and of `fetch-doc` can do to the cache, and `fetchNode_invariant` says which
steps a fetch is made of.
-/

namespace Gusher

namespace Cache

/-- The ascendants of a node are newer nodes. -/
def Layered (s : Cache) : Prop :=
  ∀ i, ∀ j ∈ (s.node i).ascendants, i < j ∧ j < s.count

/-- The second node is the first one or above it. -/
def Above (s : Cache) : ℕ → ℕ → Prop :=
  Mark.Path (fun i => (s.node i).ascendants)

/-- The cache with other dirty flags. -/
def setDirty (s : Cache) (d : ℕ → Bool) : Cache :=
  { s with node := fun i => { s.node i with dirty := d i } }

/-- The dirty flags after the invalidation of a node: the node and the nodes above it have
become dirty. -/
def Dirtied (s : Cache) (doc : ℕ) (d : ℕ → Bool) : Prop :=
  ∀ i, d i = true ↔ (s.node i).dirty = true ∨ s.Above doc i

theorem modify_node (s : Cache) (doc : ℕ) (f : MakeNode → MakeNode) (i : ℕ) :
  (s.modify doc f).node i = if i = doc then f (s.node doc) else s.node i
  := Function.update_apply _ _ _ _

theorem addNode_node (s : Cache) (node : MakeNode) (i : ℕ) :
  (s.addNode node).node i = if i = s.count then node else s.node i
  := Function.update_apply _ _ _ _

/-- Two caches with the same nodes, and all else alike. -/
theorem with_node_congr {s : Cache} {f g : ℕ → MakeNode} (h : ∀ i, f i = g i) :
  { s with node := f } = { s with node := g }
  := by
  rw [funext h]

@[simp]
theorem modify_modify (s : Cache) (doc : ℕ) (f g : MakeNode → MakeNode) :
  (s.modify doc f).modify doc g = s.modify doc (fun node => g (f node))
  := by
  simp [modify]

theorem modify_congr {s : Cache} {doc : ℕ} {f g : MakeNode → MakeNode}
    (h : f (s.node doc) = g (s.node doc)) :
  s.modify doc f = s.modify doc g
  := by
  simp [modify, h]

theorem modify_eq_self {s : Cache} {doc : ℕ} {f : MakeNode → MakeNode}
    (h : f (s.node doc) = s.node doc) :
  s.modify doc f = s
  := by
  simp [modify, h]

/-- What a change of one node leaves as it is in that node, it leaves as it is in all nodes. -/
theorem modify_field {α : Type} {s : Cache} {doc : ℕ} {f : MakeNode → MakeNode}
    (g : MakeNode → α) (h : g (f (s.node doc)) = g (s.node doc)) (i : ℕ) :
  g ((s.modify doc f).node i) = g (s.node i)
  := by
  rw [modify_node]
  split
  case isTrue hi => rw [h, hi]
  case isFalse => rfl

/-- Other dirty flags, and a change of a node that does not look at its flag. -/
theorem setDirty_modify (s : Cache) (doc : ℕ) (f : MakeNode → MakeNode) (d : ℕ → Bool)
    (h : { f (s.node doc) with dirty := d doc } = f { s.node doc with dirty := d doc }) :
  (s.modify doc f).setDirty d = (s.setDirty d).modify doc f
  := by
  unfold setDirty modify
  congr 1
  funext i
  by_cases hi : i = doc
  · subst hi
    simpa using h
  · simp [hi]

end Cache

/-! ### Invalidation -/

/-- The walk of `invalidate` is the one that marks what can be reached. -/
theorem invalidate_eq_mark (nodes : ℕ → MakeNode) (fuel : ℕ) (d : ℕ → Bool) (doc : ℕ) :
  invalidate fuel (fun i => { nodes i with dirty := d i }) doc
    = (Mark.mark (fun i => (nodes i).ascendants) fuel d doc).map
        (fun d i => { nodes i with dirty := d i })
  := by
  induction fuel generalizing d doc with
  | zero => rfl
  | succ fuel ih =>
      rw [invalidate, Mark.mark]
      have hupdate : Function.update (fun i => { nodes i with dirty := d i }) doc
            { nodes doc with dirty := true }
          = fun i => { nodes i with dirty := Function.update d doc true i } := by
        funext i
        by_cases hi : i = doc
        · subst hi
          simp
        · simp [hi]
      rw [hupdate]
      generalize Function.update d doc true = d
      induction (nodes doc).ascendants generalizing d with
      | nil => rfl
      | cons j js ihjs =>
          rw [List.foldlM_cons, List.foldlM_cons, ih]
          cases Mark.mark (fun i => (nodes i).ascendants) fuel d j with
          | none => rfl
          | some d' => apply ihjs

/-- The invalidation of a node ends, and makes exactly the node and the nodes above it dirty. -/
theorem Cache.invalidate_spec {s : Cache} (hlayered : s.Layered) {doc : ℕ}
    (hdoc : doc < s.count) :
  ∃ d, s.invalidate doc = some (s.setDirty d) ∧ s.Dirtied doc d
  := by
  have hmark : ∃ d, Mark.mark (fun i => (s.node i).ascendants) s.count
      (fun i => (s.node i).dirty) doc = some d ∧ s.Dirtied doc d :=
    Mark.mark_spec id s.count hlayered (Nat.zero_lt_of_lt hdoc) (Nat.le_add_left _ _) _
  obtain ⟨d, hd, hpath⟩ := hmark
  refine ⟨d, ?_, hpath⟩
  rw [Cache.invalidate, invalidate_eq_mark s.node s.count (fun i => (s.node i).dirty), hd]
  rfl

/-! ### Touching -/

/-- What `touch-doc` does. -/
inductive Touched (loc : Locale) (s : Cache) (doc : ℕ) (args : List Scm) :
    Outcome → Cache → Prop where
  | locked (hlocked : (s.node doc).locked = true) : Touched loc s doc args (.error mutexError) s
  | plain (d : ℕ → Bool) (hlocked : (s.node doc).locked = false) (hd : s.Dirtied doc d)
      (hargs : args = [] ∨ (s.node doc).type = .chain) :
      Touched loc s doc args (.ok (.bool true)) (s.setDirty d)
  | datum (d : ℕ → Bool) (arg : Scm) (hlocked : (s.node doc).locked = false)
      (hd : s.Dirtied doc d) (htype : (s.node doc).type = .datum) (hargs : args.head? = some arg) :
      Touched loc s doc args (.ok (.bool true))
        ((s.setDirty d).modify doc (fun node => { node with payload := arg }))
  | file (d : ℕ → Bool) (arg : Scm) (path : List UInt8)
      (hlocked : (s.node doc).locked = false) (hd : s.Dirtied doc d)
      (htype : (s.node doc).type = .file) (hargs : args.head? = some arg)
      (hpath : loc.toLocaleString arg = some path) :
      Touched loc s doc args (.ok (.bool true))
        ((s.setDirty d).modify doc (fun node => { node with filepath := some path }))
  | freed (d : ℕ → Bool) (arg : Scm) (hlocked : (s.node doc).locked = false)
      (hd : s.Dirtied doc d) (htype : (s.node doc).type = .file) (hargs : args.head? = some arg)
      (hpath : loc.toLocaleString arg = none) :
      Touched loc s doc args (.error (stringError arg))
        ((s.setDirty d).modify doc (fun node => { node with locked := true, filepath := none }))

/-- The invalidation of a node whose mutex has just been locked. -/
theorem Cache.invalidate_locked {s : Cache} (hlayered : s.Layered) {doc : ℕ}
    (hdoc : doc < s.count) :
  ∃ d, (s.modify doc (fun node => { node with locked := true })).invalidate doc
      = some ((s.setDirty d).modify doc (fun node => { node with locked := true }))
    ∧ s.Dirtied doc d
  := by
  have hasc : ∀ i, ((s.modify doc (fun node => { node with locked := true })).node i).ascendants
      = (s.node i).ascendants := modify_field MakeNode.ascendants rfl
  have hlayered' : (s.modify doc (fun node => { node with locked := true })).Layered := by
    intro i j hj
    rw [hasc] at hj
    exact hlayered i j hj
  obtain ⟨d, hd, hdirtied⟩ := invalidate_spec hlayered' hdoc
  refine ⟨d, ?_, ?_⟩
  · rw [hd, setDirty_modify]
    rfl
  · intro i
    rw [hdirtied i, Above, Above, funext hasc, modify_field MakeNode.dirty rfl]

/-- A call of `touch-doc` comes to an end, and does one of these. -/
theorem touchNode_cases (loc : Locale) {s : Cache} (hlayered : s.Layered) {doc : ℕ}
    (hdoc : doc < s.count) (args : List Scm) :
  ∃ o s', touchNode loc s doc args = some (o, s') ∧ Touched loc s doc args o s'
  := by
  cases hlocked : (s.node doc).locked with
  | true =>
      refine ⟨_, _, ?_, .locked hlocked⟩
      rw [touchNode, Cache.lockMutex, hlocked]
      rfl
  | false =>
      obtain ⟨d, hd, hdirtied⟩ := Cache.invalidate_locked hlayered hdoc
      have hnode : ((s.setDirty d).modify doc (fun node => { node with locked := true })).node doc
          = { s.node doc with locked := true, dirty := d doc } := by
        rw [Cache.modify_node, if_pos rfl]
        rfl
      have hunlocked : ((s.setDirty d).node doc).locked = false := hlocked
      unfold touchNode
      rw [Cache.lockMutex, hlocked]
      simp only [Bool.false_eq_true, if_false, hd, Option.map_some, hnode, Cache.unlockMutex,
        Cache.modify_modify]
      cases args with
      | nil =>
          refine ⟨_, _, rfl, ?_⟩
          rw [Cache.modify_eq_self (by simp [← hunlocked])]
          exact .plain d hlocked hdirtied (Or.inl rfl)
      | cons arg args =>
          cases htype : (s.node doc).type with
          | datum =>
              refine ⟨_, _, rfl, ?_⟩
              rw [Cache.modify_congr (g := fun node => { node with payload := arg })
                (by simp [← hunlocked])]
              exact .datum d arg hlocked hdirtied htype rfl
          | file =>
              cases hpath : loc.toLocaleString arg with
              | some path =>
                  simp only [hpath]
                  refine ⟨_, _, rfl, ?_⟩
                  rw [Cache.modify_congr (g := fun node => { node with filepath := some path })
                    (by simp [← hunlocked])]
                  exact .file d arg path hlocked hdirtied htype rfl hpath
              | none =>
                  simp only [hpath]
                  refine ⟨_, _, rfl, ?_⟩
                  exact .freed d arg hlocked hdirtied htype rfl hpath
          | chain =>
              refine ⟨_, _, rfl, ?_⟩
              rw [Cache.modify_eq_self (by simp [← hunlocked])]
              exact .plain d hlocked hdirtied (Or.inr htype)

/-- What a call of `touch-doc` that has been made did. -/
theorem touched_of_eq {loc : Locale} {s s' : Cache} (hlayered : s.Layered) {doc : ℕ}
    (hdoc : doc < s.count) {args : List Scm} {o : Outcome}
    (h : touchNode loc s doc args = some (o, s')) :
  Touched loc s doc args o s'
  := by
  obtain ⟨o₁, s₁, htouch, htouched⟩ := touchNode_cases loc hlayered hdoc args
  rw [h] at htouch
  cases htouch
  exact htouched

/-! ### Fetching -/

/-- A run of a recipe is a sequence of calls of `fetch-doc` and `touch-doc`. -/
theorem runRecipe_rel {loc : Locale} {fetch : Cache → ℕ → List Scm → Option (Outcome × Cache)}
    {R : Cache → Cache → Prop} (hrefl : ∀ s, R s s)
    (htrans : ∀ s₁ s₂ s₃, R s₁ s₂ → R s₂ s₃ → R s₁ s₃)
    (hfetch : ∀ {s s' doc args o}, doc < s.count → fetch s doc args = some (o, s') → R s s')
    (htouch : ∀ {s s' doc args o}, doc < s.count → touchNode loc s doc args = some (o, s') →
      R s s')
    {recipe : Recipe} {s s' : Cache} {o : Outcome}
    (h : runRecipe loc fetch s recipe = some (o, s')) :
  R s s'
  := by
  induction recipe generalizing s with
  | ret v =>
      cases h
      apply hrefl
  | raise e =>
      cases h
      apply hrefl
  | fetch doc args cont ih =>
      rw [runRecipe] at h
      split at h
      case isFalse => cases h
      case isTrue hdoc =>
          split at h
          case h_1 => cases h
          case h_2 o₁ s₁ hf => exact htrans _ _ _ (hfetch hdoc hf) (ih _ h)
  | touch doc args cont ih =>
      rw [runRecipe] at h
      split at h
      case isFalse => cases h
      case isTrue hdoc =>
          split at h
          case h_1 => cases h
          case h_2 o₁ s₁ ht => exact htrans _ _ _ (htouch hdoc ht) (ih _ h)

/-- The cache while a node is being regenerated, before anything else has happened. -/
def Cache.regenerate (s : Cache) (doc : ℕ) : Cache :=
  s.modify doc (fun node => { node with locked := true, dirty := false })

section Procedures

variable (loc : Locale) (apply : Scm → List Scm → Recipe) (fuel : ℕ) {s : Cache} {doc : ℕ}
  (args : List Scm)

theorem fetchNode_locked (hlocked : (s.node doc).locked = true) :
  fetchNode loc apply (fuel + 1) s doc args = some (.error mutexError, s)
  := by
  rw [fetchNode, Cache.lockMutex, hlocked]
  rfl

theorem fetchNode_clean (hlocked : (s.node doc).locked = false)
    (hclean : (s.node doc).dirty = false) :
  fetchNode loc apply (fuel + 1) s doc args = some (.ok (s.node doc).payload, s)
  := by
  have hnode : ((s.modify doc (fun node => { node with locked := true })).node doc)
      = { s.node doc with locked := true } := by
    rw [Cache.modify_node, if_pos rfl]
  rw [fetchNode, Cache.lockMutex, hlocked]
  simp only [Bool.false_eq_true, if_false, hnode, hclean, not_false_eq_true, if_true,
    Cache.unlockMutex, Cache.modify_modify]
  rw [Cache.modify_eq_self (by simp [← hlocked])]

/-- A dirty node whose mutex is free is locked and marked clean before it is regenerated. -/
theorem fetchNode_dirty (hlocked : (s.node doc).locked = false)
    (hdirty : (s.node doc).dirty = true) :
  fetchNode loc apply (fuel + 1) s doc args
    = match (s.node doc).type with
      | .datum => some (finishFetch (s.regenerate doc) doc (s.node doc).payload)
      | .file =>
          (s.node doc).filepath.map (fun path =>
            finishFetch
              ((s.regenerate doc).modify doc (fun node =>
                { node with loaded := (s.files path).map File.mtime }))
              doc (filePayload loc s path))
      | .chain =>
          match runRecipe loc (fetchNode loc apply fuel) (s.regenerate doc)
              (apply (s.node doc).callback args) with
          | none => none
          | some (.ok payload, s) => some (finishFetch s doc payload)
          | some (.error e, s) => some (.error e, { s with abandoned := doc :: s.abandoned })
  := by
  have hnode : ((s.modify doc (fun node => { node with locked := true })).node doc)
      = { s.node doc with locked := true } := by
    rw [Cache.modify_node, if_pos rfl]
  have hregenerate : (s.modify doc (fun node => { node with locked := true, dirty := false })).node
      doc = { s.node doc with locked := true, dirty := false } := by
    rw [Cache.modify_node, if_pos rfl]
  rw [fetchNode, Cache.lockMutex, hlocked]
  simp only [Bool.false_eq_true, if_false, hnode, hdirty, not_true_eq_false,
    Cache.modify_modify, hregenerate, Cache.regenerate]
  rfl

theorem fetchNode_datum (hlocked : (s.node doc).locked = false)
    (hdirty : (s.node doc).dirty = true) (htype : (s.node doc).type = .datum) :
  fetchNode loc apply (fuel + 1) s doc args
    = some (.ok (s.node doc).payload, s.modify doc (fun node => { node with dirty := false }))
  := by
  rw [fetchNode_dirty loc apply fuel args hlocked hdirty, htype]
  simp only [finishFetch, Cache.unlockMutex, Cache.regenerate, Cache.modify_modify]
  rw [Cache.modify_congr]
  simp [← hlocked]

/-- The payload of a file node is read from the file. -/
theorem fetchNode_file (hlocked : (s.node doc).locked = false)
    (hdirty : (s.node doc).dirty = true) (htype : (s.node doc).type = .file) :
  fetchNode loc apply (fuel + 1) s doc args
    = (s.node doc).filepath.map (fun path =>
        (.ok (filePayload loc s path), s.modify doc (fun node =>
          { node with
            payload := filePayload loc s path,
            dirty := false,
            loaded := (s.files path).map File.mtime })))
  := by
  rw [fetchNode_dirty loc apply fuel args hlocked hdirty, htype]
  cases (s.node doc).filepath with
  | none => rfl
  | some path =>
      simp only [finishFetch, Cache.unlockMutex, Cache.regenerate, Cache.modify_modify,
        Option.map_some]
      rw [Cache.modify_congr]
      simp [← hlocked]

/-- The payload of a chain node is what its recipe returns. -/
theorem fetchNode_chain (hlocked : (s.node doc).locked = false)
    (hdirty : (s.node doc).dirty = true) (htype : (s.node doc).type = .chain) :
  fetchNode loc apply (fuel + 1) s doc args
    = match runRecipe loc (fetchNode loc apply fuel) (s.regenerate doc)
          (apply (s.node doc).callback args) with
      | none => none
      | some (.ok payload, s) =>
          some (.ok payload,
            s.modify doc (fun node => { node with payload := payload, locked := false }))
      | some (.error e, s) => some (.error e, { s with abandoned := doc :: s.abandoned })
  := by
  rw [fetchNode_dirty loc apply fuel args hlocked hdirty, htype]
  simp only [finishFetch, Cache.unlockMutex, Cache.modify_modify]

/-- What `fetch-doc` does. -/
inductive Fetched (s : Cache) (doc : ℕ) : Outcome → Cache → Prop where
  | locked (hlocked : (s.node doc).locked = true) :
      Fetched s doc (.error mutexError) s
  | clean (hlocked : (s.node doc).locked = false) (hclean : (s.node doc).dirty = false) :
      Fetched s doc (.ok (s.node doc).payload) s
  | datum (hlocked : (s.node doc).locked = false) (hdirty : (s.node doc).dirty = true)
      (htype : (s.node doc).type = .datum) :
      Fetched s doc (.ok (s.node doc).payload)
        (s.modify doc (fun node => { node with dirty := false }))
  | file (path : List UInt8) (hlocked : (s.node doc).locked = false)
      (hdirty : (s.node doc).dirty = true) (htype : (s.node doc).type = .file)
      (hpath : (s.node doc).filepath = some path) :
      Fetched s doc (.ok (filePayload loc s path))
        (s.modify doc (fun node =>
          { node with
            payload := filePayload loc s path,
            dirty := false,
            loaded := (s.files path).map File.mtime }))
  | done (payload : Scm) (s' : Cache) (hlocked : (s.node doc).locked = false)
      (hdirty : (s.node doc).dirty = true) (htype : (s.node doc).type = .chain)
      (hrun : runRecipe loc (fetchNode loc apply fuel) (s.regenerate doc)
        (apply (s.node doc).callback args) = some (.ok payload, s')) :
      Fetched s doc (.ok payload)
        (s'.modify doc (fun node => { node with payload := payload, locked := false }))
  | raised (e : Scm) (s' : Cache) (hlocked : (s.node doc).locked = false)
      (hdirty : (s.node doc).dirty = true) (htype : (s.node doc).type = .chain)
      (hrun : runRecipe loc (fetchNode loc apply fuel) (s.regenerate doc)
        (apply (s.node doc).callback args) = some (.error e, s')) :
      Fetched s doc (.error e) { s' with abandoned := doc :: s'.abandoned }

variable {loc apply fuel args}

/-- A call of `fetch-doc` does one of these. -/
theorem fetchNode_cases {s' : Cache} {o : Outcome}
    (h : fetchNode loc apply (fuel + 1) s doc args = some (o, s')) :
  Fetched loc apply fuel args s doc o s'
  := by
  cases hlocked : (s.node doc).locked with
  | true =>
      rw [fetchNode_locked loc apply fuel args hlocked] at h
      cases h
      exact .locked hlocked
  | false =>
      cases hdirty : (s.node doc).dirty with
      | false =>
          rw [fetchNode_clean loc apply fuel args hlocked hdirty] at h
          cases h
          exact .clean hlocked hdirty
      | true =>
          cases htype : (s.node doc).type with
          | datum =>
              rw [fetchNode_datum loc apply fuel args hlocked hdirty htype] at h
              cases h
              exact .datum hlocked hdirty htype
          | file =>
              rw [fetchNode_file loc apply fuel args hlocked hdirty htype] at h
              obtain ⟨path, hpath, heq⟩ := Option.map_eq_some_iff.mp h
              cases heq
              exact .file path hlocked hdirty htype hpath
          | chain =>
              rw [fetchNode_chain loc apply fuel args hlocked hdirty htype] at h
              split at h
              case h_1 => cases h
              case h_2 payload s₁ hrun =>
                  cases h
                  exact .done payload s₁ hlocked hdirty htype hrun
              case h_3 e s₁ hrun =>
                  cases h
                  exact .raised e s₁ hlocked hdirty htype hrun

end Procedures

/-! ### Invariants of fetching -/

/-- What touching and fetching leave as it is. -/
structure Cache.Frozen (s s' : Cache) : Prop where
  count : s'.count = s.count
  fileNodes : s'.fileNodes = s.fileNodes
  files : s'.files = s.files
  newest : s'.newest = s.newest
  callback : ∀ i, (s'.node i).callback = (s.node i).callback
  ascendants : ∀ i, (s'.node i).ascendants = (s.node i).ascendants
  type : ∀ i, (s'.node i).type = (s.node i).type

namespace Cache.Frozen

variable {s s' s'' : Cache}

theorem refl (s : Cache) :
  s.Frozen s
  := ⟨rfl, rfl, rfl, rfl, fun _ => rfl, fun _ => rfl, fun _ => rfl⟩

theorem trans (h : s.Frozen s') (h' : s'.Frozen s'') :
  s.Frozen s''
  where
  count := h'.count.trans h.count
  fileNodes := h'.fileNodes.trans h.fileNodes
  files := h'.files.trans h.files
  newest := h'.newest.trans h.newest
  callback i := (h'.callback i).trans (h.callback i)
  ascendants i := (h'.ascendants i).trans (h.ascendants i)
  type i := (h'.type i).trans (h.type i)

theorem modify (s : Cache) (doc : ℕ) {f : MakeNode → MakeNode}
    (hcallback : (f (s.node doc)).callback = (s.node doc).callback)
    (hascendants : (f (s.node doc)).ascendants = (s.node doc).ascendants)
    (htype : (f (s.node doc)).type = (s.node doc).type) :
  s.Frozen (s.modify doc f)
  := by
  refine ⟨rfl, rfl, rfl, rfl, ?_, ?_, ?_⟩
  · exact modify_field MakeNode.callback hcallback
  · exact modify_field MakeNode.ascendants hascendants
  · exact modify_field MakeNode.type htype

theorem setDirty (s : Cache) (d : ℕ → Bool) :
  s.Frozen (s.setDirty d)
  := ⟨rfl, rfl, rfl, rfl, fun _ => rfl, fun _ => rfl, fun _ => rfl⟩

theorem regenerate (s : Cache) (doc : ℕ) :
  s.Frozen (s.regenerate doc)
  := .modify _ _ rfl rfl rfl

theorem layered (h : s.Frozen s') (hs : s.Layered) :
  s'.Layered
  := by
  intro i j hj
  rw [h.ascendants] at hj
  rw [h.count]
  apply hs i j hj

theorem above (h : s.Frozen s') :
  s'.Above = s.Above
  := by
  rw [Cache.Above, Cache.Above, funext h.ascendants]

end Cache.Frozen

theorem Touched.frozen {loc : Locale} {s s' : Cache} {doc : ℕ} {args : List Scm} {o : Outcome}
    (h : Touched loc s doc args o s') :
  s.Frozen s'
  := by
  cases h with
  | locked => exact .refl s
  | plain d => exact .setDirty s d
  | datum d => exact (Cache.Frozen.setDirty s d).trans (.modify _ _ rfl rfl rfl)
  | file d => exact (Cache.Frozen.setDirty s d).trans (.modify _ _ rfl rfl rfl)
  | freed d => exact (Cache.Frozen.setDirty s d).trans (.modify _ _ rfl rfl rfl)

/-- The steps of which a fetch is made preserve `I`. -/
structure FetchInvariant (loc : Locale) (I : Cache → Prop) : Prop where
  layered : ∀ {s : Cache}, I s → s.Layered
  touch : ∀ {s s' : Cache} {doc : ℕ} {args : List Scm} {o : Outcome}, I s →
    Touched loc s doc args o s' → I s'
  datum : ∀ {s : Cache} {doc : ℕ}, I s → doc < s.count → (s.node doc).type = .datum →
    I (s.modify doc (fun node => { node with dirty := false }))
  file : ∀ {s : Cache} {doc : ℕ} {path : List UInt8}, I s → doc < s.count →
    (s.node doc).type = .file → (s.node doc).filepath = some path →
    I (s.modify doc (fun node =>
      { node with
        payload := filePayload loc s path,
        dirty := false,
        loaded := (s.files path).map File.mtime }))
  regenerate : ∀ {s : Cache} {doc : ℕ}, I s → doc < s.count → (s.node doc).locked = false →
    (s.node doc).type = .chain → I (s.regenerate doc)
  done : ∀ {s : Cache} {doc : ℕ} {payload : Scm}, I s → doc < s.count →
    (s.node doc).type = .chain →
    I (s.modify doc (fun node => { node with payload := payload, locked := false }))
  raised : ∀ {s : Cache} {doc : ℕ}, I s → doc < s.count → (s.node doc).type = .chain →
    I { s with abandoned := doc :: s.abandoned }

section Invariant

variable {loc : Locale} {apply : Scm → List Scm → Recipe} {I : Cache → Prop}

/-- A run of a recipe preserves what fetching and touching preserve. -/
theorem FetchInvariant.runRecipe (hI : FetchInvariant loc I)
    {fetch : Cache → ℕ → List Scm → Option (Outcome × Cache)}
    (hfetch : ∀ {s s' doc args o}, doc < s.count → fetch s doc args = some (o, s') → I s →
      I s' ∧ s.Frozen s')
    {recipe : Recipe} {s s' : Cache} {o : Outcome}
    (h : runRecipe loc fetch s recipe = some (o, s')) :
  I s → I s' ∧ s.Frozen s'
  := by
  apply runRecipe_rel (R := fun s s' => I s → I s' ∧ s.Frozen s') _ _ hfetch _ h
  · intro s hs
    exact ⟨hs, .refl s⟩
  · intro s₁ s₂ s₃ h₁ h₂ hs₁
    obtain ⟨hs₂, hfrozen⟩ := h₁ hs₁
    obtain ⟨hs₃, hfrozen'⟩ := h₂ hs₂
    exact ⟨hs₃, hfrozen.trans hfrozen'⟩
  · intro s s' doc args o hdoc htouch hs
    have htouched := touched_of_eq (hI.layered hs) hdoc htouch
    exact ⟨hI.touch hs htouched, htouched.frozen⟩

/-- A fetch preserves what its steps preserve. -/
theorem FetchInvariant.fetchNode (hI : FetchInvariant loc I) {fuel : ℕ} {s s' : Cache} {doc : ℕ}
    {args : List Scm} {o : Outcome} (hdoc : doc < s.count)
    (h : fetchNode loc apply fuel s doc args = some (o, s')) (hs : I s) :
  I s' ∧ s.Frozen s'
  := by
  induction fuel generalizing s s' doc args o with
  | zero => cases h
  | succ fuel ih =>
      cases fetchNode_cases h with
      | locked => exact ⟨hs, .refl s⟩
      | clean => exact ⟨hs, .refl s⟩
      | datum _ _ htype => exact ⟨hI.datum hs hdoc htype, .modify _ _ rfl rfl rfl⟩
      | file path _ _ htype hpath => exact ⟨hI.file hs hdoc htype hpath, .modify _ _ rfl rfl rfl⟩
      | done payload s₁ hlocked _ htype hrun =>
          obtain ⟨hs₁, hfrozen₁⟩ := hI.runRecipe (fun hd h hs => ih hd h hs) hrun
            (hI.regenerate hs hdoc hlocked htype)
          have hfrozen := (Cache.Frozen.regenerate s doc).trans hfrozen₁
          refine ⟨hI.done hs₁ ?_ ?_, hfrozen.trans (.modify _ _ rfl rfl rfl)⟩
          · rwa [hfrozen.count]
          · rwa [hfrozen.type]
      | raised e s₁ hlocked _ htype hrun =>
          obtain ⟨hs₁, hfrozen₁⟩ := hI.runRecipe (fun hd h hs => ih hd h hs) hrun
            (hI.regenerate hs hdoc hlocked htype)
          have hfrozen := (Cache.Frozen.regenerate s doc).trans hfrozen₁
          refine ⟨hI.raised hs₁ ?_ ?_, hfrozen.trans ?_⟩
          · rwa [hfrozen.count]
          · rwa [hfrozen.type]
          · exact ⟨rfl, rfl, rfl, rfl, fun _ => rfl, fun _ => rfl, fun _ => rfl⟩

end Invariant

end Gusher
