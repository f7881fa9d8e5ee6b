import Gusher.Cache.Locks

/-!
# The graph of the nodes

The calls of `make-doc`, `touch-doc` and `fetch-doc` of one thread, also from recipes while they run:
a fetch is what happens when `fetch_node` has cleared the flag, and when it has the payload, with the
events of the recipe in between.  `fetchDoc_reaches` says that the fetches of `Gusher.Cache.Node` are
made of such events.  A mutex that is locked is held by the thread itself, so that `scm_lock_mutex`
raises an exception; what another thread holds would be waited for, and is not modelled here.

A node that is made by `make-doc` with ingredients is added to the ascendants of these, one after
the other.  The loop stops with an exception at an ingredient whose mutex is locked, as it is for
ever when a recipe has raised; then the new node is above some of its ingredients only
(`exactGraph_iff`).
-/

namespace Gusher

open Run

/-- What the thread does to the cache. -/
inductive CacheEvent where
  | make (ingredients : Ingredients) (recipe : Scm)
  | touch (doc : ℕ) (args : List Scm)
  /-- `fetch_node` of a dirty node, up to the computation of the payload -/
  | enter (doc : ℕ)
  /-- the end of `fetch_node` -/
  | leave (doc : ℕ) (payload : Scm) (loaded : Option ℕ)
  /-- an exception leaves `fetch_node` -/
  | raise (doc : ℕ)

/-- The ingredients of the node that is made. -/
def CacheEvent.ingredients : CacheEvent → List ℕ
  | .make (.docs docs) _ => docs
  | _ => []

def cacheEvent (loc : Locale) (s : Cache) : CacheEvent → Option Cache
  | .make (.docs docs) recipe =>
      if ∀ doc ∈ docs, doc < s.count then some (makeDoc loc s (.docs docs) recipe).2 else none
  | .make (.symbol name) recipe => some (makeDoc loc s (.symbol name) recipe).2
  | .touch doc args => if doc < s.count then (touchNode loc s doc args).map Prod.snd else none
  | .enter doc =>
      if doc < s.count ∧ (s.node doc).locked = false ∧ (s.node doc).dirty = true then
        some (s.regenerate doc)
      else none
  | .leave doc payload loaded =>
      if (s.node doc).locked then
        some (s.modify doc (fun node =>
          { node with payload := payload, locked := false, loaded := loaded }))
      else none
  | .raise doc => some { s with abandoned := doc :: s.abandoned }

/-- The node `j` has been made by a call of `make-doc` that listed the node `i` as an
ingredient. -/
def MadeFrom (loc : Locale) : Cache → List CacheEvent → ℕ → ℕ → Prop
  | _, [], _, _ => False
  | s, e :: es, j, i =>
      (j = s.count ∧ i ∈ e.ingredients) ∨ ∃ t, cacheEvent loc s e = some t ∧ MadeFrom loc t es j i

namespace Cache

/-- The condition on the events: when a node is made, the mutexes of its ingredients are free. -/
def IngredientsFree (s : Cache) (e : CacheEvent) : Prop :=
  ∀ doc ∈ e.ingredients, (s.node doc).locked = false

/-- There is an edge from a node to each of its ascendants. -/
def Edge (s : Cache) : ℕ → ℕ → Prop :=
  Mark.Edge (fun i => (s.node i).ascendants)

/-- What the graph should be like: the ascendants of a node are listed once, they are the nodes
that listed it as an ingredient, there is no cycle, and the invalidation of a node comes to an end
and changes nothing but the flags of the node and of those above it. -/
structure ExactGraph (s : Cache) (listed : ℕ → ℕ → Prop) : Prop where
  nodup : ∀ i, (s.node i).ascendants.Nodup
  ascendants : ∀ i j, j ∈ (s.node i).ascendants ↔ listed j i
  acyclic : ∀ i, ¬ Relation.TransGen s.Edge i i
  invalidate : ∀ doc < s.count, ∃ d, s.invalidate doc = some (s.setDirty d) ∧ s.Dirtied doc d

/-- The ascendants are newer nodes, each of them listed once. -/
structure Stacked (s : Cache) : Prop where
  layered : s.Layered
  nodup : ∀ i, (s.node i).ascendants.Nodup

/-- What an event does to the graph: the new node becomes an ascendant of the nodes `done`. -/
structure Linked (s : Cache) (e : CacheEvent) (done : List ℕ) (t : Cache) : Prop where
  count : s.count ≤ t.count
  fresh : e.ingredients ≠ [] → s.count < t.count
  free : ∀ i ∈ done, i ∈ e.ingredients ∧ i < s.count ∧ (s.node i).locked = false
  all : s.IngredientsFree e → done = e.ingredients
  ascendants : ∀ i, (t.node i).ascendants
    = if i ∈ done then s.count :: (s.node i).ascendants else (s.node i).ascendants

variable {s t : Cache} {e : CacheEvent} {done : List ℕ}

/-! ### The events -/

/-- An event that leaves the graph as it is. -/
theorem Frozen.linked (h : s.Frozen t) (he : e.ingredients = []) :
  s.Linked e [] t
  where
  count := h.count.ge
  fresh := fun hne => absurd he hne
  free := by simp
  all := fun _ => he.symm
  ascendants := by
    intro i
    rw [h.ascendants, if_neg List.not_mem_nil]

theorem Layered.ascendants_count (hs : s.Layered) :
  (s.node s.count).ascendants = []
  := by
  rw [List.eq_nil_iff_forall_not_mem]
  intro j hj
  obtain ⟨hlt, hcount⟩ := hs _ j hj
  omega

/-- A new node without ingredients. -/
theorem Layered.linked_addNode (hs : s.Layered) {node : MakeNode} (hnode : node.ascendants = [])
    (he : e.ingredients = []) {t : Cache} (hcount : t.count = s.count + 1)
    (ht : t.node = (s.addNode node).node) :
  s.Linked e [] t
  where
  count := by omega
  fresh := fun hne => absurd he hne
  free := by simp
  all := fun _ => he.symm
  ascendants := by
    intro i
    rw [ht, addNode_node, if_neg List.not_mem_nil]
    split
    case isTrue hi => rw [hi, hnode, hs.ascendants_count]
    case isFalse => rfl

/-- The loop over the ingredients reaches those with a free mutex only. -/
theorem addAscendants_unlocked (s : Cache) (self : ℕ) (docs : List ℕ) :
  ∃ done, (addAscendants s self docs).2 = s.withAscendant self done
    ∧ (∀ doc ∈ done, doc ∈ docs ∧ (s.node doc).locked = false)
    ∧ ((∀ doc ∈ docs, (s.node doc).locked = false) → done = docs)
  := by
  induction docs generalizing s with
  | nil => exact ⟨[], by simp [addAscendants, Cache.withAscendant], by simp, by simp⟩
  | cons doc docs ih =>
      cases hlocked : (s.node doc).locked with
      | true =>
          refine ⟨[], ?_, by simp, ?_⟩
          · rw [addAscendants, addAscendant, Cache.lockMutex, hlocked]
            simp [Cache.withAscendant]
          · intro hfree
            rw [hfree doc List.mem_cons_self] at hlocked
            cases hlocked
      | false =>
          obtain ⟨done, hs, hdone, hall⟩ := ih (s.withAscendant self [doc])
          refine ⟨doc :: done, ?_, ?_, ?_⟩
          · rw [addAscendants, addAscendant_unlocked self hlocked]
            exact hs.trans (Cache.withAscendant_withAscendant s self doc done)
          · intro d hd
            rcases List.mem_cons.mp hd with rfl | hd
            · exact ⟨List.mem_cons_self, hlocked⟩
            · obtain ⟨hmem, hfree⟩ := hdone d hd
              exact ⟨List.mem_cons_of_mem _ hmem, hfree⟩
          · intro hfree
            rw [hall (fun d hd => hfree d (List.mem_cons_of_mem _ hd))]

/-- A new node with ingredients. -/
theorem Layered.linked_makeDoc (hs : s.Layered) (loc : Locale) {docs : List ℕ} (recipe : Scm)
    (hdocs : ∀ doc ∈ docs, doc < s.count) :
  ∃ done, s.Linked (.make (.docs docs) recipe) done (makeDoc loc s (.docs docs) recipe).2
  := by
  obtain ⟨done, hmade, hdone, hall⟩ := addAscendants_unlocked
    (s.addNode { makeNode .chain true with callback := recipe }) s.count docs
  have hold : ∀ doc ∈ docs, (s.addNode { makeNode .chain true with callback := recipe }).node doc
      = s.node doc := by
    intro doc hdoc
    rw [addNode_node, if_neg (Nat.ne_of_lt (hdocs doc hdoc))]
  use done
  rw [makeDoc, hmade]
  constructor
  case count => exact Nat.le_succ s.count
  case fresh => exact fun _ => Nat.lt_succ_self s.count
  case free =>
      intro i hi
      obtain ⟨hmem, hfree⟩ := hdone i hi
      rw [hold i hmem] at hfree
      exact ⟨hmem, hdocs i hmem, hfree⟩
  case all =>
      intro hfree
      apply hall
      intro doc hdoc
      rw [hold doc hdoc]
      exact hfree doc hdoc
  case ascendants =>
      intro i
      rw [withAscendant_node, addNode_node]
      by_cases hi : i = s.count
      · have hnot : s.count ∉ done := fun h => Nat.lt_irrefl _ (hdocs _ (hdone _ h).1)
        subst hi
        simp [hnot, hs.ascendants_count, makeNode]
      · have hself : s.count ∉ (s.node i).ascendants :=
          fun h => Nat.lt_irrefl _ (hs i _ h).2
        simp [hi, hself]

/-- What an event does to the graph. -/
theorem Layered.linked_cacheEvent {loc : Locale} (hs : s.Layered)
    (h : cacheEvent loc s e = some t) :
  ∃ done, s.Linked e done t
  := by
  cases e with
  | make ingredients recipe =>
      cases ingredients with
      | docs docs =>
          rw [cacheEvent] at h
          split at h
          case isFalse => cases h
          case isTrue hdocs =>
              cases h
              exact hs.linked_makeDoc loc recipe hdocs
      | symbol name =>
          obtain rfl := Option.some.inj h
          use []
          have hmade := makeDoc_cases loc s (.symbol name) recipe
          generalize (makeDoc loc s (.symbol name) recipe).2 = t at hmade
          cases hmade with
          | datum => exact hs.linked_addNode rfl rfl rfl rfl
          | file => exact hs.linked_addNode rfl rfl rfl rfl
          | noPath => exact (Frozen.refl s).linked rfl
  | touch doc args =>
      rw [cacheEvent] at h
      split at h
      case isFalse => cases h
      case isTrue hdoc =>
          obtain ⟨⟨o, u⟩, htouch, rfl⟩ := Option.map_eq_some_iff.mp h
          exact ⟨[], (touched_of_eq hs hdoc htouch).frozen.linked rfl⟩
  | enter doc =>
      rw [cacheEvent] at h
      split at h
      case isFalse => cases h
      case isTrue =>
          cases h
          exact ⟨[], (Frozen.regenerate s doc).linked rfl⟩
  | leave doc payload loaded =>
      rw [cacheEvent] at h
      split at h
      case isFalse => cases h
      case isTrue =>
          cases h
          exact ⟨[], (Frozen.modify s doc rfl rfl rfl).linked rfl⟩
  | raise doc =>
      cases h
      exact ⟨[], Frozen.linked ⟨rfl, rfl, rfl, rfl, fun _ => rfl, fun _ => rfl, fun _ => rfl⟩ rfl⟩

theorem Linked.mem_ascendants (h : s.Linked e done t) (i j : ℕ) :
  j ∈ (t.node i).ascendants ↔ j ∈ (s.node i).ascendants ∨ (j = s.count ∧ i ∈ done)
  := by
  rw [h.ascendants]
  split
  case isTrue hi => simp [hi, or_comm]
  case isFalse hi => simp [hi]

/-- An event keeps the ascendants newer, and listed once. -/
theorem Linked.stacked (h : s.Linked e done t) (hs : s.Stacked) :
  t.Stacked
  where
  layered := by
    intro i j hj
    rcases (h.mem_ascendants i j).mp hj with hj | ⟨rfl, hi⟩
    · obtain ⟨hlt, hcount⟩ := hs.layered i j hj
      exact ⟨hlt, Nat.lt_of_lt_of_le hcount h.count⟩
    · obtain ⟨hmem, hlt, -⟩ := h.free i hi
      exact ⟨hlt, h.fresh (List.ne_nil_of_mem hmem)⟩
  nodup := by
    intro i
    rw [h.ascendants]
    split
    case isTrue =>
        apply List.Nodup.cons _ (hs.nodup i)
        exact fun hmem => Nat.lt_irrefl _ (hs.layered i _ hmem).2
    case isFalse => exact hs.nodup i

theorem stacked_startCache (files : List UInt8 → Option File) (newest : ℕ) :
  (startCache files newest).Stacked
  := ⟨(formed_startCache files newest).layered, fun _ => List.nodup_nil⟩

/-! ### Runs -/

variable {loc : Locale} {es : List CacheEvent}

/-- Every cache that is reached is stacked. -/
theorem Stacked.of_run (hs : s.Stacked) (h : run (cacheEvent loc) s es = some t) :
  t.Stacked
  := by
  apply run_invariant _ hs h
  intro s e t hs he
  obtain ⟨done, hlinked⟩ := hs.layered.linked_cacheEvent he
  exact hlinked.stacked hs

/-- No event makes an old node an ascendant. -/
theorem Stacked.ascendants_of_run (hs : s.Stacked) (h : run (cacheEvent loc) s es = some t)
    (i : ℕ) {j : ℕ} (hj : j < s.count) :
  j ∈ (t.node i).ascendants ↔ j ∈ (s.node i).ascendants
  := by
  induction es generalizing s with
  | nil =>
      obtain rfl := Option.some.inj h
      rfl
  | cons e es ih =>
      obtain ⟨u, he, hrun⟩ := run_cons.mp h
      obtain ⟨done, hlinked⟩ := hs.layered.linked_cacheEvent he
      rw [ih (hlinked.stacked hs) hrun (Nat.lt_of_lt_of_le hj hlinked.count),
        hlinked.mem_ascendants, or_iff_left]
      rintro ⟨rfl, -⟩
      exact Nat.lt_irrefl _ hj

/-- In a run, the nodes that listed a node as an ingredient become its ascendants exactly when the
mutexes of the ingredients are free whenever a node is made. -/
theorem Stacked.ascendants_iff (hs : s.Stacked) (h : run (cacheEvent loc) s es = some t) :
  (∀ i j, j ∈ (t.node i).ascendants ↔ j ∈ (s.node i).ascendants ∨ MadeFrom loc s es j i)
    ↔ Meets (cacheEvent loc) IngredientsFree s es
  := by
  induction es generalizing s with
  | nil =>
      obtain rfl := Option.some.inj h
      simp [MadeFrom, Meets]
  | cons e es ih =>
      obtain ⟨u, he, hrun⟩ := run_cons.mp h
      obtain ⟨done, hlinked⟩ := hs.layered.linked_cacheEvent he
      have hu := hlinked.stacked hs
      have hlisted : ∀ i j, MadeFrom loc s (e :: es) j i
          ↔ (j = s.count ∧ i ∈ e.ingredients) ∨ MadeFrom loc u es j i := by
        intro i j
        simp [MadeFrom, he]
      constructor
      · intro hexact
        have hfree : s.IngredientsFree e := by
          intro doc hdoc
          have hmem := (hexact doc s.count).mpr (Or.inr (Or.inl ⟨rfl, hdoc⟩))
          rw [hu.ascendants_of_run hrun doc (hlinked.fresh (List.ne_nil_of_mem hdoc)),
            hlinked.mem_ascendants] at hmem
          rcases hmem with hmem | ⟨-, hdone⟩
          · exact absurd (hs.layered doc _ hmem).2 (Nat.lt_irrefl _)
          · exact (hlinked.free doc hdone).2.2
        refine ⟨hfree, ?_⟩
        intro v hv
        rw [he] at hv
        obtain rfl := Option.some.inj hv
        apply (ih hu hrun).mp
        intro i j
        rw [hexact, hlisted, hlinked.mem_ascendants, hlinked.all hfree, or_assoc]
      · rintro ⟨hfree, hmeets⟩ i j
        rw [(ih hu hrun).mpr (hmeets u he), hlisted, hlinked.mem_ascendants, hlinked.all hfree,
          or_assoc]

/-- A path along the edges leads to a newer node. -/
theorem Layered.lt_of_transGen (hs : s.Layered) {i j : ℕ} (h : Relation.TransGen s.Edge i j) :
  i < j
  := by
  induction h with
  | single hij => exact (hs i _ hij).1
  | tail _ hjk ih => exact Nat.lt_trans ih (hs _ _ hjk).1

end Cache

section Runs

variable {loc : Locale} {files : List UInt8 → Option File} {newest : ℕ} {s : Cache}
  {es : List CacheEvent}

/-- In every run, the graph is what it should be exactly when the mutexes of the ingredients are
free whenever a node is made. -/
theorem exactGraph_iff (h : run (cacheEvent loc) (startCache files newest) es = some s) :
  s.ExactGraph (MadeFrom loc (startCache files newest) es)
    ↔ Meets (cacheEvent loc) Cache.IngredientsFree (startCache files newest) es
  := by
  have hstart := Cache.stacked_startCache files newest
  have hs := hstart.of_run h
  have hnone : ∀ i j, j ∉ ((startCache files newest).node i).ascendants :=
    fun _ _ => List.not_mem_nil
  rw [← hstart.ascendants_iff h]
  constructor
  · intro hexact i j
    rw [hexact.ascendants, or_iff_right (hnone i j)]
  · intro hexact
    constructor
    case nodup => exact hs.nodup
    case ascendants =>
        intro i j
        rw [hexact, or_iff_right (hnone i j)]
    case acyclic =>
        intro i hcycle
        exact Nat.lt_irrefl i (hs.layered.lt_of_transGen hcycle)
    case invalidate => exact fun doc hdoc => Cache.invalidate_spec hs.layered hdoc

/-! ### Fetches -/

variable {apply : Scm → List Scm → Recipe}

/-- A fetch is made of events. -/
theorem fetchNode_reaches {fuel : ℕ} {s s' : Cache} (hs : s.Layered) {doc : ℕ}
    (hdoc : doc < s.count) {args : List Scm} {o : Outcome}
    (h : fetchNode loc apply fuel s doc args = some (o, s')) :
  Reaches (cacheEvent loc) s s'
  := by
  induction fuel generalizing s s' doc args o with
  | zero => cases h
  | succ fuel ih =>
      have henter : (s.node doc).locked = false → (s.node doc).dirty = true →
          cacheEvent loc s (.enter doc) = some (s.regenerate doc) := by
        intro hlocked hdirty
        rw [cacheEvent, if_pos ⟨hdoc, hlocked, hdirty⟩]
      have hleave : ∀ t : Cache, (t.node doc).locked = true → ∀ payload loaded,
          cacheEvent loc t (.leave doc payload loaded) = some (t.modify doc (fun node =>
            { node with payload := payload, locked := false, loaded := loaded })) := by
        intro t ht payload loaded
        rw [cacheEvent, if_pos ht]
      have hlock : ((s.regenerate doc).node doc).locked = true := by
        rw [Cache.regenerate, Cache.modify_node, if_pos rfl]
      have hrecipe : ∀ {recipe : Recipe} {t t' : Cache} {o : Outcome},
          runRecipe loc (fetchNode loc apply fuel) t recipe = some (o, t') → t.Layered →
          Reaches (cacheEvent loc) t t' := by
        intro recipe t t' o hrun ht
        apply (runRecipe_rel (R := fun t t' => t.Layered →
          Reaches (cacheEvent loc) t t' ∧ t'.Layered) _ _ _ _ hrun ht).1
        · exact fun t ht => ⟨.refl t, ht⟩
        · intro t₁ t₂ t₃ h₁ h₂ ht
          obtain ⟨hreach₁, hlayered₁⟩ := h₁ ht
          obtain ⟨hreach₂, hlayered₂⟩ := h₂ hlayered₁
          exact ⟨hreach₁.trans hreach₂, hlayered₂⟩
        · intro t t' d args o hd hfetch ht
          exact ⟨ih ht hd hfetch, (fetchNode_frozen ht hd hfetch).layered ht⟩
        · intro t t' d args o hd htouch ht
          refine ⟨.single (l := .touch d args) ?_, (touched_of_eq ht hd htouch).frozen.layered ht⟩
          rw [cacheEvent, if_pos hd, htouch, Option.map_some]
      have hlayered : (s.regenerate doc).Layered := (Cache.Frozen.regenerate s doc).layered hs
      cases fetchNode_cases h with
      | locked => exact .refl s
      | clean => exact .refl s
      | datum hlocked hdirty =>
          have hreach := (Reaches.single (henter hlocked hdirty)).tail
            (hleave _ hlock (s.node doc).payload (s.node doc).loaded)
          rw [Cache.regenerate, Cache.modify_modify, Cache.modify_congr
            (g := fun node => { node with dirty := false }) (by simp [← hlocked])] at hreach
          exact hreach
      | file path hlocked hdirty =>
          have hreach := (Reaches.single (henter hlocked hdirty)).tail
            (hleave _ hlock (filePayload loc s path) ((s.files path).map File.mtime))
          rw [Cache.regenerate, Cache.modify_modify, Cache.modify_congr
            (g := fun node =>
              { node with
                payload := filePayload loc s path,
                dirty := false,
                loaded := (s.files path).map File.mtime }) (by simp [← hlocked])] at hreach
          exact hreach
      | done payload s₁ hlocked hdirty _ hrun =>
          have hheld := runRecipe_held (fun hs hd h => fetchNode_held hs hd h) hlayered hrun
          have hreach := ((Reaches.single (henter hlocked hdirty)).trans (hrecipe hrun hlayered)).tail
            (hleave s₁ (hheld.locked doc hlock) payload (s₁.node doc).loaded)
          rw [Cache.modify_congr (g := fun node => { node with payload := payload, locked := false })
            rfl] at hreach
          exact hreach
      | raised e s₁ hlocked hdirty _ hrun =>
          exact ((Reaches.single (henter hlocked hdirty)).trans (hrecipe hrun hlayered)).tail
            (l := .raise doc) rfl

/-- What `fetch-doc` does is made of events. -/
theorem fetchDoc_reaches {s' : Cache} (hs : s.Layered) {doc : ℕ} (hdoc : doc < s.count)
    {args : List Scm} {o : Outcome} (h : fetchDoc loc apply s doc args = some (o, s')) :
  Reaches (cacheEvent loc) s s'
  := fetchNode_reaches hs hdoc h

end Runs

/-- A node that lists an ingredient twice, and a node above it. -/
theorem exactGraph_iff_shared :
  ∃ s, run (cacheEvent latin1) (startCache (fun _ => none) 0)
        [.make (.symbol "data".toList) (.bool true), .make (.docs [0, 0]) (.bool true),
          .make (.docs [1, 0]) (.bool true)] = some s
    ∧ s.ExactGraph (MadeFrom latin1 (startCache (fun _ => none) 0)
        [.make (.symbol "data".toList) (.bool true), .make (.docs [0, 0]) (.bool true),
          .make (.docs [1, 0]) (.bool true)])
  := by
  refine ⟨_, rfl, (exactGraph_iff rfl).mpr ?_⟩
  refine ⟨by simp [Cache.IngredientsFree, CacheEvent.ingredients], fun s₁ h₁ => ⟨?_, fun s₂ h₂ =>
    ⟨?_, fun _ _ => trivial⟩⟩⟩
  · obtain rfl := Option.some.inj h₁
    intro doc hdoc
    revert doc
    decide
  · obtain rfl := Option.some.inj h₁
    obtain rfl := Option.some.inj h₂
    intro doc hdoc
    revert doc
    decide

/-- The recipe of the second node raises.  A node that lists both nodes is then above the first one
only. -/
theorem raised_ingredient_unlinked :
  ∃ s, run (cacheEvent latin1) (startCache (fun _ => none) 0)
        [.make (.symbol "data".toList) (.bool true), .make (.docs []) (.bool true),
          .enter 1, .raise 1, .make (.docs [0, 1]) (.bool true)] = some s
    ∧ (s.node 0).ascendants = [2]
    ∧ (s.node 1).ascendants = []
    ∧ ¬ s.ExactGraph (MadeFrom latin1 (startCache (fun _ => none) 0)
        [.make (.symbol "data".toList) (.bool true), .make (.docs []) (.bool true),
          .enter 1, .raise 1, .make (.docs [0, 1]) (.bool true)])
  := by
  refine ⟨_, rfl, rfl, rfl, ?_⟩
  intro hexact
  have hmem := (hexact.ascendants 1 2).mpr (Or.inr ⟨_, rfl, Or.inr ⟨_, rfl, Or.inr ⟨_, rfl,
    Or.inr ⟨_, rfl, Or.inl ⟨rfl, by decide⟩⟩⟩⟩⟩)
  revert hmem
  decide

end Gusher
