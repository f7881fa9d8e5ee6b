import Gusher.Cache.Graph

/-!
# Collecting nodes

The collector finalises nodes that the application cannot reach any more: `free_node` frees the path
of the node.  The list `file_nodes` is not scanned by the collector, and keeps no node alive; nor
does `free_node` take the node off the list.  So a file document that the application has dropped
stays on the list after it has been finalised (`finalised_node_listed`).  As long as the application
keeps the documents of all files within its reach, the list leads to no finalised node
(`listed_nodes_live`).
-/

namespace Gusher

open Run

/-- The cache, the nodes that the application refers to, and the nodes that have been finalised. -/
structure Heap where
  cache : Cache
  roots : List ℕ
  finalised : List ℕ

/-- What happens to the heap. -/
inductive HeapAction where
  /-- a call of a function of the cache, or a change of the files -/
  | call (action : CacheAction)
  /-- the application takes one more reference to a node -/
  | hold (doc : ℕ)
  /-- the application drops a reference to a node -/
  | drop (doc : ℕ)
  /-- a garbage collection that finalises some nodes -/
  | collect (docs : List ℕ)

def freeNode (s : Cache) (doc : ℕ) : Cache :=
  s.modify doc (fun node => { node with filepath := none })

namespace Heap

/-- The references of the application after a call: it gets the node that is made. -/
def rootsAfter (loc : Locale) (h : Heap) : CacheAction → List ℕ
  | .make ingredients recipe =>
      match (makeDoc loc h.cache ingredients recipe).1 with
      | .ok (.other doc) => doc :: h.roots
      | _ => h.roots
  | _ => h.roots

/-- One action. -/
def step (loc : Locale) (apply : Scm → List Scm → Recipe) (h : Heap) : HeapAction → Option Heap
  | .call action =>
      (cacheStep loc apply h.cache action).map (fun s =>
        { h with cache := s, roots := h.rootsAfter loc action })
  | .hold doc => some { h with roots := doc :: h.roots }
  | .drop doc => some { h with roots := h.roots.erase doc }
  | .collect docs =>
      if ∀ doc ∈ docs, doc < h.cache.count then
        some { h with cache := docs.foldl freeNode h.cache, finalised := docs ++ h.finalised }
      else none

/-- The heap of a process that starts. -/
def start (files : List UInt8 → Option File) (newest : ℕ) : Heap where
  cache := startCache files newest
  roots := []
  finalised := []

/-- Every node that the list `file_nodes` leads to is live: no path of a finalised node is read by
`police_cache`, and no flag of a finalised node is set by the invalidation of a file document. -/
def Live (h : Heap) : Prop :=
  ∀ entry ∈ h.cache.fileNodes, ∀ doc, h.cache.Above entry.node doc → doc ∉ h.finalised

/-- A collection finalises no document of a file, and no document above one. -/
def KeepsFiles (h : Heap) : HeapAction → Prop
  | .collect docs => ∀ entry ∈ h.cache.fileNodes, ∀ doc, h.cache.Above entry.node doc → doc ∉ docs
  | _ => True

/-! ### What the collector follows -/

section

/- The nodes that an object refers to. -/
variable (refs : Scm → ℕ → Prop)

/-- `mark_node`: what is marked with a node. -/
def Marks (h : Heap) (i j : ℕ) : Prop :=
  refs (h.cache.node i).callback j ∨ refs (h.cache.node i).payload j
    ∨ j ∈ (h.cache.node i).ascendants

/-- The application can reach a node. -/
def Reachable (h : Heap) (doc : ℕ) : Prop :=
  ∃ root ∈ h.roots, Relation.ReflTransGen (h.Marks refs) root doc

/-- What an application and a collector can do: the documents of a call are held by the application,
and only nodes that cannot be reached, and have not been finalised, are finalised. -/
def Legal (h : Heap) : HeapAction → Prop
  | .call (.touch doc _) => h.Reachable refs doc
  | .call (.fetch doc _) => h.Reachable refs doc
  | .call (.make (.docs docs) _) => ∀ doc ∈ docs, h.Reachable refs doc
  | .hold doc => h.Reachable refs doc
  | .collect docs => docs.Nodup ∧ ∀ doc ∈ docs, ¬ h.Reachable refs doc ∧ doc ∉ h.finalised
  | _ => True

/-- The condition on the steps: the documents of all files can be reached when there is a
collection. -/
def HoldsFiles (h : Heap) : HeapAction → Prop
  | .collect _ => ∀ entry ∈ h.cache.fileNodes, h.Reachable refs entry.node
  | _ => True

variable {refs} {h : Heap}

theorem Reachable.above {i j : ℕ} (hi : h.Reachable refs i) (hij : h.cache.Above i j) :
  h.Reachable refs j
  := by
  obtain ⟨root, hroot, hpath⟩ := hi
  refine ⟨root, hroot, hpath.trans ?_⟩
  exact Relation.ReflTransGen.mono (fun _ _ hedge => Or.inr (Or.inr hedge)) _ _ hij

/-- A collection that is legal finalises no document of a file, and no document above one, when the
documents of the files can be reached. -/
theorem keepsFiles_of_holdsFiles {action : HeapAction} (hlegal : h.Legal refs action)
    (hholds : h.HoldsFiles refs action) :
  h.KeepsFiles action
  := by
  cases action with
  | collect docs =>
      intro entry hentry doc habove hdoc
      exact (hlegal.2 doc hdoc).1 ((hholds entry hentry).above habove)
  | _ => trivial

end

/-! ### Steps -/

/-- The invariant: only nodes that have been made are finalised, and the list leads to live nodes
only. -/
structure Kept (h : Heap) : Prop where
  formed : h.cache.Formed
  finalised : ∀ doc ∈ h.finalised, doc < h.cache.count
  live : h.Live

/-- After a call, the list leads to what it led to before, and to a new node. -/
structure Extends (s t : Cache) : Prop where
  count : s.count ≤ t.count
  above : ∀ i j, t.Above i j → s.Above i j ∨ j = s.count
  entries : ∀ entry ∈ t.fileNodes,
    entry.node = s.count ∨ ∃ old ∈ s.fileNodes, old.node = entry.node

end Heap

variable {s t : Cache}

theorem Cache.Layered.eq_of_above_count (hs : s.Layered) {j : ℕ} (h : s.Above s.count j) :
  j = s.count
  := by
  rcases Mark.path_iff.mp h with heq | ⟨i, hi, -⟩
  · exact heq
  · rw [hs.ascendants_count] at hi
    cases hi

/-- What is above a node after a new node has been linked. -/
theorem Cache.Linked.above {e : CacheEvent} {done : List ℕ} (h : s.Linked e done t)
    (hs : s.Layered) {i j : ℕ} (hij : t.Above i j) :
  s.Above i j ∨ j = s.count
  := by
  induction hij with
  | refl => exact Or.inl .refl
  | tail _ hedge ih =>
      rcases (h.mem_ascendants _ _).mp hedge with hmem | ⟨rfl, -⟩
      · rcases ih with habove | rfl
        · exact Or.inl (habove.tail hmem)
        · rw [hs.ascendants_count] at hmem
          cases hmem
      · exact Or.inr rfl

/-- The list of the files after a document has been made. -/
theorem Made.entries {loc : Locale} {ingredients : Ingredients} {recipe : Scm}
    (h : Made loc s ingredients recipe t) :
  ∀ entry ∈ t.fileNodes, entry.node = s.count ∨ ∃ old ∈ s.fileNodes, old.node = entry.node
  := by
  have hsame : ∀ entry ∈ s.fileNodes,
      entry.node = s.count ∨ ∃ old ∈ s.fileNodes, old.node = entry.node :=
    fun entry hentry => Or.inr ⟨entry, hentry, rfl⟩
  cases h with
  | file =>
      intro entry hentry
      rcases List.mem_cons.mp hentry with rfl | hentry
      · exact Or.inl rfl
      · exact hsame entry hentry
  | _ => exact hsame

/-- What leaves the graph and the list as they are. -/
theorem Cache.Frozen.extends (h : s.Frozen t) :
  Heap.Extends s t
  where
  count := h.count.ge
  above := by
    rw [h.above]
    exact fun _ _ => Or.inl
  entries := by
    rw [h.fileNodes]
    exact fun entry hentry => Or.inr ⟨entry, hentry, rfl⟩

namespace Heap

variable {loc : Locale} {apply : Scm → List Scm → Recipe}

/-- A call makes the list lead to nothing that is old. -/
theorem extends_of_cacheStep {action : CacheAction} (hs : s.Formed)
    (h : cacheStep loc apply s action = some t) :
  Extends s t
  := by
  cases cacheStep_cases hs h with
  | make ingredients recipe _ hdocs hmade =>
      obtain ⟨done, hlinked⟩ : ∃ done, s.Linked (.make ingredients recipe) done t := by
        apply hs.layered.linked_cacheEvent
        cases ingredients with
        | symbol name => exact h
        | docs docs => exact h
      exact ⟨hlinked.count, fun _ _ => hlinked.above hs.layered, hmade.entries⟩
  | touch doc args o _ hdoc htouched => exact htouched.frozen.extends
  | fetch doc args o _ hdoc hfetch => exact (fetchNode_frozen hs.layered hdoc hfetch).extends
  | write => exact ⟨Nat.le_refl _, fun _ _ => Or.inl, fun entry hentry => Or.inr ⟨entry, hentry, rfl⟩⟩
  | delete => exact ⟨Nat.le_refl _, fun _ _ => Or.inl, fun entry hentry => Or.inr ⟨entry, hentry, rfl⟩⟩
  | police =>
      refine ⟨Nat.le_refl _, fun _ _ => Or.inl, ?_⟩
      intro entry' hentry'
      obtain ⟨entry, hentry, rfl⟩ := List.mem_map.mp hentry'
      exact Or.inr ⟨entry, hentry, (Cache.poll_node s entry).symm⟩

theorem frozen_freeNodes (s : Cache) (docs : List ℕ) :
  s.Frozen (docs.foldl freeNode s)
  := by
  induction docs generalizing s with
  | nil => exact .refl s
  | cons doc docs ih => exact (Cache.Frozen.modify s doc rfl rfl rfl).trans (ih _)

variable {h h' : Heap}

/-- A step that finalises nothing that the list leads to keeps the invariant. -/
theorem Kept.step {action : HeapAction} (hkept : h.Kept) (hok : h.KeepsFiles action)
    (hstep : h.step loc apply action = some h') :
  h'.Kept
  := by
  cases action with
  | call action =>
      obtain ⟨t, ht, rfl⟩ := Option.map_eq_some_iff.mp hstep
      have hextends := extends_of_cacheStep hkept.formed ht
      -- a node that is new has not been finalised
      have hnew : h.cache.count ∉ h.finalised :=
        fun hmem => Nat.lt_irrefl _ (hkept.finalised _ hmem)
      constructor
      case formed => exact (cacheStep_cases hkept.formed ht).formed hkept.formed
      case finalised =>
          exact fun doc hdoc => Nat.lt_of_lt_of_le (hkept.finalised doc hdoc) hextends.count
      case live =>
          intro entry hentry doc habove
          rcases hextends.above _ _ habove with habove | rfl
          · rcases hextends.entries entry hentry with hcount | ⟨old, hold, hnode⟩
            · rw [hcount] at habove
              rw [hkept.formed.layered.eq_of_above_count habove]
              exact hnew
            · rw [← hnode] at habove
              exact hkept.live old hold doc habove
          · exact hnew
  | hold doc =>
      cases hstep
      exact ⟨hkept.formed, hkept.finalised, hkept.live⟩
  | drop doc =>
      cases hstep
      exact ⟨hkept.formed, hkept.finalised, hkept.live⟩
  | collect docs =>
      rw [Heap.step] at hstep
      split at hstep
      case isFalse => cases hstep
      case isTrue hdocs =>
          cases hstep
          have hfrozen := frozen_freeNodes h.cache docs
          constructor
          case formed => exact hfrozen.formed hkept.formed
          case finalised =>
              intro doc hdoc
              rw [hfrozen.count]
              rcases List.mem_append.mp hdoc with hdoc | hdoc
              · exact hdocs doc hdoc
              · exact hkept.finalised doc hdoc
          case live =>
              intro entry hentry doc habove hmem
              rw [hfrozen.fileNodes] at hentry
              rw [hfrozen.above] at habove
              rcases List.mem_append.mp hmem with hmem | hmem
              · exact hok entry hentry doc habove hmem
              · exact hkept.live entry hentry doc habove hmem

theorem Kept.start (files : List UInt8 → Option File) (newest : ℕ) :
  (start files newest).Kept
  where
  formed := formed_startCache files newest
  finalised := fun _ hdoc => absurd hdoc List.not_mem_nil
  live := fun _ hentry => absurd hentry List.not_mem_nil

end Heap

section Runs

variable {loc : Locale} {apply : Scm → List Scm → Recipe} {files : List UInt8 → Option File}
  {newest : ℕ} {actions : List HeapAction} {h : Heap}

/-- In every run in which the documents of all files can be reached at each collection, and only what
cannot be reached is finalised, the list of the files leads to no finalised node. -/
theorem listed_nodes_live {refs : Scm → ℕ → Prop}
    (hrun : run (Heap.step loc apply) (Heap.start files newest) actions = some h)
    (hok : Meets (Heap.step loc apply)
      (fun h action => h.Legal refs action ∧ h.HoldsFiles refs action) (Heap.start files newest)
      actions) :
  h.Live
  := by
  have hkept : h.Kept := run_invariant_of_meets
    (fun _ _ _ hkept hok hstep => hkept.step (Heap.keepsFiles_of_holdsFiles hok.1 hok.2) hstep)
    (.start files newest) hok hrun
  exact hkept.live

end Runs

/-- The document of a file is kept, and a datum is collected. -/
theorem listed_nodes_live_datum :
  ∃ h, run (Heap.step latin1 raises) (Heap.start (fun _ => none) 0)
        [.call (.make (.symbol "file".toList) (.str "f".toList)),
          .call (.make (.symbol "data".toList) (.bool true)), .drop 1, .collect [1],
          .call .police] = some h
    ∧ h.cache.fileNodes = [⟨0, 0⟩] ∧ h.finalised = [1] ∧ h.Live
  := by
  refine ⟨_, rfl, rfl, rfl, ?_⟩
  apply @listed_nodes_live latin1 raises (fun _ => none) 0
    [.call (.make (.symbol "file".toList) (.str "f".toList)),
      .call (.make (.symbol "data".toList) (.bool true)), .drop 1, .collect [1], .call .police] _
    (fun x doc => x = .other doc) rfl
  refine ⟨⟨trivial, trivial⟩, fun s₁ h₁ => ⟨⟨trivial, trivial⟩, fun s₂ h₂ => ⟨⟨trivial, trivial⟩,
    fun s₃ h₃ => ⟨⟨⟨by decide, ?_⟩, ?_⟩, fun s₄ h₄ => ⟨⟨trivial, trivial⟩, fun _ _ => trivial⟩⟩⟩⟩⟩
  all_goals
    obtain rfl := Option.some.inj h₁
    obtain rfl := Option.some.inj h₂
    obtain rfl := Option.some.inj h₃
  · intro doc hdoc
    obtain rfl := List.mem_singleton.mp hdoc
    refine ⟨?_, List.not_mem_nil⟩
    rintro ⟨root, hroot, hpath⟩
    obtain rfl := List.mem_singleton.mp hroot
    -- the document of the file refers to nothing
    rcases Relation.ReflTransGen.cases_head hpath with heq | ⟨j, hmarks, -⟩
    · cases heq
    · rcases hmarks with hcallback | hpayload | hascendant
      · cases hcallback
      · cases hpayload
      · cases hascendant
  · intro entry hentry
    obtain rfl := List.mem_singleton.mp hentry
    exact ⟨0, List.mem_cons_self, .refl⟩

/-- The document of a file is dropped and collected: the list leads to the node, and `police_cache`
reads its path, which has been freed. -/
theorem finalised_node_listed :
  ∃ h, run (Heap.step latin1 raises) (Heap.start (fun _ => none) 0)
        [.call (.make (.symbol "file".toList) (.str "f".toList)), .drop 0, .collect [0]] = some h
    ∧ Meets (Heap.step latin1 raises) (Heap.Legal (fun x doc => x = .other doc))
        (Heap.start (fun _ => none) 0)
        [.call (.make (.symbol "file".toList) (.str "f".toList)), .drop 0, .collect [0]]
    ∧ h.cache.fileNodes = [⟨0, 0⟩] ∧ h.finalised = [0]
    ∧ h.step latin1 raises (.call .police) = none
    ∧ ¬ h.Live
  := by
  refine ⟨_, rfl, ?_, rfl, rfl, rfl, ?_⟩
  · refine ⟨trivial, fun s₁ h₁ => ⟨trivial, fun s₂ h₂ => ⟨?_, fun _ _ => trivial⟩⟩⟩
    obtain rfl := Option.some.inj h₁
    obtain rfl := Option.some.inj h₂
    refine ⟨by decide, ?_⟩
    intro doc _
    refine ⟨?_, List.not_mem_nil⟩
    rintro ⟨root, hroot, -⟩
    cases hroot
  · intro hlive
    exact hlive ⟨0, 0⟩ List.mem_cons_self 0 .refl List.mem_cons_self

end Gusher
