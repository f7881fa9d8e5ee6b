import Gusher.Cache.Steps
import Gusher.Library.Run

/-!
# What making a document and watching the files do

What `make-doc` and `police_cache` do to the cache, and that every cache that is reached is
layered.
-/

namespace Gusher

open Run

/-! ### Making nodes -/

/-- The cache with a new ascendant of some nodes. -/
def Cache.withAscendant (s : Cache) (self : ℕ) (docs : List ℕ) : Cache :=
  { s with
    node := fun i =>
      { s.node i with
        ascendants := if i ∈ docs ∧ self ∉ (s.node i).ascendants
          then self :: (s.node i).ascendants else (s.node i).ascendants } }

theorem Cache.withAscendant_node (s : Cache) (self : ℕ) (docs : List ℕ) (i : ℕ) :
  (s.withAscendant self docs).node i
    = { s.node i with
        ascendants := if i ∈ docs ∧ self ∉ (s.node i).ascendants
          then self :: (s.node i).ascendants else (s.node i).ascendants }
  := rfl

/-- A new ascendant of a node, and then of others. -/
theorem Cache.withAscendant_withAscendant (s : Cache) (self doc : ℕ) (docs : List ℕ) :
  (s.withAscendant self [doc]).withAscendant self docs = s.withAscendant self (doc :: docs)
  := by
  apply with_node_congr
  intro i
  by_cases hmem : self ∈ (s.node i).ascendants
  · simp [withAscendant, hmem]
  · by_cases hi : i = doc
    · simp [withAscendant, hi, hi ▸ hmem]
    · simp [withAscendant, hi]

/-- `add_ascendant` of a node whose mutex is free. -/
theorem addAscendant_unlocked {s : Cache} {doc : ℕ} (self : ℕ)
    (hlocked : (s.node doc).locked = false) :
  addAscendant s doc self = some (s.withAscendant self [doc])
  := by
  have hnode : ((s.modify doc (fun node => { node with locked := true })).node doc)
      = { s.node doc with locked := true } := by
    rw [Cache.modify_node, if_pos rfl]
  rw [addAscendant, Cache.lockMutex, hlocked]
  simp only [Bool.false_eq_true, if_false, Option.map_some, hnode, Cache.unlockMutex,
    Cache.modify_modify, Option.some.injEq]
  split
  case isTrue hmem =>
      rw [Cache.modify_eq_self (by simp [← hlocked])]
      apply Cache.with_node_congr (f := s.node)
      intro i
      rw [if_neg]
      rintro ⟨hi, hnot⟩
      rw [List.mem_singleton.mp hi] at hnot
      exact hnot hmem
  case isFalse hmem =>
      apply Cache.with_node_congr
      intro i
      by_cases hi : i = doc
      · subst hi
        simp [hmem, ← hlocked]
      · simp [hi]

/-- The loop over the ingredients reaches some of them, and all of them when their mutexes are
free. -/
theorem addAscendants_spec (s : Cache) (self : ℕ) (docs : List ℕ) :
  ∃ done, (∀ doc ∈ done, doc ∈ docs)
    ∧ (addAscendants s self docs).2 = s.withAscendant self done
    ∧ ((∀ doc ∈ docs, (s.node doc).locked = false) →
      (addAscendants s self docs).1 = .ok (.other self) ∧ done = docs)
  := by
  induction docs generalizing s with
  | nil =>
      use []
      refine ⟨by simp, ?_, by simp [addAscendants]⟩
      simp [addAscendants, Cache.withAscendant]
  | cons doc docs ih =>
      cases hlocked : (s.node doc).locked with
      | true =>
          use []
          refine ⟨by simp, ?_, ?_⟩
          · rw [addAscendants, addAscendant, Cache.lockMutex, hlocked]
            simp [Cache.withAscendant]
          · intro hfree
            rw [hfree doc List.mem_cons_self] at hlocked
            cases hlocked
      | false =>
          obtain ⟨done, hdone, hs, hall⟩ := ih (s.withAscendant self [doc])
          use doc :: done
          rw [addAscendants, addAscendant_unlocked self hlocked]
          refine ⟨?_, ?_, ?_⟩
          · intro d hd
            rcases List.mem_cons.mp hd with rfl | hd
            · apply List.mem_cons_self
            · exact List.mem_cons_of_mem _ (hdone d hd)
          · rw [hs, Cache.withAscendant_withAscendant]
          · intro hfree
            obtain ⟨ho, hdocs⟩ := hall (fun d hd => hfree d (List.mem_cons_of_mem _ hd))
            exact ⟨ho, by rw [hdocs]⟩

/-- What `make-doc` does. -/
inductive Made (loc : Locale) (s : Cache) : Ingredients → Scm → Cache → Prop where
  | datum (name : Text) (recipe : Scm) (hname : name ≠ "file".toList) :
      Made loc s (.symbol name) recipe
        (s.addNode { makeNode .datum false with payload := recipe })
  | file (recipe : Scm) (path : List UInt8) (hpath : loc.toLocaleString recipe = some path) :
      Made loc s (.symbol "file".toList) recipe
        { s.addNode { makeNode .file true with filepath := some path } with
          fileNodes := ⟨s.count, 0⟩ :: s.fileNodes }
  | noPath (recipe : Scm) (hpath : loc.toLocaleString recipe = none) :
      Made loc s (.symbol "file".toList) recipe s
  | chain (docs : List ℕ) (recipe : Scm) (done : List ℕ) (hdone : ∀ doc ∈ done, doc ∈ docs)
      (hall : (∀ doc ∈ docs, doc < s.count ∧ (s.node doc).locked = false) → done = docs) :
      Made loc s (.docs docs) recipe
        ((s.addNode { makeNode .chain true with callback := recipe }).withAscendant s.count done)

/-- A call of `make-doc` does one of these. -/
theorem makeDoc_cases (loc : Locale) (s : Cache) (ingredients : Ingredients) (recipe : Scm) :
  Made loc s ingredients recipe (makeDoc loc s ingredients recipe).2
  := by
  cases ingredients with
  | symbol name =>
      rw [makeDoc]
      split
      case isTrue hname =>
          subst hname
          cases hpath : loc.toLocaleString recipe with
          | none => exact .noPath recipe hpath
          | some path => exact .file recipe path hpath
      case isFalse hname => exact .datum name recipe hname
  | docs docs =>
      obtain ⟨done, hdone, hs, hall⟩ := addAscendants_spec
        (s.addNode { makeNode .chain true with callback := recipe }) s.count docs
      rw [makeDoc, hs]
      apply Made.chain docs recipe done hdone
      intro hfree
      refine (hall ?_).2
      intro doc hdoc
      rw [Cache.addNode_node, if_neg (Nat.ne_of_lt (hfree doc hdoc).1)]
      apply (hfree doc hdoc).2

/-! ### Watching the files -/

namespace Cache

/-- The file of a node, if it exists. -/
def fileOf (s : Cache) (doc : ℕ) : Option File :=
  (s.node doc).filepath.bind s.files

/-- The entry of the list `file_nodes` after a look at its file. -/
def poll (s : Cache) (entry : FileNode) : FileNode :=
  match s.fileOf entry.node with
  | some file =>
      if entry.mtime = 0 ∨ entry.mtime < file.mtime then { entry with mtime := file.mtime }
      else entry
  | none => entry

theorem poll_node (s : Cache) (entry : FileNode) :
  (s.poll entry).node = entry.node
  := by
  rw [poll]
  split
  · split <;> rfl
  · rfl

/-- The file of an entry is newer than the time that the entry has recorded. -/
def FoundChanged (s : Cache) (entry : FileNode) : Prop :=
  ∃ file, s.fileOf entry.node = some file ∧ entry.mtime ≠ 0 ∧ entry.mtime < file.mtime

/-- The nodes that become dirty when the given entries are looked at. -/
def Polled (s : Cache) (entries : List FileNode) (d : ℕ → Bool) : Prop :=
  ∀ i, d i = true ↔ (s.node i).dirty = true
    ∨ ∃ entry ∈ entries, s.FoundChanged entry ∧ s.Above entry.node i

end Cache

/-- A look at the file of one entry. -/
theorem policeFile_spec {s s' : Cache} (hlayered : s.Layered) {entry entry' : FileNode}
    (hentry : entry.node < s.count) (h : policeFile s entry = some (entry', s')) :
  ∃ d, s' = s.setDirty d ∧ entry' = s.poll entry ∧ s.Polled [entry] d
  := by
  obtain ⟨path, hpath, h⟩ := Option.bind_eq_some_iff.mp h
  have hfile : s.fileOf entry.node = s.files path := by
    rw [Cache.fileOf, hpath, Option.bind_some]
  by_cases hfound : s.FoundChanged entry
  · obtain ⟨d, hd, hdirtied⟩ := Cache.invalidate_spec hlayered hentry
    use d
    obtain ⟨file, heq, hne, hlt⟩ := id hfound
    rw [hfile] at heq
    rw [heq] at h
    simp only [if_neg hne, if_neg (Nat.not_le_of_lt hlt), hd, Option.map_some] at h
    cases h
    refine ⟨rfl, ?_, ?_⟩
    · rw [Cache.poll, hfile, heq]
      simp [hlt]
    · intro i
      rw [hdirtied i]
      simp [hfound]
  · use fun i => (s.node i).dirty
    have hsame : s' = s ∧ entry' = s.poll entry := by
      rw [Cache.poll, hfile]
      cases heq : s.files path with
      | none =>
          rw [heq] at h
          cases h
          exact ⟨rfl, rfl⟩
      | some file =>
          rw [heq] at h
          by_cases hmtime : entry.mtime = 0
          · simp only [if_pos hmtime] at h
            cases h
            exact ⟨rfl, by simp [hmtime]⟩
          · have hle : file.mtime ≤ entry.mtime := by
              apply Nat.le_of_not_lt
              intro hlt
              exact hfound ⟨file, hfile.trans heq, hmtime, hlt⟩
            simp only [if_neg hmtime, if_pos hle] at h
            cases h
            exact ⟨rfl, (if_neg (by omega)).symm⟩
    refine ⟨hsame.1, hsame.2, ?_⟩
    intro i
    simp [hfound]

/-- The loop of `police_cache`. -/
theorem policeFiles_spec {s s' : Cache} (hlayered : s.Layered) {entries entries' : List FileNode}
    (hentries : ∀ entry ∈ entries, entry.node < s.count)
    (h : policeFiles s entries = some (entries', s')) :
  ∃ d, s' = s.setDirty d ∧ entries' = entries.map s.poll ∧ s.Polled entries d
  := by
  induction entries generalizing s s' entries' with
  | nil =>
      cases h
      refine ⟨fun i => (s.node i).dirty, rfl, rfl, ?_⟩
      intro i
      simp
  | cons entry entries ih =>
      rw [policeFiles, Option.bind_eq_bind] at h
      obtain ⟨⟨entry₁, s₁⟩, hfile, h⟩ := Option.bind_eq_some_iff.mp h
      rw [Option.bind_eq_bind] at h
      obtain ⟨⟨entries₁, s₂⟩, hfiles, h⟩ := Option.bind_eq_some_iff.mp h
      cases h
      obtain ⟨d₁, rfl, rfl, hd₁⟩ := policeFile_spec hlayered (hentries _ List.mem_cons_self) hfile
      obtain ⟨d₂, rfl, rfl, hd₂⟩ := ih (s := s.setDirty d₁) hlayered
        (fun e he => hentries e (List.mem_cons_of_mem _ he)) hfiles
      refine ⟨d₂, rfl, rfl, ?_⟩
      intro i
      have h₁ : (s.setDirty d₁).Above = s.Above := rfl
      have h₂ : (s.setDirty d₁).FoundChanged = s.FoundChanged := rfl
      have h₃ : ((s.setDirty d₁).node i).dirty = d₁ i := rfl
      rw [hd₂ i, h₁, h₂, h₃, hd₁ i]
      simp only [List.mem_cons, List.not_mem_nil, or_false, exists_eq_or_imp, exists_eq_left,
        or_assoc]

/-- What `police_cache` does. -/
theorem policeCache_spec {s s' : Cache} (hlayered : s.Layered)
    (hentries : ∀ entry ∈ s.fileNodes, entry.node < s.count) (h : policeCache s = some s') :
  ∃ d, s' = { s.setDirty d with fileNodes := s.fileNodes.map s.poll } ∧ s.Polled s.fileNodes d
  := by
  obtain ⟨⟨entries, s₁⟩, hfiles, rfl⟩ := Option.map_eq_some_iff.mp h
  obtain ⟨d, rfl, rfl, hd⟩ := policeFiles_spec hlayered hentries hfiles
  exact ⟨d, rfl, hd⟩

/-! ### Caches that are reached -/

/-- The graph of the nodes is layered, and the list `file_nodes` has nodes in it. -/
structure Cache.Formed (s : Cache) : Prop where
  layered : s.Layered
  entries : ∀ entry ∈ s.fileNodes, entry.node < s.count

theorem Cache.Frozen.formed {s s' : Cache} (h : s.Frozen s') (hs : s.Formed) :
  s'.Formed
  where
  layered := h.layered hs.layered
  entries := by
    rw [h.fileNodes, h.count]
    apply hs.entries

/-- A new node is above no node. -/
theorem Cache.Layered.addNode {s : Cache} (hs : s.Layered) {node : MakeNode}
    (hnode : node.ascendants = []) :
  (s.addNode node).Layered
  := by
  intro i j hj
  rw [addNode_node] at hj
  split at hj
  case isTrue =>
      rw [hnode] at hj
      cases hj
  case isFalse =>
      obtain ⟨hlt, hcount⟩ := hs i j hj
      exact ⟨hlt, Nat.lt_succ_of_lt hcount⟩

/-- A new node as an ascendant of older ones. -/
theorem Cache.Layered.withAscendant {s : Cache} (hs : s.Layered) {self : ℕ}
    (hself : self < s.count) {docs : List ℕ} (hdocs : ∀ doc ∈ docs, doc < self) :
  (s.withAscendant self docs).Layered
  := by
  intro i j hj
  simp only [Cache.withAscendant] at hj
  split at hj
  case isTrue hi =>
      rcases List.mem_cons.mp hj with rfl | hj
      · exact ⟨hdocs i hi.1, hself⟩
      · exact hs i j hj
  case isFalse => exact hs i j hj

/-- A new node keeps the cache well formed. -/
theorem Made.formed {loc : Locale} {s s' : Cache} {ingredients : Ingredients} {recipe : Scm}
    (h : Made loc s ingredients recipe s') (hs : s.Formed)
    (hdocs : ∀ docs, ingredients = .docs docs → ∀ doc ∈ docs, doc < s.count) :
  s'.Formed
  := by
  have hentries : ∀ entry ∈ s.fileNodes, entry.node < s.count + 1 :=
    fun entry hentry => Nat.lt_succ_of_lt (hs.entries entry hentry)
  cases h with
  | datum => exact ⟨hs.layered.addNode rfl, hentries⟩
  | file =>
      refine ⟨hs.layered.addNode rfl, ?_⟩
      intro entry hentry
      rcases List.mem_cons.mp hentry with rfl | hentry
      · exact Nat.lt_succ_self _
      · exact hentries entry hentry
  | noPath => exact hs
  | chain docs _ done hdone =>
      refine ⟨?_, hentries⟩
      apply (hs.layered.addNode rfl).withAscendant (Nat.lt_succ_self _)
      exact fun doc hdoc => hdocs docs rfl doc (hdone doc hdoc)

/-- What a fetch leaves as it is. -/
theorem fetchNode_frozen {loc : Locale} {apply : Scm → List Scm → Recipe} {fuel : ℕ}
    {s s' : Cache} (hlayered : s.Layered) {doc : ℕ} (hdoc : doc < s.count) {args : List Scm}
    {o : Outcome} (h : fetchNode loc apply fuel s doc args = some (o, s')) :
  s.Frozen s'
  := by
  have hI : FetchInvariant loc Cache.Layered := {
    layered := id
    touch := fun hs htouched => htouched.frozen.layered hs
    datum := fun hs _ _ => (Cache.Frozen.modify _ _ rfl rfl rfl).layered hs
    file := fun hs _ _ _ => (Cache.Frozen.modify _ _ rfl rfl rfl).layered hs
    regenerate := fun hs _ _ _ => (Cache.Frozen.modify _ _ rfl rfl rfl).layered hs
    done := fun hs _ _ => (Cache.Frozen.modify _ _ rfl rfl rfl).layered hs
    raised := fun hs _ _ => hs }
  exact (hI.fetchNode hdoc h hlayered).2

/-- What happens to the cache. -/
inductive CacheStepped (loc : Locale) (apply : Scm → List Scm → Recipe) (s : Cache) :
    CacheAction → Cache → Prop where
  | make (ingredients : Ingredients) (recipe : Scm) (s' : Cache)
      (hdocs : ∀ docs, ingredients = .docs docs → ∀ doc ∈ docs, doc < s.count)
      (hmade : Made loc s ingredients recipe s') :
      CacheStepped loc apply s (.make ingredients recipe) s'
  | touch (doc : ℕ) (args : List Scm) (o : Outcome) (s' : Cache) (hdoc : doc < s.count)
      (htouched : Touched loc s doc args o s') : CacheStepped loc apply s (.touch doc args) s'
  | fetch (doc : ℕ) (args : List Scm) (o : Outcome) (s' : Cache) (hdoc : doc < s.count)
      (hfetch : fetchDoc loc apply s doc args = some (o, s')) :
      CacheStepped loc apply s (.fetch doc args) s'
  | write (path content : List UInt8) (mtime : ℕ) (hnew : s.newest < mtime) :
      CacheStepped loc apply s (.write path content mtime)
        { s with files := Function.update s.files path (some ⟨content, mtime⟩), newest := mtime }
  | delete (path : List UInt8) :
      CacheStepped loc apply s (.delete path)
        { s with files := Function.update s.files path none }
  | police (d : ℕ → Bool) (hd : s.Polled s.fileNodes d) :
      CacheStepped loc apply s .police
        { s.setDirty d with fileNodes := s.fileNodes.map s.poll }

section Procedures

variable {loc : Locale} {apply : Scm → List Scm → Recipe}

/-- One action on a well-formed cache does one of these. -/
theorem cacheStep_cases {s s' : Cache} (hs : s.Formed) {action : CacheAction}
    (h : cacheStep loc apply s action = some s') :
  CacheStepped loc apply s action s'
  := by
  cases action with
  | make ingredients recipe =>
      cases ingredients with
      | symbol name =>
          cases h
          apply CacheStepped.make
          · rintro docs ⟨⟩
          · apply makeDoc_cases
      | docs docs =>
          rw [cacheStep] at h
          split at h
          case isFalse => cases h
          case isTrue hdocs =>
              cases h
              apply CacheStepped.make
              · rintro _ ⟨⟩
                exact hdocs
              · apply makeDoc_cases
  | touch doc args =>
      rw [cacheStep] at h
      split at h
      case isFalse => cases h
      case isTrue hdoc =>
          obtain ⟨⟨o, s₁⟩, htouch, rfl⟩ := Option.map_eq_some_iff.mp h
          exact .touch doc args o s₁ hdoc (touched_of_eq hs.layered hdoc htouch)
  | fetch doc args =>
      rw [cacheStep] at h
      split at h
      case isFalse => cases h
      case isTrue hdoc =>
          obtain ⟨⟨o, s₁⟩, hfetch, rfl⟩ := Option.map_eq_some_iff.mp h
          exact .fetch doc args o s₁ hdoc hfetch
  | write path content mtime =>
      rw [cacheStep] at h
      split at h
      case isFalse => cases h
      case isTrue hnew =>
          cases h
          exact .write path content mtime hnew
  | delete path =>
      cases h
      exact .delete path
  | police =>
      obtain ⟨d, rfl, hd⟩ := policeCache_spec hs.layered hs.entries h
      exact .police d hd

/-- One action keeps the cache well formed. -/
theorem CacheStepped.formed {s s' : Cache} {action : CacheAction}
    (h : CacheStepped loc apply s action s') (hs : s.Formed) :
  s'.Formed
  := by
  cases h with
  | make ingredients recipe _ hdocs hmade => exact hmade.formed hs hdocs
  | touch doc args o _ hdoc htouched => exact htouched.frozen.formed hs
  | fetch doc args o _ hdoc hfetch =>
      exact (fetchNode_frozen hs.layered hdoc hfetch).formed hs
  | write path content mtime hnew => exact ⟨hs.layered, hs.entries⟩
  | delete path => exact ⟨hs.layered, hs.entries⟩
  | police d hd =>
      refine ⟨hs.layered, ?_⟩
      intro entry hentry
      obtain ⟨entry, hmem, rfl⟩ := List.mem_map.mp hentry
      rw [Cache.poll_node]
      exact hs.entries entry hmem

theorem formed_startCache (files : List UInt8 → Option File) (newest : ℕ) :
  (startCache files newest).Formed
  := by
  constructor
  · rintro i j ⟨⟩
  · rintro entry ⟨⟩

theorem formed_of_reaches {files : List UInt8 → Option File} {newest : ℕ} {s : Cache}
    (h : Reaches (cacheStep loc apply) (startCache files newest) s) :
  s.Formed
  := by
  apply h.invariant (I := Cache.Formed)
  · intro s action s' hs hstep
    exact (cacheStep_cases hs hstep).formed hs
  · apply formed_startCache

end Procedures

end Gusher
