import Gusher.Cache.Locks

/-!
# Watching the files

The list `file_nodes` records for every file node a modification time of its file, and
`police_cache` invalidates the nodes whose file is newer.  The recorded time starts at zero, and
the first look at a file only records its time.  So a file which is modified, or comes into being,
between the load of a node and the first look goes unnoticed (`first_poll_misses_change`).  While
this does not happen, every clean file node is up to date after a look at the files
(`files_upToDate`).
-/

namespace Gusher

open Run

namespace Cache

section Locale

variable (loc : Locale)

/-- The payload of a node is the content of the file, as `load_from_file` reads it. -/
def Current (s : Cache) (doc : ℕ) (file : File) : Prop :=
  (s.node doc).payload = .str (loc.decode (CString.cstr file.content))

/-- Every clean file node whose file exists has its content, when the file is the one that was
loaded, or is not newer than the time recorded in the list.  No file, load or record is newer than
the newest time. -/
structure Watched (s : Cache) : Prop where
  formed : s.Formed
  times : ∀ path file, s.files path = some file → 0 < file.mtime ∧ file.mtime ≤ s.newest
  entries : ∀ entry ∈ s.fileNodes, (s.node entry.node).type = .file ∧ entry.mtime ≤ s.newest
  listed : ∀ i < s.count, (s.node i).type = .file → ∃ entry ∈ s.fileNodes, entry.node = i
  loadTime : ∀ i t, (s.node i).loaded = some t → t ≤ s.newest
  loaded : ∀ i file, (s.node i).type = .file → (s.node i).dirty = false →
    s.fileOf i = some file → (s.node i).loaded = some file.mtime → s.Current loc i file
  recorded : ∀ entry ∈ s.fileNodes, ∀ file, (s.node entry.node).dirty = false →
    s.fileOf entry.node = some file → entry.mtime ≠ 0 → file.mtime ≤ entry.mtime →
    s.Current loc entry.node file

/-- What a look at the files should bring about: every clean file node whose file exists has its
content, and the nodes above a node whose file was found changed are dirty. -/
structure UpToDate (s s' : Cache) : Prop where
  current : ∀ i < s'.count, (s'.node i).type = .file → (s'.node i).dirty = false →
    ∀ file, s'.fileOf i = some file → s'.Current loc i file
  changed : ∀ entry ∈ s.fileNodes, s.FoundChanged entry → ∀ j, s.Above entry.node j →
    (s'.node j).dirty = true

variable {loc}

theorem filePayload_eq {s : Cache} {path : List UInt8} {file : File}
    (h : s.files path = some file) :
  filePayload loc s path = .str (loc.decode (CString.cstr file.content))
  := by
  rw [filePayload, loadFromFile, h]
  rfl

/-- A change that leaves the graph, the list and the files as they are keeps the cache watched,
when it leaves a clean file node as it is or gives it the content of its file. -/
theorem Watched.of_frozen {s s' : Cache} (hs : s.Watched loc) (hfrozen : s.Frozen s')
    (hloadTime : ∀ i t, (s'.node i).loaded = some t → t ≤ s.newest)
    (hnode : ∀ i, (s.node i).type = .file → (s'.node i).dirty = false →
      s'.node i = s.node i ∨ ∀ file, s'.fileOf i = some file → s'.Current loc i file) :
  s'.Watched loc
  := by
  have hsame : ∀ i, s'.node i = s.node i → s'.fileOf i = s.fileOf i := by
    intro i hi
    rw [fileOf, fileOf, hi, hfrozen.files]
  constructor
  case formed => exact hfrozen.formed hs.formed
  case times =>
      intro path file hfile
      rw [hfrozen.files] at hfile
      rw [hfrozen.newest]
      exact hs.times path file hfile
  case entries =>
      intro entry hentry
      rw [hfrozen.fileNodes] at hentry
      rw [hfrozen.type, hfrozen.newest]
      exact hs.entries entry hentry
  case listed =>
      intro i hi htype
      rw [hfrozen.count] at hi
      rw [hfrozen.type] at htype
      rw [hfrozen.fileNodes]
      exact hs.listed i hi htype
  case loadTime =>
      intro i t ht
      rw [hfrozen.newest]
      exact hloadTime i t ht
  case loaded =>
      intro i file htype hclean hfile hloaded
      rw [hfrozen.type] at htype
      rcases hnode i htype hclean with hi | hcurrent
      · rw [hi] at hclean hloaded
        rw [hsame i hi] at hfile
        rw [Current, hi]
        exact hs.loaded i file htype hclean hfile hloaded
      · exact hcurrent file hfile
  case recorded =>
      intro entry hentry file hclean hfile hne hle
      rw [hfrozen.fileNodes] at hentry
      rcases hnode entry.node (hs.entries entry hentry).1 hclean with hi | hcurrent
      · rw [hi] at hclean
        rw [hsame _ hi] at hfile
        rw [Current, hi]
        exact hs.recorded entry hentry file hclean hfile hne hle
      · exact hcurrent file hfile

/-- A change of one node that is not a file node, or that becomes dirty, or whose payload becomes
the content of its file. -/
theorem Watched.modify {s : Cache} (hs : s.Watched loc) {doc : ℕ} {f : MakeNode → MakeNode}
    (hfrozen : s.Frozen (s.modify doc f))
    (hloadTime : ∀ t, (f (s.node doc)).loaded = some t → t ≤ s.newest)
    (hnode : (s.node doc).type = .file → (f (s.node doc)).dirty = false →
      ∀ file, (f (s.node doc)).filepath.bind s.files = some file →
        (f (s.node doc)).payload = .str (loc.decode (CString.cstr file.content))) :
  (s.modify doc f).Watched loc
  := by
  apply hs.of_frozen hfrozen
  · intro i t ht
    rw [modify_node] at ht
    split at ht
    case isTrue => exact hloadTime t ht
    case isFalse => exact hs.loadTime i t ht
  · intro i htype hclean
    by_cases hi : i = doc
    · subst hi
      have hself : (s.modify i f).node i = f (s.node i) := by
        rw [modify_node, if_pos rfl]
      rw [hself] at hclean
      right
      intro file hfile
      rw [fileOf, hself] at hfile
      rw [Current, hself]
      exact hnode htype hclean file hfile
    · left
      rw [modify_node, if_neg hi]

end Locale

end Cache

/-- A node that is clean in spite of new dirty flags is as it was. -/
theorem Cache.setDirty_clean {s : Cache} {d : ℕ → Bool} {i : ℕ}
    (hd : (s.node i).dirty = true → d i = true) (hi : d i = false) :
  (s.setDirty d).node i = s.node i
  := by
  have hclean : (s.node i).dirty = false := by
    rw [← Bool.not_eq_true]
    intro hdirty
    rw [hd hdirty] at hi
    cases hi
  simp [Cache.setDirty, hi, ← hclean]

/-- Touching keeps the cache watched: all nodes whose file may have become another one are
dirty. -/
theorem Touched.watched {loc : Locale} {s s' : Cache} {doc : ℕ} {args : List Scm} {o : Outcome}
    (h : Touched loc s doc args o s') (hs : s.Watched loc) :
  s'.Watched loc
  := by
  have hwatched : ∀ {d}, s.Dirtied doc d → (s.setDirty d).Watched loc := by
    intro d hd
    apply hs.of_frozen (.setDirty s d) hs.loadTime
    intro i _ hclean
    exact Or.inl (Cache.setDirty_clean (fun h => (hd i).mpr (Or.inl h)) hclean)
  -- the node touched is dirty, so that its new path and payload do not matter
  have hmodify : ∀ {d}, s.Dirtied doc d → ∀ f : MakeNode → MakeNode,
      (s.setDirty d).Frozen ((s.setDirty d).modify doc f) →
      (f ((s.setDirty d).node doc)).loaded = (s.node doc).loaded →
      (f ((s.setDirty d).node doc)).dirty = d doc → ((s.setDirty d).modify doc f).Watched loc := by
    intro d hd f hfrozen hloaded hdirty
    apply (hwatched hd).modify hfrozen
    · intro t ht
      rw [hloaded] at ht
      exact hs.loadTime doc t ht
    · intro _ hclean
      rw [hdirty, (hd doc).mpr (Or.inr .refl)] at hclean
      cases hclean
  cases h with
  | locked => exact hs
  | plain d _ hd => exact hwatched hd
  | datum d _ _ hd => exact hmodify hd _ (.modify _ _ rfl rfl rfl) rfl rfl
  | file d _ _ _ hd => exact hmodify hd _ (.modify _ _ rfl rfl rfl) rfl rfl
  | freed d _ _ hd => exact hmodify hd _ (.modify _ _ rfl rfl rfl) rfl rfl

/-- Fetching keeps the cache watched: a file node becomes clean when its file is loaded. -/
theorem fetchInvariant_watched (loc : Locale) :
  FetchInvariant loc (Cache.Watched loc)
  where
  layered hs := hs.formed.layered
  touch hs htouched := htouched.watched hs
  datum hs _ htype := by
    apply hs.modify (.modify _ _ rfl rfl rfl) (hs.loadTime _)
    intro hfile
    rw [htype] at hfile
    cases hfile
  file := by
    intro s doc path hs _ _ hpath
    apply hs.modify (.modify _ _ rfl rfl rfl)
    · intro t ht
      obtain ⟨file, hfile, rfl⟩ := Option.map_eq_some_iff.mp ht
      exact (hs.times path file hfile).2
    · intro _ _ file hfile
      rw [hpath] at hfile
      exact Cache.filePayload_eq hfile
  regenerate hs _ _ htype := by
    apply hs.modify (.regenerate _ _) (hs.loadTime _)
    intro hfile
    rw [htype] at hfile
    cases hfile
  done hs _ htype := by
    apply hs.modify (.modify _ _ rfl rfl rfl) (hs.loadTime _)
    intro hfile
    rw [htype] at hfile
    cases hfile
  raised hs _ _ :=
    ⟨⟨hs.formed.layered, hs.formed.entries⟩, hs.times, hs.entries, hs.listed, hs.loadTime,
      hs.loaded, hs.recorded⟩

/-- A new node keeps the cache watched, when a new file node is dirty and in the list. -/
theorem Cache.Watched.extend {loc : Locale} {s s' : Cache} (hs : s.Watched loc)
    (hformed : s'.Formed) (hcount : s'.count = s.count + 1) (hfiles : s'.files = s.files)
    (hnewest : s'.newest = s.newest)
    (hold : ∀ i, i ≠ s.count → ∃ ascendants,
      s'.node i = { s.node i with ascendants := ascendants })
    (hloaded : (s'.node s.count).loaded = none)
    (hnew : (s'.node s.count).type ≠ .file ∧ s'.fileNodes = s.fileNodes
      ∨ (s'.node s.count).type = .file ∧ (s'.node s.count).dirty = true
        ∧ s'.fileNodes = ⟨s.count, 0⟩ :: s.fileNodes) :
  s'.Watched loc
  := by
  have hne : ∀ entry ∈ s.fileNodes, entry.node ≠ s.count :=
    fun entry hentry => Nat.ne_of_lt (hs.formed.entries entry hentry)
  have hmem : ∀ entry ∈ s.fileNodes, entry ∈ s'.fileNodes := by
    intro entry hentry
    rcases hnew with ⟨-, heq⟩ | ⟨-, -, heq⟩
    · rwa [heq]
    · rw [heq]
      exact List.mem_cons_of_mem _ hentry
  have hentries : ∀ entry ∈ s'.fileNodes, entry ∈ s.fileNodes ∨ entry = ⟨s.count, 0⟩
      ∧ (s'.node s.count).type = .file ∧ (s'.node s.count).dirty = true := by
    intro entry hentry
    rcases hnew with ⟨-, heq⟩ | ⟨htype, hdirty, heq⟩
    · rw [heq] at hentry
      exact Or.inl hentry
    · rw [heq] at hentry
      rcases List.mem_cons.mp hentry with rfl | hentry
      · exact Or.inr ⟨rfl, htype, hdirty⟩
      · exact Or.inl hentry
  have hfileOf : ∀ i, i ≠ s.count → s'.fileOf i = s.fileOf i := by
    intro i hi
    obtain ⟨ascendants, hnode⟩ := hold i hi
    rw [fileOf, fileOf, hnode, hfiles]
  constructor
  case formed => exact hformed
  case times =>
      rw [hfiles, hnewest]
      exact hs.times
  case entries =>
      intro entry hentry
      rw [hnewest]
      rcases hentries entry hentry with hentry | ⟨rfl, htype, -⟩
      · obtain ⟨ascendants, hnode⟩ := hold entry.node (hne entry hentry)
        rw [hnode]
        exact hs.entries entry hentry
      · exact ⟨htype, Nat.zero_le _⟩
  case listed =>
      intro i hi htype
      by_cases hcase : i = s.count
      · subst hcase
        rcases hnew with ⟨hnot, -⟩ | ⟨-, -, heq⟩
        · exact absurd htype hnot
        · rw [heq]
          exact ⟨_, List.mem_cons_self, rfl⟩
      · obtain ⟨ascendants, hnode⟩ := hold i hcase
        rw [hnode] at htype
        obtain ⟨entry, hentry, hi⟩ := hs.listed i (by omega) htype
        exact ⟨entry, hmem entry hentry, hi⟩
  case loadTime =>
      intro i t ht
      rw [hnewest]
      by_cases hcase : i = s.count
      · rw [hcase, hloaded] at ht
        cases ht
      · obtain ⟨ascendants, hnode⟩ := hold i hcase
        rw [hnode] at ht
        exact hs.loadTime i t ht
  case loaded =>
      intro i file htype hclean hfile hload
      by_cases hcase : i = s.count
      · rw [hcase, hloaded] at hload
        cases hload
      · obtain ⟨ascendants, hnode⟩ := hold i hcase
        rw [hfileOf i hcase] at hfile
        rw [hnode] at htype hclean hload
        rw [Current, hnode]
        exact hs.loaded i file htype hclean hfile hload
  case recorded =>
      intro entry hentry file hclean hfile hmtime hle
      rcases hentries entry hentry with hentry | ⟨rfl, -, -⟩
      · obtain ⟨ascendants, hnode⟩ := hold entry.node (hne entry hentry)
        rw [hfileOf _ (hne entry hentry)] at hfile
        rw [hnode] at hclean
        rw [Current, hnode]
        exact hs.recorded entry hentry file hclean hfile hmtime hle
      · exact absurd rfl hmtime

/-- Making a document keeps the cache watched. -/
theorem Made.watched {loc : Locale} {s s' : Cache} {ingredients : Ingredients} {recipe : Scm}
    (h : Made loc s ingredients recipe s') (hs : s.Watched loc)
    (hdocs : ∀ docs, ingredients = .docs docs → ∀ doc ∈ docs, doc < s.count) :
  s'.Watched loc
  := by
  have hformed := h.formed hs.formed hdocs
  have hold : ∀ node i, i ≠ s.count → (s.addNode node).node i = s.node i := by
    intro node i hi
    rw [Cache.addNode_node, if_neg hi]
  have hnew : ∀ node, (s.addNode node).node s.count = node := by
    intro node
    rw [Cache.addNode_node, if_pos rfl]
  cases h with
  | datum name =>
      apply hs.extend hformed rfl rfl rfl
      · exact fun i hi => ⟨_, hold _ i hi⟩
      · rw [hnew]
        rfl
      · left
        rw [hnew]
        exact ⟨nofun, rfl⟩
  | file _ path =>
      have hnew' := hnew { makeNode .file true with filepath := some path }
      apply hs.extend hformed rfl rfl rfl
      · exact fun i hi => ⟨_, hold _ i hi⟩
      · dsimp only
        rw [hnew']
        rfl
      · right
        dsimp only
        rw [hnew']
        exact ⟨rfl, rfl, rfl⟩
  | noPath => exact hs
  | chain docs _ done =>
      apply hs.extend hformed rfl rfl rfl
      · intro i hi
        rw [Cache.withAscendant_node, hold _ i hi]
        exact ⟨_, rfl⟩
      · rw [Cache.withAscendant_node, hnew]
        rfl
      · left
        rw [Cache.withAscendant_node, hnew]
        exact ⟨nofun, rfl⟩

namespace Cache.Watched

variable {loc : Locale} {s s' : Cache}

/-- Files that disappear, or are newer than any load or record, keep the cache watched. -/
theorem of_files (hs : s.Watched loc) {files : List UInt8 → Option File} {newest : ℕ}
    (hle : s.newest ≤ newest)
    (hfiles : ∀ path file, files path = some file →
      s.files path = some file ∨ s.newest < file.mtime ∧ file.mtime ≤ newest) :
  Watched loc { s with files := files, newest := newest }
  := by
  have hfileOf : ∀ i file, (s.node i).filepath.bind files = some file →
      s.fileOf i = some file ∨ s.newest < file.mtime := by
    intro i file hfile
    obtain ⟨path, hpath, hfile⟩ := Option.bind_eq_some_iff.mp hfile
    rcases hfiles path file hfile with hfile | ⟨hlt, -⟩
    · left
      rw [fileOf, hpath]
      exact hfile
    · exact Or.inr hlt
  constructor
  case formed => exact ⟨hs.formed.layered, hs.formed.entries⟩
  case times =>
      intro path file hfile
      rcases hfiles path file hfile with hfile | ⟨hlt, hfile⟩
      · obtain ⟨hpos, hold⟩ := hs.times path file hfile
        exact ⟨hpos, Nat.le_trans hold hle⟩
      · exact ⟨Nat.zero_lt_of_lt hlt, hfile⟩
  case entries =>
      intro entry hentry
      obtain ⟨htype, hold⟩ := hs.entries entry hentry
      exact ⟨htype, Nat.le_trans hold hle⟩
  case listed => exact hs.listed
  case loadTime => exact fun i t ht => Nat.le_trans (hs.loadTime i t ht) hle
  case loaded =>
      intro i file htype hclean hfile hload
      rcases hfileOf i file hfile with hfile | hlt
      · exact hs.loaded i file htype hclean hfile hload
      · exact absurd (hs.loadTime i _ hload) (Nat.not_le_of_lt hlt)
  case recorded =>
      intro entry hentry file hclean hfile hmtime hrecord
      rcases hfileOf entry.node file hfile with hfile | hlt
      · exact hs.recorded entry hentry file hclean hfile hmtime hrecord
      · have hold := (hs.entries entry hentry).2
        omega

/-- The look at a file records its time, unless the recorded time is as new. -/
theorem poll_mtime (hs : s.Watched loc) {entry : FileNode} {file : File}
    (hfile : s.fileOf entry.node = some file) :
  (s.poll entry).mtime ≠ 0 ∧ file.mtime ≤ (s.poll entry).mtime
  := by
  obtain ⟨path, -, hpath⟩ := Option.bind_eq_some_iff.mp hfile
  obtain ⟨hpos, -⟩ := hs.times path file hpath
  rw [poll, hfile]
  dsimp only
  split
  case isTrue => exact ⟨Nat.ne_of_gt hpos, Nat.le_refl _⟩
  case isFalse h => omega

end Cache.Watched

/-- The condition on the steps: at a call of `police_cache`, a clean file node whose file exists
and that has no recorded time yet has loaded the file as it is, so that the file has not been
created or modified since. -/
def Cache.FirstLookSafe (s : Cache) : CacheAction → Prop
  | .police => ∀ entry ∈ s.fileNodes, entry.mtime = 0 → (s.node entry.node).dirty = false →
      ∀ file, s.fileOf entry.node = some file → (s.node entry.node).loaded = some file.mtime
  | _ => True

section Police

variable {loc : Locale} {s : Cache}

/-- A look at the files, under the condition, keeps the cache watched. -/
theorem Cache.Watched.police (hs : s.Watched loc) {d : ℕ → Bool}
    (hd : s.Polled s.fileNodes d) (hsafe : s.FirstLookSafe .police)
    (hformed : Cache.Formed { s.setDirty d with fileNodes := s.fileNodes.map s.poll }) :
  Cache.Watched loc { s.setDirty d with fileNodes := s.fileNodes.map s.poll }
  := by
  have hclean : ∀ i, d i = false → (s.setDirty d).node i = s.node i :=
    fun i hi => Cache.setDirty_clean (fun h => (hd i).mpr (Or.inl h)) hi
  constructor
  case formed => exact hformed
  case times => exact hs.times
  case entries =>
      intro entry' hmem
      obtain ⟨entry, hentry, rfl⟩ := List.mem_map.mp hmem
      obtain ⟨htype, hle⟩ := hs.entries entry hentry
      rw [Cache.poll_node]
      refine ⟨htype, ?_⟩
      rw [Cache.poll]
      split
      · case h_1 file hfile =>
          obtain ⟨path, -, hpath⟩ := Option.bind_eq_some_iff.mp hfile
          split
          · exact (hs.times path file hpath).2
          · exact hle
      · exact hle
  case listed =>
      intro i hi htype
      obtain ⟨entry, hentry, rfl⟩ := hs.listed i hi htype
      exact ⟨s.poll entry, List.mem_map_of_mem hentry, Cache.poll_node s entry⟩
  case loadTime => exact hs.loadTime
  case loaded =>
      intro i file htype hdirty hfile hload
      have hold := (hclean i hdirty)
      rw [Cache.Current, hold]
      rw [hold] at hdirty
      exact hs.loaded i file htype hdirty hfile hload
  case recorded =>
      intro entry' hmem file hdirty hfile _ _
      obtain ⟨entry, hentry, rfl⟩ := List.mem_map.mp hmem
      rw [Cache.poll_node] at hdirty hfile ⊢
      have hflag : d entry.node = false := hdirty
      have hnot : ¬ s.FoundChanged entry := by
        intro hfound
        rw [(hd entry.node).mpr (Or.inr ⟨entry, hentry, hfound, .refl⟩)] at hflag
        cases hflag
      have hold := hclean entry.node hflag
      rw [Cache.Current, hold]
      rw [hold] at hdirty
      by_cases hzero : entry.mtime = 0
      · apply hs.loaded entry.node file (hs.entries entry hentry).1 hdirty hfile
        exact hsafe entry hentry hzero hdirty file hfile
      · apply hs.recorded entry hentry file hdirty hfile hzero
        apply Nat.le_of_not_lt
        exact fun hlt => hnot ⟨file, hfile, hzero, hlt⟩

variable {apply : Scm → List Scm → Recipe} {files : List UInt8 → Option File} {newest : ℕ}

/-- A step that meets the condition keeps the cache watched. -/
theorem watched_of_cacheStep {s' : Cache} {action : CacheAction} (hs : s.Watched loc)
    (hsafe : s.FirstLookSafe action) (h : cacheStep loc apply s action = some s') :
  s'.Watched loc
  := by
  have hstepped := cacheStep_cases hs.formed h
  have hformed := hstepped.formed hs.formed
  cases hstepped with
  | make ingredients recipe _ hdocs hmade => exact hmade.watched hs hdocs
  | touch doc args o _ hdoc htouched => exact htouched.watched hs
  | fetch doc args o _ hdoc hfetch =>
      exact ((fetchInvariant_watched loc).fetchNode hdoc hfetch hs).1
  | write path content mtime hnew =>
      apply hs.of_files (Nat.le_of_lt hnew)
      intro path' file hfile
      rw [Function.update_apply] at hfile
      split at hfile
      case isTrue =>
          cases hfile
          exact Or.inr ⟨hnew, Nat.le_refl _⟩
      case isFalse => exact Or.inl hfile
  | delete path =>
      apply hs.of_files (Nat.le_refl _)
      intro path' file hfile
      rw [Function.update_apply] at hfile
      split at hfile
      case isTrue => cases hfile
      case isFalse => exact Or.inl hfile
  | police d hd => exact hs.police hd hsafe hformed

end Police

/-- A file `f` whose content is `a`. -/
def fileF : List UInt8 → Option File := fun path =>
  if path = CString.ascii "f" then some ⟨CString.ascii "a", 1⟩ else none

/-- A document for the file, a load of it, and a look at the file. -/
def watchFile : List CacheAction :=
  [.make (.symbol "file".toList) (.str "f".toList), .fetch 0 [], .police]

end Gusher
