import Gusher.Library.Mark
import Gusher.Scheme.Object

/-!
# The document cache

The nodes of the cache, and what `make-doc`, `touch-doc`, `fetch-doc` and the periodic
`police_cache` do with them and with the files.  A node is known by its number, in the order of
creation.

The cache sees of a recipe the calls of `fetch-doc` and `touch-doc` that it makes, and how it
ends.  A recursion that is deeper than its fuel, the use of a path that has been freed, and the
use of something that is not a node have no result.
-/

namespace Gusher

open CString

/-- How a call from Scheme ends: with a value, or with an exception. -/
abbrev Outcome := Except Scm Scm

/-- What the cache sees of the run of a recipe. -/
inductive Recipe where
  | ret (v : Scm)
  | raise (e : Scm)
  | fetch (doc : ℕ) (args : List Scm) (cont : Outcome → Recipe)
  | touch (doc : ℕ) (args : List Scm) (cont : Outcome → Recipe)

/-- `TYPE_DATUM`, `TYPE_FILE` and `TYPE_CHAIN`. -/
inductive NodeType where
  | datum
  | file
  | chain
  deriving DecidableEq

/-- `struct make_node`.  A path that has been freed, or was never there, is `none`.  The code
does not have the field `loaded`: it records the modification time of the file, if there was
one, when the payload was loaded. -/
structure MakeNode where
  callback : Scm
  payload : Scm
  ascendants : List ℕ
  locked : Bool
  filepath : Option (List UInt8)
  type : NodeType
  dirty : Bool
  loaded : Option ℕ

structure FileNode where
  node : ℕ
  mtime : ℕ
  deriving DecidableEq

/-- A file that can be read. -/
structure File where
  content : List UInt8
  mtime : ℕ
  deriving DecidableEq

/-- The nodes, the list `file_nodes`, and the files.  The newest modification time a file has
had is `newest`.  The code does not have the field `abandoned`: it records the nodes whose recipe
was left by an exception, the latest in front. -/
structure Cache where
  count : ℕ
  node : ℕ → MakeNode
  fileNodes : List FileNode
  files : List UInt8 → Option File
  newest : ℕ
  abandoned : List ℕ

/-- `make_node`, with the flag that its callers set. -/
def makeNode (type : NodeType) (dirty : Bool) : MakeNode where
  callback := .bool false
  payload := .bool false
  ascendants := []
  locked := false
  filepath := none
  type := type
  dirty := dirty
  loaded := none

namespace Cache

/-- A change of one node. -/
def modify (s : Cache) (doc : ℕ) (f : MakeNode → MakeNode) : Cache :=
  { s with node := Function.update s.node doc (f (s.node doc)) }

def addNode (s : Cache) (node : MakeNode) : Cache :=
  { s with count := s.count + 1, node := Function.update s.node s.count node }

/-- `scm_lock_mutex`: `none` stands for the exception that the mutex is locked already. -/
def lockMutex (s : Cache) (doc : ℕ) : Option Cache :=
  if (s.node doc).locked then none
  else some (s.modify doc (fun node => { node with locked := true }))

/-- `scm_unlock_mutex`. -/
def unlockMutex (s : Cache) (doc : ℕ) : Cache :=
  s.modify doc (fun node => { node with locked := false })

end Cache

/-- The exception of `scm_lock_mutex`. -/
def mutexError : Scm := .symbol "misc-error".toList

/-- The exception of a conversion to a C string. -/
def stringError : Scm → Scm
  | .str _ => .symbol "encoding-error".toList
  | _ => .symbol "wrong-type-arg".toList

/-! ### Invalidation -/

/-- `invalidate`: the walk over the nodes above a node. -/
def invalidate : ℕ → (ℕ → MakeNode) → ℕ → Option (ℕ → MakeNode)
  | 0, _, _ => none
  | fuel + 1, nodes, doc =>
      (nodes doc).ascendants.foldlM (invalidate fuel)
        (Function.update nodes doc { nodes doc with dirty := true })

/-- `invalidate` of a node of the cache. -/
def Cache.invalidate (s : Cache) (doc : ℕ) : Option Cache :=
  (Gusher.invalidate s.count s.node doc).map (fun nodes => { s with node := nodes })

def touchNode (loc : Locale) (s : Cache) (doc : ℕ) (args : List Scm) :
    Option (Outcome × Cache) :=
  match s.lockMutex doc with
  | none => some (.error mutexError, s)
  | some s =>
      (s.invalidate doc).map (fun s =>
        match args, (s.node doc).type with
        | [], _ => (.ok (.bool true), s.unlockMutex doc)
        | arg :: _, .datum =>
            (.ok (.bool true),
              (s.modify doc (fun node => { node with payload := arg })).unlockMutex doc)
        | arg :: _, .file =>
            match loc.toLocaleString arg with
            | some path =>
                (.ok (.bool true),
                  (s.modify doc (fun node => { node with filepath := some path })).unlockMutex
                    doc)
            | none =>
                -- the old path has been freed, and the mutex stays locked
                (.error (stringError arg),
                  s.modify doc (fun node => { node with filepath := none }))
        | _ :: _, .chain => (.ok (.bool true), s.unlockMutex doc))

/-! ### Fetching -/

/-- `load_from_file`: the string in the buffer. -/
def loadFromFile (s : Cache) (path : List UInt8) : Option (List UInt8) :=
  (s.files path).map (fun file => cstr file.content)

/-- The payload of a file node whose path is `path`, as the file is now. -/
def filePayload (loc : Locale) (s : Cache) (path : List UInt8) : Scm :=
  match loadFromFile s path with
  | some buf => .str (loc.decode buf)
  | none => .bool false

/-- The end of `fetch_node`, with the payload that has been computed. -/
def finishFetch (s : Cache) (doc : ℕ) (payload : Scm) : Outcome × Cache :=
  (.ok payload, (s.modify doc (fun node => { node with payload := payload })).unlockMutex doc)

/-- The run of a recipe, where `fetch` is what `fetch-doc` does. -/
def runRecipe (loc : Locale) (fetch : Cache → ℕ → List Scm → Option (Outcome × Cache)) :
    Cache → Recipe → Option (Outcome × Cache)
  | s, .ret v => some (.ok v, s)
  | s, .raise e => some (.error e, s)
  | s, .fetch doc args cont =>
      if doc < s.count then
        match fetch s doc args with
        | none => none
        | some (o, s) => runRecipe loc fetch s (cont o)
      else none
  | s, .touch doc args cont =>
      if doc < s.count then
        match touchNode loc s doc args with
        | none => none
        | some (o, s) => runRecipe loc fetch s (cont o)
      else none

section Procedures

/- What the application of an object to arguments does. -/
variable (loc : Locale) (apply : Scm → List Scm → Recipe)

def fetchNode : ℕ → Cache → ℕ → List Scm → Option (Outcome × Cache)
  | 0, _, _, _ => none
  | fuel + 1, s, doc, args =>
      match s.lockMutex doc with
      | none => some (.error mutexError, s)
      | some s =>
          if ¬ (s.node doc).dirty then some (.ok (s.node doc).payload, s.unlockMutex doc)
          else
            let s := s.modify doc (fun node => { node with dirty := false })
            match (s.node doc).type with
            | .datum => some (finishFetch s doc (s.node doc).payload)
            | .file =>
                (s.node doc).filepath.map (fun path =>
                  finishFetch
                    (s.modify doc (fun node =>
                      { node with loaded := (s.files path).map File.mtime }))
                    doc (filePayload loc s path))
            | .chain =>
                match runRecipe loc (fetchNode fuel) s (apply (s.node doc).callback args) with
                | none => none
                | some (.ok payload, s) => some (finishFetch s doc payload)
                -- the exception leaves `fetch_node` with the mutex locked
                | some (.error e, s) => some (.error e, { s with abandoned := doc :: s.abandoned })

/-- `fetch-doc`.  A node whose regeneration is under way is locked, so that regenerations nest at
most as deep as there are nodes. -/
def fetchDoc (s : Cache) (doc : ℕ) (args : List Scm) : Option (Outcome × Cache) :=
  fetchNode loc apply (s.count + 1) s doc args

end Procedures

/-! ### Making nodes -/

/-- `add_ascendant`: `none` stands for the exception that the mutex is locked. -/
def addAscendant (s : Cache) (dependent self : ℕ) : Option Cache :=
  (s.lockMutex dependent).map (fun s =>
    if self ∈ (s.node dependent).ascendants then s.unlockMutex dependent
    else
      (s.modify dependent (fun node =>
        { node with ascendants := self :: node.ascendants })).unlockMutex dependent)

/-- The loop of `make_doc` over the ingredients. -/
def addAscendants (s : Cache) (self : ℕ) : List ℕ → Outcome × Cache
  | [] => (.ok (.other self), s)
  | doc :: docs =>
      match addAscendant s doc self with
      | some s => addAscendants s self docs
      | none => (.error mutexError, s)

/-- The first argument of `make-doc`. -/
inductive Ingredients where
  | symbol (name : Text)
  | docs (docs : List ℕ)

/-- `make_doc`.  The new node is known by its number. -/
def makeDoc (loc : Locale) (s : Cache) (ingredients : Ingredients) (recipe : Scm) :
    Outcome × Cache :=
  match ingredients with
  | .symbol name =>
      if name = "file".toList then
        match loc.toLocaleString recipe with
        | some path =>
            (.ok (.other s.count),
              { s.addNode { makeNode .file true with filepath := some path } with
                fileNodes := ⟨s.count, 0⟩ :: s.fileNodes })
        | none => (.error (stringError recipe), s)
      else (.ok (.other s.count), s.addNode { makeNode .datum false with payload := recipe })
  | .docs docs =>
      addAscendants (s.addNode { makeNode .chain true with callback := recipe }) s.count docs

/-! ### Watching the files -/

/-- The body of the loop of `police_cache`. -/
def policeFile (s : Cache) (entry : FileNode) : Option (FileNode × Cache) :=
  (s.node entry.node).filepath.bind (fun path =>
    match s.files path with
    | none => some (entry, s)
    | some file =>
        if entry.mtime = 0 then some ({ entry with mtime := file.mtime }, s)
        else if file.mtime ≤ entry.mtime then some (entry, s)
        else (s.invalidate entry.node).map (fun s => ({ entry with mtime := file.mtime }, s)))

/-- The loop of `police_cache`. -/
def policeFiles (s : Cache) : List FileNode → Option (List FileNode × Cache)
  | [] => some ([], s)
  | entry :: entries => do
      let (entry, s) ← policeFile s entry
      let (entries, s) ← policeFiles s entries
      return (entry :: entries, s)

def policeCache (s : Cache) : Option Cache :=
  (policeFiles s s.fileNodes).map (fun r => { r.2 with fileNodes := r.1 })

/-! ### Runs -/

/-- What happens to the cache and to the files. -/
inductive CacheAction where
  | make (ingredients : Ingredients) (recipe : Scm)
  | touch (doc : ℕ) (args : List Scm)
  | fetch (doc : ℕ) (args : List Scm)
  /-- a file is created or modified -/
  | write (path content : List UInt8) (mtime : ℕ)
  | delete (path : List UInt8)
  | police

/-- One action.  A modification time is newer than all before. -/
def cacheStep (loc : Locale) (apply : Scm → List Scm → Recipe) (s : Cache) :
    CacheAction → Option Cache
  | .make (.docs docs) recipe =>
      if ∀ doc ∈ docs, doc < s.count then some (makeDoc loc s (.docs docs) recipe).2 else none
  | .make (.symbol name) recipe => some (makeDoc loc s (.symbol name) recipe).2
  | .touch doc args => if doc < s.count then (touchNode loc s doc args).map Prod.snd else none
  | .fetch doc args =>
      if doc < s.count then (fetchDoc loc apply s doc args).map Prod.snd else none
  | .write path content mtime =>
      if s.newest < mtime then
        some { s with files := Function.update s.files path (some ⟨content, mtime⟩),
                      newest := mtime }
      else none
  | .delete path => some { s with files := Function.update s.files path none }
  | .police => policeCache s

/-- The cache of a process that starts, with the files as they are. -/
def startCache (files : List UInt8 → Option File) (newest : ℕ) : Cache where
  count := 0
  node := fun _ => makeNode .datum false
  fileNodes := []
  files := files
  newest := newest
  abandoned := []

end Gusher
