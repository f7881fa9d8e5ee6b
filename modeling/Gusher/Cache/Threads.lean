import Gusher.Cache.Coherence

/-!
# Threads at the cache

`fetch_node` and `touch_node`, as any number of threads run them at the same time.  A step of a
thread is one access to a field of a node, or one operation on a mutex: `invalidate` sets the flag
of one node in a step, and takes no mutex.  A thread waits at a mutex that is locked.  A thread is
known by its number.

Of each value it is recorded which data it was computed from.
-/

namespace Gusher

/-- The data that a value was computed from: a datum, and which of its values it had.  The values of
a datum are numbered in the order in which they are stored. -/
abbrev Origins := List (ℕ × ℕ)

/-- A recipe of a document that waits for the end of a call that it has made.  The code does not
have the field `used`: it records the origins of what the recipe has fetched. -/
structure Waiting where
  doc : ℕ
  cont : Outcome → Recipe
  used : Origins

/-- Where a thread is in `fetch_node` or in `touch_node`. -/
inductive CachePhase where
  /-- `fetch_node`, before it locks the mutex -/
  | fetch (doc : ℕ) (args : List Scm)
  /-- before it reads the flag -/
  | check (doc : ℕ) (args : List Scm)
  /-- before it clears the flag -/
  | clear (doc : ℕ) (args : List Scm)
  /-- at the switch -/
  | generate (doc : ℕ) (args : List Scm)
  /-- in `scm_apply_0` -/
  | run (doc : ℕ) (recipe : Recipe) (used : Origins)
  /-- before it stores the new payload -/
  | store (doc : ℕ) (payload : Scm) (used : Origins)
  /-- before it reads the payload that it returns -/
  | read (doc : ℕ)
  /-- before it unlocks the mutex and returns -/
  | unlock (doc : ℕ) (payload : Scm) (used : Origins)
  /-- `touch_node`, before it locks the mutex -/
  | touch (doc : ℕ) (args : List Scm)
  /-- in `invalidate`, before the calls for the nodes `todo` -/
  | invalidate (doc : ℕ) (args : List Scm) (todo : List ℕ)
  /-- before it unlocks the mutex and returns; `replaced` are the origins of the payload that it
  has overwritten, if it has -/
  | finish (doc : ℕ) (replaced : Origins)

/-- A thread: between two calls, with what the last one has returned, or in a call.  The recipes
that wait are listed from the inside. -/
inductive CacheThread where
  | idle (returned : Option Outcome)
  | active (frames : List Waiting) (phase : CachePhase)

/-- The cache and the threads.  The code does not have the last two fields: they record the values
that a datum has had, and the origins of the payloads. -/
structure SharedCache where
  cache : Cache
  threads : ℕ → CacheThread
  values : ℕ → List Scm
  origins : ℕ → Origins

/-- The end of a call, with what it returns. -/
def deliver (frames : List Waiting) (o : Outcome) (used : Origins) : CacheThread :=
  match frames with
  | [] => .idle (some o)
  | f :: frames => .active frames (.run f.doc (f.cont o) (f.used ++ used))

/-- What a thread calls, and that it goes on. -/
inductive ThreadEvent where
  | callFetch (thread doc : ℕ) (args : List Scm)
  | callTouch (thread doc : ℕ) (args : List Scm)
  | go (thread : ℕ)

namespace SharedCache

/-- A change of one thread. -/
def put (s : SharedCache) (w : ℕ) (thread : CacheThread) : SharedCache :=
  { s with threads := Function.update s.threads w thread }

/-- A change of one node. -/
def modify (s : SharedCache) (doc : ℕ) (f : MakeNode → MakeNode) : SharedCache :=
  { s with cache := s.cache.modify doc f }

/-- A new payload of a node. -/
def setPayload (s : SharedCache) (doc : ℕ) (payload : Scm) (used : Origins) : SharedCache :=
  { s.modify doc (fun node => { node with payload := payload }) with
    origins := Function.update s.origins doc used }

/-- A new value of a datum. -/
def setDatum (s : SharedCache) (doc : ℕ) (value : Scm) : SharedCache :=
  { s.setPayload doc value [(doc, (s.values doc).length)] with
    values := Function.update s.values doc (s.values doc ++ [value]) }

/-- The thread `w` locks a mutex and goes on: it waits when the mutex is locked. -/
def lock (s : SharedCache) (w doc : ℕ) (thread : CacheThread) : Option SharedCache :=
  (s.cache.lockMutex doc).map (fun cache => { s with cache := cache }.put w thread)

section Procedures

/- What the application of an object to arguments does. -/
variable (loc : Locale) (apply : Scm → List Scm → Recipe)

/-- The next step of the thread `w`. -/
def advance (s : SharedCache) (w : ℕ) (frames : List Waiting) : CachePhase → Option SharedCache
  | .fetch doc args => s.lock w doc (.active frames (.check doc args))
  | .check doc args =>
      if (s.cache.node doc).dirty then some (s.put w (.active frames (.clear doc args)))
      else some (s.put w (.active frames (.read doc)))
  | .clear doc args =>
      some ((s.modify doc (fun node => { node with dirty := false })).put w
        (.active frames (.generate doc args)))
  | .generate doc args =>
      match (s.cache.node doc).type with
      | .datum => some (s.put w (.active frames (.read doc)))
      | .file =>
          (s.cache.node doc).filepath.map (fun path =>
            s.put w (.active frames (.store doc (filePayload loc s.cache path) [])))
      | .chain =>
          some (s.put w (.active frames (.run doc (apply (s.cache.node doc).callback args) [])))
  | .run doc (.ret v) used => some (s.put w (.active frames (.store doc v used)))
  -- the exception leaves `fetch_node` with the mutex locked
  | .run _ (.raise e) used => some (s.put w (deliver frames (.error e) used))
  | .run doc (.fetch d args cont) used =>
      if d < s.cache.count then
        some (s.put w (.active (⟨doc, cont, used⟩ :: frames) (.fetch d args)))
      else none
  | .run doc (.touch d args cont) used =>
      if d < s.cache.count then
        some (s.put w (.active (⟨doc, cont, used⟩ :: frames) (.touch d args)))
      else none
  | .store doc payload used =>
      some ((s.setPayload doc payload used).put w (.active frames (.read doc)))
  | .read doc =>
      some (s.put w (.active frames (.unlock doc (s.cache.node doc).payload (s.origins doc))))
  | .unlock doc payload used =>
      some ((s.modify doc (fun node => { node with locked := false })).put w
        (deliver frames (.ok payload) used))
  | .touch doc args => s.lock w doc (.active frames (.invalidate doc args [doc]))
  | .invalidate doc args (i :: todo) =>
      some ((s.modify i (fun node => { node with dirty := true })).put w
        (.active frames (.invalidate doc args ((s.cache.node i).ascendants ++ todo))))
  | .invalidate doc args [] =>
      match args, (s.cache.node doc).type with
      | [], _ => some (s.put w (.active frames (.finish doc [])))
      | arg :: _, .datum =>
          some ((s.setDatum doc arg).put w (.active frames (.finish doc (s.origins doc))))
      | arg :: _, .file =>
          match loc.toLocaleString arg with
          | some path =>
              some ((s.modify doc (fun node => { node with filepath := some path })).put w
                (.active frames (.finish doc [])))
          | none =>
              -- the old path has been freed, and the mutex stays locked
              some ((s.modify doc (fun node => { node with filepath := none })).put w
                (deliver frames (.error (stringError arg)) []))
      | _ :: _, .chain => some (s.put w (.active frames (.finish doc [])))
  | .finish doc _ =>
      some ((s.modify doc (fun node => { node with locked := false })).put w
        (deliver frames (.ok (.bool true)) []))

def call (s : SharedCache) (w doc : ℕ) (phase : CachePhase) : Option SharedCache :=
  match s.threads w with
  | .idle _ => if doc < s.cache.count then some (s.put w (.active [] phase)) else none
  | .active _ _ => none

/-- One event. -/
def step (s : SharedCache) : ThreadEvent → Option SharedCache
  | .callFetch w doc args => s.call w doc (.fetch doc args)
  | .callTouch w doc args => s.call w doc (.touch doc args)
  | .go w =>
      match s.threads w with
      | .idle _ => none
      | .active frames phase => s.advance loc apply w frames phase

end Procedures

/-- The threads start, with the cache as it is. -/
def start (c : Cache) : SharedCache where
  cache := c
  threads := fun _ => .idle none
  values := fun doc => [(c.node doc).payload]
  origins := fun doc =>
    match (c.node doc).type with
    | .datum => [(doc, 0)]
    | _ => []

end SharedCache

end Gusher
