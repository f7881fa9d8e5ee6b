import Gusher.Library.LinkedList
import Mathlib.Data.List.Nodup

/-!
# Request frames

The request frames of `main.c`: the records `RFRAME` in which the acceptor passes an accepted
connection to a worker, the pool `req_pool` of frames to be used again, and the queue from
`req_queue` to `req_tail` of frames that wait for a worker.  The pool and the queue are linked
through the same field `next`.

`Frames.Separated m pool queue` says that in the memory `m` the pool consists of the frames
`pool` and the queue of the frames `queue`, and that the two are apart.  Each operation comes
with the lemma that tells how it moves a frame between the two lists.
-/

namespace Gusher

open LinkedList

abbrev Addr := ℕ

/-- What `process_http` writes down about an accepted connection: its socket, the address and
the port of the peer, and its number in the order of acceptance. -/
structure Conn where
  sock : ℕ
  ipaddr : List UInt8
  rport : ℕ
  count : ℕ
  deriving DecidableEq

structure RFrame extends Conn where
  next : Option Addr
  deriving DecidableEq

/-- The memory of the frames: the content of the cells, the addresses `malloc` has given out,
and the variables `req_pool`, `req_queue` and `req_tail`. -/
structure Frames where
  cell : Addr → RFrame
  allocated : List Addr
  reqPool : Option Addr
  reqQueue : Option Addr
  reqTail : Option Addr

namespace Frames

/-- The link of every frame. -/
def next (m : Frames) : Addr → Option Addr :=
  fun a => (m.cell a).next

/-- `frame->next = p`. -/
def setNext (m : Frames) (a : Addr) (p : Option Addr) : Frames :=
  { m with cell := Function.update m.cell a { m.cell a with next := p } }

/-- A store into one of the fields of a frame that describe its connection. -/
def setConn (m : Frames) (a : Addr) (g : Conn → Conn) : Frames :=
  { m with cell := Function.update m.cell a { m.cell a with toConn := g (m.cell a).toConn } }

/-- The section of `get_frame` under `pmutex`; `a` is the address `malloc` returns when the
pool is empty. -/
def getFrame (m : Frames) (a : Addr) : Option (Addr × Frames) :=
  match m.reqPool with
  | none =>
      if a ∈ m.allocated then none
      else some (a, { m with allocated := a :: m.allocated })
  | some f => some (f, { m with reqPool := m.next f })

/-- The section of `release_frame` under `pmutex`. -/
def releaseFrame (m : Frames) (f : Addr) : Frames :=
  { m.setNext f m.reqPool with reqPool := some f }

/-- The section of `enqueue_frame` under `qmutex`. -/
def enqueueFrame (m : Frames) (f : Addr) : Frames :=
  let m := m.setNext f none
  match m.reqQueue, m.reqTail with
  | none, _ => { m with reqQueue := some f, reqTail := some f }
  | some _, some t => { m.setNext t (some f) with reqTail := some f }
  -- `req_tail->next` of a null `req_tail`; `Separated.tail` excludes it
  | some _, none => { m with reqTail := some f }

/-- The section of `dispatcher` under `qmutex` that takes the first frame of the queue. -/
def dequeue (m : Frames) : Option (Addr × Frames) :=
  m.reqQueue.map (fun f => (f, { m with reqQueue := m.next f }))

@[simp]
theorem setNext_next (m : Frames) (a : Addr) (p : Option Addr) :
  (m.setNext a p).next = Function.update m.next a p
  := by
  funext b
  by_cases hb : b = a
  · subst hb
    simp [setNext, next]
  · simp [setNext, next, hb]

@[simp]
theorem setNext_toConn (m : Frames) (a b : Addr) (p : Option Addr) :
  ((m.setNext a p).cell b).toConn = (m.cell b).toConn
  := by
  by_cases hb : b = a
  · subst hb
    simp [setNext]
  · simp [setNext, hb]

@[simp]
theorem setConn_next (m : Frames) (a : Addr) (g : Conn → Conn) :
  (m.setConn a g).next = m.next
  := by
  funext b
  by_cases hb : b = a
  · subst hb
    simp [setConn, next]
  · simp [setConn, next, hb]

/-- A store into frame `a` changes the connection of frame `a` only. -/
theorem setConn_toConn (m : Frames) (a b : Addr) (g : Conn → Conn) :
  ((m.setConn a g).cell b).toConn = if b = a then g (m.cell a).toConn else (m.cell b).toConn
  := by
  by_cases hb : b = a
  · subst hb
    simp [setConn]
  · simp [setConn, hb]

/-- The pool consists of the frames `pool`, and the queue of the frames `queue`, which ends at
`req_tail`; all these frames are different and were given out by `malloc`. -/
structure Separated (m : Frames) (pool queue : List Addr) : Prop where
  pool_linked : Linked m.next m.reqPool pool
  queue_linked : Linked m.next m.reqQueue queue
  tail : ∀ a ∈ queue.getLast?, m.reqTail = some a
  nodup : (queue ++ pool).Nodup
  allocated : ∀ a ∈ queue ++ pool, a ∈ m.allocated

variable {m m' : Frames} {pool queue : List Addr} {f : Addr}

/-- Stores into the other fields leave pool and queue as they are. -/
theorem Separated.setConn (h : m.Separated pool queue) (g : Conn → Conn) :
  (m.setConn f g).Separated pool queue
  := by
  constructor
  · rw [setConn_next]
    apply h.pool_linked
  · rw [setConn_next]
    apply h.queue_linked
  · apply h.tail
  · apply h.nodup
  · apply h.allocated

/-- `get_frame` takes the first frame of the pool, or a new one when the pool is empty, and
changes no frame. -/
theorem Separated.getFrame {a : Addr} (h : m.Separated pool queue)
    (hget : m.getFrame a = some (f, m')) :
  m'.cell = m.cell ∧ f ∈ m'.allocated ∧ m.allocated ⊆ m'.allocated ∧
    ∃ pool', m'.Separated pool' queue ∧ f ∉ queue ++ pool' ∧
      (pool = f :: pool' ∨ pool' = pool ∧ f ∉ m.allocated)
  := by
  obtain ⟨hpool, hqueue, htail, hnodup, halloc⟩ := h
  unfold Frames.getFrame at hget
  split at hget
  case h_1 heq =>
      split at hget
      case isTrue => cases hget
      case isFalse ha =>
          cases hget
          use rfl, List.mem_cons_self, List.subset_cons_self f m.allocated, pool
          constructor
          · use hpool, hqueue, htail, hnodup
            intro b hb
            apply List.mem_cons_of_mem _ (halloc b hb)
          · use fun hmem => ha (halloc f hmem)
            right
            use rfl
  case h_2 g heq =>
      cases hget
      rw [heq] at hpool
      obtain ⟨pool', rfl, hpool'⟩ := hpool.of_some
      have hf := (List.nodup_middle.mp hnodup)
      use rfl, halloc f (by simp), fun _ hb => hb, pool'
      constructor
      · use hpool', hqueue, htail, (List.nodup_cons.mp hf).2
        intro b hb
        apply halloc b
        rcases List.mem_append.mp hb with hb | hb
        · simp [hb]
        · simp [hb]
      · use (List.nodup_cons.mp hf).1
        left
        rfl

/-- `release_frame` puts the frame at the head of the pool. -/
theorem Separated.releaseFrame (h : m.Separated pool queue) (hf : f ∉ queue ++ pool)
    (halloc : f ∈ m.allocated) :
  (m.releaseFrame f).Separated (f :: pool) queue
  := by
  have hq : f ∉ queue := fun hmem => hf (List.mem_append_left pool hmem)
  have hp : f ∉ pool := fun hmem => hf (List.mem_append_right queue hmem)
  constructor
  · have := h.pool_linked.push hp
    rwa [← setNext_next] at this
  · have := h.queue_linked.update hq m.reqPool
    rwa [← setNext_next] at this
  · apply h.tail
  · apply List.nodup_middle.mpr
    apply List.nodup_cons.mpr ⟨hf, h.nodup⟩
  · intro b hb
    simp only [List.mem_append, List.mem_cons] at hb
    rcases hb with hb | rfl | hb
    · apply h.allocated b (List.mem_append_left pool hb)
    · apply halloc
    · apply h.allocated b (List.mem_append_right queue hb)

/-- `enqueue_frame` puts the frame at the end of the queue. -/
theorem Separated.enqueueFrame (h : m.Separated pool queue) (hf : f ∉ queue ++ pool)
    (halloc : f ∈ m.allocated) :
  (m.enqueueFrame f).Separated pool (queue ++ [f])
  := by
  obtain ⟨hpool, hqueue, htail, hnodup, hall⟩ := h
  have hq : f ∉ queue := fun hmem => hf (List.mem_append_left pool hmem)
  have hp : f ∉ pool := fun hmem => hf (List.mem_append_right queue hmem)
  have hnodup' : (queue ++ [f] ++ pool).Nodup := by
    rw [List.append_assoc]
    apply List.nodup_middle.mpr
    apply List.nodup_cons.mpr ⟨hf, hnodup⟩
  have hall' : ∀ a ∈ queue ++ [f] ++ pool, a ∈ m.allocated := by
    intro a ha
    simp only [List.mem_append, List.mem_singleton] at ha hall
    rcases ha with (ha | rfl) | ha
    · apply hall a (Or.inl ha)
    · apply halloc
    · apply hall a (Or.inr ha)
  rcases List.eq_nil_or_concat queue with rfl | ⟨queue, t, rfl⟩
  · -- the queue has drained: `req_tail` dangles and is not used
    have hnone : m.reqQueue = none := hqueue
    have heq : m.enqueueFrame f
        = { m.setNext f none with reqQueue := some f, reqTail := some f } := by
      simp [Frames.enqueueFrame, setNext, hnone]
    rw [heq]
    constructor
    · have := hpool.update hp none
      rwa [← setNext_next] at this
    · simp [next, setNext]
    · simp
    · apply hnodup'
    · apply hall'
  · rw [List.concat_eq_append] at *
    have ht : m.reqTail = some t := htail t (by simp)
    have hne : m.reqQueue ≠ none := by
      intro hnone
      rw [hnone] at hqueue
      cases queue <;> cases hqueue.1
    obtain ⟨g, hg⟩ := Option.ne_none_iff_exists'.mp hne
    have heq : m.enqueueFrame f
        = { (m.setNext f none).setNext t (some f) with reqTail := some f } := by
      simp [Frames.enqueueFrame, setNext, hg, ht]
    have htp : t ∉ pool := by
      intro hmem
      apply (List.nodup_append.mp hnodup).2.2 t (by simp) t hmem rfl
    rw [heq]
    constructor
    · have := (hpool.update hp none).update htp (some f)
      rwa [← setNext_next, ← setNext_next] at this
    · have := hqueue.append (List.nodup_append.mp hnodup).1 hq
      rwa [← setNext_next, ← setNext_next] at this
    · simp
    · apply hnodup'
    · apply hall'

/-- A worker takes the first frame of the queue, and changes no frame. -/
theorem Separated.dequeue (h : m.Separated pool queue) (hdeq : m.dequeue = some (f, m')) :
  m'.cell = m.cell ∧ m'.allocated = m.allocated ∧
    ∃ queue', queue = f :: queue' ∧ m'.Separated pool queue'
  := by
  obtain ⟨hpool, hqueue, htail, hnodup, hall⟩ := h
  obtain ⟨g, hg, heq⟩ := Option.map_eq_some_iff.mp hdeq
  cases heq
  rw [hg] at hqueue
  obtain ⟨queue', rfl, hqueue'⟩ := hqueue.of_some
  use rfl, rfl, queue', rfl
  constructor
  · apply hpool
  · apply hqueue'
  · intro a ha
    apply htail a
    cases queue' with
    | nil => cases ha
    | cons b queue' => simpa [List.getLast?_cons_cons] using ha
  · apply (List.nodup_cons.mp hnodup).2
  · intro a ha
    apply hall a (List.mem_cons_of_mem _ ha)

theorem releaseFrame_toConn (m : Frames) (f a : Addr) :
  ((m.releaseFrame f).cell a).toConn = (m.cell a).toConn
  := setNext_toConn m f a m.reqPool

theorem enqueueFrame_toConn (m : Frames) (f a : Addr) :
  ((m.enqueueFrame f).cell a).toConn = (m.cell a).toConn
  := by
  unfold Frames.enqueueFrame
  dsimp only
  split
  · apply setNext_toConn
  · apply Eq.trans (setNext_toConn (m.setNext f none) _ a (some f))
    apply setNext_toConn
  · apply setNext_toConn

@[simp]
theorem enqueueFrame_allocated (m : Frames) (f : Addr) :
  (m.enqueueFrame f).allocated = m.allocated
  := by
  unfold Frames.enqueueFrame
  dsimp only
  split <;> rfl

end Frames

end Gusher
