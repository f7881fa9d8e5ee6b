import Gusher.Server.System

/-!
# The request queue

In every reachable state of the threaded server the pool and the queue are finite lists of
different frames, the queue ends at `req_tail`, and connections pass through the queue in the
order of acceptance (`requests_in_order`).

A frame is in the pool, or in the queue, or it is owned by one thread, or it is out of use:
the acceptor owns the frame it fills in, and a worker owns the frame it took from the queue
until it releases it.  No frame has two owners.
-/

namespace Gusher

open LinkedList Run

/-- A thread that may own a frame. -/
inductive Owner where
  | acceptor
  | worker (w : Wid)
  deriving DecidableEq

def Acceptor.owns : Acceptor → Option Addr
  | .filling f _ _ => some f
  | .filled f _ => some f
  | .threaded f _ => some f
  | _ => none

/-- The connection that was accepted and not yet queued. -/
def Acceptor.inHand : Acceptor → List Conn
  | .accepted c => [c]
  | .filling _ c _ => [c]
  | .filled _ c => [c]
  | .threaded _ c => [c]
  | _ => []

/-- The fields stored before `field` hold the values of the connection `c`. -/
def StoredBefore (c d : Conn) : Fill → Prop
  | .sock => True
  | .ipaddr => d.sock = c.sock
  | .rport => d.sock = c.sock ∧ d.ipaddr = c.ipaddr
  | .count => d.sock = c.sock ∧ d.ipaddr = c.ipaddr ∧ d.rport = c.rport

/-- The frame of the acceptor holds what was stored of the connection in hand. -/
def Acceptor.Stored (conn : Addr → Conn) : Acceptor → Prop
  | .filling f c field => StoredBefore c (conn f) field
  | .filled f c => conn f = c
  | .threaded f c => conn f = c
  | _ => True

def Worker.owns : Worker → Option Addr
  | .dequeued t => some t.frame
  | .building t _ _ _ => some t.frame
  | .catching t released _ => if released then none else some t.frame
  | _ => none

namespace Server

/-- The connection a frame describes. -/
def connOf (s : Server) (f : Addr) : Conn :=
  (s.frames.cell f).toConn

/-- The frame a thread owns. -/
def owns (s : Server) : Owner → Option Addr
  | .acceptor => s.acceptor.owns
  | .worker w => (s.workers w).owns

/-- The invariant of the queue: pool and queue are apart from each other and from the frames
that are owned, no frame has two owners, and the connections handed to workers, then those in
the queue, then the one in the hand of the acceptor, are those accepted. -/
structure InOrder (s : Server) (pool queue : List Addr) : Prop where
  separated : s.frames.Separated pool queue
  owned : ∀ o f, s.owns o = some f → f ∈ s.frames.allocated ∧ f ∉ queue ++ pool
  unique : ∀ o o' f, s.owns o = some f → s.owns o' = some f → o = o'
  stored : s.acceptor.Stored s.connOf
  order : s.handed ++ queue.map s.connOf ++ s.acceptor.inHand = s.accepted

@[simp]
theorem setWorker_frames (s : Server) (w : Wid) (x : Worker) :
  (s.setWorker w x).frames = s.frames
  := rfl

theorem setWorker_workers (s : Server) (w v : Wid) (x : Worker) :
  (s.setWorker w x).workers v = if v = w then x else s.workers v
  := Function.update_apply s.workers w x v

variable {s t : Server} {pool queue : List Addr}

/-- A step keeps the invariant when it leaves the frames alone, gives no thread a frame it did
not own, and keeps the record of connections in step with the hand of the acceptor. -/
theorem InOrder.of_frames (h : s.InOrder pool queue) (hframes : t.frames = s.frames)
    (howns : ∀ o f, t.owns o = some f → s.owns o = some f)
    (hstored : t.acceptor.Stored s.connOf) (hhanded : t.handed = s.handed)
    (haccepted : ∀ l, l ++ s.acceptor.inHand = s.accepted → l ++ t.acceptor.inHand = t.accepted) :
  t.InOrder pool queue
  := by
  have hconn : t.connOf = s.connOf := by
    funext f
    rw [connOf, connOf, hframes]
  constructor
  · rw [hframes]
    apply h.separated
  · intro o f ho
    rw [hframes]
    apply h.owned o f (howns o f ho)
  · intro o o' f ho ho'
    apply h.unique o o' f (howns o f ho) (howns o' f ho')
  · rw [hconn]
    apply hstored
  · rw [hhanded, hconn]
    apply haccepted _ h.order

/-- A step of the workers keeps the invariant when it also leaves the record of connections
alone. -/
theorem InOrder.of_workers (h : s.InOrder pool queue) (hframes : t.frames = s.frames)
    (hacceptor : t.acceptor = s.acceptor) (hhanded : t.handed = s.handed)
    (haccepted : t.accepted = s.accepted)
    (howns : ∀ w f, (t.workers w).owns = some f → (s.workers w).owns = some f) :
  t.InOrder pool queue
  := by
  apply h.of_frames hframes _ _ hhanded
  · intro l hl
    rw [hacceptor, haccepted, hl]
  · intro o f ho
    cases o with
    | acceptor => rwa [owns, hacceptor] at ho
    | worker w => apply howns w f ho
  · rw [hacceptor]
    apply h.stored

/-- No thread owns more than before when the workers are where they were, and the acceptor owns
no more than before. -/
theorem owns_of_acceptor (hworkers : t.workers = s.workers)
    (hacceptor : ∀ f, t.acceptor.owns = some f → s.acceptor.owns = some f) (o : Owner) (f : Addr)
    (ho : t.owns o = some f) :
  s.owns o = some f
  := by
  cases o with
  | acceptor => apply hacceptor f ho
  | worker w => rwa [owns, hworkers] at ho

/-- A worker that moves to a state in which it owns no more than before keeps the
invariant. -/
theorem InOrder.setWorker (h : s.InOrder pool queue) (w : Wid) (x : Worker)
    (hx : ∀ f, x.owns = some f → (s.workers w).owns = some f) :
  (s.setWorker w x).InOrder pool queue
  := by
  apply h.of_workers (t := s.setWorker w x) rfl rfl rfl rfl
  intro v f
  rw [setWorker_workers]
  split
  case isTrue hv =>
      subst hv
      apply hx
  case isFalse => apply id

/-! ### The acceptor -/

/-- The acceptor takes a frame from the pool, or a new one. -/
theorem InOrder.getFrame {a f : Addr} {m : Frames} {c : Conn} (h : s.InOrder pool queue)
    (hacc : s.acceptor = .accepted c) (hget : s.frames.getFrame a = some (f, m)) :
  ∃ pool', InOrder { s with frames := m, acceptor := .filling f c .sock } pool' queue
  := by
  obtain ⟨hcell, hf, halloc, pool', hsep, hfresh, hpool⟩ := h.separated.getFrame hget
  have hsub : ∀ b, b ∉ queue ++ pool → b ∉ queue ++ pool' := by
    intro b hb hmem
    apply hb
    rcases hpool with rfl | ⟨rfl, -⟩
    · rcases List.mem_append.mp hmem with hmem | hmem
      · apply List.mem_append_left _ hmem
      · apply List.mem_append_right _ (List.mem_cons_of_mem _ hmem)
    · apply hmem
  have hother : ∀ w b, (s.workers w).owns = some b → b ≠ f := by
    rintro w _ hw rfl
    obtain ⟨hal, hnot⟩ := h.owned (.worker w) _ hw
    rcases hpool with rfl | ⟨-, hnew⟩
    · apply hnot (List.mem_append_right _ List.mem_cons_self)
    · exact hnew hal
  use pool'
  constructor
  · apply hsep
  · intro o b ho
    cases o with
    | acceptor =>
        obtain rfl := Option.some.inj ho
        use hf, hfresh
    | worker w =>
        obtain ⟨hal, hnot⟩ := h.owned (.worker w) b ho
        use halloc hal, hsub b hnot
  · intro o o' b ho ho'
    cases o with
    | acceptor =>
        obtain rfl := Option.some.inj ho
        cases o' with
        | acceptor => rfl
        | worker w => exact absurd rfl (hother w f ho')
    | worker w =>
        cases o' with
        | acceptor =>
            obtain rfl := Option.some.inj ho'
            exact absurd rfl (hother w f ho)
        | worker w' => apply h.unique (.worker w) (.worker w') b ho ho'
  · trivial
  · have hconn : connOf { s with frames := m, acceptor := .filling f c .sock } = s.connOf := by
      funext b
      simp only [connOf, hcell]
    apply Eq.trans _ h.order
    rw [hconn, hacc]
    rfl

/-- The acceptor stores a field of its frame. -/
theorem InOrder.store {f : Addr} {c : Conn} {field : Fill} (h : s.InOrder pool queue)
    (hacc : s.acceptor = .filling f c field) :
  InOrder { s with
    frames := s.frames.setConn f (storeField c field)
    acceptor := afterStore f c field } pool queue
  := by
  have hown : s.owns .acceptor = some f := by simp [owns, hacc, Acceptor.owns]
  obtain ⟨-, hf⟩ := h.owned .acceptor f hown
  have howns : (afterStore f c field).owns = s.acceptor.owns := by
    rw [hacc]
    cases field <;> rfl
  have hhand : (afterStore f c field).inHand = s.acceptor.inHand := by
    rw [hacc]
    cases field <;> rfl
  have howns' : ∀ o, Server.owns { s with
      frames := s.frames.setConn f (storeField c field)
      acceptor := afterStore f c field } o = s.owns o := by
    intro o
    cases o with
    | acceptor => apply howns
    | worker w => rfl
  constructor
  · apply h.separated.setConn
  · intro o b ho
    rw [howns'] at ho
    apply h.owned o b ho
  · intro o o' b ho ho'
    rw [howns'] at ho ho'
    apply h.unique o o' b ho ho'
  · have hst := h.stored
    rw [hacc] at hst
    cases field <;>
      simp_all [Acceptor.Stored, StoredBefore, connOf, afterStore, storeField,
        Frames.setConn_toConn]
  · apply Eq.trans _ h.order
    rw [hhand]
    congr 2
    apply List.map_congr_left
    intro b hb
    simp only [connOf, Frames.setConn_toConn]
    rw [if_neg]
    rintro rfl
    apply hf (List.mem_append_left pool hb)

/-- The acceptor puts its frame into the queue. -/
theorem InOrder.enqueueFrame {f : Addr} {c : Conn} (h : s.InOrder pool queue)
    (hacc : s.acceptor = .threaded f c) :
  InOrder { s with frames := s.frames.enqueueFrame f, acceptor := .enqueued }
    pool (queue ++ [f])
  := by
  have hown : s.owns .acceptor = some f := by simp [owns, hacc, Acceptor.owns]
  obtain ⟨hal, hf⟩ := h.owned .acceptor f hown
  have hconn : connOf { s with
      frames := s.frames.enqueueFrame f, acceptor := .enqueued } = s.connOf := by
    funext b
    apply Frames.enqueueFrame_toConn
  constructor
  · apply h.separated.enqueueFrame hf hal
  · intro o b ho
    cases o with
    | acceptor => cases ho
    | worker w =>
        have hb := h.owned (.worker w) b ho
        have hbf : b ≠ f := by
          rintro rfl
          cases h.unique (.worker w) .acceptor b ho hown
        rw [Frames.enqueueFrame_allocated]
        use hb.1
        simp only [List.mem_append, List.mem_singleton] at hb ⊢
        tauto
  · intro o o' b ho ho'
    cases o with
    | acceptor => cases ho
    | worker w =>
        cases o' with
        | acceptor => cases ho'
        | worker w' => apply h.unique (.worker w) (.worker w') b ho ho'
  · trivial
  · have hst := h.stored
    rw [hacc] at hst
    have hf' : s.connOf f = c := hst
    apply Eq.trans _ h.order
    rw [hconn, hacc]
    simp [Acceptor.inHand, hf']

/-- The acceptor goes on from a filled frame to the queue. -/
theorem InOrder.addThread {f : Addr} {c : Conn} {n : ℕ} (h : s.InOrder pool queue)
    (hacc : s.acceptor = .filled f c) :
  InOrder { s with acceptor := .threaded f c, nthreads := n } pool queue
  := by
  have hst := h.stored
  rw [hacc] at hst
  apply h.of_frames
  · rfl
  · apply owns_of_acceptor
    · rfl
    · rw [hacc]
      exact fun f hf => hf
  · apply hst
  · rfl
  · rw [hacc]
    exact fun l hl => hl

/-- Signalling gives no worker a frame. -/
theorem signalAll_owns (s : Server) (w : Wid) :
  (s.signalAll.workers w).owns = (s.workers w).owns
  := by
  simp only [signalAll]
  split
  case isTrue hw =>
      rw [hw.1]
      rfl
  case isFalse => rfl

/-- Every step of the acceptor keeps the invariant. -/
theorem InOrder.acceptorStep {act : AcceptorAction} (h : s.InOrder pool queue)
    (hstep : s.acceptorStep act = some t) :
  ∃ pool queue, t.InOrder pool queue
  := by
  revert hstep
  fun_cases Server.acceptorStep s act
  case case1 fd ipaddr rport hacc hfd c =>
      rintro ⟨⟩
      use pool, queue
      apply h.of_frames
      · rfl
      · apply owns_of_acceptor
        · rfl
        · rintro f ⟨⟩
      · trivial
      · rfl
      · rw [hacc]
        intro l hl
        rw [← hl]
        simp [Acceptor.inHand]
  case case2 => rintro ⟨⟩
  case case3 a c hacc =>
      intro hstep
      obtain ⟨⟨f, m⟩, hget, rfl⟩ := Option.map_eq_some_iff.mp hstep
      obtain ⟨pool', h'⟩ := h.getFrame hacc hget
      use pool'
      use queue
  case case4 f c field hacc =>
      rintro ⟨⟩
      use pool
      use queue
      apply h.store hacc
  case case5 f c hacc s' hbusy =>
      intro hstep
      obtain rfl := Option.some.inj hstep
      use pool
      use queue
      apply InOrder.setWorker
      · apply h.addThread hacc
      · rintro f ⟨⟩
  case case6 f c hacc s' hbusy =>
      intro hstep
      obtain rfl := Option.some.inj hstep
      use pool
      use queue
      apply h.addThread hacc
  case case7 f c hacc s' hempty =>
      intro hstep
      obtain rfl := Option.some.inj hstep
      use pool
      use queue ++ [f]
      apply (h.enqueueFrame hacc).of_workers (t := s'.signalAll) rfl rfl rfl rfl
      intro w b hw
      rwa [signalAll_owns] at hw
  case case8 f c hacc s' hempty =>
      intro hstep
      obtain rfl := Option.some.inj hstep
      use pool
      use queue ++ [f]
      apply h.enqueueFrame hacc
  case case9 hacc =>
      rintro ⟨⟩
      use pool
      use queue
      apply h.of_frames
      · rfl
      · apply owns_of_acceptor
        · rfl
        · rintro f ⟨⟩
      · trivial
      · rfl
      · rw [hacc]
        exact fun l hl => hl
  case case10 => rintro ⟨⟩

/-! ### The workers -/

/-- A worker takes the first frame of the queue. -/
theorem InOrder.dequeueStep {w : Wid} (h : s.InOrder pool queue)
    (hw : (s.workers w).owns = none) (hstep : s.dequeueStep w = some t) :
  ∃ queue, t.InOrder pool queue
  := by
  obtain ⟨⟨f, m⟩, hdeq, rfl⟩ := Option.map_eq_some_iff.mp hstep
  obtain ⟨hcell, halloc, queue', rfl, hsep⟩ := h.separated.dequeue hdeq
  have hf : f ∉ queue' ++ pool := (List.nodup_cons.mp h.separated.nodup).1
  have hconn : ∀ b, (m.cell b).toConn = s.connOf b := fun b => by rw [hcell, connOf]
  -- a frame owned after the step is `f`, owned by `w`, or was owned before
  have howns : ∀ o b, Server.owns (Server.setWorker { s with
      frames := m, busyThreads := s.busyThreads + 1
      handed := s.handed ++ [s.connOf f] } w (.dequeued ⟨f, s.connOf f⟩)) o = some b →
      (o = .worker w ∧ b = f) ∨ (o ≠ .worker w ∧ s.owns o = some b) := by
    intro o b ho
    cases o with
    | acceptor => exact Or.inr ⟨by simp, ho⟩
    | worker v =>
        rw [owns, setWorker_workers] at ho
        split at ho
        case isTrue hv =>
            subst hv
            obtain rfl := Option.some.inj ho
            exact Or.inl ⟨rfl, rfl⟩
        case isFalse hv => exact Or.inr ⟨by simpa using hv, ho⟩
  have hnot : ∀ o b, s.owns o = some b → b ≠ f := by
    rintro o _ ho rfl
    apply (h.owned o _ ho).2
    simp
  use queue'
  constructor
  · apply hsep
  · intro o b ho
    rw [setWorker_frames, halloc]
    rcases howns o b ho with ⟨-, rfl⟩ | ⟨-, ho⟩
    · use h.separated.allocated b (by simp), hf
    · obtain ⟨hal, hb⟩ := h.owned o b ho
      use hal
      intro hmem
      apply hb
      apply List.mem_cons_of_mem _ hmem
  · intro o o' b ho ho'
    rcases howns o b ho with ⟨rfl, rfl⟩ | ⟨-, hold⟩
    · rcases howns o' b ho' with ⟨rfl, -⟩ | ⟨-, hold'⟩
      · rfl
      · exact absurd rfl (hnot o' b hold')
    · rcases howns o' b ho' with ⟨rfl, rfl⟩ | ⟨-, hold'⟩
      · exact absurd rfl (hnot o b hold)
      · apply h.unique o o' b hold hold'
  · have hst := h.stored
    have : Server.connOf { s with frames := m } = s.connOf := funext hconn
    rw [← this] at hst
    apply hst
  · apply Eq.trans _ h.order
    have : Server.connOf { s with frames := m } = s.connOf := funext hconn
    show s.handed ++ [s.connOf f] ++ queue'.map (Server.connOf { s with frames := m })
      ++ s.acceptor.inHand = _
    rw [this]
    simp

/-- A worker releases its frame. -/
theorem InOrder.releaseFrame {w : Wid} {tk : Task} {x : Worker} (h : s.InOrder pool queue)
    (hw : (s.workers w).owns = some tk.frame) (hx : x.owns = none) :
  InOrder (Server.setWorker { s with frames := s.frames.releaseFrame tk.frame } w x)
    (tk.frame :: pool) queue
  := by
  obtain ⟨hal, hf⟩ := h.owned (.worker w) tk.frame hw
  have howns : ∀ o b, Server.owns (Server.setWorker { s with
      frames := s.frames.releaseFrame tk.frame } w x) o = some b →
      o ≠ .worker w ∧ s.owns o = some b := by
    intro o b ho
    cases o with
    | acceptor => exact ⟨by simp, ho⟩
    | worker v =>
        rw [owns, setWorker_workers] at ho
        split at ho
        case isTrue hv =>
            rw [hx] at ho
            cases ho
        case isFalse hv => exact ⟨by simpa using hv, ho⟩
  have hconn : Server.connOf (Server.setWorker { s with
      frames := s.frames.releaseFrame tk.frame } w x) = s.connOf := by
    funext b
    apply Frames.releaseFrame_toConn
  constructor
  · apply h.separated.releaseFrame hf hal
  · intro o b ho
    obtain ⟨hne, ho⟩ := howns o b ho
    obtain ⟨hal', hb⟩ := h.owned o b ho
    use hal'
    intro hmem
    rcases List.mem_append.mp hmem with hmem | hmem
    · apply hb (List.mem_append_left _ hmem)
    · rcases List.mem_cons.mp hmem with rfl | hmem
      · exact hne (h.unique o (.worker w) tk.frame ho hw)
      · apply hb (List.mem_append_right _ hmem)
  · intro o o' b ho ho'
    apply h.unique o o' b (howns o b ho).2 (howns o' b ho').2
  · rw [hconn]
    apply h.stored
  · rw [hconn]
    apply h.order

/-- What a step of a worker does to the frames: it takes a frame from the queue, or releases
its frame, or leaves the frames, the acceptor and the record of connections alone. -/
theorem workerStep_cases {w : Wid} {act : WorkerAction} (hstep : s.workerStep w act = some t) :
  ((s.workers w).owns = none ∧ s.dequeueStep w = some t)
    ∨ (∃ (tk : Task) (x : Worker), (s.workers w).owns = some tk.frame ∧ x.owns = none ∧
        t = Server.setWorker { s with frames := s.frames.releaseFrame tk.frame } w x)
    ∨ (t.frames = s.frames ∧ t.acceptor = s.acceptor ∧ t.handed = s.handed ∧
        t.accepted = s.accepted ∧
        ∀ v f, (t.workers v).owns = some f → (s.workers v).owns = some f)
  := by
  revert hstep
  fun_cases Server.workerStep s w act
  case case8 hw =>
      intro hstep
      left
      use by rw [hw]; rfl
  case case9 hw =>
      intro hstep
      left
      use by rw [hw]; rfl
  case case14 tk sock host port hw =>
      rintro ⟨⟩
      right
      left
      use tk, .responding tk sock host port
      rw [hw]
      exact ⟨rfl, rfl, rfl⟩
  case case15 =>
      rintro ⟨⟩
      right
      right
      exact ⟨rfl, rfl, rfl, rfl, fun v f hv => hv⟩
  case case20 =>
      rintro ⟨⟩
      right
      right
      exact ⟨rfl, rfl, rfl, rfl, fun v f hv => hv⟩
  -- all other steps move the worker to a state in which it owns no more than before
  all_goals
    rintro ⟨⟩
    try
      right
      right
      refine ⟨rfl, rfl, rfl, rfl, ?_⟩
      intro v f
      rw [setWorker_workers]
      split
      case isTrue hv =>
          subst hv
          simp_all [Worker.owns]
      case isFalse => exact id

/-- Every step of a worker keeps the invariant. -/
theorem InOrder.workerStep {w : Wid} {act : WorkerAction} (h : s.InOrder pool queue)
    (hstep : s.workerStep w act = some t) :
  ∃ pool queue, t.InOrder pool queue
  := by
  rcases workerStep_cases hstep with ⟨hw, hdeq⟩ | ⟨tk, x, hw, hx, rfl⟩ |
    ⟨hframes, hacceptor, hhanded, haccepted, howns⟩
  · use pool
    apply h.dequeueStep hw hdeq
  · use tk.frame :: pool
    use queue
    apply h.releaseFrame hw hx
  · use pool
    use queue
    apply h.of_workers hframes hacceptor hhanded haccepted howns

/-! ### Runs -/

theorem InOrder.step {act : Action} (h : s.InOrder pool queue) (hstep : s.step act = some t) :
  ∃ pool queue, t.InOrder pool queue
  := by
  cases act with
  | acceptor act => apply h.acceptorStep hstep
  | worker w act => apply h.workerStep hstep

/-- The invariant holds when the server starts. -/
theorem InOrder.start (junk : Addr → RFrame) (maxThreads n : ℕ) :
  (Server.start junk maxThreads n).InOrder [] []
  := by
  have howns : ∀ o, (Server.start junk maxThreads n).owns o = none := by
    intro o
    cases o with
    | acceptor => rfl
    | worker w =>
        simp only [owns, Server.start]
        split <;> rfl
  constructor
  · constructor <;> simp [Server.start]
  · intro o f ho
    rw [howns] at ho
    cases ho
  · intro o o' f ho
    rw [howns] at ho
    cases ho
  · trivial
  · rfl

/-- The invariant holds in every state the server reaches. -/
theorem inOrder_of_reaches {junk : Addr → RFrame} {maxThreads n : ℕ}
    (h : Reaches Server.step (Server.start junk maxThreads n) s) :
  ∃ pool queue, s.InOrder pool queue
  := by
  apply h.invariant (I := fun s => ∃ pool queue, s.InOrder pool queue)
  · rintro s act t ⟨pool, queue, h⟩ hstep
    apply h.step hstep
  · use []
    use []
    apply InOrder.start

end Server

/-- In every state the server reaches, `req_queue` leads to a finite list of frames, which ends
at `req_tail` when it is not empty; `req_pool` leads to a finite list of frames; no frame
occurs twice in the queue, twice in the pool, or in both; and the connections handed to
workers, followed by those in the queue and the one the acceptor has in hand, are those
accepted, in the order of acceptance. -/
theorem requests_in_order (junk : Addr → RFrame) (maxThreads n : ℕ) (s : Server)
    (h : Reaches Server.step (Server.start junk maxThreads n) s) :
  ∃ queue pool : List Addr,
    Linked s.frames.next s.frames.reqQueue queue ∧
    (queue ≠ [] → s.frames.reqTail = queue.getLast?) ∧
    Linked s.frames.next s.frames.reqPool pool ∧
    (queue ++ pool).Nodup ∧
    s.handed ++ queue.map s.connOf ++ s.acceptor.inHand = s.accepted
  := by
  obtain ⟨pool, queue, hs⟩ := Server.inOrder_of_reaches h
  use queue
  use pool
  constructor
  · apply hs.separated.queue_linked
  constructor
  · intro hne
    rw [List.getLast?_eq_some_getLast hne]
    apply hs.separated.tail
    apply List.getLast?_eq_some_getLast hne
  constructor
  · apply hs.separated.pool_linked
  constructor
  · apply hs.separated.nodup
  · apply hs.order

/-- Two connections are accepted; the first was handed to a worker, which has released its
frame, and the second waits. -/
theorem requests_in_order_two :
  ∃ s, Reaches Server.step (Server.start (fun _ => ⟨⟨0, [], 0, 0⟩, none⟩) 1 1) s ∧
    s.accepted.length = 2 ∧ s.handed.length = 1 ∧
    ∃ queue pool : List Addr,
      Linked s.frames.next s.frames.reqQueue queue ∧
      (queue ≠ [] → s.frames.reqTail = queue.getLast?) ∧
      Linked s.frames.next s.frames.reqPool pool ∧
      (queue ++ pool).Nodup ∧
      s.handed ++ queue.map s.connOf ++ s.acceptor.inHand = s.accepted
  := by
  have hreaches : Reaches Server.step (Server.start (fun _ => ⟨⟨0, [], 0, 0⟩, none⟩) 1 1) _ :=
    ⟨startWorker 0 ++ passConnection 5 100 ++ takeConnection 0 ++ passConnection 6 101, rfl⟩
  exact ⟨_, hreaches, rfl, rfl, requests_in_order _ _ _ _ hreaches⟩

end Gusher
