import Gusher.Server.Queue
import Mathlib.Data.List.Range

/-!
# Whose socket a worker acts on

A worker in `process_request` works with the socket it read from its frame at the start, which
is the socket of the connection it took from the queue.  The exception handler `catch_req`
instead reads the socket from the frame again, also when the frame was released before the
exception.  By then the acceptor may have filled the frame in for a later connection, and the
error message and the close go to that connection (`sends_to_other_connection`).

As long as no released frame is filled in for another connection before `catch_req` has read
it, every byte and every close goes to the connection that was taken from the queue
(`acts_on_own_connection`).
-/

namespace Gusher

open LinkedList Run

def Worker.task : Worker → Option Task
  | .dequeued t => some t
  | .building t _ _ _ => some t
  | .responding t _ _ _ => some t
  | .catching t _ _ => some t
  | _ => none

/-- The socket a worker is going to act on. -/
def Worker.fd : Worker → Option ℕ
  | .building _ sock _ _ => some sock
  | .responding _ sock _ _ => some sock
  | .catching _ _ (.sending fd) => some fd
  | .catching _ _ (.closing fd) => some fd
  | _ => none

namespace Server

/-- The invariant of the sockets: the connections are numbered in the order of acceptance;
the sockets of the connections waiting for a worker and of those being worked on are open and
belong to these connections; a worker that owns its frame finds its connection described
there; the socket a worker is going to act on is that of its connection; no two workers work
on one connection; and whatever was sent or closed was so on the worker's own connection. -/
structure Routed (s : Server) : Prop where
  numbered : s.accepted.map Conn.count = List.range s.accepted.length
  tcount : s.accepted.length = s.tcount + if s.acceptor = .polling then 0 else 1
  waiting : ∀ c ∈ s.accepted.drop s.handed.length, s.sockets c.sock = some c.count
  served : ∀ w t, (s.workers w).task = some t →
    s.sockets t.conn.sock = some t.conn.count ∧ t.conn.count < s.handed.length
  held : ∀ w t, (s.workers w).task = some t → (s.workers w).owns = some t.frame →
    s.connOf t.frame = t.conn
  reads : ∀ w t fd, (s.workers w).task = some t → (s.workers w).fd = some fd →
    fd = t.conn.sock
  distinct : ∀ v w t u, (s.workers v).task = some t → (s.workers w).task = some u →
    t.conn.count = u.conn.count → v = w
  effects : ∀ e ∈ s.effects, e.target = some e.conn

/-- The frame of the worker `w` was not released, or the socket stored in it is still that of
the connection `w` works on. -/
def SockKept (s : Server) (w : Wid) : Prop :=
  ∀ t phase, s.workers w = .catching t true phase → (s.connOf t.frame).sock = t.conn.sock

/-- When `catch_req` reads the socket from a frame that was released, the frame was not filled
in for another connection in between. -/
def FrameKept (s : Server) : Action → Prop
  | .worker w .catchReadSock => s.SockKept w
  | .worker w .catchRereadSock => s.SockKept w
  | _ => True

variable {s t : Server}

/-- The number of a connection that waits for a worker is not less than the number of
connections handed to workers. -/
theorem Routed.le_count (h : s.Routed) {c : Conn} (hc : c ∈ s.accepted.drop s.handed.length) :
  s.handed.length ≤ c.count
  := by
  have hmem : c.count ∈ (List.range s.accepted.length).drop s.handed.length := by
    rw [← h.numbered, ← List.map_drop]
    apply List.mem_map_of_mem hc
  obtain ⟨i, hi, hic⟩ := List.mem_iff_getElem.mp hmem
  rw [List.getElem_drop, List.getElem_range] at hic
  omega

/-- The number of the connection to be handed to a worker next. -/
theorem Routed.count_eq (h : s.Routed) {c : Conn} {l : List Conn}
    (hc : s.accepted = s.handed ++ c :: l) :
  c.count = s.handed.length
  := by
  have hlt : s.handed.length < s.accepted.length := by
    rw [hc]
    simp
  have hget : (s.accepted.map Conn.count)[s.handed.length]? = some s.handed.length := by
    rw [h.numbered, List.getElem?_range hlt]
  rw [hc] at hget
  simpa using hget

/-- A step keeps the invariant when it leaves sockets, effects and the record of connections
alone, moves no worker but `w`, and moves `w` to a state in which it has no more to do than
before. -/
theorem Routed.of_workers (h : s.Routed) (haccepted : t.accepted = s.accepted)
    (hhanded : t.handed = s.handed) (hsockets : t.sockets = s.sockets)
    (heffects : t.effects = s.effects)
    (htcount : t.accepted.length = t.tcount + if t.acceptor = .polling then 0 else 1)
    (htask : ∀ w tk, (t.workers w).task = some tk → (s.workers w).task = some tk)
    (hheld : ∀ w tk, (t.workers w).task = some tk → (t.workers w).owns = some tk.frame →
      (s.workers w).owns = some tk.frame ∧ t.connOf tk.frame = s.connOf tk.frame)
    (hreads : ∀ w tk fd, (t.workers w).task = some tk → (t.workers w).fd = some fd →
      fd = tk.conn.sock) :
  t.Routed
  := by
  constructor
  · rw [haccepted]
    apply h.numbered
  · apply htcount
  · rw [haccepted, hhanded, hsockets]
    apply h.waiting
  · intro w tk hw
    rw [hhanded, hsockets]
    apply h.served w tk (htask w tk hw)
  · intro w tk hw hown
    obtain ⟨hown', hconn⟩ := hheld w tk hw hown
    rw [hconn]
    apply h.held w tk (htask w tk hw) hown'
  · apply hreads
  · intro v w tk u hv hw
    apply h.distinct v w tk u (htask v tk hv) (htask w u hw)
  · rw [heffects]
    apply h.effects

/-- A worker that moves to a state in which it has no more to do than before keeps the
invariant, if the socket it is going to act on is that of its connection. -/
theorem Routed.setWorker (h : s.Routed) (w : Wid) (x : Worker)
    (htask : ∀ tk, x.task = some tk → (s.workers w).task = some tk)
    (howns : ∀ f, x.owns = some f → (s.workers w).owns = some f)
    (hfd : ∀ tk fd, x.task = some tk → x.fd = some fd → fd = tk.conn.sock) :
  (s.setWorker w x).Routed
  := by
  apply h.of_workers
  · rfl
  · rfl
  · rfl
  · rfl
  · apply h.tcount
  · intro v tk
    rw [setWorker_workers]
    split
    case isTrue hv =>
        subst hv
        apply htask
    case isFalse => exact id
  · intro v tk
    rw [setWorker_workers]
    split
    case isTrue hv =>
        subst hv
        intro _ hown
        exact ⟨howns _ hown, rfl⟩
    case isFalse =>
        intro _ hown
        exact ⟨hown, rfl⟩
  · intro v tk fd
    rw [setWorker_workers]
    split
    case isTrue => apply hfd
    case isFalse => apply h.reads v tk fd

/-- A worker that sends on the socket it is to act on keeps the invariant. -/
theorem Routed.send (h : s.Routed) {w : Wid} {tk : Task} {fd : ℕ}
    (htask : (s.workers w).task = some tk) (hfd : (s.workers w).fd = some fd) :
  (s.send w tk.conn.count fd).Routed
  := by
  have heffect : s.sockets fd = some tk.conn.count := by
    rw [h.reads w tk fd htask hfd]
    apply (h.served w tk htask).1
  obtain ⟨hnumbered, htcount, hwaiting, hserved, hheld, hreads, hdistinct, heffects⟩ := h
  refine ⟨hnumbered, htcount, hwaiting, hserved, hheld, hreads, hdistinct, ?_⟩
  intro e he
  rcases List.mem_append.mp he with he | he
  · apply heffects e he
  · rw [List.mem_singleton.mp he]
    apply heffect

/-- A worker that closes the socket it is to act on, and has done its work, keeps the
invariant: the socket belongs to no other connection that waits or is worked on. -/
theorem Routed.close (h : s.Routed) {w : Wid} {tk : Task} {fd : ℕ}
    (htask : (s.workers w).task = some tk) (hfd : (s.workers w).fd = some fd) :
  ((s.close w tk.conn.count fd).setWorker w .leaving).Routed
  := by
  obtain ⟨heffect, hlt⟩ := h.served w tk htask
  rw [← h.reads w tk fd htask hfd] at heffect
  have hother : ∀ {a c}, s.sockets a = some c → c ≠ tk.conn.count →
      Function.update s.sockets fd none a = some c := by
    intro a c ha hc
    rw [Function.update_of_ne]
    · apply ha
    · rintro rfl
      apply hc
      rw [ha] at heffect
      apply Option.some.inj heffect
  have hworkers : ∀ v u, (((s.close w tk.conn.count fd).setWorker w .leaving).workers v).task
      = some u → v ≠ w ∧ (s.workers v).task = some u := by
    intro v u
    rw [setWorker_workers]
    split
    case isTrue => rintro ⟨⟩
    case isFalse hv => exact fun hu => ⟨hv, hu⟩
  have hsame : ∀ v, v ≠ w → ((s.close w tk.conn.count fd).setWorker w .leaving).workers v
      = s.workers v := by
    intro v hv
    rw [setWorker_workers, if_neg hv]
    rfl
  constructor
  · apply h.numbered
  · apply h.tcount
  · intro c hc
    apply hother (h.waiting c hc)
    have := h.le_count hc
    omega
  · intro v u hv
    obtain ⟨hne, hv⟩ := hworkers v u hv
    obtain ⟨hsock, hu⟩ := h.served v u hv
    use hother hsock fun heq => hne (h.distinct v w u tk hv htask heq)
    apply hu
  · intro v u hv hown
    obtain ⟨hne, hv⟩ := hworkers v u hv
    rw [hsame v hne] at hown
    apply h.held v u hv hown
  · intro v u a hv ha
    obtain ⟨hne, hv⟩ := hworkers v u hv
    rw [hsame v hne] at ha
    apply h.reads v u a hv ha
  · intro v v' u u' hv hv'
    apply h.distinct v v' u u' (hworkers v u hv).2 (hworkers v' u' hv').2
  · intro e he
    rcases List.mem_append.mp he with he | he
    · apply h.effects e he
    · rw [List.mem_singleton.mp he]
      apply heffect

/-! ### The acceptor -/

/-- A step of the acceptor keeps the invariant when it leaves the workers, the sockets and the
record of connections alone, and stores nothing in a frame that a worker owns. -/
theorem Routed.of_acceptor (h : s.Routed) (haccepted : t.accepted = s.accepted)
    (hhanded : t.handed = s.handed) (hsockets : t.sockets = s.sockets)
    (heffects : t.effects = s.effects) (hworkers : t.workers = s.workers)
    (htcount : t.accepted.length = t.tcount + if t.acceptor = .polling then 0 else 1)
    (hconn : ∀ w f, (s.workers w).owns = some f → t.connOf f = s.connOf f) :
  t.Routed
  := by
  apply h.of_workers haccepted hhanded hsockets heffects htcount
  · intro w tk
    rw [hworkers]
    exact id
  · intro w tk
    rw [hworkers]
    exact fun _ hown => ⟨hown, hconn w tk.frame hown⟩
  · intro w tk fd
    rw [hworkers]
    apply h.reads w tk fd

/-- Signalling gives no worker anything to do. -/
theorem Routed.signalAll (h : s.Routed) :
  s.signalAll.Routed
  := by
  have hworkers : ∀ w tk, (s.signalAll.workers w).task = some tk →
      s.signalAll.workers w = s.workers w := by
    intro w tk
    simp only [Server.signalAll]
    split
    case isTrue => rintro ⟨⟩
    case isFalse => exact fun _ => rfl
  refine h.of_workers rfl rfl rfl rfl h.tcount ?_ ?_ ?_
  · intro w tk hw
    have heq := hworkers w tk hw
    rwa [heq] at hw
  · intro w tk hw hown
    rw [hworkers w tk hw] at hown
    exact ⟨hown, rfl⟩
  · intro w tk fd hw hfd
    have heq := hworkers w tk hw
    rw [heq] at hw hfd
    apply h.reads w tk fd hw hfd

/-- While the acceptor is in `process_http`, the connections accepted are one more than
`tcount`. -/
theorem Routed.length_accepted (h : s.Routed) (hacc : s.acceptor ≠ .polling) :
  s.accepted.length = s.tcount + 1
  := by
  have := h.tcount
  rwa [if_neg hacc] at this

/-- `accept` returns a socket that was closed, and the connection gets the next number. -/
theorem Routed.accept {fd rport : ℕ} {ipaddr : List UInt8} {pool queue : List Addr}
    (h : s.Routed) (hq : s.InOrder pool queue) (hacc : s.acceptor = .polling)
    (hfd : s.sockets fd = none) :
  Routed { s with
    acceptor := .accepted ⟨fd, ipaddr, rport, s.tcount⟩
    sockets := Function.update s.sockets fd (some s.tcount)
    accepted := s.accepted ++ [⟨fd, ipaddr, rport, s.tcount⟩] }
  := by
  have hlen : s.accepted.length = s.tcount := by
    have := h.tcount
    rwa [if_pos hacc] at this
  have hhanded : s.handed.length ≤ s.accepted.length := by
    rw [← hq.order]
    simp only [List.length_append]
    omega
  have hother : ∀ {a c}, s.sockets a = some c →
      Function.update s.sockets fd (some s.tcount) a = some c := by
    intro a c ha
    rw [Function.update_of_ne]
    · apply ha
    · rintro rfl
      rw [hfd] at ha
      cases ha
  constructor
  · simp only [List.map_append, h.numbered, List.map_singleton, List.length_append,
      List.length_singleton, List.range_succ, hlen]
  · simp [hlen]
  · intro c hc
    rw [List.drop_append_of_le_length hhanded] at hc
    rcases List.mem_append.mp hc with hc | hc
    · apply hother (h.waiting c hc)
    · rw [List.mem_singleton.mp hc]
      apply Function.update_self
  · intro w tk hw
    obtain ⟨hsock, hlt⟩ := h.served w tk hw
    use hother hsock
  · apply h.held
  · apply h.reads
  · apply h.distinct
  · apply h.effects

/-- Every step of the acceptor keeps the invariant. -/
theorem Routed.acceptorStep {act : AcceptorAction} {pool queue : List Addr} (h : s.Routed)
    (hq : s.InOrder pool queue) (hstep : s.acceptorStep act = some t) :
  t.Routed
  := by
  revert hstep
  fun_cases Server.acceptorStep s act
  case case1 fd ipaddr rport hacc hfd c =>
      rintro ⟨⟩
      apply h.accept hq hacc hfd
  case case2 => rintro ⟨⟩
  case case3 a c hacc =>
      intro hstep
      obtain ⟨⟨f, m⟩, hget, rfl⟩ := Option.map_eq_some_iff.mp hstep
      obtain ⟨hcell, -⟩ := hq.separated.getFrame hget
      refine h.of_acceptor rfl rfl rfl rfl rfl ?_ ?_
      · apply h.length_accepted
        simp [hacc]
      · intro w f _
        simp only [connOf, hcell]
  case case4 f c field hacc =>
      rintro ⟨⟩
      refine h.of_acceptor rfl rfl rfl rfl rfl ?_ ?_
      · have hne : afterStore f c field ≠ .polling := by cases field <;> simp [afterStore]
        simp only [if_neg hne]
        apply h.length_accepted
        simp [hacc]
      · intro w b hw
        simp only [connOf, Frames.setConn_toConn]
        rw [if_neg]
        rintro rfl
        cases hq.unique (.worker w) .acceptor b hw (by simp [owns, hacc, Acceptor.owns])
  case case5 f c hacc s' hbusy =>
      intro hstep
      obtain rfl := Option.some.inj hstep
      apply Routed.setWorker
      · refine h.of_acceptor rfl rfl rfl rfl rfl ?_ ?_
        · apply h.length_accepted
          simp [hacc]
        · exact fun _ _ _ => rfl
      · rintro tk ⟨⟩
      · rintro f ⟨⟩
      · rintro tk fd ⟨⟩
  case case6 f c hacc s' hbusy =>
      intro hstep
      obtain rfl := Option.some.inj hstep
      refine h.of_acceptor rfl rfl rfl rfl rfl ?_ ?_
      · apply h.length_accepted
        simp [hacc]
      · exact fun _ _ _ => rfl
  case case7 f c hacc s' hempty =>
      intro hstep
      obtain rfl := Option.some.inj hstep
      apply Routed.signalAll
      refine h.of_acceptor rfl rfl rfl rfl rfl ?_ ?_
      · apply h.length_accepted
        simp [hacc]
      · intro w b _
        apply Frames.enqueueFrame_toConn
  case case8 f c hacc s' hempty =>
      intro hstep
      obtain rfl := Option.some.inj hstep
      refine h.of_acceptor rfl rfl rfl rfl rfl ?_ ?_
      · apply h.length_accepted
        simp [hacc]
      · intro w b _
        apply Frames.enqueueFrame_toConn
  case case9 hacc =>
      rintro ⟨⟩
      refine h.of_acceptor rfl rfl rfl rfl rfl ?_ ?_
      · apply h.length_accepted
        simp [hacc]
      · exact fun _ _ _ => rfl
  case case10 => rintro ⟨⟩

/-! ### The workers -/

/-- The connection a worker takes from the queue has a number of its own, and its socket is
open. -/
theorem Routed.dequeueStep {w : Wid} {pool queue : List Addr} (h : s.Routed)
    (hq : s.InOrder pool queue) (hstep : s.dequeueStep w = some t) :
  t.Routed
  := by
  obtain ⟨⟨f, m⟩, hdeq, rfl⟩ := Option.map_eq_some_iff.mp hstep
  obtain ⟨hcell, -, queue', rfl, -⟩ := hq.separated.dequeue hdeq
  have haccepted : s.accepted
      = s.handed ++ s.connOf f :: (queue'.map s.connOf ++ s.acceptor.inHand) := by
    rw [← hq.order]
    simp
  have hcount : (s.connOf f).count = s.handed.length := h.count_eq haccepted
  have hdrop : s.accepted.drop s.handed.length
      = s.connOf f :: (queue'.map s.connOf ++ s.acceptor.inHand) := by
    rw [haccepted, List.drop_left]
  have hconn : Server.connOf { s with frames := m } = s.connOf := by
    funext b
    simp only [connOf, hcell]
  constructor
  · apply h.numbered
  · apply h.tcount
  · intro c hc
    apply h.waiting c
    rw [hdrop]
    have hsplit : s.accepted
        = (s.handed ++ [s.connOf f]) ++ (queue'.map s.connOf ++ s.acceptor.inHand) := by
      rw [haccepted]
      simp
    have hrest : s.accepted.drop (s.handed ++ [s.connOf f]).length
        = queue'.map s.connOf ++ s.acceptor.inHand := by
      rw [hsplit, List.drop_left]
    apply List.mem_cons_of_mem
    rw [← hrest]
    apply hc
  · intro v tk
    rw [setWorker_workers]
    split
    case isTrue hv =>
        rintro ⟨⟩
        constructor
        · apply h.waiting
          rw [hdrop]
          apply List.mem_cons_self
        · show (s.connOf f).count < (s.handed ++ [s.connOf f]).length
          simp [hcount]
    case isFalse hv =>
        intro htask
        obtain ⟨hsock, hlt⟩ := h.served v tk htask
        use hsock
        show tk.conn.count < (s.handed ++ [s.connOf f]).length
        simp only [List.length_append, List.length_singleton]
        omega
  · intro v tk
    rw [setWorker_workers]
    show _ → _ → Server.connOf { s with frames := m } tk.frame = tk.conn
    rw [hconn]
    split
    case isTrue hv =>
        rintro ⟨⟩ -
        rfl
    case isFalse hv => apply h.held v tk
  · intro v tk fd
    rw [setWorker_workers]
    split
    case isTrue hv => rintro - ⟨⟩
    case isFalse hv => apply h.reads v tk fd
  · intro v v' tk tk'
    rw [setWorker_workers, setWorker_workers]
    split
    case isTrue hv =>
        rintro ⟨⟩
        split
        case isTrue hv' =>
            intro _ _
            rw [hv, hv']
        case isFalse hv' =>
            intro htask heq
            have hlt := (h.served v' tk' htask).2
            rw [← heq] at hlt
            exact absurd hcount (Nat.ne_of_lt hlt)
    case isFalse hv =>
        intro htask
        split
        case isTrue hv' =>
            rintro ⟨⟩ heq
            have hlt := (h.served v tk htask).2
            rw [heq] at hlt
            exact absurd hcount (Nat.ne_of_lt hlt)
        case isFalse hv' =>
            intro htask' heq
            apply h.distinct v v' tk tk' htask htask' heq
  · apply h.effects

/-- In `catch_req` the frame holds the socket of the worker's connection: if it was not
released the worker still owns it, and otherwise by the condition. -/
theorem Routed.sock_of_catching {w : Wid} {tk : Task} {released : Bool} {phase : CatchPhase}
    (h : s.Routed) (hw : s.workers w = .catching tk released phase) (hkept : s.SockKept w) :
  (s.connOf tk.frame).sock = tk.conn.sock
  := by
  cases released with
  | true => apply hkept tk phase hw
  | false =>
      have := h.held w tk (by rw [hw]; rfl) (by rw [hw]; rfl)
      rw [this]

/-- Every step of a worker that meets the condition keeps the invariant. -/
theorem Routed.workerStep {w : Wid} {act : WorkerAction} {pool queue : List Addr} (h : s.Routed)
    (hq : s.InOrder pool queue) (hkept : s.FrameKept (.worker w act))
    (hstep : s.workerStep w act = some t) :
  t.Routed
  := by
  revert hstep
  fun_cases Server.workerStep s w act
  case case2 seen hw =>
      rintro ⟨⟩
      apply Routed.setWorker
      · exact h.of_acceptor rfl rfl rfl rfl rfl h.tcount fun _ _ _ => rfl
      all_goals simp [Worker.task, Worker.owns]
  case case8 hw => apply h.dequeueStep hq
  case case9 hw => apply h.dequeueStep hq
  case case10 tk hw =>
      rintro ⟨⟩
      apply h.setWorker <;> simp only [hw, Worker.task, Worker.owns, Worker.fd]
      · exact fun _ htask => htask
      · exact fun _ hown => hown
      · rintro tk' fd ⟨⟩ ⟨⟩
        have := h.held w tk (by rw [hw]; rfl) (by rw [hw]; rfl)
        exact congrArg Conn.sock this
  case case14 tk sock host port hw =>
      rintro ⟨⟩
      have hreads := h.reads w tk sock (by rw [hw]; rfl) (by rw [hw]; rfl)
      apply Routed.setWorker
      · refine h.of_acceptor rfl rfl rfl rfl rfl h.tcount ?_
        intro v f _
        apply Frames.releaseFrame_toConn
      · simp [hw, Worker.task]
      · simp [Worker.owns]
      · rintro tk' fd ⟨⟩ ⟨⟩
        apply hreads
  case case15 tk sock host port hw =>
      rintro ⟨⟩
      apply h.send
      · rw [hw]
        rfl
      · rw [hw]
        rfl
  case case16 tk sock host port hw =>
      rintro ⟨⟩
      apply h.close
      · rw [hw]
        rfl
      · rw [hw]
        rfl
  case case19 tk released hw =>
      rintro ⟨⟩
      apply h.setWorker <;> simp only [hw, Worker.task, Worker.owns, Worker.fd]
      · exact fun _ htask => htask
      · exact fun _ hown => hown
      · rintro tk' fd ⟨⟩ ⟨⟩
        apply h.sock_of_catching hw hkept
  case case20 tk released fd hw =>
      rintro ⟨⟩
      apply h.send
      · rw [hw]
        rfl
      · rw [hw]
        rfl
  case case22 tk released hw =>
      rintro ⟨⟩
      apply h.setWorker <;> simp only [hw, Worker.task, Worker.owns, Worker.fd]
      · exact fun _ htask => htask
      · exact fun _ hown => hown
      · rintro tk' fd ⟨⟩ ⟨⟩
        apply h.sock_of_catching hw hkept
  case case23 tk released fd hw =>
      rintro ⟨⟩
      apply h.close
      · rw [hw]
        rfl
      · rw [hw]
        rfl
  case case25 busy hw =>
      rintro ⟨⟩
      apply Routed.setWorker
      · exact h.of_acceptor rfl rfl rfl rfl rfl h.tcount fun _ _ _ => rfl
      all_goals simp [Worker.task, Worker.owns]
  -- the other steps read no socket
  all_goals
    rintro ⟨⟩
    try
      have hreads := h.reads w
      apply h.setWorker <;> simp_all [Worker.task, Worker.owns, Worker.fd]

/-! ### Runs -/

theorem Routed.step {act : Action} {pool queue : List Addr} (h : s.Routed)
    (hq : s.InOrder pool queue) (hkept : s.FrameKept act) (hstep : s.step act = some t) :
  t.Routed
  := by
  cases act with
  | acceptor act => apply h.acceptorStep hq hstep
  | worker w act => apply h.workerStep hq hkept hstep

/-- The invariant holds when the server starts. -/
theorem Routed.start (junk : Addr → RFrame) (maxThreads n : ℕ) :
  (Server.start junk maxThreads n).Routed
  := by
  have htask : ∀ w, ((Server.start junk maxThreads n).workers w).task = none := by
    intro w
    simp only [Server.start]
    split <;> rfl
  constructor
  · rfl
  · rfl
  · rintro c ⟨⟩
  · intro w tk hw
    rw [htask] at hw
    cases hw
  · intro w tk hw
    rw [htask] at hw
    cases hw
  · intro w tk fd hw
    rw [htask] at hw
    cases hw
  · intro v w tk u hv
    rw [htask] at hv
    cases hv
  · rintro e ⟨⟩

end Server

/-- In every run in which no frame is filled in for another connection between its release and
the reads of its socket by `catch_req`, every byte a worker sends and every close it performs
goes to the socket of the connection it took from the queue. -/
theorem acts_on_own_connection (junk : Addr → RFrame) (maxThreads n : ℕ) (acts : List Action)
    (s : Server) (hrun : run Server.step (Server.start junk maxThreads n) acts = some s)
    (hkept : Meets Server.step Server.FrameKept (Server.start junk maxThreads n) acts) :
  ∀ e ∈ s.effects, e.target = some e.conn
  := by
  have hinv := run_invariant_of_meets
    (I := fun s : Server => s.Routed ∧ ∃ pool queue, s.InOrder pool queue)
    (fun s act t ⟨h, pool, queue, hq⟩ hok hstep => ⟨h.step hq hok hstep, hq.step hstep⟩)
    ⟨Server.Routed.start junk maxThreads n, [], [], Server.InOrder.start junk maxThreads n⟩
    hkept hrun
  apply hinv.1.effects

/-- One worker takes the connection on socket 5 and its responder raises, while the frame still
lies in the pool: the error message goes to that connection, and so does the close. -/
theorem acts_on_own_connection_catch :
  ∃ s, run Server.step (Server.start (fun _ => ⟨⟨0, [], 0, 0⟩, none⟩) 1 1)
        (startWorker 0 ++ passConnection 5 100 ++ takeConnection 0 ++ failRequest 0) = some s ∧
    s.effects.length = 2 ∧ ∀ e ∈ s.effects, e.target = some e.conn
  := by
  refine ⟨_, rfl, rfl, acts_on_own_connection _ 1 1
    (startWorker 0 ++ passConnection 5 100 ++ takeConnection 0 ++ failRequest 0) _ rfl ?_⟩
  apply meets_append.mpr
  constructor
  · apply meets_of_forall
    intro s act hact
    simp only [startWorker, passConnection, takeConnection, List.cons_append, List.nil_append,
      List.mem_cons, List.not_mem_nil, or_false] at hact
    rcases hact with rfl | rfl | rfl | rfl | rfl | rfl | rfl | rfl | rfl | rfl | rfl | rfl | rfl |
      rfl | rfl | rfl <;> trivial
  · intro s hs
    obtain rfl := Option.some.inj hs
    use trivial
    rintro s ⟨⟩
    constructor
    · rintro t phase ⟨⟩
      rfl
    rintro s ⟨⟩
    use trivial
    rintro s ⟨⟩
    use trivial
    rintro s ⟨⟩
    constructor
    · rintro t phase ⟨⟩
      rfl
    rintro s ⟨⟩
    use trivial
    rintro s ⟨⟩
    trivial

/-- The responder of the connection on socket 5 raises after its frame was filled in for the
connection on socket 6: the error message goes to the latter. -/
theorem sends_to_other_connection :
  ¬ ∀ (junk : Addr → RFrame) (maxThreads n : ℕ) (acts : List Action) (s : Server),
    run Server.step (Server.start junk maxThreads n) acts = some s →
      ∀ e ∈ s.effects, e.target = some e.conn
  := by
  intro h
  have heffects : (run Server.step (Server.start (fun _ => ⟨⟨0, [], 0, 0⟩, none⟩) 1 1)
      (startWorker 0 ++ passConnection 5 100 ++ takeConnection 0 ++ passConnection 6 101
        ++ failRequest 0)).map Server.effects
      = some [⟨0, .sent, 0, some 1⟩, ⟨0, .closed, 0, some 1⟩] := by decide
  obtain ⟨s, hs, he⟩ := Option.map_eq_some_iff.mp heffects
  have := h _ _ _ _ s hs ⟨0, .sent, 0, some 1⟩ (by simp [he])
  cases this

end Gusher
