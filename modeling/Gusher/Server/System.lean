import Gusher.Library.Run
import Mathlib.Data.Int.Notation
import Gusher.Server.Frame

/-!
# The threaded server

The threads of a gusher in threaded mode: the acceptor, which is the main thread in
`process_http`, and the workers, each of which runs `dispatcher`.  A section under `qmutex` or
`pmutex` is one action, and so is each access to a field of a frame outside of them.

The server keeps a record of what has happened, which the program does not have: the
connections accepted (`accepted`), the connections handed to workers (`handed`), and every
byte sent and every close (`effects`).  The kernel's table `sockets` tells which connection,
by its number in the order of acceptance, a socket belongs to; a closed socket may be given to
a later connection.
-/

namespace Gusher

/-- A worker, by its number in the order of creation. -/
abbrev Wid := ℕ

/-- What a worker works on: the frame it took from the queue, and the connection that frame
described when it was taken. -/
structure Task where
  frame : Addr
  conn : Conn
  deriving DecidableEq

/-- Where `catch_req` stands.  It reads `frame->sock` once to send the error message, and once
again to close the socket. -/
inductive CatchPhase where
  | entered
  | sending (fd : ℕ)
  | sent
  | closing (fd : ℕ)
  deriving DecidableEq

/-- Where a worker stands. -/
inductive Worker where
  /-- not created -/
  | unborn
  /-- in `dispatcher`, before `qcondvars` is read -/
  | starting
  /-- `qcondvars` was read, and is about to be written -/
  | pushing (seen : List Wid)
  /-- at the head of the loop -/
  | idle
  /-- blocked in the timed wait -/
  | waiting
  /-- signalled or timed out, about to take `qmutex` again -/
  | woken
  /-- in `process_request`, before `sock = frame->sock` -/
  | dequeued (t : Task)
  /-- in `process_request`, before `release_frame`, with what was read of the frame -/
  | building (t : Task) (sock : ℕ) (host : Option (List UInt8)) (port : Option ℕ)
  /-- in `process_request`, after `release_frame` -/
  | responding (t : Task) (sock : ℕ) (host : List UInt8) (port : ℕ)
  /-- in `catch_req`; `released` tells whether the frame was released before -/
  | catching (t : Task) (released : Bool) (phase : CatchPhase)
  /-- before `busy_threads` is read to be decremented -/
  | leaving
  /-- `busy_threads` was read, and is about to be written -/
  | decrementing (busy : ℤ)
  deriving DecidableEq

/-- The field of the frame that `process_http` stores next. -/
inductive Fill where
  | sock
  | ipaddr
  | rport
  | count
  deriving DecidableEq

/-- Where the acceptor stands. -/
inductive Acceptor where
  /-- not in `process_http` -/
  | polling
  /-- before `get_frame` -/
  | accepted (c : Conn)
  /-- before the store of a field -/
  | filling (f : Addr) (c : Conn) (field : Fill)
  /-- before `busy_threads` is compared with `nthreads` -/
  | filled (f : Addr) (c : Conn)
  /-- before `enqueue_frame` -/
  | threaded (f : Addr) (c : Conn)
  /-- before `tcount++` -/
  | enqueued
  deriving DecidableEq

/-- The two ways a worker acts on a socket. -/
inductive EffectKind where
  | sent
  | closed
  deriving DecidableEq

/-- A byte sent or a close by a worker: the number of the connection it works on, and the
number of the connection whose socket it acted on, if the socket was open. -/
structure Effect where
  worker : Wid
  kind : EffectKind
  conn : ℕ
  target : Option ℕ
  deriving DecidableEq

/-- The state of the server. -/
structure Server where
  frames : Frames
  tcount : ℕ
  nthreads : ℕ
  maxThreads : ℕ
  busyThreads : ℤ
  qcondvars : List Wid
  acceptor : Acceptor
  workers : Wid → Worker
  sockets : ℕ → Option ℕ
  accepted : List Conn
  handed : List Conn
  effects : List Effect

/-- The actions of the acceptor. -/
inductive AcceptorAction where
  /-- `accept` returns the socket `fd` -/
  | accept (fd : ℕ) (ipaddr : List UInt8) (rport : ℕ)
  /-- `get_frame`, where `malloc` returns `a` if it is called -/
  | getFrame (a : Addr)
  | store
  | addThread
  | enqueueFrame
  | incrTcount
  deriving DecidableEq

/-- The actions of a worker. -/
inductive WorkerAction where
  | readCondvars
  | pushCondvar
  | wait
  | timeout
  /-- the queue is empty after the wait -/
  | again
  | dequeue
  | readSock
  /-- the peer closed the connection, or a read failed, before the header block ended -/
  | abandon
  | readIpaddr
  | readRport
  | releaseFrame
  | send
  | close
  /-- an exception enters `catch_req` -/
  | throw
  | catchReadSock
  | catchSend
  | catchSent
  | catchRereadSock
  | catchClose
  | readBusy
  | writeBusy
  deriving DecidableEq

/-- The actions of the server. -/
inductive Action where
  | acceptor (a : AcceptorAction)
  | worker (w : Wid) (a : WorkerAction)
  deriving DecidableEq

namespace Server

/-- The worker `w` moves to `x`. -/
def setWorker (s : Server) (w : Wid) (x : Worker) : Server :=
  { s with workers := Function.update s.workers w x }

/-- The worker `w`, working on the connection number `c`, sends on the socket `fd`. -/
def send (s : Server) (w : Wid) (c fd : ℕ) : Server :=
  { s with effects := s.effects ++ [⟨w, .sent, c, s.sockets fd⟩] }

/-- The worker `w`, working on the connection number `c`, closes the socket `fd`. -/
def close (s : Server) (w : Wid) (c fd : ℕ) : Server :=
  { s with
    effects := s.effects ++ [⟨w, .closed, c, s.sockets fd⟩]
    sockets := Function.update s.sockets fd none }

/-- `scm_signal_condition_variable` for every condition variable of `qcondvars`. -/
def signalAll (s : Server) : Server :=
  { s with
    workers := fun w =>
      if s.workers w = .waiting ∧ w ∈ s.qcondvars then .woken else s.workers w }

/-- The store of a field by `process_http`.  The number `c.count` is `tcount`, which does not
change between `accept` and `tcount++`. -/
def storeField (c : Conn) : Fill → Conn → Conn
  | .sock, d => { d with sock := c.sock }
  | .ipaddr, d => { d with ipaddr := c.ipaddr }
  | .rport, d => { d with rport := c.rport }
  | .count, d => { d with count := c.count }

/-- Where the acceptor stands after the store of a field. -/
def afterStore (f : Addr) (c : Conn) : Fill → Acceptor
  | .sock => .filling f c .ipaddr
  | .ipaddr => .filling f c .rport
  | .rport => .filling f c .count
  | .count => .filled f c

/-- The acceptor: `process_http`, with `get_frame`, `add_thread` and `enqueue_frame`. -/
def acceptorStep (s : Server) (act : AcceptorAction) : Option Server :=
  match act, s.acceptor with
  | .accept fd ipaddr rport, .polling =>
      if s.sockets fd = none then
        let c : Conn := ⟨fd, ipaddr, rport, s.tcount⟩
        some { s with
          acceptor := .accepted c
          sockets := Function.update s.sockets fd (some s.tcount)
          accepted := s.accepted ++ [c] }
      else none
  | .getFrame a, .accepted c =>
      (s.frames.getFrame a).map (fun r =>
        { s with frames := r.2, acceptor := .filling r.1 c .sock })
  | .store, .filling f c field =>
      some { s with
        frames := s.frames.setConn f (storeField c field)
        acceptor := afterStore f c field }
  | .addThread, .filled f c =>
      let s := { s with acceptor := .threaded f c }
      if s.busyThreads ≥ s.nthreads ∧ s.nthreads < s.maxThreads then
        some ({ s with nthreads := s.nthreads + 1 }.setWorker s.nthreads .starting)
      else some s
  | .enqueueFrame, .threaded f _ =>
      let t := { s with frames := s.frames.enqueueFrame f, acceptor := .enqueued }
      -- `need_sig`: the queue was empty
      if s.frames.reqQueue = none then some t.signalAll else some t
  | .incrTcount, .enqueued =>
      some { s with acceptor := .polling, tcount := s.tcount + 1 }
  | _, _ => none

/-- The section of `dispatcher` under `qmutex` that takes a frame. -/
def dequeueStep (s : Server) (w : Wid) : Option Server :=
  s.frames.dequeue.map (fun r =>
    let c := (s.frames.cell r.1).toConn
    { s with
      frames := r.2
      busyThreads := s.busyThreads + 1
      handed := s.handed ++ [c] }.setWorker w (.dequeued ⟨r.1, c⟩))

/-- A worker: `dispatcher`, with `process_request`, `release_frame` and `catch_req`. -/
def workerStep (s : Server) (w : Wid) (act : WorkerAction) : Option Server :=
  match act, s.workers w with
  | .readCondvars, .starting => some (s.setWorker w (.pushing s.qcondvars))
  | .pushCondvar, .pushing seen => some ({ s with qcondvars := w :: seen }.setWorker w .idle)
  | .wait, .idle => if s.frames.reqQueue = none then some (s.setWorker w .waiting) else none
  | .timeout, .waiting => some (s.setWorker w .woken)
  | .again, .woken => if s.frames.reqQueue = none then some (s.setWorker w .idle) else none
  | .dequeue, .idle => s.dequeueStep w
  | .dequeue, .woken => s.dequeueStep w
  | .readSock, .dequeued t =>
      some (s.setWorker w (.building t (s.frames.cell t.frame).sock none none))
  | .abandon, .building _ _ none none => some (s.setWorker w .leaving)
  | .readIpaddr, .building t sock none port =>
      some (s.setWorker w (.building t sock (some (s.frames.cell t.frame).ipaddr) port))
  | .readRport, .building t sock (some host) none =>
      some (s.setWorker w (.building t sock (some host) (some (s.frames.cell t.frame).rport)))
  | .releaseFrame, .building t sock (some host) (some port) =>
      some ({ s with frames := s.frames.releaseFrame t.frame }.setWorker w
        (.responding t sock host port))
  | .send, .responding t sock _ _ => some (s.send w t.conn.count sock)
  | .close, .responding t sock _ _ => some ((s.close w t.conn.count sock).setWorker w .leaving)
  | .throw, .building t _ _ _ => some (s.setWorker w (.catching t false .entered))
  | .throw, .responding t _ _ _ => some (s.setWorker w (.catching t true .entered))
  | .catchReadSock, .catching t released .entered =>
      some (s.setWorker w (.catching t released (.sending (s.frames.cell t.frame).sock)))
  | .catchSend, .catching t _ (.sending fd) => some (s.send w t.conn.count fd)
  | .catchSent, .catching t released (.sending _) =>
      some (s.setWorker w (.catching t released .sent))
  | .catchRereadSock, .catching t released .sent =>
      some (s.setWorker w (.catching t released (.closing (s.frames.cell t.frame).sock)))
  | .catchClose, .catching t _ (.closing fd) =>
      some ((s.close w t.conn.count fd).setWorker w .leaving)
  | .readBusy, .leaving => some (s.setWorker w (.decrementing s.busyThreads))
  | .writeBusy, .decrementing busy =>
      some ({ s with busyThreads := busy - 1 }.setWorker w .idle)
  | _, _ => none

def step (s : Server) : Action → Option Server
  | .acceptor act => s.acceptorStep act
  | .worker w act => s.workerStep w act

/-- The server when `main` enters its loop: `n` workers are starting, no frame was given out
yet, and the cells hold what they happen to hold. -/
def start (junk : Addr → RFrame) (maxThreads n : ℕ) : Server where
  frames := ⟨junk, [], none, none, none⟩
  tcount := 0
  nthreads := n
  maxThreads := maxThreads
  busyThreads := 0
  qcondvars := []
  acceptor := .polling
  workers := fun w => if w < n then .starting else .unborn
  sockets := fun _ => none
  accepted := []
  handed := []
  effects := []

end Server

/-! ### Courses of a request -/

/-- A worker enters the loop of `dispatcher`. -/
def startWorker (w : Wid) : List Action :=
  [.worker w .readCondvars, .worker w .pushCondvar]

/-- The acceptor passes the connection on the socket `fd` to the workers; `a` is the address
`malloc` returns if it is called. -/
def passConnection (fd : ℕ) (a : Addr) : List Action :=
  [.acceptor (.accept fd [] 80), .acceptor (.getFrame a), .acceptor .store, .acceptor .store,
    .acceptor .store, .acceptor .store, .acceptor .addThread, .acceptor .enqueueFrame,
    .acceptor .incrTcount]

/-- A worker takes a connection and builds the request, up to the call of the responder. -/
def takeConnection (w : Wid) : List Action :=
  [.worker w .dequeue, .worker w .readSock, .worker w .readIpaddr, .worker w .readRport,
    .worker w .releaseFrame]

/-- The request of a worker raises, and `catch_req` answers. -/
def failRequest (w : Wid) : List Action :=
  [.worker w .throw, .worker w .catchReadSock, .worker w .catchSend, .worker w .catchSent,
    .worker w .catchRereadSock, .worker w .catchClose]

end Gusher
