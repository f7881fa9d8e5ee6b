import Gusher.Server.Ownership
import Gusher.Server.Threads

/-!
# Closing the socket and releasing the frame

A request ends in `process_request` or in `catch_req`.  Only the normal end does both parts of the
clean-up: `process_request` returns without them when the peer closes the connection before the
header block ends, and `catch_req` closes the socket, but does not release a frame that
`process_request` has not released yet (`socket_left_open`).  When the requests end in
no other way than normally, or by an exception after the release, and `catch_req` still finds the
socket in the frame, then every connection is closed once, and its frame is put back into the pool
once (`cleaned_up`).
-/

namespace Gusher

open Run

def Worker.released : Worker → Bool
  | .responding _ _ _ _ => true
  | .catching _ released _ => released
  | _ => false

/-- A worker is in `catch_req`, and its frame was not released. -/
def Worker.leaks : Worker → Bool
  | .catching _ released _ => !released
  | _ => false

namespace Server

/-- How many times the socket of a connection was closed, or its worker closed another one. -/
def closes (s : Server) (k : ℕ) : ℕ :=
  s.effects.countP fun e => e.kind = .closed ∧ (e.conn = k ∨ e.target = some k)

/-- The connection whose frame an action puts back into the pool. -/
def putBackBy (s : Server) : Action → List ℕ
  | .worker w .releaseFrame => ((s.workers w).task.map fun tk => tk.conn.count).toList
  | _ => []

/-- The connections whose frames are put back into the pool in a run, in this order. -/
def putBack : Server → List Action → List ℕ
  | _, [] => []
  | s, act :: acts => s.putBackBy act ++ (s.step act).elim [] fun t => putBack t acts

/-- Every connection that was handed to a worker, and on which no worker works any more, was closed
once, and its frame was put back once. -/
def CleanedUp (s : Server) (put : List ℕ) : Prop :=
  ∀ c ∈ s.handed, (∀ w tk, (s.workers w).task = some tk → tk.conn.count ≠ c.count) →
    s.closes c.count = 1 ∧ put.count c.count = 1

/-- The condition on the steps: no worker leaves `process_request` before the header block has ended,
no exception is raised before the frame is released, and when `catch_req` reads the socket from a
frame, the frame was not filled in for another connection. -/
def EndsWell (s : Server) (act : Action) : Prop :=
  match act with
  | .worker _ .abandon => False
  | .worker w .throw => (s.workers w).released = true
  | act => s.FrameKept act

/-- How a step of the worker `w`, which moves it to `x`, treats the connection that it works on. -/
inductive Handled (s t : Server) (w : Wid) : WorkerAction → Worker → Prop where
  | take (tk : Task) (hold : (s.workers w).task = none) (hhanded : t.handed = s.handed ++ [tk.conn])
      (haccepted : t.accepted = s.accepted) (heffects : t.effects = s.effects) :
      Handled s t w .dequeue (.dequeued tk)
  | put (tk : Task) (sock : ℕ) (host : List UInt8) (port : ℕ)
      (hold : s.workers w = .building tk sock (some host) (some port))
      (hhanded : t.handed = s.handed) (heffects : t.effects = s.effects) :
      Handled s t w .releaseFrame (.responding tk sock host port)
  | close (act : WorkerAction) (tk : Task) (target : Option ℕ) (hact : act ≠ .releaseFrame)
      (hold : (s.workers w).task = some tk)
      (hdone : (s.workers w).released = true ∨ (s.workers w).leaks = true)
      (hhanded : t.handed = s.handed)
      (heffects : t.effects = s.effects ++ [⟨w, .closed, tk.conn.count, target⟩]) :
      Handled s t w act .leaving
  | abandon : Handled s t w .abandon .leaving
  | throw (x : Worker) (hold : (s.workers w).released = false) : Handled s t w .throw x
  | other (act : WorkerAction) (x : Worker) (hact : act ≠ .releaseFrame)
      (htask : x.task = (s.workers w).task) (hreleased : x.released = (s.workers w).released)
      (hleaks : x.leaks = (s.workers w).leaks) (hhanded : t.handed = s.handed)
      (heffects : t.effects = s.effects
        ∨ ∃ k target, t.effects = s.effects ++ [⟨w, .sent, k, target⟩]) :
      Handled s t w act x

variable {s t : Server} {w : Wid}

/-- A step of a worker moves this worker only. -/
theorem handled_of_workerStep {act : WorkerAction} (hstep : s.workerStep w act = some t) :
  ∃ x, t.workers = Function.update s.workers w x ∧ s.Handled t w act x
  := by
  have hdequeue : ∀ {t}, (s.workers w).task = none → s.dequeueStep w = some t →
      ∃ x, t.workers = Function.update s.workers w x ∧ s.Handled t w .dequeue x := by
    intro t hw hdeq
    obtain ⟨r, -, rfl⟩ := Option.map_eq_some_iff.mp hdeq
    exact ⟨_, rfl, .take _ hw rfl rfl rfl⟩
  revert hstep
  fun_cases Server.workerStep s w act
  case case3 hw _ =>
      rintro ⟨⟩
      refine ⟨_, rfl, .other _ _ (by rintro ⟨⟩) ?_ ?_ ?_ rfl (Or.inl rfl)⟩ <;>
        rw [hw] <;> rfl
  case case6 hw _ =>
      rintro ⟨⟩
      refine ⟨_, rfl, .other _ _ (by rintro ⟨⟩) ?_ ?_ ?_ rfl (Or.inl rfl)⟩ <;>
        rw [hw] <;> rfl
  case case8 hw => exact hdequeue (by rw [hw]; rfl)
  case case9 hw => exact hdequeue (by rw [hw]; rfl)
  case case11 =>
      rintro ⟨⟩
      exact ⟨_, rfl, .abandon⟩
  case case14 tk sock host port hw =>
      rintro ⟨⟩
      exact ⟨_, rfl, .put tk sock host port hw rfl rfl⟩
  case case15 tk sock host port hw =>
      rintro ⟨⟩
      refine ⟨s.workers w, (Function.update_eq_self w s.workers).symm, ?_⟩
      exact .other _ _ (by rintro ⟨⟩) rfl rfl rfl rfl (Or.inr ⟨_, _, rfl⟩)
  case case16 tk sock host port hw =>
      rintro ⟨⟩
      refine ⟨_, rfl, .close _ tk _ (by rintro ⟨⟩) ?_ (Or.inl ?_) rfl rfl⟩ <;>
        rw [hw] <;> rfl
  case case17 tk sock host port hw =>
      rintro ⟨⟩
      exact ⟨_, rfl, .throw _ (by rw [hw]; rfl)⟩
  case case20 tk released fd hw =>
      rintro ⟨⟩
      refine ⟨s.workers w, (Function.update_eq_self w s.workers).symm, ?_⟩
      exact .other _ _ (by rintro ⟨⟩) rfl rfl rfl rfl (Or.inr ⟨_, _, rfl⟩)
  case case23 tk released fd hw =>
      rintro ⟨⟩
      refine ⟨_, rfl, .close _ tk _ (by rintro ⟨⟩) (by rw [hw]; rfl) ?_ rfl rfl⟩
      rw [hw]
      cases released with
      | true => exact Or.inl rfl
      | false => exact Or.inr rfl
  -- the other steps move the worker within its loop or within a request
  all_goals
    rintro ⟨⟩
    try
      rename_i hw
      refine ⟨_, rfl, .other _ _ (by rintro ⟨⟩) ?_ ?_ ?_ rfl (Or.inl rfl)⟩ <;>
        rw [hw] <;> rfl

/-- A step of the acceptor hands no connection to a worker, and has no effect on sockets. -/
theorem record_of_acceptorStep {act : AcceptorAction} (hstep : s.acceptorStep act = some t) :
  t.handed = s.handed ∧ t.effects = s.effects
  := by
  revert hstep
  fun_cases Server.acceptorStep s act
  case case3 =>
      intro hstep
      obtain ⟨r, -, rfl⟩ := Option.map_eq_some_iff.mp hstep
      exact ⟨rfl, rfl⟩
  all_goals
    intro hstep
    try
      obtain rfl := Option.some.inj hstep
      exact ⟨rfl, rfl⟩
    try cases hstep

/-- A step of the acceptor changes nothing in what the workers work on. -/
theorem task_of_acceptorStep {act : AcceptorAction} (hborn : s.Born)
    (hstep : s.acceptorStep act = some t) (v : Wid) :
  (t.workers v).task = (s.workers v).task ∧ (t.workers v).released = (s.workers v).released
    ∧ (t.workers v).leaks = (s.workers v).leaks
  := by
  cases arranged_of_acceptorStep hstep with
  | same hworkers =>
      rw [hworkers]
      exact ⟨rfl, rfl, rfl⟩
  | create hworkers =>
      rw [hworkers, Function.update_apply]
      split
      case isTrue hv =>
          subst hv
          rw [(hborn s.nthreads).mpr le_rfl]
          exact ⟨rfl, rfl, rfl⟩
      case isFalse => exact ⟨rfl, rfl, rfl⟩
  | signal hworkers =>
      rw [hworkers, signalAll_workers]
      split
      case isTrue hv =>
          rw [hv.1]
          exact ⟨rfl, rfl, rfl⟩
      case isFalse => exact ⟨rfl, rfl, rfl⟩

/-! ### The account of closes and releases -/

/-- How many times the worker of a connection has closed a socket. -/
def closed (s : Server) (k : ℕ) : ℕ :=
  s.effects.countP fun e => e.kind = .closed ∧ e.conn = k

/-- The invariant: what has been closed and put back for each connection, and the number of the
connection that a worker works on. -/
structure Accounted (s : Server) (put : List ℕ) : Prop where
  fresh : ∀ k, s.handed.length ≤ k → s.closed k = 0 ∧ put.count k = 0
  worked : ∀ w tk, (s.workers w).task = some tk → s.closed tk.conn.count = 0
    ∧ put.count tk.conn.count = if (s.workers w).released then 1 else 0
  settled : ∀ k < s.handed.length, (∀ w tk, (s.workers w).task = some tk → tk.conn.count ≠ k) →
    s.closed k = 1 ∧ put.count k = 1
  leaks : ∀ w, (s.workers w).leaks = false

variable {put : List ℕ}

/-- A step that keeps what the workers work on, and closes and puts back nothing, keeps the
account. -/
theorem Accounted.of_same (h : s.Accounted put) (hhanded : t.handed = s.handed)
    (hclosed : ∀ k, t.closed k = s.closed k)
    (hworkers : ∀ v, (t.workers v).task = (s.workers v).task
      ∧ (t.workers v).released = (s.workers v).released
      ∧ (t.workers v).leaks = (s.workers v).leaks) :
  t.Accounted put
  := by
  constructor
  case fresh =>
      rw [hhanded]
      intro k hk
      rw [hclosed]
      exact h.fresh k hk
  case worked =>
      intro v tk htask
      rw [(hworkers v).1] at htask
      rw [hclosed, (hworkers v).2.1]
      exact h.worked v tk htask
  case settled =>
      rw [hhanded]
      intro k hk hnone
      rw [hclosed]
      apply h.settled k hk
      intro v tk htask
      rw [← (hworkers v).1] at htask
      exact hnone v tk htask
  case leaks =>
      intro v
      rw [(hworkers v).2.2]
      exact h.leaks v

theorem putBackBy_of_ne {act : WorkerAction} (h : act ≠ .releaseFrame) :
  s.putBackBy (.worker w act) = []
  := by
  cases act <;> first | rfl | exact absurd rfl h

/-- Every step of a worker that meets the condition keeps the account. -/
theorem Accounted.workerStep {act : WorkerAction} {pool queue : List Addr} (h : s.Accounted put)
    (hrouted : s.Routed) (hq : t.InOrder pool queue) (hok : s.EndsWell (.worker w act))
    (hstep : s.workerStep w act = some t) :
  t.Accounted (put ++ s.putBackBy (.worker w act))
  := by
  obtain ⟨x, hworkers, hhandled⟩ := handled_of_workerStep hstep
  have hself : t.workers w = x := by rw [hworkers, Function.update_self]
  have hother : ∀ v, v ≠ w → t.workers v = s.workers v := by
    intro v hv
    rw [hworkers, Function.update_of_ne hv]
  have hleaks : x.leaks = false → ∀ v, (t.workers v).leaks = false := by
    intro hx v
    by_cases hv : v = w
    · rw [hv, hself]
      exact hx
    · rw [hother v hv]
      exact h.leaks v
  cases hhandled with
  | take tk hold hhanded haccepted heffects =>
      have hput : s.putBackBy (.worker w .dequeue) = [] := rfl
      rw [hput, List.append_nil]
      have hcount : tk.conn.count = s.handed.length := by
        apply hrouted.count_eq
        rw [← haccepted, ← hq.order, hhanded]
        simp only [List.append_assoc, List.singleton_append]
        rfl
      have hclosed : ∀ k, t.closed k = s.closed k := by
        intro k
        rw [closed, closed, heffects]
      constructor
      case fresh =>
          intro k hk
          rw [hclosed]
          apply h.fresh k
          rw [hhanded, List.length_append] at hk
          exact Nat.le_of_succ_le hk
      case worked =>
          intro v u htask
          rw [hclosed]
          by_cases hv : v = w
          · subst hv
            rw [hself] at htask ⊢
            obtain rfl := Option.some.inj htask
            obtain ⟨h0, hput⟩ := h.fresh tk.conn.count hcount.ge
            exact ⟨h0, hput⟩
          · rw [hother v hv] at htask ⊢
            exact h.worked v u htask
      case settled =>
          intro k hk hnone
          rw [hhanded, List.length_append, List.length_singleton] at hk
          have hne : tk.conn.count ≠ k := hnone w tk (by rw [hself]; rfl)
          rw [hclosed]
          apply h.settled k (by omega)
          intro v u htask
          by_cases hv : v = w
          · rw [hv, hold] at htask
            cases htask
          · exact hnone v u (by rw [hother v hv]; exact htask)
      case leaks => exact hleaks rfl
  | put tk sock host port hold hhanded heffects =>
      have htk : (s.workers w).task = some tk := by rw [hold]; rfl
      have hput : s.putBackBy (.worker w .releaseFrame) = [tk.conn.count] := by
        rw [putBackBy, htk]
        rfl
      have hclosed : ∀ k, t.closed k = s.closed k := by
        intro k
        rw [closed, closed, heffects]
      have hcount : ∀ k, tk.conn.count ≠ k →
          (put ++ s.putBackBy (.worker w .releaseFrame)).count k = put.count k := by
        intro k hk
        rw [hput, List.count_append, List.count_singleton, if_neg (by simpa using hk)]
        rfl
      have hlt := (hrouted.served w tk htk).2
      constructor
      case fresh =>
          intro k hk
          rw [hhanded] at hk
          rw [hclosed, hcount k (by omega)]
          exact h.fresh k hk
      case worked =>
          intro v u htask
          rw [hclosed]
          by_cases hv : v = w
          · subst hv
            rw [hself] at htask ⊢
            obtain rfl := Option.some.inj htask
            obtain ⟨h0, hzero⟩ := h.worked v tk htk
            rw [hold, if_neg (by simp [Worker.released])] at hzero
            rw [hput, List.count_append, hzero, List.count_singleton_self]
            exact ⟨h0, rfl⟩
          · rw [hother v hv] at htask ⊢
            rw [hcount _ (fun heq => hv (hrouted.distinct v w u tk htask htk heq.symm))]
            exact h.worked v u htask
      case settled =>
          intro k hk hnone
          rw [hhanded] at hk
          have hne : tk.conn.count ≠ k := hnone w tk (by rw [hself]; rfl)
          rw [hclosed, hcount k hne]
          apply h.settled k hk
          intro v u htask
          by_cases hv : v = w
          · rw [hv, htk] at htask
            obtain rfl := Option.some.inj htask
            exact hne
          · exact hnone v u (by rw [hother v hv]; exact htask)
      case leaks => exact hleaks rfl
  | close act tk target hact hold hdone hhanded heffects =>
      rw [putBackBy_of_ne hact, List.append_nil]
      have hreleased : (s.workers w).released = true := by
        rcases hdone with hreleased | hleak
        · exact hreleased
        · cases (h.leaks w).symm.trans hleak
      have hclosed : ∀ k, t.closed k = s.closed k + if tk.conn.count = k then 1 else 0 := by
        intro k
        rw [closed, closed, heffects, List.countP_append, List.countP_singleton]
        simp
      have hlt := (hrouted.served w tk hold).2
      constructor
      case fresh =>
          intro k hk
          rw [hhanded] at hk
          rw [hclosed, if_neg (by omega)]
          exact h.fresh k hk
      case worked =>
          intro v u htask
          by_cases hv : v = w
          · rw [hv, hself] at htask
            cases htask
          · rw [hother v hv] at htask ⊢
            rw [hclosed, if_neg (fun heq => hv (hrouted.distinct v w u tk htask hold heq.symm))]
            exact h.worked v u htask
      case settled =>
          intro k hk hnone
          rw [hhanded] at hk
          rw [hclosed]
          by_cases hcount : tk.conn.count = k
          · subst hcount
            obtain ⟨h0, hput⟩ := h.worked w tk hold
            rw [h0, hput, hreleased]
            simp
          · rw [if_neg hcount]
            apply h.settled k hk
            intro v u htask
            by_cases hv : v = w
            · rw [hv, hold] at htask
              obtain rfl := Option.some.inj htask
              exact hcount
            · exact hnone v u (by rw [hother v hv]; exact htask)
      case leaks => exact hleaks rfl
  | abandon => exact hok.elim
  | throw x hold => cases hold.symm.trans hok
  | other act x hact htask hreleased hleaks hhanded heffects =>
      rw [putBackBy_of_ne hact, List.append_nil]
      apply h.of_same hhanded
      · intro k
        rcases heffects with heffects | ⟨j, target, heffects⟩
        · rw [closed, closed, heffects]
        · rw [closed, closed, heffects, List.countP_append, List.countP_singleton]
          simp
      · intro v
        by_cases hv : v = w
        · rw [hv, hself]
          exact ⟨htask, hreleased, hleaks⟩
        · rw [hother v hv]
          exact ⟨rfl, rfl, rfl⟩

/-- Every step that meets the condition keeps the account. -/
theorem Accounted.step {act : Action} {pool queue : List Addr} (h : s.Accounted put)
    (hrouted : s.Routed) (hborn : s.Born) (hq : t.InOrder pool queue) (hok : s.EndsWell act)
    (hstep : s.step act = some t) :
  t.Accounted (put ++ s.putBackBy act)
  := by
  cases act with
  | acceptor act =>
      obtain ⟨hhanded, heffects⟩ := record_of_acceptorStep hstep
      have hnone : s.putBackBy (.acceptor act) = [] := rfl
      rw [hnone, List.append_nil]
      apply h.of_same hhanded _ (task_of_acceptorStep hborn hstep)
      intro k
      rw [closed, closed, heffects]
  | worker w act => exact h.workerStep hrouted hq hok hstep

theorem EndsWell.frameKept {act : Action} (h : s.EndsWell act) :
  s.FrameKept act
  := by
  cases act with
  | acceptor act => exact h
  | worker w act => cases act <;> trivial

/-- Nothing has been closed or put back when the server starts. -/
theorem Accounted.start (junk : Addr → RFrame) (maxThreads n : ℕ) :
  (Server.start junk maxThreads n).Accounted []
  := by
  have hworker : ∀ w, ((Server.start junk maxThreads n).workers w).task = none
      ∧ ((Server.start junk maxThreads n).workers w).leaks = false := by
    intro w
    simp only [Server.start]
    split <;> exact ⟨rfl, rfl⟩
  constructor
  case fresh => exact fun _ _ => ⟨rfl, rfl⟩
  case worked =>
      intro w tk htask
      cases (hworker w).1.symm.trans htask
  case settled => exact fun k hk => absurd hk k.not_lt_zero
  case leaks => exact fun w => (hworker w).2

/-- A run whose steps meet the condition keeps the account. -/
theorem Accounted.run {acts : List Action} (h : s.Accounted put) (hrouted : s.Routed)
    (hborn : s.Born) (hq : ∃ pool queue, s.InOrder pool queue)
    (hok : Meets Server.step EndsWell s acts) (hrun : Run.run Server.step s acts = some t) :
  t.Accounted (put ++ putBack s acts) ∧ t.Routed ∧ ∃ pool queue, t.InOrder pool queue
  := by
  induction acts generalizing s put with
  | nil =>
      obtain rfl := Option.some.inj hrun
      rw [putBack, List.append_nil]
      exact ⟨h, hrouted, hq⟩
  | cons act acts ih =>
      obtain ⟨u, hu, hrun⟩ := run_cons.mp hrun
      obtain ⟨pool, queue, hq⟩ := hq
      obtain ⟨pool', queue', hq'⟩ := hq.step hu
      have hstep := h.step hrouted hborn hq' hok.1 hu
      have hrest := ih hstep (hrouted.step hq hok.1.frameKept hu) (hborn.step hu)
        ⟨pool', queue', hq'⟩ (hok.2 u hu) hrun
      rw [putBack, hu, Option.elim_some, ← List.append_assoc]
      exact hrest

/-- The connections that were handed to workers are numbered. -/
theorem Routed.lt_of_mem_handed {pool queue : List Addr} (h : s.Routed)
    (hq : s.InOrder pool queue) {c : Conn} (hc : c ∈ s.handed) :
  c.count < s.handed.length
  := by
  have hprefix : s.handed.map Conn.count <+: List.range s.accepted.length := by
    rw [← h.numbered, ← hq.order, List.append_assoc, List.map_append]
    exact List.prefix_append _ _
  obtain ⟨i, hi, hic⟩ := List.mem_iff_getElem.mp (List.mem_map_of_mem hc)
  have hget := hprefix.getElem hi
  rw [List.getElem_range, hic] at hget
  rw [List.length_map] at hi
  omega

/-- When everything that was closed belongs to its worker's connection, the closes are those of the
worker of a connection. -/
theorem Routed.closes_eq (h : s.Routed) (k : ℕ) :
  s.closes k = s.closed k
  := by
  apply List.countP_congr
  intro e he
  simp [h.effects e he]

end Server

/-- In every run in which no worker leaves a request before its header block has ended, no exception
is raised before the release of the frame, and `catch_req` finds the socket of its connection in the
frame: every connection that a worker has finished was closed once, and its frame was put back
once. -/
theorem cleaned_up {junk : Addr → RFrame} {maxThreads n : ℕ} {acts : List Action} {s : Server}
    (hrun : run Server.step (Server.start junk maxThreads n) acts = some s)
    (hok : Meets Server.step Server.EndsWell (Server.start junk maxThreads n) acts) :
  s.CleanedUp (Server.putBack (Server.start junk maxThreads n) acts)
  := by
  obtain ⟨haccounted, hrouted, pool, queue, hq⟩ := (Server.Accounted.start junk maxThreads n).run
    (Server.Routed.start junk maxThreads n) (Server.Born.start junk maxThreads n)
    ⟨[], [], Server.InOrder.start junk maxThreads n⟩ hok hrun
  intro c hc hnone
  rw [hrouted.closes_eq]
  exact haccounted.settled c.count (hrouted.lt_of_mem_handed hq hc) hnone

/-- One connection is served, and the worker goes back to the head of its loop. -/
theorem cleaned_up_once :
  ∃ s, run Server.step (Server.start (fun _ => ⟨⟨0, [], 0, 0⟩, none⟩) 1 1)
        (startWorker 0 ++ passConnection 5 100 ++ takeConnection 0
          ++ [.worker 0 .send, .worker 0 .close, .worker 0 .readBusy, .worker 0 .writeBusy]) = some s
    ∧ s.handed.length = 1 ∧ s.workers 0 = .idle
    ∧ s.CleanedUp (Server.putBack (Server.start (fun _ => ⟨⟨0, [], 0, 0⟩, none⟩) 1 1)
        (startWorker 0 ++ passConnection 5 100 ++ takeConnection 0
          ++ [.worker 0 .send, .worker 0 .close, .worker 0 .readBusy, .worker 0 .writeBusy]))
  := by
  refine ⟨_, rfl, rfl, rfl, cleaned_up rfl ?_⟩
  apply meets_of_forall
  intro s act hact
  simp only [startWorker, passConnection, takeConnection, List.cons_append, List.nil_append,
    List.mem_cons, List.not_mem_nil, or_false] at hact
  rcases hact with rfl | rfl | rfl | rfl | rfl | rfl | rfl | rfl | rfl | rfl | rfl | rfl | rfl |
    rfl | rfl | rfl | rfl | rfl | rfl | rfl <;> trivial

/-- A run that ends with a single worker at the head of its loop, whose one connection was not put
back. -/
theorem Server.not_cleanedUp_of_run {junk : Addr → RFrame} {acts : List Action} {c : Conn}
    {closes : ℕ} {socket : Option ℕ}
    (hend : (run Server.step (Server.start junk 1 1) acts).map
        (fun s => (s.nthreads, s.workers 0, s.handed, s.closes c.count, s.sockets c.sock))
      = some (1, .idle, [c], closes, socket))
    (hput : Server.putBack (Server.start junk 1 1) acts = []) :
  ∃ s, run Server.step (Server.start junk 1 1) acts = some s ∧ s.workers 0 = .idle
    ∧ s.closes c.count = closes ∧ s.sockets c.sock = socket
    ∧ ¬ s.CleanedUp (Server.putBack (Server.start junk 1 1) acts)
  := by
  obtain ⟨s, hrun, hfields⟩ := Option.map_eq_some_iff.mp hend
  simp only [Prod.mk.injEq] at hfields
  obtain ⟨hnthreads, hidle, hhanded, hcloses, hsocket⟩ := hfields
  refine ⟨s, hrun, hidle, hcloses, hsocket, ?_⟩
  have hborn : s.Born :=
    run_invariant (fun _ _ _ h hstep => h.step hstep) (Server.Born.start junk 1 1) hrun
  intro h
  have hnone : ∀ w tk, (s.workers w).task = some tk → tk.conn.count ≠ c.count := by
    intro w tk htask
    cases w with
    | zero =>
        rw [hidle] at htask
        cases htask
    | succ w =>
        rw [(hborn (w + 1)).mpr (by omega)] at htask
        cases htask
  rw [hput] at h
  cases (h c (by rw [hhanded]; exact List.mem_cons_self) hnone).2

/-- The peer closes the connection before the header block has ended: the socket stays open, and the
frame is lost.  An exception is raised when the request is read: the socket is closed, and the frame
is lost. -/
theorem socket_left_open :
  (∃ acts s, run Server.step (Server.start (fun _ => ⟨⟨0, [], 0, 0⟩, none⟩) 1 1) acts = some s
      ∧ s.workers 0 = .idle ∧ s.closes 0 = 0 ∧ s.sockets 5 = some 0
      ∧ ¬ s.CleanedUp (Server.putBack (Server.start (fun _ => ⟨⟨0, [], 0, 0⟩, none⟩) 1 1) acts))
    ∧ ∃ acts s, run Server.step (Server.start (fun _ => ⟨⟨0, [], 0, 0⟩, none⟩) 1 1) acts = some s
      ∧ s.workers 0 = .idle ∧ s.closes 0 = 1 ∧ s.sockets 5 = none
      ∧ ¬ s.CleanedUp (Server.putBack (Server.start (fun _ => ⟨⟨0, [], 0, 0⟩, none⟩) 1 1) acts)
  := by
  constructor
  · use startWorker 0 ++ passConnection 5 100 ++ [.worker 0 .dequeue, .worker 0 .readSock,
      .worker 0 .abandon, .worker 0 .readBusy, .worker 0 .writeBusy]
    exact @Server.not_cleanedUp_of_run _ _ ⟨5, [], 80, 0⟩ 0 (some 0) (by decide) (by decide)
  · use startWorker 0 ++ passConnection 5 100 ++ [.worker 0 .dequeue, .worker 0 .readSock]
      ++ failRequest 0 ++ [.worker 0 .readBusy, .worker 0 .writeBusy]
    exact @Server.not_cleanedUp_of_run _ _ ⟨5, [], 80, 0⟩ 1 none (by decide) (by decide)

end Gusher
