import Gusher.Server.Queue

/-!
# What a step does to the threads

What a step of the server does to the workers, to the list of condition variables, and to the
number `busy_threads`.  The workers that have been created are those below `nthreads`.
-/

namespace Gusher

open Run

/-- A worker has taken a frame from the queue, and has not yet written `busy_threads`. -/
def Worker.busy : Worker → Bool
  | .dequeued _ | .building _ _ _ _ | .responding _ _ _ _ | .catching _ _ _ | .leaving
  | .decrementing _ => true
  | _ => false

/-- A worker has written `qcondvars`. -/
def Worker.entered : Worker → Bool
  | .unborn | .starting | .pushing _ => false
  | _ => true

/-- A worker is between the read and the write of `busy_threads--`. -/
def Worker.decrements : Worker → Bool
  | .decrementing _ => true
  | _ => false

namespace Server

/-- The list of condition variables and the number of busy threads are as before. -/
structure Kept (s t : Server) : Prop where
  qcondvars : t.qcondvars = s.qcondvars
  busyThreads : t.busyThreads = s.busyThreads

/-- How a step of the worker `w`, which moves it to `x`, treats what the workers share. -/
inductive Moved (s t : Server) (w : Wid) : WorkerAction → Worker → Prop where
  | readCondvars (h : s.workers w = .starting) (hkept : s.Kept t) :
      Moved s t w .readCondvars (.pushing s.qcondvars)
  | pushCondvar (seen : List Wid) (h : s.workers w = .pushing seen)
      (hcondvars : t.qcondvars = w :: seen) (hbusy : t.busyThreads = s.busyThreads) :
      Moved s t w .pushCondvar .idle
  | wait (h : s.workers w = .idle) (hkept : s.Kept t) (hempty : t.frames.reqQueue = none) :
      Moved s t w .wait .waiting
  | dequeue (tk : Task) (h : s.workers w = .idle ∨ s.workers w = .woken)
      (hcondvars : t.qcondvars = s.qcondvars) (hbusy : t.busyThreads = s.busyThreads + 1) :
      Moved s t w .dequeue (.dequeued tk)
  | readBusy (h : s.workers w = .leaving) (hkept : s.Kept t) :
      Moved s t w .readBusy (.decrementing s.busyThreads)
  | writeBusy (busy : ℤ) (h : s.workers w = .decrementing busy)
      (hcondvars : t.qcondvars = s.qcondvars) (hbusy : t.busyThreads = busy - 1) :
      Moved s t w .writeBusy .idle
  | other (act : WorkerAction) (x : Worker) (hbusy : x.busy = (s.workers w).busy)
      (hentered : x.entered = true) (hold : (s.workers w).entered = true) (hwaiting : x ≠ .waiting)
      (hdecrements : x.decrements = false) (hkept : s.Kept t) :
      Moved s t w act x

variable {s t : Server} {w : Wid}

/-- A step of a worker moves this worker only, and puts no frame into the queue. -/
theorem moved_of_workerStep {act : WorkerAction} (hstep : s.workerStep w act = some t) :
  ∃ x, t.workers = Function.update s.workers w x ∧ t.nthreads = s.nthreads ∧
    (t.frames.reqQueue ≠ none → s.frames.reqQueue ≠ none) ∧ s.Moved t w act x
  := by
  have hdequeue : ∀ {t}, s.workers w = .idle ∨ s.workers w = .woken → s.dequeueStep w = some t →
      ∃ x, t.workers = Function.update s.workers w x ∧ t.nthreads = s.nthreads ∧
        (t.frames.reqQueue ≠ none → s.frames.reqQueue ≠ none) ∧ s.Moved t w .dequeue x := by
    intro t hw hdeq
    obtain ⟨r, hr, rfl⟩ := Option.map_eq_some_iff.mp hdeq
    refine ⟨_, rfl, rfl, ?_, .dequeue _ hw rfl rfl⟩
    intro _ hnone
    rw [Frames.dequeue, hnone] at hr
    cases hr
  revert hstep
  fun_cases Server.workerStep s w act
  case case1 hw =>
      rintro ⟨⟩
      exact ⟨_, rfl, rfl, id, .readCondvars hw ⟨rfl, rfl⟩⟩
  case case2 seen hw =>
      rintro ⟨⟩
      exact ⟨_, rfl, rfl, id, .pushCondvar seen hw rfl rfl⟩
  case case3 hw hempty =>
      rintro ⟨⟩
      exact ⟨_, rfl, rfl, id, .wait hw ⟨rfl, rfl⟩ hempty⟩
  case case8 hw => exact hdequeue (Or.inl hw)
  case case9 hw => exact hdequeue (Or.inr hw)
  case case15 tk sock host port hw =>
      rintro ⟨⟩
      refine ⟨s.workers w, ?_, rfl, id, .other _ _ rfl ?_ ?_ ?_ ?_ ⟨rfl, rfl⟩⟩
      · exact (Function.update_eq_self w s.workers).symm
      all_goals simp [hw, Worker.entered, Worker.decrements]
  case case20 tk released fd hw =>
      rintro ⟨⟩
      refine ⟨s.workers w, ?_, rfl, id, .other _ _ rfl ?_ ?_ ?_ ?_ ⟨rfl, rfl⟩⟩
      · exact (Function.update_eq_self w s.workers).symm
      all_goals simp [hw, Worker.entered, Worker.decrements]
  case case24 hw =>
      rintro ⟨⟩
      exact ⟨_, rfl, rfl, id, .readBusy hw ⟨rfl, rfl⟩⟩
  case case25 busy hw =>
      rintro ⟨⟩
      exact ⟨_, rfl, rfl, id, .writeBusy busy hw rfl rfl⟩
  -- the other steps move the worker within the loop or within a request
  all_goals
    rintro ⟨⟩
    try
      rename_i hw
      refine ⟨_, rfl, rfl, id, .other _ _ ?_ ?_ ?_ ?_ ?_ ⟨rfl, rfl⟩⟩ <;>
        simp_all [Worker.busy, Worker.entered, Worker.decrements]

/-- How a step of the acceptor treats what the workers share. -/
inductive Arranged (s t : Server) : Prop where
  | same (hworkers : t.workers = s.workers) (hnthreads : t.nthreads = s.nthreads)
      (hkept : s.Kept t) (hqueue : t.frames.reqQueue ≠ none → s.frames.reqQueue ≠ none) :
      Arranged s t
  | create (hworkers : t.workers = Function.update s.workers s.nthreads .starting)
      (hnthreads : t.nthreads = s.nthreads + 1) (hkept : s.Kept t)
      (hqueue : t.frames.reqQueue ≠ none → s.frames.reqQueue ≠ none) : Arranged s t
  | signal (hworkers : t.workers = s.signalAll.workers) (hnthreads : t.nthreads = s.nthreads)
      (hkept : s.Kept t) : Arranged s t

/-- A step of the acceptor creates a worker, or signals all workers, or leaves them alone. -/
theorem arranged_of_acceptorStep {act : AcceptorAction} (hstep : s.acceptorStep act = some t) :
  s.Arranged t
  := by
  revert hstep
  fun_cases Server.acceptorStep s act
  case case1 =>
      rintro ⟨⟩
      exact .same rfl rfl ⟨rfl, rfl⟩ id
  case case2 => rintro ⟨⟩
  case case3 a c hacc =>
      intro hstep
      obtain ⟨⟨f, m⟩, hget, rfl⟩ := Option.map_eq_some_iff.mp hstep
      refine .same rfl rfl ⟨rfl, rfl⟩ ?_
      intro hsome hnone
      apply hsome
      revert hget
      fun_cases Frames.getFrame s.frames a
      case case1 => rintro ⟨⟩
      case case2 =>
          rintro ⟨⟩
          exact hnone
      case case3 =>
          rintro ⟨⟩
          exact hnone
  case case4 =>
      rintro ⟨⟩
      exact .same rfl rfl ⟨rfl, rfl⟩ id
  case case5 =>
      intro hstep
      obtain rfl := Option.some.inj hstep
      exact .create rfl rfl ⟨rfl, rfl⟩ id
  case case6 =>
      intro hstep
      obtain rfl := Option.some.inj hstep
      exact .same rfl rfl ⟨rfl, rfl⟩ id
  case case7 f c hacc s' hempty =>
      intro hstep
      obtain rfl := Option.some.inj hstep
      exact .signal rfl rfl ⟨rfl, rfl⟩
  case case8 f c hacc s' hsome =>
      intro hstep
      obtain rfl := Option.some.inj hstep
      exact .same rfl rfl ⟨rfl, rfl⟩ (fun _ => hsome)
  case case9 =>
      rintro ⟨⟩
      exact .same rfl rfl ⟨rfl, rfl⟩ id
  case case10 => rintro ⟨⟩

theorem signalAll_workers (s : Server) (v : Wid) :
  s.signalAll.workers v
    = if s.workers v = .waiting ∧ v ∈ s.qcondvars then .woken else s.workers v
  := rfl

/-- The workers that have been created are those below `nthreads`. -/
def Born (s : Server) : Prop :=
  ∀ w, s.workers w = .unborn ↔ s.nthreads ≤ w

/-- A worker that is created moves to a state in which it is there. -/
theorem Moved.ne_unborn {act : WorkerAction} {x : Worker} (h : s.Moved t w act x) :
  s.workers w ≠ .unborn ∧ x ≠ .unborn
  := by
  cases h with
  | readCondvars hw => simp [hw]
  | pushCondvar seen hw => simp [hw]
  | wait hw => simp [hw]
  | dequeue tk hw => rcases hw with hw | hw <;> simp [hw]
  | readBusy hw => simp [hw]
  | writeBusy busy hw => simp [hw]
  | other _ _ _ hentered hold =>
      constructor
      · rintro heq
        rw [heq] at hold
        cases hold
      · rintro rfl
        cases hentered

/-- Every step keeps the workers that have been created those below `nthreads`. -/
theorem Born.step {act : Action} (h : s.Born) (hstep : s.step act = some t) :
  t.Born
  := by
  intro v
  cases act with
  | acceptor act =>
      cases arranged_of_acceptorStep hstep with
      | same hworkers hnthreads =>
          rw [hworkers, hnthreads]
          apply h
      | create hworkers hnthreads =>
          rw [hworkers, hnthreads, Function.update_apply]
          split
          case isTrue hv =>
              subst hv
              simp
          case isFalse hv =>
              rw [h v]
              exact ⟨fun hle => Nat.lt_of_le_of_ne hle (Ne.symm hv), Nat.le_of_succ_le⟩
      | signal hworkers hnthreads =>
          rw [hworkers, hnthreads, signalAll_workers]
          split
          case isTrue hv =>
              rw [← h v, hv.1]
              simp
          case isFalse => apply h
  | worker w act =>
      obtain ⟨x, hworkers, hnthreads, -, hmoved⟩ := moved_of_workerStep hstep
      obtain ⟨hold, hnew⟩ := hmoved.ne_unborn
      rw [hworkers, hnthreads, Function.update_apply]
      split
      case isTrue hv =>
          subst hv
          rw [← h v]
          exact iff_of_false hnew hold
      case isFalse => apply h

/-- The workers that are created at the start are those below `nthreads`. -/
theorem Born.start (junk : Addr → RFrame) (maxThreads n : ℕ) :
  (Server.start junk maxThreads n).Born
  := by
  intro w
  simp only [Server.start]
  split
  case isTrue hw => simp [hw]
  case isFalse hw => simp [Nat.le_of_not_lt hw]

end Server

end Gusher
