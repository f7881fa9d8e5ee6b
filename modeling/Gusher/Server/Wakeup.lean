import Gusher.Server.Threads

/-!
# Waking the workers up

`enqueue_frame` signals the condition variables of `qcondvars`, when the queue was empty.  A worker
that starts reads this list and writes it back with its own condition variable in front; another
one that reads the list in between drops it again, and a worker that waits for it is not signalled
(`condvar_dropped`).  As long as no two workers push at the same time, no worker waits unsignalled
while there are frames in the queue (`no_missed_wakeup`).
-/

namespace Gusher

open Run

/-- The list that a starting worker has read. -/
def Worker.seen : Worker → Option (List Wid)
  | .pushing seen => some seen
  | _ => none

namespace Server

/-- The worker that writes `qcondvars` in an action. -/
def pushes : Action → Option Wid
  | .worker w .pushCondvar => some w
  | _ => none

/-- The condition on the steps: when a worker writes `qcondvars`, the list is as the worker has read
it. -/
def PushesApart (s : Server) (act : Action) : Prop :=
  ∀ w ∈ pushes act, ∀ seen ∈ (s.workers w).seen, seen = s.qcondvars

instance (s : Server) (act : Action) : Decidable (s.PushesApart act) :=
  inferInstanceAs (Decidable (∀ w ∈ pushes act, ∀ seen ∈ (s.workers w).seen, seen = s.qcondvars))

/-- No worker is blocked in the wait, neither signalled nor timed out, while there is a frame in the
queue. -/
def Awake (s : Server) : Prop :=
  s.frames.reqQueue ≠ none → ∀ w, s.workers w ≠ .waiting

/-- The invariant: the condition variables of all workers that have entered the loop are in the
list. -/
structure Wakeable (s : Server) : Prop where
  listed : ∀ w, (s.workers w).entered = true → w ∈ s.qcondvars
  awake : s.Awake

variable {s t : Server} {w : Wid}

/-- A step of the acceptor keeps the invariant. -/
theorem Wakeable.acceptorStep {act : AcceptorAction} (h : s.Wakeable)
    (hstep : s.acceptorStep act = some t) :
  t.Wakeable
  := by
  cases arranged_of_acceptorStep hstep with
  | same hworkers _ hkept hqueue =>
      constructor
      case listed =>
          rw [hworkers, hkept.qcondvars]
          exact h.listed
      case awake =>
          intro hsome
          rw [hworkers]
          exact h.awake (hqueue hsome)
  | create hworkers _ hkept hqueue =>
      constructor
      case listed =>
          intro v
          rw [hworkers, hkept.qcondvars, Function.update_apply]
          split
          case isTrue => rintro ⟨⟩
          case isFalse => exact h.listed v
      case awake =>
          intro hsome v
          rw [hworkers, Function.update_apply]
          split
          case isTrue => nofun
          case isFalse => exact h.awake (hqueue hsome) v
  | signal hworkers _ hkept =>
      have hlisted : ∀ v, (t.workers v).entered = true → (s.workers v).entered = true := by
        intro v
        rw [hworkers, signalAll_workers]
        split
        case isTrue hv =>
            rw [hv.1]
            exact id
        case isFalse => exact id
      constructor
      case listed =>
          intro v hv
          rw [hkept.qcondvars]
          exact h.listed v (hlisted v hv)
      case awake =>
          intro _ v
          rw [hworkers, signalAll_workers]
          split
          case isTrue => nofun
          case isFalse hv =>
              intro hwaiting
              exact hv ⟨hwaiting, h.listed v (by rw [hwaiting]; rfl)⟩

/-- A step of a worker that meets the condition keeps the invariant. -/
theorem Wakeable.workerStep {act : WorkerAction} (h : s.Wakeable)
    (hapart : s.PushesApart (.worker w act)) (hstep : s.workerStep w act = some t) :
  t.Wakeable
  := by
  obtain ⟨x, hworkers, -, hqueue, hmoved⟩ := moved_of_workerStep hstep
  -- a list that has the condition variable of the worker, if it has entered, and those of before
  have hlisted : (x.entered = true → w ∈ t.qcondvars) → (∀ v ∈ s.qcondvars, v ∈ t.qcondvars) →
      ∀ v, (t.workers v).entered = true → v ∈ t.qcondvars := by
    intro hx hold v
    rw [hworkers, Function.update_apply]
    split
    case isTrue hv =>
        subst hv
        exact hx
    case isFalse => exact fun hv => hold v (h.listed v hv)
  have hawake : x ≠ .waiting → t.Awake := by
    intro hx hsome v
    rw [hworkers, Function.update_apply]
    split
    case isTrue => exact hx
    case isFalse => exact h.awake (hqueue hsome) v
  -- the list stays as it is when a worker that has entered moves
  have hkeep : t.qcondvars = s.qcondvars → (s.workers w).entered = true → ∀ v,
      (t.workers v).entered = true → v ∈ t.qcondvars := by
    intro hcondvars hold
    rw [hcondvars] at hlisted ⊢
    exact hlisted (fun _ => h.listed w hold) (fun _ => id)
  cases hmoved with
  | readCondvars _ hkept =>
      refine ⟨?_, hawake nofun⟩
      rw [hkept.qcondvars] at hlisted ⊢
      exact hlisted nofun (fun _ => id)
  | pushCondvar seen hold hcondvars =>
      have hseen : seen = s.qcondvars := hapart w rfl seen (by rw [hold]; rfl)
      subst hseen
      refine ⟨?_, hawake nofun⟩
      rw [hcondvars] at hlisted ⊢
      exact hlisted (fun _ => List.mem_cons_self) (fun _ => List.mem_cons_of_mem w)
  | wait hold hkept hempty =>
      exact ⟨hkeep hkept.qcondvars (by rw [hold]; rfl), fun hsome => absurd hempty hsome⟩
  | dequeue tk hold hcondvars =>
      refine ⟨hkeep hcondvars ?_, hawake nofun⟩
      rcases hold with hold | hold <;> rw [hold] <;> rfl
  | readBusy hold hkept =>
      exact ⟨hkeep hkept.qcondvars (by rw [hold]; rfl), hawake nofun⟩
  | writeBusy busy hold hcondvars =>
      exact ⟨hkeep hcondvars (by rw [hold]; rfl), hawake nofun⟩
  | other _ _ _ _ hold hwaiting _ hkept =>
      exact ⟨hkeep hkept.qcondvars hold, hawake hwaiting⟩

theorem Wakeable.step {act : Action} (h : s.Wakeable) (hapart : s.PushesApart act)
    (hstep : s.step act = some t) :
  t.Wakeable
  := by
  cases act with
  | acceptor act => exact h.acceptorStep hstep
  | worker w act => exact h.workerStep hapart hstep

/-- The invariant holds when the server starts. -/
theorem Wakeable.start (junk : Addr → RFrame) (maxThreads n : ℕ) :
  (Server.start junk maxThreads n).Wakeable
  := by
  constructor
  case listed =>
      intro w
      simp only [Server.start]
      split
      case isTrue => rintro ⟨⟩
      case isFalse => rintro ⟨⟩
  case awake => exact fun hsome => absurd rfl hsome

end Server

/-- In every run in which no worker writes `qcondvars` when another one has written it since the
worker's read, no worker is blocked unsignalled while there is a frame in the queue. -/
theorem no_missed_wakeup {junk : Addr → RFrame} {maxThreads n : ℕ} {acts : List Action} {s : Server}
    (hrun : run Server.step (Server.start junk maxThreads n) acts = some s)
    (hapart : Meets Server.step Server.PushesApart (Server.start junk maxThreads n) acts) :
  s.Awake
  := by
  have hs : s.Wakeable := run_invariant_of_meets (fun _ _ _ h hok hstep => h.step hok hstep)
    (.start junk maxThreads n) hapart hrun
  exact hs.awake

/-- Two workers start one after the other and wait, and a connection comes. -/
theorem no_missed_wakeup_two :
  ∃ s, run Server.step (Server.start (fun _ => ⟨⟨0, [], 0, 0⟩, none⟩) 2 2)
        (startWorker 0 ++ startWorker 1 ++ [.worker 0 .wait, .worker 1 .wait]
          ++ passConnection 5 100) = some s
    ∧ s.frames.reqQueue = some 100 ∧ s.Awake
  := by
  refine ⟨_, rfl, rfl, ?_⟩
  apply @no_missed_wakeup (fun _ => ⟨⟨0, [], 0, 0⟩, none⟩) 2 2 (startWorker 0 ++ startWorker 1
    ++ [.worker 0 .wait, .worker 1 .wait] ++ passConnection 5 100) _ rfl
  decide

/-- Two workers read the empty list of condition variables: that of the first one is dropped, and
the first one waits on when a connection comes. -/
theorem condvar_dropped :
  ∃ s, run Server.step (Server.start (fun _ => ⟨⟨0, [], 0, 0⟩, none⟩) 2 2)
        ([.worker 0 .readCondvars, .worker 1 .readCondvars, .worker 0 .pushCondvar,
          .worker 1 .pushCondvar, .worker 0 .wait] ++ passConnection 5 100) = some s
    ∧ s.frames.reqQueue = some 100 ∧ s.workers 0 = .waiting
    ∧ ¬ s.Awake
  := by
  refine ⟨_, rfl, rfl, rfl, ?_⟩
  intro h
  exact h nofun 0 rfl

end Gusher
