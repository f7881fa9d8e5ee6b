import Gusher.Server.Threads
import Mathlib.Algebra.BigOperators.Group.Finset.Piecewise

/-!
# The number of busy threads

`busy_threads` is incremented under `qmutex` and decremented without.  When a worker writes the
number that it has decremented, what other workers have written since its read is lost
(`decrements_lost`).  As long as no other worker writes in between, the number is that of the
workers that are busy (`busy_exact`).
-/

namespace Gusher

open Run

namespace Server

/-- The number of workers that have taken a frame from the queue and have not finished it. -/
def busyWorkers (s : Server) : ℕ :=
  ((Finset.range s.nthreads).filter (fun w => (s.workers w).busy = true)).card

/-- `busy_threads` is the number of busy workers, and `process_http` adds a thread exactly when
all workers are busy. -/
structure BusyExact (s : Server) : Prop where
  count : s.busyThreads = s.busyWorkers
  range : 0 ≤ s.busyThreads ∧ s.busyThreads ≤ s.nthreads
  grows : s.busyThreads ≥ s.nthreads ↔ ∀ w < s.nthreads, (s.workers w).busy = true

/-- No other worker is between the read and the write of `busy_threads--`. -/
def NoneDecrements (s : Server) (w : Wid) : Prop :=
  ∀ v < s.nthreads, v ≠ w → (s.workers v).decrements = false

/-- The worker that writes `busy_threads` in an action. -/
def writesBusy : Action → Option Wid
  | .worker w .dequeue => some w
  | .worker w .writeBusy => some w
  | _ => none

/-- The condition on the steps: a worker writes `busy_threads` only when no other worker is between
the read and the write of `busy_threads--`. -/
def DecrementsApart (s : Server) (act : Action) : Prop :=
  ∀ w ∈ writesBusy act, s.NoneDecrements w

instance (s : Server) (act : Action) : Decidable (s.DecrementsApart act) :=
  inferInstanceAs (Decidable (∀ w ∈ writesBusy act, ∀ v < s.nthreads, v ≠ w →
    (s.workers v).decrements = false))

/-- The invariant: a worker that has read `busy_threads` is about to write one less than it is. -/
structure Counted (s : Server) : Prop where
  born : s.Born
  count : s.busyThreads = s.busyWorkers
  read : ∀ w busy, s.workers w = .decrementing busy → busy = s.busyThreads

variable {s t : Server} {w : Wid}

/-! ### Counting -/

/-- The number of busy workers after one has moved. -/
theorem busyWorkers_update {x : Worker} (hw : w < s.nthreads)
    (hworkers : t.workers = Function.update s.workers w x) (hnthreads : t.nthreads = s.nthreads) :
  t.busyWorkers + (if (s.workers w).busy then 1 else 0)
    = s.busyWorkers + (if x.busy then 1 else 0)
  := by
  have hsum : ∀ u : Server, u.nthreads = s.nthreads → u.busyWorkers
      = (if (u.workers w).busy then 1 else 0)
        + ∑ v ∈ (Finset.range s.nthreads).erase w, if (u.workers v).busy then 1 else 0 := by
    intro u hu
    rw [busyWorkers, hu, Finset.card_filter,
      Finset.add_sum_erase _ (fun v => if (u.workers v).busy then 1 else 0) (Finset.mem_range.mpr hw)]
  have hrest : ∑ v ∈ (Finset.range s.nthreads).erase w, (if (t.workers v).busy then 1 else 0)
      = ∑ v ∈ (Finset.range s.nthreads).erase w, if (s.workers v).busy then 1 else 0 := by
    apply Finset.sum_congr rfl
    intro v hv
    rw [hworkers, Function.update_of_ne (Finset.ne_of_mem_erase hv)]
  rw [hsum t hnthreads, hsum s rfl, hrest, hworkers, Function.update_self]
  omega

/-- The number of busy workers depends on which of them are busy only. -/
theorem busyWorkers_congr (hnthreads : t.nthreads = s.nthreads)
    (hbusy : ∀ v < s.nthreads, (t.workers v).busy = (s.workers v).busy) :
  t.busyWorkers = s.busyWorkers
  := by
  rw [busyWorkers, busyWorkers, hnthreads]
  congr 1
  apply Finset.filter_congr
  intro v hv
  rw [hbusy v (Finset.mem_range.mp hv)]

/-- What the number of busy workers says. -/
theorem Counted.exact (h : s.Counted) :
  s.BusyExact
  := by
  have hle : s.busyWorkers ≤ s.nthreads := by
    apply le_trans (Finset.card_filter_le _ _)
    rw [Finset.card_range]
  have hall : s.busyWorkers = s.nthreads ↔ ∀ w < s.nthreads, (s.workers w).busy = true := by
    have hiff := @Finset.card_filter_eq_iff _ (Finset.range s.nthreads)
      (fun w => (s.workers w).busy = true) _
    rw [Finset.card_range] at hiff
    rw [busyWorkers, hiff]
    simp only [Finset.mem_range]
  constructor
  case count => exact h.count
  case range =>
      rw [h.count]
      omega
  case grows =>
      rw [h.count, ← hall]
      omega

/-! ### Steps -/

/-- A step of the acceptor keeps the invariant. -/
theorem Counted.acceptorStep {act : AcceptorAction} (h : s.Counted)
    (hstep : s.acceptorStep act = some t) :
  t.Counted
  := by
  have hborn : t.Born := @Born.step _ _ (.acceptor act) h.born hstep
  have hunborn : s.workers s.nthreads = .unborn := (h.born _).mpr (Nat.le_refl _)
  cases arranged_of_acceptorStep hstep with
  | same hworkers hnthreads hkept =>
      constructor
      case born => exact hborn
      case count =>
          rw [hkept.busyThreads, h.count, busyWorkers_congr hnthreads (fun v _ => by rw [hworkers])]
      case read =>
          rw [hworkers, hkept.busyThreads]
          exact h.read
  | create hworkers hnthreads hkept =>
      constructor
      case born => exact hborn
      case count =>
          have hsame : ∀ v ∈ Finset.range s.nthreads,
              ((t.workers v).busy = true ↔ (s.workers v).busy = true) := by
            intro v hv
            rw [hworkers, Function.update_of_ne (Nat.ne_of_lt (Finset.mem_range.mp hv))]
          have hnew : ¬ (t.workers s.nthreads).busy = true := by
            rw [hworkers, Function.update_self]
            exact Bool.false_ne_true
          rw [hkept.busyThreads, h.count, busyWorkers, busyWorkers, hnthreads, Finset.range_add_one,
            Finset.filter_insert, if_neg hnew, Finset.filter_congr hsame]
      case read =>
          intro v busy
          rw [hworkers, hkept.busyThreads, Function.update_apply]
          split
          case isTrue => rintro ⟨⟩
          case isFalse => exact h.read v busy
  | signal hworkers hnthreads hkept =>
      constructor
      case born => exact hborn
      case count =>
          rw [hkept.busyThreads, h.count, busyWorkers_congr hnthreads]
          intro v _
          rw [hworkers, signalAll_workers]
          split
          case isTrue hv =>
              rw [hv.1]
              rfl
          case isFalse => rfl
      case read =>
          intro v busy
          rw [hworkers, hkept.busyThreads, signalAll_workers]
          split
          case isTrue => rintro ⟨⟩
          case isFalse => exact h.read v busy

/-- A step of a worker that meets the condition keeps the invariant. -/
theorem Counted.workerStep {act : WorkerAction} (h : s.Counted)
    (hapart : s.DecrementsApart (.worker w act)) (hstep : s.workerStep w act = some t) :
  t.Counted
  := by
  have hborn : t.Born := @Born.step _ _ (.worker w act) h.born hstep
  obtain ⟨x, hworkers, hnthreads, -, hmoved⟩ := moved_of_workerStep hstep
  have hw : w < s.nthreads := by
    rw [← Nat.not_le, ← h.born w]
    exact hmoved.ne_unborn.1
  have hcount := busyWorkers_update hw hworkers hnthreads
  -- a worker that has read `busy_threads` is the one that moves, or was there before
  have hread : ∀ v busy, t.workers v = .decrementing busy →
      v = w ∧ x = .decrementing busy ∨ v ≠ w ∧ s.workers v = .decrementing busy := by
    intro v busy
    rw [hworkers, Function.update_apply]
    split
    case isTrue hv => exact fun hx => Or.inl ⟨hv, hx⟩
    case isFalse hv => exact fun hx => Or.inr ⟨hv, hx⟩
  have hnone : s.NoneDecrements w → x.decrements = false → ∀ v busy,
      t.workers v ≠ .decrementing busy := by
    intro hapart hx v busy hv
    rcases hread v busy hv with ⟨-, rfl⟩ | ⟨hne, hold⟩
    · cases hx
    · have hv : v < s.nthreads := by
        rw [← Nat.not_le, ← h.born v, hold]
        nofun
      have hfalse := hapart v hv hne
      rw [hold] at hfalse
      cases hfalse
  -- the number is kept when the worker stays busy, or idle
  have hkeep : s.Kept t → x.busy = (s.workers w).busy →
      (∀ busy, x = .decrementing busy → busy = s.busyThreads) → t.Counted := by
    intro hkept hbusy hx
    rw [hbusy] at hcount
    constructor
    case born => exact hborn
    case count =>
        rw [hkept.busyThreads, h.count]
        omega
    case read =>
        intro v busy hv
        rw [hkept.busyThreads]
        rcases hread v busy hv with ⟨-, heq⟩ | ⟨-, hold⟩
        · exact hx busy heq
        · exact h.read v busy hold
  cases hmoved with
  | readCondvars hold hkept => exact hkeep hkept (by rw [hold]; rfl) (by rintro busy ⟨⟩)
  | pushCondvar seen hold _ hbusy =>
      rw [hold] at hcount
      constructor
      case born => exact hborn
      case count =>
          rw [hbusy, h.count]
          exact congrArg Nat.cast hcount.symm
      case read =>
          intro v busy hv
          rw [hbusy]
          rcases hread v busy hv with ⟨-, ⟨⟩⟩ | ⟨-, hold⟩
          exact h.read v busy hold
  | wait hold hkept => exact hkeep hkept (by rw [hold]; rfl) (by rintro busy ⟨⟩)
  | dequeue tk hold _ hbusy =>
      have hidle : (s.workers w).busy = false := by
        rcases hold with hold | hold <;> rw [hold] <;> rfl
      rw [hidle] at hcount
      constructor
      case born => exact hborn
      case count =>
          rw [hbusy, h.count]
          exact_mod_cast hcount.symm
      case read => exact fun v busy hv => absurd hv (hnone (hapart w rfl) rfl v busy)
  | readBusy hold hkept => exact hkeep hkept (by rw [hold]; rfl) (by rintro busy ⟨⟩; rfl)
  | writeBusy busy hold _ hbusy =>
      rw [hold] at hcount
      constructor
      case born => exact hborn
      case count =>
          have hone : t.busyWorkers + 1 = s.busyWorkers := hcount
          rw [hbusy, h.read w busy hold, h.count, ← hone]
          simp
      case read => exact fun v busy hv => absurd hv (hnone (hapart w rfl) rfl v busy)
  | other _ _ hbusy _ _ _ hdecrements hkept =>
      apply hkeep hkept hbusy
      rintro busy rfl
      cases hdecrements

theorem Counted.step {act : Action} (h : s.Counted) (hapart : s.DecrementsApart act)
    (hstep : s.step act = some t) :
  t.Counted
  := by
  cases act with
  | acceptor act => exact h.acceptorStep hstep
  | worker w act => exact h.workerStep hapart hstep

/-- The invariant holds when the server starts. -/
theorem Counted.start (junk : Addr → RFrame) (maxThreads n : ℕ) :
  (Server.start junk maxThreads n).Counted
  := by
  have hnone : ∀ w, ((Server.start junk maxThreads n).workers w).busy = false := by
    intro w
    simp only [Server.start]
    split <;> rfl
  constructor
  case born => exact Born.start junk maxThreads n
  case count =>
      have hzero : (Server.start junk maxThreads n).busyWorkers = 0 := by
        rw [busyWorkers, Finset.card_eq_zero, Finset.filter_eq_empty_iff]
        intro w _
        rw [hnone]
        exact Bool.false_ne_true
      rw [hzero]
      rfl
  case read =>
      intro w busy hw
      have hfalse := hnone w
      rw [hw] at hfalse
      cases hfalse

end Server

/-- In every run in which no worker writes `busy_threads` while another one is between the read and
the write of `busy_threads--`, the number is exact. -/
theorem busy_exact {junk : Addr → RFrame} {maxThreads n : ℕ} {acts : List Action} {s : Server}
    (hrun : run Server.step (Server.start junk maxThreads n) acts = some s)
    (hapart : Meets Server.step Server.DecrementsApart (Server.start junk maxThreads n) acts) :
  s.BusyExact
  := by
  have hs : s.Counted := run_invariant_of_meets (fun _ _ _ h hok hstep => h.step hok hstep)
    (.start junk maxThreads n) hapart hrun
  exact hs.exact

/-- A worker answers the request on socket 5, and another one takes the connection on socket 6 when
the first one has written `busy_threads`. -/
theorem busy_exact_two :
  ∃ s, run Server.step (Server.start (fun _ => ⟨⟨0, [], 0, 0⟩, none⟩) 2 2)
        (startWorker 0 ++ startWorker 1 ++ passConnection 5 100 ++ takeConnection 0
          ++ [.worker 0 .close, .worker 0 .readBusy, .worker 0 .writeBusy] ++ passConnection 6 101
          ++ takeConnection 1) = some s
    ∧ s.busyThreads = 1 ∧ s.BusyExact
  := by
  refine ⟨_, rfl, rfl, ?_⟩
  apply @busy_exact (fun _ => ⟨⟨0, [], 0, 0⟩, none⟩) 2 2 (startWorker 0 ++ startWorker 1
    ++ passConnection 5 100 ++ takeConnection 0 ++ [.worker 0 .close, .worker 0 .readBusy,
      .worker 0 .writeBusy] ++ passConnection 6 101 ++ takeConnection 1) _ rfl
  decide

/-- Two workers read `busy_threads` before either of them writes it: both have finished, and the
number is 1. -/
theorem decrements_lost :
  ∃ s, run Server.step (Server.start (fun _ => ⟨⟨0, [], 0, 0⟩, none⟩) 2 2)
        (startWorker 0 ++ startWorker 1 ++ passConnection 5 100 ++ takeConnection 0
          ++ passConnection 6 101 ++ takeConnection 1 ++ [.worker 0 .close, .worker 1 .close,
            .worker 0 .readBusy, .worker 1 .readBusy, .worker 0 .writeBusy, .worker 1 .writeBusy])
      = some s
    ∧ s.busyThreads = 1 ∧ s.workers 0 = .idle ∧ s.workers 1 = .idle ∧ s.nthreads = 2
    ∧ ¬ s.BusyExact
  := by
  refine ⟨_, rfl, rfl, rfl, rfl, rfl, ?_⟩
  intro h
  have hcount := h.count
  revert hcount
  decide

end Gusher
