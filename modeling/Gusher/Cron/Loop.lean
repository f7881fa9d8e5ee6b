import Gusher.Cron.Jobs
import Gusher.Library.Run

/-!
# Starting and stopping cron

Any number of threads call `cron-start` and `cron-stop`, and each successful `cron-start` creates a
thread that runs `crond`.  Each read or write of `cron-state` is a step of its own.  It is the new
thread that writes `running` into `cron-state`, so a second `cron-start` in the meantime creates a
second thread.  Apart from that there is at most one thread of cron, and when it ends no further job
runs until the next `cron-start` (`one_cron_loop`).
-/

namespace Gusher

open Run

/-- The values of `cron-state`. -/
inductive CronState where
  | stopped | running | stopping
  deriving DecidableEq

/-- Where a thread that runs `crond` is. -/
inductive Crond (J : Type) where
  /-- not created yet -/
  | unborn
  /-- created by `call-with-new-thread`; `crond` has not begun -/
  | created
  /-- at the beginning of the loop -/
  | looping
  | snoozing
  /-- `snooze` has returned `#t` -/
  | woken
  /-- about to call `runjobs` -/
  | due
  /-- in `runjobs`, before these entries -/
  | working (now : ℚ) (entries : List (CronEntry J))
  /-- the loop has ended -/
  | ending
  | finished

/-- A thread of cron is created and not yet finished. -/
def Crond.live {J : Type} : Crond J → Bool
  | .unborn | .finished => false
  | _ => true

/-- A thread of cron has begun and is not yet finished. -/
def Crond.begun {J : Type} : Crond J → Bool
  | .unborn | .created | .finished => false
  | _ => true

/-- Where a thread that calls `cron-start` and `cron-stop` is. -/
inductive CronCaller where
  | idle
  /-- in `cron-start`, which has found `stopped` -/
  | starting
  /-- in `cron-stop`, which has found `running` -/
  | stopping
  deriving DecidableEq

/-- The state of cron. -/
structure Cron (J : Type) where
  cronState : CronState
  crontab : List (CronEntry J)
  threads : ℕ → Crond J
  /-- how many threads have been created -/
  count : ℕ
  callers : ℕ → CronCaller
  /-- the jobs that have been called, in this order -/
  called : List J

/-- What a thread that calls the module does. -/
inductive CallerAction (J : Type) where
  /-- `cron-add` -/
  | add (entry : CronEntry J)
  /-- `cron-clear` -/
  | clear
  /-- `cron-start` reads `cron-state` -/
  | start
  /-- `cron-start` calls `call-with-new-thread`, and returns `#t` -/
  | create
  /-- `cron-stop` reads `cron-state` -/
  | stop
  /-- `cron-stop` writes `cron-state`, and returns `#t` -/
  | setStopping

/-- What a thread that runs `crond` does. -/
inductive CrondAction where
  /-- it writes `running` -/
  | enter
  /-- it reads `cron-state` at the beginning of the loop -/
  | check
  /-- `snooze` returns -/
  | wake (ok : Bool)
  /-- it reads `cron-state` after `snooze` -/
  | recheck
  /-- it reads the time and the crontab -/
  | begin (now : ℚ)
  /-- `runjobs` goes over one entry -/
  | entry
  /-- `runjobs` returns -/
  | passed
  /-- it writes `stopped`, and finishes -/
  | exit

/-- A step of the caller `c`, or of the thread `i` of cron. -/
inductive CronAction (J : Type) where
  | caller (c : ℕ) (act : CallerAction J)
  | crond (i : ℕ) (act : CrondAction)

/-- An action is a call of `cron-start`. -/
def CronAction.starts {J : Type} : CronAction J → Bool
  | .caller _ .start => true
  | _ => false

namespace Cron

variable {J : Type}

/-- The thread `i` goes to `x`. -/
def goTo (s : Cron J) (i : ℕ) (x : Crond J) : Cron J :=
  { s with threads := Function.update s.threads i x }

def running (s : Cron J) : Bool := s.cronState = .running

/-- The module `(gusher cron)` when it is loaded. -/
def init : Cron J where
  cronState := .stopped
  crontab := []
  threads := fun _ => .unborn
  count := 0
  callers := fun _ => .idle
  called := []

/-- One step of `cron-add`, `cron-clear`, `cron-start` or `cron-stop`, called by `c`. -/
def callerStep (s : Cron J) (c : ℕ) : CallerAction J → Option (Cron J)
  | .add entry =>
      if s.callers c ≠ .idle then none
      else some { s with crontab := entry :: s.crontab }
  | .clear =>
      if s.callers c ≠ .idle then none
      else some { s with crontab := [] }
  | .start =>
      if s.callers c ≠ .idle then none
      else if s.cronState = .stopped then
        some { s with callers := Function.update s.callers c .starting }
      -- it logs "cron active" and returns #f
      else some s
  | .create =>
      if s.callers c ≠ .starting then none
      else some { s with
        callers := Function.update s.callers c .idle
        threads := Function.update s.threads s.count .created
        count := s.count + 1 }
  | .stop =>
      if s.callers c ≠ .idle then none
      else if s.running then
        some { s with callers := Function.update s.callers c .stopping }
      -- it logs "cron stopping or stopped" and returns #f
      else some s
  | .setStopping =>
      if s.callers c ≠ .stopping then none
      else some { s with
        callers := Function.update s.callers c .idle
        cronState := .stopping }

section Step

variable (clock : Clock) (perform : J → ℚ → Except Text Unit)

/-- One step of `crond` in the thread `i`. -/
def crondStep (s : Cron J) (i : ℕ) (act : CrondAction) : Option (Cron J) :=
  match act, s.threads i with
  | .enter, .created => some ({ s with cronState := .running }.goTo i .looping)
  | .check, .looping => some (s.goTo i (if s.running then .snoozing else .ending))
  | .wake ok, .snoozing => some (s.goTo i (if ok then .woken else .looping))
  | .recheck, .woken => some (s.goTo i (if s.running then .due else .looping))
  | .begin now, .due => some (s.goTo i (.working now s.crontab))
  | .entry, .working now (entry :: rest) =>
      some ({ s with called := s.called ++ (runjob clock perform now entry).1 }.goTo i
        (.working now rest))
  | .passed, .working _ [] => some (s.goTo i .looping)
  | .exit, .ending => some ({ s with cronState := .stopped }.goTo i .finished)
  | _, _ => none

def step (s : Cron J) : CronAction J → Option (Cron J)
  | .caller c act => s.callerStep c act
  | .crond i act => s.crondStep clock perform i act

end Step

/-- At most one thread of cron is created and not yet finished. -/
def OneThread (s : Cron J) : Prop :=
  ∀ i j, (s.threads i).live = true → (s.threads j).live = true → i = j

/-- In a run a `cron-stop` has returned `#t`, and the last step writes `stopped` into
`cron-state`. -/
def StoppedAgain (acts : List (CronAction J)) : Prop :=
  ∃ before c between i, acts = before ++ .caller c .setStopping :: between ++ [.crond i .exit]

/-- The condition on the steps: when a `cron-start` finds `stopped`, no other `cron-start` is
between its check and the creation of its thread, and every thread of cron that has been created has
begun. -/
def StartsAlone (s : Cron J) (act : CronAction J) : Prop :=
  act.starts = true → s.cronState = .stopped →
    (∀ c, s.callers c ≠ .starting) ∧ ∀ i, (s.threads i).live = true → (s.threads i).begun = true

/-! ### What a step does to the threads -/

/-- How a step of the thread `i`, which moves it to `x`, treats `cron-state`. -/
inductive Went (s t : Cron J) (i : ℕ) : CrondAction → Crond J → Prop where
  | enter (h : s.threads i = .created) (hstate : t.cronState = .running) :
      Went s t i .enter .looping
  | exit (h : s.threads i = .ending) (hstate : t.cronState = .stopped) :
      Went s t i .exit .finished
  | other (act : CrondAction) (x : Crond J) (hact : act ≠ .exit) (h : (s.threads i).begun = true)
      (hx : x.begun = true) (hstate : t.cronState = s.cronState) :
      Went s t i act x

/-- What a step of the caller `c` does. -/
inductive Asked (s t : Cron J) (c : ℕ) : CallerAction J → Prop where
  | start (hstopped : s.cronState = .stopped)
      (ht : t = { s with callers := Function.update s.callers c .starting }) :
      Asked s t c .start
  | create (h : s.callers c = .starting)
      (ht : t = { s with
        callers := Function.update s.callers c .idle
        threads := Function.update s.threads s.count .created
        count := s.count + 1 }) :
      Asked s t c .create
  | other (act : CallerAction J) (hthreads : t.threads = s.threads) (hcalled : t.called = s.called)
      (hcallers : ∀ d, t.callers d = .starting → s.callers d = .starting)
      (hstate : t.cronState = .stopped → s.cronState = .stopped) :
      Asked s t c act

variable {clock : Clock} {perform : J → ℚ → Except Text Unit} {s t : Cron J} {i c : ℕ}

/-- A step of a caller enters `cron-start`, creates a thread, or does neither. -/
theorem asked_of_callerStep {act : CallerAction J} (hstep : s.callerStep c act = some t) :
  s.Asked t c act
  := by
  -- a caller that does not enter `cron-start`
  have hmoved : ∀ x : CronCaller, x ≠ .starting → ∀ d,
      Function.update s.callers c x d = .starting → s.callers d = .starting := by
    intro x hx d
    rw [Function.update_apply]
    split
    case isTrue => exact fun h => absurd h hx
    case isFalse => exact id
  revert hstep
  fun_cases callerStep s c act
  case case6 hstopped =>
      rintro ⟨⟩
      exact .start hstopped rfl
  case case9 hstarting =>
      rintro ⟨⟩
      exact .create (not_not.mp hstarting) rfl
  case case11 =>
      rintro ⟨⟩
      exact .other _ rfl rfl (hmoved .stopping nofun) id
  case case14 =>
      rintro ⟨⟩
      exact .other _ rfl rfl (hmoved .idle nofun) nofun
  -- the other steps fail, or leave the callers and `cron-state` as they are
  all_goals
    rintro ⟨⟩
    try exact .other _ rfl rfl (fun _ => id) id

/-- A step of a thread of cron moves this thread only. -/
theorem went_of_crondStep {act : CrondAction} (hstep : s.crondStep clock perform i act = some t) :
  ∃ x, t.threads = Function.update s.threads i x ∧ t.callers = s.callers ∧ s.Went t i act x
  := by
  revert hstep
  fun_cases crondStep clock perform s i act
  case case1 h =>
      rintro ⟨⟩
      exact ⟨_, rfl, rfl, .enter h rfl⟩
  case case8 h =>
      rintro ⟨⟩
      exact ⟨_, rfl, rfl, .exit h rfl⟩
  case case9 => nofun
  -- the other steps move the thread within the loop
  all_goals
    rename_i h
    rintro ⟨⟩
    refine ⟨_, rfl, rfl, .other _ _ nofun (by rw [h]; rfl) ?_ rfl⟩
    first
      | rfl
      | split <;> rfl

theorem live_of_begun {x : Crond J} (h : x.begun = true) :
  x.live = true
  := by
  revert h
  cases x <;> simp [Crond.begun, Crond.live]

theorem live_of_crondStep {act : CrondAction} (hstep : s.crondStep clock perform i act = some t) :
  (s.threads i).live = true
  := by
  obtain ⟨x, -, -, hwent⟩ := went_of_crondStep hstep
  cases hwent with
  | enter h => rw [h]; rfl
  | exit h => rw [h]; rfl
  | other _ _ _ h => exact live_of_begun h

/-- A thread that goes over all the entries of a pass calls the jobs that `runjobs` calls. -/
theorem run_entries {logMsg : Text → List Text → Except Text Unit} (s : Cron J) (i : ℕ) {now : ℚ}
    {entries : List (CronEntry J)} (h : Logged clock perform logMsg now entries) :
  run (step clock perform) (s.goTo i (.working now entries))
      (entries.map fun _ => .crond i .entry)
    = some ({ s with called := s.called ++ (runjobs clock perform logMsg now entries).1 }.goTo i
        (.working now []))
  := by
  induction entries generalizing s with
  | nil => simp [goTo, runjobs]
  | cons entry rest ih =>
      obtain ⟨hentry, hrest⟩ := List.forall_mem_cons.mp h
      let u := { s with called := s.called ++ (runjob clock perform now entry).1 }
      have hstep : step clock perform (s.goTo i (.working now (entry :: rest)))
          (.crond i .entry) = some (u.goTo i (.working now rest)) := by
        simp [step, crondStep, u, goTo]
      rw [List.map_cons, run, hstep, Option.bind_some, ih u hrest,
        runjobs_cons clock perform rest hentry, ← List.append_assoc]

/-- The steps of a thread that wakes up at the time `now` and goes over the crontab. -/
def passActions (i : ℕ) (now : ℚ) (crontab : List (CronEntry J)) : List (CronAction J) :=
  [.crond i .check, .crond i (.wake true), .crond i .recheck, .crond i (.begin now)]
    ++ crontab.map (fun _ => .crond i .entry) ++ [.crond i .passed]

/-- While cron is running, a thread of cron can go once through the loop, and calls the jobs that
`runjobs` calls. -/
theorem run_passActions {logMsg : Text → List Text → Except Text Unit} {s : Cron J} (i : ℕ) {now : ℚ}
    (hrunning : s.cronState = .running) (h : Logged clock perform logMsg now s.crontab) :
  run (step clock perform) (s.goTo i .looping) (passActions i now s.crontab)
    = some ({ s with
        called := s.called ++ (runjobs clock perform logMsg now s.crontab).1 }.goTo i .looping)
  := by
  have hbegin : run (step clock perform) (s.goTo i .looping)
      [.crond i .check, .crond i (.wake true), .crond i .recheck, .crond i (.begin now)]
        = some (s.goTo i (.working now s.crontab)) := by
    simp [run, step, crondStep, running, goTo, hrunning]
  apply run_append.mpr
  refine ⟨_, run_append.mpr ⟨_, hbegin, run_entries s i h⟩, ?_⟩
  simp [run, step, crondStep, goTo]

/-! ### At most one thread -/

/-- The invariant: at most one thread of cron is live, or one `cron-start` is about to create
one. -/
structure Alone (s : Cron J) : Prop where
  oneThread : s.OneThread
  oneCaller : ∀ c d, s.callers c = .starting → s.callers d = .starting → c = d
  apart : ∀ c, s.callers c = .starting → ∀ i, (s.threads i).live = false
  state : ∀ i, (s.threads i).begun = true → s.cronState ≠ .stopped

/-- No thread of cron is live, and no `cron-start` is about to create one. -/
structure Halted (s : Cron J) : Prop where
  callers : ∀ c, s.callers c ≠ .starting
  threads : ∀ i, (s.threads i).live = false

theorem Alone.init :
  (Cron.init : Cron J).Alone
  := by
  constructor
  case oneThread => exact fun _ _ hi => nomatch hi
  case oneCaller => exact fun _ _ hc => nomatch hc
  case apart => exact fun _ hc => nomatch hc
  case state => exact fun _ hi => nomatch hi

/-- A step of a caller that meets the condition keeps the invariant. -/
theorem Alone.callerStep {act : CallerAction J} (h : s.Alone)
    (hok : s.StartsAlone (.caller c act)) (hstep : s.callerStep c act = some t) :
  t.Alone
  := by
  cases asked_of_callerStep hstep with
  | start hstopped ht =>
      subst ht
      obtain ⟨hcallers, hbegun⟩ := hok rfl hstopped
      have hlive : ∀ i, (s.threads i).live = false := by
        intro i
        by_contra hi
        exact h.state i (hbegun i (Bool.eq_true_of_not_eq_false hi)) hstopped
      have honly : ∀ d, Function.update s.callers c .starting d = .starting → d = c := by
        intro d
        rw [Function.update_apply]
        split
        case isTrue hd => exact fun _ => hd
        case isFalse => exact fun hd => absurd hd (hcallers d)
      constructor
      case oneThread => exact h.oneThread
      case oneCaller => exact fun d e hd he => (honly d hd).trans (honly e he).symm
      case apart => exact fun _ _ => hlive
      case state => exact h.state
  | create hstarting ht =>
      subst ht
      have hlive := h.apart c hstarting
      have honly : ∀ j, (Function.update s.threads s.count .created j).live = true →
          j = s.count := by
        intro j
        rw [Function.update_apply]
        split
        case isTrue hj => exact fun _ => hj
        case isFalse => exact fun hj => absurd hj (by rw [hlive j]; nofun)
      have hcallers : ∀ d, Function.update s.callers c .idle d ≠ .starting := by
        intro d
        rw [Function.update_apply]
        split
        case isTrue => nofun
        case isFalse hd => exact fun hother => hd (h.oneCaller d c hother hstarting)
      constructor
      case oneThread => exact fun i j hi hj => (honly i hi).trans (honly j hj).symm
      case oneCaller => exact fun d _ hd => absurd hd (hcallers d)
      case apart => exact fun d hd => absurd hd (hcallers d)
      case state =>
          intro i
          simp only [Function.update_apply]
          split
          case isTrue => nofun
          case isFalse => exact h.state i
  | other _ hthreads _ hcallers hstate =>
      constructor
      case oneThread =>
          rw [OneThread, hthreads]
          exact h.oneThread
      case oneCaller => exact fun d e hd he => h.oneCaller d e (hcallers d hd) (hcallers e he)
      case apart =>
          rw [hthreads]
          exact fun d hd => h.apart d (hcallers d hd)
      case state =>
          rw [hthreads]
          exact fun i hi hstopped => h.state i hi (hstate hstopped)

/-- When the only live thread finishes, cron is halted. -/
theorem Alone.exit (h : s.Alone) (hstep : s.crondStep clock perform i .exit = some t) :
  t.Halted
  := by
  have hlive := live_of_crondStep hstep
  obtain ⟨x, hthreads, hcallers, hwent⟩ := went_of_crondStep hstep
  have hx : x.live = false := by
    cases hwent with
    | exit => rfl
    | other _ _ hact => exact absurd rfl hact
  constructor
  case callers =>
      intro c hc
      rw [hcallers] at hc
      cases (h.apart c hc i).symm.trans hlive
  case threads =>
      intro j
      rw [hthreads, Function.update_apply]
      split
      case isTrue => exact hx
      case isFalse hj =>
          by_contra hlive'
          exact hj (h.oneThread j i (Bool.eq_true_of_not_eq_false hlive') hlive)

/-- A step of a thread of cron keeps the invariant. -/
theorem Alone.crondStep {act : CrondAction} (h : s.Alone)
    (hstep : s.crondStep clock perform i act = some t) :
  t.Alone
  := by
  have hlive := live_of_crondStep hstep
  obtain ⟨x, hthreads, hcallers, hwent⟩ := went_of_crondStep hstep
  -- no caller is about to create a thread, and every live thread is this one
  have hnone : ∀ c, t.callers c ≠ .starting := by
    intro c hc
    rw [hcallers] at hc
    cases (h.apart c hc i).symm.trans hlive
  have honly : ∀ j, (t.threads j).live = true → j = i := by
    intro j
    rw [hthreads, Function.update_apply]
    split
    case isTrue hj => exact fun _ => hj
    case isFalse => exact fun hj => h.oneThread j i hj hlive
  constructor
  case oneThread => exact fun j k hj hk => (honly j hj).trans (honly k hk).symm
  case oneCaller => exact fun c _ hc => absurd hc (hnone c)
  case apart => exact fun c hc => absurd hc (hnone c)
  case state =>
      intro j hj
      obtain rfl := honly j (live_of_begun hj)
      rw [hthreads, Function.update_self] at hj
      cases hwent with
      | enter _ hstate => rw [hstate]; nofun
      | exit => cases hj
      | other _ _ _ hbegun _ hstate => rw [hstate]; exact h.state _ hbegun

theorem Alone.step {act : CronAction J} (h : s.Alone) (hok : s.StartsAlone act)
    (hstep : s.step clock perform act = some t) :
  t.Alone
  := by
  cases act with
  | caller c act => exact h.callerStep hok hstep
  | crond i act => exact h.crondStep hstep

/-- When cron is halted, a step that does not call `cron-start` leaves it halted, and calls no
job. -/
theorem Halted.step {act : CronAction J} (h : s.Halted) (hact : act.starts = false)
    (hstep : s.step clock perform act = some t) :
  t.Halted ∧ t.called = s.called
  := by
  cases act with
  | caller c act =>
      cases asked_of_callerStep hstep with
      | start => cases hact
      | create hstarting => exact absurd hstarting (h.callers c)
      | other _ hthreads hcalled hcallers =>
          refine ⟨⟨fun d hd => h.callers d (hcallers d hd), ?_⟩, hcalled⟩
          rw [hthreads]
          exact h.threads
  | crond i act => cases (h.threads i).symm.trans (live_of_crondStep hstep)

/-- When cron is halted, no job is called before the next call of `cron-start`. -/
theorem Halted.run {acts : List (CronAction J)} (h : s.Halted)
    (hacts : ∀ act ∈ acts, act.starts = false)
    (hrun : Run.run (Cron.step clock perform) s acts = some t) :
  t.called = s.called
  := by
  induction acts generalizing s with
  | nil =>
      obtain rfl := Option.some.inj hrun
      rfl
  | cons act acts ih =>
      obtain ⟨u, hu, hrun⟩ := run_cons.mp hrun
      obtain ⟨hhalted, hcalled⟩ := h.step (hacts act List.mem_cons_self) hu
      rw [ih hhalted (fun act hact => hacts act (List.mem_cons_of_mem _ hact)) hrun, hcalled]

end Cron

/-- In every run in which a `cron-start` finds `stopped` only when no other thread of cron is about
to be created or to begin, at most one thread of cron is created and not yet finished; and from the
moment that `cron-state` is `stopped` again after a successful `cron-stop`, no job is called before
the next `cron-start`. -/
theorem one_cron_loop {J : Type} {clock : Clock} {perform : J → ℚ → Except Text Unit}
    {acts : List (CronAction J)} {s : Cron J}
    (hrun : run (Cron.step clock perform) Cron.init acts = some s)
    (hok : Meets (Cron.step clock perform) Cron.StartsAlone Cron.init acts) :
  s.OneThread
    ∧ ∀ acts' after u, acts = acts' ++ after → Cron.StoppedAgain acts' →
        run (Cron.step clock perform) Cron.init acts' = some u →
        (∀ act ∈ after, act.starts = false) → s.called = u.called
  := by
  have halone : ∀ {acts s}, run (Cron.step clock perform) Cron.init acts = some s →
      Meets (Cron.step clock perform) Cron.StartsAlone Cron.init acts → s.Alone := by
    intro acts s hrun hok
    exact run_invariant_of_meets (fun _ _ _ h hok hstep => h.step hok hstep) .init hok hrun
  refine ⟨(halone hrun hok).oneThread, ?_⟩
  rintro acts' after u rfl ⟨before, c, between, i, rfl⟩ hu hafter
  obtain ⟨u', hu', hrun⟩ := run_append.mp hrun
  obtain rfl := Option.some.inj (hu.symm.trans hu')
  -- the state in which the thread writes `stopped`
  obtain ⟨v, hv, hlast⟩ := run_append.mp hu
  obtain ⟨w, hexit, hw⟩ := run_cons.mp hlast
  obtain rfl := Option.some.inj hw
  have hmeets := (meets_append.mp (meets_append.mp hok).1).1
  exact ((halone hv hmeets).exit hexit).run hafter hrun

/-- Cron is started, calls a job, and is stopped; then its crontab is cleared. -/
theorem one_cron_loop_once :
  ∃ s : Cron ℕ, run (Cron.step ⟨id, id⟩ fun _ _ => .ok ()) Cron.init
      ([.caller 0 .start, .caller 0 .create, .caller 0 (.add ⟨.null, .null, 7⟩), .crond 0 .enter,
          .crond 0 .check, .crond 0 (.wake true), .crond 0 .recheck, .crond 0 (.begin 0),
          .crond 0 .entry, .crond 0 .passed, .caller 0 .stop, .caller 0 .setStopping,
          .crond 0 .check, .crond 0 .exit] ++ [.caller 0 .clear]) = some s
    ∧ s.OneThread ∧ s.called = [7]
  := by
  let before : List (CronAction ℕ) := [.caller 0 .create, .caller 0 (.add ⟨.null, .null, 7⟩),
    .crond 0 .enter, .crond 0 .check, .crond 0 (.wake true), .crond 0 .recheck,
    .crond 0 (.begin 0), .crond 0 .entry, .crond 0 .passed, .caller 0 .stop]
  let acts := .caller 0 .start
    :: before ++ .caller 0 .setStopping :: [.crond 0 .check] ++ [.crond 0 .exit]
  have hok : Meets (Cron.step ⟨id, id⟩ fun _ _ => .ok ()) Cron.StartsAlone Cron.init
      (acts ++ [.caller 0 .clear]) := by
    have hrest : ∀ act ∈ acts.tail ++ [.caller 0 .clear], act.starts = false := by decide
    refine ⟨fun _ _ => ⟨nofun, nofun⟩, fun _ _ => meets_of_forall ?_⟩
    intro _ act hact hstarts
    cases (hrest act hact).symm.trans hstarts
  have hloop := one_cron_loop rfl hok
  refine ⟨_, rfl, hloop.1, ?_⟩
  exact hloop.2 acts [.caller 0 .clear] _ rfl
    ⟨.caller 0 .start :: before, 0, [.crond 0 .check], 0, rfl⟩ rfl (by decide)

/-- Two calls of `cron-start` come before the first thread begins: there are two threads of cron,
and when one of them has ended after a `cron-stop`, the other one still calls a job. -/
theorem two_cron_loops :
  ∃ acts acts' after : List (CronAction ℕ), ∃ r s u,
    run (Cron.step ⟨id, id⟩ fun _ _ => .ok ()) Cron.init acts = some r
      ∧ ¬ r.OneThread
      ∧ run (Cron.step ⟨id, id⟩ fun _ _ => .ok ()) Cron.init (acts ++ acts') = some u
      ∧ Cron.StoppedAgain (acts ++ acts') ∧ u.cronState = .stopped
      ∧ run (Cron.step ⟨id, id⟩ fun _ _ => .ok ()) Cron.init (acts ++ acts' ++ after) = some s
      ∧ (∀ act ∈ after, act.starts = false) ∧ u.called = [] ∧ s.called = [7]
  := by
  let acts : List (CronAction ℕ) := [.caller 0 (.add ⟨.null, .null, 7⟩), .caller 0 .start,
    .caller 0 .create, .caller 1 .start, .caller 1 .create]
  -- both threads go once through the loop, and `cron-stop` comes when one of them is in its pass
  let acts' : List (CronAction ℕ) := [.crond 0 .enter, .crond 0 .check, .crond 0 (.wake true),
    .crond 0 .recheck, .crond 1 .enter, .caller 0 .stop, .caller 0 .setStopping, .crond 1 .check,
    .crond 1 .exit]
  refine ⟨acts, acts', [.crond 0 (.begin 0), .crond 0 .entry], _, _, _, rfl, ?_, rfl, ?_, rfl, rfl,
    ?_, rfl, rfl⟩
  · intro h
    cases h 0 1 rfl rfl
  · exact ⟨acts ++ acts'.take 6, 0, [.crond 1 .check], 1, rfl⟩
  · decide

end Gusher
