import Gusher.Cron.Loop
import Mathlib.Algebra.Order.Floor.Semiring
import Mathlib.Data.List.Chain
import Mathlib.Tactic.FieldSimp
import Mathlib.Tactic.Linarith
import Mathlib.Tactic.NormNum
import Mathlib.Tactic.Ring

/-!
# The minutes of cron

`crond` sleeps until a tenth of a second after the beginning of the next minute, goes over the
crontab, and sleeps again.  If a pass takes less than 59.9 seconds, then it ends within its minute,
and the next one begins in the next minute.  A pass which takes between 59.9 and 60 seconds ends in
the first tenth of a second of the next minute, and the next pass is a minute late
(`passes_consecutive_iff`).  `crond` ends with the first exception that is not caught: its own calls
of `log-msg` are not, and neither are those of `job-fail`.
-/

namespace Gusher

open Run

/-- A pass over the crontab: when it begins, and the jobs that it calls. -/
structure Pass (J : Type) where
  now : ℚ
  calls : List J

/-- When `(snooze (- 60.1 (time-sec (time-now))))` returns, if it is called at `t`. -/
def wakeTime (t : ℚ) : ℚ := t + (601 / 10 - timeSec t)

section Passes

variable {J : Type} (clock : Clock) (perform : J → ℚ → Except Text Unit)
  (logMsg : Text → List Text → Except Text Unit) (crontab : List (CronEntry J))

/-- The loop of `crond` from the time `t` on, as long as cron runs: the passes, which take the times
`durations`, and how it ends. -/
def crondLoop : ℚ → List ℚ → List (Pass J) × Except Text Unit
  | _, [] => ([], .ok ())
  | t, duration :: durations =>
      match runjobs clock perform logMsg (wakeTime t) crontab with
      | (calls, .ok ()) =>
          (⟨wakeTime t, calls⟩ :: (crondLoop (wakeTime t + duration) durations).1,
            (crondLoop (wakeTime t + duration) durations).2)
      | (calls, .error exc) => ([⟨wakeTime t, calls⟩], .error exc)

/-- `crond` from the time `t` on, as long as cron runs: its passes, and whether it is still running
after them. -/
def crondPasses (t : ℚ) (durations : List ℚ) : List (Pass J) × Except Text Unit :=
  match logMsg "start cron".toList [] with
  | .ok () => crondLoop clock perform logMsg crontab t durations
  | .error exc => ([], .error exc)

/-- Successive passes begin in successive minutes. -/
def Consecutive (passes : List (Pass J)) : Prop :=
  passes.IsChain fun p q => minuteOf q.now = minuteOf p.now + 1

/-- A pass calls the jobs of the entries that are due in its minute, each once. -/
def Pass.Exact (p : Pass J) : Prop :=
  p.calls = (crontab.filter fun entry => entry.Due clock (minuteOf p.now)).map CronEntry.job

/-- No minute is skipped or given two passes, each pass is exact, and `crond` goes on. -/
structure FiresEachMinute (r : List (Pass J) × Except Text Unit) : Prop where
  consecutive : Consecutive r.1
  exact : ∀ p ∈ r.1, p.Exact clock crontab
  goesOn : r.2 = .ok ()

/-- The beginning of the pass `i` from the time `t` on, when each begins in the minute after the one
before. -/
def passTime (t : ℚ) (i : ℕ) : ℚ :=
  60 * (minuteOf t + 1 + i : ℤ) + 1 / 10

/-- `crond` can log what it logs in `n` passes: its beginning, and the exceptions of the entries. -/
def CanLog (t : ℚ) (n : ℕ) : Prop :=
  logMsg "start cron".toList [] = .ok () ∧
    ∀ i < n, Logged clock perform logMsg (passTime t i) crontab

end Passes

/-! ### The next minute -/

/-- The minute of a time, from the seconds since it has begun. -/
theorem minuteOf_eq {m : ℤ} {x : ℚ} (h0 : 0 ≤ x) (h60 : x < 60) :
  minuteOf (60 * m + x) = m
  := by
  apply Int.floor_eq_iff.mpr
  constructor
  · linarith
  · linarith

/-- The sleep ends a tenth of a second after the beginning of the next minute. -/
theorem wakeTime_eq (t : ℚ) :
  wakeTime t = 60 * (minuteOf t + 1 : ℤ) + 1 / 10
  := by
  push_cast
  rw [wakeTime, timeSec]
  ring

/-- The sleep ends in the next minute. -/
theorem minuteOf_wakeTime (t : ℚ) :
  minuteOf (wakeTime t) = minuteOf t + 1
  := by
  rw [wakeTime_eq]
  apply minuteOf_eq <;> norm_num

theorem minuteOf_wakeTime_add {t d : ℚ} (h0 : 0 ≤ d) (h : d < 599 / 10) :
  minuteOf (wakeTime t + d) = minuteOf t + 1
  := by
  rw [wakeTime_eq, add_assoc]
  apply minuteOf_eq <;> linarith

/-- A pass that takes at least 59.9 seconds, and less than 60, ends in the next minute. -/
theorem minuteOf_wakeTime_add_of_le {t d : ℚ} (h : 599 / 10 ≤ d) (h60 : d < 60) :
  minuteOf (wakeTime t + d) = minuteOf t + 2
  := by
  have hsum : wakeTime t + d = 60 * (minuteOf t + 2 : ℤ) + (d - 599 / 10) := by
    rw [wakeTime_eq]
    push_cast
    ring
  rw [hsum]
  apply minuteOf_eq <;> linarith

theorem passTime_zero (t : ℚ) :
  passTime t 0 = wakeTime t
  := by
  rw [passTime, wakeTime_eq]
  simp

theorem passTime_succ {t d : ℚ} (h0 : 0 ≤ d) (h : d < 599 / 10) (i : ℕ) :
  passTime t (i + 1) = passTime (wakeTime t + d) i
  := by
  rw [passTime, passTime, minuteOf_wakeTime_add h0 h]
  push_cast
  ring

section Passes

variable {J : Type} {clock : Clock} {perform : J → ℚ → Except Text Unit}
  {logMsg : Text → List Text → Except Text Unit} {crontab : List (CronEntry J)}

/-- A pass in which everything can be logged is followed by the others. -/
theorem crondLoop_cons {t : ℚ} (duration : ℚ) (durations : List ℚ)
    (h : Logged clock perform logMsg (wakeTime t) crontab) :
  crondLoop clock perform logMsg crontab t (duration :: durations)
    = (⟨wakeTime t, (runjobs clock perform logMsg (wakeTime t) crontab).1⟩
        :: (crondLoop clock perform logMsg crontab (wakeTime t + duration) durations).1,
      (crondLoop clock perform logMsg crontab (wakeTime t + duration) durations).2)
  := by
  have hok := (runjobs_ok_iff clock perform).mpr h
  rw [crondLoop]
  split
  case h_1 hend => rw [hend]
  case h_2 hend =>
      rw [hend] at hok
      cases hok

/-- The loop ends with a pass in which something cannot be logged. -/
theorem logged_of_goesOn {t : ℚ} {duration : ℚ} {durations : List ℚ}
    (h : (crondLoop clock perform logMsg crontab t (duration :: durations)).2 = .ok ()) :
  Logged clock perform logMsg (wakeTime t) crontab
  := by
  apply (runjobs_ok_iff clock perform).mp
  rw [crondLoop] at h
  split at h
  case h_1 hend => rw [hend]
  case h_2 => cases h

/-- While cron is running, a thread of cron can go through the passes of a loop that goes on, and
calls their jobs. -/
theorem run_crondLoop {s : Cron J} (i : ℕ) {t : ℚ} {durations : List ℚ}
    (hrunning : s.cronState = .running)
    (h : (crondLoop clock perform logMsg s.crontab t durations).2 = .ok ()) :
  run (Cron.step clock perform) (s.goTo i .looping)
      ((crondLoop clock perform logMsg s.crontab t durations).1.flatMap fun p =>
        Cron.passActions i p.now s.crontab)
    = some ({ s with
        called := s.called
          ++ (crondLoop clock perform logMsg s.crontab t durations).1.flatMap Pass.calls
        }.goTo i .looping)
  := by
  induction durations generalizing s t with
  | nil => simp [crondLoop]
  | cons duration durations ih =>
      have hlogged := logged_of_goesOn h
      rw [crondLoop_cons duration durations hlogged] at h ⊢
      simp only [List.flatMap_cons]
      apply run_append.mpr
      refine ⟨_, Cron.run_passActions i hrunning hlogged, ?_⟩
      rw [← List.append_assoc]
      exact ih hrunning h

/-- In a loop that goes on, every pass calls the jobs that are due, each once. -/
theorem exact_of_mem_crondLoop {t : ℚ} {durations : List ℚ}
    (h : (crondLoop clock perform logMsg crontab t durations).2 = .ok ()) :
  ∀ p ∈ (crondLoop clock perform logMsg crontab t durations).1, p.Exact clock crontab
  := by
  induction durations generalizing t with
  | nil => simp [crondLoop]
  | cons duration durations ih =>
      have hlogged := logged_of_goesOn h
      rw [crondLoop_cons duration durations hlogged] at h ⊢
      rw [List.forall_mem_cons]
      exact ⟨runjobs_calls clock perform hlogged, ih h⟩

/-- In a loop that goes on, the minutes of the passes are consecutive exactly if every pass but the
last takes less than 59.9 seconds. -/
theorem consecutive_crondLoop_iff {t : ℚ} {durations : List ℚ}
    (hdurations : ∀ d ∈ durations, 0 ≤ d ∧ d < 60)
    (h : (crondLoop clock perform logMsg crontab t durations).2 = .ok ()) :
  Consecutive (crondLoop clock perform logMsg crontab t durations).1
    ↔ ∀ d ∈ durations.dropLast, d < 599 / 10
  := by
  induction durations generalizing t with
  | nil => simp [crondLoop, Consecutive]
  | cons d durations ih =>
      have hlogged := logged_of_goesOn h
      rw [crondLoop_cons d durations hlogged] at h ⊢
      obtain ⟨h0, h60⟩ := hdurations d List.mem_cons_self
      have ih := ih (fun d hd => hdurations d (List.mem_cons_of_mem _ hd)) h
      cases durations with
      | nil => simp [crondLoop, Consecutive]
      | cons e durations =>
          rw [crondLoop_cons e durations (logged_of_goesOn h)] at ih ⊢
          simp only [Consecutive] at ih
          simp only [Consecutive, List.isChain_cons_cons, ih, List.dropLast_cons_cons,
            List.forall_mem_cons]
          apply and_congr_left'
          -- the next pass begins in the minute after the one in which this pass ends
          rw [minuteOf_wakeTime, minuteOf_wakeTime]
          constructor
          · intro hnext
            by_contra hlong
            rw [minuteOf_wakeTime_add_of_le (not_lt.mp hlong) h60] at hnext
            omega
          · intro hshort
            rw [minuteOf_wakeTime_add h0 hshort]

/-- When every pass but the last takes less than 59.9 seconds, the loop goes on exactly if everything
can be logged. -/
theorem crondLoop_ok_iff {t : ℚ} {durations : List ℚ}
    (hdurations : ∀ d ∈ durations, 0 ≤ d ∧ d < 60)
    (hshort : ∀ d ∈ durations.dropLast, d < 599 / 10) :
  (crondLoop clock perform logMsg crontab t durations).2 = .ok ()
    ↔ ∀ i < durations.length, Logged clock perform logMsg (passTime t i) crontab
  := by
  induction durations generalizing t with
  | nil => simp [crondLoop]
  | cons d durations ih =>
      have hfirst : (∀ i < (d :: durations).length, Logged clock perform logMsg (passTime t i) crontab)
          ↔ Logged clock perform logMsg (wakeTime t) crontab
            ∧ ∀ i < durations.length, Logged clock perform logMsg (passTime t (i + 1)) crontab := by
        rw [List.length_cons, Nat.forall_lt_succ_left, passTime_zero]
      rw [hfirst]
      by_cases hlogged : Logged clock perform logMsg (wakeTime t) crontab
      · rw [crondLoop_cons d durations hlogged, and_iff_right hlogged]
        cases durations with
        | nil => simp [crondLoop]
        | cons e durations =>
            obtain ⟨h0, -⟩ := hdurations d List.mem_cons_self
            rw [List.dropLast_cons_cons, List.forall_mem_cons] at hshort
            have hnext : ∀ i, passTime t (i + 1) = passTime (wakeTime t + d) i :=
              passTime_succ h0 hshort.1
            simp only [hnext]
            exact ih (fun d hd => hdurations d (List.mem_cons_of_mem _ hd)) hshort.2
      · apply iff_of_false
        · exact fun h => hlogged (logged_of_goesOn h)
        · exact fun h => hlogged h.1

/-- For passes of less than 60 seconds: the minutes of the passes are consecutive, every pass calls
the jobs that are due in its minute, each once, and `crond` goes on, exactly if every pass but the
last takes less than 59.9 seconds, and `log-msg` returns whenever it is called. -/
theorem passes_consecutive_iff {t : ℚ} {durations : List ℚ}
    (hdurations : ∀ d ∈ durations, 0 ≤ d ∧ d < 60) :
  FiresEachMinute clock crontab (crondPasses clock perform logMsg crontab t durations)
    ↔ CanLog clock perform logMsg crontab t durations.length
      ∧ ∀ d ∈ durations.dropLast, d < 599 / 10
  := by
  rw [crondPasses, CanLog]
  cases hstart : logMsg "start cron".toList [] with
  | error exc =>
      apply iff_of_false
      · rintro ⟨-, -, hgoesOn⟩
        cases hgoesOn
      · rintro ⟨⟨hok, -⟩, -⟩
        cases hok
  | ok =>
      rw [and_iff_right rfl]
      constructor
      · rintro ⟨hconsecutive, -, hgoesOn⟩
        have hshort := (consecutive_crondLoop_iff hdurations hgoesOn).mp hconsecutive
        exact ⟨(crondLoop_ok_iff hdurations hshort).mp hgoesOn, hshort⟩
      · rintro ⟨hlogged, hshort⟩
        have hgoesOn := (crondLoop_ok_iff hdurations hshort).mpr hlogged
        exact ⟨(consecutive_crondLoop_iff hdurations hgoesOn).mpr hshort,
          exact_of_mem_crondLoop hgoesOn, hgoesOn⟩

end Passes

/-- Two jobs, the first of which raises an exception, in two passes that take 10 seconds. -/
theorem passes_consecutive_two :
  FiresEachMinute ⟨id, id⟩ [⟨.null, .null, 1⟩, ⟨.null, .number 1, 2⟩]
    (crondPasses ⟨id, id⟩ (fun job _ => if job = 1 then .error ['x'] else .ok ())
      (fun _ _ => .ok ()) [⟨.null, .null, 1⟩, ⟨.null, .number 1, 2⟩] 0 [10, 10])
  := by
  have hdurations : ∀ d ∈ [(10 : ℚ), 10], 0 ≤ d ∧ d < 60 := by norm_num
  apply (passes_consecutive_iff hdurations).mpr
  exact ⟨⟨rfl, fun _ _ _ _ _ _ => rfl⟩, by norm_num⟩

/-- A pass that takes 59.95 seconds begins in the minute 1, and the next pass in the minute 3: a job
for the minute 2 is not called.  When `log-msg` is unbound, no job is ever called. -/
theorem minute_skipped :
  (¬ FiresEachMinute ⟨id, id⟩ [⟨.null, .number 2, 7⟩] (crondPasses ⟨id, id⟩ (fun _ _ => .ok ())
      (fun _ _ => .ok ()) [⟨.null, .number 2, 7⟩] 0 [5995 / 100, 1])
    ∧ (crondPasses ⟨id, id⟩ (fun _ _ => .ok ()) (fun _ _ => .ok ()) [⟨.null, .number 2, 7⟩] 0
        [5995 / 100, 1]).1.map (fun p => (minuteOf p.now, p.calls)) = [(1, []), (3, [])])
    ∧ crondPasses ⟨id, id⟩ (fun _ _ => .ok ())
        (fun _ _ => .error "unbound-variable".toList) [⟨.null, .number 2, 7⟩] 0 [5995 / 100, 1]
      = ([], .error "unbound-variable".toList)
  := by
  have hfirst : minuteOf (wakeTime 0) = 1 := by
    rw [minuteOf_wakeTime]
    norm_num [minuteOf]
  have hsecond : minuteOf (wakeTime (wakeTime 0 + 5995 / 100)) = 3 := by
    rw [minuteOf_wakeTime, minuteOf_wakeTime_add_of_le (by norm_num) (by norm_num)]
    norm_num [minuteOf]
  have hlogged : ∀ now, Logged ⟨id, id⟩ (fun _ _ => .ok ()) (fun _ _ => .ok ()) now
      [⟨.null, .number 2, 7⟩] := fun _ _ _ _ _ => rfl
  have hpasses : crondPasses ⟨id, id⟩ (fun _ _ => .ok ()) (fun _ _ => .ok ())
      [⟨.null, .number 2, 7⟩] 0 [5995 / 100, 1]
      = ([⟨wakeTime 0, []⟩, ⟨wakeTime (wakeTime 0 + 5995 / 100), []⟩], .ok ()) := by
    rw [crondPasses]
    dsimp only
    rw [crondLoop_cons _ _ (hlogged _), crondLoop_cons _ _ (hlogged _)]
    simp [crondLoop, runjobs_calls _ _ (hlogged _), hfirst, hsecond, CronEntry.Due, Trigger.Matches]
  refine ⟨⟨?_, ?_⟩, rfl⟩
  · rw [hpasses]
    rintro ⟨hconsecutive, -⟩
    simp [Consecutive, hfirst, hsecond] at hconsecutive
  · simp [hpasses, hfirst, hsecond]

end Gusher
