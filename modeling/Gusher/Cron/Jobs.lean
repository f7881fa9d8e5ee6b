import Gusher.Scheme.Object
import Mathlib.Algebra.Order.Field.Rat
import Mathlib.Algebra.Order.Floor.Ring
import Mathlib.Data.Rat.Floor

/-!
# The jobs of cron

An entry of the crontab is a job with two triggers, one for the hour and one for the minute.  A pass
over the crontab calls the jobs whose triggers match the time of the pass (`runjobs_calls`); a job
or a trigger that raises an exception only ends its own entry, if the exception can be logged.

Times are rational numbers of seconds.  What the local hour and minute are is a parameter, and so is
how a call of `log-msg` ends: the module does not import it, so that it may be unbound.
-/

namespace Gusher

/-- The trigger of an entry of the crontab, an arbitrary object of Scheme. -/
inductive Trigger where
  /-- the empty list, which stands for any hour or minute -/
  | null
  /-- a rational number -/
  | number (q : ℚ)
  /-- any other number, which equals no integer -/
  | irrational
  /-- an object that is not a number, on which `=` raises an exception -/
  | other
  deriving DecidableEq

/-- An entry of the crontab, with a job of the type `J`. -/
structure CronEntry (J : Type) where
  hour : Trigger
  minute : Trigger
  job : J

/-- The local hour and minute, for each minute since the epoch. -/
structure Clock where
  hour : ℤ → ℤ
  minute : ℤ → ℤ

def minuteOf (t : ℚ) : ℤ := ⌊t / 60⌋

/-- `time-sec`: the seconds of a time, within its minute. -/
def timeSec (t : ℚ) : ℚ := t - 60 * minuteOf t

def Clock.timeHour (clock : Clock) (t : ℚ) : ℤ := clock.hour (minuteOf t)

def Clock.timeMin (clock : Clock) (t : ℚ) : ℤ := clock.minute (minuteOf t)

/-- `check-trigger`; an exception is the text of the key and of the parameters that `catch` gets. -/
def checkTrigger (trigger : Trigger) (part : ℤ) : Except Text Bool :=
  match trigger with
  | .null => .ok true
  | .number q => .ok (decide ((part : ℚ) = q))
  | .irrational => .ok false
  | .other => .error "wrong-type-arg".toList

section Jobs

variable {J : Type} (clock : Clock) (perform : J → ℚ → Except Text Unit)

/-- `runjob`: the job, if it is called, and how the entry ends.  What the call of a job does is
given by `perform`. -/
def runjob (now : ℚ) (entry : CronEntry J) : List J × Except Text Unit :=
  match checkTrigger entry.hour (clock.timeHour now) with
  | .error key => ([], .error key)
  | .ok false => ([], .ok ())
  | .ok true =>
      match checkTrigger entry.minute (clock.timeMin now) with
      | .error key => ([], .error key)
      | .ok false => ([], .ok ())
      | .ok true => ([entry.job], perform entry.job now)

variable (logMsg : Text → List Text → Except Text Unit)

def jobFail (exc : Text) : Except Text Unit :=
  logMsg "CRON FAIL: ~s, ~s".toList [exc]

/-- `runjobs`: the jobs that are called, and how the pass ends. -/
def runjobs (now : ℚ) : List (CronEntry J) → List J × Except Text Unit
  | [] => ([], .ok ())
  | entry :: rest =>
      match runjob clock perform now entry with
      | (calls, .ok ()) => (calls ++ (runjobs now rest).1, (runjobs now rest).2)
      | (calls, .error exc) =>
          match jobFail logMsg exc with
          | .ok () => (calls ++ (runjobs now rest).1, (runjobs now rest).2)
          | .error exc => (calls, .error exc)

/-- The exceptions that entries of the crontab raise at a time can be logged. -/
def Logged (now : ℚ) (crontab : List (CronEntry J)) : Prop :=
  ∀ entry ∈ crontab, ∀ exc, (runjob clock perform now entry).2 = .error exc →
    jobFail logMsg exc = .ok ()

def Trigger.Matches (trigger : Trigger) (part : ℤ) : Prop :=
  trigger = .null ∨ trigger = .number part

instance (trigger : Trigger) (part : ℤ) : Decidable (trigger.Matches part) :=
  inferInstanceAs (Decidable (trigger = .null ∨ trigger = .number part))

/-- Both triggers of an entry match the hour and minute of a minute since the epoch. -/
def CronEntry.Due (entry : CronEntry J) (minute : ℤ) : Prop :=
  entry.hour.Matches (clock.hour minute) ∧ entry.minute.Matches (clock.minute minute)

instance (entry : CronEntry J) (minute : ℤ) : Decidable (entry.Due clock minute) :=
  inferInstanceAs (Decidable (_ ∧ _))

/-- A check of a trigger finds that it matches exactly if it does. -/
theorem checkTrigger_eq_true {trigger : Trigger} {part : ℤ} :
  checkTrigger trigger part = .ok true ↔ trigger.Matches part
  := by
  cases trigger with
  | number q =>
      simp only [checkTrigger, Trigger.Matches, reduceCtorEq, false_or, Except.ok.injEq,
        decide_eq_true_eq, Trigger.number.injEq]
      exact eq_comm
  | _ => simp [checkTrigger, Trigger.Matches]

/-- The job of an entry is called exactly if the entry is due. -/
theorem runjob_calls (now : ℚ) (entry : CronEntry J) :
  (runjob clock perform now entry).1
    = if entry.Due clock (minuteOf now) then [entry.job] else []
  := by
  have hhour := @checkTrigger_eq_true entry.hour (clock.timeHour now)
  have hminute := @checkTrigger_eq_true entry.minute (clock.timeMin now)
  unfold runjob
  split
  case h_1 key h =>
      rw [if_neg]
      intro hdue
      cases h.symm.trans (hhour.mpr hdue.1)
  case h_2 h =>
      rw [if_neg]
      intro hdue
      cases h.symm.trans (hhour.mpr hdue.1)
  case h_3 h =>
      split
      case h_1 key h' =>
          rw [if_neg]
          intro hdue
          cases h'.symm.trans (hminute.mpr hdue.2)
      case h_2 h' =>
          rw [if_neg]
          intro hdue
          cases h'.symm.trans (hminute.mpr hdue.2)
      case h_3 h' => rw [if_pos ⟨hhour.mp h, hminute.mp h'⟩]

variable {logMsg : Text → List Text → Except Text Unit}

/-- When the exception of its first entry can be logged, a pass goes on with the rest. -/
theorem runjobs_cons {now : ℚ} {entry : CronEntry J} (rest : List (CronEntry J))
    (h : ∀ exc, (runjob clock perform now entry).2 = .error exc → jobFail logMsg exc = .ok ()) :
  runjobs clock perform logMsg now (entry :: rest)
    = ((runjob clock perform now entry).1 ++ (runjobs clock perform logMsg now rest).1,
      (runjobs clock perform logMsg now rest).2)
  := by
  rw [runjobs]
  split
  case h_1 hend => rw [hend]
  case h_2 calls exc hend =>
      rw [h exc (by rw [hend]), hend]

/-- A pass comes to its end exactly if the exceptions of its entries can be logged. -/
theorem runjobs_ok_iff {now : ℚ} {crontab : List (CronEntry J)} :
  (runjobs clock perform logMsg now crontab).2 = .ok () ↔ Logged clock perform logMsg now crontab
  := by
  induction crontab with
  | nil => simp [runjobs, Logged]
  | cons entry rest ih =>
      have hcons : Logged clock perform logMsg now (entry :: rest)
          ↔ (∀ exc, (runjob clock perform now entry).2 = .error exc → jobFail logMsg exc = .ok ())
            ∧ Logged clock perform logMsg now rest :=
        List.forall_mem_cons
      by_cases h : ∀ exc, (runjob clock perform now entry).2 = .error exc →
          jobFail logMsg exc = .ok ()
      · rw [runjobs_cons clock perform rest h, hcons, and_iff_right h, ih]
      · rw [hcons]
        apply iff_of_false _ (fun hall => h hall.1)
        obtain ⟨exc, hexc, hfail⟩ : ∃ exc, (runjob clock perform now entry).2 = .error exc
            ∧ jobFail logMsg exc ≠ .ok () := by
          simpa using h
        have hend : runjob clock perform now entry
            = ((runjob clock perform now entry).1, .error exc) := by
          rw [← hexc]
        rw [runjobs, hend]
        dsimp only
        cases hlog : jobFail logMsg exc with
        | ok => exact absurd hlog hfail
        | error exc' => nofun

/-- A pass that comes to its end calls the jobs of the entries that are due, each once. -/
theorem runjobs_calls {now : ℚ} {crontab : List (CronEntry J)}
    (h : Logged clock perform logMsg now crontab) :
  (runjobs clock perform logMsg now crontab).1
    = (crontab.filter (fun entry => entry.Due clock (minuteOf now))).map CronEntry.job
  := by
  induction crontab with
  | nil => rfl
  | cons entry rest ih =>
      obtain ⟨hentry, hrest⟩ := List.forall_mem_cons.mp h
      rw [runjobs_cons clock perform rest hentry, runjob_calls, ih hrest, List.filter_cons]
      split
      case isTrue hdue => simp [hdue]
      case isFalse hdue => simp [hdue]

end Jobs

end Gusher
