import Mathlib.Order.Notation
import Mathlib.Tactic.Common

/-!
# Loops

A loop is given by what one round does with its state: it goes on, it stops with a result, or it
faults.  `run` makes a number of rounds.  That a loop comes to its end is proved with an invariant
and a measure (`exists_run_eq_done`), and that it does not with an invariant under which no round
stops (`run_ne_done`).  Where each round that goes on makes a measure smaller, `total` is the loop
as a function.
-/

/-- The outcome of a round. -/
inductive Round (σ α : Type*) where
  | next (s : σ)
  | stop (a : α)
  | fault

/-- How far a loop has come. -/
inductive Progress (α : Type*) where
  | running
  | fault
  | done (a : α)

/-- What follows a loop gets its result. -/
def Progress.bind {α β : Type*} (next : α → Progress β) : Progress α → Progress β
  | running => running
  | fault => fault
  | done a => next a

namespace Loop

variable {σ α : Type*} (round : σ → Round σ α)

/-- The loop from the state `s`, for a number of rounds. -/
def run : ℕ → σ → Progress α
  | 0, _ => .running
  | fuel + 1, s =>
      match round s with
      | .next s => run fuel s
      | .stop a => .done a
      | .fault => .fault

/-- The loop from the state `s`, when each round that goes on makes the measure smaller. -/
def total (measure : σ → ℕ) (h : ∀ {s s'}, round s = .next s' → measure s' < measure s) (s : σ) :
    Option α :=
  match _hround : round s with
  | .next s => total measure h s
  | .stop a => some a
  | .fault => none
  termination_by measure s
  decreasing_by exact h _hround

/-- The states before the rounds of the loop from the state `s`. -/
inductive Visits (s : σ) : σ → Prop where
  | start : Visits s s
  | next {t t' : σ} (h : Visits s t) (hround : round t = .next t') : Visits s t'

variable {round} {s s' : σ} {a a' : α} {fuel : ℕ}

theorem run_next (h : round s = .next s') :
  run round (fuel + 1) s = run round fuel s'
  := by
  rw [run, h]

theorem run_stop (h : round s = .stop a) :
  run round (fuel + 1) s = .done a
  := by
  rw [run, h]

theorem run_fault (h : round s = .fault) :
  run round (fuel + 1) s = .fault
  := by
  rw [run, h]

section Total

variable {measure : σ → ℕ} {h : ∀ {s s'}, round s = .next s' → measure s' < measure s}

theorem total_next (hround : round s = .next s') :
  total round measure h s = total round measure h s'
  := by
  rw [total]
  split <;> simp_all

theorem total_stop (hround : round s = .stop a) :
  total round measure h s = some a
  := by
  rw [total]
  split <;> simp_all

theorem total_fault (hround : round s = .fault) :
  total round measure h s = none
  := by
  rw [total]
  split <;> simp_all

/-- What holds of the state before each round holds of the result. -/
theorem of_total_eq_some {Post : α → Prop} (Inv : σ → Prop)
    (hnext : ∀ s s', Inv s → round s = .next s' → Inv s')
    (hstop : ∀ s a, Inv s → round s = .stop a → Post a) (hs : Inv s)
    (htotal : total round measure h s = some a) :
  Post a
  := by
  induction hm : measure s using Nat.strongRecOn generalizing s with
  | ind m ih =>
      cases hround : round s with
      | next s' =>
          rw [total_next hround] at htotal
          have hlt := h hround
          rw [hm] at hlt
          exact ih (measure s') hlt (hnext s s' hs hround) htotal rfl
      | stop b =>
          rw [total_stop hround] at htotal
          obtain rfl := Option.some.inj htotal
          exact hstop s b hs hround
      | fault =>
          rw [total_fault hround] at htotal
          cases htotal

end Total

/-- A loop has one result. -/
theorem run_det {fuel' : ℕ} (h : run round fuel s = .done a) (h' : run round fuel' s = .done a') :
  a = a'
  := by
  induction fuel generalizing s fuel' with
  | zero => cases h
  | succ fuel ih =>
      cases fuel' with
      | zero => cases h'
      | succ fuel' =>
          cases hround : round s with
          | next s' =>
              rw [run_next hround] at h h'
              exact ih h h'
          | stop b =>
              rw [run_stop hround] at h h'
              cases h
              cases h'
              rfl
          | fault =>
              rw [run_fault hround] at h
              cases h

/-- A loop and what follows it have one result. -/
theorem bind_run_det {β : Type*} {next : α → Progress β} {b b' : β} {fuel' : ℕ}
    (h : (run round fuel s).bind next = .done b) (h' : (run round fuel' s).bind next = .done b') :
  b = b'
  := by
  cases hrun : run round fuel s with
  | running =>
      rw [hrun] at h
      cases h
  | fault =>
      rw [hrun] at h
      cases h
  | done a =>
      cases hrun' : run round fuel' s with
      | running =>
          rw [hrun'] at h'
          cases h'
      | fault =>
          rw [hrun'] at h'
          cases h'
      | done a' =>
          obtain rfl := run_det hrun hrun'
          rw [hrun] at h
          rw [hrun'] at h'
          exact Progress.done.inj (h.symm.trans h')

/-- A loop comes to its end when an invariant holds of its states, and each round stops or makes
the measure smaller. -/
theorem exists_run_eq_done {Post : α → Prop} (Inv : σ → Prop) (measure : σ → ℕ)
    (hround : ∀ s, Inv s → (∃ a, round s = .stop a ∧ Post a) ∨
      ∃ s', round s = .next s' ∧ Inv s' ∧ measure s' < measure s) (h : Inv s) :
  ∃ fuel a, run round fuel s = .done a ∧ Post a
  := by
  induction hm : measure s using Nat.strongRecOn generalizing s with
  | ind m ih =>
      obtain ⟨a, hstop, hpost⟩ | ⟨s', hnext, hinv, hlt⟩ := hround s h
      · exact ⟨1, a, run_stop hstop, hpost⟩
      · rw [hm] at hlt
        obtain ⟨fuel, a, hrun, hpost⟩ := ih (measure s') hlt hinv rfl
        exact ⟨fuel + 1, a, (run_next hnext).trans hrun, hpost⟩

/-- A loop does not come to its end when no round stops as long as an invariant holds. -/
theorem run_ne_done (Inv : σ → Prop)
    (hround : ∀ s, Inv s → round s = .fault ∨ ∃ s', round s = .next s' ∧ Inv s') (h : Inv s) :
  run round fuel s ≠ .done a
  := by
  induction fuel generalizing s with
  | zero => simp [run]
  | succ fuel ih =>
      obtain hfault | ⟨s', hnext, hinv⟩ := hround s h
      · simp [run_fault hfault]
      · rw [run_next hnext]
        exact ih hinv

end Loop
