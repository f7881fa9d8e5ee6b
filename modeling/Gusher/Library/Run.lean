import Mathlib.Logic.Function.Basic
import Mathlib.Tactic.Common

/-!
# Runs of a transition function

A system is given by a partial transition function `step : σ → ℓ → Option σ`: in the state
`s` the action `l` is possible when `step s l` is `some t`, and leads to `t`.  Everything a
system leaves open (which party moves, what the environment answers) is part of the action,
so a run is determined by its initial state and its list of actions.

A property of all runs is proved by an invariant that one step preserves
(`run_invariant`).  For systems which keep their invariant only while the steps meet a
condition, `Meets` says that all steps of a run do.
-/

namespace Run

variable {σ ℓ : Type*} (step : σ → ℓ → Option σ)

/-- The state reached from `s` by the actions `ls`, if all of them are possible. -/
def run : σ → List ℓ → Option σ
  | s, [] => some s
  | s, l :: ls => (step s l).bind (fun t => run t ls)

/-- All the steps of the run from `s` by the actions `ls` meet the condition `ok`, as far as
the run goes. -/
def Meets (ok : σ → ℓ → Prop) : σ → List ℓ → Prop
  | _, [] => True
  | s, l :: ls => ok s l ∧ ∀ t, step s l = some t → Meets ok t ls

/-- `t` is reached from `s` by some run. -/
def Reaches (s t : σ) : Prop :=
  ∃ ls, run step s ls = some t

variable {step}

/-- Whether the steps of a run meet a condition can be computed. -/
instance decidableMeets {ok : σ → ℓ → Prop} [∀ s l, Decidable (ok s l)] :
    ∀ s ls, Decidable (Meets step ok s ls)
  | _, [] => isTrue trivial
  | s, l :: ls =>
      match h : step s l with
      | none => decidable_of_iff (ok s l) (by simp [Meets, h])
      | some t =>
          have : Decidable (Meets step ok t ls) := decidableMeets t ls
          decidable_of_iff (ok s l ∧ Meets step ok t ls) (by simp [Meets, h])

@[simp]
theorem run_nil (s : σ) :
  run step s [] = some s
  := rfl

theorem run_cons {s t : σ} {l : ℓ} {ls : List ℓ} :
  run step s (l :: ls) = some t ↔ ∃ u, step s l = some u ∧ run step u ls = some t
  := by
  rw [run]
  apply Option.bind_eq_some_iff

/-- A run of `ls ++ ls'` is a run of `ls` followed by a run of `ls'`. -/
theorem run_append {s t : σ} {ls ls' : List ℓ} :
  run step s (ls ++ ls') = some t ↔ ∃ u, run step s ls = some u ∧ run step u ls' = some t
  := by
  induction ls generalizing s with
  | nil => simp
  | cons l ls ih =>
      simp only [List.cons_append, run_cons, ih]
      constructor
      · rintro ⟨v, hv, u, hu, ht⟩
        use u, ⟨v, hv, hu⟩
      · rintro ⟨u, ⟨v, hv, hu⟩, ht⟩
        use v, hv, u

theorem Reaches.refl (s : σ) :
  Reaches step s s
  := ⟨[], rfl⟩

/-- One more step from a reached state. -/
theorem Reaches.tail {s t u : σ} {l : ℓ} (h : Reaches step s t) (hl : step t l = some u) :
  Reaches step s u
  := by
  obtain ⟨ls, hls⟩ := h
  use ls ++ [l]
  apply run_append.mpr
  use t, hls
  apply run_cons.mpr
  use u, hl
  apply run_nil

theorem Reaches.trans {s t u : σ} (h : Reaches step s t) (h' : Reaches step t u) :
  Reaches step s u
  := by
  obtain ⟨ls, hls⟩ := h
  obtain ⟨ls', hls'⟩ := h'
  use ls ++ ls'
  apply run_append.mpr
  use t, hls

theorem Reaches.single {s t : σ} {l : ℓ} (hl : step s l = some t) :
  Reaches step s t
  := (Reaches.refl s).tail hl

/-- The steps of `ls ++ ls'` meet a condition when those of `ls` do, and those of `ls'` from
the state then reached. -/
theorem meets_append {ok : σ → ℓ → Prop} {s : σ} {ls ls' : List ℓ} :
  Meets step ok s (ls ++ ls')
    ↔ Meets step ok s ls ∧ ∀ t, run step s ls = some t → Meets step ok t ls'
  := by
  induction ls generalizing s with
  | nil => simp [Meets]
  | cons l ls ih =>
      simp only [List.cons_append, Meets, ih, run_cons]
      constructor
      · rintro ⟨hl, hls⟩
        refine ⟨⟨hl, fun u hu => (hls u hu).1⟩, ?_⟩
        rintro t ⟨u, hu, ht⟩
        apply (hls u hu).2 t ht
      · rintro ⟨⟨hl, hls⟩, hls'⟩
        exact ⟨hl, fun u hu => ⟨hls u hu, fun t ht => hls' t ⟨u, hu, ht⟩⟩⟩

/-- A condition that the actions meet in every state is met by all steps. -/
theorem meets_of_forall {ok : σ → ℓ → Prop} {s : σ} {ls : List ℓ}
    (h : ∀ s, ∀ l ∈ ls, ok s l) :
  Meets step ok s ls
  := by
  induction ls generalizing s with
  | nil => trivial
  | cons l ls ih =>
      use h s l List.mem_cons_self
      intro t _
      apply ih
      exact fun s l hl => h s l (List.mem_cons_of_mem _ hl)

/-- An invariant that every step meeting `ok` preserves holds at the end of every run whose
steps all meet `ok`. -/
theorem run_invariant_of_meets {ok : σ → ℓ → Prop} {I : σ → Prop}
    (hstep : ∀ s l t, I s → ok s l → step s l = some t → I t)
    {s t : σ} {ls : List ℓ} (hs : I s) (hok : Meets step ok s ls)
    (hrun : run step s ls = some t) :
  I t
  := by
  induction ls generalizing s with
  | nil =>
      obtain rfl := Option.some.inj hrun
      apply hs
  | cons l ls ih =>
      obtain ⟨u, hu, hrun⟩ := run_cons.mp hrun
      apply ih (hstep s l u hs hok.1 hu) (hok.2 u hu) hrun

/-- An invariant that every step preserves holds at the end of every run. -/
theorem run_invariant {I : σ → Prop} (hstep : ∀ s l t, I s → step s l = some t → I t)
    {s t : σ} {ls : List ℓ} (hs : I s) (hrun : run step s ls = some t) :
  I t
  := by
  induction ls generalizing s with
  | nil =>
      obtain rfl := Option.some.inj hrun
      apply hs
  | cons l ls ih =>
      obtain ⟨u, hu, hrun⟩ := run_cons.mp hrun
      apply ih (hstep s l u hs hu) hrun

/-- An invariant that every step preserves holds in every reached state. -/
theorem Reaches.invariant {I : σ → Prop} (hstep : ∀ s l t, I s → step s l = some t → I t)
    {s t : σ} (hs : I s) (h : Reaches step s t) :
  I t
  := by
  obtain ⟨ls, hls⟩ := h
  apply run_invariant hstep hs hls

end Run
