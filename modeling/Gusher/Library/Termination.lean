import Mathlib.Data.Finset.Insert
import Mathlib.Tactic.Common

/-!
# Threads that come to an end

A system of threads in which every step is one of one thread.  The states of a thread are ordered by
what may come next, whatever the other threads do.  When no thread goes on for ever by itself, finitely
many of them together do not either, in whatever order they move (`acc_moves`).
-/

namespace Termination

variable {ι τ : Type*}

/-- One of the threads in `A` goes from its state to one that may come next, and the others in `A` stay
where they are. -/
def Moves (next : τ → τ → Prop) (A : Finset ι) (f g : ι → τ) : Prop :=
  ∃ w ∈ A, next (f w) (g w) ∧ ∀ v ∈ A, v ≠ w → g v = f v

/-- There is no infinite sequence of states, each of which may come after the one before. -/
def Ends {σ : Type*} (next : σ → σ → Prop) : σ → Prop :=
  Acc (fun t s => next s t)

theorem Ends.intro {σ : Type*} {next : σ → σ → Prop} {s : σ}
    (h : ∀ t, next s t → Ends next t) :
  Ends next s
  := Acc.intro s h

theorem Ends.next {σ : Type*} {next : σ → σ → Prop} {s t : σ} (h : Ends next s) (ht : next s t) :
  Ends next t
  := Acc.inv h ht

/-- All sequences of a system end when those of another one do that makes all its steps. -/
theorem Ends.of_simulation {σ σ' : Type*} {next : σ → σ → Prop} (next' : σ' → σ' → Prop)
    (f : σ → σ') (Inv : σ → Prop)
    (hstep : ∀ s t, Inv s → next s t → Inv t ∧ next' (f s) (f t)) {s : σ} (hs : Inv s)
    (h : Ends next' (f s)) :
  Ends next s
  := by
  generalize hx : f s = x at h
  induction h generalizing s with
  | intro x _ ih =>
      subst hx
      apply Ends.intro
      intro t ht
      obtain ⟨hinv, hnext⟩ := hstep s t hs ht
      exact ih (f t) hnext hinv rfl

variable {next : τ → τ → Prop} [DecidableEq ι]

/-- Threads each of which comes to an end come to an end together. -/
theorem ends_moves {A : Finset ι} {f : ι → τ} (h : ∀ w ∈ A, Ends next (f w)) :
  Ends (Moves next A) f
  := by
  induction A using Finset.induction_on generalizing f with
  | empty =>
      apply Ends.intro
      rintro g ⟨w, hw, -⟩
      simp at hw
  | insert a A ha ih =>
      -- the thread `a` has the first say, and the others the second
      have hfirst : Ends next (f a) := h a (Finset.mem_insert_self a A)
      have hrest : ∀ v ∈ A, Ends next (f v) := fun v hv => h v (Finset.mem_insert_of_mem hv)
      clear h
      generalize hx : f a = x at hfirst
      induction hfirst generalizing f with
      | intro x _ iha =>
          have hothers : Ends (Moves next A) f := ih hrest
          induction hothers with
          | intro f _ ihf =>
              apply Ends.intro
              rintro g ⟨w, hw, hnext, hstay⟩
              have hold : ∀ v ∈ A, v ≠ w → g v = f v :=
                fun v hv => hstay v (Finset.mem_insert_of_mem hv)
              rcases Finset.mem_insert.mp hw with rfl | hw
              · apply iha (g w) (by rwa [← hx]) _ rfl
                intro v hv
                rw [hold v hv (by rintro rfl; exact ha hv)]
                exact hrest v hv
              · have haw : a ≠ w := by
                  rintro rfl
                  exact ha hw
                apply ihf g ⟨w, hw, hnext, hold⟩
                · intro v hv
                  by_cases hvw : v = w
                  · rw [hvw]
                    exact (hrest w hw).next hnext
                  · rw [hold v hv hvw]
                    exact hrest v hv
                · rw [hstay a (Finset.mem_insert_self a A) haw, hx]

end Termination
