import Mathlib.Logic.Relation
import Mathlib.Logic.Function.Basic
import Mathlib.Order.Basic
import Mathlib.Tactic.Common

/-!
# Marking what can be reached

A depth-first walk through a graph that marks every vertex it comes to, without looking whether
the vertex is marked already.  The graph is given by the list of the successors of each vertex.
When a rank increases along the edges and is bounded, the walk ends, and what it has marked are
the vertices that can be reached from the start.
-/

namespace Mark

variable {K : Type*}

/-- There is an edge from `i` to `j`. -/
def Edge (next : K → List K) (i j : K) : Prop :=
  j ∈ next i

/-- There is a path from `i` to `j`. -/
def Path (next : K → List K) : K → K → Prop :=
  Relation.ReflTransGen (Edge next)

variable {next : K → List K}

/-- What can be reached is the start, and what can be reached from its successors. -/
theorem path_iff {i k : K} :
  Path next i k ↔ k = i ∨ ∃ j ∈ next i, Path next j k
  := Relation.ReflTransGen.cases_head_iff.trans (or_congr_left eq_comm)

variable [DecidableEq K]

/-- The walk from `i`, with the marks `m` so far; `none` when it is deeper than the fuel. -/
def mark (next : K → List K) : ℕ → (K → Bool) → K → Option (K → Bool)
  | 0, _, _ => none
  | fuel + 1, m, i => (next i).foldlM (mark next fuel) (Function.update m i true)

/-- What walks from a list of vertices mark, when each of them marks what it can reach. -/
theorem foldlM_mark {fuel : ℕ} {js : List K}
    (h : ∀ j ∈ js, ∀ m, ∃ m', mark next fuel m j = some m'
      ∧ ∀ k, m' k = true ↔ m k = true ∨ Path next j k) (m : K → Bool) :
  ∃ m', js.foldlM (mark next fuel) m = some m'
    ∧ ∀ k, m' k = true ↔ m k = true ∨ ∃ j ∈ js, Path next j k
  := by
  induction js generalizing m with
  | nil => exact ⟨m, rfl, by simp⟩
  | cons j js ih =>
      obtain ⟨m₁, hm₁, hpath₁⟩ := h j List.mem_cons_self m
      obtain ⟨m₂, hm₂, hpath₂⟩ := ih (fun j' hj' => h j' (List.mem_cons_of_mem _ hj')) m₁
      use m₂
      constructor
      · rw [List.foldlM_cons, hm₁]
        exact hm₂
      · intro k
        simp only [hpath₂, hpath₁, List.mem_cons, exists_eq_or_imp, or_assoc]

/-- With enough fuel the walk ends, and marks exactly what can be reached. -/
theorem mark_spec (rank : K → ℕ) (bound : ℕ)
    (hrank : ∀ i, ∀ j ∈ next i, rank i < rank j ∧ rank j < bound) {fuel : ℕ} (hpos : 0 < fuel)
    {i : K} (hfuel : bound ≤ rank i + fuel) (m : K → Bool) :
  ∃ m', mark next fuel m i = some m' ∧ ∀ k, m' k = true ↔ m k = true ∨ Path next i k
  := by
  induction fuel generalizing i m with
  | zero => cases hpos
  | succ fuel ih =>
      have hnext : ∀ j ∈ next i, ∀ m, ∃ m', mark next fuel m j = some m'
          ∧ ∀ k, m' k = true ↔ m k = true ∨ Path next j k := by
        intro j hj m
        obtain ⟨hlt, hbound⟩ := hrank i j hj
        apply ih
        · omega
        · omega
      obtain ⟨m', hm', hpath⟩ := foldlM_mark hnext (Function.update m i true)
      refine ⟨m', hm', ?_⟩
      intro k
      rw [hpath, path_iff, ← or_assoc]
      apply or_congr_left
      by_cases hk : k = i
      · simp [hk]
      · simp [hk]

end Mark
