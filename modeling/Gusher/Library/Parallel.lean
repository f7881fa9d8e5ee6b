import Gusher.Library.Proc
import Mathlib.Order.Basic

/-!
# Two procedures at the same time

A schedule says whose query the server executes next: `true` stands for the first procedure, and
`false` for the second.  When one procedure has come to its end, the other one runs on its own
(`Parallel.runs_right`).
-/

namespace Proc

variable {S σ ρ α β : Type} (serve : S → σ → ρ → Option S)

/-- With the schedule, the procedures can take the server from `s` to `t` and give the answers
`a` and `b`. -/
def Parallel : List Bool → Proc σ ρ α → Proc σ ρ β → S → Option α → Option β → S → Prop
  | [], p, p', s, a, b, t => p.result = some a ∧ p'.result = some b ∧ t = s
  | true :: w, p, p', s, a, b, t =>
      ∃ q next r u, p = query q next ∧ serve s q r = some u ∧ Parallel w (next r) p' u a b t
  | false :: w, p, p', s, a, b, t =>
      ∃ q next r u, p' = query q next ∧ serve s q r = some u ∧ Parallel w p (next r) u a b t

/-- The schedule has the queries of one procedure before those of the other. -/
def Ordered (w : List Bool) : Prop :=
  w.Pairwise (· ≤ ·) ∨ w.Pairwise (· ≥ ·)

instance (w : List Bool) : Decidable (Ordered w) :=
  inferInstanceAs (Decidable (_ ∨ _))

variable {serve} {w : List Bool} {p : Proc σ ρ α} {p' : Proc σ ρ β} {s t : S} {a : Option α}
  {b : Option β}

/-- The procedures change places. -/
theorem Parallel.swap (h : Parallel serve w p p' s a b t) :
  Parallel serve (w.map not) p' p s b a t
  := by
  induction w generalizing p p' s with
  | nil => exact ⟨h.2.1, h.1, h.2.2⟩
  | cons side w ih =>
      cases side with
      | true =>
          obtain ⟨q, next, r, u, hp, hserve, hrest⟩ := h
          exact ⟨q, next, r, u, hp, hserve, ih hrest⟩
      | false =>
          obtain ⟨q, next, r, u, hp, hserve, hrest⟩ := h
          exact ⟨q, next, r, u, hp, hserve, ih hrest⟩

theorem pairwise_map_not {w : List Bool} :
  ((w.map not).Pairwise (· ≤ ·) ↔ w.Pairwise (· ≥ ·))
    ∧ ((w.map not).Pairwise (· ≥ ·) ↔ w.Pairwise (· ≤ ·))
  := by
  have hnot : ∀ x y : Bool, (!x) ≤ (!y) ↔ y ≤ x := by decide
  constructor
  · simp only [List.pairwise_map, hnot, ge_iff_le]
  · simp only [List.pairwise_map, ge_iff_le, hnot]

theorem ordered_map_not :
  Ordered (w.map not) ↔ Ordered w
  := by rw [Ordered, Ordered, pairwise_map_not.1, pairwise_map_not.2, or_comm]

/-- A procedure that has come to its end leaves the server to the other one. -/
theorem Parallel.runs_right (h : Parallel serve w p p' s a b t) {out : Option α}
    (hp : p.result = some out) :
  a = out ∧ Runs serve p' s b t
  := by
  induction w generalizing p' s with
  | nil =>
      obtain ⟨ha, hb, rfl⟩ := h
      refine ⟨Option.some.inj (ha.symm.trans hp), ?_⟩
      cases p' with
      | done c => exact ⟨(Option.some.inj hb).symm, rfl⟩
      | raise => exact ⟨(Option.some.inj hb).symm, rfl⟩
      | query q next => cases hb
  | cons side w ih =>
      cases side with
      | true =>
          obtain ⟨q, next, r, u, rfl, -⟩ := h
          cases hp
      | false =>
          obtain ⟨q, next, r, u, rfl, hserve, hrest⟩ := h
          obtain ⟨ha, hruns⟩ := ih hrest
          exact ⟨ha, r, u, hserve, hruns⟩

theorem Parallel.runs_left (h : Parallel serve w p p' s a b t) {out : Option β}
    (hp : p'.result = some out) :
  b = out ∧ Runs serve p s a t
  := h.swap.runs_right hp

/-- A procedure that has something left to do has a place in the schedule. -/
theorem Parallel.mem_left {q : σ} {next : ρ → Proc σ ρ α}
    (h : Parallel serve w (query q next) p' s a b t) :
  true ∈ w
  := by
  induction w generalizing p' s with
  | nil => cases h.1
  | cons side w ih =>
      cases side with
      | true => exact List.mem_cons_self
      | false =>
          obtain ⟨q', next', r, u, -, -, hrest⟩ := h
          exact List.mem_cons_of_mem false (ih hrest)

theorem Parallel.mem_right {q : σ} {next : ρ → Proc σ ρ β}
    (h : Parallel serve w p (query q next) s a b t) :
  false ∈ w
  := by
  obtain ⟨side, hside, hnot⟩ := List.mem_map.mp h.swap.mem_left
  cases side with
  | true => cases hnot
  | false => exact hside

/-- One procedure after the other. -/
theorem Runs.parallel {u : S} (h : Runs serve p s a u) (h' : Runs serve p' u b t) :
  ∃ w, w.Pairwise (· ≥ ·) ∧ Parallel serve w p p' s a b t
  := by
  have hright : ∀ {p' : Proc σ ρ β} {s : S} {p : Proc σ ρ α}, p.result = some a →
      Runs serve p' s b t → ∃ n, Parallel serve (List.replicate n false) p p' s a b t := by
    intro p' s p hp h'
    induction p' generalizing s with
    | done c => exact ⟨0, hp, congrArg some h'.1.symm, h'.2⟩
    | raise => exact ⟨0, hp, congrArg some h'.1.symm, h'.2⟩
    | query q next ih =>
        obtain ⟨r, u, hserve, hrest⟩ := h'
        obtain ⟨n, hn⟩ := ih r hrest
        exact ⟨n + 1, q, next, r, u, rfl, hserve, hn⟩
  have hreplicate : ∀ n, (List.replicate n false).Pairwise (· ≥ ·) := by
    intro n
    simp [List.pairwise_replicate]
  induction p generalizing s with
  | done c =>
      obtain ⟨rfl, rfl⟩ := h
      obtain ⟨n, hn⟩ := hright (p := .done c) rfl h'
      exact ⟨_, hreplicate n, hn⟩
  | raise =>
      obtain ⟨rfl, rfl⟩ := h
      obtain ⟨n, hn⟩ := hright (p := .raise) rfl h'
      exact ⟨_, hreplicate n, hn⟩
  | query q next ih =>
      obtain ⟨r, v, hserve, hrest⟩ := h
      obtain ⟨w, hw, hparallel⟩ := ih r hrest
      refine ⟨true :: w, ?_, q, next, r, v, rfl, hserve, hparallel⟩
      apply List.pairwise_cons.mpr
      exact ⟨fun x _ => Bool.le_true x, hw⟩

/-- The first procedure begins, and the second one has a query before the first one ends. -/
theorem not_ordered {w : List Bool} (hright : false ∈ w) (hw : ¬ w.Pairwise (· ≥ ·)) :
  ¬ Ordered (true :: w)
  := by
  rintro (h | h)
  · exact absurd (List.rel_of_pairwise_cons h hright) (by decide)
  · exact hw h.of_cons

end Proc
