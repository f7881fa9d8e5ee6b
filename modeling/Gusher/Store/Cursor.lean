import Mathlib.Data.List.Basic
import Mathlib.Tactic.Common

/-!
# Results with a cursor

The functions that take rows out of a result share a cursor and the handle of the result.  The
functions on all rows call back for each row, before they move the cursor, and the callback may use
the same result.  What happens to a result is a sequence of actions of the Scheme code that holds
it, the callbacks included.
-/

namespace Gusher

/-- The part of `struct pg_res` that the functions share: whether `res` is a result or the null
pointer, the numbers of fields and of rows, and the cursor. -/
structure PgRes where
  res : Bool
  nfields : ℕ
  tuples : ℕ
  cursor : ℕ
  deriving DecidableEq

/-- What happens to a result. -/
inductive ResEvent where
  /-- an accessor of libpq is applied, to a result or to the null pointer -/
  | access (res : Bool)
  /-- a row is returned, or given to a callback -/
  | row (i : ℕ)
  | cleared
  /-- what `pg-end-stream?` returns -/
  | endStream (b : Bool)
  /-- an exception leaves a callback -/
  | raised
  deriving DecidableEq

/-- The functions that call back for each row. -/
inductive RowLoop where
  | each
  | map
  deriving DecidableEq

/-- A result, the functions on it whose callback is running (the innermost first), and what has
happened. -/
structure ResState where
  pgr : PgRes
  loops : List RowLoop
  trace : List ResEvent
  deriving DecidableEq

/-- `build_row`, and the row is given to the one who wants it. -/
def buildNext (s : ResState) : ResState :=
  { s with trace := s.trace ++ (List.replicate s.pgr.nfields (.access s.pgr.res)
      ++ [.row s.pgr.cursor]) }

/-- `pgr->cursor++` -/
def advance (s : ResState) : ResState :=
  { s with pgr := { s.pgr with cursor := s.pgr.cursor + 1 } }

/-- `PQclear`, which does nothing to the null pointer, and the null pointer is put in place. -/
def pqClear (s : ResState) : ResState :=
  if s.pgr.res then
    { s with pgr := { s.pgr with res := false }, trace := s.trace ++ [.cleared] }
  else s

def pgGetRow (s : ResState) : ResState :=
  if s.pgr.cursor ≥ s.pgr.tuples then s else advance (buildNext s)

def pgNextRow (s : ResState) : ResState :=
  if s.pgr.cursor ≥ s.pgr.tuples then pqClear s else advance (buildNext s)

def pgClear (s : ResState) : ResState :=
  pqClear s

def pgDone (s : ResState) : ResState :=
  { s with trace := s.trace ++ [.endStream (!s.pgr.res)] }

/-- The loop of `pg_each_row`, and of `pg_map_rows` with a function, up to the next callback. -/
def rowLoop (l : RowLoop) (s : ResState) : ResState :=
  if s.pgr.cursor < s.pgr.tuples then { buildNext s with loops := l :: s.loops } else pqClear s

/-- The loop of `pg_map_rows` without a function, for a number of rows. -/
def mapRows : ℕ → ResState → ResState
  | 0, s => pqClear s
  | n + 1, s => mapRows n (advance (buildNext s))

/-- What the Scheme code does next. -/
inductive ResAct where
  | getRow
  | nextRow
  | eachRow
  /-- `pg-map-rows` with a function -/
  | mapRowsWith
  /-- `pg-map-rows` without a function -/
  | mapRows
  | clear
  | endStream
  /-- the running callback returns -/
  | return
  /-- the running callback raises an exception, which leaves the function on all rows -/
  | raise
  deriving DecidableEq

/-- What an action does. -/
def resStep (s : ResState) : ResAct → ResState
  | .getRow => pgGetRow s
  | .nextRow => pgNextRow s
  | .eachRow => rowLoop .each s
  | .mapRowsWith => rowLoop .map s
  | .mapRows => Gusher.mapRows (s.pgr.tuples - s.pgr.cursor) s
  | .clear => pgClear s
  | .endStream => pgDone s
  | .return =>
      match s.loops with
      | [] => s
      | l :: loops => rowLoop l (advance { s with loops := loops })
  | .raise =>
      match s.loops with
      | [] => s
      | _ :: loops => { s with loops := loops, trace := s.trace ++ [.raised] }

/-- A result as `pg_exec` makes it. -/
def resStart (nfields tuples : ℕ) : ResState where
  pgr := ⟨true, nfields, tuples, 0⟩
  loops := []
  trace := []

/-- What becomes of a result. -/
def resRun (s : ResState) (acts : List ResAct) : ResState :=
  acts.foldl resStep s

/-! ### The protocol -/

def rows (trace : List ResEvent) : List ℕ :=
  trace.filterMap (fun e => match e with
    | .row i => some i
    | _ => none)

/-- The protocol of a result: the rows that are given are the first ones, each once and in order,
none is given after `pg-end-stream?` has answered `#t`, no accessor is applied to a result that has
been cleared, and a result is cleared at most once. -/
structure Protocol (tuples : ℕ) (trace : List ResEvent) : Prop where
  rows_eq : ∃ k ≤ tuples, rows trace = List.range k
  endStream : trace.Pairwise (fun e f => e = .endStream true → ∀ i, f ≠ .row i)
  access : .access false ∉ trace
  cleared : trace.count .cleared ≤ 1

/-- A function that gives a row may be called. -/
def MayGive (s : ResState) : Prop :=
  s.pgr.cursor < s.pgr.tuples → s.pgr.res = true ∧ s.loops = [] ∧ .raised ∉ s.trace

/-- As long as there is a row left, a function that gives rows is not called after the result has
been cleared, in a callback, or after a callback has raised an exception, and a callback does not
return after the result has been cleared. -/
def Allowed (s : ResState) : ResAct → Prop
  | .getRow | .nextRow | .eachRow | .mapRowsWith | .mapRows => MayGive s
  | .clear | .endStream | .raise => True
  | .return => s.pgr.cursor + 1 < s.pgr.tuples → s.pgr.res = true

/-- Every action in a sequence is allowed where it happens. -/
def AllAllowed : ResState → List ResAct → Prop
  | _, [] => True
  | s, a :: acts => Allowed s a ∧ AllAllowed (resStep s a) acts

/-! ### The invariant -/

/-- A row has been given for which the cursor has not moved. -/
def ResState.Pending (s : ResState) : Prop :=
  s.loops ≠ [] ∨ .raised ∈ s.trace

instance (s : ResState) : Decidable s.Pending :=
  inferInstanceAs (Decidable (_ ∨ _))

/-- What allowed actions preserve. -/
structure ResInv (s : ResState) : Prop where
  rows_eq : rows s.trace = List.range (s.pgr.cursor + if s.Pending then 1 else 0)
  bound : s.pgr.cursor + (if s.Pending then 1 else 0) ≤ s.pgr.tuples
  endStream : s.trace.Pairwise (fun e f => e = .endStream true → ∀ i, f ≠ .row i)
  access : .access false ∉ s.trace
  fresh : s.pgr.res = true → .cleared ∉ s.trace ∧ .endStream true ∉ s.trace
  cleared : s.trace.count .cleared ≤ 1
  loops : s.loops.length ≤ 1
  raised : .raised ∈ s.trace → s.loops = []

@[simp]
theorem rows_append (t u : List ResEvent) :
  rows (t ++ u) = rows t ++ rows u
  := List.filterMap_append

/-- The invariant is the protocol, and more. -/
theorem ResInv.protocol {s : ResState} (h : ResInv s) :
  Protocol s.pgr.tuples s.trace
  where
  rows_eq := ⟨_, h.bound, h.rows_eq⟩
  endStream := h.endStream
  access := h.access
  cleared := h.cleared

theorem resInv_start (nfields tuples : ℕ) :
  ResInv (resStart nfields tuples)
  where
  rows_eq := rfl
  bound := Nat.zero_le _
  endStream := List.Pairwise.nil
  access := by simp [resStart]
  fresh := by simp [resStart]
  cleared := by simp [resStart]
  loops := Nat.zero_le _
  raised := by simp [resStart]

/-- The trace after a row has been built. -/
theorem rows_buildNext (s : ResState) :
  rows (buildNext s).trace = rows s.trace ++ [s.pgr.cursor]
  := by
  have haccess : rows (List.replicate s.pgr.nfields (.access s.pgr.res)) = [] := by
    rw [rows, List.filterMap_eq_nil_iff]
    intro e he
    rw [(List.mem_replicate.mp he).2]
  rw [buildNext, rows_append, rows_append, haccess]
  rfl

theorem mem_buildNext {s : ResState} {e : ResEvent} (h : e ∈ (buildNext s).trace) :
  e ∈ s.trace ∨ e = .access s.pgr.res ∨ e = .row s.pgr.cursor
  := by
  simp only [buildNext, List.mem_append, List.mem_replicate, List.mem_singleton] at h
  tauto

/-- A row is given when that is allowed, and the cursor moves or a callback starts. -/
theorem ResInv.give {s : ResState} (h : ResInv s) (hrow : s.pgr.cursor < s.pgr.tuples)
    (hmay : MayGive s) {t : ResState} (htrace : t.trace = (buildNext s).trace)
    (hpgr : t.pgr.res = s.pgr.res ∧ t.pgr.tuples = s.pgr.tuples)
    (hloops : t.loops.length ≤ 1)
    (hcursor : t.pgr.cursor + (if t.loops ≠ [] then 1 else 0) = s.pgr.cursor + 1) :
  ResInv t
  := by
  obtain ⟨hres, hnone, hraised⟩ := hmay hrow
  obtain ⟨hcleared, hend⟩ := h.fresh hres
  have hpending : ¬ s.Pending := by
    rintro (hloop | hraise)
    · exact hloop hnone
    · exact hraised hraise
  have hraised' : .raised ∉ t.trace := by
    rw [htrace]
    intro hmem
    obtain hmem | hmem | hmem := mem_buildNext hmem
    · exact hraised hmem
    · cases hmem
    · cases hmem
  have hpending' : t.Pending ↔ t.loops ≠ [] := by
    constructor
    · rintro (hloop | hraise)
      · exact hloop
      · exact absurd hraise hraised'
    · exact Or.inl
  have hnew : t.pgr.cursor + (if t.Pending then 1 else 0) = s.pgr.cursor + 1 := by
    simp only [hpending', hcursor]
  have hrows := h.rows_eq
  rw [if_neg hpending, Nat.add_zero] at hrows
  exact {
    rows_eq := by rw [hnew, htrace, rows_buildNext, hrows, List.range_succ]
    bound := by
      rw [hnew, hpgr.2]
      exact hrow
    endStream := by
      rw [htrace, buildNext]
      apply List.pairwise_append.mpr
      refine ⟨h.endStream, ?_, ?_⟩
      · apply List.pairwise_append.mpr
        refine ⟨?_, List.pairwise_singleton _ _, ?_⟩
        · apply List.pairwise_replicate.mpr
          right
          nofun
        · intro e he f hf heq
          rw [(List.mem_replicate.mp he).2] at heq
          cases heq
      · rintro e he f hf rfl
        exact absurd he hend
    access := by
      rw [htrace]
      intro hmem
      obtain hmem | hmem | hmem := mem_buildNext hmem
      · exact h.access hmem
      · rw [hres] at hmem
        cases hmem
      · cases hmem
    fresh := by
      intro _
      rw [htrace]
      constructor
      · intro hmem
        obtain hmem | hmem | hmem := mem_buildNext hmem
        · exact hcleared hmem
        · cases hmem
        · cases hmem
      · intro hmem
        obtain hmem | hmem | hmem := mem_buildNext hmem
        · exact hend hmem
        · cases hmem
        · cases hmem
    cleared := by
      have hcount : t.trace.count .cleared = s.trace.count .cleared := by
        rw [htrace, buildNext, List.count_append]
        simp [List.count_append, List.count_replicate]
      rw [hcount]
      exact h.cleared
    loops := hloops
    raised := fun hmem => absurd hmem hraised'
  }

/-- Something else than a row happens. -/
theorem ResInv.push {s : ResState} (h : ResInv s) {t : ResState} {e : ResEvent}
    (hrow : ∀ i, e ≠ .row i) (haccess : e ≠ .access false) (htrace : t.trace = s.trace ++ [e])
    (hcursor : t.pgr.cursor = s.pgr.cursor) (htuples : t.pgr.tuples = s.pgr.tuples)
    (hpending : t.Pending ↔ s.Pending) (hloops : t.loops.length ≤ 1)
    (hfresh : t.pgr.res = true → .cleared ∉ t.trace ∧ .endStream true ∉ t.trace)
    (hcleared : t.trace.count .cleared ≤ 1) (hraised : .raised ∈ t.trace → t.loops = []) :
  ResInv t
  where
  rows_eq := by
    have hrows : rows [e] = [] := by
      cases e with
      | row i => exact absurd rfl (hrow i)
      | _ => rfl
    rw [htrace, rows_append, hrows, List.append_nil, h.rows_eq, hcursor]
    simp only [hpending]
  bound := by
    rw [hcursor, htuples]
    simp only [hpending]
    exact h.bound
  endStream := by
    rw [htrace]
    apply List.pairwise_append.mpr
    refine ⟨h.endStream, List.pairwise_singleton _ _, ?_⟩
    intro _ _ f hf _ i
    rw [List.mem_singleton.mp hf]
    apply hrow
  access := by
    rw [htrace, List.mem_append, List.mem_singleton]
    rintro (hmem | hmem)
    · exact h.access hmem
    · exact haccess hmem.symm
  fresh := hfresh
  cleared := hcleared
  loops := hloops
  raised := hraised

/-- Clearing is always allowed. -/
theorem ResInv.pqClear {s : ResState} (h : ResInv s) :
  ResInv (pqClear s)
  := by
  by_cases hres : s.pgr.res = true
  · obtain ⟨hcleared, -⟩ := h.fresh hres
    rw [Gusher.pqClear, if_pos hres]
    refine h.push (e := .cleared) nofun nofun rfl rfl rfl ?_ h.loops nofun ?_ ?_
    · simp [ResState.Pending]
    · simp only [List.count_append, List.count_eq_zero_of_not_mem hcleared]
      decide
    · intro hmem
      apply h.raised
      simpa using hmem
  · rwa [Gusher.pqClear, if_neg hres]

theorem ResInv.pgDone {s : ResState} (h : ResInv s) :
  ResInv (pgDone s)
  := by
  refine h.push (e := .endStream (!s.pgr.res)) nofun nofun rfl rfl rfl ?_ h.loops ?_ ?_ ?_
  · simp [ResState.Pending, Gusher.pgDone]
  · intro hres
    obtain ⟨hcleared, hend⟩ := h.fresh hres
    have hres : s.pgr.res = true := hres
    simp [Gusher.pgDone, hcleared, hend, hres]
  · have hcount := h.cleared
    simpa [Gusher.pgDone, List.count_append] using hcount
  · intro hmem
    apply h.raised
    simpa [Gusher.pgDone] using hmem

/-- The row for the callback, or the end of the loop. -/
theorem ResInv.rowLoop {s : ResState} (h : ResInv s) (hmay : MayGive s) (l : RowLoop) :
  ResInv (rowLoop l s)
  := by
  unfold Gusher.rowLoop
  split
  case isTrue hrow =>
      obtain ⟨-, hnone, -⟩ := hmay hrow
      apply h.give (t := { buildNext s with loops := l :: s.loops }) hrow hmay rfl ⟨rfl, rfl⟩
      · rw [hnone]
        exact Nat.le_refl 1
      · rfl
  case isFalse => exact h.pqClear

/-- A row is given and the cursor moves. -/
theorem ResInv.advance {s : ResState} (h : ResInv s) (hrow : s.pgr.cursor < s.pgr.tuples)
    (hmay : MayGive s) :
  ResInv (advance (buildNext s)) ∧ MayGive (advance (buildNext s))
  := by
  obtain ⟨hres, hnone, hraised⟩ := hmay hrow
  constructor
  · apply h.give (t := Gusher.advance (buildNext s)) hrow hmay rfl ⟨rfl, rfl⟩ h.loops
    rw [if_neg (fun hloops => hloops hnone)]
    rfl
  · intro _
    refine ⟨hres, hnone, ?_⟩
    intro hmem
    obtain hmem | hmem | hmem := mem_buildNext hmem
    · exact hraised hmem
    · cases hmem
    · cases hmem

/-- All rows that are left are given. -/
theorem ResInv.mapRows {s : ResState} (h : ResInv s) (hmay : MayGive s) {n : ℕ}
    (hn : s.pgr.cursor + n ≤ s.pgr.tuples) :
  ResInv (mapRows n s)
  := by
  induction n generalizing s with
  | zero => exact h.pqClear
  | succ n ih =>
      obtain ⟨hnext, hmay'⟩ := h.advance (by omega) hmay
      apply ih hnext hmay'
      simp only [Gusher.advance, buildNext]
      omega

/-- A callback has returned, and the cursor moves. -/
theorem ResInv.returned {s : ResState} (h : ResInv s) {l : RowLoop} (hloops : s.loops = [l]) :
  ResInv (Gusher.advance { s with loops := [] })
  := by
  have hraised : .raised ∉ s.trace := by
    intro hmem
    have hnone := h.raised hmem
    rw [hloops] at hnone
    cases hnone
  have hpending : s.Pending := by
    left
    rw [hloops]
    nofun
  have hpending' : ¬ (Gusher.advance { s with loops := [] }).Pending := by
    rintro (hloop | hraise)
    · exact hloop rfl
    · exact hraised hraise
  have hrows := h.rows_eq
  have hbound := h.bound
  rw [if_pos hpending] at hrows hbound
  exact {
    rows_eq := by
      rw [if_neg hpending']
      exact hrows
    bound := by
      rw [if_neg hpending']
      exact hbound
    endStream := h.endStream
    access := h.access
    fresh := h.fresh
    cleared := h.cleared
    loops := Nat.zero_le _
    raised := fun _ => rfl
  }

/-- An allowed action preserves the invariant. -/
theorem ResInv.step {s : ResState} (h : ResInv s) {a : ResAct} (ha : Allowed s a) :
  ResInv (resStep s a)
  := by
  cases a with
  | getRow =>
      simp only [resStep, pgGetRow]
      split
      case isTrue => exact h
      case isFalse hrow => exact (h.advance (by omega) ha).1
  | nextRow =>
      simp only [resStep, pgNextRow]
      split
      case isTrue => exact h.pqClear
      case isFalse hrow => exact (h.advance (by omega) ha).1
  | eachRow => exact h.rowLoop ha .each
  | mapRowsWith => exact h.rowLoop ha .map
  | mapRows =>
      apply h.mapRows ha
      have hbound := h.bound
      omega
  | clear => exact h.pqClear
  | endStream => exact h.pgDone
  | «return» =>
      have hlength := h.loops
      cases hloops : s.loops with
      | nil =>
          simp only [resStep, hloops]
          exact h
      | cons l rest =>
          rw [hloops] at hlength
          obtain rfl : rest = [] := List.eq_nil_of_length_eq_zero (by simpa using hlength)
          simp only [resStep, hloops]
          apply (h.returned hloops).rowLoop
          intro hrow
          refine ⟨ha hrow, rfl, ?_⟩
          intro hmem
          have hnone := h.raised hmem
          rw [hloops] at hnone
          cases hnone
  | raise =>
      have hlength := h.loops
      cases hloops : s.loops with
      | nil =>
          simp only [resStep, hloops]
          exact h
      | cons l rest =>
          rw [hloops] at hlength
          obtain rfl : rest = [] := List.eq_nil_of_length_eq_zero (by simpa using hlength)
          simp only [resStep, hloops]
          refine h.push (e := .raised) nofun nofun rfl rfl rfl ?_ (Nat.zero_le _) ?_ ?_
            (fun _ => rfl)
          · simp [ResState.Pending, hloops]
          · intro hres
            obtain ⟨hcleared, hend⟩ := h.fresh hres
            simp [hcleared, hend]
          · have hcount := h.cleared
            simpa [List.count_append] using hcount

theorem tuples_pqClear (s : ResState) :
  (pqClear s).pgr.tuples = s.pgr.tuples
  := by
  unfold pqClear
  split
  case isTrue => rfl
  case isFalse => rfl

theorem tuples_rowLoop (l : RowLoop) (s : ResState) :
  (rowLoop l s).pgr.tuples = s.pgr.tuples
  := by
  unfold rowLoop
  split
  case isTrue => rfl
  case isFalse => apply tuples_pqClear

theorem tuples_mapRows (n : ℕ) (s : ResState) :
  (mapRows n s).pgr.tuples = s.pgr.tuples
  := by
  induction n generalizing s with
  | zero => apply tuples_pqClear
  | succ n ih => exact ih (advance (buildNext s))

/-- The number of rows does not change. -/
theorem tuples_resStep (s : ResState) (a : ResAct) :
  (resStep s a).pgr.tuples = s.pgr.tuples
  := by
  cases a with
  | getRow =>
      simp only [resStep, pgGetRow]
      split
      case isTrue => rfl
      case isFalse => rfl
  | nextRow =>
      simp only [resStep, pgNextRow]
      split
      case isTrue => apply tuples_pqClear
      case isFalse => rfl
  | eachRow => apply tuples_rowLoop
  | mapRowsWith => apply tuples_rowLoop
  | mapRows => apply tuples_mapRows
  | clear => apply tuples_pqClear
  | endStream => rfl
  | «return» =>
      simp only [resStep]
      split
      case h_1 => rfl
      case h_2 => apply tuples_rowLoop
  | raise =>
      simp only [resStep]
      split
      case h_1 => rfl
      case h_2 => rfl

/-- Allowed actions preserve the invariant, one after the other. -/
theorem ResInv.run {s : ResState} (h : ResInv s) {acts : List ResAct} (hacts : AllAllowed s acts) :
  ResInv (resRun s acts) ∧ (resRun s acts).pgr.tuples = s.pgr.tuples
  := by
  induction acts generalizing s with
  | nil => exact ⟨h, rfl⟩
  | cons a acts ih =>
      obtain ⟨hinv, htuples⟩ := ih (h.step hacts.1) hacts.2
      exact ⟨hinv, htuples.trans (tuples_resStep s a)⟩

/-- **Results.**  The protocol holds of a result as long as every action is allowed. -/
theorem protocol_of_allowed {nfields tuples : ℕ} {acts : List ResAct}
    (h : AllAllowed (resStart nfields tuples) acts) :
  Protocol tuples (resRun (resStart nfields tuples) acts).trace
  := by
  obtain ⟨hinv, htuples⟩ := (resInv_start nfields tuples).run h
  have hprotocol := hinv.protocol
  rwa [htuples] at hprotocol

instance (s : ResState) : Decidable (MayGive s) :=
  inferInstanceAs (Decidable (_ → _))

instance decidableAllowed (s : ResState) : (a : ResAct) → Decidable (Allowed s a)
  | .getRow | .nextRow | .eachRow | .mapRowsWith | .mapRows => inferInstanceAs (Decidable (MayGive s))
  | .clear | .endStream | .raise => inferInstanceAs (Decidable True)
  | .return => inferInstanceAs (Decidable (_ → _))

instance decidableAllAllowed : (s : ResState) → (acts : List ResAct) → Decidable (AllAllowed s acts)
  | _, [] => inferInstanceAs (Decidable True)
  | s, a :: acts =>
      have := decidableAllAllowed (resStep s a) acts
      inferInstanceAs (Decidable (_ ∧ _))

/-- Two rows, one with `pg-next-row` and one with `pg-each-row`, whose callback asks for the end. -/
theorem protocol_of_two_rows :
  Protocol 2 (resRun (resStart 1 2)
    [.nextRow, .eachRow, .endStream, .return, .endStream, .getRow, .clear]).trace
  := by
  apply protocol_of_allowed
  decide

/-- A row is given, made of nulls, after the result has been cleared and `pg-end-stream?` has
answered `#t`; and a callback that takes a row gets the same one again. -/
theorem protocol_broken :
  ¬ Protocol 1 (resRun (resStart 1 1) [.clear, .endStream, .getRow]).trace ∧
    ¬ Protocol 1 (resRun (resStart 1 1) [.eachRow, .getRow]).trace
  := by
  constructor
  · intro h
    apply h.access
    decide
  · intro h
    obtain ⟨k, hk, hrows⟩ := h.rows_eq
    have hlength := congrArg List.length hrows
    rw [List.length_range] at hlength
    have htwo : (rows (resRun (resStart 1 1) [.eachRow, .getRow]).trace).length = 2 := by decide
    omega

end Gusher
