import Mathlib.Tactic.Common

/-!
# Procedures that query a server

A procedure computes an answer by sending queries to a server, one after the other; what it does
next depends on the responses.  It may raise an exception instead.

The server is given by a partial function `serve`: in the state `s` the query `q` can have the
response `r` when `serve s q r` is `some t`, and leads to `t`.  A server may leave open which
response it gives.

What procedures are for is said by a sequential specification.  Procedures that meet it each on
its own meet it one after the other (`RunsAll.refines`).
-/

/-- A sequential specification: which answers a call may give, and what it does. -/
structure Spec (κ α M : Type) where
  allows : M → κ → Option α → Prop
  next : M → κ → M

namespace Spec

variable {κ α M : Type} (spec : Spec κ α M)

/-- The calls can give these answers one after the other, and lead to this state. -/
def Runs (m : M) : List (κ × Option α) → M → Prop
  | [], m' => m' = m
  | c :: cs, m' => spec.allows m c.1 c.2 ∧ Runs (spec.next m c.1) cs m'

variable {spec}

/-- Where the calls lead. -/
theorem Runs.state_eq {m m' : M} {cs : List κ} {outs : List (Option α)}
    (hlength : outs.length = cs.length) (h : spec.Runs m (cs.zip outs) m') :
  m' = cs.foldl spec.next m
  := by
  induction cs generalizing m outs with
  | nil => exact h
  | cons c cs ih =>
      cases outs with
      | nil => cases hlength
      | cons out outs => exact ih (Nat.succ.inj hlength) h.2

/-- The answers, when they only depend on the calls. -/
theorem Runs.answers_eq {f : κ → Option α} (hf : ∀ m c out, spec.allows m c out → out = f c)
    {m m' : M} {cs : List κ} {outs : List (Option α)} (hlength : outs.length = cs.length)
    (h : spec.Runs m (cs.zip outs) m') :
  outs = cs.map f
  := by
  induction cs generalizing m outs with
  | nil => exact List.length_eq_zero_iff.mp hlength
  | cons c cs ih =>
      cases outs with
      | nil => cases hlength
      | cons out outs =>
          rw [List.map_cons, hf m c out h.1, ← ih (Nat.succ.inj hlength) h.2]

theorem runs_append {m m' : M} {cs ds : List (κ × Option α)} :
  spec.Runs m (cs ++ ds) m' ↔ ∃ n, spec.Runs m cs n ∧ spec.Runs n ds m'
  := by
  induction cs generalizing m with
  | nil => simp [Runs]
  | cons c cs ih => simp [Runs, ih, and_assoc]

end Spec

/-- A procedure with queries `σ`, responses `ρ` and answers `α`. -/
inductive Proc (σ ρ α : Type) where
  | done (a : α)
  | raise
  | query (q : σ) (next : ρ → Proc σ ρ α)

namespace Proc

variable {σ ρ α β : Type}

/-- One procedure after the other. -/
protected def bind : Proc σ ρ α → (α → Proc σ ρ β) → Proc σ ρ β
  | done a, f => f a
  | raise, _ => raise
  | query q next, f => query q (fun r => (next r).bind f)

instance : Monad (Proc σ ρ) where
  pure := done
  bind := Proc.bind

/-- The procedure that makes one query. -/
def ask (q : σ) : Proc σ ρ ρ :=
  query q done

/-- The value of a function which may raise an exception. -/
def ofOption : Option α → Proc σ ρ α
  | some a => done a
  | none => raise

@[simp]
theorem pure_eq (a : α) :
  (pure a : Proc σ ρ α) = done a
  := rfl

@[simp]
theorem done_bind (a : α) (f : α → Proc σ ρ β) :
  (done a >>= f) = f a
  := rfl

@[simp]
theorem raise_bind (f : α → Proc σ ρ β) :
  ((raise : Proc σ ρ α) >>= f) = raise
  := rfl

@[simp]
theorem query_bind (q : σ) (next : ρ → Proc σ ρ α) (f : α → Proc σ ρ β) :
  (query q next >>= f) = query q (fun r => next r >>= f)
  := rfl

@[simp]
theorem ask_bind (q : σ) (f : ρ → Proc σ ρ β) :
  (ask q >>= f) = query q f
  := rfl

@[simp]
theorem ite_bind (c : Prop) [Decidable c] (p p' : Proc σ ρ α) (f : α → Proc σ ρ β) :
  ((if c then p else p') >>= f) = if c then p >>= f else p' >>= f
  := by
  split
  case isTrue => rfl
  case isFalse => rfl

@[simp]
theorem ofOption_some (a : α) :
  (ofOption (some a) : Proc σ ρ α) = done a
  := rfl

@[simp]
theorem ofOption_none :
  (ofOption none : Proc σ ρ α) = raise
  := rfl

/-- What a procedure returns when it has come to its end; `none` is an exception. -/
def result : Proc σ ρ α → Option (Option α)
  | done a => some (some a)
  | raise => some none
  | query _ _ => none

/-! ### Procedures on their own -/

variable {S : Type} (serve : S → σ → ρ → Option S)

/-- The procedure can take the server from `s` to `t` and give the answer `out`, when no other
queries come between its own; it raises when `out` is `none`. -/
def Runs : Proc σ ρ α → S → Option α → S → Prop
  | done a, s, out, t => out = some a ∧ t = s
  | raise, s, out, t => out = none ∧ t = s
  | query q next, s, out, t => ∃ r u, serve s q r = some u ∧ Runs (next r) u out t

/-- One procedure after the other, each on its own. -/
def RunsAll : List (Proc σ ρ α) → S → List (Option α) → S → Prop
  | [], s, outs, t => outs = [] ∧ t = s
  | p :: ps, s, outs, t =>
      ∃ out rest u, outs = out :: rest ∧ Runs serve p s out u ∧ RunsAll ps u rest t

variable {serve}

@[simp]
theorem runs_done {a : α} {s t : S} {out : Option α} :
  Runs serve (done a : Proc σ ρ α) s out t ↔ out = some a ∧ t = s
  := Iff.rfl

@[simp]
theorem runs_raise {s t : S} {out : Option α} :
  Runs serve (raise : Proc σ ρ α) s out t ↔ out = none ∧ t = s
  := Iff.rfl

@[simp]
theorem runs_query {q : σ} {next : ρ → Proc σ ρ α} {s t : S} {out : Option α} :
  Runs serve (query q next) s out t ↔ ∃ r u, serve s q r = some u ∧ Runs serve (next r) u out t
  := Iff.rfl

@[simp]
theorem runs_ofOption {a : Option α} {s t : S} {out : Option α} :
  Runs serve (ofOption a : Proc σ ρ α) s out t ↔ out = a ∧ t = s
  := by
  cases a with
  | none => rfl
  | some a => rfl

/-- What has come to its end needs no server. -/
theorem runs_of_result {p : Proc σ ρ α} {s : S} {out : Option α} (h : p.result = some out) :
  Runs serve p s out s
  := by
  cases p with
  | done a => exact ⟨(Option.some.inj h).symm, rfl⟩
  | raise => exact ⟨(Option.some.inj h).symm, rfl⟩
  | query q next => cases h

/-- One procedure after the other: the second begins where the first has ended, unless the first
raises an exception. -/
theorem runs_bind {p : Proc σ ρ α} {f : α → Proc σ ρ β} {s t : S} {out : Option β} :
  Runs serve (p >>= f) s out t
    ↔ (out = none ∧ Runs serve p s none t)
      ∨ ∃ a u, Runs serve p s (some a) u ∧ Runs serve (f a) u out t
  := by
  induction p generalizing s with
  | done a => simp
  | raise => simp
  | query q next ih =>
      simp only [query_bind, runs_query, ih]
      constructor
      · rintro ⟨r, u, hserve, (⟨hout, hruns⟩ | ⟨a, v, hruns, hrest⟩)⟩
        · exact Or.inl ⟨hout, r, u, hserve, hruns⟩
        · exact Or.inr ⟨a, v, ⟨r, u, hserve, hruns⟩, hrest⟩
      · rintro (⟨hout, r, u, hserve, hruns⟩ | ⟨a, v, ⟨r, u, hserve, hruns⟩, hrest⟩)
        · exact ⟨r, u, hserve, Or.inl ⟨hout, hruns⟩⟩
        · exact ⟨r, u, hserve, Or.inr ⟨a, v, hruns, hrest⟩⟩

/-- A server that always responds lets every procedure come to its end. -/
theorem exists_runs (hserve : ∀ s q, ∃ r t, serve s q r = some t) (p : Proc σ ρ α) (s : S) :
  ∃ out t, Runs serve p s out t
  := by
  induction p generalizing s with
  | done a => exact ⟨some a, s, rfl, rfl⟩
  | raise => exact ⟨none, s, rfl, rfl⟩
  | query q next ih =>
      obtain ⟨r, u, hr⟩ := hserve s q
      obtain ⟨out, t, hout⟩ := ih r u
      exact ⟨out, t, r, u, hr, hout⟩

theorem exists_runsAll (hserve : ∀ s q, ∃ r t, serve s q r = some t) (ps : List (Proc σ ρ α))
    (s : S) :
  ∃ outs t, RunsAll serve ps s outs t
  := by
  induction ps generalizing s with
  | nil => exact ⟨[], s, rfl, rfl⟩
  | cons p ps ih =>
      obtain ⟨out, u, hout⟩ := exists_runs hserve p s
      obtain ⟨outs, t, houts⟩ := ih u
      exact ⟨out :: outs, t, out, outs, u, rfl, hout, houts⟩

/-- Procedures which meet a specification each on its own, in terms of a relation to its states, meet
it one after the other. -/
theorem RunsAll.simulates {κ M : Type} {proc : κ → Proc σ ρ α} {spec : Spec κ α M}
    {R : S → M → Prop} {P : κ → Prop}
    (hcall : ∀ s m c out t, R s m → P c → Runs serve (proc c) s out t →
      spec.allows m c out ∧ R t (spec.next m c))
    {cs : List κ} (hcs : ∀ c ∈ cs, P c) {s t : S} {m : M} {outs : List (Option α)} (hs : R s m)
    (h : RunsAll serve (cs.map proc) s outs t) :
  outs.length = cs.length ∧ ∃ m', spec.Runs m (cs.zip outs) m' ∧ R t m'
  := by
  induction cs generalizing s m outs with
  | nil =>
      obtain ⟨rfl, rfl⟩ := h
      exact ⟨rfl, m, rfl, hs⟩
  | cons c cs ih =>
      obtain ⟨out, rest, u, rfl, hfirst, hrest⟩ := h
      obtain ⟨hallows, hu⟩ := hcall s m c out u hs (hcs c List.mem_cons_self) hfirst
      obtain ⟨hlength, m', hruns, ht⟩ := ih (fun d hd => hcs d (List.mem_cons_of_mem c hd)) hu hrest
      exact ⟨congrArg (· + 1) hlength, m', ⟨hallows, hruns⟩, ht⟩

/-- The same, when the states of the server determine those of the specification. -/
theorem RunsAll.refines {κ M : Type} {proc : κ → Proc σ ρ α} {spec : Spec κ α M} {I : S → Prop}
    {abs : S → M}
    (hcall : ∀ s c out t, I s → Runs serve (proc c) s out t →
      I t ∧ spec.allows (abs s) c out ∧ abs t = spec.next (abs s) c)
    {cs : List κ} {s t : S} {outs : List (Option α)} (hs : I s)
    (h : RunsAll serve (cs.map proc) s outs t) :
  I t ∧ outs.length = cs.length ∧ spec.Runs (abs s) (cs.zip outs) (abs t)
  := by
  have hsimulates : ∀ s m c out t, I s ∧ abs s = m → True → Runs serve (proc c) s out t →
      spec.allows m c out ∧ I t ∧ abs t = spec.next m c := by
    rintro s _ c out t ⟨hs, rfl⟩ - hruns
    obtain ⟨ht, hallows, hnext⟩ := hcall s c out t hs hruns
    exact ⟨hallows, ht, hnext⟩
  obtain ⟨hlength, m', hruns, ht, rfl⟩ :=
    h.simulates hsimulates (fun _ _ => trivial) ⟨hs, rfl⟩
  exact ⟨ht, hlength, hruns⟩

/-! ### Procedures with other queries -/

/-- The procedures do the same, with queries that are related. -/
inductive Rel {τ : Type} (R : σ → τ → Prop) : Proc σ ρ α → Proc τ ρ α → Prop where
  | done (a : α) : Rel R (done a) (done a)
  | raise : Rel R raise raise
  | query {q : σ} {q' : τ} {next : ρ → Proc σ ρ α} {next' : ρ → Proc τ ρ α} (hq : R q q')
      (hnext : ∀ r, Rel R (next r) (next' r)) : Rel R (query q next) (query q' next')

/-- When a server does what another one does with related queries, in states that are related, the
procedures give the same answers. -/
theorem Rel.simulates {τ T : Type} {R : σ → τ → Prop} {serve' : T → τ → ρ → Option T}
    {I : S → T → Prop}
    (hserve : ∀ s s' q q' r t', I s s' → R q q' → serve' s' q' r = some t' →
      ∃ t, serve s q r = some t ∧ I t t')
    {p : Proc σ ρ α} {p' : Proc τ ρ α} (h : Rel R p p') {s : S} {s' t' : T} {out : Option α}
    (hs : I s s') (hruns : Runs serve' p' s' out t') :
  ∃ t, Runs serve p s out t ∧ I t t'
  := by
  induction h generalizing s s' with
  | done a =>
      obtain ⟨rfl, rfl⟩ := hruns
      exact ⟨s, ⟨rfl, rfl⟩, hs⟩
  | raise =>
      obtain ⟨rfl, rfl⟩ := hruns
      exact ⟨s, ⟨rfl, rfl⟩, hs⟩
  | query hq hnext ih =>
      obtain ⟨r, u', hu', hrest⟩ := hruns
      obtain ⟨u, hu, hI⟩ := hserve s s' _ _ r u' hs hq hu'
      obtain ⟨t, ht, hI'⟩ := ih r hI hrest
      exact ⟨t, ⟨r, u, hu, ht⟩, hI'⟩

end Proc
