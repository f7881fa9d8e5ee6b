import Gusher.Library.Proc
import Gusher.Library.Run
import Mathlib.Data.List.Nodup

/-!
# Linearizability

Clients call procedures at the same time, and the server executes their queries one after the
other.  A history records when each call is made and when it returns; a call is identified by its
place in the history.  A history is linearizable when its calls can be put in an order which keeps
two calls in their order when one returned before the other was made, and in which the answers are
those of a sequential specification (`Linearizes`).

Calls that have not returned may be part of the order, when they have already had their effect.
The rule to extend the order is `Linearizes.insert`: a call takes its place anywhere after the
calls that returned before it was made, as long as the calls behind it still have the same answers.
-/

/-! ### The steps of the clients -/

namespace Concurrent

variable {S σ ρ κ α ι : Type}

/-- An event of a history: a call, or the return of the call with the given place. -/
inductive Event (κ α : Type) where
  | call (c : κ)
  | ret (id : ℕ) (out : Option α)
  deriving DecidableEq

/-- A call which has not returned, and what is left of its procedure. -/
structure Active (σ ρ κ α : Type) where
  id : ℕ
  call : κ
  proc : Proc σ ρ α

/-- The server, the calls of the clients, and the history. -/
structure State (S σ ρ κ α ι : Type) where
  server : S
  clients : ι → Option (Active σ ρ κ α)
  history : List (Event κ α)

/-- No client has made a call. -/
def start (s : S) : State S σ ρ κ α ι where
  server := s
  clients _ := none
  history := []

/-- A client makes a call, has a response to its query, or returns. -/
inductive Action (ι ρ κ : Type) where
  | call (i : ι) (c : κ)
  | serve (i : ι) (r : ρ)
  | ret (i : ι)

variable (serve : S → σ → ρ → Option S) (proc : κ → Proc σ ρ α) [DecidableEq ι]

/-- The client has the response `r`. -/
def respond (s : State S σ ρ κ α ι) (i : ι) (r : ρ) (a : Active σ ρ κ α) :
    Option (State S σ ρ κ α ι) :=
  match a.proc with
  | .query q next =>
      (serve s.server q r).map (fun t =>
        { s with server := t, clients := Function.update s.clients i (some { a with proc := next r }) })
  | _ => none

def step (s : State S σ ρ κ α ι) : Action ι ρ κ → Option (State S σ ρ κ α ι)
  | .call i c =>
      if (s.clients i).isNone then
        some { s with
          clients := Function.update s.clients i (some ⟨s.history.length, c, proc c⟩)
          history := s.history ++ [.call c] }
      else none
  | .serve i r => (s.clients i).bind (respond serve s i r)
  | .ret i =>
      (s.clients i).bind (fun a => a.proc.result.map (fun out =>
        { s with
          clients := Function.update s.clients i none
          history := s.history ++ [.ret a.id out] }))

/-- What a step does. -/
inductive Stepped (s : State S σ ρ κ α ι) : State S σ ρ κ α ι → Prop where
  | call (i : ι) (c : κ) (hi : s.clients i = none) :
      Stepped s { s with
        clients := Function.update s.clients i (some ⟨s.history.length, c, proc c⟩)
        history := s.history ++ [.call c] }
  | serve (i : ι) (a : Active σ ρ κ α) (q : σ) (next : ρ → Proc σ ρ α) (r : ρ) (t : S)
      (hi : s.clients i = some a) (hproc : a.proc = .query q next)
      (hserve : serve s.server q r = some t) :
      Stepped s { s with
        server := t
        clients := Function.update s.clients i (some { a with proc := next r }) }
  | ret (i : ι) (a : Active σ ρ κ α) (out : Option α) (hi : s.clients i = some a)
      (hout : a.proc.result = some out) :
      Stepped s { s with
        clients := Function.update s.clients i none
        history := s.history ++ [.ret a.id out] }

variable {serve proc}

/-- A step does one of these. -/
theorem stepped {s t : State S σ ρ κ α ι} {l : Action ι ρ κ}
    (h : step serve proc s l = some t) :
  Stepped serve proc s t
  := by
  cases l with
  | call i c =>
      simp only [step, Option.ite_none_right_eq_some, Option.isNone_iff_eq_none,
        Option.some.injEq] at h
      obtain ⟨hi, rfl⟩ := h
      exact .call i c hi
  | serve i r =>
      obtain ⟨a, hi, hrespond⟩ := Option.bind_eq_some_iff.mp h
      cases hproc : a.proc with
      | done b => simp [respond, hproc] at hrespond
      | raise => simp [respond, hproc] at hrespond
      | query q next =>
          simp only [respond, hproc, Option.map_eq_some_iff] at hrespond
          obtain ⟨u, hserve, rfl⟩ := hrespond
          exact .serve i a q next r u hi hproc hserve
  | ret i =>
      obtain ⟨a, hi, hret⟩ := Option.bind_eq_some_iff.mp h
      obtain ⟨out, hout, rfl⟩ := Option.map_eq_some_iff.mp hret
      exact .ret i a out hi hout

/-! ### Calls in progress -/

/-- The calls in progress were made and have not returned, and no two clients make the same. -/
structure State.WellFormed (s : State S σ ρ κ α ι) : Prop where
  called : ∀ i a, s.clients i = some a → s.history[a.id]? = some (.call a.call)
  pending : ∀ i a, s.clients i = some a → ∀ out, .ret a.id out ∉ s.history
  distinct : ∀ i j a b, s.clients i = some a → s.clients j = some b → a.id = b.id → i = j
  returned : ∀ id out, .ret id out ∈ s.history → id < s.history.length

theorem lt_length_of_called {h : List (Event κ α)} {id : ℕ} {c : κ}
    (hid : h[id]? = some (.call c)) :
  id < h.length
  := (List.getElem?_eq_some_iff.mp hid).1

theorem getElem?_append_of_called {h : List (Event κ α)} {id : ℕ} {c : κ} (e : Event κ α)
    (hid : h[id]? = some (.call c)) :
  (h ++ [e])[id]? = some (.call c)
  := by rw [List.getElem?_append_left (lt_length_of_called hid), hid]

omit [DecidableEq ι] in
theorem wellFormed_start (s : S) :
  (start s : State S σ ρ κ α ι).WellFormed
  where
  called _ _ h := by cases h
  pending _ _ h := by cases h
  distinct _ _ _ _ h := by cases h
  returned _ _ h := by cases h

/-- The call of a client after one client has changed. -/
theorem update_eq_some {β : Type} {f : ι → Option β} {x : Option β} {b : β} {i j : ι}
    (h : Function.update f i x j = some b) :
  (j = i ∧ x = some b) ∨ (j ≠ i ∧ f j = some b)
  := by
  by_cases hj : j = i
  · subst hj
    rw [Function.update_self] at h
    exact Or.inl ⟨rfl, h⟩
  · rw [Function.update_of_ne hj] at h
    exact Or.inr ⟨hj, h⟩

/-- A step keeps this. -/
theorem State.WellFormed.step {s t : State S σ ρ κ α ι} (hwf : s.WellFormed)
    (h : Stepped serve proc s t) :
  t.WellFormed
  := by
  cases h with
  | call i c hi =>
      refine ⟨?_, ?_, ?_, ?_⟩
      · intro j a ha
        rcases update_eq_some ha with ⟨-, hnew⟩ | ⟨-, ha⟩
        · obtain rfl := Option.some.inj hnew
          simp
        · exact getElem?_append_of_called _ (hwf.called j a ha)
      · intro j a ha out hmem
        rw [List.mem_append, List.mem_singleton] at hmem
        rcases hmem with hmem | hmem
        · rcases update_eq_some ha with ⟨-, hnew⟩ | ⟨-, ha⟩
          · obtain rfl := Option.some.inj hnew
            exact absurd (hwf.returned _ _ hmem) (Nat.lt_irrefl _)
          · exact hwf.pending j a ha out hmem
        · cases hmem
      · intro j k a b ha hb hid
        rcases update_eq_some ha with ⟨hj, hnew⟩ | ⟨-, ha⟩
        · rcases update_eq_some hb with ⟨hk, -⟩ | ⟨-, hb⟩
          · rw [hj, hk]
          · obtain rfl := Option.some.inj hnew
            have hlt := lt_length_of_called (hwf.called k b hb)
            rw [← hid] at hlt
            exact absurd hlt (Nat.lt_irrefl _)
        · rcases update_eq_some hb with ⟨-, hnew⟩ | ⟨-, hb⟩
          · obtain rfl := Option.some.inj hnew
            have hlt := lt_length_of_called (hwf.called j a ha)
            rw [hid] at hlt
            exact absurd hlt (Nat.lt_irrefl _)
          · exact hwf.distinct j k a b ha hb hid
      · intro id out hmem
        rw [List.length_append, List.length_singleton]
        rw [List.mem_append, List.mem_singleton] at hmem
        rcases hmem with hmem | hmem
        · exact Nat.lt_succ_of_lt (hwf.returned id out hmem)
        · cases hmem
  | serve i a q next r u hi hproc hserve =>
      have hold : ∀ j b, Function.update s.clients i (some { a with proc := next r }) j = some b →
          ∃ b', s.clients j = some b' ∧ b.id = b'.id ∧ b.call = b'.call := by
        intro j b hb
        rcases update_eq_some hb with ⟨rfl, hnew⟩ | ⟨-, hb⟩
        · rw [← Option.some.inj hnew]
          exact ⟨a, hi, rfl, rfl⟩
        · exact ⟨b, hb, rfl, rfl⟩
      refine ⟨?_, ?_, ?_, hwf.returned⟩
      · intro j b hb
        obtain ⟨b', hb', hid, hcall⟩ := hold j b hb
        rw [hid, hcall]
        exact hwf.called j b' hb'
      · intro j b hb
        obtain ⟨b', hb', hid, -⟩ := hold j b hb
        rw [hid]
        exact hwf.pending j b' hb'
      · intro j k b c hb hc hid
        obtain ⟨b', hb', hidb, -⟩ := hold j b hb
        obtain ⟨c', hc', hidc, -⟩ := hold k c hc
        exact hwf.distinct j k b' c' hb' hc' (by rw [← hidb, hid, hidc])
  | ret i a out hi hout =>
      have hold : ∀ j b, Function.update s.clients i none j = some b →
          j ≠ i ∧ s.clients j = some b := by
        intro j b hb
        rcases update_eq_some hb with ⟨-, hnew⟩ | hb
        · cases hnew
        · exact hb
      refine ⟨?_, ?_, ?_, ?_⟩
      · intro j b hb
        exact getElem?_append_of_called _ (hwf.called j b (hold j b hb).2)
      · intro j b hb out' hmem
        obtain ⟨hj, hb⟩ := hold j b hb
        rw [List.mem_append, List.mem_singleton] at hmem
        rcases hmem with hmem | hmem
        · exact hwf.pending j b hb out' hmem
        · obtain ⟨hid, -⟩ := Event.ret.inj hmem
          exact hj (hwf.distinct j i b a hb hi hid)
      · intro j k b c hb hc
        exact hwf.distinct j k b c (hold j b hb).2 (hold k c hc).2
      · intro id out' hmem
        rw [List.length_append, List.length_singleton]
        rw [List.mem_append, List.mem_singleton] at hmem
        rcases hmem with hmem | hmem
        · exact Nat.lt_succ_of_lt (hwf.returned id out' hmem)
        · obtain ⟨rfl, -⟩ := Event.ret.inj hmem
          exact Nat.lt_succ_of_lt (lt_length_of_called (hwf.called i a hi))

/-! ### Linearizations -/

/-- A call in the order, with what it returns. -/
structure Entry (κ α : Type) where
  id : ℕ
  call : κ
  out : Option α

/-- A call and what it returns. -/
def Entry.answered (e : Entry κ α) : κ × Option α :=
  (e.call, e.out)

/-- The call `a` returned before the call `b` was made. -/
def Precedes (h : List (Event κ α)) (a b : ℕ) : Prop :=
  ∃ p out, h[p]? = some (.ret a out) ∧ p < b

/-- The calls of a history in an order in which a sequential specification allows their answers,
and which leads from `m₀` to `m`. -/
structure Linearizes {M : Type} (spec : Spec κ α M) (m₀ : M) (h : List (Event κ α))
    (order : List (Entry κ α)) (m : M) : Prop where
  nodup : (order.map Entry.id).Nodup
  called : ∀ e ∈ order, h[e.id]? = some (.call e.call)
  returned : ∀ id out, .ret id out ∈ h → ∃ call, ⟨id, call, out⟩ ∈ order
  realTime : order.Pairwise (fun a b => ¬ Precedes h b.id a.id)
  runs : spec.Runs m₀ (order.map Entry.answered) m

theorem not_precedes_of_pending {h : List (Event κ α)} {a b : ℕ}
    (ha : ∀ out, .ret a out ∉ h) :
  ¬ Precedes h a b
  := by
  rintro ⟨p, out, hp, -⟩
  exact ha out (List.mem_of_getElem? hp)

/-- A new event does not change what precedes a call that was made before. -/
theorem precedes_append {h : List (Event κ α)} {a b : ℕ} {e : Event κ α} (hb : b < h.length) :
  Precedes (h ++ [e]) a b ↔ Precedes h a b
  := by
  constructor
  · rintro ⟨p, out, hp, hlt⟩
    rw [List.getElem?_append_left (Nat.lt_trans hlt hb)] at hp
    exact ⟨p, out, hp, hlt⟩
  · rintro ⟨p, out, hp, hlt⟩
    refine ⟨p, out, ?_, hlt⟩
    rw [List.getElem?_append_left (Nat.lt_trans hlt hb)]
    exact hp

namespace Linearizes

variable {M : Type} {spec : Spec κ α M} {m₀ m m' : M} {h : List (Event κ α)}

theorem nil :
  Linearizes spec m₀ [] [] m₀
  where
  nodup := List.nodup_nil
  called _ he := by cases he
  returned _ _ hmem := by cases hmem
  realTime := List.Pairwise.nil
  runs := rfl

/-- A call takes its place in the order: those behind it did not return before it was made. -/
theorem insert {before behind : List (Entry κ α)} {e : Entry κ α}
    (hlin : Linearizes spec m₀ h (before ++ behind) m)
    (hcalled : h[e.id]? = some (.call e.call)) (hpending : ∀ out, .ret e.id out ∉ h)
    (hnew : e.id ∉ (before ++ behind).map Entry.id)
    (htime : ∀ b ∈ behind, ¬ Precedes h b.id e.id)
    (hruns : spec.Runs m₀ ((before ++ e :: behind).map Entry.answered) m') :
  Linearizes spec m₀ h (before ++ e :: behind) m'
  where
  nodup := by
    rw [(List.perm_middle.map Entry.id).nodup_iff, List.map_cons, List.nodup_cons]
    exact ⟨hnew, hlin.nodup⟩
  called := by
    intro a ha
    rcases List.mem_cons.mp (List.perm_middle.mem_iff.mp ha) with rfl | ha
    · exact hcalled
    · exact hlin.called a ha
  returned := by
    intro id out hmem
    obtain ⟨call, hcall⟩ := hlin.returned id out hmem
    exact ⟨call, List.perm_middle.mem_iff.mpr (List.mem_cons_of_mem _ hcall)⟩
  realTime := by
    obtain ⟨hbefore, hbehind, hacross⟩ := List.pairwise_append.mp hlin.realTime
    apply List.pairwise_append.mpr
    refine ⟨hbefore, List.pairwise_cons.mpr ⟨htime, hbehind⟩, ?_⟩
    intro a ha b hb
    rcases List.mem_cons.mp hb with rfl | hb
    · exact not_precedes_of_pending hpending
    · exact hacross a ha b hb
  runs := hruns

/-- A call takes the last place in the order. -/
theorem append {order : List (Entry κ α)} {e : Entry κ α}
    (hlin : Linearizes spec m₀ h order m)
    (hcalled : h[e.id]? = some (.call e.call)) (hpending : ∀ out, .ret e.id out ∉ h)
    (hnew : e.id ∉ order.map Entry.id) (hallows : spec.allows m e.call e.out) :
  Linearizes spec m₀ h (order ++ [e]) (spec.next m e.call)
  := by
  rw [← List.append_nil order] at hlin hnew
  apply hlin.insert hcalled hpending hnew (by simp)
  rw [List.append_nil] at hlin
  rw [List.map_append]
  exact Spec.runs_append.mpr ⟨m, hlin.runs, hallows, rfl⟩

/-- Another call is made. -/
theorem call {order : List (Entry κ α)} (hlin : Linearizes spec m₀ h order m) (c : κ) :
  Linearizes spec m₀ (h ++ [.call c]) order m
  where
  nodup := hlin.nodup
  called e he := getElem?_append_of_called _ (hlin.called e he)
  returned := by
    intro id out hmem
    rw [List.mem_append, List.mem_singleton] at hmem
    rcases hmem with hmem | hmem
    · exact hlin.returned id out hmem
    · cases hmem
  realTime := by
    apply hlin.realTime.imp_of_mem
    intro a b ha hb hab
    rw [precedes_append (lt_length_of_called (hlin.called a ha))]
    exact hab
  runs := hlin.runs

/-- A call in the order returns. -/
theorem ret {order : List (Entry κ α)} (hlin : Linearizes spec m₀ h order m) {e : Entry κ α}
    (he : e ∈ order) :
  Linearizes spec m₀ (h ++ [.ret e.id e.out]) order m
  where
  nodup := hlin.nodup
  called e he := getElem?_append_of_called _ (hlin.called e he)
  returned := by
    intro id out hmem
    rw [List.mem_append, List.mem_singleton] at hmem
    rcases hmem with hmem | hmem
    · exact hlin.returned id out hmem
    · obtain ⟨rfl, rfl⟩ := Event.ret.inj hmem
      exact ⟨e.call, he⟩
  realTime := by
    apply hlin.realTime.imp_of_mem
    intro a b ha hb hab
    rw [precedes_append (lt_length_of_called (hlin.called a ha))]
    exact hab
  runs := hlin.runs

end Linearizes

end Concurrent
